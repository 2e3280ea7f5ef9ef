import Comet.Image.ObjectFile
import Comet.Proofs.Layout.Tiling

/-!
# The object file format

An object file is the entry address and the words of an image, each in two bytes. Nothing is lost in
it and nothing else is accepted: the format pairs off the images that fit memory and the byte
strings of even length from 2 to `2 * 65536`.

* `length_toBytes`, `wordsOnto_eq_some`: pairs of bytes are words, one for one.
* `ofBytes?_eq_ok`: the object files that can be read are those of images that fit.
* `ofBytes?_eq_error`: what is wrong with any others, by their length alone.
* `objectFile_bijective`: the format as a whole; what the assembler makes is within it.
-/

namespace Comet.Image

/-! ## Words in bytes -/

theorem length_flatMap_toBytes (words : List Word) :
    (words.flatMap Word.toBytes).length = 2 * words.length := by
  induction words with
  | nil => rfl
  | cons w words ih =>
    rw [List.flatMap_cons, List.length_append, ih, List.length_cons, Nat.mul_succ, Nat.add_comm]
    rfl

theorem length_toBytes (image : Image) : image.toBytes.length = 2 * (image.size + 1) := by
  rw [toBytes, List.length_append, length_flatMap_toBytes, Array.length_toList, Nat.mul_succ,
    Nat.add_comm]
  rfl

/-- Reading in pairs succeeds on the bytes of words, and finds these words. -/
theorem wordsOnto_eq_some {done words : Array Word} {bytes : List UInt8} :
    wordsOnto done bytes = some words ↔
      ∃ ws : List Word, bytes = ws.flatMap Word.toBytes ∧ words = done ++ ws.toArray := by
  constructor
  · intro h
    fun_induction wordsOnto done bytes with
    | case1 done =>
      cases h
      exact ⟨[], rfl, by simp⟩
    | case2 => cases h
    | case3 done high low rest ih =>
      obtain ⟨ws, rfl, rfl⟩ := ih h
      refine ⟨Word.ofBytes high low :: ws, ?_, by simp⟩
      simp [Word.toBytes]
  · intro h
    obtain ⟨ws, rfl, rfl⟩ := h
    exact wordsOnto_flatMap_toBytes done ws

/-- Reading in pairs fails on a byte left over. -/
theorem wordsOnto_eq_none {done : Array Word} {bytes : List UInt8} :
    wordsOnto done bytes = none ↔ bytes.length % 2 = 1 := by
  fun_induction wordsOnto done bytes with
  | case1 => simp
  | case2 => simp
  | case3 done high low rest ih =>
    rw [ih, List.length_cons, List.length_cons]
    omega

/-! ## Object files -/

/-- **The object files that can be read** are those of the images that fit. -/
theorem ofBytes?_eq_ok {bytes : List UInt8} {image : Image} :
    ofBytes? bytes = .ok image ↔ bytes = image.toBytes ∧ image.size ≤ imageLimit := by
  constructor
  · intro h
    unfold ofBytes? at h
    split at h
    · cases h
    · cases h
    next high low rest =>
    split at h
    · cases h
    next words hwords =>
    obtain ⟨rfl, hfits⟩ := ofWords?_eq_ok h
    obtain ⟨ws, rfl, rfl⟩ := wordsOnto_eq_some.1 hwords
    refine ⟨?_, hfits⟩
    simp [toBytes, Word.toBytes]
  · intro h
    obtain ⟨rfl, hfits⟩ := h
    exact ofBytes?_toBytes image hfits

/-- **What is wrong with an object file**: its length is odd, zero, or more than memory holds. -/
theorem ofBytes?_eq_error {bytes : List UInt8} {e : ImageError} :
    ofBytes? bytes = .error e ↔
      e = .unaligned ∧ bytes.length % 2 = 1 ∨
      e = .empty ∧ bytes.length = 0 ∨
      e = .tooLarge ∧ bytes.length % 2 = 0 ∧ 2 * 65536 < bytes.length := by
  unfold ofBytes?
  split
  · simp [eq_comm]
  · simp [eq_comm]
  next high low rest =>
  rw [List.length_cons, List.length_cons]
  cases hwords : wordsOnto #[] rest with
  | none =>
    have hodd := wordsOnto_eq_none.1 hwords
    simp [show (rest.length + 1 + 1) % 2 = 1 by omega, eq_comm]
  | some words =>
    obtain ⟨ws, rfl, rfl⟩ := wordsOnto_eq_some.1 hwords
    -- the two bytes of the entry address are not among those of the words
    have hlarge : imageLimit < ws.length ↔ 2 * 65536 < 2 * ws.length + 1 + 1 := by
      rw [imageLimit]; omega
    have heven : (2 * ws.length + 1 + 1) % 2 = 0 := by omega
    rw [length_flatMap_toBytes, heven, ← hlarge]
    by_cases h : imageLimit < ws.length <;> simp [ofWords?, h, eq_comm]

/-- **The object file format is a bijection** between the images that fit memory and the byte
strings that hold at least one word, whole words only, and no more than memory does. Every image
that the assembler makes is among the former. -/
theorem objectFile_bijective :
    (∀ image : Image, image.words.size ≤ 65535 → ofBytes? image.toBytes = .ok image) ∧
    (∀ bytes image, ofBytes? bytes = .ok image → image.toBytes = bytes) ∧
    (∀ bytes, (ofBytes? bytes = .error .unaligned ↔ bytes.length % 2 = 1) ∧
      (ofBytes? bytes = .error .empty ↔ bytes.length = 0) ∧
      (ofBytes? bytes = .error .tooLarge ↔ bytes.length % 2 = 0 ∧ 2 * 65536 < bytes.length) ∧
      ((∃ image, ofBytes? bytes = .ok image) ↔
        bytes.length % 2 = 0 ∧ 0 < bytes.length ∧ bytes.length ≤ 2 * 65536)) ∧
    ∀ source a, Assembly.ofSource? source = .ok a → ofBytes? a.image.toBytes = .ok a.image := by
  refine ⟨fun image hfits => ofBytes?_toBytes image hfits, fun bytes image h => ?_,
    fun bytes => ⟨?_, ?_, ?_, ?_⟩, fun source a ha => ?_⟩
  · exact (ofBytes?_eq_ok.1 h).1.symm
  · simp [ofBytes?_eq_error]
  · simp [ofBytes?_eq_error]
  · simp [ofBytes?_eq_error]
  · cases h : ofBytes? bytes with
    | ok image =>
      obtain ⟨rfl, hfits⟩ := ofBytes?_eq_ok.1 h
      have hfits : image.size ≤ 65535 := hfits
      rw [length_toBytes]
      exact iff_of_true ⟨image, rfl⟩ (by omega)
    | error e =>
      refine iff_of_false (fun h => nomatch h.choose_spec) fun hlength => ?_
      rcases ofBytes?_eq_error.1 h with ⟨-, h⟩ | ⟨-, h⟩ | ⟨-, -, h⟩ <;> omega
  · have htiles := Assembly.tiles_of_ofSource? ha
    exact ofBytes?_toBytes a.image (htiles.total.trans_le htiles.fits)

/-- An image of two words after its entry address. -/
theorem objectFile_bijective_two_words :
    (⟨#[0x1010, 0x00FF], 2⟩ : Image).toBytes = [0x00, 0x02, 0x10, 0x10, 0x00, 0xFF] ∧
      ofBytes? [0x00, 0x02, 0x10, 0x10, 0x00, 0xFF] = .ok ⟨#[0x1010, 0x00FF], 2⟩ :=
  ⟨by decide, objectFile_bijective.1 ⟨#[0x1010, 0x00FF], 2⟩ (by decide)⟩

end Comet.Image
