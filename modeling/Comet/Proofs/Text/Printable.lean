import Comet.Proofs.Source.OperandText
import Comet.Text.Column
import Comet.Text.Style
import Comet.Word

/-!
# Printable text

Text without control characters, in lines and in colours.

* `join_lines_injective`: lines can be told apart in the text that they make up.
* `Printable.append`, `printable_padRight`, `printable_hex`: how printable text is made up.
* `withoutEscapes`: what is left of a text without its escape sequences. `Unpaints` says what is
  left of a piece of text wherever it stands, so that it is said piece by piece (`Unpaints.append`,
  `unpaints_paint`).
-/

namespace Comet

namespace Text

/-! ## Control characters -/

/-- The control characters are U+0000 to U+001F and U+007F to U+009F. -/
def isControl (c : Char) : Bool := c.toNat < 0x20 || (0x7F ≤ c.toNat && c.toNat ≤ 0x9F)

/-- A text without control characters. -/
def Printable (text : String) : Prop := ∀ c ∈ text.toList, isControl c = false

instance (text : String) : Decidable (Printable text) :=
  decidable_of_iff (text.toList.all (!isControl ·) = true) (by simp [Printable])

variable {text : String} {c : Char}

theorem Printable.append {s t : String} (hs : Printable s) (ht : Printable t) :
    Printable (s ++ t) := by
  intro c hc
  rw [String.toList_append, List.mem_append] at hc
  exact hc.elim (hs c) (ht c)

theorem Printable.not_mem (h : Printable text) (hc : isControl c = true) : c ∉ text.toList :=
  fun hmem => by simp [h c hmem] at hc

theorem printable_spaces (count : Nat) : Printable (spaces count) := by
  intro c hc
  rw [spaces, String.toList_ofList] at hc
  rw [List.eq_of_mem_replicate hc]
  decide

theorem Printable.padRight (h : Printable text) (width : Nat) :
    Printable (Text.padRight width text) :=
  h.append (printable_spaces _)

theorem Printable.padLeft (h : Printable text) (width : Nat) :
    Printable (Text.padLeft width text) :=
  (printable_spaces _).append h

theorem printable_repr (n : Nat) : Printable (Nat.repr n) := by
  intro c hc
  rw [Nat.toList_repr] at hc
  have hdigit := Nat.isDigit_of_mem_toDigits (by decide) (by decide) hc
  rw [isDigit_iff] at hdigit
  simp only [isControl, Bool.or_eq_false_iff, Bool.and_eq_false_iff, decide_eq_false_iff_not]
  omega

theorem printable_hex (w : Word) : Printable w.hex := by
  have hdigit : ∀ v < 16, isControl (hexDigit v) = false := by decide
  have hdigits (width value : Nat) : ∀ c ∈ hexDigits width value, isControl c = false := by
    induction width generalizing value with
    | zero => nofun
    | succ width ih =>
      intro c hc
      rw [hexDigits, List.mem_append, List.mem_singleton] at hc
      rcases hc with hc | rfl
      · exact ih _ c hc
      · exact hdigit _ (Nat.mod_lt _ (by decide))
  intro c hc
  rw [Word.hex, String.toList_ofList] at hc
  exact hdigits _ _ c hc

/-- The parts of a text, given how long the first is. -/
theorem append_injective {s t s' t' : String} (h : s ++ t = s' ++ t')
    (hlength : s.length = s'.length) : s = s' ∧ t = t' := by
  rw [← String.toList_inj, String.toList_append, String.toList_append] at h
  obtain ⟨hs, ht⟩ :=
    List.append_inj h (by rwa [String.length_toList, String.length_toList])
  exact ⟨String.toList_inj.1 hs, String.toList_inj.1 ht⟩

theorem eq_of_append_cons {α : Type} [DecidableEq α] {x : α} {as bs cs ds : List α} (ha : x ∉ as)
    (hb : x ∉ bs) (h : as ++ x :: cs = bs ++ x :: ds) : as = bs ∧ cs = ds := by
  have hidx := congrArg (List.idxOf x) h
  rw [List.idxOf_append_of_notMem ha, List.idxOf_append_of_notMem hb, List.idxOf_cons_self,
    List.idxOf_cons_self] at hidx
  obtain ⟨has, htail⟩ := List.append_inj h hidx
  exact ⟨has, (List.cons.inj htail).2⟩

/-- **Lines in a text**: it has them and no others. -/
theorem join_lines_injective {ls ls' : List String} (h : ∀ l ∈ ls, Printable l)
    (h' : ∀ l ∈ ls', Printable l)
    (heq : String.join (ls.map (· ++ "\n")) = String.join (ls'.map (· ++ "\n"))) : ls = ls' := by
  have hempty (l : String) (ls : List String) :
      "" ≠ String.join ((l :: ls).map (· ++ "\n")) := by
    intro heq
    have hlength := congrArg String.length heq
    have hnewline : "\n".length = 1 := rfl
    simp at hlength
    omega
  induction ls generalizing ls' with
  | nil =>
    cases ls' with
    | nil => rfl
    | cons l' ls' => exact absurd heq (hempty l' ls')
  | cons l ls ih =>
    cases ls' with
    | nil => exact absurd heq.symm (hempty l ls)
    | cons l' ls' =>
      rw [List.forall_mem_cons] at h h'
      have hchars : l.toList ++ '\n' :: (String.join (ls.map (· ++ "\n"))).toList =
          l'.toList ++ '\n' :: (String.join (ls'.map (· ++ "\n"))).toList := by
        simpa [String.join_cons, ← String.toList_inj] using heq
      have hnewline : isControl '\n' = true := by decide
      obtain ⟨hl, hls⟩ :=
        eq_of_append_cons (h.1.not_mem hnewline) (h'.1.not_mem hnewline) hchars
      rw [String.toList_inj.1 hl, ih h.2 h'.2 (String.toList_inj.1 hls)]

/-! ## Escape sequences -/

/-- Starts an escape sequence. -/
def escape : Char := '\x1b'

/-- The characters of the codes of an escape sequence. -/
def isCode (c : Char) : Bool := c.isDigit || c == ';'

/-- The length of the escape sequence that a text begins with, 0 if it begins with none: the escape
character and a bracket, then codes with semicolons between them, then an `m`. -/
def escapeLength : List Char → Nat
  | c :: '[' :: rest =>
    let codes := rest.takeWhile isCode
    if c = escape ∧ (rest.drop codes.length).head? = some 'm' then codes.length + 3 else 0
  | _ => 0

/-- Deletes every escape sequence from a text, after `skip` characters that belong to one. -/
def eraseFrom (skip : Nat) : List Char → List Char
  | [] => []
  | c :: cs =>
    match skip with
    | skip + 1 => eraseFrom skip cs
    | 0 =>
      match escapeLength (c :: cs) with
      | 0 => c :: eraseFrom 0 cs
      | skip + 1 => eraseFrom skip cs

/-- A text without its escape sequences. -/
def withoutEscapes (text : String) : String := String.ofList (eraseFrom 0 text.toList)

variable {cs rest codes : List Char}

theorem eraseFrom_length (cs rest : List Char) :
    eraseFrom cs.length (cs ++ rest) = eraseFrom 0 rest := by
  induction cs with
  | nil => rfl
  | cons c cs ih => exact ih

theorem escapeLength_of_ne (h : c ≠ escape) (cs : List Char) : escapeLength (c :: cs) = 0 := by
  unfold escapeLength
  split
  · next heq =>
    rw [← (List.cons.inj heq).1, if_neg fun hc => h hc.1]
  · rfl

theorem eraseFrom_append (h : escape ∉ cs) (rest : List Char) :
    eraseFrom 0 (cs ++ rest) = cs ++ eraseFrom 0 rest := by
  induction cs with
  | nil => rfl
  | cons c cs ih =>
    rw [List.mem_cons, not_or] at h
    rw [List.cons_append, eraseFrom, escapeLength_of_ne (Ne.symm h.1)]
    simp only [ih h.2, List.cons_append]

/-- **An escape sequence is deleted.** -/
theorem eraseFrom_sequence (h : codes.all isCode = true) (rest : List Char) :
    eraseFrom 0 (escape :: '[' :: (codes ++ 'm' :: rest)) = eraseFrom 0 rest := by
  have hcodes : (codes ++ 'm' :: rest).takeWhile isCode = codes := by
    rw [List.takeWhile_append_of_pos (List.all_eq_true.1 h),
      List.takeWhile_cons_of_neg (by decide), List.append_nil]
  have hlength : escapeLength (escape :: '[' :: (codes ++ 'm' :: rest)) = codes.length + 3 := by
    simp [escapeLength, hcodes]
  rw [eraseFrom, hlength]
  have hskip := eraseFrom_length ('[' :: (codes ++ ['m'])) rest
  simpa using hskip

/-- Deleting escape sequences makes the one piece of text into the other, whatever follows it. -/
def Unpaints (painted text : String) : Prop :=
  ∀ rest, eraseFrom 0 (painted.toList ++ rest) = text.toList ++ eraseFrom 0 rest

theorem Unpaints.append {painted painted' text text' : String} (h : Unpaints painted text)
    (h' : Unpaints painted' text') : Unpaints (painted ++ painted') (text ++ text') := by
  intro rest
  rw [String.toList_append, List.append_assoc, h, h', String.toList_append, List.append_assoc]

theorem Unpaints.withoutEscapes_eq {painted text : String} (h : Unpaints painted text) :
    withoutEscapes painted = text := by
  have hall := h []
  rw [List.append_nil, eraseFrom, List.append_nil] at hall
  rw [withoutEscapes, hall, String.ofList_toList]

theorem unpaints_self (h : escape ∉ text.toList) : Unpaints text text := eraseFrom_append h

theorem Printable.unpaints (h : Printable text) : Unpaints text text :=
  unpaints_self (h.not_mem (by decide))

theorem unpaints_join {α : Type} {xs : List α} {painted text : α → String}
    (h : ∀ x ∈ xs, Unpaints (painted x) (text x)) :
    Unpaints (String.join (xs.map painted)) (String.join (xs.map text)) := by
  induction xs with
  | nil => exact unpaints_self (by simp)
  | cons x xs ih =>
    rw [List.forall_mem_cons] at h
    rw [List.map_cons, List.map_cons, String.join_cons, String.join_cons]
    exact h.1.append (ih h.2)

/-- **Painted text** is the text without the escape sequences around it. -/
theorem unpaints_paint (look : Appearance) (style : Style) (h : Printable text) :
    Unpaints (look.paint style text) text := by
  unfold Appearance.paint
  split
  · intro rest
    have hcodes : style.codes.toList.all isCode = true := by cases style <;> decide
    have hreset : ['0'].all isCode = true := by decide
    have hpainted : (style.paint text).toList ++ rest =
        escape :: '[' :: (style.codes.toList ++ 'm' ::
          (text.toList ++ escape :: '[' :: (['0'] ++ 'm' :: rest))) := by
      simp [Style.paint, escape]
    rw [hpainted, eraseFrom_sequence hcodes, h.unpaints, eraseFrom_sequence hreset]
  · exact h.unpaints

end Text

end Comet
