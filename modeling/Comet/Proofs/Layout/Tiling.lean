import Comet.Assembly
import Comet.Proofs.Layout.Denotation
import Comet.Proofs.Layout.Placement

/-!
# The two passes agree on the layout

Pass 1 sizes statements by their footprints, pass 2 emits words; both come to the same layout,
whatever table resolves the labels.

* `exists_of_placedFrom_eq`: a placed statement stands at the sum of the footprints before it.
* `codeOnto_size`: the loop of pass 2 has emitted as many words as the footprints passed add up to;
  `codeOnto_split` cuts its output at a statement (`codeOnto_at`).
* `image?_tiles`: the words of the statements tile the image (`Layout.Tiles`), each statement in its
  place has the words that it denotes, and before and after each statement the output is as long as
  its address and size say.
-/

namespace Comet.Layout

/-! ## Addresses -/

@[simp] theorem footprints_append (ss ts : List Statement) :
    footprints (ss ++ ts) = footprints ss + footprints ts := by
  rw [footprints, List.map_append, List.sum_append]; rfl

/-- **Where a statement stands**: at the sum of the footprints of the statements before it. -/
theorem exists_of_placedFrom_eq {before after : List Placed} {p : Placed} {a : Nat}
    {ss : List Statement} (h : placedFrom a ss = before ++ p :: after) :
    ∃ ss₁ ss₂, ss = ss₁ ++ p.statement :: ss₂ ∧ before = placedFrom a ss₁ ∧
      p.address = a + footprints ss₁ ∧ p.size = p.statement.footprint ∧
      after = placedFrom (p.address + p.size) ss₂ := by
  induction before generalizing a ss with
  | nil =>
    cases ss with
    | nil => cases h
    | cons s ss =>
      obtain ⟨rfl, rfl⟩ := List.cons_eq_cons.1 h
      exact ⟨[], ss, rfl, rfl, rfl, rfl, rfl⟩
  | cons q before ih =>
    cases ss with
    | nil => cases h
    | cons s ss =>
      obtain ⟨rfl, htail⟩ := List.cons_eq_cons.1 h
      obtain ⟨ss₁, ss₂, rfl, rfl, ha, hs, rfl⟩ := ih htail
      refine ⟨s :: ss₁, ss₂, rfl, rfl, ?_, hs, rfl⟩
      rw [ha, footprints_cons, Nat.add_assoc]

theorem address_of_placedFrom_succ {a i : Nat} {ss : List Statement} {p q : Placed}
    (hp : (placedFrom a ss)[i]? = some p) (hq : (placedFrom a ss)[i + 1]? = some q) :
    q.address = p.address + p.size := by
  induction ss generalizing a i with
  | nil => cases hp
  | cons s ss ih =>
    cases i with
    | zero =>
      cases hp
      cases ss with
      | nil => cases hq
      | cons t ss => cases hq; rfl
    | succ i => exact ih hp hq

/-- The blocks of consecutive statements make up one block. -/
theorem flatMap_extract (words : Array Word) (a : Nat) (ss : List Statement) :
    ((placedFrom a ss).flatMap fun p => (words.extract p.address (p.address + p.size)).toList) =
      (words.extract a (a + footprints ss)).toList := by
  induction ss generalizing a with
  | nil => simp [placedFrom]
  | cons s ss ih =>
    rw [placedFrom, List.flatMap_cons, ih, ← Array.toList_append, Array.extract_append_extract,
      footprints_cons, Nat.min_eq_left (Nat.le_add_right _ _),
      Nat.max_eq_right (Nat.le_add_right _ _), Nat.add_assoc]

/-! ## Emitted words -/

variable {T : SymbolTable}

theorem codeOnto_append (words : Array Word) (ps qs : List Placed) :
    codeOnto T words (ps ++ qs) = codeOnto T words ps >>= fun words => codeOnto T words qs := by
  induction ps generalizing words with
  | nil => rfl
  | cons p ps ih =>
    simp only [List.cons_append, codeOnto]
    cases p.statement.code? T with
    | error e => rfl
    | ok code => exact ih _

theorem codeOnto_cons_eq_ok {words words' : Array Word} {p : Placed} {ps : List Placed} :
    codeOnto T words (p :: ps) = .ok words' ↔
      ∃ code, p.statement.code? T = .ok code ∧
        codeOnto T (words ++ code.toArray) ps = .ok words' := by
  have happend (code : List Word) : words ++ code = words ++ code.toArray := Array.ext' (by simp)
  rw [codeOnto]
  cases p.statement.code? T <;> simp [happend]

theorem image?_eq_ok {l : Layout} {image : Image} :
    l.image? T = .ok image ↔
      codeOnto T #[] l.placed.toList = .ok image.words ∧ l.entry? T = .ok image.entry := by
  simp only [image?, bind_eq_ok, pure_eq_ok]
  constructor
  · intro h
    obtain ⟨words, hwords, entry, hentry, rfl⟩ := h
    exact ⟨hwords, hentry⟩
  · intro h
    exact ⟨_, h.1, _, h.2, rfl⟩

/-- What has been emitted stays. -/
theorem codeOnto_prefix {words words' : Array Word} {ps : List Placed}
    (h : codeOnto T words ps = .ok words') : ∃ rest : Array Word, words' = words ++ rest := by
  induction ps generalizing words with
  | nil => cases h; exact ⟨#[], by simp⟩
  | cons p ps ih =>
    obtain ⟨code, -, h⟩ := codeOnto_cons_eq_ok.1 h
    obtain ⟨rest, rfl⟩ := ih h
    exact ⟨code.toArray ++ rest, by simp [Array.append_assoc]⟩

/-- **The loop invariant**: the output grows by the footprints of the statements passed. -/
theorem codeOnto_size {words words' : Array Word} {a : Nat} {ss : List Statement}
    (h : codeOnto T words (placedFrom a ss) = .ok words') :
    words'.size = words.size + footprints ss := by
  induction ss generalizing a words with
  | nil => cases h; rfl
  | cons s ss ih =>
    obtain ⟨code, hcode, h⟩ := codeOnto_cons_eq_ok.1 h
    have hlen := Statement.length_of_denotes (Statement.code?_eq_ok.1 hcode)
    rw [ih h, footprints_cons, ← hlen]
    simp [Nat.add_assoc]

/-- The output is the words of the statements before one statement, its own, and those after it. -/
theorem codeOnto_split {words words' : Array Word} {before after : List Placed} {p : Placed}
    (h : codeOnto T words (before ++ p :: after) = .ok words') :
    ∃ (done rest : Array Word) (code : List Word), codeOnto T words before = .ok done ∧
      p.statement.code? T = .ok code ∧ words' = done ++ code.toArray ++ rest := by
  rw [codeOnto_append, bind_eq_ok] at h
  obtain ⟨done, hdone, h⟩ := h
  obtain ⟨code, hcode, h⟩ := codeOnto_cons_eq_ok.1 h
  obtain ⟨rest, rfl⟩ := codeOnto_prefix h
  exact ⟨done, rest, code, hdone, hcode, rfl⟩

/-- A statement has been reached when as many words have been emitted as its address says. -/
theorem size_of_codeOnto_before {words : Array Word} {before after : List Placed} {p : Placed}
    {ss : List Statement} (hss : placedFrom 0 ss = before ++ p :: after)
    (h : codeOnto T #[] before = .ok words) : words.size = p.address := by
  obtain ⟨ss₁, -, -, rfl, ha, -, -⟩ := exists_of_placedFrom_eq hss
  rw [codeOnto_size h, ha]; rfl

/-- The output around one statement: before it, its words, and after it. -/
theorem codeOnto_at {words : Array Word} {before after : List Placed} {p : Placed}
    {ss : List Statement} (hss : placedFrom 0 ss = before ++ p :: after)
    (h : codeOnto T #[] (placedFrom 0 ss) = .ok words) :
    ∃ (done : Array Word) (code : List Word), codeOnto T #[] before = .ok done ∧
      done.size = p.address ∧ p.statement.code? T = .ok code ∧
      done.size + code.length = p.address + p.size ∧
      (words.extract p.address (p.address + p.size)).toList = code := by
  rw [hss] at h
  obtain ⟨done, rest, code, hdone, hcode, rfl⟩ := codeOnto_split h
  have hsize : done.size = p.address := size_of_codeOnto_before hss hdone
  have hlen : code.length = p.size := by
    obtain ⟨-, -, -, -, -, hs, -⟩ := exists_of_placedFrom_eq hss
    rw [hs]
    exact Statement.length_of_denotes (Statement.code?_eq_ok.1 hcode)
  refine ⟨done, code, hdone, hsize, hcode, by rw [hsize, hlen], ?_⟩
  rw [← hsize, ← hlen]
  simp

/-! ## Tiling -/

/-- The statements of a layout tile the words of an image: they stand side by side from the first
word to the last, and each has the words that it denotes. So no sum of an address and a size
exceeds the greatest address. -/
structure Tiles (l : Layout) (resolve : String → Option Word) (words : Array Word) : Prop where
  first : ∀ p, l.placed[0]? = some p → p.address = 0
  adjoining : ∀ (i : Nat) p q, l.placed[i]? = some p → l.placed[i + 1]? = some q →
    q.address = p.address + p.size
  last : ∀ p, l.placed.back? = some p → p.address + p.size = l.size
  total : words.size = l.size
  fits : l.size ≤ 0xFFFF
  inside : ∀ p ∈ l.placed, p.address + p.size ≤ words.size
  denotes : ∀ p ∈ l.placed,
    p.statement.Denotes resolve (words.extract p.address (p.address + p.size)).toList
  whole : (l.placed.toList.flatMap fun p =>
    (words.extract p.address (p.address + p.size)).toList) = words.toList

theorem tiles_ofStatements {ss : List Statement} {words : Array Word}
    (hfits : footprints ss ≤ limit)
    (h : codeOnto T #[] (placedFrom 0 ss) = .ok words) :
    (ofStatements ss).Tiles T.get? words := by
  have hplaced : (ofStatements ss).placed.toList = placedFrom 0 ss := rfl
  have htotal : words.size = footprints ss := by rw [codeOnto_size h]; simp
  have hmem : ∀ p ∈ (ofStatements ss).placed, ∃ before after,
      placedFrom 0 ss = before ++ p :: after := fun p hp =>
    List.append_of_mem (Array.mem_toList_iff.2 hp)
  refine ⟨fun p hp => ?_, fun i p q hp hq => ?_, fun p hp => ?_, htotal, hfits, fun p hp => ?_,
    fun p hp => ?_, ?_⟩
  · cases ss with
    | nil => cases hp
    | cons s ss => cases hp; rfl
  · rw [← Array.getElem?_toList, hplaced] at hp hq
    exact address_of_placedFrom_succ hp hq
  · rw [← Array.getLast?_toList, hplaced] at hp
    obtain ⟨before, hlast⟩ := List.getLast?_eq_some_iff.1 hp
    obtain ⟨ss₁, ss₂, rfl, -, ha, hs, hafter⟩ := exists_of_placedFrom_eq hlast
    cases ss₂ with
    | nil =>
      rw [ha, hs, ofStatements, footprints_append]
      simp
    | cons s ss₂ => cases hafter
  · obtain ⟨before, after, hp⟩ := hmem p hp
    obtain ⟨ss₁, ss₂, rfl, -, ha, hs, -⟩ := exists_of_placedFrom_eq hp
    rw [htotal, ha, hs, footprints_append, footprints_cons]
    omega
  · obtain ⟨before, after, hp⟩ := hmem p hp
    obtain ⟨_, code, -, -, hcode, -, hwords⟩ := codeOnto_at hp h
    rw [hwords]
    exact Statement.code?_eq_ok.1 hcode
  · rw [hplaced, flatMap_extract, Nat.zero_add, ← htotal, Array.extract_size]

/-- **The two passes agree on the layout**, whatever table resolves the labels. -/
theorem image?_tiles {rs unread : List Reading} {l : Layout} {T : SymbolTable} {image : Image}
    (hl : readOnto {} rs = (.ok l, unread)) (himage : l.image? T = .ok image) :
    l.Tiles T.get? image.words ∧
    ∀ before p after, l.placed.toList = before ++ p :: after →
      ∃ (done : Array Word) (code : List Word), codeOnto T #[] before = .ok done ∧
        done.size = p.address ∧ p.statement.code? T = .ok code ∧
        done.size + code.length = p.address + p.size := by
  obtain ⟨-, hadmits, rfl⟩ := readOnto_empty.1 (congrArg Prod.fst hl)
  simp only [image?, bind_eq_ok, pure_eq_ok] at himage
  obtain ⟨words, hwords, entry, -, rfl⟩ := himage
  have hfits : footprints (Reading.program rs) ≤ limit := by simpa using hadmits.fits
  refine ⟨tiles_ofStatements hfits hwords, fun before p after hp => ?_⟩
  obtain ⟨done, code, hdone, hsize, hcode, hend, -⟩ := codeOnto_at hp hwords
  exact ⟨done, code, hdone, hsize, hcode, hend⟩

theorem image?_tiles_foreign_table :
    let constants : Statement :=
      { label := some ⟨"A", ⟨0, 1⟩⟩, mnemonic := .directive .constant, mnemonicSpan := ⟨2, 2⟩
        args := [⟨.chars "HI", "'HI'", ⟨5, 4⟩, by decide⟩, ⟨.symbol "A", "A", ⟨10, 1⟩, by decide⟩]
        line := 1
        source := "A DC 'HI',A" }
    let storage : Statement :=
      { label := none, mnemonic := .directive .storage, mnemonicSpan := ⟨12, 2⟩
        args := [⟨.integer 2, "2", ⟨15, 1⟩, by decide⟩], line := 2, source := "DS 2" }
    let l : Layout := ⟨#[⟨0, 3, constants⟩, ⟨3, 2, storage⟩], ⟨[("A", 0)]⟩, 5⟩
    readOnto {} [.ok (some constants), .ok none, .ok (some storage)] = (.ok l, []) ∧
      l.image? ⟨[("A", 7)]⟩ = .ok ⟨#[72, 73, 7, 0, 0], 0⟩ ∧
      l.Tiles (SymbolTable.get? ⟨[("A", 7)]⟩) #[72, 73, 7, 0, 0] := by
  intro constants storage l
  have hl : readOnto {} [.ok (some constants), .ok none, .ok (some storage)] = (.ok l, []) := rfl
  have himage : l.image? ⟨[("A", 7)]⟩ = .ok ⟨#[72, 73, 7, 0, 0], 0⟩ := rfl
  exact ⟨hl, himage, (image?_tiles hl himage).1⟩

end Comet.Layout

namespace Comet.Assembly

open Layout

variable {source : String} {a : Assembly}

/-- **What assembling succeeds with**: the layout of the program and its image. -/
theorem ofSource?_eq_ok :
    Assembly.ofSource? source = .ok a ↔
      (∀ line ∈ Line.throughEnd (Line.split source.toList), ∃ s, line.statement? = .ok s) ∧
      ({} : Layout).Admits (Line.program (Line.split source.toList)) ∧
      (ofStatements (Line.program (Line.split source.toList))).image?
        (ofStatements (Line.program (Line.split source.toList))).symbols = .ok a.image ∧
      a.layout = ofStatements (Line.program (Line.split source.toList)) := by
  simp only [ofSource?, bind_eq_ok, pure_eq_ok, ofLines?_eq_ok]
  constructor
  · intro h
    obtain ⟨l, ⟨hparses, hadmits, rfl⟩, image, himage, rfl⟩ := h
    exact ⟨hparses, hadmits, himage, rfl⟩
  · intro h
    obtain ⟨hparses, hadmits, himage, hlayout⟩ := h
    exact ⟨_, ⟨hparses, hadmits, rfl⟩, a.image, himage, by rw [← hlayout]⟩

/-- The words of an assembled program are those of its statements, with labels that stand for the
addresses of their statements. -/
theorem tiles_of_ofSource? (h : Assembly.ofSource? source = .ok a) :
    a.layout.Tiles (Layout.labelAddress? a.layout.placed.toList) a.image.words := by
  obtain ⟨-, hadmits, himage, hlayout⟩ := ofSource?_eq_ok.1 h
  have htiles := Layout.tiles_ofStatements (by simpa using hadmits.fits) (image?_eq_ok.1 himage).1
  rw [Layout.get?_ofStatements] at htiles
  rw [hlayout]
  exact htiles

theorem startAddress?_of_ofSource? (h : Assembly.ofSource? source = .ok a) :
    a.layout.startAddress? = some a.image.entry := by
  obtain ⟨-, -, himage, hlayout⟩ := ofSource?_eq_ok.1 h
  rw [hlayout]
  exact (Layout.entry?_eq_ok (Layout.get?_ofStatements _)).1 (image?_eq_ok.1 himage).2

end Comet.Assembly
