import Comet.Assembly.Layout
import Comet.Proofs.Layout.Footprint

/-!
# Placing statements

Reading a program stops after its first END. What is read before that (`Reading.program`) is placed
as a whole, and the outcome has a closed form:

* `Admits`: the conditions on statements that are placed behind a layout. Every one is shaped, the
  labels are distinct, there is one START at most, and the footprints fit memory.
* `foldlM_place?`: placing statements one by one succeeds exactly under these conditions
  (`place?_eq_ok` is the single step) and gives `Layout.place` of each.
* `readOnto_eq_ok`: reading lines succeeds when all of them up to END do, and their statements can
  be placed.
* `ofStatements`: the layout of a program lists its statements at the sums of the footprints before
  them (`placedFrom`), and its labels with the addresses of their statements (`labelsOf`).
* `ofLines?_eq_ok`: the same for the lines of a source text.
* `get?_ofStatements`: looking up a label finds the address of its statement (`addressOf?`).
-/

namespace Comet

/-- The items of a list up to and including the first one that satisfies `p`. -/
def throughFirst {α : Type} (p : α → Bool) : List α → List α
  | [] => []
  | a :: as => if p a then [a] else a :: throughFirst p as

theorem throughFirst_sublist {α : Type} (p : α → Bool) (as : List α) :
    (throughFirst p as).Sublist as := by
  induction as with
  | nil => exact List.nil_sublist _
  | cons a as ih =>
    rw [throughFirst]
    split
    · exact (List.nil_sublist as).cons_cons a
    · exact ih.cons_cons a

theorem throughFirst_map {α β : Type} (p : β → Bool) (f : α → β) (as : List α) :
    throughFirst p (as.map f) = (throughFirst (fun a => p (f a)) as).map f := by
  induction as with
  | nil => rfl
  | cons a as ih =>
    simp only [List.map_cons, throughFirst]
    split
    · rfl
    · rw [ih, List.map_cons]

namespace Statement

/-- Whether the statement marks the start of the program. -/
def isStart (s : Statement) : Bool := s.mnemonic == .directive .start

/-- Whether the statement ends the program. -/
def isFinish (s : Statement) : Bool := s.mnemonic == .directive .finish

/-- The label of a statement. -/
def labelText? (s : Statement) : Option String := s.label.map (·.text)

end Statement

/-- What comes of reading a line: an error, a statement, or none. -/
abbrev Reading := Except AsmError (Option Statement)

namespace Reading

/-- The statement that has been read. -/
def statement? : Reading → Option Statement
  | .ok s => s
  | .error _ => none

/-- Whether an END statement has been read. -/
def ends (r : Reading) : Bool := (statement? r).any Statement.isFinish

/-- The statements up to and including the first END. -/
def program (rs : List Reading) : List Statement := (throughFirst ends rs).filterMap statement?

end Reading

/-- The words that statements take together. -/
def footprints (ss : List Statement) : Nat := (ss.map Statement.footprint).sum

/-- The labels of statements, in order. -/
def labelTexts (ss : List Statement) : List String := ss.filterMap Statement.labelText?

@[simp] theorem footprints_nil : footprints [] = 0 := rfl

@[simp] theorem footprints_cons (s : Statement) (ss : List Statement) :
    footprints (s :: ss) = s.footprint + footprints ss := rfl

theorem labelTexts_cons (s : Statement) (ss : List Statement) :
    labelTexts (s :: ss) = s.labelText?.toList ++ labelTexts ss := by
  rw [labelTexts, List.filterMap_cons]
  cases s.labelText? <;> rfl

namespace Layout

/-! ## One statement -/

/-- The layout with one more statement behind it. -/
def place (l : Layout) (s : Statement) : Layout where
  placed := l.placed.push ⟨l.size, s.footprint, s⟩
  symbols := ⟨l.symbols.entries ++ s.labelText?.toList.map fun name => (name, UInt16.ofNat l.size)⟩
  size := l.size + s.footprint

/-- The labels that a layout binds. -/
def bound (l : Layout) : List String := l.symbols.entries.map (·.1)

/-- The number of START statements in a layout. -/
def starts (l : Layout) : Nat := l.placed.toList.countP (·.statement.isStart)

/-- The statements can be placed behind the layout. -/
structure Admits (l : Layout) (ss : List Statement) : Prop where
  shaped : ∀ s ∈ ss, s.Shaped
  labels : (l.bound ++ labelTexts ss).Nodup
  starts : l.starts + ss.countP Statement.isStart ≤ 1
  fits : l.size + footprints ss ≤ limit

@[simp] theorem bound_place (l : Layout) (s : Statement) :
    (l.place s).bound = l.bound ++ s.labelText?.toList := by
  simp [bound, place, List.map_map, Function.comp_def]

@[simp] theorem starts_place (l : Layout) (s : Statement) :
    (l.place s).starts = l.starts + [s].countP Statement.isStart := by
  simp only [starts, place, Array.toList_push, List.countP_append, List.countP_singleton]

theorem admits_cons {l : Layout} {s : Statement} {ss : List Statement} :
    l.Admits (s :: ss) ↔ l.Admits [s] ∧ (l.place s).Admits ss := by
  have hcount : (s :: ss).countP Statement.isStart =
      [s].countP Statement.isStart + ss.countP Statement.isStart := by
    rw [← List.singleton_append, List.countP_append]
  constructor
  · intro h
    obtain ⟨h₁, h₂, h₃, h₄⟩ := h
    rw [labelTexts_cons, ← List.append_assoc] at h₂
    rw [hcount] at h₃
    rw [footprints_cons] at h₄
    refine ⟨⟨fun t ht => ?_, ?_, by omega, by simp; omega⟩, ⟨fun t ht => ?_, ?_, ?_, ?_⟩⟩
    · rw [List.mem_singleton.1 ht]
      exact h₁ s List.mem_cons_self
    · rw [labelTexts_cons]
      simpa [labelTexts] using (List.nodup_append.1 h₂).1
    · exact h₁ t (List.mem_cons_of_mem _ ht)
    · rwa [bound_place]
    · rw [starts_place]; omega
    · simp only [place]; omega
  · intro h
    obtain ⟨⟨h₁, -, -, -⟩, ⟨h₅, h₆, h₇, h₈⟩⟩ := h
    refine ⟨fun t ht => ?_, ?_, ?_, ?_⟩
    · rcases List.mem_cons.1 ht with rfl | ht
      · exact h₁ t (List.mem_singleton_self t)
      · exact h₅ t ht
    · rwa [labelTexts_cons, ← List.append_assoc, ← bound_place]
    · rw [starts_place] at h₇
      rw [hcount]; omega
    · simp only [place] at h₈
      rw [footprints_cons]; omega

theorem get?_isSome (l : Layout) (name : String) :
    (l.symbols.get? name).isSome ↔ name ∈ l.bound := by
  rw [SymbolTable.get?, List.lookup_isSome_iff, bound, List.mem_map]
  simp only [beq_iff_eq]
  constructor
  · intro h
    obtain ⟨p, hp, rfl⟩ := h
    exact ⟨p, hp, rfl⟩
  · intro h
    obtain ⟨p, hp, rfl⟩ := h
    exact ⟨p, hp, rfl⟩

theorem bind?_eq_ok {l : Layout} {s : Statement} {symbols : SymbolTable} :
    l.bind? s = .ok symbols ↔
      (∀ name ∈ s.labelText?, name ∉ l.bound) ∧ symbols = (l.place s).symbols := by
  unfold bind? Statement.labelText?
  cases hlabel : s.label with
  | none => simp [place, Statement.labelText?, hlabel, eq_comm]
  | some label =>
    simp only [SymbolTable.define?]
    by_cases hb : label.text ∈ l.bound
    · simp [(l.get?_isSome label.text).2 hb, hb]
    · simp [mt (l.get?_isSome label.text).1 hb, hb, place, Statement.labelText?, hlabel, eq_comm]

theorem start?_isSome (l : Layout) : l.start?.isSome ↔ 0 < l.starts := by
  rw [start?, starts, List.countP_pos_iff, Array.find?_isSome]
  simp [Statement.isStart]

/-- **Placing one statement** succeeds exactly if it can stand behind the layout. -/
theorem place?_eq_ok {l l' : Layout} {s : Statement} (hl : l.Admits []) :
    l.place? s = .ok l' ↔ l.Admits [s] ∧ l' = l.place s := by
  obtain ⟨-, hnodup, hstarts, -⟩ := hl
  have hlabels : (l.bound ++ labelTexts [s]).Nodup ↔ ∀ name ∈ s.labelText?, name ∉ l.bound := by
    have hb : l.bound.Nodup := by simpa [labelTexts] using hnodup
    rw [labelTexts_cons, List.nodup_append]
    cases s.labelText? <;> simp [hb, labelTexts]
    exact ⟨fun h hmem => h _ hmem rfl, fun h name hmem he => h (he ▸ hmem)⟩
  have hstart : l.starts + [s].countP Statement.isStart ≤ 1 ↔
      ¬(s.mnemonic = .directive .start ∧ l.start?.isSome = true) := by
    rw [start?_isSome, List.countP_singleton]
    by_cases hm : s.mnemonic = .directive .start
    · simp [Statement.isStart, hm]
    · simp only [List.countP_nil, Nat.add_zero] at hstarts
      simp [Statement.isStart, hm, hstarts]
  constructor
  · intro h
    unfold place? at h
    split at h
    · cases h
    next size hsize =>
    split at h
    · cases h
    next symbols hsymbols =>
    split at h
    · cases h
    next hfits =>
    split at h
    · cases h
    next hs =>
    cases h
    obtain ⟨hshaped, -, rfl⟩ := Statement.size?_eq_ok.1 hsize
    obtain ⟨hfresh, rfl⟩ := bind?_eq_ok.1 hsymbols
    refine ⟨⟨by simpa using hshaped, hlabels.2 hfresh, hstart.2 hs, ?_⟩, rfl⟩
    simpa using Nat.le_of_not_lt hfits
  · intro h
    obtain ⟨⟨hshaped, hl, hs, hfits⟩, rfl⟩ := h
    have hfits : l.size + s.footprint ≤ limit := by simpa using hfits
    have hsize : s.size? = .ok s.footprint :=
      Statement.size?_eq_ok.2 ⟨hshaped s (List.mem_singleton_self s),
        Nat.le_trans (Nat.le_add_left _ _) hfits, rfl⟩
    have hsymbols : l.bind? s = .ok (l.place s).symbols :=
      bind?_eq_ok.2 ⟨hlabels.1 hl, rfl⟩
    simp only [place?, hsize, hsymbols, Nat.not_lt.2 hfits, hstart.1 hs, ↓reduceIte]
    rfl

/-! ## Many statements -/

/-- **Placing statements** succeeds exactly if they can stand behind the layout. -/
theorem foldlM_place? {ss : List Statement} {l l' : Layout} (hl : l.Admits []) :
    ss.foldlM place? l = .ok l' ↔ l.Admits ss ∧ l' = ss.foldl place l := by
  induction ss generalizing l with
  | nil =>
    rw [List.foldlM_nil, pure_eq_ok, List.foldl_nil, eq_comm]
    exact (and_iff_right hl).symm
  | cons s ss ih =>
    rw [List.foldlM_cons, bind_eq_ok, admits_cons, List.foldl_cons]
    constructor
    · intro h
      obtain ⟨l₁, h₁, h₂⟩ := h
      obtain ⟨hs, rfl⟩ := (place?_eq_ok hl).1 h₁
      obtain ⟨hss, rfl⟩ := (ih (admits_cons.1 hs).2).1 h₂
      exact ⟨⟨hs, hss⟩, rfl⟩
    · intro h
      obtain ⟨⟨hs, hss⟩, rfl⟩ := h
      exact ⟨_, (place?_eq_ok hl).2 ⟨hs, rfl⟩, (ih (admits_cons.1 hs).2).2 ⟨hss, rfl⟩⟩

/-- **Reading a program**: every line up to END can be read, and the statements can be placed. -/
theorem readOnto_eq_ok {rs : List Reading} {l l' : Layout} :
    (l.readOnto rs).1 = .ok l' ↔
      (∀ r ∈ throughFirst Reading.ends rs, ∃ s, r = .ok s) ∧
        (Reading.program rs).foldlM place? l = .ok l' := by
  induction rs generalizing l with
  | nil => simp [readOnto, throughFirst, Reading.program]
  | cons r rs ih =>
    match r with
    | .error e => simp [readOnto, throughFirst, Reading.ends, Reading.statement?]
    | .ok none =>
      have hskip : Reading.program (.ok none :: rs) = Reading.program rs := rfl
      rw [hskip, readOnto, ih]
      simp [throughFirst, Reading.ends, Reading.statement?]
    | .ok (some s) =>
      by_cases hend : s.isFinish = true
      · have hm : s.mnemonic = .directive .finish := by simpa [Statement.isFinish] using hend
        simp only [readOnto, throughFirst, Reading.program, Reading.ends, Reading.statement?, hm,
          Option.any_some, hend]
        cases hp : l.place? s <;> simp [Reading.statement?, hp]
      · have hm : s.mnemonic ≠ .directive .finish := by simpa [Statement.isFinish] using hend
        simp only [readOnto, throughFirst, Reading.program, Reading.ends, Reading.statement?, hm,
          Option.any_some, hend]
        cases hp : l.place? s with
        | error e => simp [Reading.statement?, hp]
        | ok l₁ => simp [Reading.statement?, hp, ih, Reading.program]

/-! ## The layout of a program -/

/-- Statements one behind the other, from an address on. -/
def placedFrom (address : Nat) : List Statement → List Placed
  | [] => []
  | s :: ss => ⟨address, s.footprint, s⟩ :: placedFrom (address + s.footprint) ss

/-- The labels of placed statements with their addresses. -/
def labelsOf (ps : List Placed) : List (String × Word) :=
  ps.filterMap fun p => p.statement.labelText?.map fun name => (name, UInt16.ofNat p.address)

/-- The layout of a program. -/
def ofStatements (ss : List Statement) : Layout where
  placed := (placedFrom 0 ss).toArray
  symbols := ⟨labelsOf (placedFrom 0 ss)⟩
  size := footprints ss

theorem labelsOf_cons (p : Placed) (ps : List Placed) :
    labelsOf (p :: ps) =
      (p.statement.labelText?.toList.map fun name => (name, UInt16.ofNat p.address)) ++
        labelsOf ps := by
  rw [labelsOf, List.filterMap_cons]
  cases p.statement.labelText? <;> rfl

theorem foldl_place (ss : List Statement) (l : Layout) :
    ss.foldl place l =
      { placed := l.placed ++ (placedFrom l.size ss).toArray
        symbols := ⟨l.symbols.entries ++ labelsOf (placedFrom l.size ss)⟩
        size := l.size + footprints ss } := by
  induction ss generalizing l with
  | nil => simp [placedFrom, labelsOf]
  | cons s ss ih =>
    rw [List.foldl_cons, ih]
    simp [place, placedFrom, labelsOf_cons, Nat.add_assoc]

theorem foldl_place_empty (ss : List Statement) : ss.foldl place {} = ofStatements ss := by
  rw [foldl_place]
  simp [ofStatements, SymbolTable.empty]

theorem ofStatements_concat (ss : List Statement) (s : Statement) :
    ofStatements (ss ++ [s]) = (ofStatements ss).place s := by
  rw [← foldl_place_empty, ← foldl_place_empty, List.foldl_concat]

theorem admits_nil : ({} : Layout).Admits [] :=
  ⟨fun _ hs => absurd hs List.not_mem_nil, List.nodup_nil, Nat.zero_le 1, Nat.zero_le limit⟩

/-- **The layout that reading a program gives**, in closed form. -/
theorem readOnto_empty {rs : List Reading} {l : Layout} :
    (readOnto {} rs).1 = .ok l ↔
      (∀ r ∈ throughFirst Reading.ends rs, ∃ s, r = .ok s) ∧
        ({} : Layout).Admits (Reading.program rs) ∧ l = ofStatements (Reading.program rs) := by
  rw [readOnto_eq_ok, foldlM_place? admits_nil, foldl_place_empty]

/-! ## Labels -/

/-- The address of the statement that carries a label. -/
def labelAddress? (ps : List Placed) (name : String) : Option Word :=
  (ps.find? fun p => p.statement.labelText? == some name).map fun p => UInt16.ofNat p.address

theorem lookup_labelsOf (ps : List Placed) (name : String) :
    (labelsOf ps).lookup name = labelAddress? ps name := by
  induction ps with
  | nil => rfl
  | cons p ps ih =>
    rw [labelsOf_cons, List.lookup_append, ih, labelAddress?, labelAddress?, List.find?_cons]
    cases hp : p.statement.labelText? with
    | none => simp
    | some label =>
      by_cases hlabel : label = name
      · simp [hlabel]
      · simp [List.lookup_cons, beq_eq_false_iff_ne.2 hlabel,
          beq_eq_false_iff_ne.2 (Ne.symm hlabel)]

/-- What labels stand for in a program: the addresses of their statements. -/
def addressOf? (ss : List Statement) : String → Option Word := labelAddress? (placedFrom 0 ss)

/-- **Looking up a label** finds the address of its statement. -/
theorem get?_ofStatements (ss : List Statement) : (ofStatements ss).symbols.get? = addressOf? ss :=
  funext (lookup_labelsOf _)

theorem map_statement_placedFrom (a : Nat) (ss : List Statement) :
    (placedFrom a ss).map (·.statement) = ss := by
  induction ss generalizing a with
  | nil => rfl
  | cons s ss ih => rw [placedFrom, List.map_cons, ih]

theorem addressOf?_isSome {ss : List Statement} {name : String} :
    (∃ w, addressOf? ss name = some w) ↔ name ∈ labelTexts ss := by
  conv_rhs => rw [← map_statement_placedFrom 0 ss]
  simp only [addressOf?, labelAddress?, ← Option.isSome_iff_exists, Option.isSome_map,
    List.find?_isSome, beq_iff_eq, labelTexts, List.mem_filterMap, List.mem_map,
    exists_exists_and_eq_and]

end Layout

/-! ## Programs in lines -/

/-- The lines up to and including the first END statement. -/
def Line.throughEnd (lines : List Line) : List Line :=
  throughFirst (fun line => Reading.ends line.statement?) lines

/-- The statements of the lines up to and including the first END statement. -/
def Line.program (lines : List Line) : List Statement :=
  (throughEnd lines).filterMap fun line => Reading.statement? line.statement?

theorem Line.mem_of_mem_program {lines : List Line} {s : Statement} (h : s ∈ program lines) :
    ∃ line ∈ lines, line.statement? = .ok (some s) := by
  obtain ⟨line, hline, hs⟩ := List.mem_filterMap.1 h
  refine ⟨line, (throughFirst_sublist _ lines).subset hline, ?_⟩
  cases hread : line.statement? with
  | error e => rw [hread] at hs; cases hs
  | ok s? => rw [hread] at hs; exact congrArg Except.ok hs

theorem Reading.program_map_statement? (lines : List Line) :
    Reading.program (lines.map Line.statement?) = Line.program lines := by
  rw [Reading.program, throughFirst_map, List.filterMap_map]; rfl

/-- Pass 1 succeeds exactly under the conditions on which no address depends. -/
theorem Layout.ofLines?_eq_ok {lines : List Line} {l : Layout} :
    Layout.ofLines? lines = .ok l ↔
      (∀ line ∈ Line.throughEnd lines, ∃ s, line.statement? = .ok s) ∧
        ({} : Layout).Admits (Line.program lines) ∧ l = ofStatements (Line.program lines) := by
  rw [ofLines?, readOnto_empty, Reading.program_map_statement?, throughFirst_map,
    List.forall_mem_map]
  rfl

end Comet
