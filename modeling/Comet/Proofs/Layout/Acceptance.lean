import Comet.Proofs.Layout.Tiling

/-!
# The programs that assemble

`WellFormed` is one condition on the lines of a program; the assembler accepts exactly the texts
that meet it, though it checks the parts of it in many places.

* `exists_code?_iff`: a statement emits code exactly if it is shaped and its operands are of the
  kinds that its mnemonic takes (`Suits`).
* `exists_codeOnto_iff`, `exists_startAddress?_iff`: what pass 2 needs of the statements.
* `exists_ofSource?_iff`: the whole assembler.
-/

namespace Comet

/-! ## Kinds of operands -/

/-- The operand is an integer or a label that one of the statements defines. -/
def Operand.IsPlace (ss : List Statement) (o : Operand) : Prop :=
  (∃ n, o = .integer n) ∨ ∃ name ∈ labelTexts ss, o = .symbol name

/-- The operand is a register. -/
def Operand.IsRegister (o : Operand) : Prop := ∃ r, o = .register r

/-- The operand is a register that can be an index, one of GR1 to GR7. -/
def Operand.IsIndex (o : Operand) : Prop := ∃ x, x ≠ noIndex ∧ o = .register x

/-- The operand is a character constant. -/
def Operand.IsChars (o : Operand) : Prop := ∃ text, o = .chars text

/-- The operands are of the kinds that a mnemonic takes in a program. Their number is left to
`Statement.Shaped`, and the operand of START to `WellFormed.entry`. -/
def Suits (ss : List Statement) : Mnemonic → List Operand → Prop
  | .machine (.twoForm _), r :: second :: rest =>
    r.IsRegister ∧
      (second.IsRegister ∧ rest = [] ∨
        second.IsPlace ss ∧ second.value? (Layout.addressOf? ss) ≠ some 0xFFFF ∧
          ∀ x ∈ rest, x.IsIndex)
  | .machine (.registerAddress _), r :: base :: rest =>
    r.IsRegister ∧ base.IsPlace ss ∧ ∀ x ∈ rest, x.IsIndex
  | .machine (.address _), base :: rest => base.IsPlace ss ∧ ∀ x ∈ rest, x.IsIndex
  | .machine (.register _), rs => ∀ r ∈ rs, r.IsRegister
  | .directive .constant, os => ∀ o ∈ os, o.IsPlace ss ∨ o.IsChars
  | _, _ => True

/-- The lines hold a well-formed program. -/
structure WellFormed (lines : List Line) : Prop where
  parses : ∀ line ∈ Line.throughEnd lines, ∃ s, line.statement? = .ok s
  shaped : ∀ s ∈ Line.program lines, s.Shaped
  labels : (labelTexts (Line.program lines)).Nodup
  starts : (Line.program lines).countP Statement.isStart ≤ 1
  fits : footprints (Line.program lines) ≤ 0xFFFF
  operands : ∀ s ∈ Line.program lines, Suits (Line.program lines) s.mnemonic s.operands
  entry : ∀ s ∈ Line.program lines, s.mnemonic = .directive .start →
    ∀ o ∈ s.operands, o.IsPlace (Line.program lines)

/-! ## Statements that denote words -/

variable {ss : List Statement}

theorem exists_value?_iff {o : Operand} :
    (∃ w, o.value? (Layout.addressOf? ss) = some w) ↔ o.IsPlace ss := by
  cases o <;> simp [Operand.value?, Operand.IsPlace, Layout.addressOf?_isSome]

theorem exists_indexField_iff {os : List Operand} :
    (∃ x, IndexField os x) ↔ os.length ≤ 1 ∧ ∀ o ∈ os, o.IsIndex := by
  constructor
  · intro h
    obtain ⟨x, _ | ⟨hx⟩⟩ := h
    · simp
    · simpa [Operand.IsIndex] using hx
  · intro h
    obtain ⟨hlen, h⟩ := h
    obtain ⟨_ | o, rfl⟩ := eq_toList_of_length_le hlen
    · exact ⟨noIndex, .none⟩
    · obtain ⟨x, hx, rfl⟩ := h o (by simp)
      exact ⟨x, .register hx⟩

theorem exists_emits_iff {o : Operand} :
    (∃ words, o.Emits (Layout.addressOf? ss) words) ↔ o.IsPlace ss ∨ o.IsChars := by
  rw [← exists_value?_iff]
  constructor
  · intro h
    obtain ⟨words, text | ⟨hw⟩⟩ := h
    · exact .inr ⟨text, rfl⟩
    · exact .inl ⟨_, hw⟩
  · intro h
    obtain ⟨w, hw⟩ | ⟨text, rfl⟩ := h
    · exact ⟨_, .value hw⟩
    · exact ⟨_, .chars text⟩

theorem suits_of_denotes {m : Mnemonic} {os : List Operand} {words : List Word}
    (h : Denotes (Layout.addressOf? ss) m os words) : Suits ss m os := by
  cases h with
  | registers op r r₂ => exact ⟨⟨r, rfl⟩, .inl ⟨⟨r₂, rfl⟩, rfl⟩⟩
  | memory op r hw hne hx =>
    refine ⟨⟨r, rfl⟩, .inr ⟨exists_value?_iff.1 ⟨_, hw⟩, ?_, (exists_indexField_iff.1 ⟨_, hx⟩).2⟩⟩
    rw [hw]
    exact fun h => hne (Option.some.inj h)
  | registerAddress op r hw hx =>
    exact ⟨⟨r, rfl⟩, exists_value?_iff.1 ⟨_, hw⟩, (exists_indexField_iff.1 ⟨_, hx⟩).2⟩
  | address op hw hx => exact ⟨exists_value?_iff.1 ⟨_, hw⟩, (exists_indexField_iff.1 ⟨_, hx⟩).2⟩
  | register op r => exact fun o ho => ⟨r, List.mem_singleton.1 ho⟩
  | constants hne hwss => exact fun o ho => exists_emits_iff.1 (exists_forall₂_iff.1 ⟨_, hwss⟩ o ho)
  | _ => trivial

theorem exists_denotes_of_deals {m : Mnemonic} {args : List Arg} {form : Form}
    (hdeals : Form.Deals m args form) (h : Suits ss m (args.map (·.operand))) :
    ∃ words, Denotes (Layout.addressOf? ss) m (args.map (·.operand)) words := by
  have hindex (index : Option Arg) : (index.toList.map (·.operand)).length ≤ 1 := by
    cases index <;> simp
  cases hdeals with
  | twoForm op r second index =>
    rw [List.map_cons, List.map_cons] at h ⊢
    obtain ⟨⟨r₁, hr⟩, ⟨⟨r₂, hr₂⟩, hrest⟩ | ⟨hplace, hne, hx⟩⟩ := h
    · rw [hr, hr₂, hrest]
      exact ⟨_, .registers op r₁ r₂⟩
    · obtain ⟨w, hw⟩ := exists_value?_iff.2 hplace
      obtain ⟨x, hx⟩ := exists_indexField_iff.2 ⟨hindex index, hx⟩
      rw [hw] at hne
      rw [hr]
      exact ⟨_, .memory op r₁ hw (fun h => hne (congrArg some h)) hx⟩
  | registerAddress op r address index =>
    rw [List.map_cons, List.map_cons] at h ⊢
    obtain ⟨⟨r₁, hr⟩, hplace, hx⟩ := h
    obtain ⟨w, hw⟩ := exists_value?_iff.2 hplace
    obtain ⟨x, hx⟩ := exists_indexField_iff.2 ⟨hindex index, hx⟩
    rw [hr]
    exact ⟨_, .registerAddress op r₁ hw hx⟩
  | address op address index =>
    obtain ⟨hplace, hx⟩ := h
    obtain ⟨w, hw⟩ := exists_value?_iff.2 hplace
    obtain ⟨x, hx⟩ := exists_indexField_iff.2 ⟨hindex index, hx⟩
    exact ⟨_, .address op hw hx⟩
  | register op r =>
    obtain ⟨r₁, hr⟩ := h r.operand (List.mem_singleton_self _)
    rw [List.map_singleton, hr]
    exact ⟨_, .register op r₁⟩
  | bare op => exact ⟨_, .bare op⟩
  | start entry =>
    cases entry with
    | none => exact ⟨_, .start none⟩
    | some arg => exact ⟨_, .start (some arg.operand)⟩
  | finish => exact ⟨_, .finish⟩
  | storage length n hn hpos =>
    rw [List.map_singleton, hn]
    exact ⟨_, .storage hpos⟩
  | constants arg args =>
    obtain ⟨wss, hwss⟩ := exists_forall₂_iff.2 fun o ho => exists_emits_iff.2 (h o ho)
    exact ⟨_, .constants (by simp) hwss⟩

/-- **A statement emits code** exactly if it is shaped and its operands are of the right kinds. -/
theorem exists_code?_iff {s : Statement} :
    (∃ words, s.code? (Layout.ofStatements ss).symbols = .ok words) ↔
      s.Shaped ∧ Suits ss s.mnemonic s.operands := by
  constructor
  · intro h
    obtain ⟨words, h⟩ := h
    obtain ⟨form, hform, -⟩ := bind_eq_ok.1 h
    rw [Statement.code?_eq_ok, Layout.get?_ofStatements] at h
    exact ⟨s.exists_form?_iff.1 ⟨form, hform⟩, suits_of_denotes h⟩
  · intro h
    obtain ⟨hshaped, hsuits⟩ := h
    obtain ⟨form, hform⟩ := s.exists_form?_iff.2 hshaped
    simp only [Statement.code?_eq_ok, Layout.get?_ofStatements]
    exact exists_denotes_of_deals (Statement.form?_eq_ok.1 hform) hsuits

namespace Layout

/-! ## Whole programs -/

theorem exists_codeOnto_iff {T : SymbolTable} {words : Array Word} {ps : List Placed} :
    (∃ words', codeOnto T words ps = .ok words') ↔
      ∀ p ∈ ps, ∃ code, p.statement.code? T = .ok code := by
  induction ps generalizing words with
  | nil => simp [codeOnto]
  | cons p ps ih =>
    simp only [codeOnto_cons_eq_ok, List.forall_mem_cons]
    constructor
    · intro h
      obtain ⟨words', code, hcode, h⟩ := h
      exact ⟨⟨code, hcode⟩, ih.1 ⟨words', h⟩⟩
    · intro h
      obtain ⟨⟨code, hcode⟩, h⟩ := h
      obtain ⟨words', h⟩ := ih.2 h
      exact ⟨words', code, hcode, h⟩

theorem map_find?_ofStatements (ss : List Statement) :
    ((ofStatements ss).placed.find? (·.statement.isStart)).map (·.statement) =
      ss.find? Statement.isStart := by
  conv_rhs => rw [← map_statement_placedFrom 0 ss]
  rw [List.find?_map, ofStatements, List.find?_toArray]
  rfl

/-- **The program has a start** exactly if what START names is a place. -/
theorem exists_startAddress?_iff (hstarts : ss.countP Statement.isStart ≤ 1)
    (hshaped : ∀ s ∈ ss, s.Shaped) :
    (∃ w, (ofStatements ss).startAddress? = some w) ↔
      ∀ s ∈ ss, s.mnemonic = .directive .start → ∀ o ∈ s.operands, o.IsPlace ss := by
  have hfind (s : Statement) (hs : s ∈ ss) (hm : s.mnemonic = .directive .start) :
      ss.find? Statement.isStart = some s :=
    find?_of_countP_le_one hstarts hs (by simp [Statement.isStart, hm])
  have hmap := map_find?_ofStatements ss
  unfold startAddress?
  cases hstart : (ofStatements ss).placed.find? (·.statement.isStart) with
  | none =>
    rw [hstart, Option.map_none] at hmap
    refine iff_of_true ⟨0, rfl⟩ fun s hs hm => ?_
    rw [hfind s hs hm] at hmap
    cases hmap
  | some p =>
    rw [hstart, Option.map_some] at hmap
    have hmem := List.mem_of_find?_eq_some hmap.symm
    have hm : p.statement.mnemonic = .directive .start := by
      simpa [Statement.isStart] using List.find?_some hmap.symm
    -- it is the only START, so the condition is about its operands alone
    have honly : (∀ s ∈ ss, s.mnemonic = .directive .start → ∀ o ∈ s.operands, o.IsPlace ss) ↔
        ∀ o ∈ p.statement.operands, o.IsPlace ss := by
      refine ⟨fun h => h _ hmem hm, fun h s hs hms => ?_⟩
      rw [hfind s hs hms] at hmap
      rwa [← Option.some.inj hmap]
    have hlen : p.statement.operands.length ≤ 1 := by
      simpa [Statement.operands, hm, Mnemonic.arity, Arity.admits] using (hshaped _ hmem).count
    obtain ⟨entry, hentry⟩ := eq_toList_of_length_le hlen
    rw [honly, hentry]
    cases entry with
    | none => simp [hentry]
    | some o =>
      simp only [hentry, Option.toList_some, List.forall_mem_singleton]
      exact exists_value?_iff

/-- **Pass 2 succeeds** exactly if all operands, that of START included, are of the right kinds. -/
theorem exists_image?_iff (hstarts : ss.countP Statement.isStart ≤ 1)
    (hshaped : ∀ s ∈ ss, s.Shaped) :
    (∃ image, (ofStatements ss).image? (ofStatements ss).symbols = .ok image) ↔
      (∀ s ∈ ss, Suits ss s.mnemonic s.operands) ∧
        ∀ s ∈ ss, s.mnemonic = .directive .start → ∀ o ∈ s.operands, o.IsPlace ss := by
  have hcode : (∃ words, codeOnto (ofStatements ss).symbols #[] (placedFrom 0 ss) = .ok words) ↔
      ∀ s ∈ ss, s.Shaped ∧ Suits ss s.mnemonic s.operands := by
    conv_rhs => rw [← map_statement_placedFrom 0 ss]
    rw [exists_codeOnto_iff, List.forall_mem_map]
    simp only [exists_code?_iff, map_statement_placedFrom]
  have hentry (w : Word) : entry? (ofStatements ss) (ofStatements ss).symbols = .ok w ↔
      (ofStatements ss).startAddress? = some w := entry?_eq_ok (get?_ofStatements ss)
  rw [← exists_startAddress?_iff hstarts hshaped]
  simp only [image?, bind_eq_ok, pure_eq_ok, hentry]
  constructor
  · intro h
    obtain ⟨image, words, hwords, w, hw, rfl⟩ := h
    exact ⟨fun s hs => (hcode.1 ⟨words, hwords⟩ s hs).2, w, hw⟩
  · intro h
    obtain ⟨hsuits, w, hw⟩ := h
    obtain ⟨words, hwords⟩ := hcode.2 fun s hs => ⟨hshaped s hs, hsuits s hs⟩
    exact ⟨_, words, hwords, w, hw, rfl⟩

end Layout

/-- **The assembler accepts exactly the well-formed programs.** -/
theorem Assembly.exists_ofSource?_iff (source : String) :
    (∃ a, Assembly.ofSource? source = .ok a) ↔ WellFormed (Line.split source.toList) := by
  simp only [ofSource?_eq_ok]
  constructor
  · intro h
    obtain ⟨a, hparses, hadmits, himage, -⟩ := h
    obtain ⟨hshaped, hlabels, hstarts, hfits⟩ := hadmits
    have hstarts : (Line.program (Line.split source.toList)).countP Statement.isStart ≤ 1 := by
      simpa [Layout.starts] using hstarts
    obtain ⟨hsuits, hentry⟩ := (Layout.exists_image?_iff hstarts hshaped).1 ⟨_, himage⟩
    exact ⟨hparses, hshaped, hlabels, hstarts, by simpa [Layout.limit] using hfits, hsuits, hentry⟩
  · intro h
    obtain ⟨hparses, hshaped, hlabels, hstarts, hfits, hsuits, hentry⟩ := h
    obtain ⟨image, himage⟩ := (Layout.exists_image?_iff hstarts hshaped).2 ⟨hsuits, hentry⟩
    refine ⟨⟨_, image⟩, hparses, ⟨hshaped, hlabels, ?_, ?_⟩, himage, rfl⟩
    · simpa [Layout.starts] using hstarts
    · simpa [Layout.limit] using hfits

end Comet
