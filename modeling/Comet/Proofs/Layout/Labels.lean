import Comet.Proofs.Layout.Tiling

/-!
# Labels and the words they stand for

The symbol table is the list of the labels with the addresses of their statements, and an address is
the number of words emitted before: so a word that names a label holds the place in the image where
the words of that label's statement begin.

* `Layout.ListsLabels`, `listsLabels_of_admits`: the table, as pass 1 leaves it.
* `word_of_denotes`: where a statement names a label, it has the label's word
  (`Statement.operandOffset?`).
* `Assembly.Begins`, `begins_of_mem`: a statement begins at its address, and a label stands for
  where its statement begins (`exists_begins_of_resolved`).
* `labels_mark_words`: both passes together, with the entry address.
-/

namespace Comet

/-! ## The symbol table -/

namespace Layout

/-- The symbol table of a layout is the list of its labels, each with the address of its statement,
and an address is the sum of the sizes before it. -/
structure ListsLabels (l : Layout) : Prop where
  entries : l.symbols.entries = labelsOf l.placed.toList
  nodup : (l.symbols.entries.map (·.1)).Nodup
  address : ∀ before p after, l.placed.toList = before ++ p :: after →
    p.address = (before.map (·.size)).sum
  /-- An address fits a word. -/
  word : ∀ p ∈ l.placed, (UInt16.ofNat p.address).toNat = p.address
  get? : ∀ name w, l.symbols.get? name = some w ↔
    ∃ p ∈ l.placed, p.statement.labelText? = some name ∧ UInt16.ofNat p.address = w

theorem sum_size_placedFrom (a : Nat) (ss : List Statement) :
    ((placedFrom a ss).map (·.size)).sum = footprints ss := by
  induction ss generalizing a with
  | nil => rfl
  | cons s ss ih => rw [placedFrom, List.map_cons, List.sum_cons, ih, footprints_cons]

theorem mem_labelsOf {ps : List Placed} {name : String} {w : Word} :
    (name, w) ∈ labelsOf ps ↔
      ∃ p ∈ ps, p.statement.labelText? = some name ∧ UInt16.ofNat p.address = w := by
  simp [labelsOf]

/-- Where no label is listed twice, looking one up finds the one entry that it has. -/
theorem lookup_eq_some_iff {entries : List (String × Word)}
    (h : (entries.map (·.1)).Nodup) {name : String} {w : Word} :
    entries.lookup name = some w ↔ (name, w) ∈ entries := by
  induction entries with
  | nil => simp
  | cons entry entries ih =>
    obtain ⟨label, v⟩ := entry
    rw [List.map_cons, List.nodup_cons] at h
    rw [List.lookup_cons, List.mem_cons, Prod.mk.injEq]
    by_cases hname : name = label
    · subst hname
      have hnot : (name, w) ∉ entries := fun hmem => h.1 (List.mem_map.2 ⟨_, hmem, rfl⟩)
      simp [hnot, eq_comm]
    · simp [beq_eq_false_iff_ne.2 hname, hname, ih h.2]

theorem map_fst_labelsOf (a : Nat) (ss : List Statement) :
    (labelsOf (placedFrom a ss)).map (·.1) = labelTexts ss := by
  induction ss generalizing a with
  | nil => rfl
  | cons s ss ih =>
    rw [placedFrom, labelsOf_cons, List.map_append, ih, labelTexts_cons]
    cases s.labelText? <;> rfl

theorem listsLabels_of_admits {ss : List Statement} (h : ({} : Layout).Admits ss) :
    (ofStatements ss).ListsLabels := by
  have hnodup : ((labelsOf (placedFrom 0 ss)).map (·.1)).Nodup := by
    rw [map_fst_labelsOf]
    simpa [bound, SymbolTable.empty] using h.labels
  have hfits : footprints ss ≤ limit := by simpa using h.fits
  refine ⟨rfl, hnodup, fun before p after hp => ?_, fun p hp => ?_, fun name w => ?_⟩
  · obtain ⟨ss₁, ss₂, -, rfl, ha, -, -⟩ := exists_of_placedFrom_eq hp
    rw [sum_size_placedFrom, ha, Nat.zero_add]
  · obtain ⟨before, after, hp⟩ := List.append_of_mem (Array.mem_toList_iff.2 hp)
    obtain ⟨ss₁, ss₂, rfl, -, ha, -, -⟩ := exists_of_placedFrom_eq hp
    rw [footprints_append, limit] at hfits
    exact UInt16.toNat_ofNat_of_lt' (show p.address < 65536 by omega)
  · show (labelsOf (placedFrom 0 ss)).lookup name = some w ↔ _
    rw [lookup_eq_some_iff hnodup, mem_labelsOf]
    simp [ofStatements]

end Layout

/-! ## Words that name labels -/

/-- Where a word of a statement stands for its operand number `i`, if one does: it is the second
word of an instruction, and in a constant the one behind the words of the operands before it. -/
def Statement.operandOffset? (s : Statement) (i : Nat) : Option Nat :=
  match s.mnemonic with
  | .machine _ => some 1
  | .directive .constant => some ((s.args.take i).map Arg.constantSize).sum
  | .directive _ => none

variable {resolve : String → Option Word}

theorem word_of_forall_emits {args : List Arg} {wss : List (List Word)} {i : Nat} {arg : Arg}
    {name : String}
    (h : List.Forall₂ (fun arg words => arg.operand.Emits resolve words) args wss)
    (harg : args[i]? = some arg) (hname : arg.operand = .symbol name) :
    ∃ w, resolve name = some w ∧
      wss.flatten[((args.take i).map Arg.constantSize).sum]? = some w := by
  induction h generalizing i with
  | nil => cases harg
  | cons hfirst _ ih =>
    cases i with
    | zero =>
      cases harg
      rw [hname] at hfirst
      obtain _ | ⟨hw⟩ := hfirst
      exact ⟨_, hw, rfl⟩
    | succ i =>
      obtain ⟨w, hw, hword⟩ := ih harg
      refine ⟨w, hw, ?_⟩
      rw [List.take_succ_cons, List.map_cons, List.sum_cons, List.flatten_cons,
        ← Statement.length_of_emits hfirst, List.getElem?_append_right (Nat.le_add_right _ _),
        Nat.add_sub_cancel_left]
      exact hword

/-- Of an address and its index, only the address can name a label. -/
theorem resolve_of_mem {base : Operand} {index : List Operand} {w : Word} {x : Reg} {name : String}
    (hname : .symbol name ∈ base :: index) (hw : base.value? resolve = some w)
    (hx : IndexField index x) : resolve name = some w := by
  rcases List.mem_cons.1 hname with rfl | hmem
  · exact hw
  · cases hx <;> simp at hmem

/-- An instruction that names a label has the label's word as its address word. -/
theorem address_word_of_denotes {op : Opcode} {os : List Operand} {words : List Word}
    {name : String} (h : Denotes resolve (.machine op) os words) (hname : .symbol name ∈ os) :
    ∃ w, resolve name = some w ∧ words[1]? = some w := by
  cases h with
  | memory op r hw hne hx =>
    exact ⟨_, resolve_of_mem (List.mem_of_ne_of_mem (by simp) hname) hw hx, rfl⟩
  | registerAddress op r hw hx =>
    exact ⟨_, resolve_of_mem (List.mem_of_ne_of_mem (by simp) hname) hw hx, rfl⟩
  | address op hw hx => exact ⟨_, resolve_of_mem hname hw hx, rfl⟩
  | _ => simp at hname

/-- **A word that stands for a label**: every label that a statement names has one among its words,
unless the statement is the START of the program. -/
theorem word_of_denotes {s : Statement} {words : List Word} {i : Nat} {arg : Arg} {name : String}
    (h : s.Denotes resolve words) (hstart : s.mnemonic ≠ .directive .start)
    (harg : s.args[i]? = some arg) (hname : arg.operand = .symbol name) :
    ∃ k w, s.operandOffset? i = some k ∧ resolve name = some w ∧ words[k]? = some w := by
  have hmem : .symbol name ∈ s.operands :=
    List.mem_map.2 ⟨arg, List.mem_of_getElem? harg, hname⟩
  obtain ⟨label, mnemonic, span, args, line, source⟩ := s
  simp only [Statement.Denotes, Statement.operands] at h harg hstart hmem
  cases mnemonic with
  | machine op =>
    obtain ⟨w, hw, hword⟩ := address_word_of_denotes h hmem
    exact ⟨1, w, rfl, hw, hword⟩
  | directive d =>
    generalize hops : args.map (·.operand) = ops at h hmem
    cases h with
    | start => exact absurd rfl hstart
    | finish => simp at hmem
    | storage => simp at hmem
    | constants hne hwss =>
      subst hops
      obtain ⟨w, hw, hword⟩ := word_of_forall_emits (List.forall₂_map_left_iff.1 hwss) harg hname
      exact ⟨_, w, rfl, hw, hword⟩

/-! ## Where words begin -/

namespace Assembly

open Layout

variable {source : String} {a : Assembly}

/-- The words of a placed statement begin at `offset` of the image: so many are emitted for the
statements before it, and then come its own. -/
def Begins (a : Assembly) (p : Placed) (offset : Nat) : Prop :=
  ∃ (before after : List Placed) (done rest : Array Word) (code : List Word),
    a.layout.placed.toList = before ++ p :: after ∧
    codeOnto a.symbols #[] before = .ok done ∧ p.statement.code? a.symbols = .ok code ∧
    a.image.words = done ++ code.toArray ++ rest ∧ done.size = offset

/-- The word of a label is the offset at which the words of the statement with that label begin. -/
def LabelMarks (a : Assembly) (name : String) (w : Word) : Prop :=
  ∃ p ∈ a.layout.placed, p.statement.labelText? = some name ∧ a.Begins p w.toNat

theorem begins_of_mem {p : Placed} (h : Assembly.ofSource? source = .ok a)
    (hp : p ∈ a.layout.placed) : a.Begins p p.address := by
  obtain ⟨-, -, himage, hlayout⟩ := ofSource?_eq_ok.1 h
  obtain ⟨hwords, -⟩ := image?_eq_ok.1 himage
  obtain ⟨before, after, hsplit⟩ := List.append_of_mem (Array.mem_toList_iff.2 hp)
  rw [hlayout] at hsplit
  rw [hsplit] at hwords
  obtain ⟨done, rest, code, hdone, hcode, himage⟩ := codeOnto_split hwords
  refine ⟨before, after, done, rest, code, by rw [hlayout, hsplit], ?_, ?_, himage,
    size_of_codeOnto_before hsplit hdone⟩
  · rwa [symbols, hlayout]
  · rwa [symbols, hlayout]

theorem listsLabels_of_ofSource? (h : Assembly.ofSource? source = .ok a) :
    a.layout.ListsLabels := by
  obtain ⟨-, hadmits, -, hlayout⟩ := ofSource?_eq_ok.1 h
  rw [hlayout]
  exact listsLabels_of_admits hadmits

theorem labelMarks_of_labelAddress? {name : String} {w : Word}
    (h : Assembly.ofSource? source = .ok a)
    (hw : labelAddress? a.layout.placed.toList name = some w) : a.LabelMarks name w := by
  obtain ⟨p, hfind, rfl⟩ := Option.map_eq_some_iff.1 hw
  have hmem : p ∈ a.layout.placed := Array.mem_toList_iff.1 (List.mem_of_find?_eq_some hfind)
  refine ⟨p, hmem, by simpa using List.find?_some hfind, ?_⟩
  rw [(listsLabels_of_ofSource? h).word p hmem]
  exact begins_of_mem h hmem

/-- Every label that a statement names has a word that marks the label; that of START is the entry
address. -/
structure ResolvesLabels (a : Assembly) : Prop where
  word : ∀ p ∈ a.layout.placed, p.statement.mnemonic ≠ .directive .start →
    ∀ i arg name, p.statement.args[i]? = some arg → arg.operand = .symbol name →
      ∃ k w, p.statement.operandOffset? i = some k ∧ a.image.words[p.address + k]? = some w ∧
        a.LabelMarks name w
  entry : ∀ p ∈ a.layout.placed, p.statement.mnemonic = .directive .start →
    ∀ name, p.statement.operands.head? = some (.symbol name) → a.LabelMarks name a.image.entry
  plainEntry : ∀ p ∈ a.layout.placed, p.statement.mnemonic = .directive .start →
    p.statement.args = [] → a.image.entry.toNat = p.address
  noEntry : (∀ p ∈ a.layout.placed, p.statement.mnemonic ≠ .directive .start) → a.image.entry = 0

/-- A START in a program is the only one. -/
theorem find?_isStart_of_ofSource? {p : Placed} (h : Assembly.ofSource? source = .ok a)
    (hp : p ∈ a.layout.placed) (hstart : p.statement.mnemonic = .directive .start) :
    a.layout.placed.find? (·.statement.isStart) = some p := by
  obtain ⟨-, hadmits, -, hlayout⟩ := ofSource?_eq_ok.1 h
  have honce : a.layout.placed.toList.countP (·.statement.isStart) ≤ 1 := by
    have hstarts := hadmits.starts
    rw [← map_statement_placedFrom 0 (Line.program _), List.countP_map] at hstarts
    rw [hlayout]
    exact Nat.le_trans (Nat.le_add_left _ _) hstarts
  rw [← Array.find?_toList]
  exact find?_of_countP_le_one honce (Array.mem_toList_iff.2 hp)
    (by simp [Statement.isStart, hstart])

theorem resolvesLabels_of_ofSource? (h : Assembly.ofSource? source = .ok a) :
    a.ResolvesLabels := by
  have htiles := tiles_of_ofSource? h
  have hentry := startAddress?_of_ofSource? h
  refine ⟨fun p hp hstart i arg name harg hname => ?_, fun p hp hstart name hname => ?_,
    fun p hp hstart hargs => ?_, fun hnone => ?_⟩
  · obtain ⟨k, w, hk, hw, hword⟩ := word_of_denotes (htiles.denotes p hp) hstart harg hname
    refine ⟨k, w, hk, ?_, labelMarks_of_labelAddress? h hw⟩
    rw [Array.getElem?_toList, Array.getElem?_extract] at hword
    split at hword
    · exact hword
    · cases hword
  · rw [startAddress?, find?_isStart_of_ofSource? h hp hstart] at hentry
    obtain ⟨rest, hoperands⟩ := List.head?_eq_some_iff.1 hname
    simp only [hoperands] at hentry
    exact labelMarks_of_labelAddress? h hentry
  · rw [startAddress?, find?_isStart_of_ofSource? h hp hstart] at hentry
    simp only [Statement.operands, hargs, List.map_nil, Option.some.injEq] at hentry
    rw [← hentry]
    exact (listsLabels_of_ofSource? h).word p hp
  · have hfind : a.layout.placed.find? (·.statement.isStart) = none := by
      simpa [Statement.isStart] using hnone
    rw [startAddress?, hfind] at hentry
    exact (Option.some.inj hentry).symm

/-- **The symbol table lists the labels, and a word that names a label marks it**: pass 1 leaves the
labels in the order of the source, each once and with the sum of the sizes before its statement, and
in the image these are the offsets at which the words of the statements begin. -/
theorem labels_mark_words (source : String) :
    (∀ l, Layout.ofLines? (Line.split source.toList) = .ok l → l.ListsLabels) ∧
    ∀ a, Assembly.ofSource? source = .ok a → a.ResolvesLabels := by
  refine ⟨fun l hl => ?_, fun a ha => resolvesLabels_of_ofSource? ha⟩
  obtain ⟨-, hadmits, rfl⟩ := ofLines?_eq_ok.1 hl
  exact listsLabels_of_admits hadmits

/-- A constant names a label behind it, START names the same label, and an instruction names one
before it. -/
theorem labels_mark_words_both_ways :
    ∃ a, Assembly.ofSource? " START B\nA DC 'HI',B\nB LD GR1,A" = .ok a ∧
      a.image = ⟨#[72, 73, 3, 0x1010, 0], 3⟩ ∧ a.LabelMarks "B" 3 ∧ a.LabelMarks "A" 0 := by
  let start : Statement :=
    { label := none, mnemonic := .directive .start, mnemonicSpan := ⟨1, 5⟩
      args := [⟨.symbol "B", "B", ⟨7, 1⟩, by decide⟩], line := 1, source := "START B" }
  let constants : Statement :=
    { label := some ⟨"A", ⟨9, 1⟩⟩, mnemonic := .directive .constant, mnemonicSpan := ⟨11, 2⟩
      args := [⟨.chars "HI", "'HI'", ⟨14, 4⟩, by decide⟩, ⟨.symbol "B", "B", ⟨19, 1⟩, by decide⟩]
      line := 2
      source := "A DC 'HI',B" }
  let load : Statement :=
    { label := some ⟨"B", ⟨21, 1⟩⟩, mnemonic := .machine (.twoForm .load), mnemonicSpan := ⟨23, 2⟩
      args := [⟨.register 1, "GR1", ⟨26, 3⟩, by decide⟩, ⟨.symbol "A", "A", ⟨30, 1⟩, by decide⟩]
      line := 3
      source := "B LD GR1,A" }
  let a : Assembly :=
    ⟨⟨#[⟨0, 0, start⟩, ⟨0, 3, constants⟩, ⟨3, 2, load⟩], ⟨[("A", 0), ("B", 3)]⟩, 5⟩,
      ⟨#[72, 73, 3, 0x1010, 0], 3⟩⟩
  have ha : Assembly.ofSource? " START B\nA DC 'HI',B\nB LD GR1,A" = .ok a := by
    have htext : " START B\nA DC 'HI',B\nB LD GR1,A".toList =
        [' ', 'S', 'T', 'A', 'R', 'T', ' ', 'B', '\n', 'A', ' ', 'D', 'C', ' ', '\'', 'H', 'I',
          '\'', ',', 'B', '\n', 'B', ' ', 'L', 'D', ' ', 'G', 'R', '1', ',', 'A'] := by simp
    rw [Assembly.ofSource?, htext]
    decide +kernel
  have hresolves := (labels_mark_words " START B\nA DC 'HI',B\nB LD GR1,A").2 a ha
  refine ⟨a, ha, rfl, hresolves.entry ⟨0, 0, start⟩ (by simp [a]) rfl "B" rfl, ?_⟩
  obtain ⟨k, w, hk, hw, hmarks⟩ :=
    hresolves.word ⟨3, 2, load⟩ (by simp [a]) (by decide) 1 _ "A" rfl rfl
  cases hk
  cases hw
  exact hmarks

end Assembly

end Comet
