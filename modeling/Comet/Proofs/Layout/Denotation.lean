import Comet.Assembly.Code
import Comet.Proofs.Layout.Placement

/-!
# What statements denote

`Statement.Denotes` gives the words of a statement by rules, written out independently of the
encoder: the first word of an instruction is its operation code followed by two register fields
(`Opcode.firstWord`), an address operand is a literal or whatever its label stands for
(`Operand.value?`), and the address `0xFFFF` marks a second operand that is a register.

* `denotes_of_written`, `exists_instr_of_denotes`: an instruction statement denotes the encoding of
  an instruction with the operands written (`Instr.Written`).
* `code?_eq_ok`: a statement emits code exactly if it denotes words, and these are the code.
* `length_of_denotes`: what a statement denotes has the length of its footprint.
* `entry?_eq_ok`: the program starts where START says (`Layout.startAddress?`).
-/

namespace Comet

/-- The first word of an instruction: its operation code, then two register fields of four bits. -/
def Opcode.firstWord (op : Opcode) (r x : Reg) : Word :=
  ⟨(op.code.toBitVec ++ BitVec.ofNat 4 r.val ++ BitVec.ofNat 4 x.val).cast rfl⟩

/-- The word that an address operand stands for, if its label stands for one. -/
def Operand.value? (resolve : String → Option Word) : Operand → Option Word
  | .integer n => some (UInt16.ofInt n)
  | .symbol name => resolve name
  | .register _ | .chars _ => none

/-- The words of one operand of a constant. -/
inductive Operand.Emits (resolve : String → Option Word) : Operand → List Word → Prop
  | chars (text : String) :
      Emits resolve (.chars text) (text.toList.map fun c => UInt16.ofNat c.toNat)
  | value {o : Operand} {w : Word} : o.value? resolve = some w → Emits resolve o [w]

/-- The register field of an index operand: one of GR1 to GR7, or zero if there is none. -/
inductive IndexField : List Operand → Reg → Prop
  | none : IndexField [] noIndex
  | register {x : Reg} : x ≠ noIndex → IndexField [.register x] x

/-- The operands of a statement. -/
def Statement.operands (s : Statement) : List Operand := s.args.map (·.operand)

/-- The words that a mnemonic with its operands denotes. -/
inductive Denotes (resolve : String → Option Word) : Mnemonic → List Operand → List Word → Prop
  | registers (op : TwoFormOp) (r r₂ : Reg) :
      Denotes resolve (.machine (.twoForm op)) [.register r, .register r₂]
        [Opcode.firstWord (.twoForm op) r r₂, 0xFFFF]
  | memory (op : TwoFormOp) (r : Reg) {base : Operand} {index : List Operand} {w : Word} {x : Reg} :
      base.value? resolve = some w → w ≠ 0xFFFF → IndexField index x →
      Denotes resolve (.machine (.twoForm op)) (.register r :: base :: index)
        [Opcode.firstWord (.twoForm op) r x, w]
  | registerAddress (op : RegisterAddressOp) (r : Reg) {base : Operand} {index : List Operand}
      {w : Word} {x : Reg} :
      base.value? resolve = some w → IndexField index x →
      Denotes resolve (.machine (.registerAddress op)) (.register r :: base :: index)
        [Opcode.firstWord (.registerAddress op) r x, w]
  | address (op : AddressOp) {base : Operand} {index : List Operand} {w : Word} {x : Reg} :
      base.value? resolve = some w → IndexField index x →
      Denotes resolve (.machine (.address op)) (base :: index)
        [Opcode.firstWord (.address op) 0 x, w]
  | register (op : RegisterOp) (r : Reg) :
      Denotes resolve (.machine (.register op)) [.register r]
        [Opcode.firstWord (.register op) r 0]
  | bare (op : BareOp) :
      Denotes resolve (.machine (.bare op)) [] [Opcode.firstWord (.bare op) 0 0]
  | start (entry : Option Operand) : Denotes resolve (.directive .start) entry.toList []
  | finish : Denotes resolve (.directive .finish) [] []
  | storage {n : Int} :
      0 ≤ n → Denotes resolve (.directive .storage) [.integer n] (List.replicate n.toNat 0)
  | constants {os : List Operand} {wss : List (List Word)} :
      os ≠ [] → List.Forall₂ (Operand.Emits resolve) os wss →
      Denotes resolve (.directive .constant) os wss.flatten

/-- The words that a statement denotes when labels stand for words by `resolve`. -/
def Statement.Denotes (resolve : String → Option Word) (s : Statement) (words : List Word) : Prop :=
  Comet.Denotes resolve s.mnemonic s.operands words

/-- The bits of the first word are those that the encoder adds up. -/
theorem head_eq_firstWord (op : Opcode) (r x : Reg) : Instr.head op r x = op.firstWord r x := by
  have hr := r.isLt
  have hx := x.isLt
  have hc := op.code.toNat_lt
  apply UInt16.toNat_inj.1
  have hbits : (op.firstWord r x).toNat =
      (op.code.toBitVec ++ BitVec.ofNat 4 r.val ++ BitVec.ofNat 4 x.val).toNat := rfl
  rw [hbits, BitVec.toNat_append, BitVec.toNat_append, BitVec.toNat_ofNat, BitVec.toNat_ofNat,
    Nat.mod_eq_of_lt (by omega), Nat.mod_eq_of_lt (by omega),
    ← Nat.shiftLeft_add_eq_or_of_lt (by omega), ← Nat.shiftLeft_add_eq_or_of_lt (by omega),
    Nat.shiftLeft_eq, Nat.shiftLeft_eq, Instr.head, UInt16.toNat_ofNat', UInt8.toNat_toBitVec]
  omega

/-! ## Instructions -/

/-- The operands that an instruction can have been written with. -/
inductive Instr.Written (resolve : String → Option Word) : Instr → List Operand → Prop
  | registers (op : TwoFormOp) (r r₂ : Reg) :
      Written resolve (.twoForm op r (.register r₂)) [.register r, .register r₂]
  | memory (op : TwoFormOp) (r : Reg) {base : Operand} {index : List Operand} {w : Word} {x : Reg} :
      base.value? resolve = some w → IndexField index x →
      Written resolve (.twoForm op r (.memory ⟨w, x⟩)) (.register r :: base :: index)
  | registerAddress (op : RegisterAddressOp) (r : Reg) {base : Operand} {index : List Operand}
      {w : Word} {x : Reg} :
      base.value? resolve = some w → IndexField index x →
      Written resolve (.registerAddress op r ⟨w, x⟩) (.register r :: base :: index)
  | address (op : AddressOp) {base : Operand} {index : List Operand} {w : Word} {x : Reg} :
      base.value? resolve = some w → IndexField index x →
      Written resolve (.address op ⟨w, x⟩) (base :: index)
  | register (op : RegisterOp) (r : Reg) : Written resolve (.register op r) [.register r]
  | bare (op : BareOp) : Written resolve (.bare op) []

variable {resolve : String → Option Word}

theorem denotes_of_written {i : Instr} {os : List Operand} (h : i.Written resolve os)
    (hi : i.Encodable) : Denotes resolve (.machine i.opcode) os i.encode := by
  cases h with
  | registers op r r₂ => rw [Instr.encode, head_eq_firstWord]; exact .registers op r r₂
  | memory op r hw hx => rw [Instr.encode, head_eq_firstWord]; exact .memory op r hw hi hx
  | registerAddress op r hw hx =>
    rw [Instr.encode, head_eq_firstWord]; exact .registerAddress op r hw hx
  | address op hw hx => rw [Instr.encode, head_eq_firstWord]; exact .address op hw hx
  | register op r => rw [Instr.encode, head_eq_firstWord]; exact .register op r
  | bare op => rw [Instr.encode, head_eq_firstWord]; exact .bare op

/-- **The words of an instruction statement** encode an instruction with the operands written. -/
theorem exists_instr_of_denotes {op : Opcode} {os : List Operand} {words : List Word}
    (h : Denotes resolve (.machine op) os words) :
    ∃ i : Instr, i.opcode = op ∧ i.Encodable ∧ i.encode = words ∧ i.Written resolve os := by
  cases h with
  | registers op r r₂ =>
    exact ⟨.twoForm op r (.register r₂), rfl, trivial, by rw [Instr.encode, head_eq_firstWord]; rfl,
      .registers op r r₂⟩
  | memory op r hw hne hx =>
    exact ⟨.twoForm op r (.memory ⟨_, _⟩), rfl, hne, by rw [Instr.encode, head_eq_firstWord],
      .memory op r hw hx⟩
  | registerAddress op r hw hx =>
    exact ⟨.registerAddress op r ⟨_, _⟩, rfl, trivial, by rw [Instr.encode, head_eq_firstWord],
      .registerAddress op r hw hx⟩
  | address op hw hx =>
    exact ⟨.address op ⟨_, _⟩, rfl, trivial, by rw [Instr.encode, head_eq_firstWord],
      .address op hw hx⟩
  | register op r =>
    exact ⟨.register op r, rfl, trivial, by rw [Instr.encode, head_eq_firstWord], .register op r⟩
  | bare op =>
    exact ⟨.bare op, rfl, trivial, by rw [Instr.encode, head_eq_firstWord], .bare op⟩

namespace Statement

/-! ## Operands -/

variable {s : Statement} {symbols : SymbolTable}

theorem address?_eq_ok {arg : Arg} {w : Word} :
    s.address? symbols arg = .ok w ↔ arg.operand.value? symbols.get? = some w := by
  unfold address? Operand.value?
  cases arg.operand with
  | symbol name => cases h : symbols.get? name <;> simp [h]
  | _ => simp

theorem register?_eq_ok {arg : Arg} {r : Reg} :
    s.register? arg = .ok r ↔ arg.operand = .register r := by
  unfold register?
  cases arg.operand <;> simp

theorem index?_eq_ok {index : Option Arg} {x : Reg} :
    s.index? index = .ok x ↔ IndexField (index.toList.map (·.operand)) x := by
  cases index with
  | none =>
    simp only [index?, Except.ok.injEq, Option.toList_none, List.map_nil]
    constructor
    · rintro rfl; exact .none
    · rintro ⟨⟩; rfl
  | some arg =>
    simp only [index?, bind_eq_ok, register?_eq_ok, Option.toList_some, List.map_cons, List.map_nil]
    constructor
    · intro h
      obtain ⟨r, hr, h⟩ := h
      split at h
      · cases h
      · next hne => cases h; rw [hr]; exact .register hne
    · generalize arg.operand = o
      rintro (_ | ⟨hne⟩)
      exact ⟨x, rfl, if_neg hne⟩

theorem secondOperand?_eq_ok {second : Arg} {index : Option Arg} {source : SecondOperand} :
    s.secondOperand? symbols second index = .ok source ↔
      (∃ r, second.operand = .register r ∧ index = none ∧ source = .register r) ∨
      ∃ w x, second.operand.value? symbols.get? = some w ∧ w ≠ 0xFFFF ∧
        IndexField (index.toList.map (·.operand)) x ∧ source = .memory ⟨w, x⟩ := by
  unfold secondOperand?
  split
  · next r h => simp [h, Operand.value?, eq_comm]
  · next r extra h => simp [h, Operand.value?]
  · next index _ _ hnone hsome =>
    have hr : ∀ r, second.operand ≠ .register r := by
      rintro r hr
      cases index with
      | none => exact hnone r hr rfl
      | some extra => exact hsome r extra hr rfl
    simp only [bind_eq_ok, address?_eq_ok, hr, false_and, exists_false, false_or]
    constructor
    · intro h
      obtain ⟨w, hw, h⟩ := h
      split at h
      · cases h
      · next hne =>
        simp only [bind_eq_ok, index?_eq_ok, pure_eq_ok] at h
        obtain ⟨x, hx, rfl⟩ := h
        exact ⟨w, x, hw, hne, hx, rfl⟩
    · intro h
      obtain ⟨w, x, hw, hne, hx, rfl⟩ := h
      refine ⟨w, hw, ?_⟩
      rw [if_neg (show w ≠ noMemory from hne)]
      simpa only [bind_eq_ok, index?_eq_ok, pure_eq_ok] using ⟨x, hx, rfl⟩

theorem constant?_eq_ok {arg : Arg} {ws : List Word} :
    s.constant? symbols arg = .ok ws ↔ arg.operand.Emits symbols.get? ws := by
  unfold constant?
  split
  · next text h =>
    rw [h]
    constructor
    · intro h; cases h; exact .chars text
    · intro h
      obtain _ | ⟨hv⟩ := h
      · rfl
      · cases hv
  · next hchars =>
    simp only [bind_eq_ok, address?_eq_ok, pure_eq_ok]
    constructor
    · rintro ⟨w, hw, rfl⟩; exact .value hw
    · generalize arg.operand = o at *
      rintro (text | ⟨hv⟩)
      · exact absurd rfl (hchars text)
      · exact ⟨_, hv, rfl⟩

/-! ## Whole statements -/

theorem code?_iff_words? {words : List Word} :
    s.code? symbols = .ok words ↔
      ∃ form, Form.Deals s.mnemonic s.args form ∧ s.words? symbols form = .ok words := by
  simp only [code?, bind_eq_ok, form?_eq_ok]

theorem denotes_of_words? {form : Form} {words : List Word}
    (hdeals : Form.Deals s.mnemonic s.args form) (h : s.words? symbols form = .ok words) :
    s.Denotes symbols.get? words := by
  obtain ⟨label, mnemonic, span, args, line, source⟩ := s
  simp only [Statement.Denotes, operands]
  cases hdeals with
  | twoForm op r second index =>
    simp only [words?, bind_eq_ok, register?_eq_ok, secondOperand?_eq_ok, pure_eq_ok] at h
    obtain ⟨r₁, hr, source, hsource, rfl⟩ := h
    rw [List.map_cons, List.map_cons, hr]
    rcases hsource with ⟨r₂, hr₂, rfl, rfl⟩ | ⟨w, x, hw, hne, hx, rfl⟩
    · rw [hr₂]
      exact denotes_of_written (.registers op r₁ r₂) trivial
    · exact denotes_of_written (.memory op r₁ hw hx) hne
  | registerAddress op r address index =>
    simp only [words?, bind_eq_ok, register?_eq_ok, address?_eq_ok, index?_eq_ok, pure_eq_ok] at h
    obtain ⟨r₁, hr, w, hw, x, hx, rfl⟩ := h
    rw [List.map_cons, List.map_cons, hr]
    exact denotes_of_written (.registerAddress op r₁ hw hx) trivial
  | address op address index =>
    simp only [words?, bind_eq_ok, address?_eq_ok, index?_eq_ok, pure_eq_ok] at h
    obtain ⟨w, hw, x, hx, rfl⟩ := h
    exact denotes_of_written (.address op hw hx) trivial
  | register op r =>
    simp only [words?, bind_eq_ok, register?_eq_ok, pure_eq_ok] at h
    obtain ⟨r₁, hr, rfl⟩ := h
    rw [List.map_singleton, hr]
    exact denotes_of_written (.register op r₁) trivial
  | bare op =>
    cases h
    exact denotes_of_written (.bare op) trivial
  | start entry =>
    cases h
    cases entry with
    | none => exact .start none
    | some arg => exact .start (some arg.operand)
  | finish => cases h; exact .finish
  | storage length n hn hpos =>
    cases h
    rw [List.map_singleton, hn]
    exact .storage hpos
  | constants arg args =>
    simp only [words?, bind_eq_ok, mapM_eq_ok, constant?_eq_ok, pure_eq_ok] at h
    obtain ⟨wss, hwss, rfl⟩ := h
    exact .constants (by simp) (List.forall₂_map_left_iff.2 hwss)

/-- An index field belongs to at most one operand. -/
theorem exists_index_of_indexField {args : List Arg} {x : Reg}
    (h : IndexField (args.map (·.operand)) x) : ∃ index : Option Arg, args = index.toList := by
  apply eq_toList_of_length_le
  rw [← List.length_map (·.operand)]
  generalize args.map (·.operand) = os at h
  cases h <;> simp

theorem words?_of_written {i : Instr} (hi : i.Encodable) (hm : s.mnemonic = .machine i.opcode)
    (h : i.Written symbols.get? s.operands) :
    ∃ form, Form.Deals s.mnemonic s.args form ∧ s.words? symbols form = .ok i.encode := by
  obtain ⟨label, mnemonic, span, args, line, source⟩ := s
  simp only [operands] at h hm ⊢
  subst hm
  -- each rule says what the operands are, and so what the statement was written with
  generalize hops : args.map (·.operand) = ops at h
  cases h with
  | registers op r r₂ =>
    obtain ⟨first, _, rfl, hr, hops⟩ := List.map_eq_cons_iff.1 hops
    obtain ⟨second, rfl, hr₂⟩ := List.map_eq_singleton_iff.1 hops
    refine ⟨_, .twoForm op first second none, ?_⟩
    simp only [words?, bind_eq_ok, register?_eq_ok, secondOperand?_eq_ok, pure_eq_ok]
    exact ⟨r, hr, .register r₂, .inl ⟨r₂, hr₂, trivial, rfl⟩, rfl⟩
  | memory op r hw hx =>
    obtain ⟨first, _, rfl, hr, hops⟩ := List.map_eq_cons_iff.1 hops
    obtain ⟨second, rest, rfl, rfl, rfl⟩ := List.map_eq_cons_iff.1 hops
    obtain ⟨index, rfl⟩ := exists_index_of_indexField hx
    refine ⟨_, .twoForm op first second index, ?_⟩
    simp only [words?, bind_eq_ok, register?_eq_ok, secondOperand?_eq_ok, pure_eq_ok]
    exact ⟨r, hr, .memory ⟨_, _⟩, .inr ⟨_, _, hw, hi, hx, rfl⟩, rfl⟩
  | registerAddress op r hw hx =>
    obtain ⟨first, _, rfl, hr, hops⟩ := List.map_eq_cons_iff.1 hops
    obtain ⟨second, rest, rfl, rfl, rfl⟩ := List.map_eq_cons_iff.1 hops
    obtain ⟨index, rfl⟩ := exists_index_of_indexField hx
    refine ⟨_, .registerAddress op first second index, ?_⟩
    simp only [words?, bind_eq_ok, register?_eq_ok, address?_eq_ok, index?_eq_ok, pure_eq_ok]
    exact ⟨r, hr, _, hw, _, hx, rfl⟩
  | address op hw hx =>
    obtain ⟨first, rest, rfl, rfl, rfl⟩ := List.map_eq_cons_iff.1 hops
    obtain ⟨index, rfl⟩ := exists_index_of_indexField hx
    refine ⟨_, .address op first index, ?_⟩
    simp only [words?, bind_eq_ok, address?_eq_ok, index?_eq_ok, pure_eq_ok]
    exact ⟨_, hw, _, hx, rfl⟩
  | register op r =>
    obtain ⟨first, rfl, hr⟩ := List.map_eq_singleton_iff.1 hops
    refine ⟨_, .register op first, ?_⟩
    simp only [words?, bind_eq_ok, register?_eq_ok, pure_eq_ok]
    exact ⟨r, hr, rfl⟩
  | bare op =>
    obtain rfl := List.map_eq_nil_iff.1 hops
    exact ⟨_, .bare op, rfl⟩

theorem words?_of_denotes {words : List Word} (h : s.Denotes symbols.get? words) :
    ∃ form, Form.Deals s.mnemonic s.args form ∧ s.words? symbols form = .ok words := by
  cases hm : s.mnemonic with
  | machine op =>
    rw [Statement.Denotes, hm] at h
    obtain ⟨i, rfl, hi, rfl, hwritten⟩ := exists_instr_of_denotes h
    exact hm ▸ words?_of_written hi hm hwritten
  | directive d =>
    simp only [Statement.Denotes, hm, operands] at h
    generalize hops : s.args.map (·.operand) = ops at h
    cases h with
    | start entry =>
      cases entry with
      | none =>
        rw [List.map_eq_nil_iff.1 hops]
        exact ⟨_, .start none, rfl⟩
      | some o =>
        obtain ⟨arg, harg, -⟩ := List.map_eq_singleton_iff.1 hops
        rw [harg]
        exact ⟨_, .start (some arg), rfl⟩
    | finish =>
      rw [List.map_eq_nil_iff.1 hops]
      exact ⟨_, .finish, rfl⟩
    | storage hpos =>
      obtain ⟨arg, harg, hn⟩ := List.map_eq_singleton_iff.1 hops
      rw [harg]
      exact ⟨_, .storage arg _ hn hpos, rfl⟩
    | constants hne hwss =>
      subst hops
      obtain ⟨arg, args, hargs⟩ :=
        List.exists_cons_of_ne_nil (mt (List.map_eq_nil_iff (f := _)).2 hne)
      rw [hargs] at hwss ⊢
      refine ⟨_, .constants arg args, ?_⟩
      simp only [words?, bind_eq_ok, mapM_eq_ok, constant?_eq_ok, pure_eq_ok]
      exact ⟨_, List.forall₂_map_left_iff.1 hwss, rfl⟩

/-- **A statement emits exactly the words that it denotes.** -/
theorem code?_eq_ok {words : List Word} :
    s.code? symbols = .ok words ↔ s.Denotes symbols.get? words := by
  rw [code?_iff_words?]
  exact ⟨fun ⟨_, hdeals, h⟩ => denotes_of_words? hdeals h, words?_of_denotes⟩

theorem length_of_emits {resolve : String → Option Word} {arg : Arg} {words : List Word}
    (h : arg.operand.Emits resolve words) : words.length = arg.constantSize := by
  unfold Arg.constantSize
  generalize arg.operand = o at h
  cases h with
  | chars text => rw [List.length_map, String.length_toList]
  | value hv => cases o <;> first | rfl | cases hv

theorem length_of_forall_emits {resolve : String → Option Word} {args : List Arg}
    {wss : List (List Word)}
    (h : List.Forall₂ (fun arg words => arg.operand.Emits resolve words) args wss) :
    wss.flatten.length = (args.map Arg.constantSize).sum := by
  induction h with
  | nil => rfl
  | cons harg _ ih =>
    rw [List.flatten_cons, List.length_append, length_of_emits harg, ih, List.map_cons,
      List.sum_cons]

/-- What a statement denotes has the length of its footprint. -/
theorem length_of_denotes {resolve : String → Option Word} {words : List Word}
    (h : s.Denotes resolve words) : words.length = s.footprint := by
  obtain ⟨label, mnemonic, span, args, line, source⟩ := s
  simp only [Statement.Denotes, operands] at h
  generalize hops : args.map (·.operand) = ops at h
  cases h with
  | storage hpos =>
    obtain ⟨arg, rfl, hn⟩ := List.map_eq_singleton_iff.1 hops
    simp [footprint, hn]
  | constants hne hwss =>
    subst hops
    exact length_of_forall_emits (List.forall₂_map_left_iff.1 hwss)
  | _ => rfl

end Statement

namespace Layout

/-! ## The start of a program -/

/-- Where a program starts: at what START names, else at START itself, else at address 0. -/
def startAddress? (l : Layout) : Option Word :=
  match l.placed.find? (·.statement.isStart) with
  | none => some 0
  | some p =>
    match p.statement.operands with
    | [] => some (UInt16.ofNat p.address)
    | entry :: _ => entry.value? (labelAddress? l.placed.toList)

/-- **The entry address** is where the program starts. -/
theorem entry?_eq_ok {l : Layout} {symbols : SymbolTable} {w : Word}
    (hsymbols : symbols.get? = labelAddress? l.placed.toList) :
    l.entry? symbols = .ok w ↔ l.startAddress? = some w := by
  have hstart : l.placed.find? (·.statement.isStart) = l.start? := rfl
  unfold entry? startAddress?
  rw [hstart, ← hsymbols]
  cases l.start? with
  | none => simp
  | some p =>
    simp only [Statement.operands]
    cases p.statement.args with
    | nil => simp
    | cons arg args => exact Statement.address?_eq_ok

end Layout

end Comet
