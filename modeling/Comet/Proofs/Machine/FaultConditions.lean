import Comet.Proofs.Machine.Execution

/-!
# When an instruction faults

The reasons for which the instruction at hand cannot be executed (`Hazard`), said of the two words
at the program counter, the registers and the stack pointer alone.

* `ofWords_eq_error`: reading the operands fails at the first register field in use that names no
  register; `effect_eq_error`: settling the effect fails for want of a cell, and of nothing else.
* `upcoming_of_first` and `upcoming_of_no_hazard`: the instruction at hand meets the first hazard
  that arises, and if none does, it has an effect.
* `faults_at_first_hazard`: so a step faults exactly if a hazard arises, with the fault of the
  first.
-/

namespace Comet

variable {σ : Type}

/-! ## Operation codes -/

namespace Opcode

/-- Whether the upper field of the first word is in use. The lower one is if an address word
follows. -/
def hasUpperField : Opcode → Bool
  | twoForm _ | registerAddress _ | register _ => true
  | address _ | bare _ => false

/-- The effective address, if the instruction has one, is no more to it than a number: the address
without memory is as good as any. -/
inductive TakesAddressAsNumber : Opcode → Prop
  | loadAddress : TakesAddressAsNumber (.registerAddress .loadAddress)
  | shift (op : Shift) : TakesAddressAsNumber (.twoForm (.shift op))
  | jump (condition : Condition) : TakesAddressAsNumber (.address (.jump condition))
  | supervisor : TakesAddressAsNumber (.address .supervisor)
  | bare (op : BareOp) : TakesAddressAsNumber (.bare op)

theorem ofCode?_eq_some {code : UInt8} {op : Opcode} : ofCode? code = some op ↔ op.code = code :=
  ⟨code_of_ofCode?, fun h => h ▸ ofCode?_code op⟩

theorem ofCode?_eq_none {code : UInt8} : ofCode? code = none ↔ ∀ op : Opcode, op.code ≠ code := by
  simp only [Option.eq_none_iff_forall_ne_some, ne_eq, ofCode?_eq_some]

end Opcode

/-! ## Hazards -/

namespace Machine

/-- The word at the program counter. -/
def word (m : Machine σ) : Word := m.memory.read m.pc

/-- The word behind it, which an instruction of two words has as its address word. -/
def addressWord (m : Machine σ) : Word := m.memory.read (m.pc + 1)

/-- The address word plus the register that the lower field names, field 0 adding nothing. -/
def effectiveAddress (m : Machine σ) : Word :=
  m.addressWord + if m.word.lowerField = 0 then 0 else m.registers.getD m.word.lowerField 0

/-- An instruction needs the cell at the one address without memory. -/
def NeedsNoMemory (m : Machine σ) : Opcode → Prop
  | .registerAddress .store => m.effectiveAddress = noMemory
  | .twoForm .load | .twoForm (.alu _) | .twoForm (.compare _) =>
    m.addressWord ≠ noMemory ∧ m.effectiveAddress = noMemory
  | .address .push | .address .call => m.sp = 0
  | .register .pop => m.sp = stackEmpty
  | _ => False

end Machine

/-- What can keep an instruction from being executed. -/
inductive Hazard
  /-- No instruction has the operation code. -/
  | opcode
  /-- The address word would be at the address without memory. -/
  | addressWord
  /-- The upper field is in use and names no register. -/
  | upperField
  /-- The lower field is in use and names no register. -/
  | lowerField
  /-- A cell that is read or written would be at the address without memory. -/
  | cell
  deriving DecidableEq, Repr

namespace Hazard

/-- The hazards in the order in which they are looked for. -/
def all : List Hazard := [opcode, addressWord, upperField, lowerField, cell]

def Arises (m : Machine σ) : Hazard → Prop
  | opcode => ∀ op : Opcode, op.code ≠ m.word.high
  | addressWord => ∃ op : Opcode, op.code = m.word.high ∧ op.hasAddressWord ∧ m.pc + 1 = noMemory
  | upperField => ∃ op : Opcode, op.code = m.word.high ∧ op.hasUpperField ∧ 7 < m.word.upperField
  | lowerField => ∃ op : Opcode, op.code = m.word.high ∧ op.hasAddressWord ∧ 7 < m.word.lowerField
  | cell => ∃ op : Opcode, op.code = m.word.high ∧ m.NeedsNoMemory op

/-- The hazard arises, and none that is looked for before it does. -/
structure First (m : Machine σ) (h : Hazard) : Prop where
  arises : h.Arises m
  earlier : ∀ other, all.idxOf other < all.idxOf h → ¬other.Arises m

def fault (m : Machine σ) : Hazard → Fault
  | opcode => .illegalOpcode m.word.high m.pc
  | upperField => .illegalRegister m.word.upperField m.pc
  | lowerField => .illegalRegister m.word.lowerField m.pc
  | addressWord | cell => .outOfBounds noMemory

/-- Where a hazard arises, one of them is the first. -/
theorem exists_first {m : Machine σ} {h : Hazard} (ha : h.Arises m) : ∃ first, First m first := by
  obtain ⟨first, harises, hmin⟩ := (measure all.idxOf).wf.has_min {h | h.Arises m} ⟨h, ha⟩
  exact ⟨first, harises, fun other hlt hother => hmin other hother hlt⟩

end Hazard

/-! ## Reading the operands -/

namespace Instr

theorem fieldReg_eq_ok {field : Nat} {r : Reg} : fieldReg field = .ok r ↔ field = r.val := by
  unfold fieldReg
  split
  · rw [Except.ok.injEq, Fin.ext_iff]
  · next h => exact iff_of_false nofun fun hr => h (hr ▸ r.isLt)

theorem fieldReg_eq_error {field n : Nat} : fieldReg field = .error n ↔ 7 < field ∧ n = field := by
  unfold fieldReg
  split
  · next h => exact iff_of_false nofun fun hn => Nat.not_le.2 hn.1 (Nat.le_of_lt_succ h)
  · next h => rw [Except.error.injEq, eq_comm, and_iff_right (by omega)]

/-- The operands are read from fields that name registers. -/
theorem exists_ofWords {op : Opcode} {first base : Word}
    (hupper : ¬(op.hasUpperField ∧ 7 < first.upperField))
    (hlower : ¬(op.hasAddressWord ∧ 7 < first.lowerField)) :
    ∃ i, ofWords op first base = .ok i := by
  have hfield {field : Nat} (h : ¬7 < field) : ∃ r, fieldReg field = .ok r :=
    ⟨⟨field, by omega⟩, fieldReg_eq_ok.2 rfl⟩
  cases op with
  | twoForm op =>
    obtain ⟨r, hr⟩ := hfield (not_and.1 hupper rfl)
    obtain ⟨x, hx⟩ := hfield (not_and.1 hlower rfl)
    simp only [ofWords, hr, hx, ok_bind]
    split <;> exact ⟨_, rfl⟩
  | registerAddress op =>
    obtain ⟨r, hr⟩ := hfield (not_and.1 hupper rfl)
    obtain ⟨x, hx⟩ := hfield (not_and.1 hlower rfl)
    exact ⟨.registerAddress op r ⟨base, x⟩, by simp [ofWords, hr, hx]⟩
  | address op =>
    obtain ⟨x, hx⟩ := hfield (not_and.1 hlower rfl)
    exact ⟨.address op ⟨base, x⟩, by simp [ofWords, hx]⟩
  | register op =>
    obtain ⟨r, hr⟩ := hfield (not_and.1 hupper rfl)
    exact ⟨.register op r, by simp [ofWords, hr]⟩
  | bare op => exact ⟨.bare op, rfl⟩

/-- The upper field is looked at first. -/
theorem ofWords_of_upperField {op : Opcode} {first : Word} (hop : op.hasUpperField)
    (h : 7 < first.upperField) (base : Word) :
    ofWords op first base = .error first.upperField := by
  have hfield := fieldReg_eq_error.2 ⟨h, rfl⟩
  cases op with
  | twoForm op => simp [ofWords, hfield]
  | registerAddress op => simp [ofWords, hfield]
  | register op => simp [ofWords, hfield]
  | address op => cases hop
  | bare op => cases hop

theorem ofWords_of_lowerField {op : Opcode} {first : Word} (hop : op.hasAddressWord)
    (hupper : ¬(op.hasUpperField ∧ 7 < first.upperField)) (h : 7 < first.lowerField)
    (base : Word) : ofWords op first base = .error first.lowerField := by
  have hfield := fieldReg_eq_error.2 ⟨h, rfl⟩
  have hr (hused : op.hasUpperField) : ∃ r, fieldReg first.upperField = .ok r :=
    ⟨⟨first.upperField, by simp only [hused, true_and] at hupper; omega⟩, fieldReg_eq_ok.2 rfl⟩
  cases op with
  | twoForm op =>
    obtain ⟨r, hr⟩ := hr rfl
    simp [ofWords, hr, hfield]
  | registerAddress op =>
    obtain ⟨r, hr⟩ := hr rfl
    simp [ofWords, hr, hfield]
  | address op => simp [ofWords, hfield]
  | register op => cases hop
  | bare op => cases hop

end Instr

namespace Machine

variable {svc : Supervisor σ} {m : Machine σ} {op : Opcode}

/-! ## Settling the effect -/

theorem read_eq_error {address : Word} {fault : Fault} :
    m.read address = .error fault ↔ address = noMemory ∧ fault = .outOfBounds noMemory := by
  unfold read
  split
  · next h => rw [h, Except.error.injEq, eq_comm, and_iff_right rfl]
  · next h => exact iff_of_false nofun fun hn => h hn.1

theorem guarded_eq_error {address : Word} {e : Effect} {fault : Fault} :
    guarded address e = .error fault ↔ address = noMemory ∧ fault = .outOfBounds noMemory := by
  unfold guarded
  split
  · next h => rw [h, Except.error.injEq, eq_comm, and_iff_right rfl]
  · next h => exact iff_of_false nofun fun hn => h hn.1

theorem effective_eq {x : Reg} (hx : m.word.lowerField = x.val) :
    m.registers.effective ⟨m.addressWord, x⟩ = m.effectiveAddress := by
  have hindex : x = noIndex ↔ m.word.lowerField = 0 := by
    rw [hx, Fin.ext_iff]
    rfl
  unfold Registers.effective effectiveAddress
  by_cases h : x = noIndex
  · rw [if_pos h, if_pos (hindex.1 h), UInt16.add_zero]
  · rw [if_neg h, if_neg (mt hindex.2 h), hx]
    simp [Registers.read, Vector.getD]

theorem sub_one_eq_noMemory {sp : Word} : sp - 1 = noMemory ↔ sp = 0 := by
  rw [UInt16.sub_eq_iff_eq_add]
  rfl

/-- **The effect cannot be settled** exactly if the instruction needs a cell that is none. -/
theorem effect_eq_error {i : Instr} {base next : Word} {fault : Fault}
    (hi : Instr.ofWords op m.word base = .ok i) (hbase : op.hasAddressWord → base = m.addressWord) :
    m.effect next i = .error fault ↔ m.NeedsNoMemory op ∧ fault = .outOfBounds noMemory := by
  cases op with
  | twoForm op =>
    obtain rfl := hbase rfl
    simp only [Instr.ofWords, bind_eq_ok, Instr.fieldReg_eq_ok] at hi
    obtain ⟨r, -, x, hx, hi⟩ := hi
    split at hi
    · next hregister =>
      cases hi
      cases op <;> simp [effect, operand, NeedsNoMemory, hregister]
    · next hmemory =>
      cases hi
      have hea := effective_eq hx
      cases op <;> simp [effect, operand, NeedsNoMemory, map_eq_error, read_eq_error, hea, hmemory]
  | registerAddress op =>
    obtain rfl := hbase rfl
    simp only [Instr.ofWords, bind_eq_ok, Instr.fieldReg_eq_ok] at hi
    obtain ⟨r, -, x, hx, hi⟩ := hi
    cases hi
    cases op <;> simp [effect, NeedsNoMemory, guarded_eq_error, effective_eq hx]
  | address op =>
    simp only [Instr.ofWords, bind_eq_ok] at hi
    obtain ⟨x, -, hi⟩ := hi
    cases hi
    cases op <;> simp [effect, NeedsNoMemory, guarded_eq_error, sub_one_eq_noMemory]
  | register op =>
    simp only [Instr.ofWords, bind_eq_ok] at hi
    obtain ⟨r, -, hi⟩ := hi
    cases hi
    cases op
    simp [effect, NeedsNoMemory, map_eq_error, read_eq_error, noMemory, stackEmpty]
  | bare op =>
    cases hi
    cases op with
    | nop | halt => simp [effect, NeedsNoMemory]
    | ret =>
      -- an empty stack is not read from
      simp only [effect, NeedsNoMemory, false_and, iff_false]
      split
      · intro h
        cases h
      · next hsp =>
        rw [bind_eq_error, read_eq_error]
        rintro (⟨hempty, -⟩ | ⟨_, -, h⟩)
        · exact hsp hempty
        · cases h

/-! ## The instruction at hand -/

theorem arises_opcode_iff : Hazard.opcode.Arises m ↔ Opcode.ofCode? m.word.high = none :=
  Opcode.ofCode?_eq_none.symm

/-- The other hazards are about the one instruction that has the operation code. -/
theorem arises_iff_of_code (hop : Opcode.ofCode? m.word.high = some op) :
    (Hazard.addressWord.Arises m ↔ op.hasAddressWord ∧ m.pc + 1 = noMemory) ∧
    (Hazard.upperField.Arises m ↔ op.hasUpperField ∧ 7 < m.word.upperField) ∧
    (Hazard.lowerField.Arises m ↔ op.hasAddressWord ∧ 7 < m.word.lowerField) ∧
    (Hazard.cell.Arises m ↔ m.NeedsNoMemory op) := by
  have honly (P : Opcode → Prop) : (∃ op' : Opcode, op'.code = m.word.high ∧ P op') ↔ P op := by
    simp only [← Opcode.ofCode?_eq_some, hop, Option.some.injEq, exists_eq_left']
  exact ⟨honly _, honly _, honly _, honly _⟩

theorem fetchOperand_eq (h : ¬(op.hasAddressWord ∧ m.pc + 1 = noMemory)) :
    m.fetchOperand op = .ok (if op.hasAddressWord then some m.addressWord else none) := by
  unfold fetchOperand
  by_cases hop : op.hasAddressWord
  · have hread : m.read (m.pc + 1) = .ok m.addressWord := read_eq_ok.2 ⟨not_and.1 h hop, rfl⟩
    rw [if_pos hop, if_pos hop, hread]
    rfl
  · rw [if_neg hop, if_neg hop]

theorem fetch_of_code (hpc : m.pc ≠ noMemory) (hop : Opcode.ofCode? m.word.high = some op) :
    m.fetch = m.fetchOperand op >>= fun operand =>
      match Instr.ofWords op m.word (operand.getD 0) with
      | .ok instr => .ok ⟨m.pc, m.word, operand, instr⟩
      | .error field => .error (.illegalRegister field m.pc) := by
  have hword : m.read m.pc = .ok m.word := read_eq_ok.2 ⟨hpc, rfl⟩
  rw [fetch, hword, ok_bind]
  split
  · next hnone => cases hop.symm.trans hnone
  · next op' hsome =>
    obtain rfl : op = op' := Option.some.inj (hop.symm.trans hsome)
    rfl

/-- With no hazard in its words an instruction is fetched, and it lacks nothing but a cell. -/
theorem exists_fetch (hpc : m.pc ≠ noMemory) (hop : Opcode.ofCode? m.word.high = some op)
    (hword : ¬(op.hasAddressWord ∧ m.pc + 1 = noMemory))
    (hupper : ¬(op.hasUpperField ∧ 7 < m.word.upperField))
    (hlower : ¬(op.hasAddressWord ∧ 7 < m.word.lowerField)) :
    ∃ f, m.fetch = .ok f ∧ ∀ next fault, m.effect next f.instr = .error fault ↔
      m.NeedsNoMemory op ∧ fault = .outOfBounds noMemory := by
  let operand := if op.hasAddressWord then some m.addressWord else none
  obtain ⟨i, hi⟩ : ∃ i, Instr.ofWords op m.word (operand.getD 0) = .ok i :=
    Instr.exists_ofWords hupper hlower
  refine ⟨⟨m.pc, m.word, operand, i⟩, ?_, fun next fault => effect_eq_error hi fun hop => ?_⟩
  · simp only [fetch_of_code hpc hop, fetchOperand_eq hword, ok_bind]
    rw [hi]
  · rw [show operand = some m.addressWord from if_pos hop]
    rfl

/-- **The first hazard that arises** is the one that the instruction at hand meets. -/
theorem upcoming_of_first {h : Hazard} (hpc : m.pc ≠ noMemory) (hfirst : Hazard.First m h) :
    m.upcoming = .error (h.fault m) := by
  obtain ⟨harises, hearlier⟩ := hfirst
  cases hop : Opcode.ofCode? m.word.high with
  | none =>
    -- no instruction, so no other hazard
    have hopcode : Hazard.opcode.Arises m := arises_opcode_iff.2 hop
    cases h with
    | opcode =>
      have hword : m.read m.pc = .ok m.word := read_eq_ok.2 ⟨hpc, rfl⟩
      simp only [upcoming, fetch, hword, ok_bind, hop, error_bind, Hazard.fault]
    | _ => exact absurd hopcode (hearlier .opcode (by decide))
  | some op =>
    obtain ⟨hword, hupper, hlower, hcell⟩ := arises_iff_of_code hop
    rw [upcoming, fetch_of_code hpc hop]
    cases h with
    | opcode => cases (arises_opcode_iff.1 harises).symm.trans hop
    | addressWord =>
      obtain ⟨haddress, hend⟩ := hword.1 harises
      have hread : m.read (m.pc + 1) = .error (.outOfBounds noMemory) := read_eq_error.2 ⟨hend, rfl⟩
      simp only [fetchOperand, haddress, if_pos, hread]
      rfl
    | upperField =>
      obtain ⟨hused, hfield⟩ := hupper.1 harises
      have hword := mt hword.2 (hearlier .addressWord (by decide))
      simp only [fetchOperand_eq hword, ok_bind, Instr.ofWords_of_upperField hused hfield,
        error_bind, Hazard.fault]
    | lowerField =>
      obtain ⟨hused, hfield⟩ := hlower.1 harises
      have hword := mt hword.2 (hearlier .addressWord (by decide))
      have hupper := mt hupper.2 (hearlier .upperField (by decide))
      simp only [fetchOperand_eq hword, ok_bind, Instr.ofWords_of_lowerField hused hupper hfield,
        error_bind, Hazard.fault]
    | cell =>
      obtain ⟨f, hf, heffect⟩ := exists_fetch hpc hop
        (mt hword.2 (hearlier .addressWord (by decide)))
        (mt hupper.2 (hearlier .upperField (by decide)))
        (mt hlower.2 (hearlier .lowerField (by decide)))
      rw [← fetch_of_code hpc hop, hf, ok_bind, (heffect _ _).2 ⟨hcell.1 harises, rfl⟩]
      rfl

theorem upcoming_of_no_hazard (hpc : m.pc ≠ noMemory) (h : ∀ h : Hazard, ¬h.Arises m) :
    ∃ f e, m.upcoming = .ok (f, e) := by
  obtain ⟨op, hop⟩ := Option.ne_none_iff_exists'.1 (mt arises_opcode_iff.2 (h .opcode))
  obtain ⟨hword, hupper, hlower, hcell⟩ := arises_iff_of_code hop
  obtain ⟨f, hf, heffect⟩ := exists_fetch hpc hop (mt hword.2 (h .addressWord))
    (mt hupper.2 (h .upperField)) (mt hlower.2 (h .lowerField))
  cases he : m.effect f.next f.instr with
  | ok e => exact ⟨f, e, upcoming_eq_ok.2 ⟨hf, he⟩⟩
  | error fault => exact absurd (hcell.2 ((heffect _ _).1 he).1) (h .cell)

/-- An instruction meets a fault exactly if a hazard arises, and then that of the first. -/
theorem upcoming_eq_error {fault : Fault} (hpc : m.pc ≠ noMemory) :
    m.upcoming = .error fault ↔ ∃ h, Hazard.First m h ∧ fault = h.fault m := by
  constructor
  · intro hu
    by_cases hany : ∃ h : Hazard, h.Arises m
    · obtain ⟨h, hfirst⟩ := Hazard.exists_first hany.choose_spec
      have hfault := (upcoming_of_first hpc hfirst).symm.trans hu
      exact ⟨h, hfirst, (Except.error.inj hfault).symm⟩
    · obtain ⟨f, e, hok⟩ := upcoming_of_no_hazard hpc (not_exists.1 hany)
      cases hok.symm.trans hu
  · rintro ⟨h, hfirst, rfl⟩
    exact upcoming_of_first hpc hfirst

/-! ## Steps -/

theorem Live.pc_ne_noMemory (h : m.Live) : m.pc ≠ noMemory := by
  intro hpc
  have hstop := UInt16.lt_iff_toNat_lt.1 h.inside
  have := m.stop.toNat_lt
  rw [hpc, show noMemory.toNat = 65535 from rfl] at hstop
  omega

/-- The machine with another word at the program counter. -/
def withWord (m : Machine σ) (w : Word) : Machine σ :=
  { m with memory := m.memory.write m.pc w }

@[simp] theorem word_withWord (w : Word) : (m.withWord w).word = w := by
  rw [word, withWord, Memory.read_write, if_pos rfl]

@[simp] theorem addressWord_withWord (w : Word) : (m.withWord w).addressWord = m.addressWord := by
  have hne : m.pc ≠ m.pc + 1 := by
    rw [ne_eq, UInt16.left_eq_add]
    decide
  rw [addressWord, withWord, Memory.read_write, if_neg hne, addressWord]

/-- The two words are of one instruction, and differ at most in fields that it does not use. -/
structure SameInUse (w w' : Word) : Prop where
  high : w'.high = w.high
  upper : ∀ op : Opcode, op.code = w.high → op.hasUpperField → w'.upperField = w.upperField
  lower : ∀ op : Opcode, op.code = w.high → op.hasAddressWord → w'.lowerField = w.lowerField

theorem effectiveAddress_withWord {w : Word} (h : w.lowerField = m.word.lowerField) :
    (m.withWord w).effectiveAddress = m.effectiveAddress := by
  rw [effectiveAddress, effectiveAddress, word_withWord, addressWord_withWord, h]
  rfl

/-- Fields that are not in use make no hazard. -/
theorem arises_withWord {w : Word} (h : SameInUse m.word w) (hazard : Hazard) :
    hazard.Arises (m.withWord w) ↔ hazard.Arises m := by
  obtain ⟨hhigh, hupper, hlower⟩ := h
  cases hazard with
  | opcode => simp [Hazard.Arises, hhigh]
  | addressWord => simp only [Hazard.Arises, word_withWord, hhigh]; rfl
  | upperField =>
    simp only [Hazard.Arises, word_withWord, hhigh]
    refine exists_congr fun op => and_congr_right fun hop => and_congr_right fun hused => ?_
    rw [hupper op hop hused]
  | lowerField =>
    simp only [Hazard.Arises, word_withWord, hhigh]
    refine exists_congr fun op => and_congr_right fun hop => and_congr_right fun hused => ?_
    rw [hlower op hop hused]
  | cell =>
    simp only [Hazard.Arises, word_withWord, hhigh]
    refine exists_congr fun op => and_congr_right fun hop => ?_
    have hea (hused : op.hasAddressWord) := effectiveAddress_withWord (hlower op hop hused)
    cases op with
    | twoForm op =>
      cases op <;> simp [NeedsNoMemory, hea rfl]
    | registerAddress op =>
      cases op <;> simp [NeedsNoMemory, hea rfl]
    | address op => cases op <;> rfl
    | register op => cases op; rfl
    | bare op => rfl

theorem first_withWord {w : Word} (h : SameInUse m.word w) (hazard : Hazard) :
    Hazard.First (m.withWord w) hazard ↔ Hazard.First m hazard := by
  constructor
  · rintro ⟨harises, hearlier⟩
    exact ⟨(arises_withWord h hazard).1 harises, fun other hlt hother =>
      hearlier other hlt ((arises_withWord h other).2 hother)⟩
  · rintro ⟨harises, hearlier⟩
    exact ⟨(arises_withWord h hazard).2 harises, fun other hlt hother =>
      hearlier other hlt ((arises_withWord h other).1 hother)⟩

/-- A hazard that arises says the same, whatever is in the fields that are not in use. -/
theorem fault_withWord {w : Word} (h : SameInUse m.word w) {hazard : Hazard}
    (harises : hazard.Arises m) : hazard.fault (m.withWord w) = hazard.fault m := by
  cases hazard with
  | opcode =>
    rw [Hazard.fault, word_withWord, h.high]
    rfl
  | upperField =>
    obtain ⟨op, hop, hused, -⟩ := harises
    rw [Hazard.fault, word_withWord, h.upper op hop hused]
    rfl
  | lowerField =>
    obtain ⟨op, hop, hused, -⟩ := harises
    rw [Hazard.fault, word_withWord, h.lower op hop hused]
    rfl
  | addressWord | cell => rfl

/-- A step that faults has met the first hazard that arises, and changed nothing but the status. -/
theorem Live.step_eq_error_iff (hlive : m.Live) {stopped : Stopped σ} :
    m.step svc = .error stopped ↔
      ∃ h, Hazard.First m h ∧ stopped = ⟨h.fault m, { m with status := .faulted }⟩ := by
  simp only [step_eq_error, hlive, true_and, upcoming_eq_error hlive.pc_ne_noMemory]
  constructor
  · rintro ⟨_, ⟨h, hfirst, rfl⟩, rfl⟩
    exact ⟨h, hfirst, rfl⟩
  · rintro ⟨h, hfirst, rfl⟩
    exact ⟨_, ⟨h, hfirst, rfl⟩, rfl⟩

/-- **A step faults at the first hazard that arises**, and does not fault if none does. So an
instruction that takes its address as a number is out of bounds only with its address word, an
operation code is illegal only if no instruction has it, and fields that are not in use never
matter. -/
theorem faults_at_first_hazard (svc : Supervisor σ) (m : Machine σ) (hlive : m.Live) :
    ((∃ stopped, m.step svc = .error stopped) ↔ ∃ h : Hazard, h.Arises m) ∧
    (∀ stopped, m.step svc = .error stopped ↔
      ∃ h, Hazard.First m h ∧ stopped = ⟨h.fault m, { m with status := .faulted }⟩) ∧
    (∀ op : Opcode, op.code = m.word.high → op.TakesAddressAsNumber →
      ∀ address m', m.step svc = .error ⟨.outOfBounds address, m'⟩ →
        op.hasAddressWord ∧ m.pc + 1 = noMemory) ∧
    (∀ code address m', m.step svc = .error ⟨.illegalOpcode code address, m'⟩ →
      ∀ op : Opcode, op.code ≠ m.word.high) ∧
    ∀ w, SameInUse m.word w → ∀ fault,
      (∃ m', (m.withWord w).step svc = .error ⟨fault, m'⟩) ↔
        ∃ m', m.step svc = .error ⟨fault, m'⟩ := by
  refine ⟨⟨?_, ?_⟩, fun stopped => hlive.step_eq_error_iff, ?_, ?_, ?_⟩
  · rintro ⟨stopped, hstep⟩
    obtain ⟨h, hfirst, -⟩ := hlive.step_eq_error_iff.1 hstep
    exact ⟨h, hfirst.arises⟩
  · rintro ⟨h, harises⟩
    obtain ⟨first, hfirst⟩ := Hazard.exists_first harises
    exact ⟨_, hlive.step_eq_error_iff.2 ⟨first, hfirst, rfl⟩⟩
  · intro op hcode hnumber address m' hstep
    obtain ⟨hword, -, -, hneeds⟩ := arises_iff_of_code (Opcode.ofCode?_eq_some.2 hcode)
    obtain ⟨h, hfirst, hstopped⟩ := hlive.step_eq_error_iff.1 hstep
    cases h with
    | addressWord => exact hword.1 hfirst.arises
    | cell =>
      have hmiss := hneeds.1 hfirst.arises
      cases hnumber <;> exact hmiss.elim
    | _ => cases hstopped
  · intro code address m' hstep
    obtain ⟨h, hfirst, hstopped⟩ := hlive.step_eq_error_iff.1 hstep
    cases h with
    | opcode => exact hfirst.arises
    | _ => cases hstopped
  · intro w hw fault
    have hlive' : (m.withWord w).Live := ⟨hlive.running, hlive.inside⟩
    simp only [hlive.step_eq_error_iff, hlive'.step_eq_error_iff, first_withWord hw,
      Stopped.mk.injEq]
    constructor
    · rintro ⟨_, h, hfirst, rfl, -⟩
      exact ⟨_, h, hfirst, fault_withWord hw hfirst.arises, rfl⟩
    · rintro ⟨_, h, hfirst, rfl, -⟩
      exact ⟨_, h, hfirst, (fault_withWord hw hfirst.arises).symm, rfl⟩

/-- Both fields of this LD name no register, and its address word stands before the program's end:
the upper field is reported. -/
theorem faults_at_first_hazard_upper_field :
    let m := load ⟨#[0x109A, 0xFFFE], 0⟩ ()
    m.Live ∧ Hazard.upperField.Arises m ∧ Hazard.lowerField.Arises m ∧
      m.step .idle = .error ⟨.illegalRegister 9 0, { m with status := .faulted }⟩ := by
  intro m
  have hlive : m.Live := ⟨rfl, by decide⟩
  have hword : m.word = 0x109A := Memory.read_ofWords #[0x109A, 0xFFFE] 0
  have hcode : (Opcode.twoForm .load).code = m.word.high := by rw [hword]; rfl
  have hop := Opcode.ofCode?_eq_some.2 hcode
  have hupper : Hazard.upperField.Arises m := ⟨_, hcode, rfl, by rw [hword]; decide⟩
  have hfaults := (faults_at_first_hazard .idle m hlive).2.1
  refine ⟨hlive, hupper, ⟨_, hcode, rfl, by rw [hword]; decide⟩,
    (hfaults _).2 ⟨.upperField, ⟨hupper, fun other hlt => ?_⟩, ?_⟩⟩
  · cases other with
    | opcode => exact fun h => h _ hcode
    | addressWord => exact fun h => absurd ((arises_iff_of_code hop).1.1 h).2 (by decide)
    | _ => exact absurd hlt (by decide)
  · rw [Hazard.fault, hword]
    rfl

end Machine

end Comet
