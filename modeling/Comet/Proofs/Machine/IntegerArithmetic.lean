import Comet.Proofs.Machine.Execution

/-!
# Operations on words as integer arithmetic

A word stands for an unsigned number (`UInt16.toNat`) or for a signed one (`Word.signed`,
`signed_eq`). What the operations on a register and a second operand compute is said here of these
numbers.

* `Computes`: the register and the flags that an operation on two words leaves.
* `computes_alu`, `computes_compare`, `computes_shift`: the operations on words do this.
* `Machine.Operates`: a step that executes an operation, wherever its second operand comes from
  (`Machine.Supplies`). It leaves what the operation computes (`Operates.computes`).
* `operations_in_integers`: that such a step never fails, what it leaves, and how comparing is
  related to subtracting.
-/

namespace Comet

/-! ## Words as numbers -/

namespace Word

theorem signed_eq (w : Word) :
    w.signed = if w.toNat < 32768 then (w.toNat : Int) else w.toNat - 65536 := by
  have hbits : w.signed = w.toBitVec.toInt := rfl
  rw [hbits, BitVec.toInt_eq_toNat_cond, UInt16.toNat_toBitVec]
  split <;> split <;> omega

/-- Bit 15 of a word is its sign. -/
theorem testBit_fifteen (w : Word) : w.toNat.testBit 15 = decide (32768 ≤ w.toNat) := by
  have hlt := w.toNat_lt
  rw [Nat.testBit_eq_decide_div_mod_eq, decide_eq_decide]
  omega

theorem negative_eq (w : Word) : w.negative = w.toNat.testBit 15 := by
  rw [testBit_fifteen]
  rfl

end Word

/-- A word as a comparison reads it. -/
def Comparison.reading : Comparison → Word → Int
  | arithmetic, w => w.signed
  | logical, w => w.toNat

theorem Comparison.apply_eq (order : Comparison) (a b : Word) :
    order.apply a b = compare (order.reading a) (order.reading b) := by
  cases order with
  | arithmetic => rfl
  | logical =>
    have hlt : a < b ↔ (a.toNat : Int) < b.toNat := by
      rw [UInt16.lt_iff_toNat_lt, Int.ofNat_lt]
    have heq : a = b ↔ (a.toNat : Int) = b.toNat := by
      rw [← UInt16.toNat_inj, Int.natCast_inj]
    simp only [apply, reading, compare, compareOfLessAndEq, hlt, heq]
    congr

theorem Comparison.reading_inj (order : Comparison) {a b : Word} :
    order.reading a = order.reading b ↔ a = b := by
  have ha := a.toNat_lt
  have hb := b.toNat_lt
  rw [← UInt16.toNat_inj]
  cases order with
  | arithmetic =>
    simp only [reading, Word.signed_eq]
    split <;> split <;> omega
  | logical => exact Int.natCast_inj

/-! ## What operations compute -/

/-- What an operation on a register that holds `a` and a word `b` leaves in the register, and
whether it overflows. A comparison leaves the register as it is. -/
def Stores (a b value : Word) (overflow : Bool) : TwoFormOp → Prop
  | .load => value = b ∧ overflow = false
  | .alu .adda =>
    (value.toNat : Int) = (a.toNat + b.toNat) % 65536 ∧
      (overflow = true ↔ ¬(-32768 ≤ a.signed + b.signed ∧ a.signed + b.signed ≤ 32767))
  | .alu .suba =>
    (value.toNat : Int) = (a.toNat - b.toNat) % 65536 ∧
      (overflow = true ↔ ¬(-32768 ≤ a.signed - b.signed ∧ a.signed - b.signed ≤ 32767))
  | .alu .addl =>
    (value.toNat : Int) = (a.toNat + b.toNat) % 65536 ∧
      (overflow = true ↔ 65536 ≤ a.toNat + b.toNat)
  | .alu .subl =>
    (value.toNat : Int) = (a.toNat - b.toNat) % 65536 ∧ (overflow = true ↔ a.toNat < b.toNat)
  | .alu .and =>
    (∀ i, value.toNat.testBit i = (a.toNat.testBit i && b.toNat.testBit i)) ∧ overflow = false
  | .alu .or =>
    (∀ i, value.toNat.testBit i = (a.toNat.testBit i || b.toNat.testBit i)) ∧ overflow = false
  | .alu .xor =>
    (∀ i, value.toNat.testBit i = (a.toNat.testBit i != b.toNat.testBit i)) ∧ overflow = false
  | .compare _ => value = a ∧ overflow = false
  | .shift .leftLogical =>
    value.toNat = a.toNat * 2 ^ (b.toNat % 16) % 65536 ∧ overflow = false
  | .shift .rightLogical => value.toNat = a.toNat / 2 ^ (b.toNat % 16) ∧ overflow = false
  -- the quotient is rounded down
  | .shift .rightArithmetic => value.signed = a.signed / 2 ^ (b.toNat % 16) ∧ overflow = false
  | .shift .leftArithmetic =>
    value.toNat.testBit 15 = a.toNat.testBit 15 ∧
      value.toNat % 32768 = a.toNat % 32768 * 2 ^ (b.toNat % 16) % 32768 ∧
      (-32768 ≤ a.signed * 2 ^ (b.toNat % 16) → a.signed * 2 ^ (b.toNat % 16) ≤ 32767 →
        value.signed = a.signed * 2 ^ (b.toNat % 16)) ∧
      overflow = false

/-- Less than zero: of a comparison the first word is the lesser, of another operation bit 15 is
set in what it stores. -/
def SignOf (a b value : Word) : TwoFormOp → Prop
  | .compare order => order.reading a < order.reading b
  | _ => value.toNat.testBit 15 = true

/-- Zero: of a comparison the words are equal, of another operation what it stores is zero. -/
def ZeroOf (a b value : Word) : TwoFormOp → Prop
  | .compare order => order.reading a = order.reading b
  | _ => value.toNat = 0

/-- What an operation on a register that holds `a` and a word `b` leaves in the register and in the
flags. -/
structure Computes (op : TwoFormOp) (a b value : Word) (flags : Flags) : Prop where
  stores : Stores a b value flags.overflow op
  sign : flags.sign = true ↔ SignOf a b value op
  zero : flags.zero = true ↔ ZeroOf a b value op

/-- The flags of a result tell its sign and whether it is zero. -/
theorem computes_ofResult {op : TwoFormOp} {a b value : Word} {overflow : Bool}
    (hop : ∀ order, op ≠ .compare order) (h : Stores a b value overflow op) :
    Computes op a b value (.ofResult value overflow) := by
  have hzero : (value == 0) = true ↔ value.toNat = 0 := by
    rw [beq_iff_eq, ← UInt16.toNat_inj]
    rfl
  have hsign : value.negative = true ↔ value.toNat.testBit 15 = true := by rw [Word.negative_eq]
  cases op with
  | compare order => exact absurd rfl (hop order)
  | load => exact ⟨h, hsign, hzero⟩
  | alu op => exact ⟨h, hsign, hzero⟩
  | shift op => exact ⟨h, hsign, hzero⟩

theorem computes_compare (order : Comparison) (a b : Word) :
    Computes (.compare order) a b a (.ofOrdering (order.apply a b)) := by
  refine ⟨⟨rfl, rfl⟩, ?_, ?_⟩
  · rw [order.apply_eq, Flags.ofOrdering, beq_iff_eq]
    exact compare_lt_iff_lt
  · rw [order.apply_eq, Flags.ofOrdering, beq_iff_eq]
    exact compare_eq_iff_eq

theorem outsideSigned_iff {n : Int} : outsideSigned n = true ↔ ¬(-32768 ≤ n ∧ n ≤ 32767) := by
  simp only [outsideSigned, Bool.or_eq_true, decide_eq_true_eq]
  omega

theorem toNat_add_cast (a b : Word) : ((a + b).toNat : Int) = (a.toNat + b.toNat) % 65536 := by
  rw [UInt16.toNat_add]
  omega

theorem toNat_sub_cast (a b : Word) : ((a - b).toNat : Int) = (a.toNat - b.toNat) % 65536 := by
  have hb := b.toNat_lt
  rw [UInt16.toNat_sub]
  omega

/-- **Arithmetic and logic.** -/
theorem computes_alu (op : Alu) (a b : Word) :
    Computes (.alu op) a b (op.apply a b).1 (.ofResult (op.apply a b).1 (op.apply a b).2) := by
  refine computes_ofResult nofun ?_
  cases op with
  | adda => exact ⟨toNat_add_cast a b, outsideSigned_iff⟩
  | suba => exact ⟨toNat_sub_cast a b, outsideSigned_iff⟩
  | addl => exact ⟨toNat_add_cast a b, decide_eq_true_iff⟩
  | subl => exact ⟨toNat_sub_cast a b, decide_eq_true_iff.trans UInt16.lt_iff_toNat_lt⟩
  | and => exact ⟨fun i => by rw [Alu.apply, UInt16.toNat_and, Nat.testBit_and], rfl⟩
  | or => exact ⟨fun i => by rw [Alu.apply, UInt16.toNat_or, Nat.testBit_or], rfl⟩
  | xor => exact ⟨fun i => by rw [Alu.apply, UInt16.toNat_xor, Nat.testBit_xor], rfl⟩

/-! ## Shifts -/

/-- The count of a shift is taken modulo 16. -/
theorem toNat_count (count : Word) : (count % 16).toNat = count.toNat % 16 := UInt16.toNat_mod _ _

theorem toNat_shiftLeft_count (a count : Word) :
    (a <<< (count % 16)).toNat = a.toNat * 2 ^ (count.toNat % 16) % 65536 := by
  rw [UInt16.toNat_shiftLeft, toNat_count, Nat.mod_mod, Nat.shiftLeft_eq]

/-- A left arithmetic shift puts the sign back in front of fifteen shifted bits. -/
theorem toNat_leftArithmetic (a count : Word) :
    (Shift.leftArithmetic.apply a count).toNat =
      32768 * (a.toNat / 32768) + a.toNat % 32768 * 2 ^ (count.toNat % 16) % 32768 := by
  have ha := a.toNat_lt
  have hsign : a.toNat &&& 0x8000 = 2 ^ 15 * (a.toNat / 32768) := by
    have hbit : (a.toNat / 2 ^ 15) % 2 = a.toNat / 32768 := by omega
    rw [show 0x8000 = 2 ^ 15 from rfl, Nat.and_two_pow, Nat.toNat_testBit, hbit, Nat.mul_comm]
    rfl
  have hrest : (a.toNat * 2 ^ (count.toNat % 16) % 65536) &&& 0x7FFF =
      a.toNat % 32768 * 2 ^ (count.toNat % 16) % 32768 := by
    rw [show 0x7FFF = 2 ^ 15 - 1 from rfl, Nat.and_two_pow_sub_one_eq_mod,
      Nat.mod_mod_of_dvd _ (show 2 ^ 15 ∣ 65536 by decide), ← Nat.mod_mul_mod]
    rfl
  have hlt : a.toNat % 32768 * 2 ^ (count.toNat % 16) % 32768 < 2 ^ 15 := Nat.mod_lt _ (by decide)
  rw [Shift.apply, UInt16.toNat_or, UInt16.toNat_and, UInt16.toNat_and, toNat_shiftLeft_count,
    show (0x8000 : Word).toNat = 0x8000 from rfl, show (0x7FFF : Word).toNat = 0x7FFF from rfl,
    hsign, hrest, ← Nat.two_pow_add_eq_or_of_lt hlt]

/-- A count below 16 is no negative number, so a shift by it goes the right way. -/
theorem toNat_smod_count (count : Word) :
    ((count % 16).toInt16.toBitVec.smod 16).toNat = count.toNat % 16 := by
  have hsmall : ∀ n < 16, ((UInt16.ofNat n).toBitVec.smod 16).toNat = n := by decide
  have hcount : count % 16 = UInt16.ofNat (count.toNat % 16) := by
    rw [← UInt16.toNat_inj, toNat_count, UInt16.toNat_ofNat']
    omega
  rw [UInt16.toBitVec_toInt16, hcount, hsmall _ (Nat.mod_lt _ (by decide))]

/-- A right arithmetic shift divides, rounding down. -/
theorem signed_rightArithmetic (a count : Word) :
    (Shift.rightArithmetic.apply a count).signed = a.signed / 2 ^ (count.toNat % 16) := by
  have hbits : (Shift.rightArithmetic.apply a count).signed =
      (a.toInt16 >>> (count % 16).toInt16).toBitVec.toInt := rfl
  rw [hbits, Int16.toBitVec_shiftRight, BitVec.sshiftRight', BitVec.toInt_sshiftRight,
    toNat_smod_count, Int.shiftRight_eq_div_pow]
  push_cast
  rfl

/-- Whatever stays in range when it is multiplied is what a left arithmetic shift makes of it. -/
theorem signed_leftArithmetic {a count : Word}
    (hlow : -32768 ≤ a.signed * 2 ^ (count.toNat % 16))
    (hhigh : a.signed * 2 ^ (count.toNat % 16) ≤ 32767) :
    (Shift.leftArithmetic.apply a count).signed = a.signed * 2 ^ (count.toNat % 16) := by
  have ha := a.toNat_lt
  have hvalue := toNat_leftArithmetic a count
  have hpos : 0 < 2 ^ (count.toNat % 16) := Nat.two_pow_pos _
  have hcast : ((2 ^ (count.toNat % 16) : Nat) : Int) = 2 ^ (count.toNat % 16) := by push_cast; rfl
  rw [← hcast] at hlow hhigh ⊢
  generalize 2 ^ (count.toNat % 16) = factor at hvalue hpos hlow hhigh ⊢
  -- the fifteen low bits are shifted, the sign counts as often as the factor says
  have hsplit : a.signed * factor =
      (a.toNat % 32768 * factor : Nat) - 32768 * ((a.toNat / 32768 * factor : Nat) : Int) := by
    have hparts : a.signed = (a.toNat % 32768 : Nat) - 32768 * ((a.toNat / 32768 : Nat) : Int) := by
      rw [a.signed_eq]
      split <;> omega
    rw [hparts]
    push_cast
    ring
  have hlow15 : a.toNat % 32768 * factor ≤ 32767 * factor := Nat.mul_le_mul_right _ (by omega)
  rw [hsplit] at hlow hhigh ⊢
  rw [Word.signed_eq, hvalue]
  generalize a.toNat % 32768 * factor = shifted at hlow hhigh hlow15 ⊢
  obtain hsign | hsign : a.toNat / 32768 = 0 ∨ a.toNat / 32768 = 1 := by omega
  · rw [hsign, Nat.zero_mul] at hlow hhigh ⊢
    split <;> omega
  · rw [hsign, Nat.one_mul] at hlow hhigh ⊢
    split <;> omega

/-- **Shifts.** -/
theorem computes_shift (op : Shift) (a count : Word) :
    Computes (.shift op) a count (op.apply a count) (.ofResult (op.apply a count) false) := by
  refine computes_ofResult nofun ?_
  cases op with
  | leftLogical => exact ⟨toNat_shiftLeft_count a count, rfl⟩
  | rightLogical =>
    refine ⟨?_, rfl⟩
    rw [Shift.apply, UInt16.toNat_shiftRight, toNat_count, Nat.mod_mod, Nat.shiftRight_eq_div_pow]
  | rightArithmetic => exact ⟨signed_rightArithmetic a count, rfl⟩
  | leftArithmetic =>
    have ha := a.toNat_lt
    have hvalue := toNat_leftArithmetic a count
    refine ⟨?_, by omega, signed_leftArithmetic, rfl⟩
    rw [Word.testBit_fifteen, Word.testBit_fifteen, decide_eq_decide]
    omega

/-! ## Comparing and subtracting -/

/-- The arithmetic comparison of two words tells what subtracting them as signed numbers would, if
its sign were not spoilt by an overflow. -/
theorem Computes.sign_compare_suba {a b value value' : Word} {flags flags' : Flags}
    (h : Computes (.compare .arithmetic) a b value flags)
    (h' : Computes (.alu .suba) a b value' flags') :
    flags.sign = (flags'.sign ^^ flags'.overflow) := by
  have ha := a.toNat_lt
  have hb := b.toNat_lt
  obtain ⟨hvalue, hoverflow⟩ := h'.stores
  have hless : flags.sign = true ↔ a.signed < b.signed := h.sign
  have hsign : flags'.sign = true ↔ value'.toNat.testBit 15 = true := h'.sign
  rw [Word.testBit_fifteen, decide_eq_true_iff] at hsign
  have hdiffer : (flags'.sign ^^ flags'.overflow) = true ↔
      ¬(flags'.sign = true ↔ flags'.overflow = true) := by
    rw [Bool.xor_iff_ne, ne_eq, Bool.eq_iff_iff]
  rw [Bool.eq_iff_iff, hdiffer, hless, hsign, hoverflow]
  simp only [Word.signed_eq]
  split <;> split <;> omega

/-- The logical comparison of two words tells whether subtracting them borrows. -/
theorem Computes.sign_compare_subl {a b value value' : Word} {flags flags' : Flags}
    (h : Computes (.compare .logical) a b value flags)
    (h' : Computes (.alu .subl) a b value' flags') : flags.sign = flags'.overflow := by
  have hless : flags.sign = true ↔ (a.toNat : Int) < b.toNat := h.sign
  rw [Bool.eq_iff_iff, hless, h'.stores.2]
  exact Int.ofNat_lt

/-- Comparisons and subtractions. -/
def TwoFormOp.compares : TwoFormOp → Bool
  | .compare _ | .alu .suba | .alu .subl => true
  | _ => false

/-- All of these find words equal that are. -/
theorem Computes.zero_iff {op : TwoFormOp} {a b value : Word} {flags : Flags}
    (h : Computes op a b value flags) (hop : op.compares = true) :
    flags.zero = true ↔ a = b := by
  have hdifference (hvalue : (value.toNat : Int) = (a.toNat - b.toNat) % 65536) :
      value.toNat = 0 ↔ a = b := by
    have ha := a.toNat_lt
    have hb := b.toNat_lt
    rw [← UInt16.toNat_inj]
    omega
  rw [h.zero]
  cases op with
  | compare order => exact order.reading_inj
  | alu op =>
    cases op with
    | suba => exact hdifference h.stores.1
    | subl => exact hdifference h.stores.1
    | _ => cases hop
  | _ => cases hop

/-! ## Steps -/

namespace Machine

variable {σ : Type} {svc : Supervisor σ} {m m' : Machine σ} {op : TwoFormOp} {r : Reg} {a b : Word}

/-- The second operand of an operation gives it the word: a register its contents, an address the
contents of its cell, or itself if it counts a shift. -/
inductive Supplies (m : Machine σ) : TwoFormOp → SecondOperand → Word → Prop
  | register (op : TwoFormOp) (x : Reg) : Supplies m op (.register x) (m.registers.read x)
  | count (op : Shift) (address : Address) :
      Supplies m (.shift op) (.memory address) (m.registers.effective address)
  | cell {op : TwoFormOp} (address : Address) : (∀ shift, op ≠ .shift shift) →
      m.registers.effective address ≠ noMemory →
      Supplies m op (.memory address) (m.memory.read (m.registers.effective address))

/-- A step executes an operation on the register `r`, which holds `a`, and on a second operand that
gives `b`, and leads to `m'`. -/
structure Operates (svc : Supervisor σ) (op : TwoFormOp) (r : Reg) (a b : Word)
    (m m' : Machine σ) : Prop where
  live : m.Live
  instr : ∃ f source, m.fetch = .ok f ∧ f.instr = .twoForm op r source ∧ m.Supplies op source b
  target : m.registers.read r = a
  step : m.step svc = .ok m'

/-- The effect of an operation on a register that holds `a` and a word `b`. -/
def operation (r : Reg) (a b : Word) : TwoFormOp → Effect
  | .load => .result r b false
  | .alu op => .result r (op.apply a b).1 (op.apply a b).2
  | .compare order => .compare (order.apply a b)
  | .shift op => .result r (op.apply a b) false

/-- Where the second operand comes from does not matter. -/
theorem Supplies.effect_eq {source : SecondOperand} (h : m.Supplies op source b) (next : Word)
    (r : Reg) :
    m.effect next (.twoForm op r source) = .ok (operation r (m.registers.read r) b op) := by
  cases h with
  | register op x => cases op <;> rfl
  | count op address => rfl
  | cell address hop hne =>
    have hread : m.operand (.memory address) =
        .ok (m.memory.read (m.registers.effective address)) := read_eq_ok.2 ⟨hne, rfl⟩
    cases op with
    | shift op => exact absurd rfl (hop op)
    | _ => simp [effect, hread, operation]

theorem Supplies.upcoming_eq {f : Fetched} {source : SecondOperand} (h : m.Supplies op source b)
    (hf : m.fetch = .ok f) (hi : f.instr = .twoForm op r source) :
    m.upcoming = .ok (f, operation r (m.registers.read r) b op) := by
  rw [upcoming_eq_ok, hi]
  exact ⟨hf, h.effect_eq f.next r⟩

/-- **An operation never fails** once its second operand gives a word. -/
theorem exists_operates (svc : Supervisor σ) {f : Fetched} {source : SecondOperand}
    (hlive : m.Live) (hf : m.fetch = .ok f) (hi : f.instr = .twoForm op r source)
    (hb : m.Supplies op source b) : ∃ m', Operates svc op r (m.registers.read r) b m m' :=
  ⟨_, hlive, ⟨f, source, hf, hi, hb⟩, rfl, hlive.step_ok (hb.upcoming_eq hf hi)⟩

/-- What a step with an operation leads to. -/
theorem Operates.eq_commit (h : Operates svc op r a b m m') :
    ∃ f, m' = m.commit svc f (operation r a b op) := by
  obtain ⟨hlive, ⟨f, source, hf, hi, hb⟩, rfl, hstep⟩ := h
  have hcommit : m.step svc = .ok (m.commit svc f _) := hlive.step_ok (hb.upcoming_eq hf hi)
  exact ⟨f, Except.ok.inj (hstep.symm.trans hcommit)⟩

/-- **What an operation leaves** in its register and in the flags. -/
theorem Operates.computes (h : Operates svc op r a b m m') :
    Computes op a b (m'.registers.read r) m'.flags := by
  obtain ⟨f, rfl⟩ := h.eq_commit
  have hwrite (value : Word) : (m.registers.write r value).read r = value := by
    rw [Registers.read_write, if_pos rfl]
  cases op with
  | load =>
    show Computes _ _ _ ((m.registers.write r b).read r) (.ofResult b false)
    rw [hwrite]
    exact computes_ofResult nofun ⟨rfl, rfl⟩
  | alu op =>
    show Computes _ _ _ ((m.registers.write r (op.apply a b).1).read r) _
    rw [hwrite]
    exact computes_alu op a b
  | compare order =>
    show Computes _ _ _ (m.registers.read r) _
    rw [h.target]
    exact computes_compare order a b
  | shift op =>
    show Computes _ _ _ ((m.registers.write r (op.apply a b)).read r) _
    rw [hwrite]
    exact computes_shift op a b

/-- The other registers stay as they are. -/
theorem Operates.read_of_ne (h : Operates svc op r a b m m') {other : Reg} (hne : other ≠ r) :
    m'.registers.read other = m.registers.read other := by
  obtain ⟨f, rfl⟩ := h.eq_commit
  have hwrite (value : Word) : (m.registers.write r value).read other = m.registers.read other := by
    rw [Registers.read_write, if_neg hne.symm]
  cases op with
  | compare order => rfl
  | _ => exact hwrite _

/-- **Operations on words are integer arithmetic.** Wherever the second operand comes from, a step
with an operation succeeds, and it leaves in the register and in the flags what the operation
computes. Comparing two words and subtracting them agree: CPA tells the sign of the difference even
if it overflows, CPL whether subtracting borrows, and all of them whether the words are equal. -/
theorem operations_in_integers (svc : Supervisor σ) :
    (∀ (m : Machine σ) f op r source b, m.Live → m.fetch = .ok f →
      f.instr = .twoForm op r source → m.Supplies op source b →
        ∃ m', Operates svc op r (m.registers.read r) b m m') ∧
    (∀ op r a b (m m' : Machine σ), Operates svc op r a b m m' →
      Computes op a b (m'.registers.read r) m'.flags ∧
        ∀ other ≠ r, m'.registers.read other = m.registers.read other) ∧
    ∀ a b (m m' : Machine σ),
      (∀ r s n n', Operates svc (.compare .arithmetic) r a b m m' →
        Operates svc (.alu .suba) s a b n n' →
          m'.flags.sign = (n'.flags.sign ^^ n'.flags.overflow)) ∧
      (∀ r s n n', Operates svc (.compare .logical) r a b m m' →
        Operates svc (.alu .subl) s a b n n' → m'.flags.sign = n'.flags.overflow) ∧
      ∀ op r, Operates svc op r a b m m' → op.compares = true →
        (m'.flags.zero = true ↔ a = b) := by
  refine ⟨fun m f op r source b => exists_operates svc, fun op r a b m m' h => ?_,
    fun a b m m' => ⟨fun r s n n' h h' => ?_, fun r s n n' h h' => ?_, fun op r h hop => ?_⟩⟩
  · exact ⟨h.computes, fun other => h.read_of_ne⟩
  · exact h.computes.sign_compare_suba h'.computes
  · exact h.computes.sign_compare_subl h'.computes
  · exact h.computes.zero_iff hop

/-- The least signed number less one: the difference is too small for a word, so SUBA sets no sign
and CPA does. -/
theorem operations_in_integers_least :
    let start (first : Word) : Machine Unit := (load ⟨#[first, 2, 1], 0⟩ ()).setRegister 1 0x8000
    ∃ suba cpa, Operates .idle (.alu .suba) 1 0x8000 1 (start 0x2110) suba ∧
      Operates .idle (.compare .arithmetic) 1 0x8000 1 (start 0x4010) cpa ∧
      (suba.registers.read 1).toNat = 0x7FFF ∧ suba.flags.overflow = true ∧
      cpa.flags.sign = (suba.flags.sign ^^ suba.flags.overflow) := by
  intro start
  have hread (first : Word) (address : Word) :
      (start first).memory.read address = #[first, 2, 1].getD address.toNat 0 :=
    Memory.read_ofWords _ _
  have hlive (first : Word) : (start first).Live := ⟨rfl, show (0 : Word) < 3 by decide⟩
  have hsupplies (first : Word) {op : TwoFormOp} (hop : ∀ shift, op ≠ .shift shift) :
      (start first).Supplies op (.memory ⟨2, 0⟩) 1 := by
    rw [show (1 : Word) = (start first).memory.read 2 from (hread first 2).symm]
    exact .cell ⟨2, 0⟩ hop (show (2 : Word) ≠ noMemory by decide)
  have hfetch (first : Word) {op : TwoFormOp} (hop : Opcode.ofCode? first.high = some (.twoForm op))
      (hi : Instr.ofWords (.twoForm op) first 2 = .ok (.twoForm op 1 (.memory ⟨2, 0⟩))) :
      (start first).fetch = .ok ⟨0, first, some 2, .twoForm op 1 (.memory ⟨2, 0⟩)⟩ := by
    have hoperand : (start first).read 1 = .ok 2 := read_eq_ok.2 ⟨by decide, hread first 1⟩
    have haddress : (start first).fetchOperand (.twoForm op) = .ok (some 2) :=
      congrArg (Except.map some) hoperand
    exact fetch_eq_ok.2 ⟨rfl, show (0 : Word) ≠ noMemory by decide, (hread first 0).symm, hop,
      haddress, hi⟩
  obtain ⟨hexists, hleaves, hcompare⟩ := operations_in_integers (σ := Unit) .idle
  obtain ⟨suba, hsuba⟩ : ∃ m', Operates .idle (.alu .suba) 1 0x8000 1 (start 0x2110) m' :=
    hexists _ _ _ _ _ _ (hlive 0x2110) (hfetch 0x2110 rfl rfl) rfl (hsupplies 0x2110 nofun)
  obtain ⟨cpa, hcpa⟩ : ∃ m', Operates .idle (.compare .arithmetic) 1 0x8000 1 (start 0x4010) m' :=
    hexists _ _ _ _ _ _ (hlive 0x4010) (hfetch 0x4010 rfl rfl) rfl (hsupplies 0x4010 nofun)
  obtain ⟨hvalue, hoverflow⟩ := (hleaves _ _ _ _ _ _ hsuba).1.stores
  refine ⟨suba, cpa, hsuba, hcpa, ?_, hoverflow.2 (by decide), ?_⟩
  · rw [← Int.natCast_inj, hvalue]
    rfl
  · exact (hcompare _ _ _ _).1 _ _ _ _ hcpa hsuba

end Machine

end Comet
