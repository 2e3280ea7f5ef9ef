import Comet.Proofs.Machine.Limit

/-!
# Executing in place

A step settles the effect of an instruction before it changes anything. `InPlace.execute` is the
machine without that foresight: it moves the program counter on with every word it fetches, changes
registers, stack pointer, memory and flags as it goes, and may meet a fault after any of that.

* `perform_run`: once its words are fetched, an instruction is carried out as its effect says, or
  faults before it has changed anything.
* `execute_run`: so all that a fault can leave behind is the program counter past a part of the
  instruction, and with that put back, stepping in place is stepping (`stepInPlace_eq_step`).
* `concerns_of_upcoming`: what a fault says is about the instruction at the program counter.
* `fault_leaves_no_effect`: a machine that faults, in a step or in a run, is the machine just before
  the instruction at fault.
-/

namespace Comet

/-- What a fault of the instruction at `pc` says: that it is no instruction, or that it needs a cell
at the one address without memory. -/
def Fault.Concerns (pc : Word) : Fault → Prop
  | .illegalOpcode _ address | .illegalRegister _ address => address = pc
  | .outOfBounds address => address = noMemory
  | .stepLimit _ => False

namespace Machine

variable {σ : Type}

/-- A computation that changes a machine as it goes and may stop with a fault; what it has changed
until then stays changed. -/
abbrev InPlace (σ : Type) := EStateM Fault (Machine σ)

namespace InPlace

def readCell (address : Word) : InPlace σ Word := do
  if address = noMemory then throw (.outOfBounds address)
  return (← get).memory.read address

def writeCell (address value : Word) : InPlace σ Unit := do
  if address = noMemory then throw (.outOfBounds address)
  modify fun m => { m with memory := m.memory.write address value }

/-- Reads the word at the program counter and moves on to the next. -/
def nextWord : InPlace σ Word := do
  let word ← readCell (← get).pc
  modify fun m => { m with pc := m.pc + 1 }
  return word

/-- Pushes a value; gives the address it is stored at. -/
def push (value : Word) : InPlace σ Word := do
  let sp := (← get).sp - 1
  writeCell sp value
  modify fun m => { m with sp }
  return sp

def pop : InPlace σ Word := do
  let value ← readCell (← get).sp
  modify fun m => { m with sp := m.sp + 1 }
  return value

def setResult (r : Reg) (value : Word) (overflow : Bool) : InPlace σ Effect := do
  modify fun m =>
    { m with registers := m.registers.write r value, flags := .ofResult value overflow }
  return .result r value overflow

def goTo (target : Word) : InPlace σ Unit := modify fun m => { m with pc := target }

def halt : InPlace σ Effect := do
  modify fun m => { m with status := .halted }
  return .halt

def operand : SecondOperand → InPlace σ Word
  | .register r => return (← get).registers.read r
  | .memory a => do readCell ((← get).registers.effective a)

/-- Carries out an instruction whose words have been fetched. -/
def perform (svc : Supervisor σ) : Instr → InPlace σ Effect
  | .twoForm .load r source => do setResult r (← operand source) false
  | .twoForm (.alu op) r source => do
    let value ← operand source
    let (result, overflow) := op.apply ((← get).registers.read r) value
    setResult r result overflow
  | .twoForm (.compare order) r source => do
    let value ← operand source
    let order := order.apply ((← get).registers.read r) value
    modify fun m => { m with flags := .ofOrdering order }
    return .compare order
  | .twoForm (.shift op) r source => do
    let m ← get
    setResult r (op.apply (m.registers.read r) (m.shiftCount source)) false
  | .registerAddress .store r a => do
    let address := (← get).registers.effective a
    let value := (← get).registers.read r
    writeCell address value
    return .store address value
  | .registerAddress .loadAddress r a => do setResult r ((← get).registers.effective a) false
  | .address (.jump condition) a => do
    let target := (← get).registers.effective a
    let taken := condition.holds (← get).flags
    if taken then goTo target
    return .branch target taken
  | .address .push a => do
    let value := (← get).registers.effective a
    let address ← push value
    return .push address value
  | .address .call a => do
    let target := (← get).registers.effective a
    let back := (← get).pc
    let _ ← push back
    goTo target
    return .call target back
  | .address .supervisor a => do
    let code := (← get).registers.effective a
    modify fun m => m.callSupervisor svc code
    return .supervisor code
  | .register .pop r => do
    let value ← pop
    modify fun m => { m with registers := m.registers.write r value }
    return .pop r value
  | .bare .nop => return .idle
  | .bare .ret => do
    if (← get).sp = stackEmpty then halt
    else
      let target ← pop
      goTo target
      return .ret target
  | .bare .halt => halt

/-- Reads the address word of an instruction, if it has one. -/
def nextOperand (op : Opcode) : InPlace σ (Option Word) :=
  if op.hasAddressWord then some <$> nextWord else pure none

/-- Reads the words of the instruction at the program counter. -/
def fetch : InPlace σ Fetched := do
  let address := (← get).pc
  let word ← nextWord
  match Opcode.ofCode? word.high with
  | none => throw (.illegalOpcode word.high address)
  | some op =>
    let operand ← nextOperand op
    match Instr.ofWords op word (operand.getD 0) with
    | .error field => throw (.illegalRegister field address)
    | .ok instr => return ⟨address, word, operand, instr⟩

/-- Executes the instruction at the program counter. -/
def execute (svc : Supervisor σ) : InPlace σ TraceEntry := do
  let fetched ← fetch
  let effect ← perform svc fetched.instr
  return fetched.entry effect (← get).flags

end InPlace

/-- A step in place: a fault puts the program counter back. -/
def stepInPlace (svc : Supervisor σ) (m : Machine σ) : Except (Stopped σ) (Machine σ) :=
  if m.status ≠ .running then .ok m
  else if m.stop ≤ m.pc then .ok { m with status := .halted }
  else
    match (InPlace.execute svc).run m with
    | .ok entry m' =>
      .ok { m' with steps := m'.steps + 1, trace := m'.trace.map fun entries => entries.push entry }
    | .error fault m' => .error ⟨fault, { m' with pc := m.pc, status := .faulted }⟩

variable {svc : Supervisor σ} {m : Machine σ}

/-! ## The parts of an instruction -/

@[simp] theorem throw_run {α : Type} (fault : Fault) :
    (throw fault : InPlace σ α).run m = .error fault m := rfl

theorem readCell_run (address : Word) :
    (InPlace.readCell address).run m = match m.read address with
      | .ok value => .ok value m
      | .error fault => .error fault m := by
  unfold InPlace.readCell read
  by_cases h : address = noMemory <;> simp [h]

theorem operand_run (source : SecondOperand) :
    (InPlace.operand source).run m = match m.operand source with
      | .ok value => .ok value m
      | .error fault => .error fault m := by
  cases source with
  | register r => simp [InPlace.operand, operand]
  | memory a => simp [InPlace.operand, operand, readCell_run]

theorem writeCell_run (address value : Word) :
    (InPlace.writeCell address value).run m =
      if address = noMemory then .error (.outOfBounds address) m
      else .ok () { m with memory := m.memory.write address value } := by
  unfold InPlace.writeCell
  by_cases h : address = noMemory <;> simp [h]

theorem push_run (value : Word) :
    (InPlace.push value).run m =
      if m.sp - 1 = noMemory then .error (.outOfBounds (m.sp - 1)) m
      else .ok (m.sp - 1)
        { m with memory := m.memory.write (m.sp - 1) value, sp := m.sp - 1 } := by
  by_cases h : m.sp - 1 = noMemory <;> simp [InPlace.push, writeCell_run, h]

theorem pop_run :
    InPlace.pop.run m = match m.read m.sp with
      | .ok value => .ok value { m with sp := m.sp + 1 }
      | .error fault => .error fault m := by
  cases h : m.read m.sp <;> simp [InPlace.pop, readCell_run, h]

/-- **An instruction is carried out whole or not at all**, and as its effect says. -/
theorem perform_run (i : Instr) :
    (InPlace.perform svc i).run m = match m.effect m.pc i with
      | .ok e => .ok e (m.perform svc m.pc e)
      | .error fault => .error fault m := by
  rcases i with ⟨op, r, source⟩ | ⟨op, r, a⟩ | ⟨op, a⟩ | ⟨op, r⟩ | ⟨op⟩
  case twoForm =>
    cases h : m.operand source <;> cases op <;>
      simp [InPlace.perform, effect, operand_run, InPlace.setResult, perform, h]
  case registerAddress =>
    cases op with
    | store =>
      by_cases h : m.registers.effective a = noMemory <;>
        simp [InPlace.perform, effect, guarded, writeCell_run, perform, h]
    | loadAddress => simp [InPlace.perform, effect, InPlace.setResult, perform]
  case address =>
    cases op with
    | jump condition =>
      cases h : condition.holds m.flags <;>
        simp [InPlace.perform, effect, perform, InPlace.goTo, h]
    | push =>
      by_cases h : m.sp - 1 = noMemory <;>
        simp [InPlace.perform, effect, guarded, perform, push_run, h]
    | call =>
      by_cases h : m.sp - 1 = noMemory <;>
        simp [InPlace.perform, effect, guarded, perform, push_run, InPlace.goTo, h]
    | supervisor =>
      simp only [InPlace.perform, effect, perform]
      rfl
  case register =>
    cases op
    cases h : m.read m.sp <;> simp [InPlace.perform, effect, pop_run, perform, h]
  case bare =>
    cases op with
    | nop => simp [InPlace.perform, effect, perform]
    | ret =>
      by_cases hsp : m.sp = stackEmpty
      · simp [InPlace.perform, effect, perform, InPlace.halt, hsp]
      · cases h : m.read m.sp <;>
          simp [InPlace.perform, effect, perform, pop_run, InPlace.goTo, hsp, h]
    | halt => simp [InPlace.perform, effect, perform, InPlace.halt]

/-! ## One instruction -/

theorem nextWord_run :
    InPlace.nextWord.run m = match m.read m.pc with
      | .ok word => .ok word { m with pc := m.pc + 1 }
      | .error fault => .error fault m := by
  cases h : m.read m.pc <;> simp [InPlace.nextWord, readCell_run, h]

theorem nextOperand_run (op : Opcode) :
    (InPlace.nextOperand op).run { m with pc := m.pc + 1 } = match m.fetchOperand op with
      | .ok o => .ok o { m with pc := m.pc + if o.isSome then 2 else 1 }
      | .error fault => .error fault { m with pc := m.pc + 1 } := by
  have htwo : m.pc + 1 + 1 = m.pc + 2 := UInt16.add_assoc _ 1 1
  have hread : ({ m with pc := m.pc + 1 } : Machine σ).read (m.pc + 1) = m.read (m.pc + 1) := rfl
  cases hop : op.hasAddressWord with
  | false => simp [InPlace.nextOperand, fetchOperand, hop]
  | true =>
    cases h : m.read (m.pc + 1) <;>
      simp [InPlace.nextOperand, fetchOperand, hop, nextWord_run, hread, h, htwo, Except.map]

/-- Fetching in place moves the program counter past the instruction, or part of it on a fault. -/
theorem fetch_run :
    ∃ pc, (InPlace.fetch (σ := σ)).run m = match m.fetch with
      | .ok f => .ok f { m with pc := f.next }
      | .error fault => .error fault { m with pc } := by
  unfold InPlace.fetch fetch
  cases hw : m.read m.pc with
  | error fault => exact ⟨m.pc, by simp [nextWord_run, hw]⟩
  | ok word =>
    cases hop : Opcode.ofCode? word.high with
    | none => exact ⟨m.pc + 1, by simp [nextWord_run, hw, hop]⟩
    | some op =>
      cases ho : m.fetchOperand op with
      | error fault =>
        exact ⟨m.pc + 1, by simp [nextWord_run, hw, hop, nextOperand_run, ho]⟩
      | ok o =>
        refine ⟨m.pc + if o.isSome then 2 else 1, ?_⟩
        cases hi : Instr.ofWords op word (o.getD 0) <;>
          simp [nextWord_run, hw, hop, nextOperand_run, ho, hi, Fetched.next]

/-- What executing an instruction in place leaves: the instruction's effect, or a fault and nothing
but another program counter. -/
theorem execute_run (svc : Supervisor σ) (m : Machine σ) :
    ∃ pc, (InPlace.execute svc).run m = match m.upcoming with
      | .ok (f, e) =>
        .ok (f.entry e (m.perform svc f.next e).flags) (m.perform svc f.next e)
      | .error fault => .error fault { m with pc } := by
  obtain ⟨pc, hfetch⟩ := fetch_run (m := m)
  unfold InPlace.execute upcoming
  cases hf : m.fetch with
  | error fault => exact ⟨pc, by simp [hfetch, hf]⟩
  | ok f =>
    have heffect : ({ m with pc := f.next } : Machine σ).effect f.next f.instr =
        m.effect f.next f.instr := rfl
    refine ⟨f.next, ?_⟩
    cases he : m.effect f.next f.instr with
    | error fault => simp [hfetch, hf, perform_run, heffect, he]
    | ok e =>
      have hperform : ({ m with pc := f.next } : Machine σ).perform svc f.next e =
          m.perform svc f.next e := by
        cases e <;> rfl
      simp [hfetch, hf, perform_run, heffect, he, hperform]

/-- **Stepping in place is stepping.** -/
theorem stepInPlace_eq_step : m.stepInPlace svc = m.step svc := by
  obtain ⟨pc, hrun⟩ := execute_run svc m
  unfold stepInPlace step
  rw [hrun]
  cases m.upcoming <;> rfl

/-! ## Faults -/

theorem concerns_of_read {pc address : Word} {fault : Fault} (h : m.read address = .error fault) :
    fault.Concerns pc := by
  unfold read at h
  split at h <;> cases h
  assumption

theorem concerns_of_effect {pc next : Word} {i : Instr} {fault : Fault}
    (h : m.effect next i = .error fault) : fault.Concerns pc := by
  have hoperand : ∀ {source}, m.operand source = .error fault → fault.Concerns pc := by
    rintro (_ | a) h
    · cases h
    · exact concerns_of_read h
  have hguarded : ∀ {address e}, guarded address e = .error fault → fault.Concerns pc := by
    intro address e h
    unfold guarded at h
    split at h <;> cases h
    assumption
  rcases i with ⟨op, r, source⟩ | ⟨op, r, a⟩ | ⟨op, a⟩ | ⟨op, r⟩ | ⟨op⟩
  case twoForm =>
    cases op with
    | shift op => cases h
    | _ =>
      rcases bind_eq_error.1 h with h | ⟨_, -, h⟩
      · exact hoperand h
      · cases h
  case registerAddress =>
    cases op with
    | store => exact hguarded h
    | loadAddress => cases h
  case address =>
    cases op with
    | push | call => exact hguarded h
    | _ => cases h
  case register =>
    cases op
    rcases bind_eq_error.1 h with h | ⟨_, -, h⟩
    · exact concerns_of_read h
    · cases h
  case bare =>
    cases op with
    | ret =>
      simp only [effect] at h
      split at h
      · cases h
      · rcases bind_eq_error.1 h with h | ⟨_, -, h⟩
        · exact concerns_of_read h
        · cases h
    | _ => cases h

theorem concerns_of_fetch {fault : Fault} (h : m.fetch = .error fault) : fault.Concerns m.pc := by
  rcases bind_eq_error.1 h with h | ⟨word, -, h⟩
  · exact concerns_of_read h
  · split at h
    · cases h; rfl
    · next op hop =>
      rcases bind_eq_error.1 h with h | ⟨o, -, h⟩
      · unfold fetchOperand at h
        split at h
        · cases hr : m.read (m.pc + 1) with
          | error fault' =>
            rw [hr] at h
            cases h
            exact concerns_of_read hr
          | ok word => rw [hr] at h; cases h
        · cases h
      · split at h <;> cases h
        rfl

theorem concerns_of_upcoming {fault : Fault} (h : m.upcoming = .error fault) :
    fault.Concerns m.pc := by
  rcases bind_eq_error.1 h with h | ⟨f, -, h⟩
  · exact concerns_of_fetch h
  · rcases bind_eq_error.1 h with h | ⟨e, -, h⟩
    · exact concerns_of_effect h
    · cases h

/-- **A fault leaves no partial effect.** In whatever state, a step in place, which changes the
machine as it goes, does what a step does; and a step that faults has changed nothing but the
status, not even the program counter, which points at the instruction at fault. A run that faults
does so in such a step or at its limit, and there too only the status changes. -/
theorem fault_leaves_no_effect (svc : Supervisor σ) (m : Machine σ) :
    m.stepInPlace svc = m.step svc ∧
    (∀ stopped, m.step svc = .error stopped →
      m.Live ∧ stopped.machine = { m with status := .faulted } ∧ stopped.fault.Concerns m.pc) ∧
    ∀ limit stopped, m.run svc limit = .error stopped →
      ∃ k m', k ≤ limit - m.steps ∧ Executes svc m k m' ∧ m'.Live ∧
        stopped.machine = { m' with status := .faulted } ∧
        (stopped.fault = .stepLimit limit ∧ limit ≤ m'.steps ∨ m'.step svc = .error stopped) := by
  have hfault : ∀ (m : Machine σ) stopped, m.step svc = .error stopped →
      m.Live ∧ stopped.machine = { m with status := .faulted } ∧
        stopped.fault.Concerns m.pc := by
    intro m stopped h
    obtain ⟨hlive, fault, hu, rfl⟩ := step_eq_error.1 h
    exact ⟨hlive, rfl, concerns_of_upcoming hu⟩
  refine ⟨stepInPlace_eq_step, hfault m, fun limit stopped h => ?_⟩
  obtain ⟨k, m', hk, hx, he⟩ := run_ends svc limit m
  rw [h] at he
  refine ⟨k, m', hk, hx, he.live_of_error, ?_⟩
  cases he with
  | limited _ hleft => exact ⟨rfl, .inl ⟨rfl, Nat.le_of_sub_eq_zero hleft⟩⟩
  | faulted _ _ hstep => exact ⟨(hfault m' _ hstep).2.1, .inr hstep⟩

end Machine

end Comet
