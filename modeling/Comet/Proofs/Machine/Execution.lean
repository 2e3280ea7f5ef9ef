import Comet.Machine.Run
import Comet.Proofs.Except

/-!
# Executions

`Machine.Executes svc k m m'`: from `m`, exactly `k` instructions are executed one after another and
lead to `m'`. What a step can do is said once (`step_cases`), and so is what a run is (`runFor_ends`
and, the other way round, `Ends.runFor_eq`): an execution of at most as many instructions as are
left, up to a machine at which the run ends, and there nothing but the status changes
(`runFor_executes`). `Executes.after_eq` ties both to `Machine.after`, the machine after so many
steps.
-/

namespace Comet.Machine

variable {σ : Type} {svc : Supervisor σ}

/-- The machine after one step, whether the step faults or not. -/
def advance (svc : Supervisor σ) (m : Machine σ) : Machine σ := finalState (m.step svc)

/-- The machine after `n` steps. -/
def after (svc : Supervisor σ) (n : Nat) (m : Machine σ) : Machine σ := (advance svc)^[n] m

/-- The machine is about to execute an instruction of the program. -/
structure Live (m : Machine σ) : Prop where
  running : m.status = .running
  inside : m.pc < m.stop

@[simp] theorem after_zero (m : Machine σ) : m.after svc 0 = m := rfl

theorem after_succ (n : Nat) (m : Machine σ) :
    m.after svc (n + 1) = (m.after svc n).advance svc :=
  Function.iterate_succ_apply' _ _ _

/-! ## The instruction at the program counter -/

/-- A cell that can be read is not the one at `0xFFFF`, and reading gives its contents. -/
@[simp] theorem read_eq_ok {m : Machine σ} {address value : Word} :
    m.read address = .ok value ↔ address ≠ noMemory ∧ m.memory.read address = value := by
  unfold read
  split <;> simp_all

theorem opcode_of_ofWords {op : Opcode} {first base : Word} {i : Instr}
    (h : Instr.ofWords op first base = .ok i) : i.opcode = op := by
  cases op with
  | twoForm op =>
    simp only [Instr.ofWords, bind_eq_ok] at h
    obtain ⟨r, -, x, -, h⟩ := h
    split at h <;> cases h <;> rfl
  | registerAddress op =>
    simp only [Instr.ofWords, bind_eq_ok] at h
    obtain ⟨r, -, x, -, h⟩ := h
    cases h; rfl
  | address op =>
    simp only [Instr.ofWords, bind_eq_ok] at h
    obtain ⟨x, -, h⟩ := h
    cases h; rfl
  | register op =>
    simp only [Instr.ofWords, bind_eq_ok] at h
    obtain ⟨r, -, h⟩ := h
    cases h; rfl
  | bare op => cases h; rfl

/-- What a fetched instruction is: the words at the program counter, read back. -/
theorem fetch_eq_ok {m : Machine σ} {f : Fetched} :
    m.fetch = .ok f ↔
      f.address = m.pc ∧ m.pc ≠ noMemory ∧ f.word = m.memory.read m.pc ∧
      Opcode.ofCode? f.word.high = some f.instr.opcode ∧
      m.fetchOperand f.instr.opcode = .ok f.operand ∧
      Instr.ofWords f.instr.opcode f.word (f.operand.getD 0) = .ok f.instr := by
  obtain ⟨address, word, operand, instr⟩ := f
  simp only [fetch, bind_eq_ok, read_eq_ok]
  constructor
  · intro h
    obtain ⟨w, ⟨hpc, rfl⟩, h⟩ := h
    split at h
    · cases h
    · next op hop =>
      simp only [bind_eq_ok] at h
      obtain ⟨o, ho, h⟩ := h
      split at h
      · next i hi =>
        cases h
        obtain rfl := opcode_of_ofWords hi
        exact ⟨rfl, hpc, rfl, hop, ho, hi⟩
      · cases h
  · intro h
    obtain ⟨rfl, hpc, rfl, hop, ho, hi⟩ := h
    refine ⟨_, ⟨hpc, rfl⟩, ?_⟩
    simp only [hop, bind_eq_ok]
    exact ⟨operand, ho, by rw [hi]⟩

/-- The operand word of a fetched instruction is there exactly for an instruction of two words. -/
theorem fetchOperand_eq_ok {m : Machine σ} {op : Opcode} {o : Option Word}
    (h : m.fetchOperand op = .ok o) :
    o = if op.hasAddressWord then some (m.memory.read (m.pc + 1)) else none := by
  unfold fetchOperand at h
  split at h
  · next hop =>
    cases hr : m.read (m.pc + 1) with
    | error fault => rw [hr] at h; cases h
    | ok w =>
      rw [hr] at h
      cases h
      rw [if_pos hop, (read_eq_ok.1 hr).2]
  · next hop => cases h; rw [if_neg hop]

theorem upcoming_eq_ok {m : Machine σ} {f : Fetched} {e : Effect} :
    m.upcoming = .ok (f, e) ↔ m.fetch = .ok f ∧ m.effect f.next f.instr = .ok e := by
  simp only [upcoming, bind_eq_ok, pure_eq_ok, Prod.mk.injEq]
  constructor
  · intro h
    obtain ⟨_, hf, _, he, rfl, rfl⟩ := h
    exact ⟨hf, he⟩
  · intro h
    obtain ⟨hf, he⟩ := h
    exact ⟨f, hf, e, he, rfl, rfl⟩

/-! ## One step -/

/-- A step does nothing, halts past the end of the program, faults, or executes one instruction. -/
theorem step_cases (svc : Supervisor σ) (m : Machine σ) :
    (m.status ≠ .running ∧ m.step svc = .ok m) ∨
    (m.status = .running ∧ m.stop ≤ m.pc ∧ m.step svc = .ok { m with status := .halted }) ∨
    (m.Live ∧ ∃ fault, m.upcoming = .error fault ∧
      m.step svc = .error ⟨fault, { m with status := .faulted }⟩) ∨
    (m.Live ∧ ∃ f e, m.upcoming = .ok (f, e) ∧ m.step svc = .ok (m.commit svc f e)) := by
  unfold step
  by_cases hs : m.status = .running
  · by_cases hp : m.stop ≤ m.pc
    · exact .inr (.inl ⟨hs, hp, by simp [hs, hp]⟩)
    · have hlive : m.Live := ⟨hs, UInt16.not_le.1 hp⟩
      refine .inr (.inr ?_)
      cases hu : m.upcoming with
      | error fault => exact .inl ⟨hlive, fault, rfl, by simp [hs, hp]⟩
      | ok fe => exact .inr ⟨hlive, fe.1, fe.2, rfl, by simp [hs, hp]⟩
  · exact .inl ⟨hs, by simp [hs]⟩

theorem Live.step_ok {m : Machine σ} (h : m.Live) {f : Fetched} {e : Effect}
    (hu : m.upcoming = .ok (f, e)) : m.step svc = .ok (m.commit svc f e) := by
  simp [step, h.running, UInt16.not_le.2 h.inside, hu]

theorem Live.step_error {m : Machine σ} (h : m.Live) {fault : Fault}
    (hu : m.upcoming = .error fault) :
    m.step svc = .error ⟨fault, { m with status := .faulted }⟩ := by
  simp [step, h.running, UInt16.not_le.2 h.inside, hu]

/-- A step faults when the instruction at hand cannot be fetched or has no effect, and then it
leaves all but the status as it was. -/
theorem step_eq_error {m : Machine σ} {stopped : Stopped σ} :
    m.step svc = .error stopped ↔
      m.Live ∧ ∃ fault, m.upcoming = .error fault ∧
        stopped = ⟨fault, { m with status := .faulted }⟩ := by
  constructor
  · intro h
    rcases step_cases svc m with ⟨-, hs⟩ | ⟨-, -, hs⟩ | ⟨hlive, fault, hu, hs⟩ | ⟨-, f, e, -, hs⟩
    · cases hs.symm.trans h
    · cases hs.symm.trans h
    · cases hs.symm.trans h
      exact ⟨hlive, fault, hu, rfl⟩
    · cases hs.symm.trans h
  · rintro ⟨hlive, fault, hu, rfl⟩
    exact hlive.step_error hu

@[simp] theorem perform_steps (next : Word) (m : Machine σ) (e : Effect) :
    (m.perform svc next e).steps = m.steps := by
  cases e <;> rfl

@[simp] theorem perform_stop (next : Word) (m : Machine σ) (e : Effect) :
    (m.perform svc next e).stop = m.stop := by
  cases e <;> rfl

@[simp] theorem perform_trace (next : Word) (m : Machine σ) (e : Effect) :
    (m.perform svc next e).trace = m.trace := by
  cases e <;> rfl

@[simp] theorem commit_steps (f : Fetched) (e : Effect) (m : Machine σ) :
    (m.commit svc f e).steps = m.steps + 1 := by
  simp [commit]

@[simp] theorem commit_stop (f : Fetched) (e : Effect) (m : Machine σ) :
    (m.commit svc f e).stop = m.stop := by
  simp [commit]

theorem advance_stop (m : Machine σ) : (m.advance svc).stop = m.stop := by
  rcases step_cases svc m with ⟨-, h⟩ | ⟨-, -, h⟩ | ⟨-, fault, -, h⟩ | ⟨-, f, e, -, h⟩
  · rw [advance, h, finalState]
  · rw [advance, h, finalState]
  · rw [advance, h, finalState]
  · rw [advance, h, finalState, commit_stop]

theorem after_stop (n : Nat) (m : Machine σ) : (m.after svc n).stop = m.stop := by
  induction n with
  | zero => rfl
  | succ n ih => rw [after_succ, advance_stop, ih]

/-! ## Many steps -/

/-- From `m`, `k` instructions in a row are executed and lead to `m'`. -/
inductive Executes (svc : Supervisor σ) (m : Machine σ) : Nat → Machine σ → Prop
  | refl : Executes svc m 0 m
  | snoc {k : Nat} {m' : Machine σ} {f : Fetched} {e : Effect} : Executes svc m k m' → m'.Live →
      m'.upcoming = .ok (f, e) → Executes svc m (k + 1) (m'.commit svc f e)

namespace Executes

variable {m m' : Machine σ} {k : Nat}

/-- An execution with one more instruction before it. -/
theorem cons {f : Fetched} {e : Effect} (hlive : m.Live) (hu : m.upcoming = .ok (f, e))
    (h : Executes svc (m.commit svc f e) k m') : Executes svc m (k + 1) m' := by
  induction h with
  | refl => exact .snoc .refl hlive hu
  | snoc _ hlive' hu' ih => exact .snoc ih hlive' hu'

/-- The first instruction of an execution, and the execution after it. -/
theorem succ_iff :
    Executes svc m (k + 1) m' ↔
      ∃ f e, m.Live ∧ m.upcoming = .ok (f, e) ∧ Executes svc (m.commit svc f e) k m' := by
  constructor
  · intro h
    induction k generalizing m' with
    | zero =>
      obtain - | ⟨h, hlive, hu⟩ := h
      cases h
      exact ⟨_, _, hlive, hu, .refl⟩
    | succ k ih =>
      obtain - | ⟨h, hlive, hu⟩ := h
      obtain ⟨f, e, hlive', hu', hx⟩ := ih h
      exact ⟨f, e, hlive', hu', hx.snoc hlive hu⟩
  · rintro ⟨f, e, hlive, hu, h⟩
    exact h.cons hlive hu

theorem after_eq (h : Executes svc m k m') : m.after svc k = m' := by
  induction h with
  | refl => rfl
  | snoc _ hlive hu ih => rw [after_succ, ih, advance, hlive.step_ok hu, finalState]

theorem steps_eq (h : Executes svc m k m') : m'.steps = m.steps + k := by
  induction h with
  | refl => rfl
  | snoc _ _ _ ih => rw [commit_steps, ih, Nat.add_assoc]

theorem stop_eq (h : Executes svc m k m') : m'.stop = m.stop := by
  induction h with
  | refl => rfl
  | snoc _ _ _ ih => rw [commit_stop, ih]

end Executes

/-! ## Runs -/

/-- How a run ends at a machine with `left` instructions left: the status is looked at first, then
the program counter, then the limit, and only then is an instruction executed. -/
inductive Ends (svc : Supervisor σ) (limit left : Nat) (m : Machine σ) :
    Except (Stopped σ) (Machine σ) → Prop
  | stopped : m.status ≠ .running → Ends svc limit left m (.ok m)
  | outside : m.status = .running → m.stop ≤ m.pc →
      Ends svc limit left m (.ok { m with status := .halted })
  | limited : m.Live → left = 0 →
      Ends svc limit left m (.error ⟨.stepLimit limit, { m with status := .faulted }⟩)
  | faulted {stopped : Stopped σ} : m.Live → 0 < left → m.step svc = .error stopped →
      Ends svc limit left m (.error stopped)

/-- **A run is an execution**, of at most as many instructions as it has left, up to a machine at
which it ends. -/
theorem runFor_ends (svc : Supervisor σ) (limit fuel : Nat) (m : Machine σ) :
    ∃ k m', k ≤ fuel ∧ Executes svc m k m' ∧
      Ends svc limit (fuel - k) m' (runFor svc limit fuel m) := by
  induction fuel generalizing m with
  | zero =>
    refine ⟨0, m, Nat.le_refl 0, .refl, ?_⟩
    unfold runFor
    by_cases hs : m.status = .running
    · by_cases hp : m.stop ≤ m.pc
      · simpa [hs, hp] using .outside hs hp
      · simpa [hs, hp] using .limited ⟨hs, UInt16.not_le.1 hp⟩ rfl
    · simpa [hs] using .stopped hs
  | succ fuel ih =>
    unfold runFor
    by_cases hs : m.status = .running
    · by_cases hp : m.stop ≤ m.pc
      · exact ⟨0, m, Nat.zero_le _, .refl, by simpa [hs, hp] using .outside hs hp⟩
      · have hlive : m.Live := ⟨hs, UInt16.not_le.1 hp⟩
        cases hu : m.upcoming with
        | error fault =>
          refine ⟨0, m, Nat.zero_le _, .refl, ?_⟩
          simpa [hs, hp, hlive.step_error hu] using
            .faulted hlive (Nat.succ_pos fuel) (hlive.step_error hu)
        | ok fe =>
          obtain ⟨k, m', hk, hx, he⟩ := ih (m.commit svc fe.1 fe.2)
          refine ⟨k + 1, m', Nat.succ_le_succ hk, .cons hlive hu hx, ?_⟩
          simpa [hs, hp, hlive.step_ok hu] using he
    · exact ⟨0, m, Nat.zero_le _, .refl, by simpa [hs] using .stopped hs⟩

/-- An execution up to a machine at which a run ends, of no more instructions than it has left, is
that run. -/
theorem Ends.runFor_eq {limit fuel k : Nat} {m m' : Machine σ}
    {result : Except (Stopped σ) (Machine σ)} (he : Ends svc limit (fuel - k) m' result)
    (hx : Executes svc m k m') (hk : k ≤ fuel) : runFor svc limit fuel m = result := by
  induction k generalizing m fuel with
  | zero =>
    cases hx
    unfold runFor
    cases he with
    | stopped hs => simp [hs]
    | outside hs hp => simp [hs, hp]
    | limited hlive hleft =>
      obtain rfl : fuel = 0 := hleft
      simp [hlive.running, UInt16.not_le.2 hlive.inside]
    | faulted hlive hleft hstep =>
      obtain ⟨fuel, rfl⟩ : ∃ n, fuel = n + 1 := ⟨fuel - 1, by omega⟩
      simp [hlive.running, UInt16.not_le.2 hlive.inside, hstep]
  | succ k ih =>
    obtain ⟨f, e, hlive, hu, hx⟩ := Executes.succ_iff.1 hx
    obtain ⟨fuel, rfl⟩ : ∃ n, fuel = n + 1 := ⟨fuel - 1, by omega⟩
    rw [Nat.add_sub_add_right] at he
    rw [← ih he hx (Nat.le_of_succ_le_succ hk), runFor]
    simp [hlive.running, UInt16.not_le.2 hlive.inside, hlive.step_ok hu]

/-- Beyond the instructions that it executes, a run changes only the status. -/
theorem runFor_executes (limit fuel : Nat) (m : Machine σ) :
    ∃ k m' status, k ≤ fuel ∧ Executes svc m k m' ∧
      finalState (runFor svc limit fuel m) = { m' with status } := by
  obtain ⟨k, m', hk, hx, he⟩ := runFor_ends svc limit fuel m
  generalize runFor svc limit fuel m = result at he ⊢
  refine ⟨k, m', (finalState result).status, hk, hx, ?_⟩
  cases he with
  | faulted _ _ hstep =>
    obtain ⟨-, fault, -, rfl⟩ := step_eq_error.1 hstep
    rfl
  | _ => rfl

end Comet.Machine
