import Comet.Proofs.Machine.Execution

/-!
# Runs and their limits

A run is made of steps, and its limit only says where it is cut off. `Machine.stepTimes` makes a
number of steps by hand, none of which may fault.

* `run_ends`: a run executes at most as many instructions as its limit leaves, up to a machine at
  which it ends; `Ends.run_eq`: and whatever ends there is the run.
* `Ends.of_left`: what ends by itself ends in the same way under every other limit that leaves room
  for it. `cutOff_of_executes`: a run that still executes instructions is cut off by a limit in
  between (`CutOff`).
* `run_of_stepTimes`: steps made by hand before a run, as many as its limit leaves, do not show.
* `run_iterates_step`: all of it together.
-/

namespace Comet.Machine

variable {σ : Type} {svc : Supervisor σ} {m m' : Machine σ} {k limit : Nat}
  {result : Except (Stopped σ) (Machine σ)}

/-- The machine after so many steps in a row, none of which faults. -/
def stepTimes (svc : Supervisor σ) : (count : Nat) → Machine σ → Except (Stopped σ) (Machine σ)
  | 0, m => .ok m
  | count + 1, m => m.step svc >>= stepTimes svc count

/-- A run with this limit is cut off by it, at the machine after as many steps as it leaves. -/
def CutOff (svc : Supervisor σ) (m : Machine σ) (limit : Nat) : Prop :=
  ∃ m', m.stepTimes svc (limit - m.steps) = .ok m' ∧ m'.steps = limit ∧
    m.run svc limit = .error ⟨.stepLimit limit, { m' with status := .faulted }⟩

/-! ## Executions, step by step -/

theorem Executes.stepTimes_eq (h : Executes svc m k m') : m.stepTimes svc k = .ok m' := by
  induction k generalizing m with
  | zero => cases h; rfl
  | succ k ih =>
    obtain ⟨f, e, hlive, hu, hx⟩ := Executes.succ_iff.1 h
    rw [stepTimes, hlive.step_ok hu]
    exact ih hx

/-- The first `j` instructions of an execution; if more follow, the machine still runs there. -/
theorem Executes.take {j : Nat} (h : Executes svc m k m') (hj : j ≤ k) :
    ∃ mj, Executes svc m j mj ∧ (j < k → mj.Live) := by
  induction h with
  | refl =>
    obtain rfl := Nat.le_zero.1 hj
    exact ⟨m, .refl, fun h => absurd h (Nat.lt_irrefl 0)⟩
  | @snoc k m' f e h hlive hu ih =>
    rcases Nat.lt_or_eq_of_le hj with hj | rfl
    · obtain ⟨mj, hx, hmj⟩ := ih (Nat.le_of_lt_succ hj)
      refine ⟨mj, hx, fun _ => ?_⟩
      rcases Nat.lt_or_eq_of_le (Nat.le_of_lt_succ hj) with hj | rfl
      · exact hmj hj
      · rw [← hx.after_eq, h.after_eq]; exact hlive
    · exact ⟨_, h.snoc hlive hu, fun h => absurd h (Nat.lt_irrefl _)⟩

/-! ## Where a run ends -/

theorem run_ends (svc : Supervisor σ) (limit : Nat) (m : Machine σ) :
    ∃ k m', k ≤ limit - m.steps ∧ Executes svc m k m' ∧
      Ends svc limit (limit - m'.steps) m' (m.run svc limit) := by
  obtain ⟨k, m', hk, hx, he⟩ := runFor_ends svc limit (limit - m.steps) m
  rw [Nat.sub_sub, ← hx.steps_eq] at he
  exact ⟨k, m', hk, hx, he⟩

theorem Ends.run_eq (he : Ends svc limit (limit - m'.steps) m' result) (hx : Executes svc m k m')
    (hk : k ≤ limit - m.steps) : m.run svc limit = result := by
  rw [hx.steps_eq, ← Nat.sub_sub] at he
  exact he.runFor_eq hx hk

/-- What does not end at its limit ends in the same way under another, if that leaves an instruction
to one that faults. -/
theorem Ends.of_left {limit' left left' : Nat} (he : Ends svc limit left m result)
    (hfault : ∀ stopped, result = .error stopped → stopped.fault ≠ .stepLimit limit ∧ 0 < left') :
    Ends svc limit' left' m result := by
  cases he with
  | stopped hs => exact .stopped hs
  | outside hs hp => exact .outside hs hp
  | limited hlive hleft => exact absurd rfl (hfault _ rfl).1
  | faulted hlive hleft hstep => exact .faulted hlive (hfault _ rfl).2 hstep

/-- The end of a run executes nothing. -/
theorem Ends.steps_eq {left : Nat} (he : Ends svc limit left m result) :
    (finalState result).steps = m.steps := by
  cases he with
  | faulted _ _ hstep =>
    obtain ⟨-, fault, -, rfl⟩ := step_eq_error.1 hstep
    rfl
  | _ => rfl

theorem Ends.live_of_error {left : Nat} {stopped : Stopped σ}
    (he : Ends svc limit left m (.error stopped)) : m.Live := by
  cases he with
  | limited hlive _ => exact hlive
  | faulted hlive _ _ => exact hlive

theorem cutOff_of_executes (hx : Executes svc m k m') (hlive : m'.Live)
    (hlimit : m'.steps = limit) : CutOff svc m limit := by
  have hsteps := hx.steps_eq
  have hk : limit - m.steps = k := by omega
  refine ⟨m', hk ▸ hx.stepTimes_eq, hlimit, ?_⟩
  exact Ends.run_eq (.limited hlive (by omega)) hx (by omega)

/-! ## Steps made by hand -/

/-- A step by hand that a run would make too, or that does nothing to what the run ends with. -/
theorem run_of_step (hstep : m.step svc = .ok m') (hlimit : m.steps < limit) :
    m'.run svc limit = m.run svc limit ∧ m'.steps ≤ m.steps + 1 := by
  rcases step_cases svc m with ⟨-, h⟩ | ⟨hs, hp, h⟩ | ⟨-, fault, -, h⟩ | ⟨hlive, f, e, hu, h⟩
  · cases h.symm.trans hstep
    exact ⟨rfl, Nat.le_succ _⟩
  · cases h.symm.trans hstep
    have hm : m.run svc limit = .ok { m with status := .halted } :=
      Ends.run_eq (.outside hs hp) .refl (Nat.zero_le _)
    have hm' : ({ m with status := .halted } : Machine σ).run svc limit =
        .ok { m with status := .halted } :=
      Ends.run_eq (.stopped (by simp)) .refl (Nat.zero_le _)
    exact ⟨hm'.trans hm.symm, Nat.le_succ _⟩
  · cases h.symm.trans hstep
  · cases h.symm.trans hstep
    obtain ⟨k, m', hk, hx, he⟩ := run_ends svc limit (m.commit svc f e)
    rw [commit_steps] at hk ⊢
    exact ⟨(he.run_eq (hx.cons hlive hu) (by omega)).symm, Nat.le_refl _⟩

theorem run_of_stepTimes {j : Nat} (hj : j ≤ limit - m.steps)
    (h : m.stepTimes svc j = .ok m') : m'.run svc limit = m.run svc limit := by
  induction j generalizing m with
  | zero => cases h; rfl
  | succ j ih =>
    obtain ⟨m₁, hstep, h⟩ := bind_eq_ok.1 h
    have hlimit : m.steps < limit := by omega
    obtain ⟨hrun, hsteps⟩ := run_of_step hstep hlimit
    exact (ih (by omega) h).trans hrun

/-! ## The limit of a run -/

/-- **A run is iterated stepping, and stable in its limit.** It makes steps that execute one
instruction each, at most as many as its limit leaves, up to the first machine at which it ends.
What ends well is the same under every limit that leaves room for its instructions, and so is a
fault of the program under every limit beyond it; any smaller limit cuts the run off after exactly
as many steps. Steps made by hand before the run do not change its result. -/
theorem run_iterates_step (svc : Supervisor σ) (m : Machine σ) (limit : Nat) :
    (∃ k m', k ≤ limit - m.steps ∧ m.stepTimes svc k = .ok m' ∧ m'.steps = m.steps + k ∧
      (∀ j < k, ∃ mj, m.stepTimes svc j = .ok mj ∧ mj.Live ∧ mj.steps < limit) ∧
      Ends svc limit (limit - m'.steps) m' (m.run svc limit)) ∧
    (∀ final, m.run svc limit = .ok final →
      (∀ limit' ≥ final.steps, m.run svc limit' = .ok final) ∧
      ∀ limit', m.steps ≤ limit' → limit' < final.steps → CutOff svc m limit') ∧
    (∀ stopped, m.run svc limit = .error stopped → stopped.fault ≠ .stepLimit limit →
      (∀ limit' > stopped.machine.steps, m.run svc limit' = .error stopped) ∧
      ∀ limit', m.steps ≤ limit' → limit' ≤ stopped.machine.steps → CutOff svc m limit') ∧
    ∀ j m', j ≤ limit - m.steps → m.stepTimes svc j = .ok m' →
      m'.run svc limit = m.run svc limit := by
  obtain ⟨k, m', hk, hx, he⟩ := run_ends svc limit m
  have hsteps := hx.steps_eq
  -- a limit between the start of the run and its end
  have hcut : ∀ limit', m.steps ≤ limit' → limit' < m'.steps → CutOff svc m limit' := by
    intro limit' hle hlt
    obtain ⟨mj, hxj, hlive⟩ := hx.take (j := limit' - m.steps) (by omega)
    exact cutOff_of_executes hxj (hlive (by omega)) (by rw [hxj.steps_eq]; omega)
  refine ⟨⟨k, m', hk, hx.stepTimes_eq, hsteps, fun j hj => ?_, he⟩, fun final hfinal => ?_,
    fun stopped hstopped hfault => ?_, fun j m' => run_of_stepTimes⟩
  · obtain ⟨mj, hxj, hlive⟩ := hx.take (Nat.le_of_lt hj)
    exact ⟨mj, hxj.stepTimes_eq, hlive hj, by rw [hxj.steps_eq]; omega⟩
  · rw [hfinal] at he
    have hend : final.steps = m'.steps := he.steps_eq
    refine ⟨fun limit' hle => ?_, fun limit' hle hlt => hcut limit' hle (hend ▸ hlt)⟩
    exact (he.of_left fun _ h => nomatch h).run_eq hx (by omega)
  · rw [hstopped] at he
    have hend : stopped.machine.steps = m'.steps := he.steps_eq
    refine ⟨fun limit' hlt => ?_, fun limit' hle hle' => ?_⟩
    · exact (he.of_left fun _ h => by cases h; exact ⟨hfault, by omega⟩).run_eq hx (by omega)
    · rcases Nat.lt_or_eq_of_le hle' with hlt | heq
      · exact hcut limit' hle (hend ▸ hlt)
      · exact cutOff_of_executes hx he.live_of_error (by rw [heq, hend])

end Comet.Machine
