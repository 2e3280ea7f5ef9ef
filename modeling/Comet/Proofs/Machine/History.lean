import Comet.Proofs.Machine.Execution

/-!
# The history of a machine

The instructions that a machine executes in its first steps, each at the `Moment` of its execution:
the machine before it, its words and its effect. Steps that halt the machine, fault, or find it
stopped execute nothing; they change only the status (`advance_of_moment?_eq_none`).
-/

namespace Comet

variable {σ : Type}

/-- An instruction at the moment of its execution. -/
structure Moment (σ : Type) where
  /-- The machine that is about to execute it. -/
  machine : Machine σ
  fetched : Fetched
  effect : Effect

namespace Machine

variable {svc : Supervisor σ} {m : Machine σ}

/-- The instruction that the next step executes, if it executes one. -/
def moment? (m : Machine σ) : Option (Moment σ) :=
  if m.status = .running ∧ m.pc < m.stop then
    match m.upcoming with
    | .ok (fetched, effect) => some ⟨m, fetched, effect⟩
    | .error _ => none
  else none

/-- The instructions executed in the first `n` steps, one after another. -/
def history (svc : Supervisor σ) (n : Nat) (m : Machine σ) : List (Moment σ) :=
  (List.range n).filterMap fun i => (m.after svc i).moment?

theorem history_succ (n : Nat) :
    m.history svc (n + 1) = m.history svc n ++ (m.after svc n).moment?.toList := by
  rw [history, List.range_succ, List.filterMap_append]
  cases h : (m.after svc n).moment? <;> simp [history, h]

theorem moment?_eq_some {x : Moment σ} :
    m.moment? = some x ↔ m.Live ∧ x.machine = m ∧ m.upcoming = .ok (x.fetched, x.effect) := by
  unfold moment?
  split
  · next hlive =>
    have hlive : m.Live := ⟨hlive.1, hlive.2⟩
    cases hu : m.upcoming with
    | error fault => simp
    | ok fe =>
      obtain ⟨f, e⟩ := fe
      obtain ⟨machine, fetched, effect⟩ := x
      simp only [Option.some.injEq, Moment.mk.injEq, Except.ok.injEq, Prod.mk.injEq, hlive,
        true_and]
      exact and_congr_left' eq_comm
  · next hlive =>
    simp only [reduceCtorEq, false_iff]
    exact fun h => hlive ⟨h.1.running, h.1.inside⟩

theorem advance_of_moment? {x : Moment σ} (h : m.moment? = some x) :
    m.advance svc = m.commit svc x.fetched x.effect := by
  obtain ⟨hlive, -, hu⟩ := moment?_eq_some.1 h
  rw [advance, hlive.step_ok hu, finalState]

/-- A step that executes nothing changes nothing but the status. -/
theorem advance_of_moment?_eq_none (svc : Supervisor σ) (h : m.moment? = none) :
    ∃ status, m.advance svc = { m with status } := by
  rcases step_cases svc m with ⟨-, hs⟩ | ⟨-, -, hs⟩ | ⟨-, fault, -, hs⟩ | ⟨hlive, f, e, hu, -⟩
  · exact ⟨m.status, by rw [advance, hs, finalState]⟩
  · exact ⟨.halted, by rw [advance, hs, finalState]⟩
  · exact ⟨.faulted, by rw [advance, hs, finalState]⟩
  · have hx : m.moment? = some ⟨m, f, e⟩ := moment?_eq_some.2 ⟨hlive, rfl, hu⟩
    cases hx.symm.trans h

end Machine

end Comet
