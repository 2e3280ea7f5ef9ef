import Comet.Proofs.Machine.History
import Comet.Proofs.Machine.Limit

/-!
# Tracing observes

Recording instructions changes nothing but the record.

* `commit_withRecord`: one instruction does not depend on the record, and adds its entry to it
  (`Moment.entry`).
* `Executes.withRecord`: so an execution is the same under any record, and adds the entries of its
  history; `Ends.withRecord`: and a run that ends there ends in the same way.
* `run_withTrace`: a run with tracing is the run without, with the entries of what it executed.
* `calls_withRecord`: the supervisor is called with the same codes, views and host states.
-/

namespace Comet

variable {σ : Type}

/-- What is recorded of the instruction. -/
def Moment.entry (svc : Supervisor σ) (x : Moment σ) : TraceEntry :=
  x.fetched.entry x.effect (x.machine.commit svc x.fetched x.effect).flags

/-- A call of the supervisor: its code, what the host may change and the state of the host. -/
def Moment.call? (x : Moment σ) : Option (Word × HostView × σ) :=
  match x.effect with
  | .supervisor code =>
    some (code, ⟨x.machine.registers, x.machine.memory.unsnoc.1⟩, x.machine.host)
  | _ => none

namespace Machine

variable {svc : Supervisor σ} {m m' : Machine σ} {k limit : Nat}

/-- The machine with another record. -/
def withRecord (trace : Option (Array TraceEntry)) (m : Machine σ) : Machine σ := { m with trace }

/-- The outcome of a run with another record in its machine. -/
def recorded (trace : Option (Array TraceEntry)) :
    Except (Stopped σ) (Machine σ) → Except (Stopped σ) (Machine σ)
  | .ok m => .ok (m.withRecord trace)
  | .error stopped => .error ⟨stopped.fault, stopped.machine.withRecord trace⟩

/-- The instructions that a run executes, one after another. -/
def executed (svc : Supervisor σ) (limit : Nat) (m : Machine σ) : List (Moment σ) :=
  m.history svc ((finalState (m.run svc limit)).steps - m.steps)

/-- The supervisor calls of a run. -/
def calls (svc : Supervisor σ) (limit : Nat) (m : Machine σ) : List (Word × HostView × σ) :=
  (m.executed svc limit).filterMap Moment.call?

/-! ## One instruction -/

@[simp] theorem steps_withRecord (trace : Option (Array TraceEntry)) (m : Machine σ) :
    (m.withRecord trace).steps = m.steps := rfl

theorem perform_withRecord (trace : Option (Array TraceEntry)) (next : Word) (m : Machine σ)
    (e : Effect) :
    (m.withRecord trace).perform svc next e = (m.perform svc next e).withRecord trace := by
  cases e <;> rfl

/-- **An instruction** adds its entry to the record and does the same as ever otherwise. -/
theorem commit_withRecord (trace : Option (Array TraceEntry)) (m : Machine σ) (f : Fetched)
    (e : Effect) :
    (m.withRecord trace).commit svc f e =
      (m.commit svc f e).withRecord (trace.map (·.push (Moment.entry svc ⟨m, f, e⟩))) := by
  simp only [commit, perform_withRecord]
  rfl

/-! ## Executions -/

theorem Executes.moment?_eq {f : Fetched} {e : Effect} (h : Executes svc m k m') (hlive : m'.Live)
    (hu : m'.upcoming = .ok (f, e)) : (m.after svc k).moment? = some ⟨m', f, e⟩ := by
  rw [h.after_eq]
  exact moment?_eq_some.2 ⟨hlive, rfl, hu⟩

/-- **Along an execution** the record takes the entries of its history, and nothing else changes. -/
theorem Executes.withRecord (h : Executes svc m k m') (trace : Option (Array TraceEntry)) :
    Executes svc (m.withRecord trace) k
      (m'.withRecord (trace.map (· ++ ((m.history svc k).map (Moment.entry svc)).toArray))) := by
  induction h with
  | refl =>
    have hnone :
        trace.map (· ++ (([] : List (Moment σ)).map (Moment.entry svc)).toArray) = trace := by
      cases trace <;> simp
    rw [show m.history svc 0 = [] from rfl, hnone]
    exact .refl
  | @snoc k m' f e h hlive hu ih =>
    have hnext := ih.snoc ⟨hlive.running, hlive.inside⟩ hu
    rw [commit_withRecord] at hnext
    rw [history_succ, h.moment?_eq hlive hu]
    cases trace with
    | none => exact hnext
    | some entries => simpa using hnext

theorem Executes.length_history (h : Executes svc m k m') : (m.history svc k).length = k := by
  induction h with
  | refl => rfl
  | snoc h hlive hu ih => rw [history_succ, h.moment?_eq hlive hu, List.length_append, ih]; rfl

/-- Where a run ends does not depend on the record, nor does how it ends. -/
theorem Ends.withRecord {left : Nat} {result : Except (Stopped σ) (Machine σ)}
    (h : Ends svc limit left m result) (trace : Option (Array TraceEntry)) :
    Ends svc limit left (m.withRecord trace) (recorded trace result) := by
  cases h with
  | stopped hs => exact .stopped hs
  | outside hs hp => exact .outside hs hp
  | limited hlive hleft => exact .limited ⟨hlive.running, hlive.inside⟩ hleft
  | faulted hlive hleft hstep =>
    obtain ⟨-, fault, hu, rfl⟩ := step_eq_error.1 hstep
    have hlive' : (m.withRecord trace).Live := ⟨hlive.running, hlive.inside⟩
    exact .faulted hlive' hleft (hlive'.step_error hu)

/-- The supervisor is called with the same codes, views and host states. -/
theorem Executes.filterMap_call? (h : Executes svc m k m') (trace : Option (Array TraceEntry)) :
    ((m.withRecord trace).history svc k).filterMap Moment.call? =
      (m.history svc k).filterMap Moment.call? := by
  induction h with
  | refl => rfl
  | @snoc k m' f e h hlive hu ih =>
    have hmoment := (h.withRecord trace).moment?_eq ⟨hlive.running, hlive.inside⟩ hu
    rw [history_succ, history_succ, hmoment, h.moment?_eq hlive hu, List.filterMap_append,
      List.filterMap_append, ih]
    cases e <;> rfl

/-! ## Runs -/

/-- What a run executes is the history of its execution. -/
theorem run_executed (svc : Supervisor σ) (limit : Nat) (m : Machine σ) :
    ∃ k m', k ≤ limit - m.steps ∧ Executes svc m k m' ∧
      Ends svc limit (limit - m'.steps) m' (m.run svc limit) ∧
      (finalState (m.run svc limit)).steps - m.steps = k ∧
      m.executed svc limit = m.history svc k := by
  obtain ⟨k, m', hk, hx, he⟩ := run_ends svc limit m
  have hsteps : (finalState (m.run svc limit)).steps - m.steps = k := by
    rw [he.steps_eq, hx.steps_eq, Nat.add_sub_cancel_left]
  exact ⟨k, m', hk, hx, he, hsteps, by rw [executed, hsteps]⟩

/-- A run executes as many instructions as it counts. -/
theorem length_executed (svc : Supervisor σ) (limit : Nat) (m : Machine σ) :
    (m.executed svc limit).length = (finalState (m.run svc limit)).steps - m.steps := by
  obtain ⟨k, m', -, hx, -, hsteps, hexecuted⟩ := run_executed svc limit m
  rw [hexecuted, hx.length_history, hsteps]

/-- **A run under any record** is the same, and adds the entries of what it executes. -/
theorem run_withRecord (svc : Supervisor σ) (limit : Nat) (trace : Option (Array TraceEntry))
    (m : Machine σ) :
    (m.withRecord trace).run svc limit =
      recorded (trace.map (· ++ ((m.executed svc limit).map (Moment.entry svc)).toArray))
        (m.run svc limit) := by
  obtain ⟨k, m', hk, hx, he, -, hexecuted⟩ := run_executed svc limit m
  rw [hexecuted]
  exact Ends.run_eq (m := m.withRecord trace) (he.withRecord _) (hx.withRecord trace) hk

@[simp] theorem finalState_recorded (trace : Option (Array TraceEntry))
    (result : Except (Stopped σ) (Machine σ)) :
    finalState (recorded trace result) = (finalState result).withRecord trace := by
  cases result <;> rfl

/-- A run without a record ends without one. -/
theorem entries_run_of_none (h : m.trace = none) :
    (finalState (m.run svc limit)).entries = #[] := by
  have hm : m.withRecord none = m := by rw [withRecord, ← h]
  have hrun := run_withRecord svc limit none m
  rw [hm] at hrun
  rw [hrun, finalState_recorded]
  rfl

/-- **The supervisor calls of a run** do not depend on the record. -/
theorem calls_withRecord (svc : Supervisor σ) (limit : Nat) (trace : Option (Array TraceEntry))
    (m : Machine σ) : (m.withRecord trace).calls svc limit = m.calls svc limit := by
  obtain ⟨k, m', -, hx, -, hsteps, hexecuted⟩ := run_executed svc limit m
  rw [calls, calls, hexecuted, executed, run_withRecord, finalState_recorded, steps_withRecord,
    steps_withRecord, hsteps]
  exact hx.filterMap_call? trace

/-- **A run with tracing** is the run without, with a record of what it executes. -/
theorem run_withTrace (svc : Supervisor σ) (limit : Nat) (m : Machine σ) :
    m.withTrace.run svc limit =
      recorded (some ((m.executed svc limit).map (Moment.entry svc)).toArray)
        (m.run svc limit) := by
  refine (run_withRecord svc limit (some #[]) m).trans ?_
  rw [Option.map_some, Array.empty_append]

end Machine

end Comet
