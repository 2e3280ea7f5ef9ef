import Comet.Proofs.Machine.Execution

/-!
# Reachable machines

What a host can bring a machine to, from the moment that an image is loaded: it steps and runs the
machine, sets registers, moves the program counter, switches recording on and puts another
supervisor in charge, in whatever order (`Machine.Reachable`). What all of this keeps holds of every
reachable machine (`Reachable.invariant`); of steps and runs, only executed instructions and the
status need be looked at.
-/

namespace Comet.Machine

/-- The host can bring a machine, under a supervisor of its choice, from a loaded image to here. A
step or a run that faults leaves a machine too. -/
inductive Reachable (image : Image) : {σ : Type} → Supervisor σ → Machine σ → Prop
  | load {σ : Type} (host : σ) : Reachable image .idle (load image host)
  | step {σ : Type} {svc : Supervisor σ} {m : Machine σ} :
      Reachable image svc m → Reachable image svc (m.advance svc)
  | run {σ : Type} {svc : Supervisor σ} {m : Machine σ} (limit : Nat) :
      Reachable image svc m → Reachable image svc (finalState (m.run svc limit))
  | setRegister {σ : Type} {svc : Supervisor σ} {m : Machine σ} (r : Reg) (value : Word) :
      Reachable image svc m → Reachable image svc (m.setRegister r value)
  | withEntry {σ : Type} {svc : Supervisor σ} {m : Machine σ} (entry : Word) :
      Reachable image svc m → Reachable image svc (m.withEntry entry)
  | withTrace {σ : Type} {svc : Supervisor σ} {m : Machine σ} :
      Reachable image svc m → Reachable image svc m.withTrace
  | withSupervisor {σ τ : Type} {svc : Supervisor σ} {m : Machine σ} (svc' : Supervisor τ)
      (host : τ) : Reachable image svc m → Reachable image svc' (m.withHost host)

variable {image : Image} {P : {σ : Type} → Machine σ → Prop}

/-- What holds of a loaded image, and is kept by what the host does and by executed instructions,
holds of every reachable machine. -/
theorem Reachable.invariant (hload : ∀ {σ : Type} (host : σ), P (Machine.load image host))
    (hcommit : ∀ {σ : Type} (svc : Supervisor σ) {m : Machine σ} {f : Fetched} {e : Effect},
      P m → m.Live → m.upcoming = .ok (f, e) → P (m.commit svc f e))
    (hstatus : ∀ {σ : Type} {m : Machine σ} (status : Status), P m → P { m with status })
    (hregister : ∀ {σ : Type} {m : Machine σ} (r : Reg) (value : Word),
      P m → P (m.setRegister r value))
    (hentry : ∀ {σ : Type} {m : Machine σ} (entry : Word), P m → P (m.withEntry entry))
    (htrace : ∀ {σ : Type} {m : Machine σ}, P m → P m.withTrace)
    (hhost : ∀ {σ τ : Type} {m : Machine σ} (host : τ), P m → P (m.withHost host))
    {σ : Type} {svc : Supervisor σ} {m : Machine σ} (h : Reachable image svc m) : P m := by
  induction h with
  | load host => exact hload host
  | @step _ svc m _ ih =>
    rcases step_cases svc m with ⟨-, hs⟩ | ⟨-, -, hs⟩ | ⟨-, fault, -, hs⟩ | ⟨hlive, f, e, hu, hs⟩
    · rwa [advance, hs]
    · rw [advance, hs]
      exact hstatus _ ih
    · rw [advance, hs]
      exact hstatus _ ih
    · rw [advance, hs]
      exact hcommit svc ih hlive hu
  | @run _ svc m limit _ ih =>
    obtain ⟨k, m', status, -, hx, hfinal⟩ := @runFor_executes _ svc limit (limit - m.steps) m
    rw [Machine.run, hfinal]
    refine hstatus status ?_
    clear hfinal
    induction hx with
    | refl => exact ih
    | snoc _ hlive hu ih => exact hcommit svc ih hlive hu
  | setRegister r value _ ih => exact hregister r value ih
  | withEntry entry _ ih => exact hentry entry ih
  | withTrace _ ih => exact htrace ih
  | withSupervisor svc' host _ ih => exact hhost host ih

end Comet.Machine
