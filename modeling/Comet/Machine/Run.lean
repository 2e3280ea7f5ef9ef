import Comet.Machine.Step

/-!
# Running a program

A run steps the machine until it no longer runs, until its program counter leaves the program, or
until the limit on executed instructions is reached. That a program has ended is found out before
the limit is.
-/

namespace Comet.Machine

variable {σ : Type}

/-- Runs for at most `fuel` more instructions; `limit` is what a run that uses them up reports. -/
def runFor (svc : Supervisor σ) (limit : Nat) :
    (fuel : Nat) → Machine σ → Except (Stopped σ) (Machine σ)
  | fuel, m =>
    if m.status ≠ .running then .ok m
    else if m.stop ≤ m.pc then .ok { m with status := .halted }
    else
      match fuel with
      | 0 => .error ⟨.stepLimit limit, { m with status := .faulted }⟩
      | fuel + 1 =>
        match m.step svc with
        | .error stopped => .error stopped
        | .ok m => runFor svc limit fuel m

/-- Runs until `limit` instructions have been executed since the program was loaded. -/
def run (svc : Supervisor σ) (limit : Nat) (m : Machine σ) : Except (Stopped σ) (Machine σ) :=
  runFor svc limit (limit - m.steps) m

/-- The machine at the end of a run, whether it ended well or by a fault. -/
def finalState : Except (Stopped σ) (Machine σ) → Machine σ
  | .ok m => m
  | .error stopped => stopped.machine

end Comet.Machine
