import Comet.Proofs.Machine.Execution

/-!
# Replaying a trace

A trace tells everything that a program did to the machine. `TraceEntry.replay` applies the update
that one entry declares to a `Snapshot` (registers, memory, stack pointer, program counter, flags):

* `snapshot_commit`: without a supervisor, an executed instruction changes the snapshot by exactly
  what its entry declares; the supervisor call of an idle host leaves memory as it is
  (`callSupervisor_idle`).
* `Executes.records`: along an execution, entry `k` describes the instruction at hand after `k`
  steps (`TraceEntry.Describes`), and the first `k` entries replay to the machine after `k` steps.
* `run_replays`: so the trace of a run replays to its final state, however the run ends.
-/

namespace Comet

/-- What a program can change: all of the machine but its status, its counters and the host. -/
structure Snapshot where
  registers : Registers
  memory : Memory
  sp : Word
  pc : Word
  flags : Flags

namespace TraceEntry

/-- The update that an entry declares. The operation code tells a value that was popped or pushed
from one that was only stored. -/
def replay (s : Snapshot) (e : TraceEntry) : Snapshot :=
  let s := { s with pc := e.address + UInt16.ofNat e.opcode.words, flags := e.flags }
  match e.effect with
  | .result r value _ | .pop r value =>
    { s with registers := s.registers.write r value
             sp := if e.opcode = .register .pop then s.sp + 1 else s.sp }
  | .store address value | .push address value =>
    { s with memory := s.memory.write address value
             sp := if e.opcode = .address .push then address else s.sp }
  | .call target back =>
    { s with memory := s.memory.write (s.sp - 1) back, sp := s.sp - 1, pc := target }
  | .ret target => { s with sp := s.sp + 1, pc := target }
  | .branch target taken => { s with pc := if taken then target else s.pc }
  | .idle | .compare _ | .supervisor _ | .halt => s

/-- The snapshot after a list of entries. -/
def replayAll (s : Snapshot) (entries : List TraceEntry) : Snapshot := entries.foldl replay s

/-- The entry is of the instruction at hand in a snapshot, in a program of `size` words. -/
structure Describes (e : TraceEntry) (size : Nat) (s : Snapshot) : Prop where
  address : e.address = s.pc
  inside : e.address.toNat < size
  word : e.word = s.memory.read e.address
  opcode : Opcode.ofCode? e.word.high = some e.opcode
  operand : e.operand =
    if e.opcode.hasAddressWord then some (s.memory.read (e.address + 1)) else none
  back : ∀ target back, e.effect = .call target back → back = e.address + 2

end TraceEntry

namespace Machine

variable {σ : Type} {svc : Supervisor σ}

/-- What a program can change of a machine. -/
def snapshot (m : Machine σ) : Snapshot := ⟨m.registers, m.memory, m.sp, m.pc, m.flags⟩

/-! ## What an instruction can do -/

/-- Which instructions have which effects: only POP pops, only PUSH pushes, and a call returns to
the address after it. -/
theorem effect_shape {m : Machine σ} {next : Word} {i : Instr} {e : Effect}
    (h : m.effect next i = .ok e) :
    match e with
    | .result .. => i.opcode ≠ .register .pop
    | .pop .. => i.opcode = .register .pop
    | .store .. => i.opcode ≠ .address .push
    | .push .. => i.opcode = .address .push
    | .call _ back => back = next ∧ i.opcode = .address .call
    | _ => True := by
  rcases i with ⟨op, r, source⟩ | ⟨op, r, a⟩ | ⟨op, a⟩ | ⟨op, r⟩ | ⟨op⟩
  · cases op <;> simp only [effect, bind_eq_ok, pure_eq_ok] at h
    · obtain ⟨_, -, rfl⟩ := h; simp [Instr.opcode]
    · obtain ⟨_, -, rfl⟩ := h; simp [Instr.opcode]
    · obtain ⟨_, -, rfl⟩ := h; trivial
    · cases h; simp [Instr.opcode]
  · cases op <;> simp only [effect, guarded] at h
    · split at h <;> cases h
      simp [Instr.opcode]
    · cases h; simp [Instr.opcode]
  · cases op <;> simp only [effect, guarded] at h
    · cases h; trivial
    · split at h <;> cases h
      rfl
    · split at h <;> cases h
      exact ⟨rfl, rfl⟩
    · cases h; trivial
  · cases op
    simp only [effect, bind_eq_ok, pure_eq_ok] at h
    obtain ⟨_, -, rfl⟩ := h; rfl
  · cases op <;> simp only [effect] at h
    · cases h; trivial
    · split at h
      · cases h; trivial
      · simp only [bind_eq_ok, pure_eq_ok] at h
        obtain ⟨_, -, rfl⟩ := h; trivial
    · cases h; trivial

/-- The address after a fetched instruction is as far on as the instruction has words. -/
theorem next_of_fetch {m : Machine σ} {f : Fetched} (h : m.fetch = .ok f) :
    f.next = f.address + UInt16.ofNat f.instr.opcode.words := by
  obtain ⟨-, -, -, -, ho, -⟩ := fetch_eq_ok.1 h
  rw [Fetched.next, fetchOperand_eq_ok ho, Opcode.words]
  cases f.instr.opcode.hasAddressWord <;> rfl

/-! ## One entry -/

/-- Taking the last cell off and putting it back leaves memory as it is. -/
theorem callSupervisor_idle (code : Word) (m : Machine σ) :
    m.callSupervisor .idle code = m := by
  have hmem : m.memory.pop.push m.memory.back = m.memory := Vector.push_pop_back _
  simp only [callSupervisor, Memory.unsnoc, Supervisor.idle]
  rw [hmem]

/-- **One entry replays one instruction.** -/
theorem snapshot_commit {m : Machine σ} {f : Fetched} {e : Effect} (hu : m.upcoming = .ok (f, e)) :
    (m.commit .idle f e).snapshot =
      (f.entry e (m.commit .idle f e).flags).replay m.snapshot := by
  obtain ⟨hf, he⟩ := upcoming_eq_ok.1 hu
  have hshape := effect_shape he
  have hnext : f.address + UInt16.ofNat f.instr.opcode.words = f.next := (next_of_fetch hf).symm
  cases e with
  | supervisor code =>
    simp [snapshot, commit, perform, callSupervisor_idle, TraceEntry.replay, Fetched.entry, hnext]
  | pop r value =>
    simp only at hshape
    simp [snapshot, commit, perform, TraceEntry.replay, Fetched.entry, ← hnext, hshape]
  | push address value =>
    simp only at hshape
    simp [snapshot, commit, perform, TraceEntry.replay, Fetched.entry, ← hnext, hshape]
  | _ =>
    simp only at hshape
    simp [snapshot, commit, perform, TraceEntry.replay, Fetched.entry, hnext, hshape]

/-- The entry of an executed instruction describes it. -/
theorem entry_describes {m : Machine σ} {f : Fetched} {e : Effect} {size : Nat} (flags : Flags)
    (hlive : m.Live) (hsize : m.stop.toNat ≤ size) (hu : m.upcoming = .ok (f, e)) :
    (f.entry e flags).Describes size m.snapshot := by
  obtain ⟨hf, he⟩ := upcoming_eq_ok.1 hu
  obtain ⟨haddr, -, hword, hop, ho, -⟩ := fetch_eq_ok.1 hf
  refine ⟨haddr, ?_, ?_, hop, ?_, ?_⟩
  · have := UInt16.lt_iff_toNat_lt.1 hlive.inside
    show f.address.toNat < size
    rw [haddr]; omega
  · show f.word = m.memory.read f.address
    rw [hword, haddr]
  · show f.operand = _
    rw [fetchOperand_eq_ok ho, ← haddr]; rfl
  · rintro target back rfl
    obtain ⟨hback, hcall⟩ := effect_shape he
    rw [hback, next_of_fetch hf, hcall]; rfl

/-! ## The trace of a run -/

/-- **Along an execution** the entries describe one instruction after the other, and the first `j`
of them replay to the machine after `j` steps. -/
theorem Executes.records {m m' : Machine σ} {k : Nat} (h : Executes .idle m k m')
    (htrace : m.trace = some #[]) :
    ∃ es : List TraceEntry, m'.trace = some es.toArray ∧ es.length = k ∧
      (∀ j ≤ k, TraceEntry.replayAll m.snapshot (es.take j) = (m.after .idle j).snapshot) ∧
      ∀ (j : Nat) e, es[j]? = some e → e.Describes m.stop.toNat (m.after .idle j).snapshot := by
  induction h with
  | refl =>
    refine ⟨[], htrace, rfl, fun j hj => ?_, fun j e he => by simp at he⟩
    rw [Nat.le_zero.1 hj]; rfl
  | @snoc k m' f e h hlive hu ih =>
    obtain ⟨es, hes, hlen, hprefix, hdescr⟩ := ih
    let entry := f.entry e (m'.commit .idle f e).flags
    have hafter : m.after .idle (k + 1) = m'.commit .idle f e := (h.snoc hlive hu).after_eq
    refine ⟨es ++ [entry], ?_, by simp [hlen], fun j hj => ?_, fun j e' he' => ?_⟩
    · simp [commit, hes, entry]
    · rcases Nat.le_succ_iff.1 hj with hj | rfl
      · rw [List.take_append_of_le_length (by omega), hprefix j hj]
      · -- all of the entries: those before, then the new one
        have hall := hprefix k (Nat.le_refl k)
        rw [← hlen, List.take_length, hlen, h.after_eq] at hall
        rw [hafter, snapshot_commit hu, ← hall, List.take_of_length_le (by simp [hlen])]
        simp [TraceEntry.replayAll, entry]
    · rcases Nat.lt_trichotomy j k with hj | rfl | hj
      · rw [List.getElem?_append_left (by omega)] at he'
        exact hdescr j e' he'
      · rw [List.getElem?_append_right (by omega), hlen, Nat.sub_self] at he'
        obtain rfl : entry = e' := by simpa using he'
        rw [h.after_eq]
        exact entry_describes _ hlive (Nat.le_of_eq (congrArg UInt16.toNat h.stop_eq)) hu
      · rw [List.getElem?_eq_none (by simp; omega)] at he'
        cases he'

end Machine

/-- The snapshot of a loaded image. -/
def Snapshot.ofImage (image : Image) (entry : Word) (registers : Registers) : Snapshot :=
  ⟨registers, Memory.ofWords image.words, stackEmpty, entry, {}⟩

namespace Machine

variable {σ : Type}

/-- **The trace of a run replays to its final state**, however the run ends: it has one entry for
each executed instruction, in order; every entry describes the instruction at hand at that moment;
and applying their updates to the loaded image gives the machine after as many steps. -/
theorem run_replays (image : Image) (entry : Word) (registers : Registers) (host : σ)
    (limit : Nat) :
    let start : Machine σ := { ((load image host).withEntry entry).withTrace with registers }
    let final := finalState (start.run .idle limit)
    let loaded := Snapshot.ofImage image entry registers
    final.entries.size = final.steps ∧
    (∀ e, final.entries[0]? = some e → e.address = entry) ∧
    (∀ (k : Nat) e, final.entries[k]? = some e →
      e.Describes image.size (start.after .idle k).snapshot) ∧
    (∀ k ≤ final.steps,
      TraceEntry.replayAll loaded (final.entries.toList.take k) =
        (start.after .idle k).snapshot) ∧
    TraceEntry.replayAll loaded final.entries.toList = final.snapshot := by
  intro start final loaded
  obtain ⟨k, m, status, -, hx, hfinal⟩ := runFor_executes limit (limit - start.steps) start
  have hfinal : final = { m with status } := hfinal
  obtain ⟨es, hes, hlen, hprefix, hdescr⟩ := hx.records rfl
  have hentries : final.entries = es.toArray := by rw [hfinal, entries]; simp [hes]
  have hsteps : final.steps = k := by
    rw [hfinal]
    exact hx.steps_eq.trans (Nat.zero_add k)
  have hsize : start.stop.toNat ≤ image.size := by
    show (UInt16.ofNat image.size).toNat ≤ _
    rw [UInt16.toNat_ofNat']
    exact Nat.mod_le _ _
  have hdescr' : ∀ (j : Nat) e, es[j]? = some e →
      e.Describes image.size (start.after .idle j).snapshot := fun j e he => by
    obtain ⟨h₁, h₂, h₃, h₄, h₅, h₆⟩ := hdescr j e he
    exact ⟨h₁, Nat.lt_of_lt_of_le h₂ hsize, h₃, h₄, h₅, h₆⟩
  rw [hsteps, hentries]
  refine ⟨by simp [hlen], fun e he => ?_, fun j e he => hdescr' j e (by simpa using he), ?_, ?_⟩
  · exact (hdescr' 0 e (by simpa using he)).address
  · exact fun j hj => hprefix j hj
  · have hall := hprefix k (Nat.le_refl k)
    rw [← hlen, List.take_length, hlen, hx.after_eq] at hall
    rw [hfinal]
    exact hall

end Machine

end Comet
