import Comet.Proofs.Machine.History
import Comet.Proofs.Machine.Replay

/-!
# The stack

The stack lives in ordinary memory, below the last cell, and grows down from there. What it should
hold is told by the instructions alone: PUSH and CALL add a word, POP and a RET that returns take
one (`Moment.onStack`).

* `moves_of_moment?`: what an executed instruction does to the stack pointer and to the cells of the
  stack, said once.
* `depth_after`: so the stack pointer counts pushes and pops, and never wraps.
* `cellsFrom_after`: and as long as nothing but pushes writes to its cells (`Moment.SparesStack`),
  they hold what they should.
* `stack_is_lifo`: both, with what happens at the ends of the stack.
-/

namespace Comet

variable {σ : Type}

/-! ## The cells of the stack -/

theorem toNat_ne_of_ne_noMemory {address : Word} (h : address ≠ noMemory) :
    address.toNat ≠ 0xFFFF := fun h' => h (UInt16.toNat_inj.1 h')

theorem toNat_add_ofNat {address : Word} {i : Nat} (h : address.toNat + i < 0x10000) :
    (address + UInt16.ofNat i).toNat = address.toNat + i := by
  rw [UInt16.toNat_add, UInt16.toNat_ofNat']
  omega

theorem toNat_add_one {address : Word} (h : address ≠ noMemory) :
    (address + 1).toNat = address.toNat + 1 := by
  have hlt := address.toNat_lt
  have hne := toNat_ne_of_ne_noMemory h
  exact toNat_add_ofNat (i := 1) (by omega)

theorem toNat_sub_one {address : Word} (h : address - 1 ≠ noMemory) :
    (address - 1).toNat + 1 = address.toNat := by
  rw [← toNat_add_one h, UInt16.sub_add_cancel]

namespace Memory

/-- The words from an address up to the last cell. -/
def cellsFrom (memory : Memory) (address : Word) : List Word :=
  (List.range (0xFFFF - address.toNat)).map fun i => memory.read (address + UInt16.ofNat i)

theorem cellsFrom_noMemory (memory : Memory) : memory.cellsFrom noMemory = [] := rfl

theorem cellsFrom_of_ne {address : Word} (memory : Memory) (h : address ≠ noMemory) :
    memory.cellsFrom address = memory.read address :: memory.cellsFrom (address + 1) := by
  have hlt := address.toNat_lt
  have hne := toNat_ne_of_ne_noMemory h
  have hcount : 0xFFFF - address.toNat = 0xFFFF - (address + 1).toNat + 1 := by
    rw [toNat_add_one h]; omega
  rw [cellsFrom, hcount, List.range_succ_eq_map, List.map_cons, List.map_map, cellsFrom]
  congr 1
  · simp
  · refine List.map_congr_left fun i _ => ?_
    show memory.read (address + UInt16.ofNat (i + 1)) = _
    rw [UInt16.ofNat_add, UInt16.add_comm (UInt16.ofNat i), ← UInt16.add_assoc]
    rfl

theorem cellsFrom_congr {memory memory' : Memory} {address : Word}
    (h : ∀ a, address ≤ a → a ≠ noMemory → memory.read a = memory'.read a) :
    memory.cellsFrom address = memory'.cellsFrom address := by
  refine List.map_congr_left fun i hi => ?_
  rw [List.mem_range] at hi
  have hsum : (address + UInt16.ofNat i).toNat = address.toNat + i := toNat_add_ofNat (by omega)
  refine h _ (UInt16.le_iff_toNat_le.2 (by omega)) fun heq => ?_
  have := congrArg UInt16.toNat heq
  rw [hsum, show noMemory.toNat = 0xFFFF from rfl] at this
  omega

/-- A word stored right below the cells from an address on becomes the first of them. -/
theorem cellsFrom_write {address : Word} (memory : Memory) (value : Word)
    (h : address - 1 ≠ noMemory) :
    (memory.write (address - 1) value).cellsFrom (address - 1) =
      value :: memory.cellsFrom address := by
  rw [cellsFrom_of_ne _ h, UInt16.sub_add_cancel, read_write, if_pos rfl]
  congr 1
  refine cellsFrom_congr fun a ha _ => ?_
  have hne : address - 1 ≠ a := by
    rintro rfl
    have hsub := toNat_sub_one h
    have := UInt16.le_iff_toNat_le.1 ha
    omega
  rw [read_write, if_neg hne]

end Memory

/-! ## What instructions do to the stack -/

namespace Moment

/-- The word that an instruction pushes: PUSH its effective address, CALL the address after it. -/
def pushed? (x : Moment σ) : Option Word :=
  match x.fetched.instr with
  | .address .push a => some (x.machine.registers.effective a)
  | .address .call _ => some (x.machine.pc + 2)
  | _ => none

/-- POP takes a word off the stack, and so does RET, unless it halts. -/
def pops (x : Moment σ) : Bool :=
  match x.fetched.instr with
  | .register .pop _ => true
  | .bare .ret => x.effect ≠ .halt
  | _ => false

/-- The stack after an instruction, top first. -/
def onStack (stack : List Word) (x : Moment σ) : List Word :=
  match x.pushed? with
  | some value => value :: stack
  | none => if x.pops then stack.tail else stack

/-- The instruction is no store to a cell of the stack and no supervisor call that changes one. -/
def SparesStack (svc : Supervisor σ) (x : Moment σ) : Prop :=
  match x.effect with
  | .store address _ => address < x.machine.sp
  | .supervisor code => ∀ a, x.machine.sp ≤ a → a ≠ noMemory →
    (x.machine.callSupervisor svc code).memory.read a = x.machine.memory.read a
  | _ => True

/-- What an executed instruction does to the stack of the machine. -/
inductive Moves (svc : Supervisor σ) (x : Moment σ) (m m' : Machine σ) : Prop
  | push {value : Word} : x.pushed? = some value → x.pops = false → m.sp - 1 ≠ noMemory →
      m'.sp = m.sp - 1 → m'.memory = m.memory.write (m.sp - 1) value → Moves svc x m m'
  | pop : x.pushed? = none → x.pops = true → m.sp ≠ noMemory → m'.sp = m.sp + 1 →
      m'.memory = m.memory →
      (∀ r, x.fetched.instr = .register .pop r → m'.registers.read r = m.memory.read m.sp) →
      (x.fetched.instr = .bare .ret → m'.pc = m.memory.read m.sp) → Moves svc x m m'
  | keep : x.pushed? = none → x.pops = false → m'.sp = m.sp →
      (x.SparesStack svc → ∀ a, m.sp ≤ a → a ≠ noMemory → m.memory.read a = m'.memory.read a) →
      Moves svc x m m'

end Moment

namespace Machine

variable {svc : Supervisor σ} {m : Machine σ}

theorem moves_of_moment? (svc : Supervisor σ) {x : Moment σ} (h : m.moment? = some x) :
    x.Moves svc m (m.advance svc) := by
  obtain ⟨hlive, rfl, hu⟩ := moment?_eq_some.1 h
  rw [advance_of_moment? h]
  obtain ⟨m, ⟨address, word, operand, instr⟩, e⟩ := x
  obtain ⟨hf, he⟩ := upcoming_eq_ok.1 hu
  have hnext := next_of_fetch hf
  obtain ⟨haddress, -⟩ := fetch_eq_ok.1 hf
  dsimp only at he hnext haddress
  rcases instr with ⟨op, r, source⟩ | ⟨op, r, a⟩ | ⟨op, a⟩ | ⟨op, r⟩ | ⟨op⟩
  case twoForm =>
    cases op <;> simp only [effect, bind_eq_ok, pure_eq_ok] at he
    · obtain ⟨_, -, rfl⟩ := he
      exact .keep rfl rfl rfl fun _ _ _ _ => rfl
    · obtain ⟨_, -, rfl⟩ := he
      exact .keep rfl rfl rfl fun _ _ _ _ => rfl
    · obtain ⟨_, -, rfl⟩ := he
      exact .keep rfl rfl rfl fun _ _ _ _ => rfl
    · cases he
      exact .keep rfl rfl rfl fun _ _ _ _ => rfl
  case registerAddress =>
    cases op with
    | store =>
      simp only [effect, guarded] at he
      split at he <;> cases he
      refine .keep rfl rfl rfl fun hspares b hb _ => ?_
      have hne : m.registers.effective a ≠ b := fun heq =>
        UInt16.not_lt.2 hb (heq ▸ hspares)
      exact (Memory.read_write _ _ _ _).symm ▸ (if_neg hne).symm
    | loadAddress =>
      cases he
      exact .keep rfl rfl rfl fun _ _ _ _ => rfl
  case address =>
    cases op with
    | jump condition =>
      cases he
      exact .keep rfl rfl rfl fun _ _ _ _ => rfl
    | push =>
      simp only [effect, guarded] at he
      split at he <;> cases he
      exact .push rfl rfl ‹_› rfl rfl
    | call =>
      simp only [effect, guarded] at he
      split at he <;> cases he
      refine .push rfl rfl ‹_› rfl ?_
      show m.memory.write _ _ = _
      rw [hnext, haddress]
      rfl
    | supervisor =>
      cases he
      exact .keep rfl rfl rfl fun hspares b hb hb' => (hspares b hb hb').symm
  case register =>
    cases op
    simp only [effect, bind_eq_ok, pure_eq_ok, read_eq_ok] at he
    obtain ⟨value, ⟨hsp, rfl⟩, rfl⟩ := he
    refine .pop rfl rfl hsp rfl rfl (fun r' hr => ?_) (fun hr => by cases hr)
    cases hr
    show (m.registers.write r _).read r = _
    rw [Registers.read_write, if_pos rfl]
  case bare =>
    cases op with
    | nop =>
      cases he
      exact .keep rfl rfl rfl fun _ _ _ _ => rfl
    | halt =>
      cases he
      exact .keep rfl rfl rfl fun _ _ _ _ => rfl
    | ret =>
      simp only [effect] at he
      split at he
      · cases he
        exact .keep rfl rfl rfl fun _ _ _ _ => rfl
      · simp only [bind_eq_ok, pure_eq_ok, read_eq_ok] at he
        obtain ⟨target, ⟨hsp, rfl⟩, rfl⟩ := he
        exact .pop rfl rfl hsp rfl rfl (fun _ hr => by cases hr) (fun _ => rfl)

/-! ## The depth of the stack -/

theorem sp_advance (svc : Supervisor σ) {x : Moment σ} (h : m.moment? = some x) :
    (m.advance svc).sp.toNat + x.pushed?.isSome.toNat = m.sp.toNat + x.pops.toNat := by
  cases moves_of_moment? svc h with
  | push hpush hpops hfull hsp _ =>
    rw [hpush, hpops, hsp]
    exact toNat_sub_one hfull
  | pop hpush hpops hempty hsp _ _ _ =>
    rw [hpush, hpops, hsp]
    exact toNat_add_one hempty
  | keep hpush hpops hsp _ => rw [hpush, hpops, hsp]; rfl

/-- **The stack pointer counts** pushed and popped words, without ever wrapping. -/
theorem depth_after (svc : Supervisor σ) (n : Nat) (m : Machine σ) :
    (m.after svc n).sp.toNat + (m.history svc n).countP (·.pushed?.isSome) =
      m.sp.toNat + (m.history svc n).countP Moment.pops := by
  induction n with
  | zero => rfl
  | succ n ih =>
    rw [after_succ, history_succ, List.countP_append, List.countP_append]
    cases h : (m.after svc n).moment? with
    | none =>
      obtain ⟨status, hnone⟩ := advance_of_moment?_eq_none svc h
      rw [hnone]
      exact ih
    | some x =>
      have hsp := sp_advance svc h
      have hcount : ∀ p : Moment σ → Bool, List.countP p (some x).toList = (p x).toNat := by
        intro p
        cases hp : p x <;> simp [hp]
      rw [hcount, hcount]
      omega

/-! ## The contents of the stack -/

theorem cellsFrom_advance {x : Moment σ} (h : m.moment? = some x) (hspares : x.SparesStack svc) :
    (m.advance svc).memory.cellsFrom (m.advance svc).sp = x.onStack (m.memory.cellsFrom m.sp) := by
  unfold Moment.onStack
  cases moves_of_moment? svc h with
  | push hpush _ hfull hsp hmemory =>
    rw [hpush, hsp, hmemory]
    exact Memory.cellsFrom_write _ _ hfull
  | pop hpush hpops hempty hsp hmemory _ _ =>
    rw [hpush, hpops, hsp, hmemory, Memory.cellsFrom_of_ne m.memory hempty]
    rfl
  | keep hpush hpops hsp hmemory =>
    rw [hpush, hpops, hsp]
    exact (Memory.cellsFrom_congr (hmemory hspares)).symm

/-- **The cells of the stack** hold what the instructions have put there, as long as none of them
writes there in another way. -/
theorem cellsFrom_after (svc : Supervisor σ) (n : Nat) (m : Machine σ)
    (hspares : ∀ x ∈ m.history svc n, x.SparesStack svc) :
    (m.after svc n).memory.cellsFrom (m.after svc n).sp =
      (m.history svc n).foldl Moment.onStack (m.memory.cellsFrom m.sp) := by
  induction n with
  | zero => rfl
  | succ n ih =>
    rw [history_succ] at hspares ⊢
    have ih := ih fun x hx => hspares x (List.mem_append_left _ hx)
    rw [after_succ, List.foldl_append, ← ih]
    cases h : (m.after svc n).moment? with
    | none =>
      obtain ⟨status, hnone⟩ := advance_of_moment?_eq_none svc h
      rw [hnone]
      rfl
    | some x => exact cellsFrom_advance h (hspares x (List.mem_append_right _ (by simp [h])))

/-! ## The ends of the stack -/

/-- A machine at an end of its stack does not go beyond it. -/
structure KeepsBounds (svc : Supervisor σ) (m : Machine σ) (f : Fetched) : Prop where
  /-- A push to a full stack faults. -/
  full : (f.instr.opcode = .address .push ∨ f.instr.opcode = .address .call) → m.sp = 0 →
    m.step svc = .error ⟨.outOfBounds 0xFFFF, { m with status := .faulted }⟩
  /-- POP faults on an empty stack. -/
  empty : f.instr.opcode = .register .pop → m.sp = stackEmpty →
    m.step svc = .error ⟨.outOfBounds 0xFFFF, { m with status := .faulted }⟩
  /-- RET halts on an empty stack. -/
  done : f.instr.opcode = .bare .ret → m.sp = stackEmpty →
    ∃ m', m.step svc = .ok m' ∧ m'.status = .halted ∧ m'.sp = stackEmpty

theorem keepsBounds_of_fetch {f : Fetched} (hlive : m.Live) (hf : m.fetch = .ok f) :
    m.KeepsBounds svc f := by
  obtain ⟨address, word, operand, instr⟩ := f
  refine ⟨fun hop hsp => hlive.step_error ?_, fun hop hsp => hlive.step_error ?_,
    fun hop hsp => ?_⟩
  · have hfull : m.sp - 1 = noMemory := by rw [hsp]; rfl
    rcases instr with _ | _ | ⟨op, a⟩ | _ | _ <;> rcases hop with hop | hop <;> cases hop <;>
      simp [upcoming, hf, effect, guarded, hfull, noMemory]
  · have hread : m.read m.sp = .error (.outOfBounds 0xFFFF) := by rw [hsp]; rfl
    rcases instr with _ | _ | _ | ⟨op, r⟩ | _ <;> cases hop
    simp [upcoming, hf, effect, hread]
  · rcases instr with _ | _ | _ | _ | ⟨op⟩ <;> cases hop
    have heffect (next : Word) : m.effect next (.bare .ret) = .ok .halt := by
      rw [effect, if_pos hsp]
    exact ⟨m.commit svc _ .halt, hlive.step_ok (upcoming_eq_ok.2 ⟨hf, heffect _⟩), rfl, hsp⟩

/-! ## The stack of a program -/

/-- **The stack is last in, first out.** However far a program has run, from whatever registers and
under whatever supervisor: the stack pointer is as far below its start as more words have been
pushed than popped; at the ends of the stack no instruction goes beyond; and as long as no store and
no supervisor call has written to its cells, they hold exactly the words pushed and not yet popped,
the last one on top, so that what pops takes the word pushed last. -/
theorem stack_is_lifo (svc : Supervisor σ) (image : Image) (entry : Word) (registers : Registers)
    (host : σ) (n : Nat) :
    let start : Machine σ := { (load image host).withEntry entry with registers }
    let m := start.after svc n
    let past := start.history svc n
    let stack := past.foldl Moment.onStack []
    (0xFFFF - m.sp.toNat : Int) = past.countP (·.pushed?.isSome) - past.countP Moment.pops ∧
    (∀ f, m.Live → m.fetch = .ok f → m.KeepsBounds svc f) ∧
    ((∀ x ∈ past, x.SparesStack svc) →
      m.memory.cellsFrom m.sp = stack ∧
      ∀ x, m.moment? = some x → x.pops = true →
        ∃ top rest, stack = top :: rest ∧
          (∀ r, x.fetched.instr = .register .pop r → (m.advance svc).registers.read r = top) ∧
          (x.fetched.instr = .bare .ret → (m.advance svc).pc = top)) := by
  intro start m past stack
  have hdepth : m.sp.toNat + past.countP (·.pushed?.isSome) = 0xFFFF + past.countP Moment.pops :=
    depth_after svc n start
  refine ⟨by omega, fun f hlive hf => keepsBounds_of_fetch hlive hf, fun hspares => ?_⟩
  have hbare : start.memory.cellsFrom start.sp = [] := start.memory.cellsFrom_noMemory
  have hcells : m.memory.cellsFrom m.sp = stack := by
    rw [cellsFrom_after svc n start hspares, hbare]
  refine ⟨hcells, fun x hx hpops => ?_⟩
  cases moves_of_moment? svc hx with
  | pop _ _ hempty _ _ hpop hret =>
    rw [Memory.cellsFrom_of_ne _ hempty] at hcells
    exact ⟨_, _, hcells.symm, hpop, hret⟩
  | push _ h _ _ _ => cases h.symm.trans hpops
  | keep _ h _ _ => cases h.symm.trans hpops

end Machine

end Comet
