import Comet.Proofs.Machine.AddressSpace
import Comet.Proofs.Machine.FaultConditions
import Comet.Proofs.Machine.Tracing

/-!
# Supervisor calls

What a supervisor is called with, when, and what comes of it, over all that a host may tell a
machine to do.

* `Supervisor.recording`: the supervisor with a log of the calls it receives. `advance_forget`,
  `run_forget`: the log does not show in what the machine does.
* `obeyAll_executes`: steps and runs one after another are a single execution, after which nothing
  but the status changes.
* `Executes.calls_eq`, `Executes.trace_eq`: along an execution the log takes the calls of its
  history, and the trace its entries.
* `Serves`, `serves_of_upcoming`: what one call changes, and what it cannot change.
* `calls_are_executed_supervisor_instructions`: all of it together.
-/

namespace Comet

variable {σ : Type}

/-- A state of a host, and a log of the calls it has received: the code of each, what it was handed
and the state it was in. -/
abbrev Logged (σ : Type) := σ × List (Word × HostView × σ)

/-- The supervisor, which logs its calls. -/
def Supervisor.recording (svc : Supervisor σ) : Supervisor (Logged σ) :=
  fun code view (host, log) =>
    let (changed, host') := svc code view host
    (changed, host', log ++ [(code, view, host)])

/-- The code of a supervisor call. -/
def Effect.code? : Effect → Option Word
  | supervisor code => some code
  | _ => none

theorem Moment.code_call? (x : Moment σ) : x.call?.map (·.1) = x.effect.code? := by
  obtain ⟨m, f, e⟩ := x
  cases e <;> rfl

namespace Machine

/-- What a host tells a machine to do. -/
inductive Command
  | step
  | run (limit : Nat)

/-- The machine after it has done what it was told, whether that ends well or by a fault. -/
def obey (svc : Supervisor σ) (m : Machine σ) : Command → Machine σ
  | .step => m.advance svc
  | .run limit => finalState (m.run svc limit)

def obeyAll (svc : Supervisor σ) (m : Machine σ) (commands : List Command) : Machine σ :=
  commands.foldl (obey svc) m

/-- The machine without the log of its supervisor. -/
def forget (m : Machine (Logged σ)) : Machine σ := m.withHost m.host.1

variable {svc : Supervisor σ} {m m' m₁ : Machine σ} {k j limit left : Nat}

/-! ## The log does not show -/

section Forget

variable {m m' : Machine (Logged σ)}

theorem Live.forget (h : m.Live) : m.forget.Live := ⟨h.running, h.inside⟩

theorem commit_forget (m : Machine (Logged σ)) (f : Fetched) (e : Effect) :
    (m.commit svc.recording f e).forget = m.forget.commit svc f e := by
  cases e <;> rfl

/-- A call is logged as what it is. -/
theorem log_commit (m : Machine (Logged σ)) (f : Fetched) (e : Effect) :
    (m.commit svc.recording f e).host.2 =
      m.host.2 ++ (Moment.call? ⟨m.forget, f, e⟩).toList := by
  cases e with
  | supervisor code => rfl
  | _ => exact (List.append_nil _).symm

theorem Executes.forget (h : Executes svc.recording m k m') :
    Executes svc m.forget k m'.forget := by
  induction h with
  | refl => exact .refl
  | snoc h hlive hu ih =>
    rw [commit_forget]
    exact ih.snoc hlive.forget hu

/-- **The log of an execution** takes the calls of its history. -/
theorem Executes.calls_eq (h : Executes svc.recording m k m') :
    m'.host.2 = m.host.2 ++ (m.forget.history svc k).filterMap Moment.call? := by
  induction h with
  | refl => exact (List.append_nil _).symm
  | @snoc k m' f e h hlive hu ih =>
    have hmoment := h.forget.moment?_eq hlive.forget hu
    rw [log_commit, ih, history_succ, hmoment, List.filterMap_append, List.append_assoc]
    rfl

theorem advance_forget (svc : Supervisor σ) (m : Machine (Logged σ)) :
    (m.advance svc.recording).forget = m.forget.advance svc := by
  simp only [advance]
  rcases step_cases svc.recording m with
    ⟨hs, h⟩ | ⟨hs, hp, h⟩ | ⟨hlive, fault, hu, h⟩ | ⟨hlive, f, e, hu, h⟩
  · have hstep : m.forget.step svc = .ok m.forget := if_pos hs
    rw [h, hstep]
    rfl
  · have hstep : m.forget.step svc = .ok { m.forget with status := .halted } :=
      (if_neg (not_not.2 hs)).trans (if_pos hp)
    rw [h, hstep]
    rfl
  · rw [h, hlive.forget.step_error hu]
    rfl
  · rw [h, hlive.forget.step_ok hu]
    exact commit_forget m f e

/-- The outcome of a run without the log in its machine. -/
def forgotten : Except (Stopped (Logged σ)) (Machine (Logged σ)) → Except (Stopped σ) (Machine σ)
  | .ok m => .ok m.forget
  | .error stopped => .error ⟨stopped.fault, stopped.machine.forget⟩

theorem Ends.forget {result} (h : Ends svc.recording limit left m result) :
    Ends svc limit left m.forget (forgotten result) := by
  cases h with
  | stopped hs => exact .stopped hs
  | outside hs hp => exact .outside hs hp
  | limited hlive hleft => exact .limited hlive.forget hleft
  | faulted hlive hleft hstep =>
    obtain ⟨-, fault, hu, rfl⟩ := step_eq_error.1 hstep
    exact .faulted hlive.forget hleft (hlive.forget.step_error hu)

theorem run_forget (svc : Supervisor σ) (limit : Nat) (m : Machine (Logged σ)) :
    m.forget.run svc limit = forgotten (m.run svc.recording limit) := by
  obtain ⟨k, m', hk, hx, he⟩ := run_ends svc.recording limit m
  exact Ends.run_eq (m := m.forget) he.forget hx.forget hk

theorem obey_forget (svc : Supervisor σ) (m : Machine (Logged σ)) (c : Command) :
    (m.obey svc.recording c).forget = m.forget.obey svc c := by
  cases c with
  | step => exact advance_forget svc m
  | run limit =>
    rw [obey, obey, run_forget]
    cases m.run svc.recording limit <;> rfl

theorem obeyAll_forget (svc : Supervisor σ) (commands : List Command) (m : Machine (Logged σ)) :
    (m.obeyAll svc.recording commands).forget = m.forget.obeyAll svc commands := by
  induction commands generalizing m with
  | nil => rfl
  | cons c commands ih =>
    rw [obeyAll, obeyAll, List.foldl_cons, List.foldl_cons, ← obey_forget]
    exact ih _

end Forget

/-! ## Steps and runs, one after another -/

theorem Executes.trans (h : Executes svc m k m₁) (h' : Executes svc m₁ j m') :
    Executes svc m (k + j) m' := by
  induction h' with
  | refl => exact h
  | snoc _ hlive hu ih => exact ih.snoc hlive hu

/-- A machine that has stopped does nothing that it is told. -/
theorem obey_of_stopped (h : m.status ≠ .running) (c : Command) : m.obey svc c = m := by
  cases c with
  | step =>
    have hstep : m.step svc = .ok m := if_pos h
    rw [obey, advance, hstep, finalState]
  | run limit =>
    have hrun : m.run svc limit = .ok m := Ends.run_eq (.stopped h) .refl (Nat.zero_le _)
    rw [obey, hrun, finalState]

/-- Where a run ends, the machine may stop. -/
theorem Ends.finalState_eq {result} (h : Ends svc limit left m result) :
    ∃ status, (status ≠ .running ∨ status = m.status) ∧ finalState result = { m with status } := by
  cases h with
  | stopped hs => exact ⟨m.status, .inr rfl, rfl⟩
  | outside _ _ => exact ⟨.halted, .inl (by decide), rfl⟩
  | limited _ _ => exact ⟨.faulted, .inl (by decide), rfl⟩
  | faulted _ _ hstep =>
    obtain ⟨-, fault, -, rfl⟩ := step_eq_error.1 hstep
    exact ⟨.faulted, .inl (by decide), rfl⟩

/-- What the machine does is an execution, at whose end it may stop. -/
theorem obey_executes (svc : Supervisor σ) (m : Machine σ) (c : Command) :
    ∃ k m' status, Executes svc m k m' ∧ (status ≠ .running ∨ status = m'.status) ∧
      m.obey svc c = { m' with status } := by
  cases c with
  | step =>
    simp only [obey, advance]
    rcases step_cases svc m with ⟨hs, h⟩ | ⟨-, -, h⟩ | ⟨-, fault, -, h⟩ | ⟨hlive, f, e, hu, h⟩
    · exact ⟨0, m, m.status, .refl, .inr rfl, by rw [h]; rfl⟩
    · exact ⟨0, m, .halted, .refl, .inl (by decide), by rw [h]; rfl⟩
    · exact ⟨0, m, .faulted, .refl, .inl (by decide), by rw [h]; rfl⟩
    · exact ⟨1, _, _, .snoc .refl hlive hu, .inr rfl, by rw [h]; rfl⟩
  | run limit =>
    obtain ⟨k, m', -, hx, he⟩ := run_ends svc limit m
    obtain ⟨status, hstatus, heq⟩ := he.finalState_eq
    exact ⟨k, m', status, hx, hstatus, heq⟩

/-- **Steps and runs one after another** are one execution, at whose end the machine may stop. -/
theorem obeyAll_executes (svc : Supervisor σ) (m : Machine σ) (commands : List Command) :
    ∃ k m' status, Executes svc m k m' ∧ (status ≠ .running ∨ status = m'.status) ∧
      m.obeyAll svc commands = { m' with status } := by
  induction commands using List.reverseRecOn with
  | nil => exact ⟨0, m, m.status, .refl, .inr rfl, rfl⟩
  | append_singleton commands c ih =>
    obtain ⟨k, m', status, hx, hstatus, heq⟩ := ih
    have hlast : m.obeyAll svc (commands ++ [c]) = ({ m' with status } : Machine σ).obey svc c := by
      rw [← heq, obeyAll, List.foldl_append]
      rfl
    rw [hlast]
    rcases hstatus with hstopped | rfl
    · exact ⟨k, m', status, hx, .inl hstopped, obey_of_stopped hstopped c⟩
    · obtain ⟨j, m₂, status, hx', hstatus, heq'⟩ := obey_executes svc m' c
      exact ⟨k + j, m₂, status, hx.trans hx', hstatus, heq'⟩

/-! ## The trace -/

/-- **The trace of an execution** takes the entries of its history. -/
theorem Executes.trace_eq (h : Executes svc m k m') :
    m'.trace = m.trace.map (· ++ ((m.history svc k).map (Moment.entry svc)).toArray) := by
  have htraced := h.withRecord m.trace
  have heq := h.after_eq.symm.trans htraced.after_eq
  rw [heq]
  rfl

/-- The instructions of an execution are those of its steps, one by one. -/
theorem Executes.getElem?_history (h : Executes svc m k m') {i : Nat} (hi : i < k) :
    (m.history svc k)[i]? = (m.after svc i).moment? := by
  induction h with
  | refl => exact absurd hi (Nat.not_lt_zero i)
  | @snoc k m' f e h hlive hu ih =>
    rw [history_succ]
    rcases Nat.lt_succ_iff_lt_or_eq.1 hi with hi | rfl
    · rw [List.getElem?_append_left (hi.trans_eq h.length_history.symm), ih hi]
    · rw [List.getElem?_append_right (Nat.le_of_eq h.length_history), h.length_history,
        Nat.sub_self, h.moment?_eq hlive hu]
      rfl

/-! ## One call -/

/-- The entry is of a supervisor call with this code, which leads from one machine to the other. -/
structure Serves (svc : Supervisor σ) (e : TraceEntry) (code : Word) (m m' : Machine σ) : Prop where
  address : e.address = m.pc
  word : e.word = m.word
  high : e.word.high = 0x90
  /-- The code is the address word plus the index register. -/
  operand : e.operand = some m.addressWord
  index : m.word.lowerField ≤ 7
  code_eq : code = m.effectiveAddress
  /-- The host is handed the registers and all memory there is, and what it makes of them stands. -/
  answer : (⟨m'.registers, m'.memory.unsnoc.1⟩, m'.host) =
    svc code ⟨m.registers, m.memory.unsnoc.1⟩ m.host
  last : m'.memory.read 0xFFFF = m.memory.read 0xFFFF
  sp : m'.sp = m.sp
  pc : m'.pc = e.address + 2
  flags : m'.flags = m.flags
  status : m'.status = m.status
  steps : m'.steps = m.steps + 1
  stop : m'.stop = m.stop

/-- Only SVC calls the supervisor, and does so with its effective address. -/
theorem eq_of_effect_supervisor {next code : Word} {i : Instr}
    (h : m.effect next i = .ok (.supervisor code)) :
    ∃ a, i = .address .supervisor a ∧ code = m.registers.effective a := by
  rcases i with ⟨op, r, source⟩ | ⟨op, r, a⟩ | ⟨op, a⟩ | ⟨op, r⟩ | ⟨op⟩
  case address =>
    cases op with
    | supervisor => exact ⟨a, rfl, (Effect.supervisor.inj (Except.ok.inj h)).symm⟩
    | jump condition => cases h
    | push | call =>
      simp only [effect, guarded] at h
      split at h <;> cases h
  case twoForm => cases op <;> simp [effect] at h
  case registerAddress =>
    cases op <;> simp only [effect, guarded] at h
    · split at h <;> cases h
    · cases h
  case register => cases op; simp [effect] at h
  case bare =>
    cases op <;> simp only [effect] at h
    · cases h
    · split at h
      · cases h
      · simp at h
    · cases h

theorem opcode_eq_supervisor_iff {next : Word} {i : Instr} {e : Effect}
    (h : m.effect next i = .ok e) :
    i.opcode = .address .supervisor ↔ ∃ code, e = .supervisor code := by
  constructor
  · intro hop
    rcases i with _ | _ | ⟨op, a⟩ | _ | _ <;> cases hop
    exact ⟨_, (Except.ok.inj h).symm⟩
  · rintro ⟨code, rfl⟩
    obtain ⟨a, rfl, -⟩ := eq_of_effect_supervisor h
    rfl

/-- **A supervisor call** gets what the instructions and the calls before it have left, changes
nothing but registers, memory and the state of the host, and what it has changed stays for the
instructions and the calls after it. -/
theorem serves_of_upcoming (svc : Supervisor σ) {f : Fetched} {code : Word}
    (hu : m.upcoming = .ok (f, .supervisor code)) :
    Serves svc (Moment.entry svc ⟨m, f, .supervisor code⟩) code m
      (m.commit svc f (.supervisor code)) := by
  obtain ⟨hf, he⟩ := upcoming_eq_ok.1 hu
  obtain ⟨a, hi, rfl⟩ := eq_of_effect_supervisor he
  have hop : f.instr.opcode = .address .supervisor := congrArg Instr.opcode hi
  obtain ⟨haddress, -, hword, hcode, hoperand, hwords⟩ := fetch_eq_ok.1 hf
  rw [hop] at hcode hoperand hwords
  have hoperand : f.operand = some m.addressWord := fetchOperand_eq_ok hoperand
  rw [hoperand, hi] at hwords
  obtain ⟨x, hx, hwords⟩ := bind_eq_ok.1 hwords
  obtain rfl : a = ⟨m.addressWord, x⟩ := (Instr.address.inj (Except.ok.inj hwords)).2.symm
  have hword : f.word = m.word := hword
  have hfield : m.word.lowerField = x.val := hword ▸ Instr.fieldReg_eq_ok.1 hx
  exact {
    address := haddress
    word := hword
    high := (Opcode.code_of_ofCode? hcode).symm
    operand := hoperand
    index := by omega
    code_eq := effective_eq hfield
    answer := by simp [commit, perform, callSupervisor, Memory.unsnoc]
    last := read_noMemory_callSupervisor svc _ m
    sp := rfl
    pc := by
      show f.next = f.address + 2
      rw [next_of_fetch hf, hop]
      rfl
    flags := rfl
    status := rfl
    steps := rfl
    stop := rfl }

/-- Of the entries of an execution, those of SVC are of supervisor calls, each at its step. -/
theorem Executes.serves (h : Executes svc m k m') {i : Nat} {e : TraceEntry}
    (he : ((m.history svc k).map (Moment.entry svc))[i]? = some e) :
    (e.opcode = .address .supervisor ↔ ∃ code, e.effect = .supervisor code) ∧
    ∀ code, e.effect = .supervisor code →
      Serves svc e code (m.after svc i) (m.after svc (i + 1)) := by
  rw [List.getElem?_map, Option.map_eq_some_iff] at he
  obtain ⟨x, hx, rfl⟩ := he
  have hi : i < k := (List.getElem?_eq_some_iff.1 hx).1.trans_eq h.length_history
  rw [h.getElem?_history hi] at hx
  obtain ⟨-, hmachine, hu⟩ := moment?_eq_some.1 hx
  refine ⟨opcode_eq_supervisor_iff (upcoming_eq_ok.1 hu).2, fun code hcode => ?_⟩
  obtain ⟨m₁, f, e⟩ := x
  obtain rfl : e = .supervisor code := hcode
  subst hmachine
  rw [after_succ, advance_of_moment? hx]
  exact serves_of_upcoming svc hu

/-! ## All calls -/

/-- **The supervisor is called by the executed SVC instructions**, and by nothing else. Whatever it
is, and however a host steps and runs a loaded image: a log of its calls does not show, and has the
codes of the trace, each with what the instructions and calls before it have left. What such an
instruction changes is said by `Serves`. A step that faults makes no call, nor does a machine that
has stopped. -/
theorem calls_are_executed_supervisor_instructions (svc : Supervisor σ) (image : Image)
    (entry : Word) (registers : Registers) (host : σ) (commands : List Command) :
    let start : Machine σ := { ((load image host).withEntry entry).withTrace with registers }
    let final := start.obeyAll svc commands
    let observed := (start.withHost (host, [])).obeyAll svc.recording commands
    let calls := observed.host.2
    observed.forget = final ∧
    calls.map (·.1) = final.entries.toList.filterMap (·.effect.code?) ∧
    calls = (start.history svc final.steps).filterMap Moment.call? ∧
    (∀ (i : Nat) e, final.entries[i]? = some e →
      (e.opcode = .address .supervisor ↔ ∃ code, e.effect = .supervisor code) ∧
      ∀ code, e.effect = .supervisor code →
        Serves svc e code (start.after svc i) (start.after svc (i + 1))) ∧
    (∀ (m : Machine (Logged σ)) stopped,
      m.step svc.recording = .error stopped → stopped.machine.host = m.host) ∧
    ∀ (m : Machine (Logged σ)) c, m.status ≠ .running → m.obey svc.recording c = m := by
  intro start final observed calls
  have hforget : observed.forget = final := obeyAll_forget svc commands _
  obtain ⟨k, m, status, hx, -, hobserved⟩ :=
    obeyAll_executes svc.recording (start.withHost (host, [])) commands
  have hobserved : observed = { m with status } := hobserved
  have hplain : Executes svc start k m.forget := hx.forget
  have hfinal : final = { m.forget with status } := by rw [← hforget, hobserved]; rfl
  have hsteps : final.steps = k := by
    rw [hfinal]
    exact hplain.steps_eq.trans (Nat.zero_add k)
  have hcalls : calls = (start.history svc k).filterMap Moment.call? := by
    have hlog : calls = m.host.2 := by
      show observed.host.2 = _
      rw [hobserved]
    rw [hlog, hx.calls_eq]
    rfl
  have hentries : final.entries = ((start.history svc k).map (Moment.entry svc)).toArray := by
    have htrace : final.trace = m.forget.trace := by rw [hfinal]
    rw [entries, htrace, hplain.trace_eq]
    exact Array.empty_append
  refine ⟨hforget, ?_, by rw [hsteps, hcalls], fun i e he => ?_, fun m stopped hm => ?_,
    fun m c h => obey_of_stopped h c⟩
  · rw [hcalls, hentries, List.map_filterMap, List.toList_toArray, List.filterMap_map]
    exact List.filterMap_congr fun x _ => x.code_call?
  · rw [hentries, List.getElem?_toArray] at he
    exact hplain.serves he
  · obtain ⟨-, fault, -, rfl⟩ := step_eq_error.1 hm
    rfl

end Machine

end Comet
