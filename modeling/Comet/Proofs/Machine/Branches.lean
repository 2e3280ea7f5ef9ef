import Comet.Proofs.Machine.History
import Comet.Proofs.Machine.IntegerArithmetic
import Comet.Proofs.Machine.Reachable

/-!
# Conditional branches

What the host and the instructions make of the flags, and what that means for branches.

* `consistent_flags`: a reachable machine never has its sign and its zero flag set together, because
  whatever sets the flags sets at most one of the two (`Flags.consistent_ofResult`,
  `Flags.consistent_ofOrdering`).
* `flags_commit`, `flags_after`: an instruction that is none of those leaves all flags alone, and so
  do any number of them.
* `Machine.Takes`: a branch would be taken. `step_branch`: and so it is when it is executed.
* `branches_trichotomous`: of JPL, JMI and JZE exactly one is taken, and after a comparison the one
  that says how the words compare.
-/

namespace Comet

/-! ## Flags -/

namespace Flags

/-- Nothing is less than zero and zero at once. -/
def Consistent (f : Flags) : Prop := ¬(f.sign = true ∧ f.zero = true)

theorem consistent_ofResult (value : Word) (overflow : Bool) :
    (ofResult value overflow).Consistent := by
  rintro ⟨hsign, hzero⟩
  obtain rfl : value = 0 := beq_iff_eq.1 hzero
  have hpositive : Word.negative 0 = false := by decide
  cases hpositive.symm.trans hsign

theorem consistent_ofOrdering (order : Ordering) : (ofOrdering order).Consistent := by
  rintro ⟨hsign, hzero⟩
  have hless : order = .lt := beq_iff_eq.1 hsign
  have hequal : order = .eq := beq_iff_eq.1 hzero
  cases hless.symm.trans hequal

/-- Of these three conditions exactly one holds. -/
theorem Consistent.existsUnique_holds {f : Flags} (h : f.Consistent) :
    ∃! condition, condition ∈ [Condition.plus, .minus, .zero] ∧ condition.holds f = true := by
  simp only [List.mem_cons, List.not_mem_nil, or_false]
  obtain ⟨overflow, sign, zero⟩ := f
  cases sign with
  | true =>
    obtain rfl : zero = false := Bool.eq_false_iff.2 fun hzero => h ⟨rfl, hzero⟩
    refine ⟨.minus, ⟨.inr (.inl rfl), rfl⟩, ?_⟩
    rintro _ ⟨rfl | rfl | rfl, hholds⟩
    · cases hholds
    · rfl
    · cases hholds
  | false =>
    cases zero with
    | true =>
      refine ⟨.zero, ⟨.inr (.inr rfl), rfl⟩, ?_⟩
      rintro _ ⟨rfl | rfl | rfl, hholds⟩
      · cases hholds
      · cases hholds
      · rfl
    | false =>
      refine ⟨.plus, ⟨.inl rfl, rfl⟩, ?_⟩
      rintro _ ⟨rfl | rfl | rfl, hholds⟩
      · rfl
      · cases hholds
      · cases hholds

end Flags

/-- The instruction leaves the flags as they are: ST, PUSH, POP, CALL, RET, SVC, NOP, HALT or a
branch. -/
def Opcode.keepsFlags : Opcode → Bool
  | twoForm _ | registerAddress .loadAddress => false
  | registerAddress .store | address _ | register _ | bare _ => true

namespace Machine

variable {σ : Type} {svc : Supervisor σ} {m m' : Machine σ} {image : Image}

theorem consistent_perform (svc : Supervisor σ) (next : Word) (e : Effect)
    (h : m.flags.Consistent) : (m.perform svc next e).flags.Consistent := by
  cases e with
  | result r value overflow => exact Flags.consistent_ofResult value overflow
  | compare order => exact Flags.consistent_ofOrdering order
  | _ => exact h

/-- **The sign and the zero flag** are never both set. -/
theorem consistent_flags (h : Reachable image svc m) : m.flags.Consistent := by
  refine h.invariant (P := fun m => m.flags.Consistent) ?_ ?_ ?_ ?_ ?_ ?_ ?_
  · exact fun _ hflags => absurd hflags.1 Bool.false_ne_true
  · exact fun svc _ f e h _ _ => consistent_perform svc f.next e h
  · exact fun _ h => h
  · exact fun _ _ h => h
  · exact fun _ h => h
  · exact fun h => h
  · exact fun _ h => h

/-! ## Instructions that keep the flags -/

theorem flags_perform {next next' : Word} {i : Instr} {e : Effect} (he : m.effect next i = .ok e)
    (hkeeps : i.opcode.keepsFlags = true) : (m.perform svc next' e).flags = m.flags := by
  rcases i with ⟨op, r, source⟩ | ⟨op, r, a⟩ | ⟨op, a⟩ | ⟨op, r⟩ | ⟨op⟩
  case twoForm => cases hkeeps
  case registerAddress =>
    cases op with
    | loadAddress => cases hkeeps
    | store =>
      simp only [effect, guarded] at he
      split at he <;> cases he
      rfl
  case address =>
    cases op with
    | jump condition => cases he; rfl
    | supervisor => cases he; rfl
    | push | call =>
      simp only [effect, guarded] at he
      split at he <;> cases he
      rfl
  case register =>
    cases op
    simp only [effect, bind_eq_ok, pure_eq_ok] at he
    obtain ⟨value, -, rfl⟩ := he
    rfl
  case bare =>
    cases op with
    | nop | halt => cases he; rfl
    | ret =>
      simp only [effect] at he
      split at he
      · cases he; rfl
      · simp only [bind_eq_ok, pure_eq_ok] at he
        obtain ⟨target, -, rfl⟩ := he
        rfl

/-- **Along steps** whose instructions keep the flags, these stay. -/
theorem flags_after (n : Nat)
    (hkeeps : ∀ x ∈ m.history svc n, x.fetched.instr.opcode.keepsFlags = true) :
    (m.after svc n).flags = m.flags := by
  induction n with
  | zero => rfl
  | succ n ih =>
    rw [history_succ] at hkeeps
    rw [after_succ, ← ih fun x hx => hkeeps x (List.mem_append_left _ hx)]
    cases h : (m.after svc n).moment? with
    | none =>
      obtain ⟨status, hnone⟩ := advance_of_moment?_eq_none svc h
      rw [hnone]
    | some x =>
      obtain ⟨-, -, hu⟩ := moment?_eq_some.1 h
      rw [advance_of_moment? h]
      exact flags_perform (upcoming_eq_ok.1 hu).2
        (hkeeps x (List.mem_append_right _ (by simp [h])))

/-! ## Branches -/

/-- In this state a branch on the condition would be taken, wherever it stands and leads to. -/
def Takes (m : Machine σ) (condition : Condition) : Prop :=
  ∀ next a, m.effect next (.address (.jump condition) a) =
    .ok (.branch (m.registers.effective a) true)

theorem takes_iff {condition : Condition} :
    m.Takes condition ↔ condition.holds m.flags = true := by
  constructor
  · intro h
    have heffect := Except.ok.inj (h 0 ⟨0, 0⟩)
    exact (Effect.branch.inj heffect).2
  · intro h next a
    rw [effect, h]

/-- A branch that is executed goes to its target or on to the next instruction, as it would. -/
theorem step_branch {f : Fetched} {condition : Condition} {a : Address} (hlive : m.Live)
    (hf : m.fetch = .ok f) (hi : f.instr = .address (.jump condition) a) :
    ∃ m', m.step svc = .ok m' ∧ m'.flags = m.flags ∧
      (m.Takes condition → m'.pc = m.registers.effective a) ∧
      (¬m.Takes condition → m'.pc = f.next) := by
  have hu : m.upcoming =
      .ok (f, .branch (m.registers.effective a) (condition.holds m.flags)) := by
    rw [upcoming_eq_ok, hi]
    exact ⟨hf, rfl⟩
  refine ⟨_, hlive.step_ok hu, rfl, fun h => ?_, fun h => ?_⟩
  · exact if_pos (takes_iff.1 h)
  · exact if_neg (mt takes_iff.2 h)

/-- What a comparison leaves in the flags tells each of the branches how the words compare. -/
theorem takes_of_compare {order : Comparison} {a b value : Word}
    (h : Computes (.compare order) a b value m.flags) :
    (m.Takes .plus ↔ order.reading b < order.reading a) ∧
      (m.Takes .minus ↔ order.reading a < order.reading b) ∧ (m.Takes .zero ↔ a = b) := by
  have hsign : m.flags.sign = true ↔ order.reading a < order.reading b := h.sign
  have hzero : m.flags.zero = true ↔ order.reading a = order.reading b := h.zero
  simp only [takes_iff]
  refine ⟨?_, hsign, hzero.trans order.reading_inj⟩
  simp only [Condition.holds, Bool.and_eq_true, Bool.not_eq_true', Bool.eq_false_iff, ne_eq, hsign,
    hzero]
  omega

/-- **Conditional branches are a trichotomy** in every reachable state, and a comparison decides it:
as long as no other instruction sets the flags, JPL, JMI and JZE are taken exactly if the register
was greater than, less than or equal to the second operand. -/
theorem branches_trichotomous (h : Reachable image svc m) :
    ¬(m.flags.sign = true ∧ m.flags.zero = true) ∧
    (∃! condition, condition ∈ [Condition.plus, .minus, .zero] ∧ m.Takes condition) ∧
    (m.Takes .nonzero ↔ ¬m.Takes .zero) ∧
    (∀ f condition a, m.Live → m.fetch = .ok f → f.instr = .address (.jump condition) a →
      ∃ m', m.step svc = .ok m' ∧ m'.flags = m.flags ∧
        (m.Takes condition → m'.pc = m.registers.effective a) ∧
        (¬m.Takes condition → m'.pc = f.next)) ∧
    ∀ order r a b m₁ n, Operates svc (.compare order) r a b m m₁ →
      (∀ x ∈ m₁.history svc n, x.fetched.instr.opcode.keepsFlags = true) →
      ((m₁.after svc n).Takes .plus ↔ order.reading b < order.reading a) ∧
        ((m₁.after svc n).Takes .minus ↔ order.reading a < order.reading b) ∧
        ((m₁.after svc n).Takes .zero ↔ a = b) := by
  have hflags := consistent_flags h
  refine ⟨hflags, ?_, ?_, fun f condition a => step_branch,
    fun order r a b m₁ n hcompare hkeeps => ?_⟩
  · simpa only [takes_iff] using hflags.existsUnique_holds
  · rw [takes_iff, takes_iff, Condition.holds, Condition.holds, Bool.not_eq_true',
      Bool.eq_false_iff]
  · have hcomputes := hcompare.computes
    rw [← flags_after n hkeeps] at hcomputes
    exact takes_of_compare hcomputes

/-- The greatest unsigned number is compared with one, and NOP stands before the branch: JPL is
taken. As signed numbers the words compare the other way. -/
theorem branches_trichotomous_unsigned :
    let image : Image := ⟨#[0x4112, 0xFFFF, 0x0000], 0⟩
    let m : Machine Unit := ((load image ()).setRegister 1 0xFFFF).setRegister 2 1
    ∃ m₁, Reachable image .idle m ∧ Operates .idle (.compare .logical) 1 0xFFFF 1 m m₁ ∧
      (∃ x, m₁.history .idle 1 = [x] ∧ x.fetched.instr.opcode.keepsFlags = true) ∧
      (m₁.after .idle 1).Takes .plus := by
  intro image m
  have hreach : Reachable image .idle m := .setRegister 2 1 (.setRegister 1 0xFFFF (.load ()))
  have hread (address : Word) : m.memory.read address = image.words.getD address.toNat 0 :=
    Memory.read_ofWords _ _
  let f : Fetched := ⟨0, 0x4112, some 0xFFFF, .twoForm (.compare .logical) 1 (.register 2)⟩
  have hlive : m.Live := ⟨rfl, show (0 : Word) < 3 by decide⟩
  have hfetch : m.fetch = .ok f := by
    have hoperand : m.read 1 = .ok 0xFFFF := read_eq_ok.2 ⟨by decide, hread 1⟩
    have hop : Opcode.ofCode? (Word.high 0x4112) = some f.instr.opcode := rfl
    have hi : Instr.ofWords (.twoForm (.compare .logical)) 0x4112 0xFFFF = .ok f.instr := rfl
    exact fetch_eq_ok.2 ⟨rfl, show (0 : Word) ≠ noMemory by decide, (hread 0).symm, hop,
      congrArg (Except.map some) hoperand, hi⟩
  have hsupplies : m.Supplies (.compare .logical) (.register 2) 1 := .register _ 2
  have hu : m.upcoming = .ok (f, operation 1 0xFFFF 1 (.compare .logical)) :=
    hsupplies.upcoming_eq hfetch rfl
  have hcompare : Operates .idle (.compare .logical) 1 0xFFFF 1 m (m.commit .idle f _) :=
    ⟨hlive, ⟨f, _, hfetch, rfl, hsupplies⟩, rfl, hlive.step_ok hu⟩
  generalize hm₁ : m.commit .idle f (operation 1 0xFFFF 1 (.compare .logical)) = m₁ at hcompare
  have hnop : m₁.moment? = some ⟨m₁, ⟨2, 0, none, .bare .nop⟩, .idle⟩ := by
    have hword : (0 : Word) = m₁.memory.read 2 := hm₁ ▸ (hread 2).symm
    have hop : Opcode.ofCode? (Word.high 0) = some (.bare .nop) := rfl
    subst hm₁
    refine moment?_eq_some.2 ⟨⟨rfl, show (2 : Word) < 3 by decide⟩, rfl, upcoming_eq_ok.2 ⟨?_, rfl⟩⟩
    exact fetch_eq_ok.2 ⟨rfl, show (2 : Word) ≠ noMemory by decide, hword, hop, rfl, rfl⟩
  have hhistory : m₁.history .idle 1 = [⟨m₁, ⟨2, 0, none, .bare .nop⟩, .idle⟩] := by
    rw [history_succ, after_zero, hnop]
    rfl
  refine ⟨m₁, hreach, hcompare, ⟨_, hhistory, rfl⟩, ?_⟩
  have hkeeps : ∀ x ∈ m₁.history .idle 1, x.fetched.instr.opcode.keepsFlags = true := by
    rw [hhistory]
    exact List.forall_mem_singleton.2 rfl
  obtain ⟨-, -, -, -, hafter⟩ := branches_trichotomous hreach
  exact (hafter _ _ _ _ _ _ hcompare hkeeps).1.2 (by decide)

end Machine

end Comet
