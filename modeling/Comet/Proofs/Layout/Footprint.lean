import Comet.Assembly.Form
import Comet.Proofs.Except

/-!
# Footprints

The number of words that a statement takes is fixed by its mnemonic and its operands alone.

* `form?_eq_ok`: `Form.Deals` are the rules by which operands are dealt out to their roles.
* `exists_form?_iff`: that succeeds exactly when the operands are as many as the mnemonic takes and
  a storage length is a length (`Statement.Shaped`).
* `size?_of_form?`: the size of a form fits an image, except that constants may be too many.
* `size?_eq_ok`: the size of a shaped statement is what `Statement.footprint` reads off its
  operands, provided that it fits an image.
-/

namespace Comet

theorem eq_toList_of_length_le {α : Type} {as : List α} (h : as.length ≤ 1) :
    ∃ a : Option α, as = a.toList := by
  match as, h with
  | [], _ => exact ⟨none, rfl⟩
  | [a], _ => exact ⟨some a, rfl⟩

theorem find?_of_countP_le_one {α : Type} {p : α → Bool} {as : List α} {a : α}
    (hcount : as.countP p ≤ 1) (ha : a ∈ as) (hp : p a = true) : as.find? p = some a := by
  have hmem : a ∈ as.filter p := List.mem_filter.2 ⟨ha, hp⟩
  rw [List.countP_eq_length_filter] at hcount
  rw [← List.head?_filter]
  obtain ⟨_ | b, hb⟩ := eq_toList_of_length_le hcount
  · rw [hb] at hmem; cases hmem
  · rw [hb] at hmem ⊢
    rw [List.mem_singleton.1 hmem]; rfl

/-- Where at most one item satisfies `p`, it is the one that is found. -/
theorem findIdx?_eq_some_iff_of_countP_le_one {α : Type} {p : α → Bool} {as : List α} {i : Nat}
    (h : as.countP p ≤ 1) : as.findIdx? p = some i ↔ ∃ a, as[i]? = some a ∧ p a = true := by
  induction as generalizing i with
  | nil => simp
  | cons a as ih =>
    rw [List.countP_cons] at h
    rw [List.findIdx?_cons]
    by_cases ha : p a = true
    · rw [if_pos ha] at h
      have hnone : ∀ b ∈ as, ¬p b = true := List.countP_eq_zero.1 (by omega)
      rw [if_pos ha]
      cases i with
      | zero => simp [ha]
      | succ i =>
        simp only [Option.some.injEq, List.getElem?_cons_succ]
        refine iff_of_false (by omega) fun ⟨b, hb, hpb⟩ => ?_
        exact hnone b (List.mem_of_getElem? hb) hpb
    · rw [if_neg ha] at h ⊢
      cases i with
      | zero => simp [ha]
      | succ i => simpa using ih h

/-- How the operands of a mnemonic are dealt out. -/
inductive Form.Deals : Mnemonic → List Arg → Form → Prop
  | twoForm (op : TwoFormOp) (r second : Arg) (index : Option Arg) :
      Deals (.machine (.twoForm op)) (r :: second :: index.toList) (.twoForm op r second index)
  | registerAddress (op : RegisterAddressOp) (r address : Arg) (index : Option Arg) :
      Deals (.machine (.registerAddress op)) (r :: address :: index.toList)
        (.registerAddress op r address index)
  | address (op : AddressOp) (address : Arg) (index : Option Arg) :
      Deals (.machine (.address op)) (address :: index.toList) (.address op address index)
  | register (op : RegisterOp) (r : Arg) : Deals (.machine (.register op)) [r] (.register op r)
  | bare (op : BareOp) : Deals (.machine (.bare op)) [] (.bare op)
  | start (entry : Option Arg) : Deals (.directive .start) entry.toList (.start entry)
  | finish : Deals (.directive .finish) [] .finish
  | storage (length : Arg) (n : Int) : length.operand = .integer n → 0 ≤ n →
      Deals (.directive .storage) [length] (.storage n.toNat)
  | constants (arg : Arg) (args : List Arg) :
      Deals (.directive .constant) (arg :: args) (.constants (arg :: args))

/-- A storage length is in range, so it keeps its value in a word. -/
theorem Form.Deals.storage_le {m : Mnemonic} {args : List Arg} {length : Nat}
    (h : Deals m args (.storage length)) : length ≤ 0xFFFF := by
  cases h with
  | storage arg n hn hpos =>
    have hrange := arg.inRange n hn
    omega

namespace Statement

/-- The words that a statement takes: as many as its storage length, one for each character or
other constant, else what its mnemonic takes. -/
def footprint (s : Statement) : Nat :=
  match s.mnemonic, s.args with
  | .directive .storage, [length] =>
    match length.operand with
    | .integer n => n.toNat
    | _ => 0
  | .directive .constant, args => (args.map Arg.constantSize).sum
  | mnemonic, _ => mnemonic.leastWords

/-- The operands of a statement have the right number, and a storage length is a length. -/
structure Shaped (s : Statement) : Prop where
  count : s.mnemonic.arity.admits s.args.length = true
  length : s.mnemonic = .directive .storage →
    ∀ arg ∈ s.args, ∃ n : Int, 0 ≤ n ∧ arg.operand = .integer n

theorem storageLength?_eq_ok {s : Statement} {arg : Arg} {length : Nat} :
    s.storageLength? arg = .ok length ↔
      ∃ n : Int, arg.operand = .integer n ∧ 0 ≤ n ∧ n.toNat = length := by
  unfold storageLength?
  cases arg.operand with
  | integer n => by_cases hn : 0 ≤ n <;> simp [hn]
  | _ => simp

theorem form?_storage {s : Statement} {arg : Arg} (hm : s.mnemonic = .directive .storage)
    (hargs : s.args = [arg]) : s.form? = (s.storageLength? arg).map .storage := by
  unfold form?
  rw [hm, hargs]

theorem form?_eq_ok {s : Statement} {form : Form} :
    s.form? = .ok form ↔ Form.Deals s.mnemonic s.args form := by
  obtain ⟨label, mnemonic, span, args, line, source⟩ := s
  constructor
  · intro h
    unfold form? at h
    split at h
    case h_12 =>
      rename_i hm ha
      cases hl : storageLength? _ _ with
      | error e => rw [hl] at h; cases h
      | ok n =>
        rw [hl] at h
        cases h
        obtain ⟨i, hi, hpos, rfl⟩ := storageLength?_eq_ok.1 hl
        rw [hm, ha]
        exact .storage _ i hi hpos
    all_goals cases h
    all_goals rename_i hm ha; rw [hm, ha]
    · exact .twoForm _ _ _ none
    · exact .twoForm _ _ _ (some _)
    · exact .registerAddress _ _ _ none
    · exact .registerAddress _ _ _ (some _)
    · exact .address _ _ none
    · exact .address _ _ (some _)
    · exact .register _ _
    · exact .bare _
    · exact .start none
    · exact .start (some _)
    · exact .finish
    · exact .constants _ _
  · intro h
    cases h with
    | twoForm op r second index => cases index <;> rfl
    | registerAddress op r address index => cases index <;> rfl
    | address op address index => cases index <;> rfl
    | start entry => cases entry <;> rfl
    | storage arg n hn hpos =>
      show (storageLength? _ arg).map Form.storage = _
      rw [storageLength?_eq_ok.2 ⟨n, hn, hpos, rfl⟩]; rfl
    | _ => rfl

/-- **The operands can be dealt out exactly when the statement is shaped.** -/
theorem exists_form?_iff (s : Statement) : (∃ form, s.form? = .ok form) ↔ s.Shaped := by
  simp only [form?_eq_ok]
  obtain ⟨label, mnemonic, span, args, line, source⟩ := s
  constructor
  · intro h
    obtain ⟨form, h⟩ := h
    refine ⟨?_, fun hm arg harg => ?_⟩
    · cases h with
      | twoForm op r second index => cases index <;> rfl
      | registerAddress op r address index => cases index <;> rfl
      | address op address index => cases index <;> rfl
      | start entry => cases entry <;> rfl
      | constants arg args => simp [Mnemonic.arity, Arity.admits]
      | _ => rfl
    · subst hm
      cases h with
      | storage length n hn hpos =>
        rw [List.mem_singleton.1 harg]
        exact ⟨n, hpos, hn⟩
  · intro h
    obtain ⟨hcount, hlength⟩ := h
    simp only at hcount hlength
    match mnemonic, args, hcount with
    | .machine (.twoForm op), r :: second :: rest, hcount =>
      obtain ⟨index, rfl⟩ := eq_toList_of_length_le (show rest.length ≤ 1 by
        simp [Mnemonic.arity, Arity.admits] at hcount; omega)
      exact ⟨_, .twoForm op r second index⟩
    | .machine (.registerAddress op), r :: address :: rest, hcount =>
      obtain ⟨index, rfl⟩ := eq_toList_of_length_le (show rest.length ≤ 1 by
        simp [Mnemonic.arity, Arity.admits] at hcount; omega)
      exact ⟨_, .registerAddress op r address index⟩
    | .machine (.address op), address :: rest, hcount =>
      obtain ⟨index, rfl⟩ := eq_toList_of_length_le (show rest.length ≤ 1 by
        simp [Mnemonic.arity, Arity.admits] at hcount; omega)
      exact ⟨_, .address op address index⟩
    | .machine (.register op), [r], _ => exact ⟨_, .register op r⟩
    | .machine (.bare op), [], _ => exact ⟨_, .bare op⟩
    | .directive .start, args, hcount =>
      obtain ⟨entry, rfl⟩ := eq_toList_of_length_le (show args.length ≤ 1 by
        simp [Mnemonic.arity, Arity.admits] at hcount; omega)
      exact ⟨_, .start entry⟩
    | .directive .finish, [], _ => exact ⟨_, .finish⟩
    | .directive .storage, [length], _ =>
      obtain ⟨n, hpos, hn⟩ := hlength rfl length (by simp)
      exact ⟨_, .storage length n hn hpos⟩
    | .directive .constant, arg :: args, _ => exact ⟨_, .constants arg args⟩

theorem foldl_constantSize (args : List Arg) (total : Nat) :
    args.foldl (fun total arg => total + arg.constantSize) total =
      total + (args.map Arg.constantSize).sum := by
  induction args generalizing total with
  | nil => rfl
  | cons arg args ih => rw [List.foldl_cons, ih, List.map_cons, List.sum_cons, Nat.add_assoc]

/-- A form takes as many words as its statement. -/
theorem size_of_form? {s : Statement} {form : Form} (h : s.form? = .ok form) :
    form.size = s.footprint := by
  rw [form?_eq_ok] at h
  obtain ⟨label, mnemonic, span, args, line, source⟩ := s
  cases h with
  | storage length n hn hpos => simp [Form.size, footprint, hn]
  | constants arg args => rw [Form.size, foldl_constantSize, Nat.zero_add]; rfl
  | _ => rfl

/-- Only constants can be too many for an image. -/
theorem size?_of_form? {s : Statement} {form : Form} (h : s.form? = .ok form) :
    s.size? = if form.size ≤ 0xFFFF then .ok form.size
      else .error (s.malformed .tooManyConstants) := by
  unfold size?
  rw [h]
  cases form with
  | storage length => exact (if_pos (form?_eq_ok.1 h).storage_le).symm
  | constants args => rfl
  | _ => rfl

/-- **The size of a statement** is its footprint, if it is shaped and fits an image. -/
theorem size?_eq_ok {s : Statement} {size : Nat} :
    s.size? = .ok size ↔ s.Shaped ∧ s.footprint ≤ 0xFFFF ∧ s.footprint = size := by
  rw [← exists_form?_iff]
  cases hf : s.form? with
  | error e => simp [size?, hf]
  | ok form =>
    simp only [size?_of_form? hf, size_of_form? hf]
    by_cases hfit : s.footprint ≤ 0xFFFF <;> simp [hfit]

end Statement

end Comet
