import Mathlib

/-!
# Computations that may fail

When a computation in `Except` succeeds, taken apart step by step: a sequence (`bind_eq_ok`, and
`bind_eq_error` for when it fails), a mapped result (`map_eq_ok`, `map_eq_error`) and a list of
computations of the same kind (`mapM_eq_ok`).
`exists_forall₂_iff` is for a list whose items have results independently of each other.
`Fails` bounds the errors that a computation can end in, and `error?` is the one that it ends in.
-/

namespace Comet

variable {ε α β : Type}

@[simp] theorem pure_eq_ok {a b : α} : (pure a : Except ε α) = .ok b ↔ a = b := by
  simp [pure, Except.pure]

@[simp] theorem ok_bind {a : α} {f : α → Except ε β} : Except.ok a >>= f = f a := rfl

@[simp] theorem error_bind {e : ε} {f : α → Except ε β} :
    (Except.error e >>= f) = .error e := rfl

@[simp] theorem bind_eq_ok {x : Except ε α} {f : α → Except ε β} {b : β} :
    x >>= f = .ok b ↔ ∃ a, x = .ok a ∧ f a = .ok b := by
  cases x <;> simp [bind, Except.bind]

theorem bind_eq_error {x : Except ε α} {f : α → Except ε β} {e : ε} :
    x >>= f = .error e ↔ x = .error e ∨ ∃ a, x = .ok a ∧ f a = .error e := by
  cases x <;> simp [bind, Except.bind]

@[simp] theorem map_eq_ok {x : Except ε α} {f : α → β} {b : β} :
    f <$> x = .ok b ↔ ∃ a, x = .ok a ∧ f a = b := by
  cases x <;> simp [Functor.map, Except.map]

theorem map_eq_error {x : Except ε α} {f : α → β} {e : ε} :
    f <$> x = .error e ↔ x = .error e := by
  cases x <;> simp [Functor.map, Except.map]

/-- A list of computations succeeds when every one of them does. -/
theorem mapM_eq_ok {f : α → Except ε β} {xs : List α} {ys : List β} :
    xs.mapM f = .ok ys ↔ List.Forall₂ (fun x y => f x = .ok y) xs ys := by
  induction xs generalizing ys with
  | nil => cases ys <;> simp
  | cons x xs ih =>
    cases ys with
    | nil => simp
    | cons y ys => simp [ih]

/-- A list of computations is what its items are. -/
theorem mapM_congr {f g : α → Except ε β} {xs : List α} (h : ∀ x ∈ xs, f x = g x) :
    xs.mapM f = xs.mapM g := by
  induction xs with
  | nil => rfl
  | cons x xs ih =>
    rw [List.forall_mem_cons] at h
    rw [List.mapM_cons, List.mapM_cons, h.1, ih h.2]

theorem exists_forall₂_iff {R : α → β → Prop} {xs : List α} :
    (∃ ys, List.Forall₂ R xs ys) ↔ ∀ x ∈ xs, ∃ y, R x y := by
  induction xs with
  | nil => simp
  | cons x xs ih =>
    rw [List.forall_mem_cons, ← ih]
    constructor
    · intro h
      obtain ⟨_, hx | ⟨hx, hxs⟩⟩ := h
      exact ⟨⟨_, hx⟩, _, hxs⟩
    · intro h
      obtain ⟨⟨y, hx⟩, ys, hxs⟩ := h
      exact ⟨y :: ys, .cons hx hxs⟩

/-- Every error that the computation can end in is one that `P` holds of. -/
def Fails (x : Except ε α) (P : ε → Prop) : Prop := ∀ e, x = .error e → P e

variable {P : ε → Prop}

theorem fails_ok {a : α} : Fails (.ok a) P := fun _ h => nomatch h

theorem fails_error {e : ε} (h : P e) : Fails (.error e : Except ε α) P :=
  fun _ he => Except.error.inj he ▸ h

theorem fails_bind {x : Except ε α} {f : α → Except ε β} (hx : Fails x P)
    (hf : ∀ a, x = .ok a → Fails (f a) P) : Fails (x >>= f) P := by
  intro e h
  rcases bind_eq_error.1 h with h | ⟨a, ha, h⟩
  · exact hx e h
  · exact hf a ha e h

theorem fails_mapM {f : α → Except ε β} {xs : List α} (h : ∀ x ∈ xs, Fails (f x) P) :
    Fails (xs.mapM f) P := by
  induction xs with
  | nil => exact fails_ok
  | cons x xs ih =>
    rw [List.forall_mem_cons] at h
    rw [List.mapM_cons]
    exact fails_bind h.1 fun _ _ => fails_bind (ih h.2) fun _ _ => fails_ok

/-- The error of a computation that fails. -/
def error? : Except ε α → Option ε
  | .ok _ => none
  | .error e => some e

@[simp] theorem error?_ok (a : α) : error? (.ok a : Except ε α) = none := rfl

@[simp] theorem error?_error (e : ε) : error? (.error e : Except ε α) = some e := rfl

@[simp] theorem error?_eq_some {x : Except ε α} {e : ε} : error? x = some e ↔ x = .error e := by
  cases x <;> simp [error?]

/-- Of two computations that do not depend on each other, the error of the first goes first. -/
theorem error?_bind_const {γ : Type} (x : Except ε α) (y : Except ε β) (f : α → β → γ) :
    error? (x >>= fun a => y >>= fun b => .ok (f a b)) = (error? x).or (error? y) := by
  cases x <;> cases y <;> rfl

end Comet
