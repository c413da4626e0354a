import Mathlib

/-! # Computations on a state that may fail

A `Stateful` computation has a result or an error, and in both cases the state that it leaves; it ends
at its first error.

* `Keeps`: a part of the state that a computation leaves as it is, whatever its result.
* `Triple`: the computation succeeds, with a precondition and a postcondition.
* `keeps_bind`, `triple_bind`: one computation after the other.
* `bind_ok`, `bind_error`: what a computation goes on with. -/

/-- A computation with a state `σ` and errors `ε`. -/
def Stateful (σ ε α : Type) : Type := σ → Except ε α × σ

namespace Stateful

variable {σ τ ε α β : Type}

instance : Monad (Stateful σ ε) where
  pure a := fun s => (.ok a, s)
  bind x f := fun s =>
    match x s with
    | (.ok a, t) => f a t
    | (.error e, t) => (.error e, t)

/-- End with an error. -/
def fail (e : ε) : Stateful σ ε α := fun s => (.error e, s)

/-- A change of the state that gives a value. -/
def modifyGet (f : σ → α × σ) : Stateful σ ε α := fun s => (.ok (f s).1, (f s).2)

/-- A computation on a part of the state. -/
def zoom (get : σ → τ) (set : τ → σ → σ) (x : Stateful τ ε α) : Stateful σ ε α := fun s =>
  ((x (get s)).1, set (x (get s)).2 s)

variable {x : Stateful σ ε α} {f : α → Stateful σ ε β} {s t : σ} {a : α} {e : ε}

theorem pure_run : (pure a : Stateful σ ε α) s = (.ok a, s) := rfl

theorem bind_ok (h : x s = (.ok a, t)) : (x >>= f) s = f a t := by
  show (match x s with | (.ok a, t) => f a t | (.error e, t) => (.error e, t)) = _
  rw [h]

theorem bind_error (h : x s = (.error e, t)) : (x >>= f) s = (.error e, t) := by
  show (match x s with | (.ok a, t) => f a t | (.error e, t) => (.error e, t)) = _
  rw [h]

/-! ### What stays of the state -/

/-- The computation leaves a part of the state as it is. -/
def Keeps (π : σ → τ) (x : Stateful σ ε α) : Prop := ∀ s, π (x s).2 = π s

variable {π : σ → τ}

theorem keeps_pure (a : α) : Keeps π (pure a : Stateful σ ε α) := fun _ => rfl

theorem keeps_fail (e : ε) : Keeps π (fail e : Stateful σ ε α) := fun _ => rfl

theorem after_bind (s : σ) (hf : ∀ a, Keeps π (f a)) : π ((x >>= f) s).2 = π (x s).2 := by
  rcases h : x s with ⟨e | a, t⟩
  · rw [bind_error h]
  · rw [bind_ok h, hf a t]

theorem keeps_bind (hx : Keeps π x) (hf : ∀ a, Keeps π (f a)) : Keeps π (x >>= f) := fun s =>
  (after_bind s hf).trans (hx s)

theorem keeps_ite {c : Prop} [Decidable c] {y : Stateful σ ε α} (hx : Keeps π x) (hy : Keeps π y) :
    Keeps π (if c then x else y) := by
  split_ifs
  · exact hx
  · exact hy

/-! ### Computations that succeed -/

/-- From each state with `P` the computation has a result, and then `Q` holds. -/
def Triple (P : σ → Prop) (x : Stateful σ ε α) (Q : α → σ → Prop) : Prop :=
  ∀ s, P s → ∃ a t, x s = (.ok a, t) ∧ Q a t

variable {P : σ → Prop} {Q : α → σ → Prop} {R : β → σ → Prop}

theorem triple_pure (h : ∀ s, P s → Q a s) : Triple P (pure a : Stateful σ ε α) Q := fun s hs =>
  ⟨a, s, rfl, h s hs⟩

theorem triple_modifyGet {g : σ → α × σ} (h : ∀ s, P s → Q (g s).1 (g s).2) :
    Triple P (modifyGet g : Stateful σ ε α) Q := fun s hs => ⟨(g s).1, (g s).2, rfl, h s hs⟩

theorem triple_bind (hx : Triple P x Q) (hf : ∀ a, Triple (Q a) (f a) R) : Triple P (x >>= f) R := by
  intro s hs
  obtain ⟨a, t, hrun, ht⟩ := hx s hs
  rw [bind_ok hrun]
  exact hf a t ht

end Stateful
