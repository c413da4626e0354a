import Mathlib

/-! # Runs of a partial step function

A machine is a function `step : σ → ι → Except ε (σ × ω)`: from a state and an input it gives
the next state and an output, or it aborts.  `Step step C s t` is one step that does not abort
and whose state before, input and state after meet `C`; `Run step C` is its reflexive and
transitive closure, so a run with the condition `fun _ _ _ => True` is any run.

* `Run.invariant`: what a step preserves, a run preserves.
* `Run.relation`: what a step relates, a run relates, for a reflexive and transitive relation
  that may use an invariant of the states it starts from.
* `Run.exists_first`: a run from a state with a property to a state without it has a first
  step that loses it.
* `Run.simulates`: what another machine does for each step, it does for a run.

`exec` computes the run of a list of inputs.  The last section has the inversion rules for
computations in `Except`, and `Raises`, the errors that a computation can end with. -/

namespace Runs

variable {σ ι ε ω : Type*}

/-- One step that does not abort and meets the condition `C`. -/
def Step (step : σ → ι → Except ε (σ × ω)) (C : σ → ι → σ → Prop) (s t : σ) : Prop :=
  ∃ i o, step s i = .ok (t, o) ∧ C s i t

/-- Any number of steps. -/
abbrev Run (step : σ → ι → Except ε (σ × ω)) (C : σ → ι → σ → Prop) : σ → σ → Prop :=
  Relation.ReflTransGen (Step step C)

/-- The condition of an unrestricted run. -/
abbrev Any : σ → ι → σ → Prop := fun _ _ _ => True

variable {step : σ → ι → Except ε (σ × ω)} {C D : σ → ι → σ → Prop} {s t u : σ}

theorem Step.mono (h : Step step C s t) (hCD : ∀ s i t, C s i t → D s i t) : Step step D s t := by
  obtain ⟨i, o, hs, hC⟩ := h
  exact ⟨i, o, hs, hCD _ _ _ hC⟩

theorem Run.mono (h : Run step C s t) (hCD : ∀ s i t, C s i t → D s i t) : Run step D s t :=
  Relation.ReflTransGen.mono (fun _ _ (hs : Step step C _ _) => hs.mono hCD) _ _ h

theorem Run.tailAny {i : ι} {o : ω} (h : Run step Any s t) (hs : step t i = .ok (u, o)) :
    Run step Any s u :=
  Relation.ReflTransGen.tail h ⟨i, o, hs, trivial⟩

/-- **Invariants.**  A property of the first state that every step preserves holds of every
state of the run. -/
theorem Run.invariant {P : σ → Prop} (h : Run step C s t) (h0 : P s)
    (hstep : ∀ s i t o, P s → step s i = .ok (t, o) → C s i t → P t) : P t := by
  induction h with
  | refl => exact h0
  | tail _ hs ih =>
      obtain ⟨i, o, hst, hC⟩ := hs
      exact hstep _ _ _ _ ih hst hC

/-- **Relations along a run.**  A reflexive and transitive relation that every step from a
state of the invariant `P` respects relates the two ends of a run. -/
theorem Run.relation {P : σ → Prop} {R : σ → σ → Prop} (h : Run step C s t) (h0 : P s)
    (hP : ∀ s i t o, P s → step s i = .ok (t, o) → C s i t → P t)
    (hrefl : ∀ s, R s s) (htrans : ∀ s t u, R s t → R t u → R s u)
    (hR : ∀ s i t o, P s → step s i = .ok (t, o) → C s i t → R s t) : R s t := by
  have key : P t ∧ R s t := by
    induction h with
    | refl => exact ⟨h0, hrefl s⟩
    | tail _ hs ih =>
        obtain ⟨i, o, hst, hC⟩ := hs
        exact ⟨hP _ _ _ _ ih.1 hst hC, htrans _ _ _ ih.2 (hR _ _ _ _ ih.1 hst hC)⟩
  exact key.2

/-- A run that loses a property has a first step that loses it, and up to that step the
property holds. -/
theorem Run.exists_first {P : σ → Prop} (h : Run step C s t) (h0 : P s) (ht : ¬ P t) :
    ∃ a b, Run step (fun s i t => C s i t ∧ P t) s a ∧ P a ∧ Step step C a b ∧ ¬ P b ∧
      Run step C b t := by
  induction h using Relation.ReflTransGen.head_induction_on with
  | refl => exact absurd h0 ht
  | @head a b hs hr ih =>
      by_cases hb : P b
      · obtain ⟨c, d, hac, hc, hcd, hd, hdt⟩ := ih hb
        refine ⟨c, d, Relation.ReflTransGen.head ?_ hac, hc, hcd, hd, hdt⟩
        obtain ⟨i, o, hst, hC⟩ := hs
        exact ⟨i, o, hst, hC, hb⟩
      · exact ⟨a, b, Relation.ReflTransGen.refl, h0, hs, hb, hr⟩

/-- **Simulation.**  If each step is any number of steps of another machine between related states,
then so is a run. -/
theorem Run.simulates {τ : Type*} {r : τ → τ → Prop} {R : σ → τ → Prop} {s' : τ} (h : Run step C s t)
    (h0 : R s s') (hstep : ∀ s i t o s', R s s' → step s i = .ok (t, o) → C s i t →
      ∃ t', Relation.ReflTransGen r s' t' ∧ R t t') :
    ∃ t', Relation.ReflTransGen r s' t' ∧ R t t' := by
  induction h with
  | refl => exact ⟨s', .refl, h0⟩
  | tail _ hs ih =>
      obtain ⟨i, o, hst, hC⟩ := hs
      obtain ⟨t', hrun, hR⟩ := ih
      obtain ⟨u', hrun', hR'⟩ := hstep _ _ _ _ _ hR hst hC
      exact ⟨u', hrun.trans hrun', hR'⟩

/-! ### Computed runs -/

/-- The state after a list of inputs, if no step aborts and every step meets the condition. -/
def exec (step : σ → ι → Except ε (σ × ω)) (C : σ → ι → σ → Prop) [∀ s i t, Decidable (C s i t)] :
    σ → List ι → Option σ
  | s, [] => some s
  | s, i :: is =>
      match step s i with
      | .error _ => none
      | .ok (t, _) => if C s i t then exec step C t is else none

theorem run_of_exec [∀ s i t, Decidable (C s i t)] : ∀ {is : List ι} {s : σ},
    exec step C s is = some t → Run step C s t
  | [], s, h => by
      cases h
      exact Relation.ReflTransGen.refl
  | i :: is, s, h => by
      unfold exec at h
      split at h
      · cases h
      · rename_i o hs
        split_ifs at h with hC
        exact Relation.ReflTransGen.head ⟨i, o, hs, hC⟩ (run_of_exec h)

/-! ### Computations that may abort -/

theorem bind_eq_ok {α β : Type} {x : Except ε α} {f : α → Except ε β} {b : β} :
    (x >>= f) = .ok b ↔ ∃ a, x = .ok a ∧ f a = .ok b := by
  rcases x with e | a
  · exact ⟨nofun, fun ⟨_, h, _⟩ => nomatch h⟩
  · exact ⟨fun h => ⟨a, rfl, h⟩, fun ⟨_, h, h'⟩ => (Except.ok.inj h) ▸ h'⟩

theorem ok_of_toOption {α : Type} {x : Except ε α} {a : α} (h : x.toOption = some a) :
    x = .ok a := by
  rcases x with e | a'
  · cases h
  · cases h
    rfl

theorem bind_eq_error {α β : Type} {x : Except ε α} {f : α → Except ε β} {e : ε} :
    (x >>= f) = .error e ↔ x = .error e ∨ ∃ a, x = .ok a ∧ f a = .error e := by
  rcases x with e' | a
  · exact ⟨fun h => Or.inl (congrArg _ (Except.error.inj h)),
      fun h => h.elim (fun h => congrArg _ (Except.error.inj h)) (fun ⟨_, h, _⟩ => nomatch h)⟩
  · exact ⟨fun h => Or.inr ⟨a, rfl, h⟩,
      fun h => h.elim (fun h => nomatch h) (fun ⟨_, h, h'⟩ => (Except.ok.inj h) ▸ h')⟩

/-- A loop relates its ends by every reflexive and transitive relation that its body respects. -/
theorem foldlM_relates {β : Type} {σ : Type} {f : σ → β → Except ε σ} {R : σ → σ → Prop}
    (hrefl : ∀ s, R s s) (htrans : ∀ s t u, R s t → R t u → R s u)
    (hf : ∀ s b t, f s b = .ok t → R s t) :
    ∀ {bs : List β} {s t : σ}, bs.foldlM f s = .ok t → R s t
  | [], s, _, h => Except.ok.inj h ▸ hrefl s
  | b :: bs, s, t, h => by
      rw [List.foldlM_cons] at h
      obtain ⟨u, hu, h⟩ := bind_eq_ok.mp h
      exact htrans s u t (hf s b u hu) (foldlM_relates hrefl htrans hf h)

/-- All errors of a computation are in `P`. -/
def Raises {α : Type} (P : ε → Prop) (x : Except ε α) : Prop := ∀ e, x = .error e → P e

namespace Raises
variable {α β : Type} {P Q : ε → Prop} {x : Except ε α} {f : α → Except ε β}

theorem ok (a : α) : Raises P (.ok a : Except ε α) := nofun

theorem pure (a : α) : Raises P (Pure.pure a : Except ε α) := nofun

theorem error {e : ε} (h : P e) : Raises P (.error e : Except ε α) := by
  intro e' he
  cases he
  exact h

theorem mono (h : Raises P x) (hPQ : ∀ e, P e → Q e) : Raises Q x := fun e he => hPQ e (h e he)

theorem foldlM {σ : Type} {g : σ → β → Except ε σ} (hg : ∀ s b, Raises P (g s b)) :
    ∀ {bs : List β} {s : σ}, Raises P (bs.foldlM g s)
  | [], s => .ok s
  | b :: bs, s => by
      intro e he
      rw [List.foldlM_cons] at he
      rcases bind_eq_error.mp he with he | ⟨t, -, he⟩
      · exact hg s b e he
      · exact foldlM hg e he

theorem bind (hx : Raises P x) (hf : ∀ a, x = .ok a → Raises P (f a)) : Raises P (x >>= f) := by
  intro e he
  rcases bind_eq_error.mp he with he | ⟨a, ha, he⟩
  · exact hx e he
  · exact hf a ha e he

end Raises

theorem pure_eq_ok {α : Type} {a b : α} : (pure a : Except ε α) = .ok b ↔ a = b :=
  ⟨fun h => Except.ok.inj h, fun h => congrArg _ h⟩

theorem mapM_eq_ok {α β : Type} {f : α → Except ε β} {xs : List α} {ys : List β} :
    xs.mapM f = .ok ys ↔ List.Forall₂ (fun x y => f x = .ok y) xs ys := by
  induction xs generalizing ys with
  | nil =>
      rw [List.mapM_nil, pure_eq_ok, List.forall₂_nil_left_iff]
      exact eq_comm
  | cons x xs ih =>
      rw [List.mapM_cons, bind_eq_ok, List.forall₂_cons_left_iff]
      refine exists_congr fun y => ?_
      rw [bind_eq_ok]
      constructor
      · rintro ⟨hy, ys', hys, h⟩
        exact ⟨ys', hy, ih.mp hys, (Except.ok.inj h).symm⟩
      · rintro ⟨ys', hy, hys, rfl⟩
        exact ⟨hy, ys', ih.mpr hys, rfl⟩

end Runs
