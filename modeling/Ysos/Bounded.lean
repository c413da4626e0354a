import Ysos.Stateful

/-! # Loops with fuel on a state

The loops of `x fuel` end with the error `stuck` when their fuel runs out.

* `Returns`: with enough fuel the computation returns, and with less it is stuck.
* `Steady`: more fuel does not change a result that is not `stuck`.
* `Returns.result`: what holds of every such result.
* `Returns.bind`, `Returns.andThen`: one computation after the other. -/

namespace Stateful

variable {σ τ ε α β : Type}

/-- With enough fuel `Q` holds of the result and the state after it; with less fuel the computation is
stuck. -/
def Returns (stuck : ε) (x : ℕ → Stateful σ ε α) (s : σ) (Q : Except ε α → σ → Prop) : Prop :=
  ∃ n, ∀ fuel, if n ≤ fuel then Q (x fuel s).1 (x fuel s).2 else (x fuel s).1 = .error stuck

variable {stuck : ε} {x : ℕ → Stateful σ ε α} {f : ℕ → α → Stateful σ ε β} {s : σ}
  {Q R : Except ε α → σ → Prop}

namespace Returns

theorem of_forall (h : ∀ fuel, Q (x fuel s).1 (x fuel s).2) : Returns stuck x s Q :=
  ⟨0, fun fuel => by rw [if_pos (Nat.zero_le fuel)]; exact h fuel⟩

theorem mono (h : Returns stuck x s Q) (hQR : ∀ out t, Q out t → R out t) : Returns stuck x s R := by
  obtain ⟨n, h⟩ := h
  refine ⟨n, fun fuel => ?_⟩
  specialize h fuel
  split_ifs at h ⊢ with hfuel
  · exact hQR _ _ h
  · exact h

/-- A computation that goes on as another one does. -/
theorem of_run {y : ℕ → Stateful σ ε α} {t : σ} (h : Returns stuck y t Q)
    (hxy : ∀ fuel, x fuel s = y fuel t) : Returns stuck x s Q := by
  obtain ⟨n, h⟩ := h
  refine ⟨n, fun fuel => ?_⟩
  rw [hxy]
  exact h fuel

/-- There is a result that is not `stuck`, unless `Q` allows it. -/
theorem exists_fuel (h : Returns stuck x s Q) : ∃ fuel, Q (x fuel s).1 (x fuel s).2 := by
  obtain ⟨n, h⟩ := h
  specialize h n
  rw [if_pos le_rfl] at h
  exact ⟨n, h⟩

theorem result (h : Returns stuck x s Q) {fuel : ℕ} (hne : (x fuel s).1 ≠ .error stuck) :
    Q (x fuel s).1 (x fuel s).2 := by
  obtain ⟨n, h⟩ := h
  specialize h fuel
  split_ifs at h with hfuel
  · exact h
  · exact absurd h hne

/-- What comes after a computation that returns, and needs no fuel of its own there. -/
theorem bind {Q' : Except ε β → σ → Prop} (hx : Returns stuck x s Q)
    (hok : ∀ fuel a t, Q (.ok a) t → Q' (f fuel a t).1 (f fuel a t).2)
    (herror : ∀ e t, Q (.error e) t → Q' (.error e) t) :
    Returns stuck (fun fuel => x fuel >>= f fuel) s Q' := by
  obtain ⟨n, h⟩ := hx
  refine ⟨n, fun fuel => ?_⟩
  specialize h fuel
  beta_reduce
  rcases hrun : x fuel s with ⟨e | a, t⟩
  · rw [bind_error hrun]
    rw [hrun] at h
    split_ifs at h ⊢ with hfuel
    · exact herror e t h
    · exact congrArg _ (Except.error.inj h)
  · rw [bind_ok hrun]
    rw [hrun] at h
    split_ifs at h ⊢ with hfuel
    exact hok fuel a t h

theorem zoom (get : τ → σ) (set : σ → τ → τ) {t : τ} {Q' : Except ε α → τ → Prop}
    (hx : Returns stuck x (get t) Q) (hQ : ∀ out u, Q out u → Q' out (set u t)) :
    Returns stuck (fun fuel => zoom get set (x fuel)) t Q' := by
  obtain ⟨n, h⟩ := hx
  refine ⟨n, fun fuel => ?_⟩
  specialize h fuel
  split_ifs at h ⊢ with hfuel
  · exact hQ _ _ h
  · exact h

end Returns

/-! ### Results that do not depend on the fuel -/

/-- A result that is not `stuck` is the one with more fuel as well. -/
def Steady (stuck : ε) (x : ℕ → Stateful σ ε α) : Prop :=
  ∀ fuel fuel' s, fuel ≤ fuel' → (x fuel s).1 ≠ .error stuck → x fuel' s = x fuel s

theorem steady_const (y : Stateful σ ε α) : Steady stuck fun _ => y := fun _ _ _ _ _ => rfl

namespace Steady

theorem bind (hx : Steady stuck x) (hf : ∀ a, Steady stuck fun fuel => f fuel a) :
    Steady stuck fun fuel => x fuel >>= f fuel := by
  intro fuel fuel' s hle hne
  beta_reduce at hne ⊢
  rcases hrun : x fuel s with ⟨e | a, t⟩
  · rw [bind_error hrun] at hne
    have hrun' := hx fuel fuel' s hle fun he => hne (by rw [hrun] at he; exact congrArg _ (Except.error.inj he))
    rw [bind_error hrun, bind_error (hrun'.trans hrun)]
  · rw [bind_ok hrun] at hne
    have hrun' := hx fuel fuel' s hle (by rw [hrun]; nofun)
    rw [bind_ok hrun, bind_ok (hrun'.trans hrun)]
    exact hf a fuel fuel' t hle hne

theorem ite {c : Prop} [Decidable c] {y : ℕ → Stateful σ ε α} (hx : Steady stuck x) (hy : Steady stuck y) :
    Steady stuck fun fuel => if c then x fuel else y fuel := by
  split_ifs
  · exact hx
  · exact hy

theorem zoom {get : τ → σ} {set : σ → τ → τ} (hx : Steady stuck x) :
    Steady stuck fun fuel => zoom get set (x fuel) := by
  intro fuel fuel' t hle hne
  have hrun := hx fuel fuel' (get t) hle hne
  simp only [Stateful.zoom, hrun]

end Steady

theorem Returns.andThen {Q' : Except ε β → σ → Prop} (hx : Returns stuck x s Q) (hsteady : Steady stuck x)
    (hok : ∀ a t, Q (.ok a) t → Returns stuck (fun fuel => f fuel a) t Q')
    (herror : ∀ e t, Q (.error e) t → e ≠ stuck ∧ Q' (.error e) t) :
    Returns stuck (fun fuel => x fuel >>= f fuel) s Q' := by
  obtain ⟨n, h⟩ := hx
  rcases hrun : x n s with ⟨e | a, t⟩
  · have hQ := h n
    rw [if_pos le_rfl, hrun] at hQ
    obtain ⟨hne, hQ'⟩ := herror e t hQ
    refine ⟨n, fun fuel => ?_⟩
    beta_reduce
    split_ifs with hfuel
    · have hsame := hsteady n fuel s hfuel fun he => hne (by rw [hrun] at he; exact Except.error.inj he)
      rw [bind_error (hsame.trans hrun)]
      exact hQ'
    · have hstuck := h fuel
      rw [if_neg hfuel] at hstuck
      rw [bind_error (Prod.ext hstuck rfl)]
  · have hQ := h n
    rw [if_pos le_rfl, hrun] at hQ
    obtain ⟨m, hm⟩ := hok a t hQ
    refine ⟨max n m, fun fuel => ?_⟩
    specialize hm fuel
    beta_reduce
    by_cases hfuel : n ≤ fuel
    · have hsame := hsteady n fuel s hfuel (by rw [hrun]; nofun)
      rw [bind_ok (hsame.trans hrun)]
      rcases Nat.lt_or_ge fuel m with hlt | hge
      · rw [if_neg (Nat.not_le.mpr hlt)] at hm
        rw [if_neg fun h => Nat.not_le.mpr hlt ((le_max_right n m).trans h)]
        exact hm
      · rw [if_pos hge] at hm
        rw [if_pos (max_le hfuel hge)]
        exact hm
    · have hstuck := h fuel
      rw [if_neg hfuel] at hstuck
      rw [if_neg fun h => hfuel ((le_max_left n m).trans h), bind_error (Prod.ext hstuck rfl)]

/-- A computation with fuel that follows one without, and keeps `P`. -/
theorem Returns.follows {out : Except ε α} {g : α → Except ε β} {P : σ → Prop}
    (hx : Returns stuck x s fun r t => r = out ∧ P t) (hsteady : Steady stuck x)
    (hne : out ≠ .error stuck)
    (hf : ∀ a t, out = .ok a → P t →
      Returns stuck (fun fuel => f fuel a) t fun r t => r = g a ∧ P t) :
    Returns stuck (fun fuel => x fuel >>= f fuel) s fun r t => r = (out >>= g) ∧ P t := by
  refine hx.andThen hsteady ?_ ?_
  · rintro a t ⟨rfl, ht⟩
    exact hf a t rfl ht
  · rintro e t ⟨rfl, ht⟩
    exact ⟨fun he => hne (congrArg _ he), rfl, ht⟩

end Stateful
