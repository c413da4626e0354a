import Mathlib

/-! # Partial maps that grow and shrink by regions

A partial map is a function `T : κ → Option β`.  `Grown T S T'` says that `T'` is `T` with
entries added for exactly the keys of `S`, all of which were free; read from right to left it
says that `T` is `T'` with exactly the entries of `S` removed.

`Layered T₀ rs T` says that `T` is the base map `T₀` grown by the pairwise disjoint regions
`rs`.  A region that is mapped afresh becomes a new layer (`Layered.push`), a layer that is
removed leaves the others as they were (`Layered.pop`), two layers may be counted as one
(`Layered.merge`, `Layered.split`), and one layer may grow or shrink (`Layered.growHead`,
`Layered.shrinkHead`). -/

namespace PartialMap

variable {κ β : Type} {T T' T'' T₀ : κ → Option β} {S S' : Set κ} {rs rs' : List (Set κ)}

/-- `T'` is `T` with entries added for exactly the keys of `S`. -/
structure Grown (T : κ → Option β) (S : Set κ) (T' : κ → Option β) : Prop where
  fresh : ∀ k ∈ S, T k = none
  bound : ∀ k ∈ S, T' k ≠ none
  same : ∀ k, k ∉ S → T' k = T k

namespace Grown

theorem refl (T : κ → Option β) : Grown T ∅ T :=
  ⟨fun _ h => absurd h (Set.notMem_empty _), fun _ h => absurd h (Set.notMem_empty _),
    fun _ _ => rfl⟩

theorem single [DecidableEq κ] {k : κ} (v : β) (h : T k = none) :
    Grown T {k} (Function.update T k (some v)) := by
  refine ⟨?_, ?_, ?_⟩
  · rintro _ rfl
    exact h
  · rintro _ rfl
    simp
  · intro j hj
    exact Function.update_of_ne hj _ _

theorem disjoint (h₁ : Grown T S T') (h₂ : Grown T' S' T'') : Disjoint S S' := by
  rw [Set.disjoint_left]
  intro k hk hk'
  exact h₁.bound k hk (h₂.fresh k hk')

theorem trans (h₁ : Grown T S T') (h₂ : Grown T' S' T'') : Grown T (S ∪ S') T'' := by
  have hd := h₁.disjoint h₂
  refine ⟨?_, ?_, ?_⟩
  · rintro k (hk | hk)
    · exact h₁.fresh k hk
    · have hk' : k ∉ S := fun hS => Set.disjoint_left.mp hd hS hk
      rw [← h₁.same k hk']
      exact h₂.fresh k hk
  · rintro k (hk | hk)
    · rw [h₂.same k (Set.disjoint_left.mp hd hk)]
      exact h₁.bound k hk
    · exact h₂.bound k hk
  · intro k hk
    rw [Set.mem_union, not_or] at hk
    rw [h₂.same k hk.2, h₁.same k hk.1]

theorem keeps (h : Grown T S T') {k : κ} {v : β} (hk : T k = some v) : T' k = some v := by
  have hS : k ∉ S := fun hS => by simp [h.fresh k hS] at hk
  rw [h.same k hS, hk]

theorem congr (h : Grown T S T') (hS : S = S') : Grown T S' T' := hS ▸ h

theorem mem_iff (h : Grown T S T') {k : κ} : k ∈ S ↔ T k = none ∧ T' k ≠ none := by
  constructor
  · exact fun hk => ⟨h.fresh k hk, h.bound k hk⟩
  · rintro ⟨h0, h1⟩
    by_contra hk
    exact h1 ((h.same k hk).trans h0)

/-- Removing part of what was added leaves the rest added. -/
theorem peel (h : Grown T (S ∪ S') T'') (hd : Disjoint S S') (h' : Grown T' S' T'') :
    Grown T S T' := by
  refine ⟨fun k hk => h.fresh k (Or.inl hk), ?_, ?_⟩
  · intro k hk
    rw [← h'.same k (Set.disjoint_left.mp hd hk)]
    exact h.bound k (Or.inl hk)
  · intro k hk
    by_cases hk' : k ∈ S'
    · rw [h'.fresh k hk', h.fresh k (Or.inr hk')]
    · rw [← h'.same k hk', h.same k (fun hu => hu.elim hk hk')]

end Grown

/-! ### Layers over a base map -/

/-- `T` is `T₀` grown by the pairwise disjoint regions `rs`. -/
structure Layered (T₀ : κ → Option β) (rs : List (Set κ)) (T : κ → Option β) : Prop where
  grown : Grown T₀ {k | ∃ R ∈ rs, k ∈ R} T
  apart : rs.Pairwise Disjoint

namespace Layered

theorem nil (T₀ : κ → Option β) : Layered T₀ [] T₀ :=
  ⟨(Grown.refl T₀).congr (by ext k; simp), List.Pairwise.nil⟩

theorem eq_base (h : Layered T₀ [] T) : T = T₀ := by
  funext k
  exact h.grown.same k (by simp)

theorem perm (h : Layered T₀ rs T) (hp : rs.Perm rs') : Layered T₀ rs' T := by
  refine ⟨h.grown.congr ?_, h.apart.perm hp (fun hd => hd.symm)⟩
  ext k
  simp only [Set.mem_ofPred_eq, hp.mem_iff]

theorem bound (h : Layered T₀ rs T) {R : Set κ} (hR : R ∈ rs) {k : κ} (hk : k ∈ R) : T k ≠ none :=
  h.grown.bound k ⟨R, hR, hk⟩

theorem push (h : Layered T₀ rs T) (hS : Grown T S T') : Layered T₀ (S :: rs) T' := by
  have hd := h.grown.disjoint hS
  refine ⟨(h.grown.trans hS).congr ?_, List.Pairwise.cons ?_ h.apart⟩
  · ext k
    simp only [Set.mem_union, Set.mem_ofPred_eq, List.mem_cons, exists_eq_or_imp]
    exact or_comm
  · intro R hR
    rw [Set.disjoint_left]
    intro k hk hk'
    exact Set.disjoint_left.mp hd ⟨R, hR, hk'⟩ hk

theorem pop (h : Layered T₀ (S :: rs) T) (hS : Grown T' S T) : Layered T₀ rs T' := by
  obtain ⟨hd, hp⟩ := List.pairwise_cons.mp h.apart
  refine ⟨(h.grown.congr ?_).peel ?_ hS, hp⟩
  · ext k
    simp only [Set.mem_union, Set.mem_ofPred_eq, List.mem_cons, exists_eq_or_imp]
    exact or_comm
  · rw [Set.disjoint_left]
    rintro k ⟨R, hR, hk⟩ hk'
    exact Set.disjoint_left.mp (hd R hR) hk' hk

/-- Two layers counted as one. -/
theorem merge (h : Layered T₀ (S :: S' :: rs) T) : Layered T₀ ((S ∪ S') :: rs) T := by
  obtain ⟨hd, hp⟩ := List.pairwise_cons.mp h.apart
  obtain ⟨hd', hp'⟩ := List.pairwise_cons.mp hp
  refine ⟨h.grown.congr ?_, List.Pairwise.cons ?_ hp'⟩
  · ext k
    simp only [Set.mem_ofPred_eq, List.mem_cons, exists_eq_or_imp, Set.mem_union, or_assoc]
  · intro R hR
    exact Set.disjoint_union_left.mpr ⟨hd R (List.mem_cons_of_mem _ hR), hd' R hR⟩

/-- One layer counted as two disjoint ones. -/
theorem split (h : Layered T₀ ((S ∪ S') :: rs) T) (hSS : Disjoint S S') :
    Layered T₀ (S :: S' :: rs) T := by
  obtain ⟨hd, hp⟩ := List.pairwise_cons.mp h.apart
  refine ⟨h.grown.congr ?_, List.Pairwise.cons ?_ (List.Pairwise.cons ?_ hp)⟩
  · ext k
    simp only [Set.mem_ofPred_eq, List.mem_cons, exists_eq_or_imp, Set.mem_union, or_assoc]
  · intro R hR
    rcases List.mem_cons.mp hR with rfl | hR
    · exact hSS
    · exact (Set.disjoint_union_left.mp (hd R hR)).1
  · intro R hR
    exact (Set.disjoint_union_left.mp (hd R hR)).2

theorem growHead {R R' : Set κ} (h : Layered T₀ (R :: rs) T) (hS : Grown T S T')
    (hR : ∀ k, k ∈ R' ↔ k ∈ S ∨ k ∈ R) : Layered T₀ (R' :: rs) T' := by
  have he : R' = S ∪ R := Set.ext hR
  rw [he]
  exact (h.push hS).merge

theorem shrinkHead {R R' : Set κ} (h : Layered T₀ (R :: rs) T) (hS : Grown T' S T)
    (hR : ∀ k, k ∈ R ↔ k ∈ S ∨ k ∈ R') (hd : ∀ k ∈ S, k ∉ R') : Layered T₀ (R' :: rs) T' := by
  have he : R = S ∪ R' := Set.ext hR
  rw [he] at h
  exact (h.split (Set.disjoint_left.mpr hd)).pop hS

theorem cons_empty_iff : Layered T₀ (∅ :: rs) T ↔ Layered T₀ rs T := by
  constructor
  · exact fun h => h.pop (Grown.refl T)
  · exact fun h => h.push (Grown.refl T)

end Layered

end PartialMap
