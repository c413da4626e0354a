import Mathlib

/-! # Parents and children

Nodes with a link to a parent and a list of children, some of them alive.

* `Kin.Agree`: among the living, a node is the parent of those in its list of children and of
  nobody else, and the parent of a living node is alive.
* `Kin.Ok.birth`, `Kin.Ok.death`: a birth under a living parent keeps this, and so does a death
  after which no living node has the dead one as its parent, if the living children of the dead
  one are left without a parent.
* `Kin.not_agree_of_stranger`: a parent that does not know its living child breaks it. -/

/-- Nodes with their links. -/
structure Kin (ρ : Type*) where
  parent : ρ → Option ρ
  children : ρ → List ρ
  Alive : ρ → Prop

namespace Kin

variable {ρ : Type*} {s s' : Kin ρ} {p d n : ρ}

/-- The links of the living agree, and their parents are alive. -/
structure Agree (s : Kin ρ) : Prop where
  links : ∀ c p, s.Alive c → s.Alive p → (s.parent c = some p ↔ c ∈ s.children p)
  living : ∀ c p, s.Alive c → s.parent c = some p → s.Alive p

/-- Moreover a node is in one list of children only. -/
structure Ok (s : Kin ρ) : Prop extends Agree s where
  unique : ∀ p q c, c ∈ s.children p → c ∈ s.children q → p = q

theorem not_agree_of_stranger {c : ρ} (hc : s.Alive c) (hp : s.parent c = some p)
    (hmem : s.Alive p → c ∉ s.children p) : ¬ s.Agree := fun h =>
  have hlive := h.living c p hc hp
  hmem hlive ((h.links c p hc hlive).mp hp)

theorem Ok.same (h : s.Ok) (hparent : s'.parent = s.parent) (hchildren : s'.children = s.children)
    (halive : ∀ x, s'.Alive x ↔ s.Alive x) : s'.Ok := by
  obtain ⟨⟨hlinks, hliving⟩, hunique⟩ := h
  refine ⟨⟨fun c p hc hp => ?_, fun c p hc hp => ?_⟩, ?_⟩
  · rw [hparent, hchildren]
    exact hlinks c p ((halive c).mp hc) ((halive p).mp hp)
  · rw [hparent] at hp
    exact (halive p).mpr (hliving c p ((halive c).mp hc) hp)
  · rwa [hchildren]

/-- `s'` is `s` with the new child `n` of `p`. -/
structure Birth (s s' : Kin ρ) (p n : ρ) : Prop where
  fresh : ¬ s.Alive n ∧ ∀ q, n ∉ s.children q
  parent_new : s'.parent n = some p
  parent_old : ∀ c, c ≠ n → s'.parent c = s.parent c
  children_new : s'.children n = []
  children_parent : s'.children p = s.children p ++ [n]
  children_old : ∀ q, q ≠ n → q ≠ p → s'.children q = s.children q
  alive : ∀ x, s'.Alive x ↔ s.Alive x ∨ x = n

theorem Birth.mem_children (hb : Birth s s' p n) (hp : s.Alive p) {q c : ρ} :
    c ∈ s'.children q ↔ q ≠ n ∧ c ∈ s.children q ∨ q = p ∧ c = n := by
  have hpn : p ≠ n := fun he => hb.fresh.1 (he ▸ hp)
  by_cases hq : q = n
  · subst hq
    simp [hb.children_new, Ne.symm hpn]
  · by_cases hqp : q = p
    · subst hqp
      simp [hb.children_parent, hq]
    · simp [hb.children_old q hq hqp, hq, hqp]

theorem Ok.birth (h : s.Ok) (hb : Birth s s' p n) (hp : s.Alive p) : s'.Ok := by
  have hpn : p ≠ n := fun he => hb.fresh.1 (he ▸ hp)
  have hold : ∀ c, s'.Alive c → c ≠ n → s.Alive c := fun c hc hcn =>
    ((hb.alive c).mp hc).resolve_right hcn
  refine ⟨⟨fun c q hc hq => ?_, fun c q hc hq => ?_⟩, fun q q' c hq hq' => ?_⟩
  · rw [hb.mem_children hp]
    by_cases hcn : c = n
    · subst hcn
      rw [hb.parent_new, Option.some.injEq]
      constructor
      · rintro rfl
        exact Or.inr ⟨rfl, rfl⟩
      · rintro (⟨-, hm⟩ | ⟨rfl, -⟩)
        · exact absurd hm (hb.fresh.2 q)
        · rfl
    · rw [hb.parent_old c hcn]
      have hc := hold c hc hcn
      by_cases hqn : q = n
      · subst hqn
        refine iff_of_false (fun hpar => hb.fresh.1 (h.living c q hc hpar)) ?_
        rintro (⟨hne, -⟩ | ⟨rfl, -⟩)
        · exact hne rfl
        · exact hpn rfl
      · rw [h.links c q hc (hold q hq hqn)]
        constructor
        · exact fun hm => Or.inl ⟨hqn, hm⟩
        · rintro (⟨-, hm⟩ | ⟨-, rfl⟩)
          · exact hm
          · exact absurd rfl hcn
  · by_cases hcn : c = n
    · subst hcn
      rw [hb.parent_new, Option.some.injEq] at hq
      subst hq
      exact (hb.alive _).mpr (Or.inl hp)
    · rw [hb.parent_old c hcn] at hq
      exact (hb.alive _).mpr (Or.inl (h.living c q (hold c hc hcn) hq))
  · rcases (hb.mem_children hp).mp hq with ⟨-, hm⟩ | ⟨rfl, rfl⟩
    · rcases (hb.mem_children hp).mp hq' with ⟨-, hm'⟩ | ⟨-, rfl⟩
      · exact h.unique q q' c hm hm'
      · exact absurd hm (hb.fresh.2 q)
    · rcases (hb.mem_children hp).mp hq' with ⟨-, hm'⟩ | ⟨rfl, -⟩
      · exact absurd hm' (hb.fresh.2 q')
      · rfl

/-- `s'` is `s` after the death of `d`: living nodes stay in the lists they are in, and the living
keep their parents, but for children of `d` that are left without one. -/
structure Death (s s' : Kin ρ) (d : ρ) : Prop where
  alive : ∀ x, s'.Alive x ↔ s.Alive x ∧ x ≠ d
  children_sub : ∀ q c, c ∈ s'.children q → c ∈ s.children q
  children_keep : ∀ q c, s'.Alive c → s'.Alive q → c ∈ s.children q → c ∈ s'.children q
  parent : ∀ c, s'.Alive c →
    s'.parent c = s.parent c ∨ c ∈ s.children d ∧ s'.parent c = none

/-- After the death no living node has the dead one as its parent. -/
theorem Ok.death (h : s.Ok) (hd : Death s s' d) (horphan : ∀ c, s'.Alive c → s'.parent c ≠ some d) :
    s'.Ok := by
  refine ⟨⟨fun c q hc hq => ?_, fun c q hc hq => ?_⟩, fun q q' c hq hq' => ?_⟩
  · have hmem : c ∈ s'.children q ↔ c ∈ s.children q :=
      ⟨hd.children_sub q c, hd.children_keep q c hc hq⟩
    rw [hmem]
    rcases hd.parent c hc with hsame | ⟨hchild, hnone⟩
    · rw [hsame]
      exact h.links c q ((hd.alive c).mp hc).1 ((hd.alive q).mp hq).1
    · rw [hnone]
      refine iff_of_false nofun fun hm => ?_
      exact ((hd.alive q).mp hq).2 (h.unique q d c hm hchild)
  · rcases hd.parent c hc with hsame | ⟨-, hnone⟩
    · have hqd : q ≠ d := fun he => horphan c hc (he ▸ hq)
      rw [hsame] at hq
      exact (hd.alive q).mpr ⟨h.living c q ((hd.alive c).mp hc).1 hq, hqd⟩
    · rw [hnone] at hq
      cases hq
  · exact h.unique q q' c (hd.children_sub q c hq) (hd.children_sub q' c hq')

end Kin
