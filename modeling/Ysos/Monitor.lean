import Ysos.Runs

/-! # Threads with one lock

Threads that share a memory and take turns at one lock.  A program is given by what it does next in
a local state (`Action`): it takes the lock or gives it back, it makes one access to the shared
memory, or it is at its end.  It is `Disciplined` if it accesses the memory only between taking the
lock and giving it back, that is, in its sections.

* `Guarded`: the thread that has the lock is the one inside of a section.  It is an invariant.
* `run_serial`: the sections are atomic.  Whatever the interleaving, the memory is what some of the
  threads' sections have made of it, one after the other and each without interruption, up to the
  accesses of the thread that is inside.
* `exists_final`: where each step that is not repeated makes something less, and each thread makes a
  step again and again, the threads come to their end. -/

namespace Monitor

/-- What a program does next; afterwards it is in the local state `l`. -/
inductive Action (ε σ L : Type) where
  | enter (l : L)
  | leave (l : L)
  | access (f : σ → Except ε (σ × L))
  | done

/-- The programs of the threads. -/
abbrev Code (ι ε σ L : Type) := ι → L → Action ε σ L

structure State (ι σ L : Type) where
  holder : Option ι
  shared : σ
  loc : ι → L

variable {ι ε σ L : Type} [DecidableEq ι]

/-- The thread `p` goes on in the local state `l`. -/
def State.goto (s : State ι σ L) (p : ι) (l : L) : State ι σ L :=
  { s with loc := Function.update s.loc p l }

variable (code : Code ι ε σ L) (inside : L → Prop)

/-- A step of the thread `p`. -/
inductive Step (s : State ι σ L) (p : ι) : State ι σ L → Prop where
  | enter {l : L} (hc : code p (s.loc p) = .enter l) (hfree : s.holder = none) :
      Step s p { s.goto p l with holder := some p }
  | leave {l : L} (hc : code p (s.loc p) = .leave l) : Step s p { s.goto p l with holder := none }
  | access {f : σ → Except ε (σ × L)} {m : σ} {l : L} (hc : code p (s.loc p) = .access f)
      (hf : f s.shared = .ok (m, l)) : Step s p { s.goto p l with shared := m }

/-- The steps of the threads, in any order. -/
abbrev Run : State ι σ L → State ι σ L → Prop := Relation.ReflTransGen fun s t => ∃ p, Step code s p t

/-- The memory is accessed `inside`, between taking the lock and giving it back. -/
structure Disciplined : Prop where
  enter : ∀ {p l l'}, code p l = .enter l' → ¬ inside l ∧ inside l'
  leave : ∀ {p l l'}, code p l = .leave l' → inside l ∧ ¬ inside l'
  access : ∀ {p l f m m' l'}, code p l = .access f → f m = .ok (m', l') → inside l ∧ inside l'
  done : ∀ {p l}, code p l = .done → ¬ inside l

/-- The thread that has the lock is inside. -/
def Guarded (s : State ι σ L) : Prop := ∀ p, inside (s.loc p) ↔ s.holder = some p

/-! ### Sections -/

/-- The thread `p` accesses the memory. -/
def Access (p : ι) (x y : σ × L) : Prop := ∃ f, code p x.2 = .access f ∧ f x.1 = .ok y

/-- The thread `p` accesses the memory some times. -/
abbrev Accesses (p : ι) : σ × L → σ × L → Prop := Relation.ReflTransGen (Access code p)

/-- A thread takes the lock, accesses the memory and gives the lock back, without interruption. -/
inductive Section (a : σ × (ι → L)) : σ × (ι → L) → Prop where
  | mk {p : ι} {l l' l'' : L} {m : σ} (henter : code p (a.2 p) = .enter l)
      (hin : Accesses code p (a.1, l) (m, l')) (hleave : code p l' = .leave l'') :
      Section a (m, Function.update a.2 p l'')

/-- The sections of threads, one after the other. -/
abbrev Sections : σ × (ι → L) → σ × (ι → L) → Prop := Relation.ReflTransGen (Section code)

/-- The memory and the threads are as after the sections that have led to `a`, up to the accesses of
the thread that is inside. -/
structure After (a : σ × (ι → L)) (m : σ) (loc : ι → L) : Prop where
  outside : ∀ p, ¬ inside (loc p) → loc p = a.2 p
  idle : (∀ p, ¬ inside (loc p)) → m = a.1
  busy : ∀ p, inside (loc p) → ∃ l, code p (a.2 p) = .enter l ∧ Accesses code p (a.1, l) (m, loc p)

/-- At most one thread is inside, and the sections have been atomic. -/
structure Serial (m₀ : σ) (loc₀ : ι → L) (m : σ) (loc : ι → L) : Prop where
  exclusive : ∀ p q, inside (loc p) → inside (loc q) → p = q
  atomic : ∃ a, Sections code (m₀, loc₀) a ∧ After code inside a m loc

variable {code} {inside} {s t : State ι σ L} {p q : ι}

theorem goto_of_ne {l : L} (h : q ≠ p) : (s.goto p l).loc q = s.loc q := Function.update_of_ne h _ _

theorem goto_self {l : L} : (s.goto p l).loc p = l := Function.update_self _ _ _

omit [DecidableEq ι] in
theorem Guarded.exclusive (h : Guarded inside s) (hp : inside (s.loc p)) (hq : inside (s.loc q)) :
    p = q :=
  Option.some.inj (((h p).mp hp).symm.trans ((h q).mp hq))

/-- **A step keeps the lock.** -/
theorem Step.guarded (hd : Disciplined code inside) (h : Guarded inside s) (hs : Step code s p t) :
    Guarded inside t := by
  intro q
  have hother : q ≠ p → ∀ l, (inside ((s.goto p l).loc q) ↔ s.holder = some q) := fun hq l => by
    rw [goto_of_ne hq]
    exact h q
  cases hs with
  | @enter l hc hfree =>
      show inside ((s.goto p l).loc q) ↔ some p = some q
      by_cases hq : q = p
      · subst hq
        rw [goto_self]
        exact iff_of_true (hd.enter hc).2 rfl
      · rw [hother hq, hfree]
        exact iff_of_false (Option.some_ne_none q).symm fun he => hq (Option.some.inj he).symm
  | @leave l hc =>
      have hp := (h p).mp (hd.leave hc).1
      show inside ((s.goto p l).loc q) ↔ none = some q
      by_cases hq : q = p
      · subst hq
        rw [goto_self]
        exact iff_of_false (hd.leave hc).2 (Option.some_ne_none q).symm
      · rw [hother hq, hp]
        exact iff_of_false (fun he => hq (Option.some.inj he).symm) (Option.some_ne_none q).symm
  | @access f m l hc hf =>
      obtain ⟨hin, hin'⟩ := hd.access hc hf
      show inside ((s.goto p l).loc q) ↔ s.holder = some q
      by_cases hq : q = p
      · subst hq
        rw [goto_self]
        exact iff_of_true hin' ((h q).mp hin)
      · exact hother hq l

theorem Run.guarded (hd : Disciplined code inside) (h : Guarded inside s) (hr : Run code s t) :
    Guarded inside t := by
  induction hr with
  | refl => exact h
  | tail _ hs ih =>
      obtain ⟨p, hs⟩ := hs
      exact hs.guarded hd ih

/-! ### The sections are atomic -/

/-- **A step** is inside of a section, or it ends one. -/
theorem Step.after {a : σ × (ι → L)} (hd : Disciplined code inside) (hg : Guarded inside s)
    (h : After code inside a s.shared s.loc) (hs : Step code s p t) :
    After code inside a t.shared t.loc ∨
      ∃ b, Section code a b ∧ After code inside b t.shared t.loc := by
  cases hs with
  | @enter l hc hfree =>
      have hfree : ∀ q, ¬ inside (s.loc q) := fun q hq => by
        rw [(hg q).mp hq] at hfree
        cases hfree
      have hp : s.loc p = a.2 p := h.outside p (hfree p)
      refine Or.inl ⟨fun q hq => ?_, fun hall => ?_, fun q hq => ?_⟩
      · by_cases hqp : q = p
        · subst hqp
          rw [goto_self] at hq
          exact absurd (hd.enter hc).2 hq
        · rw [goto_of_ne hqp]
          exact h.outside q (hfree q)
      · refine absurd (hd.enter hc).2 ?_
        have := hall p
        rwa [goto_self] at this
      · have hqp : q = p := by
          by_contra hne
          rw [goto_of_ne hne] at hq
          exact hfree q hq
        subst hqp
        refine ⟨l, hp ▸ hc, ?_⟩
        show Accesses code q (a.1, l) (s.shared, (s.goto q l).loc q)
        rw [h.idle hfree, goto_self]
  | @leave l hc =>
      have hp := (hd.leave hc).1
      obtain ⟨l₀, henter, hin⟩ := h.busy p hp
      have hout : ∀ q, ¬ inside ((s.goto p l).loc q) := fun q hq => by
        by_cases hqp : q = p
        · subst hqp
          rw [goto_self] at hq
          exact (hd.leave hc).2 hq
        · rw [goto_of_ne hqp] at hq
          exact hqp (hg.exclusive hq hp)
      refine Or.inr ⟨_, .mk henter hin hc, fun q hq => ?_, fun _ => rfl, fun q hq => absurd hq (hout q)⟩
      by_cases hqp : q = p
      · subst hqp
        exact goto_self.trans (Function.update_self (f := a.2) q l).symm
      · have hq : ¬ inside (s.loc q) := by rwa [goto_of_ne hqp] at hq
        exact (goto_of_ne hqp).trans ((h.outside q hq).trans (Function.update_of_ne hqp _ _).symm)
  | @access f m l hc hf =>
      obtain ⟨hp, hp'⟩ := hd.access hc hf
      refine Or.inl ⟨fun q hq => ?_, fun hall => ?_, fun q hq => ?_⟩
      · have hqp : q ≠ p := by
          rintro rfl
          rw [goto_self] at hq
          exact hq hp'
        rw [goto_of_ne hqp] at hq ⊢
        exact h.outside q hq
      · refine absurd hp' ?_
        have := hall p
        rwa [goto_self] at this
      · have hqp : q = p := by
          by_contra hne
          rw [goto_of_ne hne] at hq
          exact hne (hg.exclusive hq hp)
        subst hqp
        obtain ⟨l₀, henter, hin⟩ := h.busy q hp
        refine ⟨l₀, henter, hin.tail ⟨f, hc, ?_⟩⟩
        rw [goto_self]
        exact hf

/-- **The sections are atomic.** -/
theorem run_serial (hd : Disciplined code inside) (h0 : ∀ p, ¬ inside (s.loc p))
    (hfree : s.holder = none) (hr : Run code s t) :
    Serial code inside s.shared s.loc t.shared t.loc := by
  have hg : Guarded inside s := fun p =>
    iff_of_false (h0 p) (by rw [hfree]; exact (Option.some_ne_none p).symm)
  refine ⟨fun p q hp hq => (Run.guarded hd hg hr).exclusive hp hq, ?_⟩
  induction hr with
  | refl => exact ⟨_, .refl, fun _ _ => rfl, fun _ => rfl, fun p hp => absurd hp (h0 p)⟩
  | tail hr hs ih =>
      obtain ⟨p, hs⟩ := hs
      obtain ⟨a, ha, hafter⟩ := ih
      rcases hs.after hd (Run.guarded hd hg hr) hafter with h | ⟨b, hb, h⟩
      · exact ⟨a, ha, h⟩
      · exact ⟨b, ha.tail hb, h⟩

/-! ### Coming to the end -/

omit [DecidableEq ι] in
/-- **Fair schedules.**  Each step repeats the state or makes a rank less, and where the state is not
one of `F` there is a thread that does not repeat it.  If each thread makes a step again and again, a
state of `F` comes. -/
theorem exists_final {τ : Type} {E : ℕ → τ} {who : ℕ → ι} {P : Finset ι} {F : τ → Prop}
    (rank : τ → ℕ) (hstep : ∀ n, E (n + 1) = E n ∨ rank (E (n + 1)) < rank (E n))
    (hhelp : ∀ n, ¬ F (E n) → ∃ p ∈ P, ∀ m, E m = E n → who m = p → E (m + 1) ≠ E n)
    (hfair : ∀ p ∈ P, ∀ n, ∃ m, n ≤ m ∧ who m = p) : ∃ n, F (E n) := by
  have key : ∀ r n, rank (E n) = r → ∃ k, F (E k) := by
    intro r
    induction r using Nat.strong_induction_on with
    | _ r ih =>
        intro n hr
        by_cases hf : F (E n)
        · exact ⟨n, hf⟩
        obtain ⟨p, hp, hmoves⟩ := hhelp n hf
        obtain ⟨m, hnm, hm⟩ := hfair p hp n
        by_cases hless : ∃ k, rank (E k) < rank (E n)
        · obtain ⟨k, hk⟩ := hless
          exact ih _ (hr ▸ hk) k rfl
        · -- the state is repeated until the thread makes its step
          have hsame : ∀ k, n ≤ k → E k = E n := by
            intro k hk
            induction k, hk using Nat.le_induction with
            | base => rfl
            | succ k hk ihk =>
                rcases hstep k with he | hlt
                · exact he.trans ihk
                · exact absurd ⟨k + 1, ihk ▸ hlt⟩ hless
          exact absurd (hsame (m + 1) (Nat.le_succ_of_le hnm)) (hmoves m (hsame m hnm) hm)
  exact key _ 0 rfl

end Monitor
