import Ysos.Runs

/-! # Scheduling one processor

A scheduler without a machine: processes `π` with a status and a saved context `γ`, a queue of
ready processes, and places `ρ` where processes wait.  The running process gives up the
processor by joining the ready queue (`enqueue`), by waiting somewhere (`park`) or by dying;
then the next ready process is picked (`Pick`), skipping processes that died in the queue.

* `Ok anchor run s`: every process is in one situation (`Situation`), so that none is queued
  twice or lost, for a scheduler whose process `run` is on the processor (`none` between giving
  up the processor and the pick) and whose process `anchor` never waits and never dies.  Every
  operation keeps it, and the anchor makes sure that a pick finds a process (`Ok.pick`).
* `Kept p c s`: the context of `p` is `c`, and nothing but its own pick will use it
  (`Kept.others`, `Kept.pick`).
* `Parked p a c s`: `p` waits at `a` with the saved context `c`; a wake-up may change the
  context once, on the way to `Kept` (`Parked.others`).

`Others` is the closure of what happens to processes that are not on the processor. -/

namespace Sched

inductive Status where
  | running
  | ready
  | blocked
  | dead
deriving DecidableEq, Repr

@[ext] structure State (π γ ρ : Type*) where
  status : π → Option Status
  saved : π → γ
  ready : List π
  waiting : ρ → Multiset π
  cur : π

variable {π γ ρ : Type*} [DecidableEq π] [DecidableEq ρ]

namespace State

/-- `p` joins the ready queue with the context `c`. -/
def enqueue (s : State π γ ρ) (p : π) (c : γ) : State π γ ρ :=
  { s with
    status := Function.update s.status p (some .ready)
    saved := Function.update s.saved p c
    ready := s.ready ++ [p] }

/-- `p` waits at `a` with the context `c`. -/
def park (s : State π γ ρ) (a : ρ) (p : π) (c : γ) : State π γ ρ :=
  { s with
    status := Function.update s.status p (some .blocked)
    saved := Function.update s.saved p c
    waiting := Function.update s.waiting a (p ::ₘ s.waiting a) }

def die (s : State π γ ρ) (p : π) : State π γ ρ :=
  { s with status := Function.update s.status p (some .dead) }

/-- `p` is woken at `a` and joins the ready queue, its saved context changed by `f`. -/
def wake (s : State π γ ρ) (a : ρ) (p : π) (f : γ → γ) : State π γ ρ :=
  { s with
    status := Function.update s.status p (some .ready)
    saved := Function.update s.saved p (f (s.saved p))
    ready := s.ready ++ [p]
    waiting := Function.update s.waiting a ((s.waiting a).erase p) }

/-- The place `a` is gone; nobody who waits there will be woken. -/
def forget (s : State π γ ρ) (a : ρ) : State π γ ρ :=
  { s with waiting := Function.update s.waiting a 0 }

section Frame
variable (s : State π γ ρ) {p q : π} {a : ρ} {c : γ} {f : γ → γ}

omit [DecidableEq ρ] in
theorem enqueue_other (h : q ≠ p) :
    (s.enqueue p c).status q = s.status q ∧ (s.enqueue p c).saved q = s.saved q :=
  ⟨Function.update_of_ne h _ _, Function.update_of_ne h _ _⟩

theorem park_other (h : q ≠ p) :
    (s.park a p c).status q = s.status q ∧ (s.park a p c).saved q = s.saved q :=
  ⟨Function.update_of_ne h _ _, Function.update_of_ne h _ _⟩

omit [DecidableEq ρ] in
theorem die_other (h : q ≠ p) : (s.die p).status q = s.status q := Function.update_of_ne h _ _

theorem wake_other (h : q ≠ p) :
    (s.wake a p f).status q = s.status q ∧ (s.wake a p f).saved q = s.saved q :=
  ⟨Function.update_of_ne h _ _, Function.update_of_ne h _ _⟩

end Frame

end State

/-- The next process is picked: entries that are not ready are dropped, the first ready one runs
with its saved context, and if it is the one that ran before, it goes on with the context `c`. -/
inductive Pick (c : γ) (s : State π γ ρ) : State π γ ρ → γ → Prop where
  | none (h : ∀ p ∈ s.ready, s.status p ≠ some .ready) : Pick c s { s with ready := [] } c
  | same {pre rest : List π} (h : s.ready = pre ++ s.cur :: rest)
      (hpre : ∀ p ∈ pre, s.status p ≠ some .ready) (hr : s.status s.cur = some .ready) :
      Pick c s { s with ready := rest } c
  | switch {pre rest : List π} {p : π} (h : s.ready = pre ++ p :: rest)
      (hpre : ∀ p ∈ pre, s.status p ≠ some .ready) (hr : s.status p = some .ready)
      (hne : p ≠ s.cur) :
      Pick c s { s with status := Function.update s.status p (some .running), ready := rest,
                        cur := p } (s.saved p)

/-- Where a process is: on the processor, once in the ready queue, once at one place, or in no
queue at all, with the statuses it can have there.  Processes may die in a queue. -/
inductive Situation (run : Option π) (s : State π γ ρ) (p : π) : Prop where
  | onCpu (hrun : run = some p) (hst : s.status p = some .running ∨ s.status p = some .ready)
      (hready : s.ready.count p = 0) (hwait : ∀ a, (s.waiting a).count p = 0)
  | queued (hrun : run ≠ some p) (hst : s.status p = some .ready ∨ s.status p = some .dead)
      (hready : s.ready.count p = 1) (hwait : ∀ a, (s.waiting a).count p = 0)
  | waiting (a : ρ) (hrun : run ≠ some p)
      (hst : s.status p = some .blocked ∨ s.status p = some .dead)
      (hready : s.ready.count p = 0) (hwait : (s.waiting a).count p = 1)
      (hother : ∀ b, b ≠ a → (s.waiting b).count p = 0)
  | off (hrun : run ≠ some p)
      (hst : s.status p = none ∨ s.status p = some .blocked ∨ s.status p = some .dead)
      (hready : s.ready.count p = 0) (hwait : ∀ a, (s.waiting a).count p = 0)

/-- The queues agree with the statuses, for the process `run` on the processor. -/
structure Ok (anchor : π) (run : Option π) (s : State π γ ρ) : Prop where
  situation : ∀ p, Situation run s p
  anchored : s.status anchor = some .ready ∨ s.status anchor = some .running

section Laws
variable {anchor p q : π} {run run' : Option π} {s s' : State π γ ρ} {a b : ρ} {c c' : γ}

omit [DecidableEq ρ] in
/-- The situation of a process depends on its status and its places in the queues only. -/
theorem Situation.congr (h : Situation run s q) (hrun : run = some q ↔ run' = some q)
    (hst : s'.status q = s.status q) (hready : s'.ready.count q = s.ready.count q)
    (hwait : ∀ a, (s'.waiting a).count q = (s.waiting a).count q) : Situation run' s' q := by
  cases h with
  | onCpu h1 h2 h3 h4 =>
      exact .onCpu (hrun.mp h1) (hst ▸ h2) (hready.trans h3) fun a => (hwait a).trans (h4 a)
  | queued h1 h2 h3 h4 =>
      exact .queued (fun he => h1 (hrun.mpr he)) (hst ▸ h2) (hready.trans h3)
        fun a => (hwait a).trans (h4 a)
  | waiting a h1 h2 h3 h4 h5 =>
      exact .waiting a (fun he => h1 (hrun.mpr he)) (hst ▸ h2) (hready.trans h3)
        ((hwait a).trans h4) fun b hb => (hwait b).trans (h5 b hb)
  | off h1 h2 h3 h4 =>
      exact .off (fun he => h1 (hrun.mpr he)) (hst ▸ h2) (hready.trans h3)
        fun a => (hwait a).trans (h4 a)

namespace Ok

omit [DecidableEq ρ] in
theorem run_notMem (h : Ok anchor (some p) s) : p ∉ s.ready ∧ ∀ a, p ∉ s.waiting a := by
  cases h.situation p with
  | onCpu h1 h2 h3 h4 =>
      exact ⟨List.count_eq_zero.mp h3, fun a => Multiset.count_eq_zero.mp (h4 a)⟩
  | queued h1 => exact absurd rfl h1
  | waiting a h1 => exact absurd rfl h1
  | off h1 => exact absurd rfl h1

omit [DecidableEq ρ] in
theorem new_notMem (h : Ok anchor run s) (hnew : s.status p = none) :
    run ≠ some p ∧ p ∉ s.ready ∧ ∀ a, p ∉ s.waiting a := by
  cases h.situation p with
  | onCpu h1 h2 h3 h4 => simp [hnew] at h2
  | queued h1 h2 => simp [hnew] at h2
  | waiting a h1 h2 => simp [hnew] at h2
  | off h1 h2 h3 h4 =>
      exact ⟨h1, List.count_eq_zero.mp h3, fun a => Multiset.count_eq_zero.mp (h4 a)⟩

omit [DecidableEq ρ] in
/-- A process that waits is at one place only, and not in the ready queue. -/
theorem waiting_situation (h : Ok anchor run s) (hp : p ∈ s.waiting a) :
    run ≠ some p ∧ (s.status p = some .blocked ∨ s.status p = some .dead) ∧ p ∉ s.ready ∧
      (s.waiting a).count p = 1 ∧ ∀ b, b ≠ a → (s.waiting b).count p = 0 := by
  have hpos := Multiset.count_pos.mpr hp
  cases h.situation p with
  | onCpu h1 h2 h3 h4 => exact absurd (h4 a) (by omega)
  | queued h1 h2 h3 h4 => exact absurd (h4 a) (by omega)
  | waiting b h1 h2 h3 h4 h5 =>
      have hab : a = b := by
        by_contra hne
        exact absurd (h5 a hne) (by omega)
      subst hab
      exact ⟨h1, h2, List.count_eq_zero.mp h3, h4, h5⟩
  | off h1 h2 h3 h4 => exact absurd (h4 a) (by omega)

omit [DecidableEq ρ] in
theorem nodup_ready (h : Ok anchor run s) : s.ready.Nodup := by
  rw [List.nodup_iff_count_le_one]
  intro p
  cases h.situation p with
  | onCpu h1 h2 h3 => omega
  | queued h1 h2 h3 => omega
  | waiting a h1 h2 h3 => omega
  | off h1 h2 h3 => omega

omit [DecidableEq ρ] in
/-- Who is in the ready queue is ready, or died there. -/
theorem status_of_mem (h : Ok anchor run s) (hp : p ∈ s.ready) :
    s.status p = some .ready ∨ s.status p = some .dead := by
  have hpos := List.count_pos_iff.mpr hp
  cases h.situation p with
  | onCpu h1 h2 h3 => omega
  | queued h1 h2 h3 => exact h2
  | waiting a h1 h2 h3 => omega
  | off h1 h2 h3 => omega

omit [DecidableEq ρ] in
/-- Nobody is lost: who is ready and not on the processor is in the ready queue. -/
theorem mem_of_status (h : Ok anchor run s) (hs : s.status p = some .ready) (hr : run ≠ some p) :
    p ∈ s.ready := by
  cases h.situation p with
  | onCpu h1 => exact absurd h1 hr
  | queued h1 h2 h3 => exact List.count_pos_iff.mp (by omega)
  | waiting a h1 h2 => simp [hs] at h2
  | off h1 h2 => simp [hs] at h2

omit [DecidableEq ρ] in
theorem run_of_running (h : Ok anchor run s) (hs : s.status p = some .running) : run = some p := by
  cases h.situation p with
  | onCpu h1 => exact h1
  | queued h1 h2 => simp [hs] at h2
  | waiting a h1 h2 => simp [hs] at h2
  | off h1 h2 => simp [hs] at h2

/-! ### What keeps the invariant -/

omit [DecidableEq ρ] in
theorem enqueue (h : Ok anchor run s) (hready : p ∉ s.ready) (hwait : ∀ a, p ∉ s.waiting a)
    (hrun : ∀ q, q ≠ p → (run = some q ↔ run' = some q)) (hp : run' ≠ some p) :
    Ok anchor run' (s.enqueue p c) := by
  refine ⟨fun q => ?_, ?_⟩
  · by_cases hqp : q = p
    · subst hqp
      refine .queued hp (Or.inl (Function.update_self _ _ _)) ?_
        fun a => Multiset.count_eq_zero.mpr (hwait a)
      simp [State.enqueue, List.count_append, List.count_eq_zero.mpr hready]
    · refine (h.situation q).congr (hrun q hqp) (Function.update_of_ne hqp _ _) ?_ fun _ => rfl
      simp [State.enqueue, List.count_append, Ne.symm hqp]
  · by_cases hap : anchor = p
    · exact Or.inl (hap ▸ Function.update_self _ _ _)
    · simpa [State.enqueue, Function.update_of_ne hap] using h.anchored

omit [DecidableEq ρ] in
theorem create (h : Ok anchor run s) (hnew : s.status p = none) : Ok anchor run (s.enqueue p c) := by
  obtain ⟨h1, h2, h3⟩ := h.new_notMem hnew
  exact h.enqueue h2 h3 (fun _ _ => Iff.rfl) h1

omit [DecidableEq ρ] in
theorem yield (h : Ok anchor (some p) s) : Ok anchor none (s.enqueue p c) := by
  obtain ⟨h2, h3⟩ := h.run_notMem
  refine h.enqueue h2 h3 (fun q hq => ?_) nofun
  exact ⟨fun he => absurd (Option.some.inj he).symm hq, nofun⟩

theorem park (h : Ok anchor (some p) s) (hp : p ≠ anchor) : Ok anchor none (s.park a p c) := by
  obtain ⟨hready, hwait⟩ := h.run_notMem
  refine ⟨fun q => ?_, ?_⟩
  · by_cases hqp : q = p
    · subst hqp
      refine .waiting a nofun (Or.inl (Function.update_self _ _ _)) (List.count_eq_zero.mpr hready)
        ?_ fun b hb => ?_
      · simp [State.park, Multiset.count_eq_zero.mpr (hwait a)]
      · simp [State.park, hb, Multiset.count_eq_zero.mpr (hwait b)]
    · refine (h.situation q).congr ⟨fun he => absurd (Option.some.inj he).symm hqp, nofun⟩
        (Function.update_of_ne hqp _ _) rfl fun b => ?_
      by_cases hb : b = a
      · subst hb
        simp [State.park, Multiset.count_cons_of_ne hqp]
      · simp [State.park, hb]
  · simpa [State.park, Function.update_of_ne (Ne.symm hp)] using h.anchored

omit [DecidableEq ρ] in
/-- A process dies, in whatever queue it is; if it was on the processor, nobody is. -/
theorem die (h : Ok anchor run s) (hp : p ≠ anchor)
    (hrun : ∀ q, q ≠ p → (run = some q ↔ run' = some q)) (hr : run' ≠ some p) :
    Ok anchor run' (s.die p) := by
  refine ⟨fun q => ?_, ?_⟩
  · by_cases hqp : q = p
    · subst hqp
      have hdead : (s.die q).status q = some .dead := Function.update_self _ _ _
      cases h.situation q with
      | onCpu h1 h2 h3 h4 => exact .off hr (Or.inr (Or.inr hdead)) h3 h4
      | queued h1 h2 h3 h4 => exact .queued hr (Or.inr hdead) h3 h4
      | waiting a h1 h2 h3 h4 h5 => exact .waiting a hr (Or.inr hdead) h3 h4 h5
      | off h1 h2 h3 h4 => exact .off hr (Or.inr (Or.inr hdead)) h3 h4
    · exact (h.situation q).congr (hrun q hqp) (Function.update_of_ne hqp _ _) rfl fun _ => rfl
  · simpa [State.die, Function.update_of_ne (Ne.symm hp)] using h.anchored

theorem wake {f : γ → γ} (h : Ok anchor run s) (hp : p ∈ s.waiting a) :
    Ok anchor run (s.wake a p f) := by
  obtain ⟨hrun, -, hready, hone, hother⟩ := h.waiting_situation hp
  refine ⟨fun q => ?_, ?_⟩
  · by_cases hqp : q = p
    · subst hqp
      refine .queued hrun (Or.inl (Function.update_self _ _ _)) ?_ fun b => ?_
      · simp [State.wake, List.count_append, List.count_eq_zero.mpr hready]
      · by_cases hb : b = a
        · subst hb
          simp [State.wake, hone]
        · simp [State.wake, hb, hother b hb]
    · refine (h.situation q).congr Iff.rfl (Function.update_of_ne hqp _ _) ?_ fun b => ?_
      · simp [State.wake, List.count_append, Ne.symm hqp]
      · by_cases hb : b = a
        · subst hb
          simp [State.wake, Multiset.count_erase_of_ne hqp]
        · simp [State.wake, hb]
  · by_cases hap : anchor = p
    · exact Or.inl (hap ▸ Function.update_self _ _ _)
    · simpa [State.wake, Function.update_of_ne hap] using h.anchored

theorem forget (h : Ok anchor run s) : Ok anchor run (s.forget a) := by
  refine ⟨fun q => ?_, h.anchored⟩
  by_cases hq : q ∈ s.waiting a
  · obtain ⟨hrun, hst, hready, -, hother⟩ := h.waiting_situation hq
    refine .off hrun (Or.inr hst) (List.count_eq_zero.mpr hready) fun b => ?_
    by_cases hb : b = a
    · subst hb
      simp [State.forget]
    · simp [State.forget, hb, hother b hb]
  · refine (h.situation q).congr Iff.rfl rfl rfl fun b => ?_
    by_cases hb : b = a
    · subst hb
      simp [State.forget, Multiset.count_eq_zero.mpr hq]
    · simp [State.forget, hb]

omit [DecidableEq ρ] in
/-- The first ready process `p` of the queue goes on the processor; the entries before it are
dropped. -/
theorem resume {pre rest : List π} {st : π → Option Status} (h : Ok anchor none s)
    (hready : s.ready = pre ++ p :: rest) (hpre : ∀ q ∈ pre, s.status q ≠ some .ready)
    (hr : s.status p = some .ready) (hst : ∀ q, q ≠ p → st q = s.status q)
    (hp : st p = some .running ∨ st p = some .ready) :
    Ok anchor (some p) { s with status := st, ready := rest, cur := p } := by
  have hnd := h.nodup_ready
  rw [hready] at hnd
  obtain ⟨-, hcons, hdisj⟩ := List.nodup_append.mp hnd
  refine ⟨fun q => ?_, ?_⟩
  · by_cases hqp : q = p
    · subst hqp
      refine .onCpu rfl hp (List.count_eq_zero.mpr (List.nodup_cons.mp hcons).1) fun a => ?_
      rw [Multiset.count_eq_zero]
      intro hm
      rcases (h.waiting_situation hm).2.1 with hs | hs <;> simp [hr] at hs
    · have hne : some p ≠ some q := fun he => hqp (Option.some.inj he).symm
      by_cases hq : q ∈ pre
      · -- a dropped entry is dead, and in no queue any more
        have hmem : q ∈ s.ready := hready ▸ List.mem_append_left _ hq
        have hdead := (h.status_of_mem hmem).resolve_left (hpre q hq)
        refine .off hne (Or.inr (Or.inr ((hst q hqp).trans hdead))) ?_ fun a => ?_
        · exact List.count_eq_zero.mpr fun hm => hdisj q hq q (List.mem_cons_of_mem _ hm) rfl
        · rw [Multiset.count_eq_zero]
          exact fun hm => (h.waiting_situation hm).2.2.1 hmem
      · refine (h.situation q).congr ⟨nofun, fun he => absurd he hne⟩ (hst q hqp) ?_ fun _ => rfl
        rw [hready, List.count_append, List.count_eq_zero.mpr hq,
          List.count_cons_of_ne (Ne.symm hqp), Nat.zero_add]
  · by_cases hap : anchor = p
    · exact hap ▸ hp.symm
    · show st anchor = _ ∨ st anchor = _
      rw [hst anchor hap]
      exact h.anchored

omit [DecidableEq ρ] in
/-- **The pick.**  After the processor was given up, the pick finds a ready process and puts it
on the processor. -/
theorem pick (h : Ok anchor none s) (hpick : Pick c s s' c') : Ok anchor (some s'.cur) s' := by
  have hanchor : s.status anchor = some .ready :=
    h.anchored.resolve_right fun hr => nomatch h.run_of_running hr
  cases hpick with
  | none hnone => exact absurd hanchor (hnone anchor (h.mem_of_status hanchor nofun))
  | same hready hpre hr => exact h.resume hready hpre hr (fun _ _ => rfl) (Or.inr hr)
  | switch hready hpre hr hne =>
      exact h.resume hready hpre hr (fun q hq => Function.update_of_ne hq _ _)
        (Or.inl (Function.update_self _ _ _))

end Ok

/-! ### What happens to the processes that are not on the processor -/

/-- One thing that happens while the process `run` keeps the processor or after it gave it up: a
process is created, dies, is woken, or the place where it waits is removed.  `W a f` says that a
wake-up at `a` may change the saved context by `f`, `F a` that the place `a` may be removed. -/
inductive Event (anchor : π) (run : Option π) (W : ρ → (γ → γ) → Prop) (F : ρ → Prop)
    (s : State π γ ρ) : State π γ ρ → Prop where
  | create {p : π} (c : γ) (hnew : s.status p = none) : Event anchor run W F s (s.enqueue p c)
  | die {p : π} (hp : p ≠ anchor) (hrun : run ≠ some p) (hs : s.status p ≠ none) :
      Event anchor run W F s (s.die p)
  | wake {a : ρ} {p : π} {f : γ → γ} (hf : W a f) (hp : p ∈ s.waiting a) :
      Event anchor run W F s (s.wake a p f)
  | forget {a : ρ} (hF : F a) : Event anchor run W F s (s.forget a)

/-- Any number of such events. -/
abbrev Others (anchor : π) (run : Option π) (W : ρ → (γ → γ) → Prop) (F : ρ → Prop) :
    State π γ ρ → State π γ ρ → Prop :=
  Relation.ReflTransGen (Event anchor run W F)

variable {W : ρ → (γ → γ) → Prop} {F : ρ → Prop}

theorem Ok.event (h : Ok anchor run s) (he : Event anchor run W F s s') : Ok anchor run s' := by
  cases he with
  | create c hnew => exact h.create hnew
  | die hp hrun => exact h.die hp (fun _ _ => Iff.rfl) hrun
  | wake hf hp => exact h.wake hp
  | forget hF => exact h.forget

theorem Ok.others (h : Ok anchor run s) (he : Others anchor run W F s s') : Ok anchor run s' := by
  induction he with
  | refl => exact h
  | tail _ he ih => exact ih.event he

theorem Event.cur_eq (he : Event anchor run W F s s') : s'.cur = s.cur := by
  cases he <;> rfl

theorem Others.cur_eq (he : Others anchor run W F s s') : s'.cur = s.cur := by
  induction he with
  | refl => rfl
  | tail _ he ih => exact he.cur_eq.trans ih

/-! ### Saved contexts -/

/-- `p` has the saved context `c`, which no wake-up will change. -/
structure Kept (p : π) (c : γ) (s : State π γ ρ) : Prop where
  known : s.status p ≠ none
  saved : s.saved p = c
  free : ∀ a, p ∉ s.waiting a

/-- `p` waits at `a` with the saved context `c`. -/
structure Parked (p : π) (a : ρ) (c : γ) (s : State π γ ρ) : Prop where
  known : s.status p ≠ none
  saved : s.saved p = c
  mem : p ∈ s.waiting a

omit [DecidableEq ρ] in
theorem Kept.enqueue (h : Kept p c s) (hqp : q ≠ p) : Kept p c (s.enqueue q c') := by
  refine ⟨?_, ?_, h.free⟩
  · rw [(s.enqueue_other (Ne.symm hqp)).1]
    exact h.known
  · rw [(s.enqueue_other (Ne.symm hqp)).2]
    exact h.saved

theorem Kept.park (h : Kept p c s) (hqp : q ≠ p) : Kept p c (s.park a q c') := by
  refine ⟨?_, ?_, fun b => ?_⟩
  · rw [(s.park_other (Ne.symm hqp)).1]
    exact h.known
  · rw [(s.park_other (Ne.symm hqp)).2]
    exact h.saved
  · by_cases hb : b = a
    · subst hb
      simp [State.park, Ne.symm hqp, h.free b]
    · simp [State.park, hb, h.free b]

omit [DecidableEq ρ] in
theorem Kept.die (h : Kept p c s) : Kept p c (s.die q) := by
  refine ⟨?_, h.saved, h.free⟩
  by_cases hqp : p = q
  · subst hqp
    simp [State.die]
  · rw [s.die_other hqp]
    exact h.known

theorem Kept.event (h : Kept p c s) (he : Event anchor run W F s s') : Kept p c s' := by
  cases he with
  | create c' hnew => exact h.enqueue fun he => h.known (he ▸ hnew)
  | die => exact h.die
  | @wake a q f hf hq =>
      have hqp : p ≠ q := fun he => h.free a (he ▸ hq)
      refine ⟨?_, ?_, fun b => ?_⟩
      · rw [(s.wake_other hqp).1]
        exact h.known
      · rw [(s.wake_other hqp).2]
        exact h.saved
      · by_cases hb : b = a
        · subst hb
          simp only [State.wake, Function.update_self]
          exact fun hm => h.free b (Multiset.mem_of_mem_erase hm)
        · simpa [State.wake, hb] using h.free b
  | @forget a hF =>
      refine ⟨h.known, h.saved, fun b => ?_⟩
      by_cases hb : b = a
      · subst hb
        simp [State.forget]
      · simpa [State.forget, hb] using h.free b

theorem Kept.others (h : Kept p c s) (he : Others anchor run W F s s') : Kept p c s' := by
  induction he with
  | refl => exact h
  | tail _ he ih => exact ih.event he

omit [DecidableEq ρ] in
/-- The process on the processor joins the ready queue with the context `c`. -/
theorem Ok.kept (h : Ok anchor (some p) s) : Kept p c (s.enqueue p c) := by
  refine ⟨?_, Function.update_self _ _ _, h.run_notMem.2⟩
  simp [State.enqueue]

omit [DecidableEq ρ] in
theorem Ok.kept_new (h : Ok anchor run s) (hnew : s.status p = none) : Kept p c (s.enqueue p c) := by
  refine ⟨?_, Function.update_self _ _ _, (h.new_notMem hnew).2.2⟩
  simp [State.enqueue]

theorem State.parked : Parked p a c (s.park a p c) := by
  refine ⟨?_, Function.update_self _ _ _, ?_⟩
  · simp [State.park]
  · simp [State.park]

omit [DecidableEq ρ] in
/-- If somebody is ready in the queue before the process on the processor, then another process is
picked, with its saved context. -/
theorem Pick.behind {l : List π} {q : π} (hpick : Pick c s s' c') (hq : s.status q = some .ready)
    (hready : s.ready = l ++ [q, s.cur]) (hcur : s.cur ∉ l) (hne : s.cur ≠ q) :
    c' = s.saved s'.cur := by
  have hmem : q ∈ s.ready := hready ▸ List.mem_append_right _ List.mem_cons_self
  cases hpick with
  | none hnone => exact absurd hq (hnone q hmem)
  | @same pre rest h hpre hr =>
      -- the process on the processor is the last in the queue, so `q` is among the dropped ones
      have hsplit : (l ++ [q]) ++ [s.cur] = pre ++ s.cur :: rest := by
        rw [← h, hready, List.append_assoc]
        rfl
      have hmem : q ∈ pre := by
        rcases List.append_eq_append_iff.mp hsplit with ⟨as, hpre, -⟩ | ⟨bs, hl, hb⟩
        · rw [hpre]
          simp
        · rcases bs with _ | ⟨x, bs⟩
          · rw [List.append_nil] at hl
            rw [← hl]
            simp
          · obtain ⟨rfl, -⟩ := List.cons.inj hb
            have hlast : s.cur ∈ l ++ [q] := hl ▸ List.mem_append_right _ List.mem_cons_self
            rcases List.mem_append.mp hlast with hm | hm
            · exact absurd hm hcur
            · exact absurd (List.mem_singleton.mp hm) hne
      exact absurd hq (hpre q hmem)
  | switch => rfl

omit [DecidableEq ρ] in
theorem Kept.pick_kept (h : Kept p c s) {c'' : γ} (hpick : Pick c' s s' c'') : Kept p c s' := by
  cases hpick with
  | none => exact ⟨h.known, h.saved, h.free⟩
  | same => exact ⟨h.known, h.saved, h.free⟩
  | @switch pre rest q hready hpre hr hne =>
      refine ⟨?_, h.saved, h.free⟩
      by_cases hqp : p = q
      · subst hqp
        simp
      · simpa [Function.update_of_ne hqp] using h.known

omit [DecidableEq ρ] in
theorem Kept.pick (h : Kept p c s) (hc : s.cur = p → c' = c) {c'' : γ} (hpick : Pick c' s s' c'') :
    Kept p c s' ∧ (s'.cur = p → c'' = c) := by
  refine ⟨h.pick_kept hpick, ?_⟩
  cases hpick with
  | none => exact hc
  | same => exact hc
  | switch =>
      rintro rfl
      exact h.saved

omit [DecidableEq ρ] in
theorem Parked.enqueue (h : Parked p a c s) (hqp : q ≠ p) : Parked p a c (s.enqueue q c') := by
  refine ⟨?_, ?_, h.mem⟩
  · rw [(s.enqueue_other (Ne.symm hqp)).1]
    exact h.known
  · rw [(s.enqueue_other (Ne.symm hqp)).2]
    exact h.saved

theorem Parked.park (h : Parked p a c s) (hqp : q ≠ p) : Parked p a c (s.park b q c') := by
  refine ⟨?_, ?_, ?_⟩
  · rw [(s.park_other (Ne.symm hqp)).1]
    exact h.known
  · rw [(s.park_other (Ne.symm hqp)).2]
    exact h.saved
  · by_cases hb : a = b
    · subst hb
      simp [State.park, h.mem]
    · simpa [State.park, hb] using h.mem

omit [DecidableEq ρ] in
theorem Parked.die (h : Parked p a c s) : Parked p a c (s.die q) := by
  refine ⟨?_, h.saved, h.mem⟩
  by_cases hqp : p = q
  · subst hqp
    simp [State.die]
  · rw [s.die_other hqp]
    exact h.known

/-- A waiting process stays where it is until it is woken, or its place is removed. -/
theorem Parked.event (hok : Ok anchor run s) (h : Parked p a c s)
    (he : Event anchor run W F s s') :
    Parked p a c s' ∨ (∃ f, W a f ∧ Kept p (f c) s') ∨ F a ∧ Kept p c s' := by
  cases he with
  | create c' hnew => exact Or.inl (h.enqueue fun he => h.known (he ▸ hnew))
  | die => exact Or.inl h.die
  | @wake b q f hf hq =>
      by_cases hqp : p = q
      · subst hqp
        obtain ⟨-, -, -, hone, hother⟩ := hok.waiting_situation h.mem
        have hab : b = a := by
          by_contra hne
          exact absurd (Multiset.count_pos.mpr hq) (by rw [hother b hne]; exact lt_irrefl 0)
        subst hab
        refine Or.inr (Or.inl ⟨f, hf, ?_, ?_, fun d => ?_⟩)
        · simp [State.wake]
        · simp [State.wake, h.saved]
        · rw [← Multiset.count_eq_zero]
          by_cases hd : d = b
          · subst hd
            simp [State.wake, hone]
          · simpa [State.wake, hd] using hother d hd
      · refine Or.inl ⟨?_, ?_, ?_⟩
        · rw [(s.wake_other hqp).1]
          exact h.known
        · rw [(s.wake_other hqp).2]
          exact h.saved
        · by_cases hb : a = b
          · subst hb
            simpa [State.wake, Multiset.mem_erase_of_ne hqp] using h.mem
          · simpa [State.wake, hb] using h.mem
  | @forget b hF =>
      by_cases hb : a = b
      · subst hb
        obtain ⟨-, -, -, -, hother⟩ := hok.waiting_situation h.mem
        refine Or.inr (Or.inr ⟨hF, h.known, h.saved, fun d => ?_⟩)
        rw [← Multiset.count_eq_zero]
        by_cases hd : d = a
        · subst hd
          simp [State.forget]
        · simpa [State.forget, hd] using hother d hd
      · exact Or.inl ⟨h.known, h.saved, by simpa [State.forget, hb] using h.mem⟩

theorem Parked.others (hok : Ok anchor run s) (h : Parked p a c s)
    (he : Others anchor run W F s s') :
    Parked p a c s' ∨ (∃ f, W a f ∧ Kept p (f c) s') ∨ F a ∧ Kept p c s' := by
  induction he with
  | refl => exact Or.inl h
  | tail hs he ih =>
      rcases ih with ih | ⟨f, hf, ih⟩ | ⟨hF, ih⟩
      · exact ih.event (hok.others hs) he
      · exact Or.inr (Or.inl ⟨f, hf, ih.event he⟩)
      · exact Or.inr (Or.inr ⟨hF, ih.event he⟩)

omit [DecidableEq ρ] in
theorem Parked.pick (hok : Ok anchor none s) (h : Parked p a c s) {c'' : γ} (hpick : Pick c' s s' c'') :
    Parked p a c s' ∧ s'.cur ≠ p := by
  have hok' := hok.pick hpick
  have hmem : p ∈ s'.waiting a := by
    cases hpick <;> exact h.mem
  have hne : s'.cur ≠ p := fun he => hok'.run_notMem.2 a (he ▸ hmem)
  refine ⟨⟨?_, ?_, hmem⟩, hne⟩
  · cases hpick with
    | none => exact h.known
    | same => exact h.known
    | switch => simpa [Function.update_of_ne (Ne.symm hne)] using h.known
  · cases hpick <;> exact h.saved

end Laws

end Sched
