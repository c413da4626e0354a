import Ysos.Threads

/-! # The dinner (`app/dinner`)

Five philosophers with five chopsticks and a waiter, on the semaphores of the kernel.  The waiter
has the key of the last chopstick, so that the four permits that `main` makes for the waiter are
those of the chopstick as well.

* `Dinner.AsIntended`: a call on that key does what it would do if the waiter had a key of its own.
* `Dinner.safe_and_live`: in every run of such calls no two neighbours eat at the same time, and
  as long as somebody has not finished, somebody who has not is not blocked.
* `Dinner.neighbours_eat_and_deadlock`: without the condition both fail. -/

namespace Ysos

open Runs Threads

namespace Dinner

/-! ### The program -/

/-- `semaphore_array![0, 1, 2, 3, 4]` -/
def CHOPSTICKS (i : ℕ) : SemaphoreId := i
def WAITER : SemaphoreId := 4

def PHILOSOPHER_COUNT : ℕ := 5
def EAT_TIMES : ℕ := 3

/-- The second chopstick of a philosopher. -/
def right (id : ℕ) : ℕ := (id + 1) % PHILOSOPHER_COUNT

/-- The points of a turn, by the call that comes next. -/
inductive Pc where
  | waitWaiter
  | waitFirst
  | waitSecond
  | eating
  | signalSecond
  | signalWaiter
  | left
deriving DecidableEq, Repr

structure Philosopher where
  turn : ℕ
  pc : Pc
deriving DecidableEq, Repr

/-- The head of the loop over the turns; the deadlock demo does not ask the waiter. -/
def startTurn (demo turn : ℕ) : Philosopher :=
  if turn < EAT_TIMES then ⟨turn, if demo = 1 then .waitFirst else .waitWaiter⟩ else ⟨turn, .left⟩

def philosopher (demo : ℕ) : Code Unit Philosopher := fun id ph =>
  match ph with
  | ⟨turn, .waitWaiter⟩ => .wait WAITER ⟨turn, .waitFirst⟩
  | ⟨turn, .waitFirst⟩ => .wait (CHOPSTICKS id) ⟨turn, .waitSecond⟩
  | ⟨turn, .waitSecond⟩ => .wait (CHOPSTICKS (right id)) ⟨turn, .eating⟩
  | ⟨turn, .eating⟩ => .signal (CHOPSTICKS id) ⟨turn, .signalSecond⟩
  | ⟨turn, .signalSecond⟩ => .signal (CHOPSTICKS (right id))
      (if demo = 1 then startTurn demo (turn + 1) else ⟨turn, .signalWaiter⟩)
  | ⟨turn, .signalWaiter⟩ => .signal WAITER (startTurn demo (turn + 1))
  | ⟨_, .left⟩ => .exited

/-- The semaphores that `main` makes. -/
def initSems (demo : ℕ) : SemaphoreSet :=
  let sems := (List.range PHILOSOPHER_COUNT).foldl
    (fun sems i => (sems.insert (CHOPSTICKS i) 1).2) SemaphoreSet.empty
  if demo = 1 then sems else (sems.insert WAITER (PHILOSOPHER_COUNT - 1)).2

/-- The state when `main` has made the semaphores and the philosophers. -/
def init (demo : ℕ) : State Unit Philosopher where
  sems := initSems demo
  shared := ()
  loc id := if id < PHILOSOPHER_COUNT then startTurn demo 0 else ⟨0, .left⟩
  blocked := fun _ => false

/-- The philosophers. -/
def philosophers : Finset ProcessId := Finset.range PHILOSOPHER_COUNT

/-! ### What the semaphores stand for -/

/-- The waiter and the chopsticks. -/
inductive Resource where
  | waiter
  | chopstick (i : ℕ)
deriving DecidableEq, Repr

namespace Resource

def key : Resource → SemaphoreId
  | waiter => WAITER
  | chopstick i => CHOPSTICKS i

/-- How many philosophers may have it. -/
def permits : Resource → ℤ
  | waiter => PHILOSOPHER_COUNT - 1
  | chopstick _ => 1

end Resource

/-- What a philosopher waits for at this point. -/
def Pc.needs (id : ℕ) : Pc → Option Resource
  | .waitWaiter => some .waiter
  | .waitFirst => some (.chopstick id)
  | .waitSecond => some (.chopstick (right id))
  | _ => none

/-- What a philosopher gives back at this point. -/
def Pc.returns (id : ℕ) : Pc → Option Resource
  | .eating => some (.chopstick id)
  | .signalSecond => some (.chopstick (right id))
  | .signalWaiter => some .waiter
  | _ => none

/-- Whether a philosopher has a resource: the waiter from the first wait to the last signal of a
turn, a chopstick from its wait to its signal. -/
def held : Resource → ProcessId → Philosopher → ℤ
  | .waiter, _, ph => if ph.pc = .waitWaiter ∨ ph.pc = .left then 0 else 1
  | .chopstick k, id, ph =>
      (if id = k ∧ (ph.pc = .waitSecond ∨ ph.pc = .eating) then 1 else 0) +
      if right id = k ∧ (ph.pc = .eating ∨ ph.pc = .signalSecond) then 1 else 0

/-- How many philosophers have the resource. -/
def taken (s : State Unit Philosopher) (r : Resource) : ℤ :=
  ∑ id ∈ philosophers, held r id (s.loc id)

/-- The next call of `id` does what it would do on a semaphore of its own for each resource:
a `wait` blocks exactly if the resource is all taken, and a `signal` wakes only a philosopher that
waits for the resource that is given back. -/
def Intended (s : State Unit Philosopher) (id : ProcessId) : Prop :=
  (∀ r ∈ (s.loc id).pc.needs id, ∀ sem ∈ s.sems r.key, sem.count = 0 ↔ taken s r = r.permits) ∧
  ∀ r ∈ (s.loc id).pc.returns id, ∀ sem ∈ s.sems r.key, ∀ q ∈ sem.waitQueue.head?,
    (s.loc q).pc.needs q = some r

/-- The condition for the key that the waiter shares with a chopstick. -/
def AsIntended (s : State Unit Philosopher) (id : ProcessId) : Prop :=
  (∀ r ∈ (s.loc id).pc.needs id, r.key = WAITER →
    ∀ sem ∈ s.sems r.key, sem.count = 0 ↔ taken s r = r.permits) ∧
  ∀ r ∈ (s.loc id).pc.returns id, r.key = WAITER → ∀ sem ∈ s.sems r.key,
    ∀ q ∈ sem.waitQueue.head?, (s.loc q).pc.needs q = some r

instance (s : State Unit Philosopher) (id : ProcessId) : Decidable (AsIntended s id) :=
  inferInstanceAs (Decidable (_ ∧ _))

variable {B : Build} {demo : ℕ} {s t : State Unit Philosopher} {id : ProcessId}

/-! ### The points of a turn -/

theorem philosopher_wait {l l' : Philosopher} {key : SemaphoreId}
    (h : philosopher demo id l = .wait key l') :
    ∃ r, l.pc.needs id = some r ∧ key = r.key ∧
      ∀ r', held r' id l' = held r' id l + if r = r' then 1 else 0 := by
  obtain ⟨turn, pc⟩ := l
  cases pc <;> cases h
  · refine ⟨.waiter, rfl, rfl, fun r' => ?_⟩
    cases r' <;> simp [held]
  · refine ⟨.chopstick id, rfl, rfl, fun r' => ?_⟩
    cases r' <;> simp [held]
  · refine ⟨.chopstick (right id), rfl, rfl, fun r' => ?_⟩
    cases r' <;> simp [held]

theorem held_startTurn {r : Resource} {turn : ℕ} (hdemo : demo ≠ 1) :
    held r id (startTurn demo turn) = 0 := by
  unfold startTurn
  rw [if_neg hdemo]
  split_ifs <;> cases r <;> simp [held]

theorem philosopher_signal {l l' : Philosopher} {key : SemaphoreId} (hdemo : demo ≠ 1)
    (h : philosopher demo id l = .signal key l') :
    ∃ r, l.pc.returns id = some r ∧ key = r.key ∧
      ∀ r', held r' id l' = held r' id l - if r = r' then 1 else 0 := by
  obtain ⟨turn, pc⟩ := l
  cases pc <;> simp only [philosopher, if_neg hdemo] at h <;> cases h
  · refine ⟨.chopstick id, rfl, rfl, fun r' => ?_⟩
    cases r' <;> simp [held]
  · refine ⟨.chopstick (right id), rfl, rfl, fun r' => ?_⟩
    cases r' <;> simp [held]
  · refine ⟨.waiter, rfl, rfl, fun r' => ?_⟩
    rw [held_startTurn hdemo]
    cases r' <;> simp [held]

theorem philosopher_access {l : Philosopher} {f : Unit → Except Panic (Unit × Philosopher)} :
    philosopher demo id l ≠ .access f := by
  obtain ⟨turn, pc⟩ := l
  cases pc <;> nofun

theorem needs_of_waitsOn {l : Philosopher} {key : SemaphoreId}
    (h : WaitsOn (philosopher demo) id l key) : ∃ r, l.pc.needs id = some r ∧ key = r.key := by
  obtain ⟨l', h⟩ := h
  obtain ⟨r, hr, hkey, -⟩ := philosopher_wait h
  exact ⟨r, hr, hkey⟩

theorem waitsOn_of_needs {l : Philosopher} {r : Resource} (h : l.pc.needs id = some r) :
    WaitsOn (philosopher demo) id l r.key := by
  obtain ⟨turn, pc⟩ := l
  cases pc <;> cases h <;> exact ⟨_, rfl⟩

/-- Apart from the key of the waiter, keys and resources are the same. -/
theorem Resource.key_inj {r : Resource} {k : ℕ} (hk : k ≠ WAITER) :
    r.key = CHOPSTICKS k ↔ r = .chopstick k := by
  cases r with
  | waiter => exact ⟨fun h => absurd h.symm hk, nofun⟩
  | chopstick i => exact ⟨fun h => congrArg _ h, fun h => Resource.chopstick.inj h⟩

/-- All that is held under one key. -/
def heldKey (key : SemaphoreId) (i : ProcessId) (l : Philosopher) : ℤ :=
  held (.chopstick key) i l + if key = WAITER then held .waiter i l else 0

theorem balanced_key (hdemo : demo ≠ 1) (key : SemaphoreId) :
    Balanced (philosopher demo) key (heldKey key) := by
  have hsum : ∀ r : Resource, ((if r = .chopstick key then 1 else 0) +
      if key = WAITER then if r = .waiter then 1 else 0 else 0 : ℤ) =
      if r.key = key then 1 else 0 := by
    intro r
    cases r with
    | waiter => simp [Resource.key, eq_comm]
    | chopstick i => by_cases hi : i = key <;> simp [Resource.key, CHOPSTICKS, hi]
  refine ⟨fun i l key' l' h => ?_, fun i l key' l' h => ?_, fun i l f m m' l' h => ?_⟩
  · obtain ⟨r, -, rfl, hr⟩ := philosopher_wait h
    rw [heldKey, hr, hr, heldKey, ← hsum r]
    split_ifs <;> omega
  · obtain ⟨r, -, rfl, hr⟩ := philosopher_signal hdemo h
    rw [heldKey, hr, hr, heldKey, ← hsum r]
    split_ifs <;> omega
  · exact absurd h philosopher_access

/-! ### The invariant -/

/-- No resource is taken more often than there are permits for it, and it is all taken while
somebody is blocked on it. -/
structure Inv (demo : ℕ) (s : State Unit Philosopher) : Prop where
  wf : Wf (philosopher demo) philosophers s
  pool : ∀ key < PHILOSOPHER_COUNT, Pool philosophers key (heldKey key)
    (if key = WAITER then PHILOSOPHER_COUNT - 1 else 1) s
  taken_le : ∀ r, taken s r ≤ r.permits
  taken_eq : ∀ id r, s.blocked id = true → (s.loc id).pc.needs id = some r →
    taken s r = r.permits

theorem held_nonneg (r : Resource) (id : ProcessId) (l : Philosopher) : 0 ≤ held r id l := by
  cases r with
  | waiter =>
      simp only [held]
      split_ifs <;> omega
  | chopstick k =>
      simp only [held]
      split_ifs <;> omega

theorem right_lt (id : ℕ) : right id < PHILOSOPHER_COUNT := Nat.mod_lt _ (by decide)

/-- The resources of a philosopher have one of the keys that `main` uses. -/
theorem key_lt {r : Resource} (hid : id ∈ philosophers)
    (h : (s.loc id).pc.needs id = some r ∨ (s.loc id).pc.returns id = some r) :
    r.key < PHILOSOPHER_COUNT := by
  have hlt : id < PHILOSOPHER_COUNT := Finset.mem_range.mp hid
  have hw : WAITER < PHILOSOPHER_COUNT := by decide
  rcases h with h | h <;> cases hpc : (s.loc id).pc <;> rw [hpc] at h <;> cases h
  · exact hw
  · exact hlt
  · exact right_lt id
  · exact hlt
  · exact right_lt id
  · exact hw

namespace Inv

theorem exists_sem (h : Inv demo s) {key : SemaphoreId} (hkey : key < PHILOSOPHER_COUNT) :
    ∃ sem, s.sems key = some sem ∧ sem.count + 1 < U64 := by
  obtain ⟨sem, hsem, hv⟩ := h.pool key hkey
  have hnonneg : 0 ≤ ∑ id ∈ philosophers, heldKey key id (s.loc id) := by
    refine Finset.sum_nonneg fun id _ => add_nonneg (held_nonneg _ _ _) ?_
    split_ifs
    · exact held_nonneg _ _ _
    · exact le_rfl
  have hle : (sem.count : ℤ) ≤ 4 := by
    have h5 : ((PHILOSOPHER_COUNT : ℕ) : ℤ) = 5 := rfl
    split_ifs at hv <;> omega
  have hU : 5 < U64 := by decide
  exact ⟨sem, hsem, by omega⟩

theorem served (h : Inv demo s) (hdemo : demo ≠ 1) (id : ProcessId) :
    Served (philosopher demo) s id := by
  have hmem : ∀ key l, philosopher demo id (s.loc id) = .wait key l ∨
      philosopher demo id (s.loc id) = .signal key l → id ∈ philosophers := fun key l hc => by
    by_contra hout
    rw [h.wf.outside id hout] at hc
    rcases hc with hc | hc <;> cases hc
  refine ⟨fun key l hc => ?_, fun key l hc => ?_⟩
  · obtain ⟨r, hr, rfl, -⟩ := philosopher_wait hc
    obtain ⟨sem, hsem, -⟩ := h.exists_sem (key_lt (hmem _ _ (Or.inl hc)) (Or.inl hr))
    simp [hsem]
  · obtain ⟨r, hr, rfl, -⟩ := philosopher_signal hdemo hc
    exact h.exists_sem (key_lt (hmem _ _ (Or.inr hc)) (Or.inr hr))

/-- With a key of its own, a call does what it should. -/
theorem intended (h : Inv demo s) (hid : id ∈ philosophers) (hc : AsIntended s id) :
    Intended s id := by
  have hown : ∀ r : Resource, r.key < PHILOSOPHER_COUNT → r.key ≠ WAITER → ∀ sem,
      s.sems r.key = some sem → r.permits = 1 ∧ (sem.count : ℤ) + taken s r = 1 := by
    intro r hlt hne sem hsem
    obtain ⟨sem', hsem', hv⟩ := h.pool r.key hlt
    rw [hsem] at hsem'
    cases hsem'
    cases r with
    | waiter => exact absurd rfl hne
    | chopstick i =>
        rw [if_neg hne] at hv
        refine ⟨rfl, ?_⟩
        rw [← hv, taken]
        congr 1
        refine Finset.sum_congr rfl fun j _ => ?_
        rw [heldKey, if_neg hne, add_zero]
        rfl
  refine ⟨fun r hr sem hsem => ?_, fun r hr sem hsem q hq => ?_⟩
  · by_cases hkey : r.key = WAITER
    · exact hc.1 r hr hkey sem hsem
    · obtain ⟨hpermits, hcount⟩ := hown r (key_lt hid (Or.inl hr)) hkey sem hsem
      rw [hpermits]
      omega
  · by_cases hkey : r.key = WAITER
    · exact hc.2 r hr hkey sem hsem q hq
    · have hmem : q ∈ sem.waitQueue := List.mem_of_mem_head? hq
      obtain ⟨-, hw⟩ := ((h.wf.queues r.key sem hsem).mem q).mp hmem
      obtain ⟨r', hr', hkey'⟩ := needs_of_waitsOn hw
      rw [hr']
      cases r with
      | waiter => exact absurd rfl hkey
      | chopstick k => exact congrArg some ((Resource.key_inj hkey).mp hkey'.symm)

/-! ### One step -/

/-- The clauses of the invariant about what is taken. -/
structure Counts (s : State Unit Philosopher) : Prop where
  taken_le : ∀ r, taken s r ≤ r.permits
  taken_eq : ∀ id r, s.blocked id = true → (s.loc id).pc.needs id = some r →
    taken s r = r.permits

variable {key : SemaphoreId} {sem : Semaphore} {l l' : Philosopher} {q : ProcessId}
  {rest : List ProcessId} {r : Resource}

/-- A philosopher that is still blocked has not moved. -/
theorem loc_goto (hb : s.blocked id = false) (hq : s.blocked q = true) :
    (s.goto id l).loc q = s.loc q := by
  refine Function.update_of_ne ?_ _ _
  rintro rfl
  exact Bool.false_ne_true (hb.symm.trans hq)

theorem taken_goto (hid : id ∈ philosophers) {d : ℤ}
    (hheld : held r id l = held r id (s.loc id) + d) : taken (s.goto id l) r = taken s r + d := by
  refine (sum_goto hid).trans ?_
  rw [hheld, add_sub_cancel_left]
  rfl

theorem counts_pass (h : Inv demo s) (hid : id ∈ philosophers) (hb : s.blocked id = false)
    (hneeds : ∀ r ∈ (s.loc id).pc.needs id, ∀ sem ∈ s.sems r.key, sem.count = 0 ↔ taken s r = r.permits)
    (hc : philosopher demo id (s.loc id) = .wait key l) (hsem : s.sems key = some sem)
    (hpos : 0 < sem.count) :
    Counts ((s.setSem key { sem with count := sem.count - 1 }).goto id l) := by
  obtain ⟨r, hr, rfl, hheld⟩ := philosopher_wait hc
  have htaken : ∀ r', taken ((s.setSem r.key { sem with count := sem.count - 1 }).goto id l) r' =
      taken s r' + if r = r' then 1 else 0 := fun r' =>
    taken_goto (s := s.setSem r.key { sem with count := sem.count - 1 }) hid (hheld r')
  have hfree : taken s r ≠ r.permits := fun he =>
    absurd ((hneeds r hr sem hsem).mpr he) (Nat.ne_of_gt hpos)
  refine ⟨fun r' => ?_, fun q r' hq hneed => ?_⟩
  · rw [htaken]
    have hle := h.taken_le r'
    split_ifs with he
    · subst he
      omega
    · omega
  · have heq := h.taken_eq q r' hq (loc_goto (s := s) hb hq ▸ hneed)
    have hne : r ≠ r' := by
      rintro rfl
      exact hfree heq
    rw [htaken, if_neg hne, add_zero]
    exact heq

theorem counts_block (h : Inv demo s)
    (hneeds : ∀ r ∈ (s.loc id).pc.needs id, ∀ sem ∈ s.sems r.key, sem.count = 0 ↔ taken s r = r.permits)
    (hc : philosopher demo id (s.loc id) = .wait key l) (hsem : s.sems key = some sem)
    (h0 : sem.count = 0) :
    Counts ((s.setSem key { sem with waitQueue := sem.waitQueue ++ [id] }).block id) := by
  obtain ⟨r, hr, rfl, -⟩ := philosopher_wait hc
  refine ⟨h.taken_le, fun q r' hq hneed => ?_⟩
  by_cases hqi : q = id
  · subst hqi
    obtain rfl : r' = r := Option.some.inj (hneed.symm.trans hr)
    exact (hneeds r' hneed sem hsem).mp h0
  · exact h.taken_eq q r' ((Function.update_of_ne hqi _ _).symm.trans hq) hneed

theorem counts_post (h : Inv demo s) (hdemo : demo ≠ 1) (hid : id ∈ philosophers)
    (hb : s.blocked id = false) (hc : philosopher demo id (s.loc id) = .signal key l)
    (hsem : s.sems key = some sem) (hq : sem.waitQueue = []) :
    Counts ((s.setSem key { count := sem.count + 1, waitQueue := [] }).goto id l) := by
  obtain ⟨r, hr, rfl, hheld⟩ := philosopher_signal hdemo hc
  have htaken : ∀ r', taken ((s.setSem r.key ⟨sem.count + 1, []⟩).goto id l) r' =
      taken s r' + -if r = r' then 1 else 0 := fun r' =>
    taken_goto (s := s.setSem r.key ⟨sem.count + 1, []⟩) hid ((hheld r').trans (sub_eq_add_neg _ _))
  refine ⟨fun r' => ?_, fun q r' hqb hneed => ?_⟩
  · rw [htaken]
    have hle := h.taken_le r'
    split_ifs <;> omega
  · have hneed' : (s.loc q).pc.needs q = some r' := loc_goto (s := s) hb hqb ▸ hneed
    have hne : r ≠ r' := by
      -- the queue of this semaphore is empty
      rintro rfl
      have hmem := ((h.wf.queues r.key sem hsem).mem q).mpr ⟨hqb, waitsOn_of_needs hneed'⟩
      rw [hq] at hmem
      exact List.not_mem_nil hmem
    rw [htaken, if_neg hne, neg_zero, add_zero]
    exact h.taken_eq q r' hqb hneed'

/-- What the one gives back the other one takes. -/
theorem taken_handOver (hid : id ∈ philosophers) (hq : q ∈ philosophers)
    (hb : s.blocked id = false) (hblocked : s.blocked q = true) {d : ℤ}
    (hheld : held r id l = held r id (s.loc id) - d) (hheld' : held r q l' = held r q (s.loc q) + d) :
    taken ((s.goto id l).wake q l') r = taken s r := by
  have hwake : taken ((s.goto id l).wake q l') r = taken ((s.goto id l).goto q l') r := rfl
  rw [hwake, taken_goto hq (by rw [hheld', loc_goto hb hblocked]),
    taken_goto hid (hheld.trans (sub_eq_add_neg _ _)), neg_add_cancel_right]

theorem counts_handOver (h : Inv demo s) (hdemo : demo ≠ 1) (hid : id ∈ philosophers)
    (hb : s.blocked id = false)
    (hreturns : ∀ r ∈ (s.loc id).pc.returns id, ∀ sem ∈ s.sems r.key, ∀ q ∈ sem.waitQueue.head?,
      (s.loc q).pc.needs q = some r)
    (hc : philosopher demo id (s.loc id) = .signal key l) (hsem : s.sems key = some sem)
    (hq : sem.waitQueue = q :: rest) (hblocked : s.blocked q = true)
    (hc' : philosopher demo q (s.loc q) = .wait key l') :
    Counts (((s.setSem key { sem with waitQueue := rest }).goto id l).wake q l') := by
  obtain ⟨r, hr, rfl, hheld⟩ := philosopher_signal hdemo hc
  obtain ⟨r₂, hr₂, -, hheld₂⟩ := philosopher_wait hc'
  obtain rfl : r₂ = r := by
    have hneeds := hreturns r hr sem hsem q (by rw [hq]; rfl)
    exact Option.some.inj (hr₂.symm.trans hneeds)
  have htaken : ∀ r', taken (((s.setSem r₂.key { sem with waitQueue := rest }).goto id l).wake
      q l') r' = taken s r' := fun r' =>
    taken_handOver (s := s.setSem r₂.key { sem with waitQueue := rest }) hid
      (h.wf.mem_of_wait ⟨l', hc'⟩) hb hblocked (hheld r') (hheld₂ r')
  refine ⟨fun r' => (htaken r').trans_le (h.taken_le r'), fun j r' hj hneed => ?_⟩
  have hjq : j ≠ q := by
    rintro rfl
    simp [State.wake] at hj
  have hjb : s.blocked j = true := (Function.update_of_ne hjq _ _).symm.trans hj
  have hloc : (((s.setSem r₂.key { sem with waitQueue := rest }).goto id l).wake q l').loc j =
      s.loc j := (Function.update_of_ne hjq _ _).trans (loc_goto hb hjb)
  rw [hloc] at hneed
  exact (htaken r').trans (h.taken_eq j r' hjb hneed)

/-- **A call that does what it should keeps the invariant.** -/
theorem step (h : Inv demo s) (hdemo : demo ≠ 1) (hc : AsIntended s id) {u : Unit}
    (hstep : Threads.step B (philosopher demo) s id = .ok (t, u)) : Inv demo t := by
  obtain ⟨hb, hid, hm⟩ := step_move h.wf (h.served hdemo id) hstep
  obtain ⟨hneeds, hreturns⟩ := h.intended hid hc
  suffices hcounts : Counts t from
    ⟨h.wf.move hb hid hm,
      fun key hkey => (h.pool key hkey).move (balanced_key hdemo key) h.wf hid hm,
      hcounts.taken_le, hcounts.taken_eq⟩
  cases hm with
  | access hc => exact absurd hc philosopher_access
  | pass hc hsem hpos => exact h.counts_pass hid hb hneeds hc hsem hpos
  | block hc hsem h0 => exact h.counts_block hneeds hc hsem h0
  | post hc hsem hq => exact h.counts_post hdemo hid hb hc hsem hq
  | handOver hc hsem hq _ hblocked hc' =>
      exact h.counts_handOver hdemo hid hb hreturns hc hsem hq hblocked hc'

end Inv

theorem init_loc (hid : id ∈ philosophers) : (init demo).loc id = startTurn demo 0 :=
  if_pos (Finset.mem_range.mp hid)

theorem init_inv (hdemo : demo ≠ 1) : Inv demo (init demo) := by
  have hzero : ∀ r, taken (init demo) r = 0 := fun r =>
    Finset.sum_eq_zero fun id hid => by rw [init_loc hid, held_startTurn hdemo]
  have hsems : (init demo).sems = initSems 0 := by
    simp only [init, initSems, if_neg hdemo]
    rfl
  have hfresh : Fresh (initSems 0) :=
    (((((Fresh.empty.insert).insert).insert).insert).insert).insert
  refine ⟨.of_fresh (fun id hid => ?_) (fun _ => rfl) (hsems ▸ hfresh), fun key hkey => ?_,
    fun r => ?_, fun id r hb => absurd hb Bool.false_ne_true⟩
  · rw [show (init demo).loc id = ⟨0, .left⟩ from if_neg fun h => hid (Finset.mem_range.mpr h)]
    rfl
  · have hsum : ∑ id ∈ philosophers, heldKey key id ((init demo).loc id) = 0 :=
      Finset.sum_eq_zero fun id hid => by
        rw [init_loc hid, heldKey, held_startTurn hdemo, held_startTurn hdemo, ite_self, add_zero]
    unfold Pool
    rw [hsum, hsems]
    have hcases : key = 0 ∨ key = 1 ∨ key = 2 ∨ key = 3 ∨ key = 4 := by
      have : key < 5 := hkey
      omega
    rcases hcases with rfl | rfl | rfl | rfl | rfl <;> exact ⟨_, rfl, rfl⟩
  · rw [hzero]
    cases r with
    | waiter => exact (by decide : (0 : ℤ) ≤ 4)
    | chopstick => exact zero_le_one

theorem run_inv (hdemo : demo ≠ 1)
    (h : Run (Threads.step B (philosopher demo)) (fun s id _ => AsIntended s id) (init demo) s) :
    Inv demo s :=
  h.invariant (init_inv hdemo) fun _ _ _ _ hs hstep hc => hs.step hdemo hc hstep

/-! ### Neighbours and deadlocks -/

theorem exists_holder {r : Resource} (h : 0 < taken s r) : ∃ id ∈ philosophers,
    0 < held r id (s.loc id) := by
  by_contra hno
  have hle : taken s r ≤ 0 := Finset.sum_nonpos fun id hid => by
    by_contra hpos
    exact hno ⟨id, hid, not_le.mp hpos⟩
  omega

theorem ne_right {i : ℕ} : i ≠ right i := by
  unfold right PHILOSOPHER_COUNT
  omega

/-- What goes from everybody to the right neighbour goes round the table. -/
theorem round_table {Q : ℕ → Prop} (hstep : ∀ i < PHILOSOPHER_COUNT, Q i → Q (right i)) {i j : ℕ}
    (hi : i < PHILOSOPHER_COUNT) (hQ : Q i) (hj : j < PHILOSOPHER_COUNT) : Q j := by
  have hn : ∀ n, Q ((i + n) % PHILOSOPHER_COUNT) := by
    intro n
    induction n with
    | zero => rwa [Nat.add_zero, Nat.mod_eq_of_lt hi]
    | succ n ih =>
        have hnext := hstep _ (Nat.mod_lt _ (by decide)) ih
        rwa [right, Nat.mod_add_mod] at hnext
  have hround : (i + (j + PHILOSOPHER_COUNT - i)) % PHILOSOPHER_COUNT = j := by
    unfold PHILOSOPHER_COUNT at hi hj ⊢
    omega
  exact hround ▸ hn _

theorem held_first {l : Philosopher} (h : l.pc = .eating) : 1 ≤ held (.chopstick id) id l := by
  rw [held, if_pos ⟨rfl, Or.inr h⟩]
  split_ifs <;> omega

theorem held_second {l : Philosopher} (h : l.pc = .eating) :
    1 ≤ held (.chopstick (right id)) id l := by
  rw [held, if_pos (show right id = right id ∧ _ from ⟨rfl, Or.inl h⟩)]
  split_ifs <;> omega

theorem held_chopstick {k : ℕ} {l : Philosopher} (h : 0 < held (.chopstick k) id l) :
    id = k ∧ l.pc = .waitSecond ∨ l.pc = .eating ∨ l.pc = .signalSecond := by
  simp only [held] at h
  by_cases h1 : id = k ∧ (l.pc = .waitSecond ∨ l.pc = .eating)
  · rcases h1 with ⟨hk, hpc | hpc⟩
    · exact Or.inl ⟨hk, hpc⟩
    · exact Or.inr (Or.inl hpc)
  · rw [if_neg h1] at h
    by_cases h2 : right id = k ∧ (l.pc = .eating ∨ l.pc = .signalSecond)
    · exact Or.inr h2.2
    · rw [if_neg h2] at h
      exact absurd h (lt_irrefl _)

theorem right_mem (id : ℕ) : right id ∈ philosophers := Finset.mem_range.mpr (right_lt id)

namespace Inv

theorem safe (h : Inv demo s) (hid : id ∈ philosophers) :
    ¬ ((s.loc id).pc = .eating ∧ (s.loc (right id)).pc = .eating) := by
  rintro ⟨hpc, hpc'⟩
  have hne : id ≠ right id := ne_right
  have hpair : ∑ i ∈ {id, right id}, held (.chopstick (right id)) i (s.loc i) ≤
      taken s (.chopstick (right id)) := by
    refine Finset.sum_le_sum_of_subset_of_nonneg (fun i hi => ?_) fun i _ _ => held_nonneg _ _ _
    rcases Finset.mem_insert.mp hi with rfl | hi
    · exact hid
    · exact Finset.mem_singleton.mp hi ▸ right_mem id
  have hone := h.taken_le (.chopstick (right id))
  rw [Finset.sum_pair hne] at hpair
  have h1 : 1 ≤ held (.chopstick (right id)) id (s.loc id) := held_second hpc
  have h2 : 1 ≤ held (.chopstick (right id)) (right id) (s.loc (right id)) := held_first hpc'
  have hp : (Resource.chopstick (right id)).permits = 1 := rfl
  omega

theorem needs_of_blocked (h : Inv demo s) (hb : s.blocked id = true) :
    ∃ r, (s.loc id).pc.needs id = some r ∧ taken s r = r.permits := by
  obtain ⟨key, hw⟩ := h.wf.waits id hb
  obtain ⟨r, hr, -⟩ := needs_of_waitsOn hw
  exact ⟨r, hr, h.taken_eq id r hb hr⟩

/-- If nobody can go on, who has a chopstick waits for the second one. -/
theorem stuck_holder (h : Inv demo s)
    (hstuck : ∀ i ∈ philosophers, (s.loc i).pc ≠ .left → s.blocked i = true)
    (hid : id ∈ philosophers) {k : ℕ} (hheld : 0 < held (.chopstick k) id (s.loc id)) :
    id = k ∧ (s.loc id).pc = .waitSecond := by
  refine (held_chopstick hheld).resolve_right fun hpc => ?_
  obtain ⟨r, hr, -⟩ := h.needs_of_blocked (hstuck id hid (by rcases hpc with hpc | hpc <;> simp [hpc]))
  rcases hpc with hpc | hpc <;> rw [hpc] at hr <;> cases hr

/-- If nobody can go on, nobody waits for a first chopstick, and the right neighbour of who waits
for a second one does so too. -/
theorem stuck_chopsticks (h : Inv demo s)
    (hstuck : ∀ i ∈ philosophers, (s.loc i).pc ≠ .left → s.blocked i = true)
    (hid : id ∈ philosophers) :
    (s.loc id).pc ≠ .waitFirst ∧
      ((s.loc id).pc = .waitSecond → (s.loc (right id)).pc = .waitSecond) := by
  have hholder : ∀ k, (s.loc id).pc.needs id = some (.chopstick k) → (s.loc id).pc ≠ .left →
      (s.loc k).pc = .waitSecond := by
    intro k hneed hleft
    obtain ⟨r, hr, htaken⟩ := h.needs_of_blocked (hstuck id hid hleft)
    rw [hneed] at hr
    cases hr
    obtain ⟨j, hj, hheld⟩ := exists_holder (s := s) (by rw [htaken]; exact zero_lt_one)
    obtain ⟨rfl, hpc⟩ := h.stuck_holder hstuck hj hheld
    exact hpc
  refine ⟨fun hpc => ?_, fun hpc => ?_⟩
  · have := hholder id (by rw [hpc]; rfl) (by rw [hpc]; exact nofun)
    rw [hpc] at this
    cases this
  · exact hholder (right id) (by rw [hpc]; rfl) (by rw [hpc]; exact nofun)

/-- If nobody can go on, everybody waits for a second chopstick, but the waiter lets only four
philosophers in. -/
theorem live (h : Inv demo s) (hid : id ∈ philosophers) (hpc : (s.loc id).pc ≠ .left) :
    ∃ i ∈ philosophers, (s.loc i).pc ≠ .left ∧ s.blocked i = false := by
  by_contra hno
  have hstuck : ∀ i ∈ philosophers, (s.loc i).pc ≠ .left → s.blocked i = true := by
    intro i hi hpc
    by_contra hb
    exact hno ⟨i, hi, hpc, Bool.eq_false_iff.mpr hb⟩
  have hsecond : ∃ i ∈ philosophers, (s.loc i).pc = .waitSecond := by
    have hinside : ∀ i ∈ philosophers, 0 < held .waiter i (s.loc i) → (s.loc i).pc = .waitSecond := by
      intro i hi hheld
      have hpci : (s.loc i).pc ≠ .waitWaiter ∧ (s.loc i).pc ≠ .left := by
        constructor <;> intro he <;> simp [held, he] at hheld
      obtain ⟨r, hr, -⟩ := h.needs_of_blocked (hstuck i hi hpci.2)
      have hfirst := (h.stuck_chopsticks hstuck hi).1
      cases hp : (s.loc i).pc <;> simp_all [Pc.needs]
    obtain ⟨r, hr, htaken⟩ := h.needs_of_blocked (hstuck id hid hpc)
    cases hp : (s.loc id).pc <;> rw [hp] at hr <;> cases hr
    · obtain ⟨i, hi, hheld⟩ := exists_holder (s := s) (r := .waiter)
        (by rw [htaken]; exact (by decide : (0 : ℤ) < 4))
      exact ⟨i, hi, hinside i hi hheld⟩
    · exact absurd hp (h.stuck_chopsticks hstuck hid).1
    · exact ⟨id, hid, hp⟩
  have hall : ∀ i ∈ philosophers, (s.loc i).pc = .waitSecond := by
    obtain ⟨i, hi, hpci⟩ := hsecond
    intro j hj
    exact round_table (Q := fun i => (s.loc i).pc = .waitSecond)
      (fun i hi => (h.stuck_chopsticks hstuck (Finset.mem_range.mpr hi)).2)
      (Finset.mem_range.mp hi) hpci (Finset.mem_range.mp hj)
  have hfive : taken s .waiter = 5 := by
    have hone : ∀ i ∈ philosophers, held .waiter i (s.loc i) = 1 := fun i hi => by
      rw [held, hall i hi]
      rfl
    rw [taken, Finset.sum_congr rfl hone]
    rfl
  have hle := h.taken_le .waiter
  rw [hfive] at hle
  exact absurd hle (by decide)

end Inv

/-- **Safety and liveness.**  In every mode but the deadlock demo, in every run in which the
calls on the key of the waiter do what they would do if the waiter had a key of its own: no two
neighbours eat at the same time, and as long as a philosopher has not left, one that has not is
not blocked. -/
theorem safe_and_live (hdemo : demo ≠ 1)
    (h : Run (Threads.step B (philosopher demo)) (fun s id _ => AsIntended s id) (init demo) s) :
    (∀ id < PHILOSOPHER_COUNT, ¬ ((s.loc id).pc = .eating ∧ (s.loc (right id)).pc = .eating)) ∧
    ((∃ id < PHILOSOPHER_COUNT, (s.loc id).pc ≠ .left) →
      ∃ id < PHILOSOPHER_COUNT, (s.loc id).pc ≠ .left ∧ s.blocked id = false) := by
  have hs := run_inv hdemo h
  refine ⟨fun id hid => hs.safe (Finset.mem_range.mpr hid), ?_⟩
  rintro ⟨id, hid, hpc⟩
  obtain ⟨i, hi, hlive⟩ := hs.live (Finset.mem_range.mpr hid) hpc
  exact ⟨i, Finset.mem_range.mp hi, hlive⟩

/-- Philosopher 3 eats with the chopsticks 3 and 4, and philosopher 4 waits for the waiter. -/
theorem safe_and_live_example : ∃ s : State Unit Philosopher, (s.loc 3).pc = .eating ∧
    (s.loc (right 3)).pc ≠ .eating := by
  have hs : (exec (Threads.step Build.release (philosopher 0)) (fun s id _ => AsIntended s id)
      (init 0) [3, 3, 3, 4]).map (fun s => (s.loc 3).pc) = some .eating := by
    decide +kernel
  obtain ⟨s, hs, heating⟩ := Option.map_eq_some_iff.mp hs
  have hsafe := (safe_and_live (by decide) (run_of_exec hs)).1 3 (by decide)
  exact ⟨s, heating, fun hright => hsafe ⟨heating, hright⟩⟩

/-- The waiter's permits are those of chopstick 4 as well: philosophers 3 and 4 eat at the same
time with it, and four philosophers with one chopstick each use up the permits, so that nobody
gets chopstick 4. -/
theorem neighbours_eat_and_deadlock :
    (¬ ∀ s, Run (Threads.step Build.release (philosopher 0)) Any (init 0) s →
      ∀ id < PHILOSOPHER_COUNT, ¬ ((s.loc id).pc = .eating ∧ (s.loc (right id)).pc = .eating)) ∧
    ¬ ∀ s, Run (Threads.step Build.release (philosopher 0)) Any (init 0) s →
      (∃ id < PHILOSOPHER_COUNT, (s.loc id).pc ≠ .left) →
      ∃ id < PHILOSOPHER_COUNT, (s.loc id).pc ≠ .left ∧ s.blocked id = false := by
  constructor
  · intro hall
    have hs : (exec (Threads.step Build.release (philosopher 0)) Any (init 0)
        [3, 3, 3, 4, 4, 4]).map (fun s => ((s.loc 3).pc, (s.loc 4).pc)) =
        some (.eating, .eating) := by
      decide +kernel
    obtain ⟨s, hs, hpc⟩ := Option.map_eq_some_iff.mp hs
    exact hall s (run_of_exec hs) 3 (by decide) (Prod.mk.inj hpc)
  · intro hall
    have hs : (exec (Threads.step Build.release (philosopher 0)) Any (init 0)
        [0, 0, 1, 1, 2, 2, 3, 3, 0, 1, 2, 3, 4]).map (fun s => ((s.loc 0).pc,
          decide (∀ id < PHILOSOPHER_COUNT, s.blocked id = true))) = some (.waitSecond, true) := by
      decide +kernel
    obtain ⟨s, hs, hval⟩ := Option.map_eq_some_iff.mp hs
    obtain ⟨hpc, hblocked⟩ := Prod.mk.inj hval
    obtain ⟨id, hid, -, hb⟩ := hall s (run_of_exec hs) ⟨0, by decide, by rw [hpc]; exact nofun⟩
    rw [of_decide_eq_true hblocked id hid] at hb
    cases hb

end Dinner

end Ysos
