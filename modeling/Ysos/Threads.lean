import Ysos.Semaphore

/-! # Programs that share semaphores

Processes that run programs over one set of semaphores and one shared memory, in any
interleaving.  A program is given by what it does next in a local state (`Action`); a step is one
call of a semaphore, or one access to the shared memory, of a process that is not blocked.

* `Wf`: exactly the blocked processes are in the queues, each once, in the queue of the semaphore
  that it waits on; and a semaphore with a count above zero has an empty queue.
* `Pool P held key v`: the count of a semaphore and what the processes of `P` hold of it are `v`
  in total.  It is an invariant whenever a `wait` takes one, a `signal` gives one back and
  nothing else changes what is held (`Balanced`).  `total` is the same for several semaphores
  together.
* `Move.measure_lt`: what is still to be done gets less, if the processes go down along calls.

A `wait` that blocks is over when the process is woken, so that the local state of a blocked
process is the one before the call. -/

namespace Ysos

open Runs

namespace Threads

variable {σ L : Type}

/-- What a program does next: a call of a semaphore, after which it goes on in the local state
`l`, or an access to the shared memory, or nothing any more. -/
inductive Action (σ L : Type) where
  | wait (key : SemaphoreId) (l : L)
  | signal (key : SemaphoreId) (l : L)
  | access (f : σ → Except Panic (σ × L))
  | exited

/-- The programs of the processes. -/
abbrev Code (σ L : Type) := ProcessId → L → Action σ L

structure State (σ L : Type) where
  sems : SemaphoreSet
  shared : σ
  loc : ProcessId → L
  blocked : ProcessId → Bool

/-- Why a process makes no step: it is blocked or has exited, or it panics. -/
inductive Halt where
  | notRunnable
  | panic (e : Panic)
deriving DecidableEq, Repr

namespace State

/-- The process `p` goes on in the local state `l`. -/
def goto (s : State σ L) (p : ProcessId) (l : L) : State σ L :=
  { s with loc := Function.update s.loc p l }

def setSem (s : State σ L) (key : SemaphoreId) (sem : Semaphore) : State σ L :=
  { s with sems := Function.update s.sems key (some sem) }

def block (s : State σ L) (p : ProcessId) : State σ L :=
  { s with blocked := Function.update s.blocked p true }

/-- The process `p` is woken: its `wait` is over. -/
def wake (s : State σ L) (p : ProcessId) (l : L) : State σ L :=
  { s.goto p l with blocked := Function.update s.blocked p false }

end State

variable (B : Build) (code : Code σ L)

/-- One step of the process `p`. -/
def step (s : State σ L) (p : ProcessId) : Except Halt (State σ L × Unit) :=
  if s.blocked p then .error .notRunnable
  else
    match code p (s.loc p) with
    | .exited => .error .notRunnable
    | .access f =>
        match f s.shared with
        | .error e => .error (.panic e)
        | .ok (m, l) => .ok ({ s.goto p l with shared := m }, ())
    | .wait key l =>
        match s.sems.wait key p with
        | (.block q, sems) => .ok ({ s with sems := sems }.block q, ())
        | (_, sems) => .ok ({ s with sems := sems }.goto p l, ())
    | .signal key l =>
        match s.sems.signal B key with
        | .error e => .error (.panic e)
        | .ok (.wakeUp q, sems) =>
            let s := { s with sems := sems }.goto p l
            match code q (s.loc q) with
            | .wait _ l => .ok (s.wake q l, ())
            | _ => .ok (s, ())
        | .ok (_, sems) => .ok ({ s with sems := sems }.goto p l, ())

/-- In the local state `l`, the process `p` waits on the semaphore `key`. -/
def WaitsOn (p : ProcessId) (l : L) (key : SemaphoreId) : Prop := ∃ l', code p l = .wait key l'

/-- A call of a semaphore leads from `l` to `l'`. -/
def CallEdge (p : ProcessId) (l l' : L) : Prop :=
  ∃ key, code p l = .wait key l' ∨ code p l = .signal key l'

/-- The queue of the semaphore `key` has the processes that are blocked on it. -/
structure QueueOk (s : State σ L) (key : SemaphoreId) (sem : Semaphore) : Prop where
  nodup : sem.waitQueue.Nodup
  mem : ∀ p, p ∈ sem.waitQueue ↔ s.blocked p = true ∧ WaitsOn code p (s.loc p) key
  idle : 0 < sem.count → sem.waitQueue = []

/-- The blocked processes are in the queues, and the processes outside of `P` do nothing. -/
structure Wf (P : Finset ProcessId) (s : State σ L) : Prop where
  outside : ∀ p, p ∉ P → code p (s.loc p) = .exited
  waits : ∀ p, s.blocked p = true → ∃ key, WaitsOn code p (s.loc p) key
  queues : ∀ key sem, s.sems key = some sem → QueueOk code s key sem

/-- What a step does when the semaphores that are called exist. -/
inductive Move (s : State σ L) (p : ProcessId) : State σ L → Prop where
  | access {f : σ → Except Panic (σ × L)} {m : σ} {l : L} (hc : code p (s.loc p) = .access f)
      (hf : f s.shared = .ok (m, l)) : Move s p { s.goto p l with shared := m }
  | pass {key : SemaphoreId} {l : L} {sem : Semaphore} (hc : code p (s.loc p) = .wait key l)
      (hs : s.sems key = some sem) (hpos : 0 < sem.count) :
      Move s p ((s.setSem key { sem with count := sem.count - 1 }).goto p l)
  | block {key : SemaphoreId} {l : L} {sem : Semaphore} (hc : code p (s.loc p) = .wait key l)
      (hs : s.sems key = some sem) (h0 : sem.count = 0) :
      Move s p ((s.setSem key { sem with waitQueue := sem.waitQueue ++ [p] }).block p)
  | post {key : SemaphoreId} {l : L} {sem : Semaphore} (hc : code p (s.loc p) = .signal key l)
      (hs : s.sems key = some sem) (hq : sem.waitQueue = []) :
      Move s p ((s.setSem key { count := sem.count + 1, waitQueue := [] }).goto p l)
  | handOver {key : SemaphoreId} {l l' : L} {sem : Semaphore} {q : ProcessId}
      {rest : List ProcessId} (hc : code p (s.loc p) = .signal key l)
      (hs : s.sems key = some sem) (hq : sem.waitQueue = q :: rest) (hne : q ≠ p)
      (hblocked : s.blocked q = true) (hc' : code q (s.loc q) = .wait key l') :
      Move s p (((s.setSem key { sem with waitQueue := rest }).goto p l).wake q l')

variable {B} {code} {P : Finset ProcessId} {s t : State σ L} {p q : ProcessId}
  {key : SemaphoreId} {l : L}

/-- The semaphore that `p` calls exists, and a signal does not overflow its count. -/
structure Served (code : Code σ L) (s : State σ L) (p : ProcessId) : Prop where
  wait : ∀ key l, code p (s.loc p) = .wait key l → s.sems key ≠ none
  signal : ∀ key l, code p (s.loc p) = .signal key l →
    ∃ sem, s.sems key = some sem ∧ sem.count + 1 < U64

/-- **What a step does.** -/
theorem step_move (hs : Wf code P s) (hp : Served code s p) {u : Unit}
    (h : step B code s p = .ok (t, u)) : s.blocked p = false ∧ p ∈ P ∧ Move code s p t := by
  unfold step at h
  split_ifs at h with hb
  have hb : s.blocked p = false := Bool.eq_false_iff.mpr hb
  have hmem : p ∈ P := by
    by_contra hout
    rw [hs.outside p hout] at h
    cases h
  refine ⟨hb, hmem, ?_⟩
  split at h
  · cases h
  · rename_i f hc
    split at h
    · cases h
    · rename_i hf
      cases h
      exact .access hc hf
  · rename_i key l hc
    obtain ⟨sem, hsem⟩ := Option.ne_none_iff_exists'.mp (hp.wait key l hc)
    by_cases h0 : sem.count = 0
    · have hwait : s.sems.wait key p = (.block p, Function.update s.sems key
          (some { sem with waitQueue := sem.waitQueue ++ [p] })) := by
        simp only [SemaphoreSet.wait, hsem, Semaphore.wait, if_pos h0]
      rw [hwait] at h
      cases h
      exact .block hc hsem h0
    · have hwait : s.sems.wait key p = (.ok, Function.update s.sems key
          (some { sem with count := sem.count - 1 })) := by
        simp only [SemaphoreSet.wait, hsem, Semaphore.wait, if_neg h0]
      rw [hwait] at h
      cases h
      exact .pass hc hsem (Nat.pos_of_ne_zero h0)
  · rename_i key l hc
    obtain ⟨sem, hsem, hlt⟩ := hp.signal key l hc
    rcases hq : sem.waitQueue with _ | ⟨q, rest⟩
    · have hsignal : s.sems.signal B key = .ok (.ok, Function.update s.sems key
          (some { count := sem.count + 1, waitQueue := [] })) := by
        simp only [SemaphoreSet.signal, hsem, Semaphore.signal, hq, B.add_eq hlt]
        rfl
      rw [hsignal] at h
      cases h
      exact .post hc hsem hq
    · have hsignal : s.sems.signal B key = .ok (.wakeUp q, Function.update s.sems key
          (some { sem with waitQueue := rest })) := by
        simp only [SemaphoreSet.signal, hsem, Semaphore.signal, hq]
        rfl
      obtain ⟨hblocked, l', hc'⟩ := ((hs.queues key sem hsem).mem q).mp (hq ▸ List.mem_cons_self)
      have hne : q ≠ p := by
        rintro rfl
        rw [hb] at hblocked
        cases hblocked
      have hloc : Function.update s.loc p l q = s.loc q := Function.update_of_ne hne _ _
      rw [hsignal] at h
      dsimp only [State.goto] at h
      rw [hloc, hc'] at h
      cases h
      exact .handOver hc hsem hq hne hblocked hc'

theorem step_ok (hp : Served code s p) (hb : s.blocked p = false)
    (hne : code p (s.loc p) ≠ .exited)
    (ha : ∀ f, code p (s.loc p) = .access f → ∃ r, f s.shared = .ok r) :
    ∃ t, step B code s p = .ok t := by
  unfold step
  rw [if_neg (Bool.eq_false_iff.mp hb)]
  split
  · rename_i hc
    exact absurd hc hne
  · rename_i f hc
    obtain ⟨r, hr⟩ := ha f hc
    rw [hr]
    exact ⟨_, rfl⟩
  · split
    · exact ⟨_, rfl⟩
    · exact ⟨_, rfl⟩
  · rename_i key l hc
    obtain ⟨sem, hsem, hlt⟩ := hp.signal key l hc
    have hsignal : ∃ r, s.sems.signal B key = .ok r := by
      rcases hq : sem.waitQueue with _ | ⟨q, rest⟩
      · simp only [SemaphoreSet.signal, hsem, Semaphore.signal, hq, B.add_eq hlt]
        exact ⟨_, rfl⟩
      · simp only [SemaphoreSet.signal, hsem, Semaphore.signal, hq]
        exact ⟨_, rfl⟩
    obtain ⟨⟨res, sems⟩, hsignal⟩ := hsignal
    rw [hsignal]
    cases res with
    | wakeUp q =>
        dsimp only
        split
        · exact ⟨_, rfl⟩
        · exact ⟨_, rfl⟩
    | ok => exact ⟨_, rfl⟩
    | notExist => exact ⟨_, rfl⟩
    | block q => exact ⟨_, rfl⟩

theorem step_ne_panic (hp : Served code s p)
    (ha : ∀ f, code p (s.loc p) = .access f → ∃ r, f s.shared = .ok r) (e : Panic) :
    step B code s p ≠ .error (.panic e) := by
  intro he
  by_cases hb : s.blocked p = false
  · by_cases hc : code p (s.loc p) = .exited
    · rw [step, if_neg (by simp [hb]), hc] at he
      cases he
    · obtain ⟨t, ht⟩ := step_ok (B := B) hp hb hc ha
      rw [ht] at he
      cases he
  · rw [step, if_pos (by simpa using hb)] at he
    cases he

/-! ### New semaphores -/

/-- Nobody waits on a semaphore of the set. -/
def Fresh (sems : SemaphoreSet) : Prop := ∀ key sem, sems key = some sem → sem.waitQueue = []

theorem Fresh.empty : Fresh SemaphoreSet.empty := nofun

theorem Fresh.insert {sems : SemaphoreSet} {value : ℕ} (h : Fresh sems) :
    Fresh (sems.insert key value).2 := by
  intro key' sem hsem
  simp only [SemaphoreSet.insert] at hsem
  by_cases hk : key' = key
  · subst hk
    rw [Function.update_self] at hsem
    cases hsem
    rfl
  · rw [Function.update_of_ne hk] at hsem
    exact h key' sem hsem

/-- New semaphores, and processes that have not started. -/
theorem Wf.of_fresh (hout : ∀ p, p ∉ P → code p (s.loc p) = .exited)
    (hb : ∀ p, s.blocked p = false) (hfresh : Fresh s.sems) : Wf code P s := by
  refine ⟨hout, fun p hp => ?_, fun key sem hsem => ?_⟩
  · rw [hb p] at hp
    cases hp
  · have hq := hfresh key sem hsem
    refine ⟨?_, fun p => ?_, fun _ => hq⟩
    · rw [hq]
      exact List.nodup_nil
    · rw [hq, hb p]
      exact ⟨fun h => absurd h List.not_mem_nil, fun h => absurd h.1 Bool.false_ne_true⟩

/-! ### The queues -/

theorem WaitsOn.unique {key key' : SemaphoreId} (h : WaitsOn code p l key)
    (h' : WaitsOn code p l key') : key = key' := by
  obtain ⟨l₁, h⟩ := h
  obtain ⟨l₂, h'⟩ := h'
  rw [h] at h'
  cases h'
  rfl

theorem setSem_cases {sem sem' : Semaphore} {key' : SemaphoreId}
    (h : (s.setSem key sem).sems key' = some sem') :
    key' = key ∧ sem' = sem ∨ key' ≠ key ∧ s.sems key' = some sem' := by
  simp only [State.setSem] at h
  by_cases hk : key' = key
  · subst hk
    rw [Function.update_self] at h
    exact Or.inl ⟨rfl, (Option.some.inj h).symm⟩
  · rw [Function.update_of_ne hk] at h
    exact Or.inr ⟨hk, h⟩

theorem Wf.mem_of_wait (hs : Wf code P s) (h : WaitsOn code p (s.loc p) key) : p ∈ P := by
  by_contra hout
  obtain ⟨l, hc⟩ := h
  rw [hs.outside p hout] at hc
  cases hc

theorem Wf.goto (hs : Wf code P s) (hp : p ∈ P) (hb : s.blocked p = false) :
    Wf code P (s.goto p l) := by
  refine ⟨fun q hq => ?_, fun q hq => ?_, fun key sem hsem => ?_⟩
  · have hne : q ≠ p := fun he => hq (he ▸ hp)
    exact (congrArg (code q) (Function.update_of_ne hne _ _)).trans (hs.outside q hq)
  · have hne : q ≠ p := by
      rintro rfl
      exact Bool.false_ne_true (hb.symm.trans hq)
    have hloc : (s.goto p l).loc q = s.loc q := Function.update_of_ne hne _ _
    rw [hloc]
    exact hs.waits q hq
  · obtain ⟨hnodup, hmem, hidle⟩ := hs.queues key sem hsem
    refine ⟨hnodup, fun q => ?_, hidle⟩
    rw [hmem]
    by_cases hne : q = p
    · subst hne
      simp [State.goto, hb]
    · simp [State.goto, hne]

theorem Wf.setCount {sem : Semaphore} {n : ℕ} (hs : Wf code P s) (hsem : s.sems key = some sem)
    (hq : sem.waitQueue = []) : Wf code P (s.setSem key { count := n, waitQueue := [] }) := by
  refine ⟨hs.outside, hs.waits, fun key' sem' hsem' => ?_⟩
  obtain ⟨rfl, rfl⟩ | ⟨-, hsem'⟩ := setSem_cases hsem'
  · refine ⟨List.nodup_nil, fun q => ?_, fun _ => rfl⟩
    have := (hs.queues _ sem hsem).mem q
    rwa [hq] at this
  · exact ⟨(hs.queues key' sem' hsem').nodup, (hs.queues key' sem' hsem').mem,
      (hs.queues key' sem' hsem').idle⟩

theorem Wf.block {sem : Semaphore} (hs : Wf code P s) (hb : s.blocked p = false)
    (hc : WaitsOn code p (s.loc p) key) (hsem : s.sems key = some sem) (h0 : sem.count = 0) :
    Wf code P ((s.setSem key { sem with waitQueue := sem.waitQueue ++ [p] }).block p) := by
  refine ⟨hs.outside, fun q hq => ?_, fun key' sem' hsem' => ?_⟩
  · by_cases hne : q = p
    · exact ⟨key, hne ▸ hc⟩
    · exact hs.waits q ((Function.update_of_ne hne _ _).symm.trans hq)
  obtain ⟨rfl, rfl⟩ | ⟨hk, hsem'⟩ := setSem_cases hsem'
  · obtain ⟨hnodup, hmem, -⟩ := hs.queues _ sem hsem
    have hp : p ∉ sem.waitQueue := by
      rw [hmem, hb]
      exact fun h => Bool.false_ne_true h.1
    refine ⟨?_, fun q => ?_, fun hpos => absurd h0 (Nat.ne_of_gt hpos)⟩
    · exact List.nodup_append.mpr ⟨hnodup, List.nodup_singleton p, fun a ha b hb' he => by
        rw [List.mem_singleton] at hb'
        exact hp (hb' ▸ he ▸ ha)⟩
    · rw [List.mem_append, List.mem_singleton, hmem]
      by_cases hne : q = p
      · subst hne
        simpa [State.block, State.setSem] using hc
      · simp [State.block, State.setSem, hne]
  · obtain ⟨hnodup, hmem, hidle⟩ := hs.queues key' sem' hsem'
    refine ⟨hnodup, fun q => ?_, hidle⟩
    rw [hmem]
    by_cases hne : q = p
    · subst hne
      have : ¬ WaitsOn code q (s.loc q) key' := fun h => hk (h.unique hc)
      simp [State.block, State.setSem, hb, this]
    · simp [State.block, State.setSem, hne]

theorem Wf.wake {sem : Semaphore} {rest : List ProcessId} (hs : Wf code P s)
    (hsem : s.sems key = some sem) (hq : sem.waitQueue = p :: rest) :
    Wf code P ((s.setSem key { sem with waitQueue := rest }).wake p l) := by
  have hp := ((hs.queues key sem hsem).mem p).mp (hq ▸ List.mem_cons_self)
  have hmemP : p ∈ P := hs.mem_of_wait hp.2
  refine ⟨fun q hq => ?_, fun q hq => ?_, fun key' sem' hsem' => ?_⟩
  · have hne : q ≠ p := fun he => hq (he ▸ hmemP)
    exact (congrArg (code q) (Function.update_of_ne hne _ _)).trans (hs.outside q hq)
  · have hne : q ≠ p := by
      rintro rfl
      simp [State.wake] at hq
    have hloc : ((s.setSem key { sem with waitQueue := rest }).wake p l).loc q = s.loc q :=
      Function.update_of_ne hne _ _
    rw [hloc]
    exact hs.waits q ((Function.update_of_ne hne _ _).symm.trans hq)
  obtain ⟨rfl, rfl⟩ | ⟨hk, hsem'⟩ := setSem_cases hsem'
  · obtain ⟨hnodup, hmem, hidle⟩ := hs.queues _ sem hsem
    rw [hq] at hnodup hmem hidle
    obtain ⟨hnot, hnodup⟩ := List.nodup_cons.mp hnodup
    refine ⟨hnodup, fun q => ?_, fun hpos => absurd (hidle hpos) (List.cons_ne_nil _ _)⟩
    by_cases hne : q = p
    · subst hne
      simpa [State.wake] using hnot
    · have := hmem q
      rw [List.mem_cons, or_iff_right hne] at this
      simpa [State.wake, State.setSem, State.goto, hne] using this
  · obtain ⟨hnodup, hmem, hidle⟩ := hs.queues key' sem' hsem'
    refine ⟨hnodup, fun q => ?_, hidle⟩
    rw [hmem]
    by_cases hne : q = p
    · subst hne
      have : ¬ WaitsOn code q (s.loc q) key' := fun h => hk (h.unique hp.2)
      simp [State.wake, State.setSem, State.goto, this]
    · simp [State.wake, State.setSem, State.goto, hne]

theorem Wf.move (hs : Wf code P s) (hb : s.blocked p = false) (hp : p ∈ P)
    (h : Move code s p t) : Wf code P t := by
  cases h with
  | @access f m l hc hf =>
      have hgo := hs.goto (l := l) hp hb
      exact ⟨hgo.outside, hgo.waits, fun key sem hsem => ⟨(hgo.queues key sem hsem).nodup,
        (hgo.queues key sem hsem).mem, (hgo.queues key sem hsem).idle⟩⟩
  | @pass key l sem hc hsem hpos =>
      have hq := (hs.queues key sem hsem).idle hpos
      have hset := hs.setCount (n := sem.count - 1) hsem hq
      rw [← hq] at hset
      exact hset.goto hp hb
  | block hc hsem h0 => exact hs.block hb ⟨_, hc⟩ hsem h0
  | post hc hsem hq => exact (hs.setCount hsem hq).goto hp hb
  | @handOver key l l' sem q rest hc hsem hq hne hblocked hc' =>
      exact (hs.goto hp hb).wake hsem hq

theorem Move.sems (h : Move code s p t) (hkey : s.sems key ≠ none) : t.sems key ≠ none := by
  have hset : ∀ {key' sem}, (s.setSem key' sem).sems key ≠ none := fun {key' sem} => by
    show Function.update s.sems key' (some sem) key ≠ none
    by_cases hk : key = key'
    · rw [hk, Function.update_self]
      nofun
    · rwa [Function.update_of_ne hk]
  cases h with
  | access => exact hkey
  | pass => exact hset
  | block => exact hset
  | post => exact hset
  | handOver => exact hset

/-! ### Counts -/

/-- A `wait` on `key` takes one, a `signal` gives one back, and nothing else changes what a process
holds. -/
structure Balanced (code : Code σ L) (key : SemaphoreId) (held : ProcessId → L → ℤ) : Prop where
  wait : ∀ p l key' l', code p l = .wait key' l' →
    held p l' = held p l + if key' = key then 1 else 0
  signal : ∀ p l key' l', code p l = .signal key' l' →
    held p l' = held p l - if key' = key then 1 else 0
  access : ∀ p l f m m' l', code p l = .access f → f m = .ok (m', l') → held p l' = held p l

/-- The count of `key` and what is held of it are `v` in total. -/
def Pool (P : Finset ProcessId) (key : SemaphoreId) (held : ProcessId → L → ℤ) (v : ℤ)
    (s : State σ L) : Prop :=
  ∃ sem, s.sems key = some sem ∧ (sem.count : ℤ) + ∑ p ∈ P, held p (s.loc p) = v

theorem sum_goto {g : ProcessId → L → ℤ} (hp : p ∈ P) :
    ∑ q ∈ P, g q ((s.goto p l).loc q) = ∑ q ∈ P, g q (s.loc q) + (g p l - g p (s.loc p)) := by
  have hrest : ∑ q ∈ P.erase p, g q ((s.goto p l).loc q) = ∑ q ∈ P.erase p, g q (s.loc q) := by
    refine Finset.sum_congr rfl fun q hq => ?_
    simp [State.goto, Finset.ne_of_mem_erase hq]
  have hself : (s.goto p l).loc p = l := Function.update_self _ _ _
  rw [← Finset.add_sum_erase P _ hp, ← Finset.add_sum_erase P (fun q => g q (s.loc q)) hp, hrest,
    hself]
  ring

variable {held : ProcessId → L → ℤ} {v : ℤ}

theorem Pool.goto {sem : Semaphore} {key' : SemaphoreId} {n : ℕ} {w : List ProcessId}
    (h : Pool P key held v s) (hp : p ∈ P) (hsem : s.sems key' = some sem)
    (hheld : held p l = held p (s.loc p) + if key' = key then (sem.count : ℤ) - n else 0) :
    Pool P key held v ((s.setSem key' ⟨n, w⟩).goto p l) := by
  obtain ⟨sem₀, hsem₀, hv⟩ := h
  unfold Pool
  rw [show ((s.setSem key' ⟨n, w⟩).goto p l).loc = (s.goto p l).loc from rfl, sum_goto hp, hheld]
  by_cases hk : key' = key
  · subst hk
    rw [hsem₀] at hsem
    cases hsem
    refine ⟨⟨n, w⟩, Function.update_self _ _ _, ?_⟩
    rw [if_pos rfl]
    dsimp only
    omega
  · refine ⟨sem₀, (Function.update_of_ne (Ne.symm hk) _ _).trans hsem₀, ?_⟩
    rw [if_neg hk]
    omega

theorem Pool.move (h : Pool P key held v s) (hbal : Balanced code key held) (hs : Wf code P s)
    (hp : p ∈ P) (hm : Move code s p t) : Pool P key held v t := by
  cases hm with
  | @access f m l hc hf =>
      obtain ⟨sem, hsem, hv⟩ := h
      refine ⟨sem, hsem, ?_⟩
      rw [show ({ s.goto p l with shared := m } : State σ L).loc = (s.goto p l).loc from rfl,
        sum_goto hp, hbal.access p _ f _ _ l hc hf]
      omega
  | @pass key' l sem hc hsem hpos =>
      refine h.goto hp hsem ?_
      rw [hbal.wait p _ key' l hc]
      split_ifs <;> omega
  | @block key' l sem hc hsem h0 =>
      obtain ⟨sem₀, hsem₀, hv⟩ := h
      by_cases hk : key' = key
      · subst hk
        rw [hsem₀] at hsem
        cases hsem
        exact ⟨_, Function.update_self _ _ _, hv⟩
      · exact ⟨sem₀, (Function.update_of_ne (Ne.symm hk) _ _).trans hsem₀, hv⟩
  | @post key' l sem hc hsem hq =>
      refine h.goto hp hsem ?_
      rw [hbal.signal p _ key' l hc]
      split_ifs <;> push_cast <;> omega
  | @handOver key' l l' sem q rest hc hsem hq hne hblocked hc' =>
      have hqP : q ∈ P := hs.mem_of_wait ⟨l', hc'⟩
      have hloc : (s.goto p l).loc q = s.loc q := Function.update_of_ne hne _ _
      have hsum : ∑ r ∈ P, held r (((s.goto p l).goto q l').loc r) = ∑ r ∈ P, held r (s.loc r) := by
        rw [sum_goto hqP, sum_goto hp, hloc, hbal.wait q _ key' l' hc', hbal.signal p _ key' l hc]
        omega
      obtain ⟨sem₀, hsem₀, hv⟩ := h
      by_cases hk : key' = key
      · subst hk
        rw [hsem₀] at hsem
        cases hsem
        refine ⟨_, Function.update_self _ _ _, ?_⟩
        rw [← hv, ← hsum]
        rfl
      · refine ⟨sem₀, (Function.update_of_ne (Ne.symm hk) _ _).trans hsem₀, ?_⟩
        rw [← hv, ← hsum]
        rfl

/-! ### Several semaphores together -/

/-- The count of a semaphore, `0` if it does not exist. -/
def State.count (s : State σ L) (key : SemaphoreId) : ℕ := (s.sems key).elim 0 Semaphore.count

/-- As `Balanced`, for the semaphores of `K` together. -/
structure BalancedOn (code : Code σ L) (K : Finset SemaphoreId) (held : ProcessId → L → ℤ) :
    Prop where
  wait : ∀ p l key l', code p l = .wait key l' → held p l' = held p l + if key ∈ K then 1 else 0
  signal : ∀ p l key l', code p l = .signal key l' →
    held p l' = held p l - if key ∈ K then 1 else 0
  access : ∀ p l f m m' l', code p l = .access f → f m = .ok (m', l') → held p l' = held p l

/-- The counts of the semaphores of `K`, and what is held of them. -/
def total (P : Finset ProcessId) (K : Finset SemaphoreId) (held : ProcessId → L → ℤ)
    (s : State σ L) : ℤ :=
  ∑ key ∈ K, (s.count key : ℤ) + ∑ p ∈ P, held p (s.loc p)

variable {K : Finset SemaphoreId} {sem : Semaphore} {n : ℕ} {w : List ProcessId}

theorem count_of (h : s.sems key = some sem) : s.count key = sem.count := by
  rw [State.count, h]
  rfl

/-- A blocked process waits for a semaphore without permits. -/
theorem Wf.count_of_blocked (hs : Wf code P s) (hb : s.blocked p = true)
    (hw : WaitsOn code p (s.loc p) key) : s.count key = 0 := by
  rcases hsem : s.sems key with _ | sem
  · rw [State.count, hsem]
    rfl
  · have hq := hs.queues key sem hsem
    by_contra hne
    have hmem := (hq.mem p).mpr ⟨hb, hw⟩
    rw [hq.idle (Nat.pos_of_ne_zero (count_of hsem ▸ hne))] at hmem
    exact List.not_mem_nil hmem

theorem count_setSem {key' : SemaphoreId} :
    (s.setSem key sem).count key' = if key' = key then sem.count else s.count key' := by
  show (Function.update s.sems key (some sem) key').elim 0 Semaphore.count = _
  by_cases hk : key' = key
  · subst hk
    rw [if_pos rfl, Function.update_self]
    rfl
  · rw [if_neg hk, Function.update_of_ne hk]
    rfl

theorem sum_setSem (sem' : Semaphore) (h : s.sems key = some sem) :
    ∑ k ∈ K, ((s.setSem key sem').count k : ℤ) =
      ∑ k ∈ K, (s.count k : ℤ) + if key ∈ K then (sem'.count : ℤ) - sem.count else 0 := by
  by_cases hk : key ∈ K
  · have hrest : ∑ k ∈ K.erase key, ((s.setSem key sem').count k : ℤ) =
        ∑ k ∈ K.erase key, (s.count k : ℤ) := by
      refine Finset.sum_congr rfl fun k hk' => ?_
      rw [count_setSem, if_neg (Finset.ne_of_mem_erase hk')]
    rw [← Finset.add_sum_erase K _ hk, ← Finset.add_sum_erase K (fun k => (s.count k : ℤ)) hk, hrest,
      count_setSem, if_pos rfl, if_pos hk, count_of h]
    ring
  · rw [if_neg hk, add_zero]
    refine Finset.sum_congr rfl fun k hk' => ?_
    have hne : k ≠ key := fun he => hk (he ▸ hk')
    rw [count_setSem, if_neg hne]

theorem total_goto (hbal : held p l = held p (s.loc p) + if key ∈ K then (sem.count : ℤ) - n else 0)
    (hp : p ∈ P) (hsem : s.sems key = some sem) :
    total P K held ((s.setSem key ⟨n, w⟩).goto p l) = total P K held s := by
  have hcount := sum_setSem (K := K) ⟨n, w⟩ hsem
  unfold total
  rw [show ((s.setSem key ⟨n, w⟩).goto p l).loc = (s.goto p l).loc from rfl, sum_goto hp, hbal]
  refine (congrArg (· + _) hcount).trans ?_
  split_ifs <;> ring

theorem Move.total (h : Move code s p t) (hbal : BalancedOn code K held) (hs : Wf code P s)
    (hp : p ∈ P) : total P K held t = total P K held s := by
  cases h with
  | @access f m l hc hf =>
      unfold Threads.total
      rw [show ({ s.goto p l with shared := m } : State σ L).loc = (s.goto p l).loc from rfl,
        sum_goto hp, hbal.access p _ f _ _ l hc hf, sub_self, add_zero]
      rfl
  | @pass key l sem hc hsem hpos =>
      refine total_goto ?_ hp hsem
      rw [hbal.wait p _ key l hc]
      split_ifs <;> omega
  | @block key l sem hc hsem h0 =>
      have hcount := sum_setSem (K := K) { sem with waitQueue := sem.waitQueue ++ [p] } hsem
      refine congrArg (· + _) (hcount.trans ?_)
      rw [sub_self, ite_self, add_zero]
  | @post key l sem hc hsem hq =>
      refine total_goto ?_ hp hsem
      rw [hbal.signal p _ key l hc]
      split_ifs <;> push_cast <;> omega
  | @handOver key l l' sem q rest hc hsem hq hne hblocked hc' =>
      have hqP : q ∈ P := hs.mem_of_wait ⟨l', hc'⟩
      have hloc : (s.goto p l).loc q = s.loc q := Function.update_of_ne hne _ _
      have hcount := sum_setSem (K := K) { sem with waitQueue := rest } hsem
      rw [sub_self, ite_self, add_zero] at hcount
      refine congrArg₂ (· + ·) hcount ?_
      show ∑ r ∈ P, held r (((s.goto p l).goto q l').loc r) = _
      rw [sum_goto hqP, sum_goto hp, hloc, hbal.wait q _ key l' hc', hbal.signal p _ key l hc]
      ring

/-! ### Progress -/

/-- What a process still has to do: its rank, and to block. -/
def weight (rank : ProcessId → L → ℕ) (s : State σ L) (p : ProcessId) : ℕ :=
  2 * rank p (s.loc p) + if s.blocked p then 0 else 1

/-- What is still to be done. -/
def measure (P : Finset ProcessId) (rest : σ → ℕ) (rank : ProcessId → L → ℕ) (s : State σ L) : ℕ :=
  rest s.shared + ∑ p ∈ P, weight rank s p

variable {rest : σ → ℕ} {rank : ProcessId → L → ℕ}

theorem weight_goto (q : ProcessId) : weight rank (s.goto p l) q =
    if q = p then 2 * rank p l + (if s.blocked p then 0 else 1) else weight rank s q := by
  unfold weight State.goto
  by_cases hq : q = p
  · subst hq
    simp
  · simp [hq]

theorem weight_block (q : ProcessId) : weight rank (s.block p) q =
    if q = p then 2 * rank p (s.loc p) else weight rank s q := by
  unfold weight State.block
  by_cases hq : q = p
  · subst hq
    simp
  · simp [hq]

theorem weight_wake (q : ProcessId) : weight rank (s.wake p l) q =
    if q = p then 2 * rank p l + 1 else weight rank s q := by
  unfold weight State.wake State.goto
  by_cases hq : q = p
  · subst hq
    simp
  · simp [hq]

/-- If the ranks go down along calls, and an access does more than the rank goes up, then every step
makes less what is still to be done. -/
theorem Move.measure_lt (h : Move code s p t) (hb : s.blocked p = false) (hp : p ∈ P)
    (hcall : ∀ q l l', CallEdge code q l l' → rank q l' < rank q l)
    (haccess : ∀ f m l, code p (s.loc p) = .access f → f s.shared = .ok (m, l) →
      rest m + 2 * rank p l < rest s.shared + 2 * rank p (s.loc p)) :
    measure P rest rank t < measure P rest rank s := by
  have hself : weight rank s p = 2 * rank p (s.loc p) + 1 := by rw [weight, if_neg (by simp [hb])]
  have hgo : ∀ l, CallEdge code p (s.loc p) l →
      ∑ q ∈ P, weight rank (s.goto p l) q < ∑ q ∈ P, weight rank s q := fun l hc => by
    have hlt := hcall p _ l hc
    refine Finset.sum_lt_sum (fun q _ => ?_) ⟨p, hp, ?_⟩
    · rw [weight_goto]
      by_cases hq : q = p
      · subst hq
        rw [if_pos rfl, if_neg (by simp [hb]), hself]
        omega
      · rw [if_neg hq]
    · rw [weight_goto, if_pos rfl, if_neg (by simp [hb]), hself]
      omega
  cases h with
  | @access f m l hc hf =>
      have hlt := haccess f m l hc hf
      have hsum : ∑ q ∈ P.erase p, weight rank (s.goto p l) q = ∑ q ∈ P.erase p, weight rank s q :=
        Finset.sum_congr rfl fun q hq => by rw [weight_goto, if_neg (Finset.ne_of_mem_erase hq)]
      show rest m + ∑ q ∈ P, weight rank (s.goto p l) q < _
      rw [measure, ← Finset.add_sum_erase P _ hp, ← Finset.add_sum_erase P (weight rank s) hp, hsum,
        weight_goto, if_pos rfl, if_neg (by simp [hb]), hself]
      omega
  | @pass key l sem hc hsem hpos => exact Nat.add_lt_add_left (hgo l ⟨key, Or.inl hc⟩) _
  | @block key l sem hc hsem h0 =>
      refine Nat.add_lt_add_left (Finset.sum_lt_sum (fun q _ => ?_) ⟨p, hp, ?_⟩) _
      · rw [weight_block]
        split_ifs with hq
        · subst hq
          rw [hself]
          exact Nat.le_succ _
        · exact le_rfl
      · rw [weight_block, if_pos rfl, hself]
        exact Nat.lt_succ_self _
  | @post key l sem hc hsem hq => exact Nat.add_lt_add_left (hgo l ⟨key, Or.inr hc⟩) _
  | @handOver key l l' sem q rest' hc hsem hq hne hblocked hc' =>
      refine Nat.add_lt_add_left (lt_of_le_of_lt (Finset.sum_le_sum fun r _ => ?_)
        (hgo l ⟨key, Or.inr hc⟩)) _
      rw [weight_wake]
      split_ifs with hr
      · subst hr
        have hlt := hcall r _ l' ⟨key, Or.inl hc'⟩
        show _ ≤ weight rank (s.goto p l) r
        rw [weight_goto, if_neg hne, weight, if_pos hblocked]
        omega
      · exact le_rfl

/-! ### Between the accesses -/

/-- A step accesses the shared memory, or it leaves it alone and the processes that go on do so
along calls. -/
theorem Move.calls (h : Move code s p t) :
    (∃ f m l, code p (s.loc p) = .access f ∧ f s.shared = .ok (m, l) ∧ t.shared = m ∧
      t.loc = (s.goto p l).loc) ∨
    t.shared = s.shared ∧ ∀ q, t.loc q = s.loc q ∨ CallEdge code q (s.loc q) (t.loc q) := by
  have hgoto : ∀ {key l}, code p (s.loc p) = .wait key l ∨ code p (s.loc p) = .signal key l →
      ∀ q, (s.goto p l).loc q = s.loc q ∨ CallEdge code q (s.loc q) ((s.goto p l).loc q) := by
    intro key l hc q
    by_cases hne : q = p
    · subst hne
      rw [show (s.goto q l).loc q = l from Function.update_self _ _ _]
      exact Or.inr ⟨key, hc⟩
    · exact Or.inl (Function.update_of_ne hne _ _)
  cases h with
  | @access f m l hc hf => exact Or.inl ⟨f, m, l, hc, hf, rfl, rfl⟩
  | pass hc => exact Or.inr ⟨rfl, hgoto (Or.inl hc)⟩
  | block hc => exact Or.inr ⟨rfl, fun q => Or.inl rfl⟩
  | post hc => exact Or.inr ⟨rfl, hgoto (Or.inr hc)⟩
  | @handOver key l l' sem q rest hc hsem hq hne hblocked hc' =>
      refine Or.inr ⟨rfl, fun r => ?_⟩
      by_cases hr : r = q
      · subst hr
        rw [show (((s.setSem key { sem with waitQueue := rest }).goto p l).wake r l').loc r = l' from
          Function.update_self _ _ _]
        exact Or.inr ⟨key, Or.inl hc'⟩
      · have hloc : (((s.setSem key { sem with waitQueue := rest }).goto p l).wake q l').loc r =
            (s.goto p l).loc r := Function.update_of_ne hr _ _
        rw [hloc]
        exact hgoto (Or.inr hc) r

end Threads

end Ysos
