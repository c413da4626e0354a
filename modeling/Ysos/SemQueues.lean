import Ysos.Waiters

/-! # The queues of the semaphores

The processes of a `vfork` family share a set of semaphores, which is made with the first of them.

* `Table.semQueue`: who waits at a semaphore, and what the operations of a set do to it.
* `Table.Owned`: processes have sets that were made before, and the set of a process that does not
  exist yet is empty.  It holds at boot, and every call keeps it (`Table.Owned.step`). -/

namespace Ysos

open Runs

namespace Table

/-! ### The queues -/

/-- Who waits at the semaphore `key` of the set `i`, if it is present. -/
def semQueue (t : Table) (i : Ref) (key : SemaphoreId) : List ProcessId :=
  ((t.semaphoreSets i key).map Semaphore.waitQueue).getD []

variable {t u v : Table} {r i j : Ref} {p q : ProcessId} {c c' : ProcessContext} {ret : Int64}
  {key k : SemaphoreId} {sems : SemaphoreSet}

theorem semQueue_congr (h : u.semaphoreSets = t.semaphoreSets) (i : Ref) (k : SemaphoreId) :
    u.semQueue i k = t.semQueue i k := by
  rw [semQueue, semQueue, h]

theorem mem_semQueue : p ∈ t.semQueue i key ↔
    ∃ sem, t.semaphoreSets i key = some sem ∧ p ∈ sem.waitQueue := by
  unfold semQueue
  rcases t.semaphoreSets i key with _ | sem <;> simp

/-- A new queue at one place, and the same queues at the others. -/
structure SetsQueue (t u : Table) (i : Ref) (key : SemaphoreId) (ps : List ProcessId) : Prop where
  self : u.semQueue i key = ps
  other : ∀ j k, ¬ (j = i ∧ k = key) → u.semQueue j k = t.semQueue j k

theorem semQueue_set_other (h : j ≠ i) :
    (t.setSemaphores i sems).semQueue j k = t.semQueue j k := by
  simp [semQueue, setSemaphores, h]

theorem setsQueue_update (sem : Option Semaphore)
    (h : sems = Function.update (t.semaphoreSets i) key sem) :
    SetsQueue t (t.setSemaphores i sems) i key ((sem.map Semaphore.waitQueue).getD []) := by
  subst h
  refine ⟨by simp [semQueue, setSemaphores], fun j k hjk => ?_⟩
  by_cases hj : j = i
  · subst hj
    have hk : k ≠ key := fun hk => hjk ⟨rfl, hk⟩
    simp [semQueue, setSemaphores, hk]
  · exact semQueue_set_other hj

theorem setsQueue_insert {value : ℕ} : SetsQueue t
    (t.setSemaphores i ((t.semaphoreSets i).insert key value).2) i key [] :=
  setsQueue_update (some (Semaphore.new value)) rfl

theorem setsQueue_remove :
    SetsQueue t (t.setSemaphores i ((t.semaphoreSets i).remove key).2) i key [] :=
  setsQueue_update none rfl

theorem setsQueue_block (h : (t.semaphoreSets i).wait key p = (.block q, sems)) :
    q = p ∧ SetsQueue t (t.setSemaphores i sems) i key (t.semQueue i key ++ [p]) := by
  obtain ⟨rfl, sem, hsem, -, hsems⟩ := SemaphoreSet.wait_block h
  have hq : t.semQueue i key = sem.waitQueue := by simp [semQueue, hsem]
  rw [hq]
  exact ⟨rfl, setsQueue_update _ hsems⟩

theorem setsQueue_wakeUp {B : Build} (h : (t.semaphoreSets i).signal B key = .ok (.wakeUp p, sems)) :
    ∃ rest, t.semQueue i key = p :: rest ∧ SetsQueue t (t.setSemaphores i sems) i key rest := by
  obtain ⟨sem, rest, hsem, hq, hsems⟩ := SemaphoreSet.signal_wakeUp h
  exact ⟨rest, by simp [semQueue, hsem, hq], setsQueue_update _ hsems⟩

theorem semQueue_same (h : ∀ k, (sems k).map Semaphore.waitQueue =
    (t.semaphoreSets i k).map Semaphore.waitQueue) (j : Ref) (k : SemaphoreId) :
    (t.setSemaphores i sems).semQueue j k = t.semQueue j k := by
  by_cases hj : j = i
  · subst hj
    simp [semQueue, setSemaphores, h k]
  · exact semQueue_set_other hj

/-! ### The sets -/

/-- Nobody has the semaphores of a process that does not exist yet, and there are none. -/
structure Owned (t : Table) : Prop where
  data : ∀ r ≤ t.created, ∀ d ∈ (t.proc r).procData, d.semaphores ≤ t.created
  later : ∀ i, t.created < i → t.semaphoreSets i = SemaphoreSet.empty

/-- No process gets other data, and the sets of later processes stay. -/
structure KeepsData (t u : Table) : Prop where
  created : u.created = t.created
  data : ∀ r, ∀ d ∈ (u.proc r).procData, d ∈ (t.proc r).procData
  later : ∀ i, t.created < i → u.semaphoreSets i = t.semaphoreSets i

namespace KeepsData

theorem refl (t : Table) : t.KeepsData t := ⟨rfl, fun _ _ => id, fun _ _ => rfl⟩

theorem trans (h : t.KeepsData u) (h' : u.KeepsData v) : t.KeepsData v :=
  ⟨h'.created.trans h.created, fun r d hd => h.data r d (h'.data r d hd),
    fun i hi => (h'.later i (h.created.symm ▸ hi)).trans (h.later i hi)⟩

theorem modify {f : Entry → Entry} (hf : ∀ e, ∀ d ∈ (f e).procData, d ∈ e.procData) :
    t.KeepsData (t.modify r f) := by
  refine ⟨rfl, fun q d hd => ?_, fun _ _ => rfl⟩
  by_cases hq : q = r
  · subst hq
    exact hf _ d (by simpa [Table.modify] using hd)
  · simpa [Table.modify, hq] using hd

theorem mark {f : Entry → Entry} (hf : ∀ e, (f e).procData = e.procData) :
    t.KeepsData (t.modify r f) := modify fun e _ hd => hf e ▸ hd

theorem wakeUp {ret : Option Int64} : t.KeepsData (t.wakeUp ret p) := by
  rcases hr : t.processes p with _ | r
  · rw [wakeUp_none hr]
    exact .refl t
  · rw [wakeUp_some hr]
    have hmod : t.KeepsData (t.modify r (Entry.wake ret)) := mark fun _ => rfl
    exact hmod.trans ⟨rfl, fun _ _ => id, fun _ _ => rfl⟩

theorem wakeAll : ∀ {ps : List ProcessId} {t : Table}, t.KeepsData (t.wakeAll ret ps)
  | [], t => .refl t
  | _ :: _, _ => wakeUp.trans wakeAll

theorem block : t.KeepsData (t.block p) := by
  unfold Table.block
  split
  · exact mark fun _ => rfl
  · exact .refl t

theorem kill : t.KeepsData (t.kill ret p) := by
  rcases hr : t.processes p with _ | r
  · rw [kill_none hr]
    exact .refl t
  · rw [kill_some hr]
    have hmod : t.KeepsData (t.modify r (Entry.kill ret)) := modify fun _ _ hd => nomatch hd
    have hrem : t.KeepsData ((t.modify r (Entry.kill ret)).removeWaiters p) :=
      hmod.trans ⟨rfl, fun _ _ => id, fun _ _ => rfl⟩
    exact hrem.trans wakeAll

theorem pick (h : t.Pick c u c') : t.KeepsData u := by
  cases h with
  | none => exact ⟨rfl, fun _ _ => id, fun _ _ => rfl⟩
  | same => exact ⟨rfl, fun _ _ => id, fun _ _ => rfl⟩
  | @switch pre rest p r =>
      have hmod : t.KeepsData (t.modify r Entry.resume) := mark fun _ => rfl
      exact hmod.trans ⟨rfl, fun _ _ => id, fun _ _ => rfl⟩

theorem setSemaphores (hi : i ≤ t.created) : t.KeepsData (t.setSemaphores i sems) :=
  ⟨rfl, fun _ _ => id, fun _ hj =>
    Function.update_of_ne (Nat.ne_of_gt (Nat.lt_of_le_of_lt hi hj)) _ _⟩

end KeepsData

namespace Owned

theorem keeps (h : t.Owned) (hu : t.KeepsData u) : u.Owned := by
  refine ⟨fun r hr d hd => ?_, fun i hi => ?_⟩
  · rw [hu.created] at hr ⊢
    exact h.data r hr d (hu.data r d hd)
  · rw [hu.created] at hi
    exact (hu.later i hi).trans (h.later i hi)

theorem setSemaphores_next (h : t.Owned) :
    t.setSemaphores (t.created + 1) SemaphoreSet.empty = t := by
  refine Table.ext rfl rfl rfl rfl rfl rfl ?_
  exact Function.update_eq_self_iff.mpr (h.later _ (Nat.lt_succ_self _)).symm

theorem create {e : Entry} (h : t.Owned) (hdata : ∀ d ∈ e.procData, d.semaphores ≤ t.created + 1) :
    (t.create e).Owned := by
  refine ⟨fun q hq d hd => ?_, fun i hi => h.later i (Nat.lt_of_succ_lt hi)⟩
  rcases Nat.lt_or_eq_of_le hq with hlt | rfl
  · rw [create_proc_old (Nat.le_of_lt_succ hlt)] at hd
    exact Nat.le_succ_of_le (h.data q (Nat.le_of_lt_succ hlt) d hd)
  · have hd : d ∈ ((t.create e).proc (t.created + 1)).procData := hd
    rw [show ((t.create e).proc (t.created + 1)).procData = e.procData by
      simp [Table.create, Table.insert]] at hd
    exact hdata d hd

theorem current_data (h : t.Owned) (hk : t.Keyed) (hr : t.current = some r) {d : ProcessData}
    (hd : (t.proc r).procData = some d) : d.semaphores ≤ t.created :=
  h.data r (hk.current_le hr) d hd

theorem giveUp {call : Call} (h : t.Owned) (hk : t.Keyed) (hu : t.GiveUp call u) : u.Owned := by
  cases hu with
  | @switch c r hr =>
      have hsave : t.KeepsData (t.modify r (Entry.save c)) := .mark fun _ => rfl
      exact h.keeps (hsave.trans ⟨rfl, fun _ _ => id, fun _ _ => rfl⟩)
  | exit => exact h.keeps .kill
  | @wait pid c r hexit hr =>
      have hreg : t.KeepsData (t.register pid) := ⟨rfl, fun _ _ => id, fun _ _ => rfl⟩
      have hsave : t.KeepsData ((t.register pid).modify r (Entry.save c)) :=
        hreg.trans (.mark fun _ => rfl)
      exact h.keeps (hsave.trans (.mark fun _ => rfl))
  | killSelf => exact h.keeps .kill
  | @vfork c e r hr hvm hready hexit hdata hvm' =>
      have hsave : t.KeepsData (t.modify r (Entry.save c)) := .mark fun _ => rfl
      have hfork : t.KeepsData ((t.modify r (Entry.save c)).modify r (Entry.setForked t.nextPid)) :=
        hsave.trans (.mark fun _ => rfl)
      have hnew := (h.keeps hfork).create (e := e) fun d hd => ?_
      · exact hnew.keeps ⟨rfl, fun _ _ => id, fun _ _ => rfl⟩
      · exact Nat.le_succ_of_le (h.current_data hk hr (hdata ▸ hd))
  | @semBlock key c r d p sems hr hd hwait =>
      have hsem : t.KeepsData (t.setSemaphores d.semaphores sems) :=
        .setSemaphores (h.current_data hk hr hd)
      have hsave : t.KeepsData ((t.setSemaphores d.semaphores sems).modify r (Entry.save c)) :=
        hsem.trans (.mark fun _ => rfl)
      exact h.keeps (hsave.trans .block)

theorem stay {call : Call} (h : t.Owned) (hk : t.Keyed) (hu : t.Stay call u c') : u.Owned := by
  cases hu with
  | spawn hr hready hexit hvm hdata =>
      rw [h.setSemaphores_next]
      refine h.create fun d hd => ?_
      rw [hdata] at hd
      cases hd
      exact le_rfl
  | spawnNone => exact h
  | waitExited => exact h
  | kill => exact h.keeps .kill
  | semNew hr hd => exact h.keeps (.setSemaphores (h.current_data hk hr hd))
  | removeSem hr hd => exact h.keeps (.setSemaphores (h.current_data hk hr hd))
  | semWait hr hd => exact h.keeps (.setSemaphores (h.current_data hk hr hd))
  | semSignal hr hd => exact h.keeps (.setSemaphores (h.current_data hk hr hd))
  | @semWake B key c r d p sems hr hd =>
      have hsem : t.KeepsData (t.setSemaphores d.semaphores sems) :=
        .setSemaphores (h.current_data hk hr hd)
      exact h.keeps (hsem.trans .wakeUp)
  | brk => exact h
  | pageFault => exact h

theorem step {call : Call} (h : t.Owned) (hk : t.Keyed) (hu : t.Step call u c') : u.Owned := by
  cases hu with
  | giveUp hg hp => exact (h.giveUp hk hg).keeps (.pick hp)
  | stay hs => exact h.stay hk hs

end Owned

theorem semaphoreSets_wakeUp {ret : Option Int64} :
    (t.wakeUp ret p).semaphoreSets = t.semaphoreSets := by
  unfold Table.wakeUp
  split <;> rfl

theorem semaphoreSets_wakeAll : ∀ {ps : List ProcessId} {t : Table},
    (t.wakeAll ret ps).semaphoreSets = t.semaphoreSets
  | [], _ => rfl
  | p :: ps, t => by
      show ((t.wakeUp (some ret) p).wakeAll ret ps).semaphoreSets = _
      rw [semaphoreSets_wakeAll, semaphoreSets_wakeUp]

theorem semaphoreSets_kill : (t.kill ret p).semaphoreSets = t.semaphoreSets := by
  rcases hr : t.processes p with _ | r
  · rw [kill_none hr]
  · rw [kill_some hr]
    exact semaphoreSets_wakeAll

end Table

variable {α : Type}

theorem boot_owned (b : BootInfo α) : (boot b).table.Owned := by
  refine ⟨fun r hr d hd => ?_, fun i hi => ?_⟩
  · by_cases h1 : r = 1
    · subst h1
      cases hd
      exact le_rfl
    · rw [show ((boot b).table.proc r).procData = none by
        simp [boot, Kernel.table, Kernel.modify, Kernel.newProcess, BootInfo.bare, h1,
          Process.entry, ProcessInner.entry, default]] at hd
      cases hd
  · exact Function.update_of_ne (Nat.ne_of_gt hi) _ _

end Ysos
