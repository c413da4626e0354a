import Ysos.Scheduling

/-! # Blocked processes

A process is blocked while it waits for an exit or at a semaphore.  `sem_new` with a key that is in
use and `remove_sem` drop the queue of the semaphore with the processes in it.

* `Table.Recorded`: somebody who can be woken: a queue or a registration has the process.
* `nobody_stranded`: in every run in which no call drops the only record of a blocked process,
  every blocked process is recorded.
* `remove_strands`: without the condition this fails. -/

namespace Ysos

open Runs

namespace Table

variable {t u v : Table} {r i j : Ref} {p q w : ProcessId} {c c' : ProcessContext} {ret : Int64}
  {key k : SemaphoreId} {sems : SemaphoreSet}

/-! ### Records -/

/-- A process with the id `p` and the entry `e` is in the queue of one of its semaphores, or
registered under some process. -/
def Recorded (t : Table) (p : ProcessId) (e : Entry) : Prop :=
  (∃ d ∈ e.procData, ∃ key, p ∈ t.semQueue d.semaphores key) ∨ ∃ q, p ∈ t.waiters q

/-- There is such a record besides the queue of the semaphore `key` of the set `i`. -/
def RecordedElsewhere (t : Table) (i : Ref) (key : SemaphoreId) (p : ProcessId) (e : Entry) : Prop :=
  (∃ d ∈ e.procData, ∃ k, ¬ (d.semaphores = i ∧ k = key) ∧ p ∈ t.semQueue d.semaphores k) ∨
    ∃ q, p ∈ t.waiters q

/-- Every blocked process of the table is recorded. -/
def NobodyStranded (t : Table) : Prop :=
  ∀ p r, t.processes p = some r → (t.proc r).status = .blocked → t.Recorded p (t.proc r)

/-- No blocked process has its only record in the queue of the semaphore `key` of the set `i`. -/
def NoOnlyRecord (t : Table) (i : Ref) (key : SemaphoreId) : Prop :=
  ∀ p ∈ t.semQueue i key, ∀ r ∈ t.processes p, (t.proc r).status = .blocked →
    t.RecordedElsewhere i key p (t.proc r)

/-- The calls that drop no queue with processes in it. -/
def DropsNobody (t : Table) : Op → Prop
  | .semNew key _ | .removeSem key =>
      ∀ r ∈ t.current, ∀ d ∈ (t.proc r).procData, t.semQueue d.semaphores key = []
  | _ => True

instance (t : Table) : ∀ op : Op, Decidable (t.DropsNobody op)
  | .semNew key _ | .removeSem key => inferInstanceAs (Decidable (∀ r ∈ t.current,
      ∀ d ∈ (t.proc r).procData, t.semQueue d.semaphores key = []))
  | .switch | .spawn _ | .processExit _ | .waitPid _ | .kill _ | .vfork | .semWait _
  | .semSignal _ | .brk _ | .pageFault _ _ => isTrue trivial

/-- The calls that do not drop the only record of a blocked process. -/
def KeepsRecords (t : Table) : Op → Prop
  | .semNew key _ | .removeSem key =>
      ∀ r ∈ t.current, ∀ d ∈ (t.proc r).procData, t.NoOnlyRecord d.semaphores key
  | _ => True

theorem DropsNobody.keepsRecords {op : Op} (h : t.DropsNobody op) : t.KeepsRecords op := by
  have hnone : ∀ {key}, (∀ r ∈ t.current, ∀ d ∈ (t.proc r).procData,
      t.semQueue d.semaphores key = []) →
      ∀ r ∈ t.current, ∀ d ∈ (t.proc r).procData, t.NoOnlyRecord d.semaphores key := by
    intro key hq r hr d hd p hp
    rw [hq r hr d hd] at hp
    cases hp
  cases op with
  | semNew key value => exact hnone h
  | removeSem key => exact hnone h
  | _ => exact trivial

/-- The queue of a semaphore is dropped, and nobody has its only record there. -/
theorem SetsQueue.recorded {e : Entry} {ps : List ProcessId} (h : SetsQueue t u i key ps)
    (hw : u.waitQueue = t.waitQueue) (hrec : t.RecordedElsewhere i key p e) : u.Recorded p e := by
  rcases hrec with ⟨d, hd, k, hk, hmem⟩ | ⟨q, hmem⟩
  · refine Or.inl ⟨d, hd, k, ?_⟩
    rw [h.other _ _ hk]
    exact hmem
  · refine Or.inr ⟨q, ?_⟩
    rw [waiters, hw]
    exact hmem

/-- A record is in the queue of the semaphore or elsewhere. -/
theorem Recorded.elsewhere {e : Entry} (h : t.Recorded p e) :
    p ∈ t.semQueue i key ∨ t.RecordedElsewhere i key p e := by
  rcases h with ⟨d, hd, k, hmem⟩ | hmem
  · by_cases hk : d.semaphores = i ∧ k = key
    · obtain ⟨rfl, rfl⟩ := hk
      exact Or.inl hmem
    · exact Or.inr (Or.inl ⟨d, hd, k, hk, hmem⟩)
  · exact Or.inr (Or.inr hmem)

namespace NobodyStranded

/-- The queues change, and every blocked process still has a record. -/
theorem queues (h : t.NobodyStranded) (hproc : u.proc = t.proc)
    (hprocesses : u.processes = t.processes)
    (hrec : ∀ p r, t.processes p = some r → (t.proc r).status = .blocked →
      t.Recorded p (t.proc r) → u.Recorded p (t.proc r)) : u.NobodyStranded := by
  intro p r hp hb
  rw [hprocesses] at hp
  rw [hproc] at hb ⊢
  exact hrec p r hp hb (h p r hp hb)

theorem same (h : t.NobodyStranded) (hproc : u.proc = t.proc)
    (hprocesses : u.processes = t.processes) (hsem : u.semaphoreSets = t.semaphoreSets)
    (hwait : u.waitQueue = t.waitQueue) : u.NobodyStranded := by
  refine h.queues hproc hprocesses fun p r _ _ hrec => ?_
  simp only [Recorded, semQueue_congr hsem, waiters, hwait]
  exact hrec

/-- One process changes; if it is blocked now, it has a record. -/
theorem modify {f : Entry → Entry} (h : t.NobodyStranded)
    (hdata : ∀ e, (f e).procData = e.procData)
    (hst : ∀ p, t.processes p = some r → (f (t.proc r)).status = .blocked →
      t.Recorded p (t.proc r)) : (t.modify r f).NobodyStranded := by
  intro p q hp hb
  have hrec : t.Recorded p (t.proc q) := by
    by_cases hq : q = r
    · subst hq
      exact hst p hp (by simpa [Table.modify] using hb)
    · exact h p q hp (by simpa [Table.modify, hq] using hb)
  have hproc : ((t.modify r f).proc q).procData = (t.proc q).procData := by
    by_cases hq : q = r
    · subst hq
      simp [Table.modify, hdata]
    · simp [Table.modify, hq]
  unfold Recorded
  rw [hproc]
  exact hrec

theorem unblock {f : Entry → Entry} (h : t.NobodyStranded)
    (hdata : ∀ e, (f e).procData = e.procData) (hst : ∀ e, (f e).status ≠ .blocked) :
    (t.modify r f).NobodyStranded := h.modify hdata fun _ _ hb => absurd hb (hst _)

theorem create {e : Entry} (h : t.NobodyStranded) (hk : t.Keyed) (hready : e.status = .ready) :
    (t.create e).NobodyStranded := by
  intro p q hp hb
  rw [create_processes] at hp
  by_cases hpn : p = t.nextPid
  · subst hpn
    rw [Function.update_self, Option.some.injEq] at hp
    subst hp
    rw [show ((t.create e).proc (t.created + 1)).status = e.status by
      simp [Table.create, Table.insert], hready] at hb
    cases hb
  · rw [Function.update_of_ne hpn] at hp
    have hold : (t.create e).proc q = t.proc q := create_proc_old (hk p q hp).1
    rw [hold] at hb ⊢
    exact h p q hp hb

theorem wakeUp (h : t.NobodyStranded) {ret : Option Int64} : (t.wakeUp ret p).NobodyStranded := by
  rcases hr : t.processes p with _ | r
  · rwa [wakeUp_none hr]
  · rw [wakeUp_some hr]
    have hmod : (t.modify r (Entry.wake ret)).NobodyStranded :=
      h.unblock (fun _ => rfl) (by simp [Entry.wake])
    exact hmod.same rfl rfl rfl rfl

/-- Who was registered under the killed process is ready, the killed process is dead or ready, and
the others keep their records. -/
theorem kill (h : t.NobodyStranded) (hk : t.Keyed) (hreg : t.Registered) :
    (t.kill ret p).NobodyStranded := by
  rcases hr : t.processes p with _ | r
  · rwa [kill_none hr]
  intro w q hw hb
  rw [processes_kill] at hw
  have hmem : w ∉ t.waiters p := by
    intro hmem
    obtain ⟨q', hq', hready, -⟩ := (kill_spec ret hk hreg hr).2 w hmem
    obtain rfl := Option.some.inj (hw.symm.trans hq')
    rw [hready] at hb
    cases hb
  have hproc := kill_proc_other ret hk hreg hr hw hmem
  have hqr : q ≠ r := by
    rintro rfl
    rw [hproc] at hb
    simp [Table.modify, Entry.kill] at hb
  rw [hproc, show (t.modify r (Entry.kill ret)).proc q = t.proc q from
    Function.update_of_ne hqr _ _] at hb ⊢
  rcases h w q hw hb with ⟨d, hd, key, hq⟩ | ⟨p', hp'⟩
  · refine Or.inl ⟨d, hd, key, ?_⟩
    rw [semQueue_congr semaphoreSets_kill]
    exact hq
  · refine Or.inr ⟨p', ?_⟩
    rw [waiters_kill hr, if_neg]
    · exact hp'
    · rintro rfl
      exact hmem hp'

end NobodyStranded

/-! ### Calls -/

theorem ne_of_blocked {ret : Option Int64} (hw : (t.wakeUp ret p).processes w = some r)
    (hb : ((t.wakeUp ret p).proc r).status = .blocked) : w ≠ p := by
  rintro rfl
  rcases hr : t.processes w with _ | q
  · rw [wakeUp_none hr, hr] at hw
    cases hw
  · rw [wakeUp_some hr] at hw hb
    obtain rfl := Option.some.inj (hw.symm.trans hr)
    simp [Table.modify, pushReady, Entry.wake] at hb

theorem NobodyStranded.semWake {B : Build} (h : t.NobodyStranded)
    (hsig : (t.semaphoreSets i).signal B key = .ok (.wakeUp p, sems)) :
    ((t.setSemaphores i sems).wakeUp none p).NobodyStranded := by
  obtain ⟨rest, hq, hset⟩ := setsQueue_wakeUp hsig
  have hwake : (t.wakeUp none p).NobodyStranded := h.wakeUp
  have hcomm : (t.setSemaphores i sems).wakeUp none p = (t.wakeUp none p).setSemaphores i sems := by
    rcases hr : t.processes p with _ | r
    · rw [wakeUp_none hr, wakeUp_none (t := t.setSemaphores i sems) hr]
    · rw [wakeUp_some hr, wakeUp_some (t := t.setSemaphores i sems) hr]
      rfl
  rw [hcomm]
  refine hwake.queues rfl rfl fun w r hw hb hrec => ?_
  have hne := ne_of_blocked hw hb
  rcases hrec with ⟨d, hd, k, hmem⟩ | hmem
  · refine Or.inl ⟨d, hd, k, ?_⟩
    rw [semQueue_congr semaphoreSets_wakeUp] at hmem
    rw [semQueue_congr (t := t.setSemaphores i sems)
      (by simp [setSemaphores, semaphoreSets_wakeUp])]
    by_cases hk : d.semaphores = i ∧ k = key
    · obtain ⟨rfl, rfl⟩ := hk
      rw [hq] at hmem
      rw [hset.self]
      exact (List.mem_cons.mp hmem).resolve_left hne
    · rw [hset.other _ _ hk]
      exact hmem
  · exact Or.inr hmem

theorem NobodyStranded.pick (h : t.NobodyStranded) (hp : t.Pick c u c') : u.NobodyStranded := by
  cases hp with
  | none => exact h.same rfl rfl rfl rfl
  | same => exact h.same rfl rfl rfl rfl
  | @switch pre rest p r =>
      have hmod : (t.modify r Entry.resume).NobodyStranded :=
        h.unblock (fun _ => rfl) (by simp [Entry.resume])
      exact hmod.same rfl rfl rfl rfl

theorem NobodyStranded.giveUp {call : Call} (h : t.NobodyStranded) (hk : t.Keyed) (hreg : t.Registered)
    (hu : t.GiveUp call u) : u.NobodyStranded := by
  cases hu with
  | @switch c r hr =>
      have hsave : (t.modify r (Entry.save c)).NobodyStranded :=
        h.unblock (fun _ => rfl) (by simp [Entry.save])
      exact hsave.same rfl rfl rfl rfl
  | exit => exact h.kill hk hreg
  | @wait pid c r hexit hr =>
      have hadd : (t.register pid).NobodyStranded := by
        refine h.queues rfl rfl fun p r _ _ hrec => ?_
        exact hrec.imp_right fun h => h.imp fun q hq => (mem_waiters_register q).mpr (Or.inl hq)
      have hsave : ((t.register pid).modify r (Entry.save c)).NobodyStranded :=
        hadd.unblock (fun _ => rfl) (by simp [Entry.save])
      refine hsave.modify (fun _ => rfl) fun p hp _ => ?_
      have hcur : p = t.processor := (hk p r hp).2.symm.trans (hk.current_pid hr)
      exact Or.inr ⟨pid, (mem_waiters_register pid).mpr (Or.inr ⟨rfl, hcur⟩)⟩
  | killSelf => exact h.kill hk hreg
  | @vfork c e r hr hvm hready hexit hdata hvm' =>
      have hsave : (t.modify r (Entry.save c)).NobodyStranded :=
        h.unblock (fun _ => rfl) (by simp [Entry.save])
      have hfork : ((t.modify r (Entry.save c)).modify r (Entry.setForked t.nextPid)).NobodyStranded :=
        hsave.unblock (fun _ => rfl) (by simp [Entry.setForked])
      have hkeyed : ((t.modify r (Entry.save c)).modify r (Entry.setForked t.nextPid)).Keyed :=
        hk.of_names .setForked
      exact (hfork.create hkeyed hready).same rfl rfl rfl rfl
  | @semBlock key c r d p sems hr hd hwait =>
      obtain ⟨rfl, hset⟩ := setsQueue_block hwait
      have hadd : (t.setSemaphores d.semaphores sems).NobodyStranded := by
        refine h.queues rfl rfl fun p r _ _ hrec => ?_
        refine hrec.imp_left ?_
        rintro ⟨d', hd', k, hmem⟩
        refine ⟨d', hd', k, ?_⟩
        by_cases hk : d'.semaphores = d.semaphores ∧ k = key
        · obtain ⟨hi, rfl⟩ := hk
          rw [hi, hset.self]
          exact List.mem_append_left _ (hi ▸ hmem)
        · rw [hset.other _ _ hk]
          exact hmem
      have hsave : ((t.setSemaphores d.semaphores sems).modify r (Entry.save c)).NobodyStranded :=
        hadd.unblock (fun _ => rfl) (by simp [Entry.save])
      have hpid := hk.current_pid hr
      have hp : t.processes (t.proc r).pid = some r := hpid ▸ (current_iff.mp hr).2
      rw [block_some (t := (t.setSemaphores d.semaphores sems).modify r (Entry.save c)) hp]
      refine hsave.modify (fun _ => rfl) fun q hq _ => Or.inl ⟨d, ?_, key, ?_⟩
      · simpa [Table.modify, setSemaphores, Entry.save] using hd
      · have hself : ((t.setSemaphores d.semaphores sems).modify r (Entry.save c)).semQueue
            d.semaphores key = t.semQueue d.semaphores key ++ [(t.proc r).pid] := hset.self
        rw [hself, ← (hk q r hq).2]
        exact List.mem_append_right _ (List.mem_singleton_self _)

theorem NobodyStranded.stay {call : Call} (h : t.NobodyStranded) (hk : t.Keyed)
    (ho : t.Owned) (hreg : t.Registered) (hC : t.KeepsRecords call.1) (hu : t.Stay call u c') :
    u.NobodyStranded := by
  cases hu with
  | @spawn name c e hr hready hexit hvm hdata =>
      rw [ho.setSemaphores_next]
      exact h.create hk hready
  | spawnNone => exact h
  | waitExited => exact h
  | kill => exact h.kill hk hreg
  | @semNew key value c r d hr hd =>
      refine h.queues rfl rfl fun p q hp hb hrec => ?_
      refine setsQueue_insert.recorded rfl (hrec.elsewhere.elim (fun hmem => ?_) id)
      exact hC r hr d hd p hmem q hp hb
  | @removeSem key c r d hr hd =>
      refine h.queues rfl rfl fun p q hp hb hrec => ?_
      refine setsQueue_remove.recorded rfl (hrec.elsewhere.elim (fun hmem => ?_) id)
      exact hC r hr d hd p hmem q hp hb
  | @semWait key c r d x res sems hr hd hwait hres =>
      have hsame := semQueue_same (i := d.semaphores) (SemaphoreSet.wait_other hwait hres)
      refine h.queues rfl rfl fun p q hp hb hrec => ?_
      simp only [Recorded, hsame]
      exact hrec
  | @semSignal B key c r d x res sems hr hd hsig hres =>
      have hsame := semQueue_same (i := d.semaphores) (SemaphoreSet.signal_other hsig hres)
      refine h.queues rfl rfl fun p q hp hb hrec => ?_
      simp only [Recorded, hsame]
      exact hrec
  | semWake hr hd hsig => exact h.semWake hsig
  | brk => exact h
  | pageFault => exact h

theorem NobodyStranded.step {call : Call} (h : t.NobodyStranded) (hk : t.Keyed)
    (ho : t.Owned) (hreg : t.Registered) (hC : t.KeepsRecords call.1) (hu : t.Step call u c') :
    u.NobodyStranded := by
  cases hu with
  | giveUp hg hp => exact (h.giveUp hk hreg hg).pick hp
  | stay hs => exact h.stay hk ho hreg hC hs

end Table

variable {α : Type}

/-- In the queue of a semaphore that the process can use, or registered in the wait queue of a
process. -/
def Kernel.Recorded (k : Kernel α) (p : ProcessId) (r : Ref) : Prop :=
  (∃ d ∈ (k.heap r).inner.procData, ∃ key, ∃ sem ∈ k.semaphoreSets d.semaphores key,
    p ∈ sem.waitQueue) ∨ ∃ q, ∃ ws ∈ k.waitQueue q, p ∈ ws

theorem Kernel.recorded_iff {k : Kernel α} {p : ProcessId} {r : Ref} :
    k.Recorded p r ↔ k.table.Recorded p (k.table.proc r) := by
  have hwait : ∀ q, p ∈ k.table.waiters q ↔ ∃ ws ∈ k.waitQueue q, p ∈ ws := by
    intro q
    rw [Table.waiters, show k.table.waitQueue q = k.waitQueue q from rfl]
    rcases k.waitQueue q with _ | ws
    · simp
    · simp [SortedSet.mem_iff]
  refine or_congr ?_ (exists_congr fun q => (hwait q).symm)
  refine exists_congr fun d => and_congr_right fun _ => exists_congr fun key => ?_
  exact (Table.mem_semQueue (t := k.table) (i := d.semaphores)).symm

theorem boot_nobodyStranded (b : BootInfo α) : (boot b).table.NobodyStranded := by
  intro p r hp hb
  obtain ⟨h1, hle, -⟩ := (boot_numbered b).entries p r hp
  obtain rfl : r = 1 := Nat.le_antisymm hle h1
  cases hb

variable [FrameAllocator α] {B : Build}

/-- The condition of the runs in which nobody is stranded. -/
abbrev RecordsKept (k : Kernel α) (call : Call) (_ : Kernel α) : Prop :=
  k.table.KeepsRecords call.1

/-- **No process is stranded.**  In every run of calls that do not drop the only record of a
blocked process, every blocked process of the table is in the queue of one of its semaphores or
registered under a process that it waits for. -/
theorem nobody_stranded {b : BootInfo α} {s : Kernel α}
    (h : Run (step B) RecordsKept (boot b) s) (p : ProcessId) (r : Ref)
    (hp : s.getProc p = some r) (hb : (s.heap r).inner.status = .blocked) : s.Recorded p r := by
  refine Kernel.recorded_iff.mpr ?_
  refine (h.invariant (P := fun k => (k.table.Numbered ∧ k.table.Owned ∧ k.table.Registered) ∧
    k.table.NobodyStranded) ⟨⟨boot_numbered b, boot_owned b, boot_registered b⟩,
    boot_nobodyStranded b⟩ fun k call k' c' hk hstep hC => ?_).2 p r hp hb
  obtain ⟨⟨hnum, ho, hreg⟩, hnobody⟩ := hk
  have hstep := step_table hnum.keyed hstep
  exact ⟨⟨hnum.names1 hstep.names, ho.step hnum.keyed hstep,
    (hstep.keepsWaits hnum.keyed).registered hreg⟩,
    hnobody.step hnum.keyed ho hreg hC hstep⟩

/-- Process 2 made a semaphore, forked process 3 and waits at the semaphore. -/
theorem nobody_stranded_example : ∃ s : Kernel BootInfoFrameAllocator,
    (s.heap 2).inner.status = .blocked ∧ s.Recorded 2 2 := by
  have hs : (execCalls (fun k call _ => k.table.DropsNobody call.1) default
      [.spawn "sh", .switch, .semNew 0 0, .vfork, .switch, .switch, .semWait 0]).map
      (fun s => (s.getProc 2, (s.heap 2).inner.status)) = some (some 2, .blocked) := by
    decide +kernel
  obtain ⟨s, hs, hval⟩ := Option.map_eq_some_iff.mp hs
  obtain ⟨hp, hb⟩ := Prod.mk.inj hval
  have hrun := (run_of_exec hs).mono (D := RecordsKept) fun _ _ _ h => h.keepsRecords
  exact ⟨s, hb, nobody_stranded hrun 2 2 hp hb⟩

/-- While the kernel process runs on and fewer than `2 ^ 16` processes are created, a process waits
at one place only, so that `remove_sem` strands everybody who waits at the semaphore. -/
theorem Table.SchedOk.stranded {t : Table} {i : Ref} {key : SemaphoreId} {p : ProcessId}
    (h : t.SchedOk) (hmem : p ∈ t.semQueue i key) (e : Entry) :
    ¬ (t.setSemaphores i ((t.semaphoreSets i).remove key).2).Recorded p e := by
  have hset : Table.SetsQueue t (t.setSemaphores i ((t.semaphoreSets i).remove key).2) i key [] :=
    Table.setsQueue_remove
  obtain ⟨-, -, -, -, hother⟩ := h.waiting_situation (a := Place.sem i key) hmem
  rintro (⟨d, -, k, hk⟩ | ⟨q, hq⟩)
  · by_cases hplace : d.semaphores = i ∧ k = key
    · obtain ⟨rfl, rfl⟩ := hplace
      rw [hset.self] at hk
      cases hk
    · rw [hset.other _ _ hplace] at hk
      refine Multiset.count_eq_zero.mp (hother (.sem d.semaphores k) fun he => hplace ?_) hk
      cases he
      exact ⟨rfl, rfl⟩
  · exact Multiset.count_eq_zero.mp (hother (.exit q) nofun) hq

/-- Process 2 waits at a semaphore that its child, process 3, removes. -/
theorem remove_strands : ¬ ∀ (b : BootInfo BootInfoFrameAllocator)
    (s : Kernel BootInfoFrameAllocator) (p : ProcessId) (r : Ref),
    Run (step Build.release) Any (boot b) s → s.getProc p = some r →
      (s.heap r).inner.status = .blocked → s.Recorded p r := by
  intro hall
  have hs : (execCalls KernelKept default [.spawn "sh", .switch, .semNew 0 0, .vfork, .switch,
      .switch, .semWait 0, .switch]).map (fun s => (s.getProc 2, (s.heap 2).inner.status,
        (Proc.currentSemaphores s).toOption, s.table.semQueue 2 0)) =
      some (some 2, .blocked, some 2, [2]) := by
    decide +kernel
  obtain ⟨s, hs, hval⟩ := Option.map_eq_some_iff.mp hs
  simp only [Prod.mk.injEq] at hval
  obtain ⟨hp, hb, hsems, hqueue⟩ := hval
  have hrun := run_of_exec hs
  have hcur : Proc.currentSemaphores s = .ok 2 := ok_of_toOption hsems
  have hstep : step Build.release s (.removeSem 0, default) =
      .ok (Proc.setSemaphores s 2 ((s.semaphoreSets 2).remove 0).2, default) := by
    simp only [step, Proc.removeSem, bind_eq_ok]
    exact ⟨_, ⟨2, hcur, rfl⟩, rfl⟩
  have hrec := hall _ _ 2 2 ((hrun.mono fun _ _ _ _ => trivial).tailAny hstep) hp hb
  have hmem : 2 ∈ s.table.semQueue 2 0 := by
    rw [hqueue]
    exact List.mem_singleton_self 2
  exact (run_schedOk hrun).2.stranded hmem _ (Kernel.recorded_iff.mp hrec)

end Ysos
