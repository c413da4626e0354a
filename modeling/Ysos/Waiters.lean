import Ysos.Pids

/-! # Waiting for a process

`wait_pid` registers the caller under the process it waits for, and `kill` wakes those who are
registered there.

* `Table.Registered`: nobody is registered under a process that has an exit code.
* `Table.kill_spec`: what `kill` does to those who are registered.
* `no_lost_wakeup`: in every run nobody stays registered under a process with an exit code, who
  waits stays registered until the process is killed, and then is woken once, with the code. -/

namespace Ysos

open Runs

namespace Table

/-- Registrations, exit codes and the keys of the table are the same. -/
structure SameWaits (t u : Table) : Prop where
  waitQueue : u.waitQueue = t.waitQueue
  processes : u.processes = t.processes
  exitCodes : ∀ r, (u.proc r).exitCode = (t.proc r).exitCode

/-- Who is registered is in the table, under a process without exit code. -/
def Registered (t : Table) : Prop :=
  ∀ p w, w ∈ t.waiters p → t.exitCode p = none ∧ t.processes w ≠ none

/-- The call is a `kill` of `p`. -/
def Kills (t : Table) (p : ProcessId) : Op → Prop
  | .kill q => q = p
  | .processExit _ => t.processor = p
  | _ => False

variable {t u v : Table} {r : Ref} {p w : ProcessId} {c c' : ProcessContext} {ret : Int64}

namespace SameWaits

theorem refl (t : Table) : t.SameWaits t := ⟨rfl, rfl, fun _ => rfl⟩

theorem trans (h : t.SameWaits u) (h' : u.SameWaits v) : t.SameWaits v :=
  ⟨h'.waitQueue.trans h.waitQueue, h'.processes.trans h.processes,
    fun r => (h'.exitCodes r).trans (h.exitCodes r)⟩

theorem modify {f : Entry → Entry} (hf : ∀ e, (f e).exitCode = e.exitCode) :
    t.SameWaits (t.modify r f) := by
  refine ⟨rfl, rfl, fun q => ?_⟩
  by_cases hq : q = r
  · subst hq
    simp [Table.modify, hf]
  · simp [Table.modify, hq]

theorem setForked :
    t.SameWaits ((t.modify r (Entry.save c)).modify r (Entry.setForked t.nextPid)) := by
  have hsave : t.SameWaits (t.modify r (Entry.save c)) := modify fun _ => rfl
  exact hsave.trans (modify fun _ => rfl)

theorem wakeUp {ret : Option Int64} : t.SameWaits (t.wakeUp ret p) := by
  rcases hr : t.processes p with _ | r
  · rw [wakeUp_none hr]
    exact .refl t
  · rw [wakeUp_some hr]
    have hmod : t.SameWaits (t.modify r (Entry.wake ret)) := modify fun _ => rfl
    exact hmod.trans ⟨rfl, rfl, fun _ => rfl⟩

theorem wakeAll : ∀ {ps : List ProcessId} {t : Table}, t.SameWaits (t.wakeAll ret ps)
  | [], t => .refl t
  | _ :: _, _ => wakeUp.trans wakeAll

theorem block : t.SameWaits (t.block p) := by
  unfold Table.block
  split
  · exact modify fun _ => rfl
  · exact .refl t

theorem pick (h : t.Pick c u c') : t.SameWaits u := by
  cases h with
  | none => exact ⟨rfl, rfl, fun _ => rfl⟩
  | same => exact ⟨rfl, rfl, fun _ => rfl⟩
  | @switch pre rest p r =>
      have hmod : t.SameWaits (t.modify r Entry.resume) := modify fun _ => rfl
      exact hmod.trans ⟨rfl, rfl, fun _ => rfl⟩

theorem exitCode (h : t.SameWaits u) (p : ProcessId) : u.exitCode p = t.exitCode p := by
  rw [Table.exitCode, Table.exitCode, h.processes]
  congr 1
  funext r
  exact h.exitCodes r

theorem waiters (h : t.SameWaits u) (p : ProcessId) : u.waiters p = t.waiters p := by
  rw [Table.waiters, Table.waiters, h.waitQueue]

theorem registered (h : t.SameWaits u) (ht : t.Registered) : u.Registered := by
  intro p w hw
  rw [h.waiters] at hw
  rw [h.exitCode, h.processes]
  exact ht p w hw

end SameWaits

/-! ### Waking and killing -/

theorem exitCode_kill (h : t.Keyed) (hr : t.processes p = some r) (q : ProcessId) :
    (t.kill ret p).exitCode q = if q = p then some ret else t.exitCode q := by
  rw [kill_some hr, (SameWaits.wakeAll).exitCode]
  show ((t.processes q).bind fun r' => ((t.modify r (Entry.kill ret)).proc r').exitCode) = _
  by_cases hq : q = p
  · subst hq
    rw [hr, if_pos rfl]
    simp [Table.modify, Entry.kill]
  · rw [if_neg hq, Table.exitCode]
    rcases hr' : t.processes q with _ | r'
    · rfl
    · have hne : r' ≠ r := by
        rintro rfl
        exact hq ((h q r' hr').2.symm.trans (h p r' hr).2)
      simp [Table.modify, hne]

theorem waiters_kill (hr : t.processes p = some r) (q : ProcessId) :
    (t.kill ret p).waiters q = if q = p then [] else t.waiters q := by
  rw [kill_some hr, (SameWaits.wakeAll).waiters]
  unfold waiters removeWaiters
  by_cases hq : q = p
  · subst hq
    simp
  · simp [hq, Table.modify]

theorem processes_kill : (t.kill ret p).processes = t.processes := by
  rcases hr : t.processes p with _ | r
  · rw [kill_none hr]
  · rw [kill_some hr, (SameWaits.wakeAll).processes]
    rfl

/-- Waking some processes puts each into the ready queue and marks it as ready. -/
theorem wakeAll_spec (ret : Int64) : ∀ {ps : List ProcessId} {t : Table}, t.Keyed → ps.Nodup →
    (∀ w ∈ ps, t.processes w ≠ none) →
    (t.wakeAll ret ps).readyQueue = t.readyQueue ++ ps ∧
    ∀ w r, t.processes w = some r →
      (t.wakeAll ret ps).proc r = if w ∈ ps then (t.proc r).wake (some ret) else t.proc r
  | [], t, _, _, _ => ⟨(List.append_nil _).symm, fun w r _ => rfl⟩
  | p :: ps, t, h, hnd, hps => by
      obtain ⟨hp, hnd⟩ := List.nodup_cons.mp hnd
      obtain ⟨rp, hrp⟩ := Option.ne_none_iff_exists'.mp (hps p List.mem_cons_self)
      have hwake : t.wakeAll ret (p :: ps) =
          ((t.modify rp (Entry.wake (some ret))).pushReady p).wakeAll ret ps := by
        show (t.wakeUp (some ret) p).wakeAll ret ps = _
        rw [wakeUp_some hrp]
      have hkeyed : ((t.modify rp (Entry.wake (some ret))).pushReady p).Keyed := by
        intro q r hq
        obtain ⟨hle, hkey⟩ := h q r hq
        refine ⟨hle, ?_⟩
        by_cases hr : r = rp
        · subst hr
          simpa [Table.modify, pushReady, Entry.wake] using hkey
        · simpa [Table.modify, pushReady, hr] using hkey
      obtain ⟨hready, hproc⟩ :=
        wakeAll_spec ret hkeyed hnd fun w hw => hps w (List.mem_cons_of_mem _ hw)
      rw [hwake]
      refine ⟨?_, fun w r hr => ?_⟩
      · rw [hready]
        simp [pushReady, Table.modify]
      · rw [hproc w r hr]
        by_cases hwp : w = p
        · subst hwp
          obtain rfl : r = rp := Option.some.inj (hr.symm.trans hrp)
          rw [if_neg hp, if_pos List.mem_cons_self]
          simp [pushReady, Table.modify]
        · have hne : r ≠ rp := by
            rintro rfl
            exact hwp ((h w r hr).2.symm.trans (h p r hrp).2)
          simp [pushReady, Table.modify, hne, hwp]

theorem waiters_nodup : (t.waiters p).Nodup := by
  unfold waiters
  split
  · exact SortedSet.nodup _
  · exact List.nodup_nil

/-- The killed process with its registrations removed. -/
theorem Keyed.kill_one (h : t.Keyed) (ret : Int64) :
    ((t.modify r (Entry.kill ret)).removeWaiters p).Keyed := by
  intro q r' hq
  obtain ⟨hle, hkey⟩ := h q r' hq
  refine ⟨hle, ?_⟩
  by_cases hr' : r' = r
  · subst hr'
    simpa [Table.modify, removeWaiters, Entry.kill] using hkey
  · simpa [Table.modify, removeWaiters, hr'] using hkey

/-- Killing changes the process, and wakes those who are registered under it. -/
theorem kill_proc_eq (ret : Int64) (h : t.Keyed) (hw : t.Registered) (hr : t.processes p = some r)
    {q : Ref} (hq : t.processes w = some q) : (t.kill ret p).proc q =
      if w ∈ t.waiters p then ((t.modify r (Entry.kill ret)).proc q).wake (some ret)
      else (t.modify r (Entry.kill ret)).proc q := by
  rw [kill_some hr]
  exact (wakeAll_spec ret (h.kill_one ret) waiters_nodup fun w hmem => (hw p w hmem).2).2 w q hq

/-- **`kill`.**  Those who are registered are pushed on the ready queue, each once, and each of
them is ready with the exit code as the result of its call. -/
theorem kill_spec (ret : Int64) (h : t.Keyed) (hw : t.Registered) (hr : t.processes p = some r) :
    (t.kill ret p).readyQueue = t.readyQueue ++ t.waiters p ∧
    ∀ w ∈ t.waiters p, ∃ rw, t.processes w = some rw ∧ ((t.kill ret p).proc rw).status = .ready ∧
      ((t.kill ret p).proc rw).context = (t.proc rw).context.setRax ret.toUInt64 := by
  refine ⟨?_, fun w hmem => ?_⟩
  · rw [kill_some hr]
    exact (wakeAll_spec ret (h.kill_one ret) waiters_nodup fun w hmem => (hw p w hmem).2).1
  · obtain ⟨rw', hrw⟩ := Option.ne_none_iff_exists'.mp (hw p w hmem).2
    refine ⟨rw', hrw, ?_⟩
    rw [kill_proc_eq ret h hw hr hrw, if_pos hmem]
    refine ⟨rfl, ?_⟩
    by_cases hr' : rw' = r
    · subst hr'
      simp [Table.modify, Entry.kill, Entry.wake, Entry.wakeContext]
    · simp [Table.modify, hr', Entry.wake, Entry.wakeContext]

theorem kill_proc_other (ret : Int64) (h : t.Keyed) (hw : t.Registered)
    (hr : t.processes p = some r) {q : Ref} (hq : t.processes w = some q)
    (hmem : w ∉ t.waiters p) :
    (t.kill ret p).proc q = (t.modify r (Entry.kill ret)).proc q := by
  rw [kill_proc_eq ret h hw hr hq, if_neg hmem]

/-! ### Calls -/

/-- What a call does to the registrations. -/
structure KeepsWaits (t : Table) (op : Op) (u : Table) : Prop where
  registered : t.Registered → u.Registered
  stays : ∀ p w, ¬ t.Kills p op → w ∈ t.waiters p → w ∈ u.waiters p

variable {op : Op}

theorem SameWaits.keeps (h : t.SameWaits u) : t.KeepsWaits op u :=
  ⟨h.registered, fun p _ _ hw => (h.waiters p).symm ▸ hw⟩

theorem KeepsWaits.trans (h : t.KeepsWaits op u) (h' : u.SameWaits v) : t.KeepsWaits op v :=
  ⟨fun ht => h'.registered (h.registered ht),
    fun p w hp hw => (h'.waiters p).symm ▸ h.stays p w hp hw⟩

theorem KeepsWaits.kill (h : t.Keyed) (hop : t.Kills p op) : t.KeepsWaits op (t.kill ret p) := by
  rcases hr : t.processes p with _ | r
  · rw [kill_none hr]
    exact (SameWaits.refl t).keeps
  · refine ⟨fun ht q w hw => ?_, fun q w hq hw => ?_⟩
    · rw [waiters_kill hr] at hw
      by_cases hqp : q = p
      · rw [if_pos hqp] at hw
        exact absurd hw List.not_mem_nil
      · rw [if_neg hqp] at hw
        rw [exitCode_kill h hr, if_neg hqp, processes_kill]
        exact ht q w hw
    · have hqp : q ≠ p := by
        rintro rfl
        exact hq hop
      rw [waiters_kill hr, if_neg hqp]
      exact hw

theorem mem_waiters_register (q : ProcessId) :
    w ∈ (t.register p).waiters q ↔ w ∈ t.waiters q ∨ q = p ∧ w = t.processor := by
  unfold waiters register
  by_cases hq : q = p
  · subst hq
    simp only [Function.update_self]
    rcases t.waitQueue q with _ | ws
    · show w ∈ SortedSet.empty.insert t.processor ↔ _
      rw [SortedSet.mem_insert]
      simp
    · show w ∈ ws.insert t.processor ↔ _
      rw [SortedSet.mem_insert]
      simp [SortedSet.mem_iff, or_comm]
  · simp [hq]

theorem KeepsWaits.register (hexit : t.exitCode p = none) (hcur : t.processes t.processor ≠ none) :
    t.KeepsWaits op (t.register p) := by
  refine ⟨fun ht q w hw => ?_, fun q w _ hw => (mem_waiters_register q).mpr (Or.inl hw)⟩
  rcases (mem_waiters_register q).mp hw with hw | ⟨rfl, rfl⟩
  · exact ht q w hw
  · exact ⟨hexit, hcur⟩

theorem KeepsWaits.create {e : Entry} (ht : t.SameWaits v) (h : v.Keyed) (he : e.exitCode = none) :
    t.KeepsWaits op (v.create e) := by
  have hwaiters : ∀ q, (v.create e).waiters q = t.waiters q := ht.waiters
  refine ⟨fun hreg q w hw => ?_, fun q w _ hw => (hwaiters q).symm ▸ hw⟩
  rw [hwaiters] at hw
  obtain ⟨hexit, hkey⟩ := hreg q w hw
  rw [← ht.exitCode] at hexit
  rw [← ht.processes] at hkey
  refine ⟨?_, ?_⟩
  · unfold exitCode at hexit ⊢
    rw [create_processes]
    by_cases hq : q = v.nextPid
    · subst hq
      simp [Table.create, insert, he]
    · rw [Function.update_of_ne hq]
      rcases hr : v.processes q with _ | r
      · rfl
      · rw [hr] at hexit
        rw [Option.bind_some, create_proc_old (h q r hr).1]
        exact hexit
  · rw [create_processes]
    by_cases hwn : w = v.nextPid
    · rw [hwn, Function.update_self]
      rintro ⟨⟩
    · rwa [Function.update_of_ne hwn]

theorem GiveUp.keepsWaits {call : Call} (h : t.Keyed) (hu : t.GiveUp call u) :
    t.KeepsWaits call.1 u := by
  cases hu with
  | @switch c r hr =>
      have hsave : t.SameWaits (t.modify r (Entry.save c)) := .modify fun _ => rfl
      have hpush : t.SameWaits ((t.modify r (Entry.save c)).pushReady (t.proc r).pid) :=
        hsave.trans ⟨rfl, rfl, fun _ => rfl⟩
      exact hpush.keeps
  | exit => exact .kill h rfl
  | @wait pid c r hexit hr =>
      have hreg : t.KeepsWaits (.waitPid pid) (t.register pid) :=
        .register hexit (by rw [(current_iff.mp hr).2]; exact nofun)
      have hsave : (t.register pid).SameWaits ((t.register pid).modify r (Entry.save c)) :=
        .modify fun _ => rfl
      exact hreg.trans (hsave.trans (.modify fun _ => rfl))
  | killSelf => exact .kill h rfl
  | @vfork c e r hr hvm hready hexit hdata hvm' =>
      have hkeyed : ((t.modify r (Entry.save c)).modify r (Entry.setForked t.nextPid)).Keyed :=
        h.of_names .setForked
      exact (KeepsWaits.create .setForked hkeyed hexit).trans ⟨rfl, rfl, fun _ => rfl⟩
  | @semBlock key c r d p sems hr hd hwait =>
      have hsem : t.SameWaits (t.setSemaphores d.semaphores sems) := ⟨rfl, rfl, fun _ => rfl⟩
      have hsave : t.SameWaits ((t.setSemaphores d.semaphores sems).modify r (Entry.save c)) :=
        hsem.trans (.modify fun _ => rfl)
      exact (hsave.trans .block).keeps

theorem Stay.keepsWaits {call : Call} (h : t.Keyed) (hu : t.Stay call u c') :
    t.KeepsWaits call.1 u := by
  cases hu with
  | @spawn name c e hr hready hexit hvm hdata =>
      have hsem : t.SameWaits (t.setSemaphores (t.created + 1) SemaphoreSet.empty) :=
        ⟨rfl, rfl, fun _ => rfl⟩
      exact .create hsem h hexit
  | spawnNone => exact (SameWaits.refl t).keeps
  | waitExited => exact (SameWaits.refl t).keeps
  | kill => exact .kill h rfl
  | semNew => exact SameWaits.keeps ⟨rfl, rfl, fun _ => rfl⟩
  | removeSem => exact SameWaits.keeps ⟨rfl, rfl, fun _ => rfl⟩
  | semWait => exact SameWaits.keeps ⟨rfl, rfl, fun _ => rfl⟩
  | semSignal => exact SameWaits.keeps ⟨rfl, rfl, fun _ => rfl⟩
  | @semWake B key c r d p sems =>
      have hsem : t.SameWaits (t.setSemaphores d.semaphores sems) := ⟨rfl, rfl, fun _ => rfl⟩
      exact (hsem.trans .wakeUp).keeps
  | brk => exact (SameWaits.refl t).keeps
  | pageFault => exact (SameWaits.refl t).keeps

theorem Step.mem_waiters (hu : t.Step (.waitPid p, c) u c') (hexit : t.exitCode p = none) :
    t.processor ∈ u.waiters p := by
  cases hu with
  | giveUp hg hp =>
      cases hg with
      | wait _ hr =>
          rw [(SameWaits.pick hp).waiters]
          exact (mem_waiters_register p).mpr (Or.inr ⟨rfl, rfl⟩)
  | stay hst =>
      cases hst with
      | waitExited hret =>
          rw [hexit] at hret
          cases hret

theorem Step.keepsWaits {call : Call} (h : t.Keyed) (hu : t.Step call u c') :
    t.KeepsWaits call.1 u := by
  cases hu with
  | giveUp hg hp => exact (hg.keepsWaits h).trans (.pick hp)
  | stay hs => exact hs.keepsWaits h

end Table

variable {α : Type} [FrameAllocator α] {B : Build}

omit [FrameAllocator α] in
theorem boot_registered (b : BootInfo α) : (boot b).table.Registered := fun _ _ hw =>
  absurd hw List.not_mem_nil

theorem run_registered {b : BootInfo α} {s : Kernel α} (h : Run (step B) Any (boot b) s) :
    s.table.Registered := by
  refine (h.invariant (P := fun k => k.table.Numbered ∧ k.table.Registered)
    ⟨boot_numbered b, boot_registered b⟩ fun s call t c' hs hstep _ => ?_).2
  have hstep := step_table hs.1.keyed hstep
  exact ⟨hs.1.names1 hstep.names, (hstep.keepsWaits hs.1.keyed).registered hs.2⟩

/-- **No lost wake-up.**  In every reachable state: nobody is registered under a process that has
an exit code; a process that blocks in `wait_pid(p)` stays registered under `p` in every run
without a `kill` of `p`; and a `kill` of `p` leaves no registrations under `p`, and pushes every
process that is registered there on the ready queue once, ready and with the code in `rax`. -/
theorem no_lost_wakeup {b : BootInfo α} {s : Kernel α} (h : Run (step B) Any (boot b) s) :
    (∀ p w, w ∈ s.table.waiters p → s.getExitCode p = none) ∧
    (∀ p c s₁ c₁, step B s (.waitPid p, c) = .ok (s₁, c₁) → s.getExitCode p = none →
      ∀ t, Run (step B) (fun k call _ => ¬ k.table.Kills p call.1) s₁ t →
        s.processor ∈ t.table.waiters p) ∧
    ∀ p r ret s', s.getProc p = some r → s.kill B p ret = .ok s' →
      s'.getExitCode p = some ret ∧ s'.waitQueue p = none ∧
      s'.readyQueue = s.readyQueue ++ s.table.waiters p ∧ (s.table.waiters p).Nodup ∧
      ∀ w ∈ s.table.waiters p, ∃ rw, s'.getProc w = some rw ∧
        (s'.heap rw).inner.status = .ready ∧
        (s'.heap rw).inner.context = (s.heap rw).inner.context.setRax ret.toUInt64 := by
  have hs := run_numbered h
  have hreg := run_registered h
  refine ⟨fun p w hw => (hreg p w hw).1, fun p c s₁ c₁ hstep hexit t ht => ?_,
    fun p r ret s' hr hkill => ?_⟩
  · have hs₁ := hs.names1 (step_table hs.keyed hstep).names
    have hmem := (step_table hs.keyed hstep).mem_waiters hexit
    have hall : s₁.table.Numbered ∧ s.processor ∈ s₁.table.waiters p := ⟨hs₁, hmem⟩
    refine (ht.invariant (P := fun k => k.table.Numbered ∧ s.processor ∈ k.table.waiters p) hall
      fun k call k' c' hk hstep hC => ?_).2
    have hstep := step_table hk.1.keyed hstep
    exact ⟨hk.1.names1 hstep.names, (hstep.keepsWaits hk.1.keyed).stays p _ hC hk.2⟩
  · have ht := Kernel.kill_table hkill
    obtain ⟨hready, hwoken⟩ := Table.kill_spec ret hs.keyed hreg hr
    rw [← ht] at hready hwoken
    refine ⟨?_, ?_, hready, Table.waiters_nodup, fun w hw => ?_⟩
    · show s'.table.exitCode p = _
      rw [ht, Table.exitCode_kill hs.keyed hr, if_pos rfl]
    · show s'.table.waitQueue p = _
      rw [ht, Table.kill_some hr, (Table.SameWaits.wakeAll).waitQueue]
      exact Function.update_self _ _ _
    · obtain ⟨rw', hrw, hstatus, hcontext⟩ := hwoken w hw
      refine ⟨rw', ?_, hstatus, hcontext⟩
      show s'.table.processes w = _
      rw [ht, Table.processes_kill]
      exact hrw

/-- Process 2 waits for process 3, which has no exit code and whose `kill` will wake it. -/
theorem no_lost_wakeup_example : ∃ s : Kernel BootInfoFrameAllocator,
    s.table.waiters 3 = [2] ∧ s.getExitCode 3 = none ∧
    ∀ s', s.kill Build.release 3 7 = .ok s' → s'.readyQueue = [1, 2] := by
  have hs : (execCalls Any default [.spawn "sh", .spawn "sh", .switch, .waitPid 3]).map
      (fun s => (s.table.waiters 3, s.readyQueue, s.getProc 3)) = some ([2], [1], some 3) := by
    decide +kernel
  obtain ⟨s, hs, hval⟩ := Option.map_eq_some_iff.mp hs
  simp only [Prod.mk.injEq] at hval
  obtain ⟨hw, hready, hr⟩ := hval
  obtain ⟨hcode, -, hkill⟩ := no_lost_wakeup (run_of_exec hs)
  refine ⟨s, hw, hcode 3 2 (by rw [hw]; exact List.mem_singleton_self 2), fun s' hs' => ?_⟩
  rw [(hkill 3 3 7 s' hr hs').2.2.1, hready, hw]
  rfl

end Ysos
