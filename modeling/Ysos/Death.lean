import Ysos.Calls
import Ysos.Family

/-! # Dead processes

`ProcessInner::kill` takes the memory of a process and marks it as dead, but `wake_up` marks
every process it is handed as ready, `save` every current one, and nobody asks first.

* `Table.Spares`: the calls that do not do this to a dead process.
* `death_is_final`: in every run of such calls a dead process stays dead and is never made the
  current one, and `switch_next` never restores a process whose memory was taken.
* `dead_process_wakes`: without the condition this fails. -/

namespace Ysos

open Runs

namespace Table

/-- The process behind `r` is dead. -/
def Dead (t : Table) (r : Ref) : Prop := r ≤ t.created ∧ (t.proc r).status = .dead

/-- The process with the id `p` is dead. -/
def DeadPid (t : Table) (p : ProcessId) : Prop := ∃ r ∈ t.processes p, (t.proc r).status = .dead

/-- The current process is not dead. -/
def CurrentAlive (t : Table) : Prop := ∀ r ∈ t.current, (t.proc r).status ≠ .dead

/-- Whoever waits for `p` is alive when `p` is killed. -/
def WaitersAlive (t : Table) (p : ProcessId) : Prop :=
  t.processes p ≠ none → ∀ w ∈ t.waiters p, w ≠ p ∧ ¬ t.DeadPid w

/-- The calls that neither wake a dead process nor suspend one. -/
def Spares (t : Table) : Op → Prop
  | .switch => t.CurrentAlive
  | .waitPid pid => t.exitCode pid = none → t.CurrentAlive
  | .processExit _ => t.WaitersAlive t.processor
  | .kill pid => t.WaitersAlive pid
  | .semSignal key => ∀ r ∈ t.current, ∀ d ∈ (t.proc r).procData,
      ∀ sem ∈ t.semaphoreSets d.semaphores key, ∀ p ∈ sem.waitQueue.head?, ¬ t.DeadPid p
  | _ => True

instance (t : Table) (p : ProcessId) : Decidable (t.DeadPid p) :=
  inferInstanceAs (Decidable (∃ r ∈ t.processes p, (t.proc r).status = .dead))

instance (t : Table) : Decidable t.CurrentAlive :=
  inferInstanceAs (Decidable (∀ r ∈ t.current, (t.proc r).status ≠ .dead))

instance (t : Table) (p : ProcessId) : Decidable (t.WaitersAlive p) :=
  inferInstanceAs (Decidable (t.processes p ≠ none → ∀ w ∈ t.waiters p, w ≠ p ∧ ¬ t.DeadPid w))

instance (t : Table) : ∀ op : Op, Decidable (t.Spares op)
  | .switch => inferInstanceAs (Decidable t.CurrentAlive)
  | .waitPid pid => inferInstanceAs (Decidable (t.exitCode pid = none → t.CurrentAlive))
  | .processExit _ => inferInstanceAs (Decidable (t.WaitersAlive t.processor))
  | .kill pid => inferInstanceAs (Decidable (t.WaitersAlive pid))
  | .semSignal key => inferInstanceAs (Decidable (∀ r ∈ t.current, ∀ d ∈ (t.proc r).procData,
      ∀ sem ∈ t.semaphoreSets d.semaphores key, ∀ p ∈ sem.waitQueue.head?, ¬ t.DeadPid p))
  | .spawn _ | .vfork | .semNew _ _ | .removeSem _ | .semWait _ | .brk _ | .pageFault _ _ =>
      isTrue trivial

/-- The processes without memory are the dead ones, and they have no data. -/
structure Sound (t : Table) : Prop where
  keyed : t.Keyed
  memory : ∀ r, (t.proc r).hasVm = false ↔ (t.proc r).status = .dead
  data : ∀ r, (t.proc r).status = .dead → (t.proc r).procData = none

/-- From `t` to `u` no dead process comes back or gets the processor. -/
structure Final (t u : Table) : Prop where
  sound : u.Sound
  dead : ∀ r, t.Dead r → u.Dead r
  current : ∀ r, t.Dead r → u.current = some r → t.current = some r

variable {t u v : Table} {r : Ref} {p : ProcessId} {c c' : ProcessContext}

theorem Final.refl (h : t.Sound) : t.Final t := ⟨h, fun _ => id, fun _ _ => id⟩

theorem Final.trans (h : t.Final u) (h' : u.Final v) : t.Final v :=
  ⟨h'.sound, fun r hr => h'.dead r (h.dead r hr),
    fun r hr hc => h.current r hr (h'.current r (h.dead r hr) hc)⟩

theorem Final.of_eq (h : t.Sound) (hproc : u.proc = t.proc) (hcreated : u.created = t.created)
    (hprocesses : u.processes = t.processes) (hprocessor : u.processor = t.processor) :
    t.Final u := by
  refine ⟨⟨fun p r hp => ?_, fun r => ?_, fun r => ?_⟩, fun r hr => ?_, fun r _ hc => ?_⟩
  · rw [hcreated, hproc]
    exact h.keyed p r (hprocesses ▸ hp)
  · rw [hproc]
    exact h.memory r
  · rw [hproc]
    exact h.data r
  · rw [Dead, hcreated, hproc]
    exact hr
  · rwa [current_iff, hprocessor, hprocesses, ← current_iff] at hc

/-- A change of a process that is not dead, or that dies. -/
theorem Final.modify {f : Entry → Entry} (h : t.Sound) (hpid : (f (t.proc r)).pid = (t.proc r).pid)
    (hmem : (f (t.proc r)).hasVm = false ↔ (f (t.proc r)).status = .dead)
    (hdata : (f (t.proc r)).status = .dead → (f (t.proc r)).procData = none)
    (hdead : (t.proc r).status = .dead → (f (t.proc r)).status = .dead) :
    t.Final (t.modify r f) := by
  refine ⟨⟨fun p q hp => ?_, fun q => ?_, fun q => ?_⟩, fun q hq => ?_, fun q _ hc => hc⟩
  · obtain ⟨hle, hkey⟩ := h.keyed p q hp
    refine ⟨hle, ?_⟩
    by_cases hq : q = r
    · subst hq
      simpa [Table.modify] using hpid.trans hkey
    · simpa [Table.modify, hq] using hkey
  · by_cases hq : q = r
    · subst hq
      simpa [Table.modify] using hmem
    · simpa [Table.modify, hq] using h.memory q
  · by_cases hq : q = r
    · subst hq
      simpa [Table.modify] using hdata
    · simpa [Table.modify, hq] using h.data q
  · refine ⟨hq.1, ?_⟩
    by_cases hqr : q = r
    · subst hqr
      simpa [Table.modify] using hdead hq.2
    · simpa [Table.modify, hqr] using hq.2

theorem Final.modify_alive {f : Entry → Entry} (h : t.Sound) (hr : (t.proc r).status ≠ .dead)
    (hpid : ∀ e, (f e).pid = e.pid) (hmem : ∀ e, (f e).hasVm = e.hasVm)
    (hst : ∀ e, (f e).status ≠ .dead) : t.Final (t.modify r f) := by
  refine Final.modify h (hpid _) ?_ (fun hd => absurd hd (hst _)) fun hd => absurd hd hr
  rw [hmem, h.memory r]
  exact iff_of_false hr (hst _)

theorem Final.kill_one {ret : Int64} (h : t.Sound) : t.Final (t.modify r (Entry.kill ret)) :=
  Final.modify h rfl (iff_of_true rfl rfl) (fun _ => rfl) fun _ => rfl

theorem Final.create {e : Entry} (h : t.Sound) (hready : e.status = .ready) (hvm : e.hasVm = true) :
    t.Final (t.create e) := by
  have hnew : (t.create e).proc (t.created + 1) = { e with pid := t.nextPid } := by
    simp [Table.create, insert]
  have hold : ∀ q, q ≠ t.created + 1 → (t.create e).proc q = t.proc q := by
    intro q hq
    simp [Table.create, insert, hq]
  have hne : ∀ q, t.Dead q → q ≠ t.created + 1 := fun q hq => Nat.ne_of_lt (Nat.lt_succ_of_le hq.1)
  refine ⟨⟨fun p q hp => ?_, fun q => ?_, fun q => ?_⟩, fun q hq => ?_, fun q hq hc => ?_⟩
  · by_cases hpn : p = t.nextPid
    · subst hpn
      simp only [Table.create, Function.update_self, Option.some.injEq] at hp
      subst hp
      exact ⟨le_rfl, congrArg Entry.pid hnew⟩
    · simp only [Table.create, Function.update_of_ne hpn] at hp
      obtain ⟨hle, hkey⟩ := h.keyed p q hp
      refine ⟨Nat.le_succ_of_le hle, ?_⟩
      rw [hold q (Nat.ne_of_lt (Nat.lt_succ_of_le hle))]
      exact hkey
  · by_cases hq : q = t.created + 1
    · rw [hq, hnew]
      simp [hready, hvm]
    · rw [hold q hq]
      exact h.memory q
  · by_cases hq : q = t.created + 1
    · rw [hq, hnew]
      simp [hready]
    · rw [hold q hq]
      exact h.data q
  · refine ⟨Nat.le_succ_of_le hq.1, ?_⟩
    rw [hold q (hne q hq)]
    exact hq.2
  · -- with the ids wrapped, the new process may have taken the place of the current one
    obtain ⟨h0, hc⟩ := current_iff.mp hc
    by_cases hpn : t.processor = t.nextPid
    · rw [show (t.create e).processor = t.nextPid from hpn] at hc
      simp only [Table.create, Function.update_self, Option.some.injEq] at hc
      exact absurd hc.symm (hne q hq)
    · refine current_iff.mpr ⟨h0, ?_⟩
      rw [← hc]
      exact (Function.update_of_ne hpn _ _).symm

/-! ### Waking and killing -/

theorem Final.wakeUp {ret : Option Int64} (h : t.Sound) (hp : ¬ t.DeadPid p) :
    t.Final (t.wakeUp ret p) := by
  rcases hr : t.processes p with _ | r
  · rw [wakeUp_none hr]
    exact .refl h
  · rw [wakeUp_some hr]
    have hmod := Final.modify_alive (f := Entry.wake ret) h (fun hd => hp ⟨r, hr, hd⟩)
      (fun _ => rfl) (fun _ => rfl) (by simp [Entry.wake])
    exact hmod.trans (.of_eq hmod.sound rfl rfl rfl rfl)

theorem DeadPid.of_wakeUp {ret : Option Int64} {q : ProcessId} (h : (t.wakeUp ret p).DeadPid q) :
    t.DeadPid q := by
  rcases hr : t.processes p with _ | r
  · rwa [wakeUp_none hr] at h
  · rw [wakeUp_some hr] at h
    obtain ⟨r', hr', hd⟩ := h
    refine ⟨r', hr', ?_⟩
    by_cases hrr : r' = r
    · subst hrr
      simp [Table.modify, pushReady, Entry.wake] at hd
    · simpa [Table.modify, pushReady, hrr] using hd

theorem Final.wakeAll {ret : Int64} : ∀ {ps : List ProcessId} {t : Table}, t.Sound →
    (∀ p ∈ ps, ¬ t.DeadPid p) → t.Final (t.wakeAll ret ps)
  | [], _, h, _ => .refl h
  | p :: ps, t, h, hps => by
      have hfirst : t.Final (t.wakeUp (some ret) p) := .wakeUp h (hps p List.mem_cons_self)
      refine hfirst.trans (Final.wakeAll hfirst.sound fun q hq hd => ?_)
      exact hps q (List.mem_cons_of_mem _ hq) hd.of_wakeUp

theorem Final.kill_removed {ret : Int64} (h : t.Sound) :
    t.Final ((t.modify r (Entry.kill ret)).removeWaiters p) := by
  have hkill : t.Final (t.modify r (Entry.kill ret)) := .kill_one h
  exact hkill.trans (.of_eq hkill.sound rfl rfl rfl rfl)

theorem Final.kill_wakes {ret : Int64} (h : t.Sound) (hw : t.WaitersAlive p)
    (hr : t.processes p = some r) :
    ((t.modify r (Entry.kill ret)).removeWaiters p).Final (t.kill ret p) := by
  have hrem : t.Final ((t.modify r (Entry.kill ret)).removeWaiters p) := .kill_removed h
  rw [kill_some hr]
  refine Final.wakeAll hrem.sound fun w hwm hd => ?_
  obtain ⟨hwp, halive⟩ := hw (by simp [hr]) w hwm
  obtain ⟨r', hr', hd⟩ := hd
  have hne : r' ≠ r := by
    rintro rfl
    exact hwp ((h.keyed w _ hr').2.symm.trans (h.keyed p _ hr).2)
  refine halive ⟨r', hr', ?_⟩
  simpa [removeWaiters, Table.modify, hne] using hd

theorem Final.kill {ret : Int64} (h : t.Sound) (hw : t.WaitersAlive p) : t.Final (t.kill ret p) := by
  rcases hr : t.processes p with _ | r
  · rw [kill_none hr]
    exact .refl h
  · exact (Final.kill_removed h).trans (.kill_wakes h hw hr)

theorem Sound.killed {ret : Int64} (h : t.Sound) (hw : t.WaitersAlive p)
    (hr : t.processes p = some r) : (t.kill ret p).Dead r := by
  refine (Final.kill_wakes h hw hr).dead r ⟨(h.keyed p r hr).1, ?_⟩
  simp [removeWaiters, Table.modify, Entry.kill]

/-! ### Calls -/

theorem Final.pick (h : t.Sound) (hp : t.Pick c u c') : t.Final u := by
  cases hp with
  | none => exact .of_eq h rfl rfl rfl rfl
  | same => exact .of_eq h rfl rfl rfl rfl
  | @switch pre rest p r hq hpre hr hready hvm hne =>
      have hst : (t.proc r).status ≠ .dead := by simp [hready]
      have hmod := Final.modify_alive (f := Entry.resume) h hst (fun _ => rfl) (fun _ => rfl)
        (by simp [Entry.resume])
      refine ⟨⟨hmod.sound.keyed, hmod.sound.memory, hmod.sound.data⟩, hmod.dead, ?_⟩
      intro q hq hc
      have hqr : t.processes p = some q := (current_iff.mp hc).2
      rw [hr] at hqr
      cases hqr
      exact absurd hq.2 hst

theorem Sound.alive_of_data {d : ProcessData} (h : t.Sound) (hd : (t.proc r).procData = some d) :
    (t.proc r).status ≠ .dead := fun hdead => by
  rw [h.data r hdead] at hd
  cases hd

theorem Final.giveUp {call : Call} (h : t.Sound) (hs : t.Spares call.1) (hu : t.GiveUp call u) :
    t.Final u := by
  cases hu with
  | @switch c r hr =>
      have hmod := Final.modify_alive (f := Entry.save c) h (hs r hr) (fun _ => rfl) (fun _ => rfl)
        (by simp [Entry.save])
      exact hmod.trans (.of_eq hmod.sound rfl rfl rfl rfl)
  | exit => exact .kill h hs
  | @wait pid c r hexit hr =>
      have hreg : t.Final (t.register pid) := .of_eq h rfl rfl rfl rfl
      have hsave := Final.modify_alive (r := r) (f := Entry.save c) hreg.sound (hs hexit r hr)
        (fun _ => rfl) (fun _ => rfl) (by simp [Entry.save])
      refine hreg.trans (hsave.trans (Final.modify_alive hsave.sound ?_ (fun _ => rfl)
        (fun _ => rfl) (by simp [Entry.block])))
      simp [Table.modify, Entry.save]
  | killSelf => exact .kill h hs
  | @vfork c e r hr hvm hready hexit hdata hvm' =>
      have halive : (t.proc r).status ≠ .dead := fun hd => by
        rw [(h.memory r).mpr hd] at hvm
        cases hvm
      have hsave := Final.modify_alive (r := r) (f := Entry.save c) h halive
        (fun _ => rfl) (fun _ => rfl) (by simp [Entry.save])
      have hfork := Final.modify_alive (r := r) (f := Entry.setForked t.nextPid) hsave.sound
        (by simp [Table.modify, Entry.save]) (fun _ => rfl) (fun _ => rfl) (by simp [Entry.setForked])
      have hnew := Final.create (e := e) hfork.sound hready hvm'
      exact hsave.trans (hfork.trans (hnew.trans (.of_eq hnew.sound rfl rfl rfl rfl)))
  | @semBlock key c r d p sems hr hd hwait =>
      have hsem : t.Final (t.setSemaphores d.semaphores sems) := .of_eq h rfl rfl rfl rfl
      have hsave := Final.modify_alive (r := r) (f := Entry.save c) hsem.sound (h.alive_of_data hd)
        (fun _ => rfl) (fun _ => rfl) (by simp [Entry.save])
      obtain ⟨rfl, -⟩ := SemaphoreSet.wait_block hwait
      have hp : t.processes (t.proc r).pid = some r := by
        rw [h.keyed.current_pid hr]
        exact (current_iff.mp hr).2
      rw [block_some (t := (t.setSemaphores d.semaphores sems).modify r (Entry.save c)) hp]
      refine hsem.trans (hsave.trans (Final.modify_alive hsave.sound ?_ (fun _ => rfl)
        (fun _ => rfl) (by simp [Entry.block])))
      simp [Table.modify, Entry.save]

theorem Final.stay {call : Call} (h : t.Sound) (hs : t.Spares call.1) (hu : t.Stay call u c') :
    t.Final u := by
  cases hu with
  | spawn hr hready hexit hvm hdata =>
      have hsem : t.Final (t.setSemaphores (t.created + 1) SemaphoreSet.empty) :=
        .of_eq h rfl rfl rfl rfl
      exact hsem.trans (.create hsem.sound hready hvm)
  | spawnNone => exact .refl h
  | waitExited => exact .refl h
  | kill hne => exact .kill h hs
  | semNew hr hd => exact .of_eq h rfl rfl rfl rfl
  | removeSem hr hd => exact .of_eq h rfl rfl rfl rfl
  | semWait hr hd hwait hres => exact .of_eq h rfl rfl rfl rfl
  | semSignal hr hd hsignal hres => exact .of_eq h rfl rfl rfl rfl
  | @semWake B key c r d p sems hr hd hsignal =>
      have hsem : t.Final (t.setSemaphores d.semaphores sems) := .of_eq h rfl rfl rfl rfl
      obtain ⟨sem, rest, hsem', hq, -⟩ := SemaphoreSet.signal_wakeUp hsignal
      exact hsem.trans (.wakeUp hsem.sound (hs r hr d hd sem hsem' p (by simp [hq])))
  | brk => exact .refl h
  | pageFault => exact .refl h

theorem Final.step {call : Call} (h : t.Sound) (hs : t.Spares call.1) (hu : t.Step call u c') :
    t.Final u := by
  cases hu with
  | giveUp hgive hp =>
      have hg := Final.giveUp h hs hgive
      exact hg.trans (.pick hg.sound hp)
  | stay hstay => exact .stay h hs hstay

/-- `switch_next` never restores a process whose memory was taken. -/
theorem Sound.not_vmTaken (h : t.Sound) : ¬ t.PickFails (.vmTaken .restore) := by
  rintro ⟨⟩
  rename_i hready hvm
  rw [(h.memory _).mp hvm] at hready
  cases hready

end Table

variable {α : Type}

theorem boot_keyed (b : BootInfo α) : (boot b).table.Keyed := by
  intro p r hp
  by_cases h1 : p = 1
  · subst h1
    cases hp
    exact ⟨le_rfl, rfl⟩
  · exact absurd (hp.symm.trans (Function.update_of_ne h1 _ _)) nofun

theorem boot_sound (b : BootInfo α) : (boot b).table.Sound := by
  have hproc : ∀ r, r ≠ 1 → (boot b).table.proc r = (default : Process).entry := by
    intro r hr
    simp [boot, Kernel.table, Kernel.modify, Kernel.newProcess, BootInfo.bare, hr]
  refine ⟨boot_keyed b, fun r => ?_, fun r hr => ?_⟩
  · by_cases h1 : r = 1
    · subst h1
      constructor <;> rintro ⟨⟩
    · rw [hproc r h1]
      exact iff_of_true rfl rfl
  · by_cases h1 : r = 1
    · subst h1
      cases hr
    · rw [hproc r h1]
      rfl

variable [FrameAllocator α] {B : Build}

/-- The condition of the runs in which death is final. -/
abbrev SparesDead (k : Kernel α) (call : Call) (_ : Kernel α) : Prop := k.table.Spares call.1

theorem run_sound {b : BootInfo α} {s : Kernel α} (h : Run (step B) SparesDead (boot b) s) :
    s.table.Sound :=
  h.invariant (P := fun k => k.table.Sound) (boot_sound b)
    fun _ _ _ _ hs hstep hC => (Table.Final.step hs hC (step_table hs.keyed hstep)).sound

/-- **Death is final.**  In every run of calls that neither wake nor suspend a dead process: a
process that is dead stays dead, no call makes it the current process, and no call restores a
process whose memory was taken. -/
theorem death_is_final {b : BootInfo α} {s : Kernel α} (h : Run (step B) SparesDead (boot b) s) :
    (∀ r ≤ s.created, (s.heap r).inner.status = .dead →
      (∀ t, Run (step B) SparesDead s t → (t.heap r).inner.status = .dead) ∧
      ∀ call t c', step B s call = .ok (t, c') → s.table.Spares call.1 →
        t.current = .ok r → s.current = .ok r) ∧
    ∀ call, s.table.Spares call.1 → step B s call ≠ .error (.vmTaken .restore) := by
  have hs := run_sound h
  refine ⟨fun r hr hdead => ⟨fun t ht => ?_, fun call t c' hstep hC hcur => ?_⟩, fun call hC he => ?_⟩
  · have hfinal : s.table.Final t.table := ht.relation (P := fun k => k.table.Sound)
      (R := fun k k' => k.table.Sound → k.table.Final k'.table) hs
      (fun _ _ _ _ hk hstep hC => (Table.Final.step hk hC (step_table hk.keyed hstep)).sound)
      (fun _ hk => .refl hk) (fun _ _ _ h₁ h₂ hk => (h₁ hk).trans (h₂ (h₁ hk).sound))
      (fun _ _ _ _ hk hstep hC _ => Table.Final.step hk hC (step_table hk.keyed hstep)) hs
    exact (hfinal.dead r ⟨hr, hdead⟩).2
  · have hfinal := Table.Final.step hs hC (step_table hs.keyed hstep)
    exact Kernel.current_of_table (hfinal.current r ⟨hr, hdead⟩ (Kernel.current_ok hcur))
  · rcases step_error hs.keyed he rfl with ⟨u, hu, hfails⟩ | ⟨he, -⟩
    · exact (Table.Final.giveUp hs hC hu).sound.not_vmTaken hfails
    · cases he

/-! ### A machine with one small program -/

/-- A machine with one app. -/
def smallMachine : BootInfo BootInfoFrameAllocator where
  table := fun _ => none
  cr3 := 100
  kernelPages := []
  loadApps := some [⟨"sh", Family.onePage⟩]
  alloc := ⟨40, 0, List.range' 1 40, []⟩
  phys := fun _ _ => 0
  userSelectors := ⟨0x1b, 0x23⟩

/-- The kernel of the small machine after calls with the context `c`, if all of them meet the
condition. -/
def execCalls (C : Kernel BootInfoFrameAllocator → Call → Kernel BootInfoFrameAllocator → Prop)
    [∀ s i t, Decidable (C s i t)] (c : ProcessContext) (ops : List Op) :
    Option (Kernel BootInfoFrameAllocator) :=
  exec (step Build.release) C (boot smallMachine) (ops.map (·, c))

/-- Process 2 kills process 3, and neither it nor the clock brings process 3 back. -/
theorem death_is_final_example : ∃ s t : Kernel BootInfoFrameAllocator,
    (s.heap 3).inner.status = .dead ∧ s.readyQueue = [3, 1] ∧
      t.processor = 1 ∧ t.readyQueue = [2] ∧ (t.heap 3).inner.status = .dead := by
  have hs : (execCalls SparesDead default [.spawn "sh", .spawn "sh", .switch, .kill 3]).map
      (fun s => ((s.heap 3).inner.status, s.readyQueue, s.created,
        (exec (step Build.release) SparesDead s [(.switch, default)]).map
          fun t => (t.processor, t.readyQueue))) =
      some (.dead, [3, 1], 3, some (1, [2])) := by
    decide +kernel
  obtain ⟨s, hs, hval⟩ := Option.map_eq_some_iff.mp hs
  simp only [Prod.mk.injEq] at hval
  obtain ⟨hdead, hready, hcreated, ht⟩ := hval
  obtain ⟨t, ht, hval⟩ := Option.map_eq_some_iff.mp ht
  obtain ⟨hproc, hqueue⟩ := Prod.mk.inj hval
  refine ⟨s, t, hdead, hready, hproc, hqueue, ?_⟩
  exact ((death_is_final (run_of_exec hs)).1 3 (by omega) hdead).1 t (run_of_exec ht)

/-- Process 2 waits for process 3, which kills it and then exits: process 2 is ready again. -/
theorem dead_process_wakes : ¬ ∀ (b : BootInfo BootInfoFrameAllocator)
    (s t : Kernel BootInfoFrameAllocator) (r : Ref), Run (step Build.release) Any (boot b) s →
      r ≤ s.created → (s.heap r).inner.status = .dead → Run (step Build.release) Any s t →
      (t.heap r).inner.status = .dead := by
  intro hall
  have hrun : (execCalls Any default
      [.spawn "sh", .spawn "sh", .switch, .waitPid 3, .kill 2]).map
      (fun s => ((s.heap 2).inner.status, s.created,
        (exec (step Build.release) Any s [(.processExit 7, default)]).map
          fun t => (t.heap 2).inner.status)) = some (.dead, 3, some .ready) := by
    decide +kernel
  obtain ⟨s, hs, hval⟩ := Option.map_eq_some_iff.mp hrun
  simp only [Prod.mk.injEq] at hval
  obtain ⟨hdead, hcreated, ht⟩ := hval
  obtain ⟨t, ht, hready⟩ := Option.map_eq_some_iff.mp ht
  have hle : 2 ≤ s.created := by omega
  have := hall smallMachine s t 2 (run_of_exec hs) hle hdead (run_of_exec ht)
  rw [hready] at this
  cases this

end Ysos
