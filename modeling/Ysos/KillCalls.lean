import Ysos.SemCalls

/-! # The `kill` system call (`interrupt/syscall/service.rs`)

`sys_kill` refuses the argument 1, and kills the process whose id is the argument as a `u16`.

* `run_onlyRuns`: a process of the table that is marked as running is the current one.
* `Table.kill_proc`, `Table.kill_nextReady`: what `kill` does to the other processes, and which of
  them `switch_next` picks afterwards.
* `kernel_spared_iff`: the calls of user processes that leave the kernel process as it is. -/

namespace Ysos

open Runs

namespace Table

variable {t u v : Table} {r q : Ref} {p w : ProcessId} {c c' : ProcessContext} {ret : Int64}
  {run run' : Option ProcessId}

/-! ### Running processes -/

/-- A process of the table that is marked as running is the process `run`. -/
def OnlyRuns (t : Table) (run : Option ProcessId) : Prop :=
  ∀ p r, t.processes p = some r → (t.proc r).status = .running → run = some p

theorem processor_wakeUp {ret : Option Int64} : (t.wakeUp ret p).processor = t.processor := by
  unfold wakeUp
  split
  · rfl
  · rfl

theorem processor_wakeAll : ∀ {ps : List ProcessId} {t : Table},
    (t.wakeAll ret ps).processor = t.processor
  | [], _ => rfl
  | p :: ps, t => by
      show ((t.wakeUp (some ret) p).wakeAll ret ps).processor = _
      rw [processor_wakeAll, processor_wakeUp]

theorem processor_kill : (t.kill ret p).processor = t.processor := by
  rcases hr : t.processes p with _ | r
  · rw [kill_none hr]
  · rw [kill_some hr, processor_wakeAll]
    rfl

theorem Stay.processor {call : Call} (hu : t.Stay call u c') : u.processor = t.processor := by
  cases hu with
  | kill => exact processor_kill
  | semWake => exact processor_wakeUp
  | _ => rfl

namespace OnlyRuns

theorem same (h : t.OnlyRuns run) (hproc : u.proc = t.proc)
    (hprocesses : u.processes = t.processes) : u.OnlyRuns run := by
  intro p r hp hrunning
  rw [hprocesses] at hp
  rw [hproc] at hrunning
  exact h p r hp hrunning

theorem modify {f : Entry → Entry} (h : t.OnlyRuns run) (hf : (f (t.proc r)).status ≠ .running)
    (hrun : ∀ p, t.processes p ≠ some r → run = some p → run' = some p) :
    (t.modify r f).OnlyRuns run' := by
  intro p q hp hrunning
  by_cases hq : q = r
  · subst hq
    exact absurd (by simpa [Table.modify] using hrunning) hf
  · have hne : t.processes p ≠ some r := fun he => hq (Option.some.inj (hp.symm.trans he))
    exact hrun p hne (h p q hp (by simpa [Table.modify, hq] using hrunning))

theorem pause {f : Entry → Entry} (h : t.OnlyRuns run) (hf : ∀ e, (f e).status ≠ .running) :
    (t.modify r f).OnlyRuns run := h.modify (hf _) fun _ _ => id

theorem leave {f : Entry → Entry} (h : t.OnlyRuns (some t.processor)) (hr : t.current = some r)
    (hf : ∀ e, (f e).status ≠ .running) : (t.modify r f).OnlyRuns none := by
  refine h.modify (hf _) fun p hp hcur => ?_
  obtain rfl := Option.some.inj hcur
  exact absurd (current_iff.mp hr).2 hp

theorem wakeUp {ret : Option Int64} (h : t.OnlyRuns run) : (t.wakeUp ret p).OnlyRuns run := by
  rcases hr : t.processes p with _ | r
  · rwa [wakeUp_none hr]
  · rw [wakeUp_some hr]
    have hmod : (t.modify r (Entry.wake ret)).OnlyRuns run := h.pause (by simp [Entry.wake])
    exact hmod.same rfl rfl

theorem wakeAll : ∀ {ps : List ProcessId} {t : Table}, t.OnlyRuns run →
    (t.wakeAll ret ps).OnlyRuns run
  | [], _, h => h
  | p :: ps, t, h => by
      show ((t.wakeUp (some ret) p).wakeAll ret ps).OnlyRuns run
      exact wakeAll h.wakeUp

theorem kill (h : t.OnlyRuns run) (hrun : ∀ w, w ≠ p → run = some w → run' = some w) :
    (t.kill ret p).OnlyRuns run' := by
  rcases hr : t.processes p with _ | r
  · rw [kill_none hr]
    intro w q hw hrunning
    refine hrun w ?_ (h w q hw hrunning)
    rintro rfl
    rw [hr] at hw
    cases hw
  · rw [kill_some hr]
    have hkill : (t.modify r (Entry.kill ret)).OnlyRuns run' := by
      refine h.modify (by simp [Entry.kill]) fun w hw => hrun w ?_
      rintro rfl
      exact hw hr
    have hrem : ((t.modify r (Entry.kill ret)).removeWaiters p).OnlyRuns run' := hkill.same rfl rfl
    exact hrem.wakeAll

theorem create {e : Entry} (h : t.OnlyRuns run) (hk : t.Keyed) (hready : e.status = .ready) :
    (t.create e).OnlyRuns run := by
  intro p q hp hrunning
  rw [create_processes] at hp
  by_cases hpn : p = t.nextPid
  · subst hpn
    rw [Function.update_self, Option.some.injEq] at hp
    subst hp
    simp [Table.create, Table.insert, hready] at hrunning
  · rw [Function.update_of_ne hpn] at hp
    rw [create_proc_old (hk p q hp).1] at hrunning
    exact h p q hp hrunning

theorem giveUp {call : Call} (h : t.OnlyRuns (some t.processor)) (hk : t.Keyed)
    (hu : t.GiveUp call u) : u.OnlyRuns none := by
  have hkill : ∀ {ret}, (t.kill ret t.processor).OnlyRuns none := fun {ret} => by
    refine h.kill fun w hw hcur => ?_
    exact absurd (Option.some.inj hcur).symm hw
  cases hu with
  | @switch c r hr =>
      have hsave : (t.modify r (Entry.save c)).OnlyRuns none := h.leave hr (by simp [Entry.save])
      exact hsave.same rfl rfl
  | exit => exact hkill
  | @wait pid c r hexit hr =>
      have hadd : (t.register pid).OnlyRuns (some t.processor) := h.same rfl rfl
      have hsave : ((t.register pid).modify r (Entry.save c)).OnlyRuns none :=
        hadd.leave hr (by simp [Entry.save])
      exact hsave.pause (by simp [Entry.block])
  | killSelf => exact hkill
  | @vfork c e r hr hvm hready hexit hdata hvm' =>
      have hsave : (t.modify r (Entry.save c)).OnlyRuns none := h.leave hr (by simp [Entry.save])
      have hfork :
          ((t.modify r (Entry.save c)).modify r (Entry.setForked t.nextPid)).OnlyRuns none :=
        hsave.pause (by simp [Entry.setForked])
      have hkeyed : ((t.modify r (Entry.save c)).modify r (Entry.setForked t.nextPid)).Keyed :=
        hk.of_names .setForked
      exact (hfork.create hkeyed hready).same rfl rfl
  | @semBlock key c r d p sems hr hd hwait =>
      have hsem : (t.setSemaphores d.semaphores sems).OnlyRuns (some t.processor) := h.same rfl rfl
      have hsave : ((t.setSemaphores d.semaphores sems).modify r (Entry.save c)).OnlyRuns none :=
        hsem.leave hr (by simp [Entry.save])
      unfold Table.block
      split
      · exact hsave.pause (by simp [Entry.block])
      · exact hsave

theorem pick (h : t.OnlyRuns none) (hk : t.Keyed) (hp : t.Pick c u c') :
    u.OnlyRuns (some u.processor) := by
  cases hp with
  | none => exact fun p r hp hrunning => nomatch h p r hp hrunning
  | same => exact fun p r hp hrunning => nomatch h p r hp hrunning
  | @switch pre rest p r hq hpre hr hready hvm hne =>
      intro w q hw hrunning
      by_cases hqr : q = r
      · subst hqr
        rw [hk.key_unique hr hw]
      · have hold : (t.proc q).status = .running := by simpa [Table.modify, hqr] using hrunning
        exact nomatch h w q hw hold

theorem stay {call : Call} (h : t.OnlyRuns run) (hk : t.Keyed) (hu : t.Stay call u c') :
    u.OnlyRuns run := by
  cases hu with
  | @spawn name c e hr hready hexit hvm hdata =>
      have hsem : (t.setSemaphores (t.created + 1) SemaphoreSet.empty).OnlyRuns run :=
        h.same rfl rfl
      exact hsem.create hk hready
  | kill => exact h.kill fun _ _ => id
  | @semWake B key c r d p sems =>
      have hsem : (t.setSemaphores d.semaphores sems).OnlyRuns run := h.same rfl rfl
      exact hsem.wakeUp
  | _ => exact h.same rfl rfl

theorem step {call : Call} (h : t.OnlyRuns (some t.processor)) (hn : t.Numbered)
    (hu : t.Step call u c') : u.OnlyRuns (some u.processor) := by
  cases hu with
  | giveUp hg hp => exact (h.giveUp hn.keyed hg).pick (hn.names1 hg.names).keyed hp
  | stay hs =>
      rw [hs.processor]
      exact h.stay hn.keyed hs

end OnlyRuns

/-! ### What `kill` does to the others -/

/-- The processes that a `kill` of `p` wakes. -/
def woken (t : Table) (p : ProcessId) : List ProcessId :=
  match t.processes p with
  | some _ => t.waiters p
  | none => []

/-- The process that `switch_next` picks. -/
def nextReady (t : Table) : Option ProcessId :=
  t.readyQueue.find? fun q => t.status q = some .ready

/-- The first process of the ready queue that is ready when `p` is dead and those who wait for it
have joined the queue. -/
def nextAfter (t : Table) (p : ProcessId) : Option ProcessId :=
  (t.readyQueue ++ t.woken p).find? fun q => q ∈ t.woken p ∨ q ≠ p ∧ t.status q = some .ready

theorem woken_some (hr : t.processes p = some r) : t.woken p = t.waiters p := by
  rw [woken, hr]

theorem woken_none (hr : t.processes p = none) : t.woken p = [] := by
  rw [woken, hr]

/-- Another process is as before, but for the wake-up. -/
theorem kill_proc (ret : Int64) (h : t.Keyed) (hw : t.Registered) (hr : t.processes w = some r)
    (hne : w ≠ p) : (t.kill ret p).proc r =
      if w ∈ t.woken p then (t.proc r).wake (some ret) else t.proc r := by
  rcases hq : t.processes p with _ | q
  · rw [kill_none hq, woken_none hq, if_neg List.not_mem_nil]
  · have hqr : r ≠ q := by
      rintro rfl
      exact hne (h.key_unique hq hr)
    rw [woken_some hq, kill_proc_eq ret h hw hq hr,
      show (t.modify q (Entry.kill ret)).proc r = t.proc r from Function.update_of_ne hqr _ _]

/-- The killed process itself is dead, or it was registered under its own id and is ready. -/
theorem kill_proc_self (ret : Int64) (h : t.Keyed) (hw : t.Registered)
    (hr : t.processes p = some r) : (t.kill ret p).proc r =
      if p ∈ t.woken p then ((t.proc r).kill ret).wake (some ret) else (t.proc r).kill ret := by
  rw [woken_some hr, kill_proc_eq ret h hw hr hr,
    show (t.modify r (Entry.kill ret)).proc r = (t.proc r).kill ret from
      Function.update_self _ _ _]

theorem kill_readyQueue (ret : Int64) (h : t.Keyed) (hw : t.Registered) :
    (t.kill ret p).readyQueue = t.readyQueue ++ t.woken p := by
  rcases hr : t.processes p with _ | r
  · rw [kill_none hr, woken_none hr, List.append_nil]
  · rw [woken_some hr, (kill_spec ret h hw hr).1]

theorem mem_woken (hw : t.Registered) (hmem : w ∈ t.woken p) : t.processes w ≠ none := by
  rcases hr : t.processes p with _ | r
  · rw [woken_none hr] at hmem
    cases hmem
  · rw [woken_some hr] at hmem
    exact (hw p w hmem).2

theorem kill_status_iff (ret : Int64) (h : t.Keyed) (hw : t.Registered) :
    (t.kill ret p).status w = some .ready ↔
      w ∈ t.woken p ∨ w ≠ p ∧ t.status w = some .ready := by
  rcases hr : t.processes w with _ | r
  · have hnone : (t.kill ret p).status w = none :=
      status_eq_none.mpr (by rw [processes_kill, hr])
    rw [hnone, status_eq_none.mpr hr]
    exact iff_of_false nofun (by
      rintro (hmem | ⟨-, hs⟩)
      · exact mem_woken hw hmem hr
      · cases hs)
  · have hkill : (t.kill ret p).processes w = some r := by rw [processes_kill, hr]
    rw [status, status, read_eq hkill, read_eq hr]
    by_cases hne : w = p
    · subst hne
      rw [kill_proc_self ret h hw hr]
      by_cases hmem : w ∈ t.woken w
      · simp [hmem, Entry.wake]
      · simp [hmem, Entry.kill]
    · rw [kill_proc ret h hw hr hne]
      by_cases hmem : w ∈ t.woken p
      · simp [hmem, Entry.wake]
      · simp [hmem, hne]

theorem kill_nextReady (ret : Int64) (h : t.Keyed) (hw : t.Registered) :
    (t.kill ret p).nextReady = t.nextAfter p := by
  rw [nextReady, nextAfter, kill_readyQueue ret h hw]
  congr 1
  funext w
  exact decide_eq_decide.mpr (kill_status_iff ret h hw)

theorem nextReady_eq {pre rest : List ProcessId} (hq : t.readyQueue = pre ++ p :: rest)
    (hpre : ∀ q ∈ pre, ¬ t.IsReady q) (hready : t.IsReady p) : t.nextReady = some p := by
  rw [nextReady, hq, List.find?_append, List.find?_eq_none.mpr]
  · simp [isReady_iff.mp hready]
  · intro q hq
    simpa using fun hs => hpre q hq (isReady_iff.mpr hs)

/-- `switch_next` marks the process that it picks as running, and no other one changes. -/
theorem Pick.proc (hp : t.Pick c u c') (h : t.Keyed) (hr : t.processes w = some r)
    (hne : w ≠ t.processor) :
    u.proc r = if t.nextReady = some w then (t.proc r).resume else t.proc r := by
  cases hp with
  | none hnone =>
      have hnext : t.nextReady = Option.none := by
        refine List.find?_eq_none.mpr fun q hq => ?_
        simpa using fun hs => hnone q hq (isReady_iff.mpr hs)
      rw [hnext]
      rfl
  | same hq hpre hready =>
      rw [nextReady_eq hq hpre hready, if_neg fun he => hne (Option.some.inj he).symm]
  | @switch pre rest p q hq hpre hq' hready hvm hcur =>
      rw [nextReady_eq hq hpre ⟨q, hq', hready⟩]
      by_cases hwp : p = w
      · subst hwp
        obtain rfl := Option.some.inj (hr.symm.trans hq')
        rw [if_pos rfl]
        exact Function.update_self _ _ _
      · have hqr : r ≠ q := by
          rintro rfl
          exact hwp (h.key_unique hr hq')
        rw [if_neg fun he => hwp (Option.some.inj he)]
        exact Function.update_of_ne hqr _ _

/-- A `kill` of `p` neither wakes the process `w` nor lets it run next. -/
structure Leaves (t : Table) (p w : ProcessId) : Prop where
  awake : w ∈ t.woken p → t.status w = some .ready
  notNext : p = t.processor → t.nextAfter p ≠ some w

theorem Step.kill_cases (hu : t.Step (.kill p, c) u c') :
    (p = t.processor ∧ (t.kill 0xdead p).Pick c u c') ∨
      (p ≠ t.processor ∧ u = t.kill 0xdead p) := by
  cases hu with
  | giveUp hg hp =>
      cases hg
      exact Or.inl ⟨rfl, hp⟩
  | stay hs =>
      cases hs with
      | kill hne => exact Or.inr ⟨hne, rfl⟩

theorem Step.kill_processes (hu : t.Step (.kill p, c) u c') : u.processes = t.processes := by
  rcases hu.kill_cases with ⟨-, hp⟩ | ⟨-, rfl⟩
  · rw [(SameWaits.pick hp).processes, processes_kill]
  · rw [processes_kill]

/-- What a `kill` does to a process that is neither killed nor current. -/
theorem Step.kill_proc (hu : t.Step (.kill p, c) u c') (h : t.Keyed) (hw : t.Registered)
    (hr : t.processes w = some r) (hcur : w ≠ t.processor) (hne : w ≠ p) :
    (u.proc r).exitCode = (t.proc r).exitCode ∧ (u.proc r).procData = (t.proc r).procData ∧
      (u.proc r).status = if p = t.processor ∧ t.nextAfter p = some w then .running
        else if w ∈ t.woken p then .ready else (t.proc r).status := by
  have hkill : ((t.kill 0xdead p).proc r).exitCode = (t.proc r).exitCode ∧
      ((t.kill 0xdead p).proc r).procData = (t.proc r).procData ∧
      ((t.kill 0xdead p).proc r).status =
        if w ∈ t.woken p then .ready else (t.proc r).status := by
    rw [Table.kill_proc 0xdead h hw hr hne]
    split_ifs
    · exact ⟨rfl, rfl, rfl⟩
    · exact ⟨rfl, rfl, rfl⟩
  obtain ⟨hexit, hdata, hst⟩ := hkill
  rw [← hst, ← hexit, ← hdata]
  rcases hu.kill_cases with ⟨hself, hp⟩ | ⟨hother, rfl⟩
  · have hkeyed : (t.kill 0xdead p).Keyed := h.of_names .kill
    rw [hp.proc hkeyed (processes_kill ▸ hr) (by rwa [processor_kill]), kill_nextReady _ h hw]
    by_cases hnext : t.nextAfter p = some w
    · rw [if_pos hnext, if_pos ⟨hself, hnext⟩]
      exact ⟨rfl, rfl, rfl⟩
    · rw [if_neg hnext, if_neg fun hand => hnext hand.2]
      exact ⟨rfl, rfl, rfl⟩
  · rw [if_neg fun hand => hother hand.1]
    exact ⟨rfl, rfl, rfl⟩

theorem Step.kill_status_iff (hu : t.Step (.kill p, c) u c') (h : t.Keyed) (hw : t.Registered)
    (hruns : t.OnlyRuns (some t.processor)) (hr : t.processes w = some r)
    (hcur : w ≠ t.processor) (hne : w ≠ p) :
    (u.proc r).status = (t.proc r).status ↔ t.Leaves p w := by
  have hst : t.status w = some (t.proc r).status := read_eq hr
  rw [(hu.kill_proc h hw hr hcur hne).2.2]
  constructor
  · intro hsame
    have hnext : ¬ (p = t.processor ∧ t.nextAfter p = some w) := fun hand => by
      rw [if_pos hand] at hsame
      exact hcur (Option.some.inj (hruns w r hr hsame.symm)).symm
    rw [if_neg hnext] at hsame
    refine ⟨fun hmem => ?_, fun hself he => hnext ⟨hself, he⟩⟩
    rw [if_pos hmem] at hsame
    rw [hst, hsame]
  · rintro ⟨hawake, hnext⟩
    rw [if_neg fun hand => hnext hand.1 hand.2]
    split_ifs with hmem
    · exact (Option.some.inj (hst.symm.trans (hawake hmem))).symm
    · rfl

end Table

/-! ### The system call -/

variable {α : Type} [FrameAllocator α] (B : Build)

/-- `args.arg0 as u16` -/
def SyscallArgs.pid (args : SyscallArgs) : ProcessId := args.arg0.toNat % 2 ^ 16

def sysKill (args : SyscallArgs) (context : ProcessContext) (k : Kernel α) :
    Except Panic (Kernel α × ProcessContext) :=
  if args.arg0 = 1 then .ok (k, context) else Proc.kill B args.pid context k

/-- The status, the exit code and what `kill` drops: the data with the resources, and the memory. -/
structure Life where
  status : ProgramStatus
  exitCode : Option Int64
  procData : Option ProcessData
  procVm : Option ProcessVm
deriving DecidableEq, Repr

/-- A process that `sys_kill` killed. -/
def Life.killed : Life := ⟨.dead, some 0xdead, none, none⟩

def ProcessInner.life (p : ProcessInner) : Life := ⟨p.status, p.exitCode, p.procData, p.procVm⟩

def Kernel.life (k : Kernel α) (pid : ProcessId) : Option Life :=
  (k.getProc pid).map fun r => (k.heap r).inner.life

/-- The argument is 1, or its low 16 bits are the id of another process and the kernel process
neither waits for it nor runs next, or the kernel process was killed before. -/
def KernelSpared (k : Kernel α) (args : SyscallArgs) : Prop :=
  args.arg0 = 1 ∨
    if args.pid = KERNEL_PID then k.life KERNEL_PID = some .killed
    else k.table.Leaves args.pid KERNEL_PID

variable {B} {b : BootInfo α} {k k' : Kernel α} {args : SyscallArgs} {c c' : ProcessContext}
  {p w : ProcessId} {r : Ref}

theorem run_onlyRuns (h : Run (step B) Any (boot b) k) :
    k.table.OnlyRuns (some k.processor) := by
  refine (h.invariant (P := fun k => k.table.Numbered ∧ k.table.OnlyRuns (some k.processor))
    ⟨boot_numbered b, fun p r hp _ => ?_⟩ fun s call t c' hs hstep _ => ?_).2
  · obtain ⟨h1, hle, rfl⟩ := (boot_numbered b).entries p r hp
    obtain rfl : r = 1 := Nat.le_antisymm hle h1
    rfl
  · have hstep := step_table hs.1.keyed hstep
    exact ⟨hs.1.names1 hstep.names, hs.2.step hs.1 hstep⟩

/-! ### The memory -/

namespace Kernel

omit [FrameAllocator α] in
theorem modify_procVm {f : ProcessInner → ProcessInner} {q : Ref}
    (hf : (f (k.heap r).inner).procVm = (k.heap r).inner.procVm) :
    ((k.modify r f).heap q).inner.procVm = (k.heap q).inner.procVm := by
  by_cases hq : q = r
  · subst hq
    simpa [modify] using hf
  · simp [modify, hq]

omit [FrameAllocator α] in
theorem wakeUp_procVm {ret : Option Int64} {q : Ref} :
    ((k.wakeUp p ret).heap q).inner.procVm = (k.heap q).inner.procVm := by
  unfold wakeUp
  split
  · cases ret with
    | none => exact modify_procVm (f := fun p => p.pause) rfl
    | some ret => exact modify_procVm (f := fun p => (p.setReturn ret.toUInt64).pause) rfl
  · rfl

omit [FrameAllocator α] in
theorem wakeAll_procVm {ret : Option Int64} {q : Ref} : ∀ {ps : List ProcessId} {k : Kernel α},
    ((ps.foldl (fun k p => k.wakeUp p ret) k).heap q).inner.procVm = (k.heap q).inner.procVm
  | [], _ => rfl
  | _ :: _, _ => by rw [List.foldl_cons, wakeAll_procVm, wakeUp_procVm]

omit [FrameAllocator α] in
theorem setParents_procVm {w : Weak} {q : Ref} {cs : List Ref} :
    ((k.setParents cs w).heap q).inner.procVm = (k.heap q).inner.procVm := by
  unfold setParents
  induction cs generalizing k with
  | nil => rfl
  | cons c cs ih =>
      rw [List.foldl_cons, ih]
      exact modify_procVm rfl

theorem removeChild_procVm {q : Ref} (h : k.removeChild B r p = .ok k') :
    (k'.heap q).inner.procVm = (k.heap q).inner.procVm := by
  rw [(releaseAll_same h).1]
  exact modify_procVm rfl

theorem leaveParent_procVm {q : Ref} (h : k.leaveParent B r = .ok k') :
    (k'.heap q).inner.procVm = (k.heap q).inner.procVm := by
  simp only [leaveParent] at h
  split at h
  · split_ifs at h
    · simp only [bind_eq_ok, pure_eq_ok] at h
      obtain ⟨k₁, h₁, rfl⟩ := h
      rw [setParents_procVm, removeChild_procVm h₁]
    · cases h
      exact setParents_procVm
  · cases h
    rfl

theorem killProcess_procVm {ret : Int64} {q : Ref} (h : k.killProcess B r ret = .ok k') :
    (k'.heap q).inner.procVm = if r = q then none else (k.heap q).inner.procVm := by
  simp only [killProcess, bind_eq_ok, pure_eq_ok] at h
  obtain ⟨k₁, h₁, k₂, h₂, rfl⟩ := h
  by_cases hq : r = q
  · subst hq
    simp [modify]
  · rw [if_neg hq, ← leaveParent_procVm h₁, ← (dropVm_same h₂).1]
    simp [modify, Ne.symm hq]

/-- `kill` drops the memory of the process with the id, and of no other one. -/
theorem kill_procVm {ret : Int64} {q : Ref} (h : k.kill B p ret = .ok k') :
    (k'.heap q).inner.procVm =
      if k.getProc p = some q then none else (k.heap q).inner.procVm := by
  simp only [kill] at h
  split at h
  · rename_i r hr
    simp only [hr, Option.some.injEq]
    obtain ⟨k₁, h₁, h⟩ := bind_eq_ok.mp h
    have hkilled := killProcess_procVm (q := q) h₁
    split at h
    · cases h
      rw [wakeAll_procVm]
      exact hkilled
    · cases h
      exact hkilled
  · rename_i hr
    cases h
    rw [hr, if_neg (Option.some_ne_none _).symm]

omit [FrameAllocator α] in
theorem life_eq (hr : k.getProc p = some r) :
    k.life p = some ⟨(k.table.proc r).status, (k.table.proc r).exitCode,
      (k.table.proc r).procData, (k.heap r).inner.procVm⟩ := by
  rw [life, hr]
  rfl

end Kernel

theorem Proc.kill_procVm {q : Ref} (h : Proc.kill B p c k = .ok (k', c')) :
    (k'.heap q).inner.procVm =
      if k.getProc p = some q then none else (k.heap q).inner.procVm := by
  simp only [Proc.kill] at h
  obtain ⟨cur, hcur, h⟩ := bind_eq_ok.mp h
  split_ifs at h with hp
  · simp only [bind_eq_ok, pure_eq_ok, Kernel.killSelf] at h
    obtain ⟨k₁, ⟨pid, hpid, hkill⟩, ⟨p', c₁, k₂⟩, hnext, h⟩ := h
    cases h
    obtain rfl := Except.ok.inj (hcur.symm.trans hpid)
    subst hp
    rw [Kernel.switchNext_procVm q hnext, Kernel.kill_procVm hkill]
  · simp only [bind_eq_ok, pure_eq_ok] at h
    obtain ⟨k₁, hkill, h⟩ := h
    cases h
    exact Kernel.kill_procVm hkill

/-! ### The kernel process -/

/-- A `kill` of another process leaves `w` as it is exactly when it leaves it alone. -/
theorem Proc.kill_life_iff (hrun : Run (step B) Any (boot b) k) (hr : k.getProc w = some r)
    (hcur : w ≠ k.processor) (hne : w ≠ p) (h : Proc.kill B p c k = .ok (k', c')) :
    k'.life w = k.life w ↔ k.table.Leaves p w := by
  have hkeyed := (run_numbered hrun).keyed
  have hreg := run_registered hrun
  have hstep := kill_step h
  have hr' : k'.getProc w = some r := (congrFun hstep.kill_processes w).trans hr
  have hvm : (k'.heap r).inner.procVm = (k.heap r).inner.procVm := by
    have hother : k.getProc p ≠ some r := fun hp => hne (hkeyed.key_unique hp hr)
    rw [Proc.kill_procVm h, if_neg hother]
  obtain ⟨hexit, hdata, -⟩ := hstep.kill_proc hkeyed hreg hr hcur hne
  rw [Kernel.life_eq hr, Kernel.life_eq hr', hexit, hdata, hvm,
    ← hstep.kill_status_iff hkeyed hreg (run_onlyRuns hrun) hr hcur hne]
  simp

/-- A `kill` changes nothing of the process itself exactly when it was killed before. -/
theorem Proc.kill_self_iff (hrun : Run (step B) Any (boot b) k) (hr : k.getProc p = some r)
    (hcur : p ≠ k.processor) (h : Proc.kill B p c k = .ok (k', c')) :
    k'.life p = k.life p ↔ k.life p = some .killed := by
  have hkeyed := (run_numbered hrun).keyed
  have hreg := run_registered hrun
  have hstep := kill_step h
  have hr' : k'.getProc p = some r := (congrFun hstep.kill_processes p).trans hr
  have hvm : (k'.heap r).inner.procVm = none := by rw [Proc.kill_procVm h, if_pos hr]
  rcases hstep.kill_cases with ⟨hself, -⟩ | ⟨-, ht⟩
  · exact absurd hself hcur
  have hproc := Table.kill_proc_self 0xdead hkeyed hreg hr
  rw [← ht] at hproc
  -- nobody is registered under a process with an exit code
  have hcode : p ∈ k.table.woken p → (k.table.proc r).exitCode = none := fun hmem => by
    rw [Table.woken_some hr] at hmem
    have hnone := (hreg p p hmem).1
    rwa [Table.exitCode, show k.table.processes p = some r from hr] at hnone
  have hkilled : p ∉ k.table.woken p → k'.life p = some .killed := fun hmem => by
    rw [Kernel.life_eq hr', hvm, hproc, if_neg hmem]
    rfl
  constructor
  · intro hsame
    rw [← hsame]
    refine hkilled fun hmem => ?_
    rw [Kernel.life_eq hr', hproc, if_pos hmem, Kernel.life_eq hr, Option.some.injEq,
      Life.mk.injEq] at hsame
    cases hsame.2.1.trans (hcode hmem)
  · intro hlife
    rw [hlife]
    refine hkilled fun hmem => ?_
    rw [Kernel.life_eq hr, Option.some.injEq, Life.killed, Life.mk.injEq] at hlife
    cases hlife.2.1.symm.trans (hcode hmem)

/-- **`sys_kill` and the kernel process.**  In every reachable state a `kill` call of a user process
leaves the kernel process as it is exactly when the argument is 1, or its low 16 bits name another
process and the kernel process neither waits for it nor runs next, or the kernel process was killed
before. -/
theorem kernel_spared_iff (hrun : Run (step B) Any (boot b) k) (huser : k.processor ≠ KERNEL_PID)
    (hcall : sysKill B args c k = .ok (k', c')) :
    k'.life KERNEL_PID = k.life KERNEL_PID ↔ KernelSpared k args := by
  have hnum := run_numbered hrun
  obtain ⟨r, hr⟩ := Option.ne_none_iff_exists'.mp (hnum.keys 1 le_rfl hnum.pos)
  have hr : k.getProc KERNEL_PID = some r := hr
  unfold sysKill at hcall
  split_ifs at hcall with hone
  · cases hcall
    exact iff_of_true rfl (Or.inl hone)
  · rw [KernelSpared, or_iff_right hone]
    split_ifs with hkernel
    · rw [hkernel] at hcall
      exact Proc.kill_self_iff hrun hr huser.symm hcall
    · exact Proc.kill_life_iff hrun hr huser.symm (Ne.symm hkernel) hcall

/-- Process 2 kills process 3. -/
theorem kernel_spared_example : ∃ (k k' : Kernel BootInfoFrameAllocator) (c' : ProcessContext),
    sysKill Build.release ⟨62, 0x20003, 0, 0⟩ default k = .ok (k', c') ∧
      k'.life 3 = some .killed ∧ k'.life KERNEL_PID = k.life KERNEL_PID := by
  have hs : (execCalls Any default [.spawn "sh", .spawn "sh", .switch]).bind (fun k =>
      (sysKill Build.release ⟨62, 0x20003, 0, 0⟩ default k).toOption.map fun x =>
        (k.processor, k.table.woken 3, x.1.life 3)) = some (2, [], some .killed) := by
    decide +kernel
  obtain ⟨k, hk, hval⟩ := Option.bind_eq_some_iff.mp hs
  obtain ⟨⟨k', c'⟩, hcall, hval⟩ := Option.map_eq_some_iff.mp hval
  simp only [Prod.mk.injEq] at hval
  obtain ⟨htwo, hwoken, hlife⟩ := hval
  have huser : k.processor ≠ KERNEL_PID := by
    rw [htwo]
    decide
  have hspared : KernelSpared k ⟨62, 0x20003, 0, 0⟩ := by
    refine Or.inr ⟨fun hmem => ?_, fun hself => ?_⟩
    · rw [show SyscallArgs.pid ⟨62, 0x20003, 0, 0⟩ = 3 from rfl, hwoken] at hmem
      cases hmem
    · exact absurd (hself.trans htwo) (by decide)
  have hcall := ok_of_toOption hcall
  exact ⟨k, k', c', hcall, hlife, (kernel_spared_iff (run_of_exec hk) huser hcall).mpr hspared⟩

/-- The low 16 bits of the argument are 1. -/
theorem kernel_killed : ¬ ∀ (b : BootInfo BootInfoFrameAllocator)
    (k k' : Kernel BootInfoFrameAllocator) (args : SyscallArgs) (c c' : ProcessContext),
    Run (step Build.release) Any (boot b) k → k.processor ≠ KERNEL_PID →
      sysKill Build.release args c k = .ok (k', c') → k'.life KERNEL_PID = k.life KERNEL_PID := by
  intro hall
  have hs : (execCalls Any default [.spawn "sh", .switch]).bind (fun k =>
      (sysKill Build.release ⟨62, 0x10001, 0, 0⟩ default k).toOption.map fun x =>
        (k.processor, (k.life KERNEL_PID).map Life.status, x.1.life KERNEL_PID)) =
      some (2, some .ready, some .killed) := by
    decide +kernel
  obtain ⟨k, hk, hval⟩ := Option.bind_eq_some_iff.mp hs
  obtain ⟨⟨k', c'⟩, hcall, hval⟩ := Option.map_eq_some_iff.mp hval
  simp only [Prod.mk.injEq] at hval
  obtain ⟨htwo, hready, hkilled⟩ := hval
  have huser : k.processor ≠ KERNEL_PID := by
    rw [htwo]
    decide
  have hsame := hall smallMachine k k' _ default c' (run_of_exec hk) huser (ok_of_toOption hcall)
  rw [← hsame, hkilled] at hready
  cases hready

end Ysos
