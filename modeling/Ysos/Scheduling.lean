import Ysos.SemQueues

/-! # The scheduler of the kernel

`Table.view` reads the table as a state of the scheduler in `Sched`: the processes wait at the
exits of others and at semaphores.  While fewer than `2 ^ 16` processes have been created, and the
kernel process is not killed and makes no call that blocks, a call is one of its operations.

* `Table.Suspends`: what a call that gives up the processor does up to `switch_next`;
  `Table.Step.sched` says what a call does.
* `scheduler_sound`: in every such run the queues and the statuses agree, and `switch_next` finds
  every process it looks for. -/

namespace Ysos

open Runs

/-- Where a process waits: for the exit of a process, or at a semaphore of a set. -/
inductive Place where
  | exit (pid : ProcessId)
  | sem (i : Ref) (key : SemaphoreId)
deriving DecidableEq, Repr

namespace Table

/-! ### The table as a scheduler -/

/-- A field of the process with the id `p`. -/
def read {β : Type} (t : Table) (g : Entry → β) (p : ProcessId) : Option β :=
  (t.processes p).map fun r => g (t.proc r)

def status (t : Table) : ProcessId → Option ProgramStatus := t.read Entry.status

def saved (t : Table) (p : ProcessId) : ProcessContext := (t.read Entry.context p).getD default

def waitingAt (t : Table) : Place → Multiset ProcessId
  | .exit pid => t.waiters pid
  | .sem i key => t.semQueue i key

def view (t : Table) : Sched.State ProcessId ProcessContext Place where
  status := t.status
  saved := t.saved
  ready := t.readyQueue
  waiting := t.waitingAt
  cur := t.processor

variable {t u v : Table} {r i : Ref} {p w : ProcessId} {c c' : ProcessContext} {ret : Int64}
  {key : SemaphoreId} {sems : SemaphoreSet} {e : Entry}

theorem read_eq {β : Type} {g : Entry → β} (hr : t.processes p = some r) :
    t.read g p = some (g (t.proc r)) := by
  rw [read, hr, Option.map_some]

theorem read_eq_none {β : Type} {g : Entry → β} (hr : t.processes p = none) : t.read g p = none := by
  rw [read, hr, Option.map_none]

theorem saved_eq (hr : t.processes p = some r) : t.saved p = (t.proc r).context := by
  rw [saved, read_eq hr, Option.getD_some]

theorem status_eq_none : t.status p = none ↔ t.processes p = none := Option.map_eq_none_iff

theorem isReady_iff : t.IsReady p ↔ t.status p = some .ready := by
  unfold IsReady status read
  rw [Option.map_eq_some_iff]

theorem Keyed.key_unique (h : t.Keyed) (hr : t.processes p = some r) (hw : t.processes w = some r) :
    w = p := (h w r hw).2.symm.trans (h p r hr).2

theorem read_modify {β : Type} {g : Entry → β} {f : Entry → Entry} (h : t.Keyed)
    (hr : t.processes p = some r) :
    (t.modify r f).read g = Function.update (t.read g) p (some (g (f (t.proc r)))) := by
  funext w
  by_cases hw : w = p
  · subst hw
    rw [Function.update_self, read_eq (t := t.modify r f) hr]
    simp [Table.modify]
  · rw [Function.update_of_ne hw]
    rcases hq : t.processes w with _ | q
    · rw [read_eq_none hq, read_eq_none (t := t.modify r f) hq]
    · have hne : q ≠ r := fun he => hw (h.key_unique hr (he ▸ hq))
      rw [read_eq hq, read_eq (t := t.modify r f) hq]
      simp [Table.modify, hne]

theorem read_create {β : Type} {g : Entry → β} (h : t.Keyed) :
    (t.create e).read g =
      Function.update (t.read g) t.nextPid (some (g { e with pid := t.nextPid })) := by
  funext w
  by_cases hw : w = t.nextPid
  · have hproc : (t.create e).proc (t.created + 1) = { e with pid := t.nextPid } := by
      simp [Table.create, Table.insert]
    have hnew : (t.create e).processes t.nextPid = some (t.created + 1) :=
      Function.update_self _ _ _
    rw [hw, Function.update_self, read_eq hnew, hproc]
  · have hkey : (t.create e).processes w = t.processes w := Function.update_of_ne hw _ _
    rw [Function.update_of_ne hw]
    rcases hq : t.processes w with _ | q
    · rw [read_eq_none hq, read_eq_none (hkey.trans hq)]
    · rw [read_eq hq, read_eq (hkey.trans hq), create_proc_old (h w q hq).1]

theorem getD_update {β : Type} {f : ProcessId → Option β} {x d : β} :
    (fun w => (Function.update f p (some x) w).getD d) =
      Function.update (fun w => (f w).getD d) p x := by
  funext w
  by_cases hw : w = p
  · subst hw
    simp
  · simp [hw]

theorem saved_modify {f : Entry → Entry} (h : t.Keyed) (hr : t.processes p = some r) :
    (t.modify r f).saved = Function.update t.saved p (f (t.proc r)).context := by
  show (fun w => ((t.modify r f).read Entry.context w).getD default) = _
  rw [read_modify h hr]
  exact getD_update

theorem saved_create (h : t.Keyed) :
    (t.create e).saved = Function.update t.saved t.nextPid e.context := by
  show (fun w => ((t.create e).read Entry.context w).getD default) = _
  rw [read_create h]
  exact getD_update

theorem view_modify {f : Entry → Entry} (h : t.Keyed) (hr : t.processes p = some r) :
    (t.modify r f).view = { t.view with
      status := Function.update t.status p (some (f (t.proc r)).status)
      saved := Function.update t.saved p (f (t.proc r)).context } :=
  Sched.State.ext (read_modify h hr) (saved_modify h hr) rfl rfl rfl

theorem view_enqueue (h : t.Keyed) (hr : t.processes p = some r) :
    ((t.modify r (Entry.save c)).pushReady p).view = t.view.enqueue p c :=
  Sched.State.ext (read_modify h hr) (saved_modify h hr) rfl rfl rfl

theorem view_create (h : t.Keyed) (hready : e.status = .ready) :
    (t.create e).view = t.view.enqueue t.nextPid e.context := by
  have hst : (t.create e).status = Function.update t.status t.nextPid (some .ready) := by
    rw [← hready]
    exact read_create h
  exact Sched.State.ext hst (saved_create h) rfl rfl rfl

theorem Pick.view (h : t.Keyed) (hp : t.Pick c u c') : Sched.Pick c t.view u.view c' := by
  have hpre : ∀ {pre : List ProcessId}, (∀ p ∈ pre, ¬ t.IsReady p) →
      ∀ p ∈ pre, t.view.status p ≠ some .ready := fun hpre p hp hs => hpre p hp (isReady_iff.mpr hs)
  cases hp with
  | none hnone => exact .none (hpre hnone)
  | same hq hnot hready => exact .same hq (hpre hnot) (isReady_iff.mp hready)
  | @switch pre rest p r hq hnot hr hready hvm hne =>
      have hpick := Sched.Pick.switch (c := c) (s := t.view) hq (hpre hnot)
        (isReady_iff.mp ⟨r, hr, hready⟩) hne.symm
      have hview : { t.modify r Entry.resume with readyQueue := rest, processor := p }.view =
          { t.view with
            status := Function.update t.view.status p (some .running)
            ready := rest
            cur := p } := by
        refine Sched.State.ext (read_modify h hr) ?_ rfl rfl rfl
        refine (saved_modify h hr).trans (Function.update_eq_self_iff.mpr ?_)
        exact (saved_eq hr).symm
      rw [hview]
      rwa [show t.view.saved p = (t.proc r).context from saved_eq hr] at hpick

/-! ### Killing and waking -/

/-- The kernel process, which never waits and is never killed. -/
abbrev Others (run : Option ProcessId) (W : Place → (ProcessContext → ProcessContext) → Prop) :=
  Sched.Others (γ := ProcessContext) KERNEL_PID run W fun a => ∃ i key, a = Place.sem i key

/-- The scheduler's state with other processes at the place `a`. -/
def waitAt (s : Sched.State ProcessId ProcessContext Place) (a : Place) (ps : Multiset ProcessId) :
    Sched.State ProcessId ProcessContext Place :=
  { s with waiting := Function.update s.waiting a ps }

theorem wakeUp_view (ret : Option Int64) (a : Place) (ps : Multiset ProcessId) (h : t.Keyed)
    (hr : t.processes p = some r) :
    waitAt (t.wakeUp ret p).view a (ps.erase p) =
      (waitAt t.view a ps).wake a p (Entry.wakeContext ret) := by
  rw [wakeUp_some hr]
  refine Sched.State.ext (read_modify h hr) ?_ rfl ?_ rfl
  · show (t.modify r (Entry.wake ret)).saved =
      Function.update t.saved p (Entry.wakeContext ret (t.saved p))
    rw [saved_modify h hr, saved_eq hr]
    rfl
  · simp [waitAt, Sched.State.wake]
    rfl

theorem waitingAt_wakeUp {ret : Option Int64} : (t.wakeUp ret p).waitingAt = t.waitingAt := by
  funext a
  cases a with
  | exit pid => exact congrArg _ ((SameWaits.wakeUp).waiters pid)
  | sem i key => exact congrArg _ (semQueue_congr semaphoreSets_wakeUp i key)

theorem wakeAll_others {run : Option ProcessId}
    {W : Place → (ProcessContext → ProcessContext) → Prop} {a : Place}
    (hW : W a (Entry.wakeContext (some ret))) : ∀ {ps : List ProcessId} {t : Table}, t.Keyed →
      (∀ w ∈ ps, t.processes w ≠ none) → t.waitingAt a = 0 →
      Others run W (waitAt t.view a ps) (t.wakeAll ret ps).view
  | [], t, _, _, hnone => by
      have hself : waitAt t.view a ([] : List ProcessId) = t.view :=
        Sched.State.ext rfl rfl rfl (Function.update_eq_self_iff.mpr hnone.symm) rfl
      rw [hself]
      exact .refl
  | w :: ps, t, h, hps, hnone => by
      obtain ⟨r, hr⟩ := Option.ne_none_iff_exists'.mp (hps w List.mem_cons_self)
      have hwake := wakeUp_view (some ret) a ↑(w :: ps) h hr
      have hmem : w ∈ (waitAt t.view a ↑(w :: ps)).waiting a := by
        simp [waitAt]
      have hevent : Sched.Event KERNEL_PID run W (fun a => ∃ i key, a = Place.sem i key)
          (waitAt t.view a ↑(w :: ps)) _ := .wake hW hmem
      rw [← hwake, Multiset.coe_erase, List.erase_cons_head] at hevent
      refine .head hevent (wakeAll_others hW (h.of_names .wakeUp) (fun q hq => ?_) ?_)
      · rw [(SameWaits.wakeUp).processes]
        exact hps q (List.mem_cons_of_mem _ hq)
      · rw [waitingAt_wakeUp]
        exact hnone

theorem view_removeWaiters : (t.removeWaiters p).view = waitAt t.view (.exit p) 0 := by
  refine Sched.State.ext rfl rfl rfl (funext fun a => ?_) rfl
  show (t.removeWaiters p).waitingAt a = Function.update t.waitingAt (.exit p) 0 a
  by_cases ha : a = .exit p
  · subst ha
    rw [Function.update_self]
    simp [waitingAt, waiters, removeWaiters]
  · rw [Function.update_of_ne ha]
    cases a with
    | exit pid =>
        have hne : pid ≠ p := fun he => ha (he ▸ rfl)
        simp [waitingAt, waiters, removeWaiters, hne]
    | sem i key => rfl

theorem view_die (h : t.Keyed) (hr : t.processes p = some r) :
    (t.modify r (Entry.kill ret)).view = t.view.die p := by
  have hst : (t.modify r (Entry.kill ret)).status = Function.update t.status p (some .dead) :=
    read_modify h hr
  refine Sched.State.ext hst ((saved_modify h hr).trans ?_) rfl rfl rfl
  exact Function.update_eq_self_iff.mpr (saved_eq hr).symm

/-- Killing a process: it dies, and those who wait for it are woken one by one. -/
theorem kill_others {run : Option ProcessId}
    {W : Place → (ProcessContext → ProcessContext) → Prop}
    (hW : W (.exit p) (Entry.wakeContext (some ret))) (h : t.Keyed) (hr : t.processes p = some r)
    (hmem : ∀ w ∈ t.waiters p, t.processes w ≠ none) :
    Others run W (t.view.die p) (t.kill ret p).view := by
  have hwait : waitAt ((t.modify r (Entry.kill ret)).removeWaiters p).view (.exit p)
      (t.waiters p) = t.view.die p := by
    rw [view_removeWaiters, view_die h hr]
    refine Sched.State.ext rfl rfl rfl ?_ rfl
    exact (Function.update_idem _ _ _).trans (Function.update_eq_self_iff.mpr rfl)
  rw [← hwait, kill_some hr]
  refine wakeAll_others hW (h.kill_one ret) hmem ?_
  simp [waitingAt, waiters, removeWaiters]

/-! ### Giving up the processor -/

theorem modify_modify {f g : Entry → Entry} :
    (t.modify r f).modify r g = t.modify r fun e => g (f e) := by
  refine Table.ext ?_ rfl rfl rfl rfl rfl rfl
  simp [Table.modify]

theorem view_wait {pid : ProcessId} (h : t.Keyed) (hr : t.processes t.processor = some r)
    (hnew : t.processor ∉ t.waiters pid) :
    (((t.register pid).modify r (Entry.save c)).modify r Entry.block).view =
      t.view.park (.exit pid) t.processor c := by
  have hwait : (t.register pid).waitingAt =
      Function.update t.waitingAt (.exit pid) (t.processor ::ₘ t.waiters pid) := by
    funext a
    by_cases ha : a = .exit pid
    · subst ha
      rw [Function.update_self]
      refine Multiset.coe_eq_coe.mpr ((List.perm_ext_iff_of_nodup waiters_nodup
        (List.nodup_cons.mpr ⟨hnew, waiters_nodup⟩)).mpr fun w => ?_)
      rw [mem_waiters_register, List.mem_cons]
      simp [or_comm]
    · rw [Function.update_of_ne ha]
      cases a with
      | exit q =>
          have hne : q ≠ pid := fun he => ha (he ▸ rfl)
          simp [waitingAt, waiters, register, hne]
      | sem i key => rfl
  rw [modify_modify]
  have hk : (t.register pid).Keyed := h
  exact Sched.State.ext (read_modify hk hr) (saved_modify hk hr) rfl hwait rfl

theorem view_setSemaphores {ps : List ProcessId}
    (hset : SetsQueue t (t.setSemaphores i sems) i key ps) :
    (t.setSemaphores i sems).view = waitAt t.view (.sem i key) ps := by
  refine Sched.State.ext rfl rfl rfl (funext fun a => ?_) rfl
  show (t.setSemaphores i sems).waitingAt a = Function.update t.waitingAt (.sem i key) ↑ps a
  by_cases ha : a = .sem i key
  · subst ha
    rw [Function.update_self, waitingAt, hset.self]
  · rw [Function.update_of_ne ha]
    cases a with
    | exit q => rfl
    | sem j k => exact congrArg _ (hset.other j k fun he => ha (by rw [he.1, he.2]))

theorem view_same (h : ∀ k, (sems k).map Semaphore.waitQueue =
    (t.semaphoreSets i k).map Semaphore.waitQueue) : (t.setSemaphores i sems).view = t.view := by
  refine Sched.State.ext rfl rfl rfl (funext fun a => ?_) rfl
  cases a with
  | exit q => rfl
  | sem j k => exact congrArg _ (semQueue_same h j k)

theorem view_semWake {rest : List ProcessId} (h : t.Keyed) (hr : t.processes p = some r)
    (hq : t.semQueue i key = p :: rest) (hset : SetsQueue t (t.setSemaphores i sems) i key rest) :
    ((t.setSemaphores i sems).wakeUp none p).view =
      t.view.wake (.sem i key) p (Entry.wakeContext none) := by
  have hk : (t.setSemaphores i sems).Keyed := h
  have hwake := wakeUp_view none (.sem i key) ↑(p :: rest) hk hr
  have hall : waitAt (t.setSemaphores i sems).view (.sem i key) ↑(p :: rest) = t.view := by
    rw [view_setSemaphores hset]
    refine Sched.State.ext rfl rfl rfl ?_ rfl
    exact (Function.update_idem _ _ _).trans (Function.update_eq_self_iff.mpr (congrArg _ hq.symm))
  have hrest : ((p :: rest : List ProcessId) : Multiset ProcessId).erase p = rest := by
    rw [Multiset.coe_erase, List.erase_cons_head]
  have hself : waitAt ((t.setSemaphores i sems).wakeUp none p).view (.sem i key) rest =
      ((t.setSemaphores i sems).wakeUp none p).view := by
    refine Sched.State.ext rfl rfl rfl (Function.update_eq_self_iff.mpr ?_) rfl
    show _ = ((t.setSemaphores i sems).wakeUp none p).waitingAt (.sem i key)
    rw [waitingAt_wakeUp, waitingAt, hset.self]
  rwa [hrest, hself, hall] at hwake

theorem view_semBlock (h : t.Keyed) (hr : t.processes p = some r)
    (hset : SetsQueue t (t.setSemaphores i sems) i key (t.semQueue i key ++ [p])) :
    (((t.setSemaphores i sems).modify r (Entry.save c)).block p).view =
      t.view.park (.sem i key) p c := by
  have hk : (t.setSemaphores i sems).Keyed := h
  have hq : ((t.semQueue i key ++ [p] : List ProcessId) : Multiset ProcessId) =
      p ::ₘ t.semQueue i key := Multiset.coe_eq_coe.mpr List.perm_append_comm
  have hwait := congrArg Sched.State.waiting (view_setSemaphores hset)
  rw [hq] at hwait
  rw [block_some (t := (t.setSemaphores i sems).modify r (Entry.save c)) hr, modify_modify]
  exact Sched.State.ext (read_modify hk hr) (saved_modify hk hr) rfl hwait rfl

theorem view_forked (h : t.Keyed) (hr : t.processes t.processor = some r)
    (hready : e.status = .ready) (hne : t.processor ≠ t.nextPid) :
    (t.forked r c e).view = (t.view.enqueue t.nextPid e.context).enqueue t.processor
      (c.setRax (UInt64.ofNat t.nextPid)) := by
  have hpid : (t.proc r).pid = t.processor := (h _ _ hr).2
  unfold forked
  rw [modify_modify, hpid]
  have hk : (t.modify r fun e => Entry.setForked t.nextPid (Entry.save c e)).Keyed :=
    h.of_names (.modify fun _ => rfl)
  have hview := view_create (e := e) hk hready
  rw [view_modify h hr] at hview
  refine Sched.State.ext ?_ ?_ ?_ rfl rfl
  · exact (congrArg Sched.State.status hview).trans (Function.update_comm hne _ _ _)
  · exact (congrArg Sched.State.saved hview).trans (Function.update_comm hne _ _ _)
  · rfl

/-! ### Calls -/

/-- Fewer than `2 ^ 16` processes have been created. -/
structure Regular (t : Table) : Prop where
  numbered : t.Numbered
  owned : t.Owned
  small : t.created < PIDS

/-- The queues agree with the statuses. -/
abbrev SchedOk (t : Table) : Prop := Sched.Ok KERNEL_PID (some t.processor) t.view

/-- The kernel process is not killed and does not block. -/
def KernelRuns (t : Table) : Op → Prop
  | .kill pid => pid ≠ KERNEL_PID
  | .processExit _ => t.processor ≠ KERNEL_PID
  | .waitPid pid => t.processor = KERNEL_PID → t.exitCode pid ≠ none
  | .semWait key => t.processor = KERNEL_PID → ∀ r ∈ t.current, ∀ d ∈ (t.proc r).procData,
      ∀ sem ∈ t.semaphoreSets d.semaphores key, sem.count ≠ 0
  | _ => True

instance (t : Table) : ∀ op : Op, Decidable (t.KernelRuns op)
  | .kill pid => inferInstanceAs (Decidable (pid ≠ KERNEL_PID))
  | .processExit _ => inferInstanceAs (Decidable (t.processor ≠ KERNEL_PID))
  | .waitPid pid => inferInstanceAs (Decidable (t.processor = KERNEL_PID → t.exitCode pid ≠ none))
  | .semWait key => inferInstanceAs (Decidable (t.processor = KERNEL_PID → ∀ r ∈ t.current,
      ∀ d ∈ (t.proc r).procData, ∀ sem ∈ t.semaphoreSets d.semaphores key, sem.count ≠ 0))
  | .switch | .spawn _ | .vfork | .semNew _ _ | .removeSem _ | .semSignal _ | .brk _
  | .pageFault _ _ => isTrue trivial

/-- What the wake-ups in a call that ends in `u` do to the saved contexts. -/
def Wakes (u : Table) : Place → (ProcessContext → ProcessContext) → Prop
  | .exit pid, f => ∃ ret, u.exitCode pid = some ret ∧ f = Entry.wakeContext (some ret)
  | .sem _ _, f => f = Entry.wakeContext none

/-- What a call with the context `c` does up to `switch_next` if it gives up the processor. -/
inductive Suspends (t : Table) (c : ProcessContext) (u : Table) : Op → Prop where
  | yield (h : u.view = t.view.enqueue t.processor c) : Suspends t c u .switch
  | wait {pid : ProcessId} (hne : t.processor ≠ KERNEL_PID) (hexit : t.exitCode pid = none)
      (h : u.view = t.view.park (.exit pid) t.processor c) : Suspends t c u (.waitPid pid)
  | block {i : Ref} {key : SemaphoreId} (hne : t.processor ≠ KERNEL_PID)
      (h : u.view = t.view.park (.sem i key) t.processor c) : Suspends t c u (.semWait key)
  | fork {child : ProcessContext} (hnew : t.processes t.nextPid = none)
      (h : u.view = (t.view.enqueue t.nextPid child).enqueue t.processor
        (c.setRax (UInt64.ofNat t.nextPid))) : Suspends t c u .vfork
  | die {op : Op} (hne : t.processor ≠ KERNEL_PID) (hop : t.Kills t.processor op)
      (h : Others none u.Wakes (t.view.die t.processor) u.view) : Suspends t c u op

theorem Regular.fresh (h : t.Regular) (hsmall : t.created + 1 < PIDS) :
    t.processes t.nextPid = none :=
  (h.numbered.nextPid_fresh.mpr (Nat.lt_of_succ_lt_succ hsmall)).2.2

theorem SchedOk.current (h : t.SchedOk) : t.processes t.processor ≠ none := by
  intro hnone
  have hst : t.view.status t.processor = none := status_eq_none.mpr hnone
  exact (h.new_notMem hst).1 rfl

theorem SchedOk.waiting {a : Place} (h : t.SchedOk) (hp : p ∈ t.waitingAt a) :
    t.processes p ≠ none := by
  intro hnone
  have hst : t.view.status p = none := status_eq_none.mpr hnone
  exact (h.new_notMem hst).2.2 a hp

theorem SchedOk.kill {run : Option ProcessId} (h : t.SchedOk) (hk : t.Keyed)
    (hr : t.processes p = some r) :
    Others run (t.kill ret p).Wakes (t.view.die p) (t.kill ret p).view := by
  refine kill_others ⟨ret, ?_, rfl⟩ hk hr fun w hw => h.waiting (a := .exit p) hw
  rw [exitCode_kill hk hr, if_pos rfl]

theorem GiveUp.suspends {call : Call} (hreg : t.Regular) (hok : t.SchedOk)
    (hK : t.KernelRuns call.1) (hsmall : u.created < PIDS) (hu : t.GiveUp call u) :
    t.Suspends call.2 u call.1 := by
  have hk := hreg.numbered.keyed
  obtain ⟨cur, hcur⟩ := Option.ne_none_iff_exists'.mp hok.current
  have hpid : ∀ r, t.current = some r → t.processes t.processor = some r := fun r hr =>
    (current_iff.mp hr).2
  cases hu with
  | @switch c r hr =>
      rw [hk.current_pid hr]
      exact .yield (view_enqueue hk (hpid r hr))
  | exit => exact .die hK rfl (hok.kill hk hcur)
  | @wait pid c r hexit hr =>
      refine .wait (fun he => hK he hexit) hexit (view_wait hk (hpid r hr) fun hm => ?_)
      exact hok.run_notMem.2 (.exit pid) hm
  | killSelf => exact .die hK rfl (hok.kill hk hcur)
  | @vfork c e r hr hvm hready hexit hdata hvm' =>
      have hfresh := hreg.fresh hsmall
      have hne : t.processor ≠ t.nextPid := fun he => hok.current (he ▸ hfresh)
      exact .fork hfresh (view_forked hk (hpid r hr) hready hne)
  | @semBlock key c r d p sems hr hd hwait =>
      have hne : t.processor ≠ KERNEL_PID := fun he => by
        obtain ⟨-, sem, hsem, hzero, -⟩ := SemaphoreSet.wait_block hwait
        exact hK he r hr d hd sem hsem hzero
      obtain ⟨rfl, hset⟩ := setsQueue_block hwait
      rw [hk.current_pid hr] at hset ⊢
      exact .block hne (view_semBlock hk (hpid r hr) hset)

theorem Stay.others {call : Call} (hreg : t.Regular) (hok : t.SchedOk) (hK : t.KernelRuns call.1)
    (hsmall : u.created < PIDS) (hu : t.Stay call u c') :
    Others (some t.processor) u.Wakes t.view u.view := by
  have hk := hreg.numbered.keyed
  cases hu with
  | @spawn name c e hr hready hexit hvm hdata =>
      rw [hreg.owned.setSemaphores_next, view_create hk hready]
      exact .single (.create _ (status_eq_none.mpr (hreg.fresh hsmall)))
  | spawnNone => exact .refl
  | waitExited => exact .refl
  | @kill pid c hne =>
      rcases hr : t.processes pid with _ | r
      · rw [kill_none hr]
      · have hst : t.view.status pid ≠ none := fun hnone => by
          rw [status_eq_none.mp hnone] at hr
          cases hr
        exact .head (.die hK (fun he => hne (Option.some.inj he).symm) hst) (hok.kill hk hr)
  | semNew hr hd =>
      rw [view_setSemaphores setsQueue_insert]
      exact .single (.forget ⟨_, _, rfl⟩)
  | removeSem hr hd =>
      rw [view_setSemaphores setsQueue_remove]
      exact .single (.forget ⟨_, _, rfl⟩)
  | semWait hr hd hwait hres =>
      rw [view_same (SemaphoreSet.wait_other hwait hres)]
  | semSignal hr hd hsig hres =>
      rw [view_same (SemaphoreSet.signal_other hsig hres)]
  | @semWake B key c r d p sems hr hd hsig =>
      obtain ⟨rest, hq, hset⟩ := setsQueue_wakeUp hsig
      have hmem : p ∈ t.waitingAt (.sem d.semaphores key) := by simp [waitingAt, hq]
      obtain ⟨rp, hrp⟩ := Option.ne_none_iff_exists'.mp (hok.waiting hmem)
      rw [view_semWake hk hrp hq hset]
      exact .single (.wake rfl hmem)
  | brk => exact .refl
  | pageFault => exact .refl

theorem SchedOk.die_current (h : t.SchedOk) (hne : t.processor ≠ KERNEL_PID) :
    Sched.Ok KERNEL_PID none (t.view.die t.processor) :=
  Sched.Ok.die h hne (fun _ hq => ⟨fun he => absurd (Option.some.inj he).symm hq, nofun⟩) nofun

/-- Up to `switch_next` the invariant holds with nobody on the processor. -/
theorem Suspends.ok {op : Op} (hok : t.SchedOk) (hu : t.Suspends c u op) :
    Sched.Ok KERNEL_PID none u.view := by
  cases hu with
  | yield h =>
      rw [h]
      exact Sched.Ok.yield hok
  | wait hne hexit h =>
      rw [h]
      exact Sched.Ok.park hok hne
  | block hne h =>
      rw [h]
      exact Sched.Ok.park hok hne
  | fork hnew h =>
      rw [h]
      exact (Sched.Ok.create hok (status_eq_none.mpr hnew)).yield
  | die hne hop h =>
      exact (hok.die_current hne).others h

theorem Suspends.processor {op : Op} (hu : t.Suspends c u op) : u.processor = t.processor := by
  cases hu with
  | yield h => exact congrArg Sched.State.cur h
  | wait hne hexit h => exact congrArg Sched.State.cur h
  | block hne h => exact congrArg Sched.State.cur h
  | fork hnew h => exact congrArg Sched.State.cur h
  | die hne hop h => exact h.cur_eq

/-- What a call does to the scheduler's state: the current process keeps the processor, or gives
it up and the next process is picked. -/
theorem Step.sched {call : Call} (hreg : t.Regular) (hok : t.SchedOk) (hK : t.KernelRuns call.1)
    (hsmall : u.created < PIDS) (hu : t.Step call u c') :
    (Others (some t.processor) u.Wakes t.view u.view ∧ u.processor = t.processor) ∨
    ∃ v, t.Suspends call.2 v call.1 ∧ Sched.Pick call.2 v.view u.view c' ∧ v.Names u ∧
      v.exitCode = u.exitCode := by
  cases hu with
  | giveUp hg hp =>
      have hn := Names.pick hp
      refine Or.inr ⟨_, hg.suspends hreg hok hK (hn.created ▸ hsmall), ?_, hn, ?_⟩
      · exact hp.view (hreg.numbered.names1 hg.names).keyed
      · exact funext fun p => ((SameWaits.pick hp).exitCode p).symm
  | stay hs =>
      have ho := hs.others hreg hok hK hsmall
      exact Or.inl ⟨ho, ho.cur_eq⟩

theorem Step.regular {call : Call} (hreg : t.Regular) (hsmall : u.created < PIDS)
    (hu : t.Step call u c') : u.Regular :=
  ⟨hreg.numbered.names1 hu.names, hreg.owned.step hreg.numbered.keyed hu, hsmall⟩

theorem Step.schedOk {call : Call} (hreg : t.Regular) (hok : t.SchedOk) (hK : t.KernelRuns call.1)
    (hsmall : u.created < PIDS) (hu : t.Step call u c') : u.SchedOk := by
  rcases hu.sched hreg hok hK hsmall with ⟨ho, hcur⟩ | ⟨v, hs, hp, -⟩
  · rw [SchedOk, hcur]
    exact Sched.Ok.others hok ho
  · exact (hs.ok hok).pick hp

theorem GiveUp.created {call : Call} (hu : t.GiveUp call u) :
    u.created = t.created ∨ call.1 = .vfork ∧ u.created = t.created + 1 := by
  cases hu with
  | vfork => exact Or.inr ⟨rfl, rfl⟩
  | semBlock => exact Or.inl (Names.block (t := (t.setSemaphores _ _).modify _ _)).created
  | exit => exact Or.inl Names.kill.created
  | killSelf => exact Or.inl Names.kill.created
  | _ => exact Or.inl rfl

/-- `switch_next` finds the current process and every process in the queue. -/
theorem not_pickFails {e : Panic} (h : Sched.Ok KERNEL_PID none t.view) (hcur : t.processor ≠ 0)
    (he : e = .noCurrentProcess ∨ e = .processNotFound) : ¬ t.PickFails e := by
  intro hf
  cases hf with
  | noCurrent hzero => exact hcur hzero
  | @notFound p hp hnone =>
      have hst : t.view.status p = none := status_eq_none.mpr hnone
      exact (h.new_notMem hst).2.1 hp
  | vmTaken => exact he.elim nofun nofun

theorem Regular.processor_ne (h : t.Regular) (hok : t.SchedOk) : t.processor ≠ 0 := by
  obtain ⟨r, hr⟩ := Option.ne_none_iff_exists'.mp hok.current
  obtain ⟨h1, hle, hp⟩ := h.numbered.entries _ r hr
  have hsmall := h.small
  rw [hp, Nat.mod_eq_of_lt (Nat.lt_of_le_of_lt hle hsmall)]
  exact Nat.ne_of_gt h1

end Table

variable {α : Type}

theorem boot_regular (b : BootInfo α) : (boot b).table.Regular :=
  ⟨boot_numbered b, boot_owned b, show 1 < PIDS by decide⟩

theorem boot_schedOk (b : BootInfo α) : (boot b).table.SchedOk := by
  have hone : (boot b).table.view.status KERNEL_PID = some .running := rfl
  refine ⟨fun p => ?_, Or.inr hone⟩
  have hsets : ∀ i, (boot b).table.semaphoreSets i = SemaphoreSet.empty := fun i => by
    by_cases hi : i = 1
    · subst hi
      rfl
    · exact Function.update_of_ne hi _ _
  have hwait : ∀ a, ((boot b).table.view.waiting a).count p = 0 := fun a => by
    cases a with
    | exit pid => rfl
    | sem i key =>
        have hq : (boot b).table.semQueue i key = [] := by
          rw [Table.semQueue, hsets]
          rfl
        exact congrArg (fun ps : List ProcessId => (ps : Multiset ProcessId).count p) hq
  by_cases hp : p = KERNEL_PID
  · subst hp
    exact .onCpu rfl (Or.inl hone) rfl hwait
  · refine .off (fun he => hp (Option.some.inj he).symm) (Or.inl ?_) rfl hwait
    exact Table.status_eq_none.mpr (Function.update_of_ne hp _ _)

variable [FrameAllocator α] {B : Build}

/-- The condition of the runs in which fewer than `2 ^ 16` processes are created and the kernel
process runs on. -/
abbrev KernelKept (k : Kernel α) (call : Call) (k' : Kernel α) : Prop :=
  k.table.KernelRuns call.1 ∧ k'.created < PIDS

theorem run_schedOk {b : BootInfo α} {s : Kernel α} (h : Run (step B) KernelKept (boot b) s) :
    s.table.Regular ∧ s.table.SchedOk := by
  refine h.invariant (P := fun k => k.table.Regular ∧ k.table.SchedOk)
    ⟨boot_regular b, boot_schedOk b⟩ fun k call k' c' hk hstep hC => ?_
  have hstep := step_table hk.1.numbered.keyed hstep
  exact ⟨hstep.regular hk.1 hC.2, hstep.schedOk hk.1 hk.2 hC.1 hC.2⟩

/-- **The scheduler's queues.**  In every run in which the kernel process is not killed and does
not block and fewer than `2 ^ 16` processes are created: the current process and those in the
ready queue are in the table, so that no call panics because one is not found; the ready queue has
no duplicates and does not contain the current process; who is in it is ready or dead; every ready
process but the current one is in it; and only the current process runs. -/
theorem scheduler_sound {b : BootInfo α} {s : Kernel α}
    (h : Run (step B) KernelKept (boot b) s) :
    (s.getProc s.processor ≠ none ∧ ∀ p ∈ s.readyQueue, s.getProc p ≠ none) ∧
    (∀ call : Call, s.table.KernelRuns call.1 → (call.1 = .vfork → s.created + 1 < PIDS) →
      step B s call ≠ .error .noCurrentProcess ∧ step B s call ≠ .error .processNotFound) ∧
    s.readyQueue.Nodup ∧ s.processor ∉ s.readyQueue ∧
    (∀ p ∈ s.readyQueue, ∀ r, s.getProc p = some r →
      (s.heap r).inner.status = .ready ∨ (s.heap r).inner.status = .dead) ∧
    (∀ p r, s.getProc p = some r → (s.heap r).inner.status = .ready → p ≠ s.processor →
      p ∈ s.readyQueue) ∧
    ∀ p r, s.getProc p = some r → (s.heap r).inner.status = .running → p = s.processor := by
  obtain ⟨hreg, hok⟩ := run_schedOk h
  have hstatus : ∀ p r, s.getProc p = some r →
      s.table.view.status p = some (s.heap r).inner.status := fun p r hp => Table.read_eq hp
  refine ⟨⟨hok.current, fun p hp hnone => ?_⟩, fun call hK hfork => ?_, hok.nodup_ready,
    hok.run_notMem.1, fun p hp r hr => ?_, fun p r hr hs hne => ?_, fun p r hr hs => ?_⟩
  · exact (hok.new_notMem (Table.status_eq_none.mpr hnone)).2.1 hp
  · have hfails : ∀ e : Panic, e = .noCurrentProcess ∨ e = .processNotFound →
        step B s call ≠ .error e := by
      intro e he herr
      have hin : e.inSwitch = true := by
        rcases he with rfl | rfl <;> rfl
      rcases step_error hreg.numbered.keyed herr hin with ⟨u, hu, hf⟩ | ⟨-, hcur⟩
      · have hsmall : u.created < PIDS := by
          rcases hu.created with hc | ⟨hop, hc⟩
          · exact hc ▸ hreg.small
          · exact hc ▸ hfork hop
        have hs := hu.suspends hreg hok hK hsmall
        exact Table.not_pickFails (hs.ok hok) (hs.processor ▸ hreg.processor_ne hok) he hf
      · exact hok.current ((if_neg (hreg.processor_ne hok)).symm.trans hcur)
    exact ⟨hfails _ (Or.inl rfl), hfails _ (Or.inr rfl)⟩
  · exact (hok.status_of_mem hp).imp (fun hs => Option.some.inj ((hstatus p r hr).symm.trans hs))
      fun hs => Option.some.inj ((hstatus p r hr).symm.trans hs)
  · exact hok.mem_of_status ((hstatus p r hr).trans (congrArg some hs))
      fun he => hne (Option.some.inj he).symm
  · exact (Option.some.inj (hok.run_of_running ((hstatus p r hr).trans (congrArg some hs)))).symm

/-- Process 2 has forked process 3 and waits at a semaphore, and process 3 is to run next. -/
theorem scheduler_sound_example : ∃ s : Kernel BootInfoFrameAllocator,
    s.processor = 1 ∧ s.readyQueue = [3] ∧ s.getProc 1 ≠ none ∧ s.readyQueue.Nodup ∧
      step Build.release s (.switch, default) ≠ .error .processNotFound := by
  have hs : (execCalls KernelKept default [.spawn "sh", .switch, .vfork, .switch, .switch,
      .semNew 0 0, .semWait 0]).map (fun s => (s.processor, s.readyQueue)) = some (1, [3]) := by
    decide +kernel
  obtain ⟨s, hs, hval⟩ := Option.map_eq_some_iff.mp hs
  obtain ⟨hproc, hqueue⟩ := Prod.mk.inj hval
  obtain ⟨⟨hcur, -⟩, hcalls, hnodup, -⟩ := scheduler_sound (run_of_exec hs)
  rw [hproc] at hcur
  exact ⟨s, hproc, hqueue, hcur, hnodup, (hcalls (.switch, default) trivial nofun).2⟩

end Ysos
