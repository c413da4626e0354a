import Ysos.Mq
import Ysos.Tree

/-! # Programs on the kernel

The processes of a program make their calls of semaphores to the kernel, where they run in turns with
other processes.  A `Machine` is the kernel together with what the program is doing; the program's
threads have ids of their own, and `pid` gives the process of each.

* `Linked`: what the kernel and the threads of `Threads` have in common while they run.
* `programs_refine`: the runs of a program on the kernel are runs of its threads, and a thread that is
  not blocked has the processor or is in the ready queue.
* `coffee_shop`: so the counter of the coffee shop is right on the kernel. -/

namespace Ysos

open Runs

/-! ### Other names for the processes -/

section Rename

variable (f : ProcessId → ProcessId)

def Semaphore.rename (s : Semaphore) : Semaphore := { s with waitQueue := s.waitQueue.map f }

def SemaphoreResult.rename : SemaphoreResult → SemaphoreResult
  | .block pid => .block (f pid)
  | .wakeUp pid => .wakeUp (f pid)
  | .ok => .ok
  | .notExist => .notExist

variable {f} in
theorem Semaphore.signal_rename {B : Build} (sem : Semaphore) : (sem.rename f).signal B =
    (sem.signal B).map fun r => (r.1.rename f, r.2.rename f) := by
  obtain ⟨count, queue⟩ := sem
  cases queue with
  | nil =>
      simp only [Semaphore.signal, Semaphore.rename, List.map_nil]
      cases B.add count 1 <;> rfl
  | cons q rest => rfl

namespace SemaphoreSet

def rename (sems : SemaphoreSet) : SemaphoreSet := fun key => (sems key).map (Semaphore.rename f)

/-- Who waits at a semaphore. -/
def queue (sems : SemaphoreSet) (key : SemaphoreId) : List ProcessId :=
  ((sems key).map Semaphore.waitQueue).getD []

variable {f} {sems sems' : SemaphoreSet} {key : SemaphoreId} {p : ProcessId}

theorem rename_update (sem : Semaphore) : rename f (Function.update sems key (some sem)) =
    Function.update (sems.rename f) key (some (sem.rename f)) := by
  funext k
  by_cases hk : k = key
  · subst hk
    simp [rename]
  · simp [rename, hk]

theorem wait_rename : (sems.rename f).wait key (f p) =
    ((sems.wait key p).1.rename f, (sems.wait key p).2.rename f) := by
  cases hsem : sems key with
  | none =>
      have hren : sems.rename f key = none := by rw [rename, hsem, Option.map_none]
      simp only [wait, hsem, hren]
      rfl
  | some sem =>
      have hren : sems.rename f key = some (sem.rename f) := by rw [rename, hsem, Option.map_some]
      simp only [wait, hsem, hren, rename_update]
      by_cases h0 : sem.count = 0
      · simp [Semaphore.wait, Semaphore.rename, SemaphoreResult.rename, h0]
      · simp [Semaphore.wait, Semaphore.rename, SemaphoreResult.rename, h0]

theorem signal_rename (B : Build) : (sems.rename f).signal B key =
    (sems.signal B key).map fun r => (r.1.rename f, r.2.rename f) := by
  cases hsem : sems key with
  | none =>
      have hren : sems.rename f key = none := by rw [rename, hsem, Option.map_none]
      simp only [signal, hsem, hren]
      rfl
  | some sem =>
      have hren : sems.rename f key = some (sem.rename f) := by rw [rename, hsem, Option.map_some]
      simp only [signal, hsem, hren, Semaphore.signal_rename]
      cases sem.signal B with
      | error e => rfl
      | ok r =>
          obtain ⟨res, sem'⟩ := r
          exact congrArg (fun x => Except.ok (res.rename f, x)) (rename_update sem').symm

theorem queue_rename : (sems.rename f).queue key = (sems.queue key).map f := by
  unfold queue rename
  cases sems key <;> rfl

theorem queue_update (sem : Semaphore) (k : SemaphoreId) :
    queue (Function.update sems key (some sem)) k = if k = key then sem.waitQueue else sems.queue k := by
  unfold queue
  by_cases hk : k = key
  · subst hk
    rw [if_pos rfl, Function.update_self]
    rfl
  · rw [if_neg hk, Function.update_of_ne hk]

theorem queue_same (h : ∀ k, (sems' k).map Semaphore.waitQueue = (sems k).map Semaphore.waitQueue)
    (k : SemaphoreId) : sems'.queue k = sems.queue k := by
  rw [queue, queue, h]

theorem rename_fresh (h : Threads.Fresh sems) : sems.rename f = sems := by
  funext key
  unfold rename
  cases hsem : sems key with
  | none => rfl
  | some sem =>
      obtain ⟨count, queue⟩ := sem
      obtain rfl : queue = [] := h key _ hsem
      rfl

end SemaphoreSet

end Rename

/-! ### What a call does to one set of semaphores -/

namespace Table

variable {t u v : Table} {r i : Ref} {p q : ProcessId} {c c' : ProcessContext} {ret : Int64}
  {call : Call} {W : Ref → Prop}

/-- The current process has the semaphores of the set `i`. -/
def UsesSet (t : Table) (i : Ref) : Prop :=
  ∃ r ∈ t.current, ∃ d ∈ (t.proc r).procData, d.semaphores = i

instance (t : Table) (i : Ref) : Decidable (t.UsesSet i) :=
  inferInstanceAs (Decidable (∃ r ∈ t.current, ∃ d ∈ (t.proc r).procData, d.semaphores = i))

/-- The calls that are not made to a semaphore of the set `i`. -/
def SparesSet (t : Table) (i : Ref) : Op → Prop
  | .semNew _ _ | .removeSem _ | .semWait _ | .semSignal _ => ¬ t.UsesSet i
  | _ => True

instance (t : Table) (i : Ref) : ∀ op : Op, Decidable (t.SparesSet i op)
  | .semNew _ _ | .removeSem _ | .semWait _ | .semSignal _ =>
      inferInstanceAs (Decidable (¬ t.UsesSet i))
  | .switch | .spawn _ | .processExit _ | .waitPid _ | .kill _ | .vfork | .brk _ | .pageFault _ _ =>
      isTrue trivial

theorem Pick.semaphoreSets (h : t.Pick c u c') : u.semaphoreSets = t.semaphoreSets := by
  cases h <;> rfl

theorem semaphoreSets_block : (t.block p).semaphoreSets = t.semaphoreSets := by
  unfold Table.block
  split <;> rfl

theorem UsesSet.other {d : ProcessData} (h : ¬ t.UsesSet i) (hr : t.current = some r)
    (hd : (t.proc r).procData = some d) : i ≠ d.semaphores := fun he => h ⟨r, hr, d, hd, he.symm⟩

theorem GiveUp.spares (hC : t.SparesSet i call.1) (hu : t.GiveUp call u) :
    u.semaphoreSets i = t.semaphoreSets i := by
  cases hu with
  | exit => exact congrFun semaphoreSets_kill i
  | killSelf => exact congrFun semaphoreSets_kill i
  | @semBlock key c r d p sems hr hd hwait =>
      rw [semaphoreSets_block]
      exact Function.update_of_ne (UsesSet.other hC hr hd) _ _
  | _ => rfl

theorem Stay.spares (hi : i ≤ t.created) (hC : t.SparesSet i call.1) (hu : t.Stay call u c') :
    u.semaphoreSets i = t.semaphoreSets i := by
  cases hu with
  | spawn => exact Function.update_of_ne (Nat.ne_of_lt (Nat.lt_succ_of_le hi)) _ _
  | kill => exact congrFun semaphoreSets_kill i
  | semNew hr hd => exact Function.update_of_ne (UsesSet.other hC hr hd) _ _
  | removeSem hr hd => exact Function.update_of_ne (UsesSet.other hC hr hd) _ _
  | semWait hr hd => exact Function.update_of_ne (UsesSet.other hC hr hd) _ _
  | semSignal hr hd => exact Function.update_of_ne (UsesSet.other hC hr hd) _ _
  | semWake hr hd =>
      rw [semaphoreSets_wakeUp]
      exact Function.update_of_ne (UsesSet.other hC hr hd) _ _
  | _ => rfl

/-- The other calls leave the set as it was. -/
theorem Step.spares (hi : i ≤ t.created) (hC : t.SparesSet i call.1) (hu : t.Step call u c') :
    u.semaphoreSets i = t.semaphoreSets i := by
  cases hu with
  | giveUp hg hp => exact (congrFun hp.semaphoreSets i).trans (hg.spares hC)
  | stay hs => exact hs.spares hi hC

theorem Step.semWait_sets {key : SemaphoreId} (hu : t.Step (.semWait key, c) u c') :
    ∃ r d, t.current = some r ∧ (t.proc r).procData = some d ∧ u.semaphoreSets d.semaphores =
      ((t.semaphoreSets d.semaphores).wait key (t.proc r).pid).2 ∧
      ((∀ p, ((t.semaphoreSets d.semaphores).wait key (t.proc r).pid).1 ≠ .block p) →
        u.processor = t.processor) := by
  cases hu with
  | giveUp hg hp =>
      cases hg with
      | @semBlock key c r d p sems hr hd hwait =>
          rw [hp.semaphoreSets, semaphoreSets_block]
          refine ⟨r, d, hr, hd, ?_, fun hne => absurd (congrArg Prod.fst hwait) (hne p)⟩
          rw [hwait]
          exact Function.update_self _ _ _
  | stay hs =>
      cases hs with
      | semWait hr hd hwait hres =>
          refine ⟨_, _, hr, hd, ?_, fun _ => rfl⟩
          rw [hwait]
          exact Function.update_self _ _ _

/-! ### What a call does to one process -/

/-- The older processes get no data, and only those in `W` are blocked. -/
structure Marks (W : Ref → Prop) (t u : Table) : Prop where
  created : t.created ≤ u.created
  data : ∀ r ≤ t.created, ∀ d ∈ (u.proc r).procData, d ∈ (t.proc r).procData
  blocked : ∀ r ≤ t.created, (u.proc r).status = .blocked → (t.proc r).status = .blocked ∨ W r

namespace Marks

theorem of_eq (hc : u.created = t.created) (h : u.proc = t.proc) : Marks W t u :=
  ⟨hc.ge, fun _ _ _ hd => h ▸ hd, fun _ _ hb => Or.inl (h ▸ hb)⟩

theorem trans (h : Marks W t u) (h' : Marks W u v) : Marks W t v :=
  ⟨h.created.trans h'.created,
    fun r hr d hd => h.data r hr d (h'.data r (hr.trans h.created) d hd),
    fun r hr hb => (h'.blocked r (hr.trans h.created) hb).elim (h.blocked r hr) Or.inr⟩

theorem modify {f : Entry → Entry} (hdata : ∀ e, ∀ d ∈ (f e).procData, d ∈ e.procData)
    (hb : ∀ e, (f e).status = .blocked → W r) : Marks W t (t.modify r f) := by
  refine ⟨le_rfl, fun q _ d hd => ?_, fun q _ hq => ?_⟩
  · by_cases hqr : q = r
    · subst hqr
      exact hdata _ d (by simpa [Table.modify] using hd)
    · simpa [Table.modify, hqr] using hd
  · by_cases hqr : q = r
    · subst hqr
      exact Or.inr (hb _ (by simpa [Table.modify] using hq))
    · exact Or.inl (by simpa [Table.modify, hqr] using hq)

theorem mark {f : Entry → Entry} (hdata : ∀ e, (f e).procData = e.procData)
    (hb : ∀ e, (f e).status ≠ .blocked) : Marks W t (t.modify r f) :=
  modify (fun e _ hd => hdata e ▸ hd) fun e he => absurd he (hb e)

theorem wakeUp {ret : Option Int64} : Marks W t (t.wakeUp ret p) := by
  rcases hr : t.processes p with _ | r
  · rw [wakeUp_none hr]
    exact of_eq rfl rfl
  · rw [wakeUp_some hr]
    have hmod : Marks W t (t.modify r (Entry.wake ret)) := mark (fun _ => rfl) (by simp [Entry.wake])
    exact hmod.trans (of_eq rfl rfl)

theorem wakeAll : ∀ {ps : List ProcessId} {t : Table}, Marks W t (t.wakeAll ret ps)
  | [], _ => of_eq rfl rfl
  | _ :: _, _ => wakeUp.trans wakeAll

theorem kill : Marks W t (t.kill ret p) := by
  rcases hr : t.processes p with _ | r
  · rw [kill_none hr]
    exact of_eq rfl rfl
  · rw [kill_some hr]
    have hmod : Marks W t (t.modify r (Entry.kill ret)) :=
      modify (fun _ _ hd => by cases hd) (by simp [Entry.kill])
    have hrem : Marks W t ((t.modify r (Entry.kill ret)).removeWaiters p) := hmod.trans (of_eq rfl rfl)
    exact hrem.trans wakeAll

theorem create {e : Entry} : Marks W t (t.create e) :=
  ⟨Nat.le_succ _, fun r hr d hd => by rwa [create_proc_old hr] at hd,
    fun r hr hb => Or.inl (by rwa [create_proc_old hr] at hb)⟩

theorem pick (h : t.Pick c u c') : Marks W t u := by
  cases h with
  | none => exact of_eq rfl rfl
  | same => exact of_eq rfl rfl
  | @switch pre rest p r =>
      have hmod : Marks W t (t.modify r Entry.resume) := mark (fun _ => rfl) (by simp [Entry.resume])
      exact hmod.trans (of_eq rfl rfl)

end Marks

/-- The call blocks the process behind `r`, if it blocks. -/
def Blocks (t : Table) : Op → Ref → Prop
  | .waitPid _, r | .semWait _, r => t.current = some r
  | _, _ => False

theorem GiveUp.marks (hk : t.Keyed) (hu : t.GiveUp call u) : Marks (t.Blocks call.1) t u := by
  cases hu with
  | @switch c r hr =>
      have hsave : Marks (t.Blocks .switch) t (t.modify r (Entry.save c)) :=
        .mark (fun _ => rfl) (by simp [Entry.save])
      exact hsave.trans (.of_eq rfl rfl)
  | exit => exact .kill
  | @wait pid c r hexit hr =>
      have hreg : Marks (t.Blocks (.waitPid pid)) t (t.register pid) := .of_eq rfl rfl
      have hsave : Marks (t.Blocks (.waitPid pid)) t ((t.register pid).modify r (Entry.save c)) :=
        hreg.trans (.mark (fun _ => rfl) (by simp [Entry.save]))
      exact hsave.trans (.modify (fun _ _ hd => hd) fun _ _ => hr)
  | killSelf => exact .kill
  | @vfork c e r hr hvm hready hexit hdata hvm' =>
      have hsave : Marks (t.Blocks .vfork) t (t.modify r (Entry.save c)) :=
        .mark (fun _ => rfl) (by simp [Entry.save])
      have hfork : Marks (t.Blocks .vfork) t
          ((t.modify r (Entry.save c)).modify r (Entry.setForked t.nextPid)) :=
        hsave.trans (.mark (fun _ => rfl) (by simp [Entry.setForked]))
      exact (hfork.trans .create).trans (.of_eq rfl rfl)
  | @semBlock key c r d p sems hr hd hwait =>
      have hset : Marks (t.Blocks (.semWait key)) t (t.setSemaphores d.semaphores sems) := .of_eq rfl rfl
      have hsave : Marks (t.Blocks (.semWait key)) t
          ((t.setSemaphores d.semaphores sems).modify r (Entry.save c)) :=
        hset.trans (.mark (fun _ => rfl) (by simp [Entry.save]))
      obtain ⟨rfl, -⟩ := setsQueue_block hwait
      have hpid : t.processes (t.proc r).pid = some r := hk.current_pid hr ▸ (current_iff.mp hr).2
      rw [block_some (t := (t.setSemaphores d.semaphores sems).modify r (Entry.save c)) hpid]
      exact hsave.trans (.modify (fun _ _ hd => hd) fun _ _ => hr)

theorem Stay.marks (hu : t.Stay call u c') : Marks W t u := by
  cases hu with
  | @spawn name c e =>
      have hset : Marks W t (t.setSemaphores (t.created + 1) SemaphoreSet.empty) := .of_eq rfl rfl
      exact hset.trans .create
  | kill => exact .kill
  | @semWake B key c r d p sems =>
      have hset : Marks W t (t.setSemaphores d.semaphores sems) := .of_eq rfl rfl
      exact hset.trans .wakeUp
  | _ => exact .of_eq rfl rfl

theorem Step.marks (hk : t.Keyed) (hu : t.Step call u c') : Marks (t.Blocks call.1) t u := by
  cases hu with
  | giveUp hg hp => exact (hg.marks hk).trans (.pick hp)
  | stay hs => exact hs.marks

/-- The process behind `r` is the one that the call has created. -/
structure Newcomer (t : Table) (op : Op) (u : Table) (q : ProcessId) (r : Ref) : Prop where
  pid : q = t.nextPid
  blocked : (u.proc r).status ≠ .blocked
  dead : (u.proc r).status ≠ .dead
  origin : (∃ name, op = .spawn name) ∨
    op = .vfork ∧ ∃ r₀ ∈ t.current, (u.proc r).procData = (t.proc r₀).procData

theorem Pick.resumes (h : t.Pick c u c') (q : Ref) : (u.proc q).procData = (t.proc q).procData ∧
    ((u.proc q).status = (t.proc q).status ∨ (u.proc q).status = .running) := by
  cases h with
  | none => exact ⟨rfl, Or.inl rfl⟩
  | same => exact ⟨rfl, Or.inl rfl⟩
  | @switch pre rest p r =>
      by_cases hq : q = r
      · subst hq
        simp [Table.modify, Entry.resume]
      · simp [Table.modify, hq]

theorem newcomer_spawn {e : Entry} {name : String} (hready : e.status = .ready)
    (hq : ((t.setSemaphores (t.created + 1) SemaphoreSet.empty).create e).processes q = some r) :
    t.processes q = some r ∨ t.Newcomer (.spawn name)
      ((t.setSemaphores (t.created + 1) SemaphoreSet.empty).create e) q r := by
  change Function.update t.processes t.nextPid (some (t.created + 1)) q = some r at hq
  by_cases hn : q = t.nextPid
  · subst hn
    rw [Function.update_self, Option.some.injEq] at hq
    subst hq
    have hst : (((t.setSemaphores (t.created + 1) SemaphoreSet.empty).create e).proc
        (t.created + 1)).status = .ready := by
      simp [Table.create, Table.insert, Table.setSemaphores, hready]
    exact Or.inr ⟨rfl, by simp [hst], by simp [hst], Or.inl ⟨name, rfl⟩⟩
  · exact Or.inl ((Function.update_of_ne hn _ _).symm.trans hq)

theorem newcomer_vfork {e : Entry} {r₀ : Ref} (hr : t.current = some r₀) (hready : e.status = .ready)
    (hdata : e.procData = (t.proc r₀).procData) (hp : (t.forked r₀ c e).Pick c u c')
    (hq : u.processes q = some r) :
    t.processes q = some r ∨ t.Newcomer .vfork u q r := by
  rw [(Names.pick hp).processes] at hq
  change Function.update t.processes t.nextPid (some (t.created + 1)) q = some r at hq
  by_cases hn : q = t.nextPid
  · subst hn
    rw [Function.update_self, Option.some.injEq] at hq
    subst hq
    have hnew : (t.forked r₀ c e).proc (t.created + 1) = { e with pid := t.nextPid } := by
      simp [Table.forked, Table.create, Table.insert, Table.modify, Table.pushReady, Table.nextPid]
    obtain ⟨hsame, hst⟩ := hp.resumes (t.created + 1)
    rw [hnew] at hsame hst
    have hst : (u.proc (t.created + 1)).status = .ready ∨ (u.proc (t.created + 1)).status = .running :=
      hst.imp_left fun h => h.trans hready
    refine Or.inr ⟨rfl, ?_, ?_, Or.inr ⟨rfl, r₀, hr, hsame.trans hdata⟩⟩
    · rcases hst with h | h <;> simp [h]
    · rcases hst with h | h <;> simp [h]
  · exact Or.inl ((Function.update_of_ne hn _ _).symm.trans hq)

/-- Who is in the table after a call was there before, or was created by it. -/
theorem Step.newcomer (hu : t.Step call u c') (hq : u.processes q = some r) :
    t.processes q = some r ∨ t.Newcomer call.1 u q r := by
  cases hu with
  | giveUp hg hp =>
      have hpick := (Names.pick hp).processes
      cases hg with
      | vfork hr hvm hready hexit hdata hvm' => exact newcomer_vfork hr hready hdata hp hq
      | exit => exact Or.inl (by rwa [hpick, processes_kill] at hq)
      | killSelf => exact Or.inl (by rwa [hpick, processes_kill] at hq)
      | @semBlock key c r d p sems =>
          have hblock := (Names.block (p := p)
            (t := (t.setSemaphores d.semaphores sems).modify r (Entry.save c))).processes
          exact Or.inl (by rwa [hpick, hblock] at hq)
      | _ => exact Or.inl (by rwa [hpick] at hq)
  | stay hs =>
      cases hs with
      | spawn hr hready => exact newcomer_spawn hready hq
      | kill => exact Or.inl (by rwa [processes_kill] at hq)
      | semWake => exact Or.inl (by rwa [(Names.wakeUp (t := t.setSemaphores _ _)).processes] at hq)
      | _ => exact Or.inl hq

end Table

variable {α : Type}

/-- A `signal` leaves the set of the current process as the set's `signal` does, and wakes the process
that was the first in the queue. -/
theorem semSignal_sets {B : Build} {k k' : Kernel α} {c c' : ProcessContext} {key : SemaphoreId}
    (h : Proc.semSignal B key c k = .ok (k', c')) :
    ∃ r d res sems, k.table.current = some r ∧ (k.table.proc r).procData = some d ∧
      (k.table.semaphoreSets d.semaphores).signal B key = .ok (res, sems) ∧
      k'.table.semaphoreSets d.semaphores = sems ∧
      ∀ q, res = .wakeUp q → k'.table = (k.table.setSemaphores d.semaphores sems).wakeUp none q := by
  simp only [Proc.semSignal] at h
  obtain ⟨i, hi, h⟩ := bind_eq_ok.mp h
  obtain ⟨r, d, hr, hd, rfl⟩ := Kernel.currentSemaphores_ok hi
  obtain ⟨⟨res, sems⟩, hsignal, h⟩ := bind_eq_ok.mp h
  have hself : (Proc.setSemaphores k d.semaphores sems).table.semaphoreSets d.semaphores = sems :=
    Function.update_self _ _ _
  refine ⟨r, d, res, sems, hr, hd, hsignal, ?_⟩
  cases res with
  | ok =>
      cases h
      exact ⟨hself, fun q hq => by cases hq⟩
  | notExist =>
      cases h
      exact ⟨hself, fun q hq => by cases hq⟩
  | wakeUp p =>
      cases h
      rw [Kernel.wakeUp_table, Table.semaphoreSets_wakeUp]
      refine ⟨hself, fun q hq => ?_⟩
      cases hq
      rfl
  | block p => cases h

/-! ### Steps of a thread -/

namespace Threads

variable {σ L : Type} {B : Build} {code : Code σ L} {s : State σ L} {p q : ProcessId}
  {key : SemaphoreId} {l : L} {sems : SemaphoreSet}

theorem step_access {f : σ → Except Panic (σ × L)} {x : σ} (hb : s.blocked p = false)
    (hc : code p (s.loc p) = .access f) (hf : f s.shared = .ok (x, l)) :
    step B code s p = .ok ({ s.goto p l with shared := x }, ()) := by
  rw [step, if_neg (Bool.eq_false_iff.mp hb), hc]
  dsimp only
  rw [hf]

theorem step_block (hb : s.blocked p = false) (hc : code p (s.loc p) = .wait key l)
    (hw : s.sems.wait key p = (.block q, sems)) :
    step B code s p = .ok ({ s with sems := sems }.block q, ()) := by
  rw [step, if_neg (Bool.eq_false_iff.mp hb), hc]
  dsimp only
  rw [hw]

theorem step_pass {res : SemaphoreResult} (hb : s.blocked p = false)
    (hc : code p (s.loc p) = .wait key l) (hw : s.sems.wait key p = (res, sems))
    (hres : ∀ q, res ≠ .block q) :
    step B code s p = .ok ({ s with sems := sems }.goto p l, ()) := by
  rw [step, if_neg (Bool.eq_false_iff.mp hb), hc]
  dsimp only
  rw [hw]
  cases res with
  | block q => exact absurd rfl (hres q)
  | _ => rfl

theorem step_post {res : SemaphoreResult} (hb : s.blocked p = false)
    (hc : code p (s.loc p) = .signal key l) (hw : s.sems.signal B key = .ok (res, sems))
    (hres : ∀ q, res ≠ .wakeUp q) :
    step B code s p = .ok ({ s with sems := sems }.goto p l, ()) := by
  rw [step, if_neg (Bool.eq_false_iff.mp hb), hc]
  dsimp only
  rw [hw]
  cases res with
  | wakeUp q => exact absurd rfl (hres q)
  | _ => rfl

theorem step_handOver {key' : SemaphoreId} {l' : L} (hb : s.blocked p = false)
    (hc : code p (s.loc p) = .signal key l) (hw : s.sems.signal B key = .ok (.wakeUp q, sems))
    (hne : q ≠ p) (hc' : code q (s.loc q) = .wait key' l') :
    step B code s p = .ok (({ s with sems := sems }.goto p l).wake q l', ()) := by
  have hloc : Function.update s.loc p l q = s.loc q := Function.update_of_ne hne _ _
  rw [step, if_neg (Bool.eq_false_iff.mp hb), hc]
  dsimp only
  rw [hw]
  dsimp only [State.goto]
  rw [hloc, hc']

end Threads

/-! ### A program on the kernel -/

/-- The kernel, the shared memory of a program and what its threads do next. -/
structure Machine (α σ L : Type) where
  kernel : Kernel α
  shared : σ
  loc : ProcessId → L

/-- A thread of the program accesses the shared memory or makes a call, or another process makes one. -/
inductive Event where
  | access (p : ProcessId)
  | call (p : ProcessId) (call : Call)
  | other (call : Call)

section Machine

open Threads

variable {σ L : Type}

/-- A thread makes a call of a semaphore when its program does, it exits at the end of the program,
and the clock and page faults interrupt it at any time. -/
def Performs : Action σ L → Op → Prop
  | .wait key _, .semWait key' => key = key'
  | .signal key _, .semSignal key' => key = key'
  | .exited, .processExit _ => True
  | _, .switch | _, .brk _ | _, .pageFault _ _ => True
  | _, _ => False

instance (a : Action σ L) (op : Op) : Decidable (Performs a op) := by
  cases a <;> cases op <;>
    first | exact isTrue trivial | exact isFalse id | exact inferInstanceAs (Decidable (_ = _))

/-- Where a thread goes on when a call returns. -/
def goesOn : Action σ L → Op → L → L
  | .wait _ l, .semWait _, _ => l
  | .signal _ l, .semSignal _, _ => l
  | _, _, l => l

/-- The call is that of the program, or it has nothing to do with semaphores. -/
theorem Performs.cases {a : Action σ L} {op : Op} (h : Performs a op) :
    (∃ key l, a = .wait key l ∧ op = .semWait key) ∨
    (∃ key l, a = .signal key l ∧ op = .semSignal key) ∨
    (∀ (t : Table) i, t.SparesSet i op) ∧ (∀ (t : Table) r, ¬ t.Blocks op r) ∧
      ∀ l, goesOn a op l = l := by
  cases op with
  | semWait key =>
      cases a with
      | wait key' l => exact Or.inl ⟨key', l, rfl, congrArg _ h.symm⟩
      | _ => exact h.elim
  | semSignal key =>
      cases a with
      | signal key' l => exact Or.inr (Or.inl ⟨key', l, rfl, congrArg _ h.symm⟩)
      | _ => exact h.elim
  | processExit ret =>
      refine Or.inr (Or.inr ⟨fun _ _ => trivial, fun _ _ => id, fun _ => ?_⟩)
      cases a <;> rfl
  | switch =>
      refine Or.inr (Or.inr ⟨fun _ _ => trivial, fun _ _ => id, fun _ => ?_⟩)
      cases a <;> rfl
  | brk addr =>
      refine Or.inr (Or.inr ⟨fun _ _ => trivial, fun _ _ => id, fun _ => ?_⟩)
      cases a <;> rfl
  | pageFault addr violation =>
      refine Or.inr (Or.inr ⟨fun _ _ => trivial, fun _ _ => id, fun _ => ?_⟩)
      cases a <;> rfl
  | _ => cases a <;> exact h.elim

/-- What the other processes do not do to the program: they do not kill its processes, they use other
semaphores, and its processes are forked by one that has its semaphores. -/
def Table.LeavesAlone (t : Table) (P : Finset ProcessId) (pid : ProcessId → ProcessId) (i : Ref)
    (op : Op) : Prop :=
  t.SparesSet i op ∧
  match op with
  | .kill q => ∀ p ∈ P, q ≠ pid p
  | .spawn _ => ∀ p ∈ P, t.nextPid ≠ pid p
  | .vfork => (∃ p ∈ P, t.nextPid = pid p) → t.UsesSet i
  | _ => True

instance (t : Table) (P : Finset ProcessId) (pid : ProcessId → ProcessId) (i : Ref) :
    ∀ op : Op, Decidable (t.LeavesAlone P pid i op)
  | .kill q => inferInstanceAs (Decidable (_ ∧ ∀ p ∈ P, q ≠ pid p))
  | .spawn _ => inferInstanceAs (Decidable (_ ∧ ∀ p ∈ P, t.nextPid ≠ pid p))
  | .vfork => inferInstanceAs (Decidable (_ ∧ ((∃ p ∈ P, t.nextPid = pid p) → t.UsesSet i)))
  | .switch | .processExit _ | .waitPid _ | .semNew _ _ | .removeSem _ | .semWait _ | .semSignal _
  | .brk _ | .pageFault _ _ => inferInstanceAs (Decidable (_ ∧ True))

variable [FrameAllocator α] (B : Build) (code : Code σ L)

/-- One step of the machine. -/
def Machine.step (m : Machine α σ L) : Event → Except Halt (Machine α σ L × Unit)
  | .access p =>
      match code p (m.loc p) with
      | .access f =>
          match f m.shared with
          | .error e => .error (.panic e)
          | .ok (x, l) => .ok ({ m with shared := x, loc := Function.update m.loc p l }, ())
      | _ => .error .notRunnable
  | .call p call =>
      match Ysos.step B m.kernel call with
      | .error e => .error (.panic e)
      | .ok (k, _) =>
          let l := goesOn (code p (m.loc p)) call.1 (m.loc p)
          .ok ({ m with kernel := k, loc := Function.update m.loc p l }, ())
  | .other call =>
      match Ysos.step B m.kernel call with
      | .error e => .error (.panic e)
      | .ok (k, _) => .ok ({ m with kernel := k }, ())

variable (P : Finset ProcessId) (pid : ProcessId → ProcessId) (i : Ref)

/-- The processes of the program follow it, and the others leave it alone. -/
def Plays (m : Machine α σ L) : Event → Machine α σ L → Prop
  | .access p, _ => p ∈ P ∧ m.kernel.processor = pid p
  | .call p call, m' => p ∈ P ∧ m.kernel.processor = pid p ∧ Performs (code p (m.loc p)) call.1 ∧
      KernelKept m.kernel call m'.kernel
  | .other call, m' => (∀ p ∈ P, m.kernel.processor ≠ pid p) ∧
      m.kernel.table.LeavesAlone P pid i call.1 ∧ KernelKept m.kernel call m'.kernel

instance (m : Machine α σ L) : ∀ e m', Decidable (Plays code P pid i m e m')
  | .access p, _ => inferInstanceAs (Decidable (p ∈ P ∧ m.kernel.processor = pid p))
  | .call p call, m' => inferInstanceAs (Decidable (p ∈ P ∧ m.kernel.processor = pid p ∧
      Performs (code p (m.loc p)) call.1 ∧ KernelKept m.kernel call m'.kernel))
  | .other call, m' => inferInstanceAs (Decidable ((∀ p ∈ P, m.kernel.processor ≠ pid p) ∧
      m.kernel.table.LeavesAlone P pid i call.1 ∧ KernelKept m.kernel call m'.kernel))

/-- The kernel runs the processes of the program, as far as they have been created. -/
structure Hosted (m : Machine α σ L) : Prop where
  regular : m.kernel.table.Regular
  schedOk : m.kernel.table.SchedOk
  made : i ≤ m.kernel.table.created
  data : ∀ p ∈ P, ∀ r, m.kernel.table.processes (pid p) = some r →
    ∀ d ∈ (m.kernel.table.proc r).procData, d.semaphores = i
  alive : ∀ p ∈ P, ∀ r, m.kernel.table.processes (pid p) = some r →
    (m.kernel.table.proc r).status = .dead → code p (m.loc p) = .exited

/-- The machine and the threads have the same shared memory, the same semaphores and the same blocked
processes.  A blocked thread is before the call that its process is in. -/
structure Linked (m : Machine α σ L) (T : State σ L) : Prop where
  shared : T.shared = m.shared
  sems : m.kernel.table.semaphoreSets i = T.sems.rename pid
  loc : ∀ p, T.blocked p = false → T.loc p = m.loc p
  blocked : ∀ p, T.blocked p = true ↔ ∃ key, p ∈ T.sems.queue key
  waits : ∀ p key, p ∈ T.sems.queue key → p ∈ P ∧ code p (T.loc p) = .wait key (m.loc p)
  parked : ∀ p ∈ P, ∀ r, m.kernel.table.processes (pid p) = some r →
    (m.kernel.table.proc r).status = .blocked → T.blocked p = true

variable {B} {code} {P} {pid} {i} {m m' : Machine α σ L} {T : State σ L} {p : ProcessId} {e : Event}
  {u : Unit} {call : Call} {c' : ProcessContext} {k' : Kernel α} {loc' : ProcessId → L}

/-- The processes of the program that a call kills have come to its end, and those that it creates
have the semaphores. -/
structure Respects (code : Code σ L) (P : Finset ProcessId) (pid : ProcessId → ProcessId) (i : Ref)
    (m : Machine α σ L) (op : Op) : Prop where
  kills : ∀ p ∈ P, m.kernel.table.Kills (pid p) op → code p (m.loc p) = .exited
  spawn : ∀ p ∈ P, ∀ name, op = .spawn name → m.kernel.table.nextPid ≠ pid p
  vfork : ∀ p ∈ P, op = .vfork → m.kernel.table.nextPid = pid p → m.kernel.table.UsesSet i

omit [FrameAllocator α] in
theorem Respects.performs (hinj : Set.InjOn pid P) (hp : p ∈ P) (hcur : m.kernel.processor = pid p)
    {op : Op} (hop : Performs (code p (m.loc p)) op) : Respects code P pid i m op := by
  refine ⟨fun q hq hkills => ?_, fun q hq name he => ?_, fun q hq he => ?_⟩
  · cases op with
    | kill w => cases hc : code p (m.loc p) <;> rw [hc] at hop <;> exact hop.elim
    | processExit ret =>
        obtain rfl := hinj hq hp (hkills.symm.trans hcur)
        cases hc : code q (m.loc q) with
        | exited => rfl
        | wait key l => rw [hc] at hop; exact hop.elim
        | signal key l => rw [hc] at hop; exact hop.elim
        | access f => rw [hc] at hop; exact hop.elim
    | _ => exact hkills.elim
  · subst he
    cases hc : code p (m.loc p) <;> rw [hc] at hop <;> exact hop.elim
  · subst he
    cases hc : code p (m.loc p) <;> rw [hc] at hop <;> exact hop.elim

omit [FrameAllocator α] in
theorem Respects.leaves (hcur : ∀ p ∈ P, m.kernel.processor ≠ pid p) {op : Op}
    (hop : m.kernel.table.LeavesAlone P pid i op) : Respects code P pid i m op := by
  refine ⟨fun q hq hkills => ?_, fun q hq name he => ?_, fun q hq he hnext => ?_⟩
  · cases op with
    | kill w => exact absurd hkills (hop.2 q hq)
    | processExit ret => exact absurd hkills (hcur q hq)
    | _ => exact hkills.elim
  · subst he
    exact hop.2 q hq
  · subst he
    exact hop.2 ⟨q, hq, hnext⟩

/-- A call that respects the program leaves its processes in the kernel. -/
theorem Hosted.of_call (h : Hosted code P pid i m) (hstep : Ysos.step B m.kernel call = .ok (k', c'))
    (hkept : KernelKept m.kernel call k') (hop : Respects code P pid i m call.1)
    (hloc : ∀ p ∈ P, code p (m.loc p) = .exited → loc' p = m.loc p) :
    Hosted code P pid i { m with kernel := k', loc := loc' } := by
  have hk := h.regular.numbered.keyed
  have ht := step_table hk hstep
  have hmarks := ht.marks hk
  refine ⟨ht.regular h.regular hkept.2, ht.schedOk h.regular h.schedOk hkept.1 hkept.2,
    h.made.trans hmarks.created, fun p hp r hr d hd => ?_, fun p hp r hr hdead => ?_⟩
  · rcases ht.newcomer hr with hold | hnew
    · exact h.data p hp r hold d (hmarks.data r (hk _ r hold).1 d hd)
    · rcases hnew.origin with ⟨name, hname⟩ | ⟨hfork, r₀, hr₀, hsame⟩
      · exact absurd hnew.pid.symm (hop.spawn p hp name hname)
      · obtain ⟨r₁, hr₁, d₁, hd₁, rfl⟩ := hop.vfork p hp hfork hnew.pid.symm
        obtain rfl : r₁ = r₀ := Option.some.inj (hr₁.symm.trans hr₀)
        rw [hsame] at hd
        rw [Option.some.inj (hd.symm.trans hd₁)]
  · rcases ht.newcomer hr with hold | hnew
    · have hex : code p (m.loc p) = .exited := by
        rcases ht.dies r hdead with hd | ⟨q, hq, hqr⟩
        · exact h.alive p hp r hold hd
        · exact hop.kills p hp (hk.key_unique hold hqr ▸ hq)
      exact (congrArg (code p) (hloc p hp hex)).trans hex
    · exact absurd hdead hnew.dead

namespace Linked

omit [FrameAllocator α] in
theorem semQueue (h : Linked code P pid i m T) (key : SemaphoreId) :
    m.kernel.table.semQueue i key = (T.sems.queue key).map pid := by
  rw [← SemaphoreSet.queue_rename, ← h.sems]
  rfl

omit [FrameAllocator α] in
theorem running (h : Linked code P pid i m T) (hh : Hosted code P pid i m)
    (hcur : m.kernel.processor = pid p) : T.blocked p = false := by
  by_contra hb
  obtain ⟨key, hmem⟩ := (h.blocked p).mp (by simpa using hb)
  have hnot := (Sched.Ok.run_notMem hh.schedOk).2 (.sem i key)
  refine hnot ?_
  show m.kernel.processor ∈ (↑(m.kernel.table.semQueue i key) : Multiset ProcessId)
  rw [h.semQueue, hcur]
  exact List.mem_map_of_mem hmem

omit [FrameAllocator α] in
theorem nodup (h : Linked code P pid i m T) (hh : Hosted code P pid i m) {key : SemaphoreId}
    {rest : List ProcessId} (hq : T.sems.queue key = p :: rest) : p ∉ rest := by
  have hwait : m.kernel.table.waitingAt (.sem i key) = ((T.sems.queue key).map pid : List ProcessId) :=
    congrArg _ (h.semQueue key)
  have hmem : pid p ∈ m.kernel.table.waitingAt (.sem i key) := by
    rw [hwait, hq]
    exact List.mem_map_of_mem List.mem_cons_self
  have hone := (Sched.Ok.waiting_situation (a := .sem i key) hh.schedOk hmem).2.2.2.1
  rw [show m.kernel.table.view.waiting (.sem i key) = _ from hwait, Multiset.coe_count, hq] at hone
  have hle := List.count_le_count_map (f := pid) (x := p) (l := p :: rest)
  intro hin
  have hpos := List.count_pos_iff.mpr hin
  rw [List.count_cons_self] at hle
  omega

omit [FrameAllocator α] in
/-- A process of the program that is blocked after a call was blocked before, or made the call. -/
theorem parked_before (h : Linked code P pid i m T) (hh : Hosted code P pid i m)
    (ht : m.kernel.table.Step call k'.table c') (hp : p ∈ P) {r : Ref}
    (hr : k'.table.processes (pid p) = some r) (hb : (k'.table.proc r).status = .blocked) :
    T.blocked p = true ∨ m.kernel.table.Blocks call.1 r ∧ m.kernel.processor = pid p := by
  have hk := hh.regular.numbered.keyed
  rcases ht.newcomer hr with hold | hnew
  · rcases (ht.marks hk).blocked r (hk _ r hold).1 hb with hbefore | hblocks
    · exact Or.inl (h.parked p hp r hold hbefore)
    · have hcur : m.kernel.table.current = some r := by
        obtain ⟨op, c⟩ := call
        cases op with
        | waitPid q => exact hblocks
        | semWait key => exact hblocks
        | _ => exact hblocks.elim
      exact Or.inr ⟨hblocks, hk.key_unique hold (Table.current_iff.mp hcur).2⟩
  · exact absurd hb hnew.blocked

omit [FrameAllocator α] in
theorem not_blocked {t : Table} (hok : t.SchedOk) {r : Ref} (hr : t.processes t.processor = some r) :
    (t.proc r).status ≠ .blocked := by
  intro hb
  have hst : t.view.status t.processor = some .blocked := hb ▸ Table.read_eq hr
  cases hok.situation t.processor with
  | onCpu _ h => rw [hst] at h; simp at h
  | queued h => exact h rfl
  | waiting _ h => exact h rfl
  | off h => exact h rfl

omit [FrameAllocator α] in
/-- The semaphores stay, and no thread blocks. -/
theorem of_spared (h : Linked code P pid i m T) (hh : Hosted code P pid i m)
    (ht : m.kernel.table.Step call k'.table c') (hspare : m.kernel.table.SparesSet i call.1)
    (hcur : ∀ p ∈ P, m.kernel.processor = pid p → ∀ r, ¬ m.kernel.table.Blocks call.1 r) :
    Linked code P pid i { m with kernel := k' } T := by
  refine ⟨h.shared, (ht.spares hh.made hspare).trans h.sems, h.loc, h.blocked, h.waits,
    fun p hp r hr hb => ?_⟩
  exact (h.parked_before hh ht hp hr hb).resolve_right fun hc => hcur p hp hc.2 r hc.1

variable {key : SemaphoreId} {l : L} {sems : SemaphoreSet}

omit [FrameAllocator α] in
theorem goto (h : Linked code P pid i m T) (hb : T.blocked p = false)
    (hset : k'.table.semaphoreSets i = sems.rename pid)
    (hsame : ∀ k, (sems k).map Semaphore.waitQueue = (T.sems k).map Semaphore.waitQueue)
    (hparked : ∀ q ∈ P, ∀ r, k'.table.processes (pid q) = some r →
      (k'.table.proc r).status = .blocked → T.blocked q = true) :
    Linked code P pid i { m with kernel := k', loc := Function.update m.loc p l }
      ({ T with sems := sems }.goto p l) := by
  have hqueue := SemaphoreSet.queue_same hsame
  have hother : ∀ q, T.blocked q = true → q ≠ p := fun q hq he => by
    rw [he, hb] at hq
    cases hq
  refine ⟨h.shared, hset, fun q hq => ?_, fun q => ?_, fun q key hq => ?_, hparked⟩
  · show Function.update T.loc p l q = Function.update m.loc p l q
    by_cases hqp : q = p
    · rw [hqp, Function.update_self, Function.update_self]
    · rw [Function.update_of_ne hqp, Function.update_of_ne hqp]
      exact h.loc q hq
  · show T.blocked q = true ↔ ∃ k, q ∈ sems.queue k
    rw [h.blocked]
    exact exists_congr fun k => by rw [hqueue]
  · change q ∈ sems.queue key at hq
    rw [hqueue] at hq
    have hqp := hother q ((h.blocked q).mpr ⟨key, hq⟩)
    obtain ⟨hP, hc⟩ := h.waits q key hq
    refine ⟨hP, ?_⟩
    show code q (Function.update T.loc p l q) = .wait key (Function.update m.loc p l q)
    rwa [Function.update_of_ne hqp, Function.update_of_ne hqp]

omit [FrameAllocator α] in
theorem block {sem : Semaphore} (h : Linked code P pid i m T) (hp : p ∈ P) (hb : T.blocked p = false)
    (hcode : code p (m.loc p) = .wait key l) (hsem : T.sems key = some sem)
    (hset : k'.table.semaphoreSets i = SemaphoreSet.rename pid (Function.update T.sems key
      (some { sem with waitQueue := sem.waitQueue ++ [p] })))
    (hparked : ∀ q ∈ P, ∀ r, k'.table.processes (pid q) = some r →
      (k'.table.proc r).status = .blocked → T.blocked q = true ∨ q = p) :
    Linked code P pid i { m with kernel := k', loc := Function.update m.loc p l }
      ((T.setSem key { sem with waitQueue := sem.waitQueue ++ [p] }).block p) := by
  have hself : T.sems.queue key = sem.waitQueue := by rw [SemaphoreSet.queue, hsem]; rfl
  have hqueue : ∀ k q, q ∈ SemaphoreSet.queue (Function.update T.sems key
      (some { sem with waitQueue := sem.waitQueue ++ [p] })) k ↔
        q ∈ T.sems.queue k ∨ k = key ∧ q = p := fun k q => by
    rw [SemaphoreSet.queue_update]
    split_ifs with hk
    · subst hk
      rw [hself, List.mem_append, List.mem_singleton]
      simp
    · simp [hk]
  have hother : ∀ q, T.blocked q = true → q ≠ p := fun q hq he => by
    rw [he, hb] at hq
    cases hq
  refine ⟨h.shared, hset, fun q hq => ?_, fun q => ?_, fun q k hq => ?_, fun q hP r hr hst => ?_⟩
  · by_cases hqp : q = p
    · subst hqp
      exact absurd (hq.symm.trans (Function.update_self _ _ _)) Bool.false_ne_true
    · show T.loc q = Function.update m.loc p l q
      rw [Function.update_of_ne hqp]
      exact h.loc q ((Function.update_of_ne hqp _ _).symm.trans hq)
  · by_cases hqp : q = p
    · subst hqp
      exact iff_of_true (Function.update_self _ _ _) ⟨key, (hqueue key q).mpr (Or.inr ⟨rfl, rfl⟩)⟩
    · show Function.update T.blocked p true q = true ↔ ∃ k, q ∈ SemaphoreSet.queue _ k
      rw [Function.update_of_ne hqp, h.blocked]
      refine exists_congr fun k => ((hqueue k q).trans ?_).symm
      simp [hqp]
  · rcases (hqueue k q).mp hq with hold | ⟨rfl, rfl⟩
    · obtain ⟨hP, hc⟩ := h.waits q k hold
      refine ⟨hP, ?_⟩
      show code q (T.loc q) = .wait k (Function.update m.loc p l q)
      rwa [Function.update_of_ne (hother q ((h.blocked q).mpr ⟨k, hold⟩))]
    · refine ⟨hp, ?_⟩
      show code q (T.loc q) = .wait k (Function.update m.loc q l q)
      rw [Function.update_self, h.loc q hb, hcode]
  · by_cases hqp : q = p
    · subst hqp
      exact Function.update_self _ _ _
    · exact (Function.update_of_ne hqp _ _).trans ((hparked q hP r hr hst).resolve_right hqp)

omit [FrameAllocator α] in
theorem wake {sem : Semaphore} {q : ProcessId} {rest : List ProcessId} (h : Linked code P pid i m T)
    (hb : T.blocked p = false) (hsem : T.sems key = some sem) (hq : sem.waitQueue = q :: rest)
    (hnodup : q ∉ rest) (hset : k'.table.semaphoreSets i =
      SemaphoreSet.rename pid (Function.update T.sems key (some { sem with waitQueue := rest })))
    (hparked : ∀ q' ∈ P, ∀ r, k'.table.processes (pid q') = some r →
      (k'.table.proc r).status = .blocked → T.blocked q' = true ∧ q' ≠ q) :
    Linked code P pid i { m with kernel := k', loc := Function.update m.loc p l }
      (((T.setSem key { sem with waitQueue := rest }).goto p l).wake q (m.loc q)) := by
  have hself : T.sems.queue key = q :: rest := by rw [SemaphoreSet.queue, hsem, ← hq]; rfl
  have hcode := (h.waits q key (hself ▸ List.mem_cons_self)).2
  have hqueue : ∀ k w, w ∈ SemaphoreSet.queue (Function.update T.sems key
      (some { sem with waitQueue := rest })) k ↔ w ∈ T.sems.queue k ∧ w ≠ q := fun k w => by
    rw [SemaphoreSet.queue_update]
    split_ifs with hk
    · subst hk
      rw [hself, List.mem_cons]
      constructor
      · exact fun hw => ⟨Or.inr hw, fun he => hnodup (he ▸ hw)⟩
      · exact fun hw => hw.1.resolve_left hw.2
    · refine ⟨fun hw => ⟨hw, fun he => hk ?_⟩, And.left⟩
      subst he
      have hc := (h.waits w k hw).2
      rw [hcode] at hc
      cases hc
      rfl
  have hother : ∀ w, T.blocked w = true → w ≠ p := fun w hw he => by
    rw [he, hb] at hw
    cases hw
  have hqp : q ≠ p := hother q ((h.blocked q).mpr ⟨key, hself ▸ List.mem_cons_self⟩)
  refine ⟨h.shared, hset, fun w hw => ?_, fun w => ?_, fun w k hw => ?_, fun w hP r hr hst => ?_⟩
  · show Function.update (Function.update T.loc p l) q (m.loc q) w = Function.update m.loc p l w
    by_cases hwq : w = q
    · subst hwq
      rw [Function.update_self, Function.update_of_ne hqp]
    · rw [Function.update_of_ne hwq]
      by_cases hwp : w = p
      · rw [hwp, Function.update_self, Function.update_self]
      · rw [Function.update_of_ne hwp, Function.update_of_ne hwp]
        exact h.loc w ((Function.update_of_ne hwq _ _).symm.trans hw)
  · show Function.update T.blocked q false w = true ↔ ∃ k, w ∈ SemaphoreSet.queue _ k
    by_cases hwq : w = q
    · subst hwq
      rw [Function.update_self]
      exact iff_of_false Bool.false_ne_true fun ⟨k, hk⟩ => ((hqueue k w).mp hk).2 rfl
    · rw [Function.update_of_ne hwq, h.blocked]
      exact exists_congr fun k => ((hqueue k w).trans (and_iff_left hwq)).symm
  · obtain ⟨hold, hwq⟩ := (hqueue k w).mp hw
    obtain ⟨hP, hc⟩ := h.waits w k hold
    have hwp := hother w ((h.blocked w).mpr ⟨k, hold⟩)
    refine ⟨hP, ?_⟩
    show code w (Function.update (Function.update T.loc p l) q (m.loc q) w) =
      .wait k (Function.update m.loc p l w)
    rwa [Function.update_of_ne hwq, Function.update_of_ne hwp, Function.update_of_ne hwp]
  · obtain ⟨hbefore, hwq⟩ := hparked w hP r hr hst
    exact (Function.update_of_ne hwq _ _).trans hbefore

theorem semWait {c : ProcessContext} (h : Linked code P pid i m T) (hh : Hosted code P pid i m)
    (hinj : Set.InjOn pid P) (hp : p ∈ P) (hcur : m.kernel.processor = pid p)
    (hcode : code p (m.loc p) = .wait key l)
    (hstep : Ysos.step B m.kernel (.semWait key, c) = .ok (k', c'))
    (hkept : KernelKept m.kernel (.semWait key, c) k') : ∃ T', Threads.step B code T p = .ok (T', ()) ∧
      Linked code P pid i { m with kernel := k', loc := Function.update m.loc p l } T' := by
  have hk := hh.regular.numbered.keyed
  have ht := step_table hk hstep
  have hb := h.running hh hcur
  have hcodeT : code p (T.loc p) = .wait key l := (congrArg (code p) (h.loc p hb)).trans hcode
  have hmine : ∀ q ∈ P, m.kernel.processor = pid q → q = p := fun q hq he =>
    hinj hq hp (he.symm.trans hcur)
  obtain ⟨r, d, hr, hd, hset, hcpu⟩ := ht.semWait_sets
  have hpr : m.kernel.table.processes (pid p) = some r := hcur ▸ (Table.current_iff.mp hr).2
  have hi : d.semaphores = i := hh.data p hp r hpr d hd
  rw [hi, hk.current_pid hr, show m.kernel.table.processor = pid p from hcur, h.sems,
    SemaphoreSet.wait_rename] at hset hcpu
  rcases hw : T.sems.wait key p with ⟨res, sems⟩
  rw [hw] at hset hcpu
  by_cases hres : ∀ q, res ≠ .block q
  · obtain hproc : k'.table.processor = pid p := hcpu fun q hq => by
      cases res with
      | block w => exact hres w rfl
      | _ => cases hq
    refine ⟨_, Threads.step_pass hb hcodeT hw hres, h.goto hb hset (SemaphoreSet.wait_other hw hres) ?_⟩
    intro q hq r' hr' hst
    refine (h.parked_before hh ht hq hr' hst).resolve_right fun hc => ?_
    obtain rfl := hmine q hq hc.2
    exact not_blocked (ht.schedOk hh.regular hh.schedOk hkept.1 hkept.2) (hproc ▸ hr') hst
  · obtain ⟨q, rfl⟩ : ∃ q, res = .block q := by simpa using hres
    obtain ⟨rfl, sem, hsem, -, rfl⟩ := SemaphoreSet.wait_block hw
    refine ⟨_, Threads.step_block hb hcodeT hw, h.block hp hb hcode hsem hset ?_⟩
    intro q' hq' r' hr' hst
    exact (h.parked_before hh ht hq' hr' hst).imp_right fun hc => hmine q' hq' hc.2

theorem semSignal {c : ProcessContext} (h : Linked code P pid i m T) (hh : Hosted code P pid i m)
    (hp : p ∈ P) (hcur : m.kernel.processor = pid p)
    (hcode : code p (m.loc p) = .signal key l)
    (hstep : Ysos.step B m.kernel (.semSignal key, c) = .ok (k', c')) :
    ∃ T', Threads.step B code T p = .ok (T', ()) ∧
      Linked code P pid i { m with kernel := k', loc := Function.update m.loc p l } T' := by
  have hk := hh.regular.numbered.keyed
  have ht := step_table hk hstep
  have hb := h.running hh hcur
  have hcodeT : code p (T.loc p) = .signal key l := (congrArg (code p) (h.loc p hb)).trans hcode
  have hbefore : ∀ q ∈ P, ∀ r, k'.table.processes (pid q) = some r →
      (k'.table.proc r).status = .blocked → T.blocked q = true := fun q hq r' hr' hst =>
    (h.parked_before hh ht hq hr' hst).resolve_right fun hc => hc.1
  obtain ⟨r, d, res₀, sems₀, hr, hd, hsig, hset, hwoken⟩ := semSignal_sets hstep
  have hpr : m.kernel.table.processes (pid p) = some r := hcur ▸ (Table.current_iff.mp hr).2
  have hi : d.semaphores = i := hh.data p hp r hpr d hd
  rw [hi, h.sems, SemaphoreSet.signal_rename] at hsig
  rw [hi] at hset hwoken
  cases hw : T.sems.signal B key with
  | error e =>
      rw [hw] at hsig
      cases hsig
  | ok result =>
      obtain ⟨res, sems⟩ := result
      rw [hw] at hsig
      obtain ⟨rfl, rfl⟩ := Prod.mk.inj (Except.ok.inj hsig)
      by_cases hres : ∀ q, res ≠ .wakeUp q
      · exact ⟨_, Threads.step_post hb hcodeT hw hres,
          h.goto hb hset (SemaphoreSet.signal_other hw hres) hbefore⟩
      · obtain ⟨q, rfl⟩ : ∃ q, res = .wakeUp q := by simpa using hres
        obtain ⟨sem, rest, hsem, hq, rfl⟩ := SemaphoreSet.signal_wakeUp hw
        have hself : T.sems.queue key = q :: rest := by rw [SemaphoreSet.queue, hsem, ← hq]; rfl
        have hmem : q ∈ T.sems.queue key := hself ▸ List.mem_cons_self
        obtain ⟨hqP, hcq⟩ := h.waits q key hmem
        have hne : q ≠ p := fun he => by
          have hbq := (h.blocked q).mpr ⟨key, hmem⟩
          rw [he, hb] at hbq
          cases hbq
        refine ⟨_, Threads.step_handOver hb hcodeT hw hne hcq, h.wake hb hsem hq (h.nodup hh hself) hset ?_⟩
        intro w hwP r' hr' hst
        refine ⟨hbefore w hwP r' hr' hst, fun he => ?_⟩
        subst he
        rw [hwoken _ rfl] at hr' hst
        rw [(Table.Names.wakeUp (t := m.kernel.table.setSemaphores i _)).processes] at hr'
        rw [Table.wakeUp_some hr'] at hst
        simp [Table.modify, Table.pushReady, Entry.wake] at hst

/-- A call of a thread is a step of the threads if it is one of a semaphore. -/
theorem of_call {cl : Call} (h : Linked code P pid i m T) (hh : Hosted code P pid i m)
    (hinj : Set.InjOn pid P) (hp : p ∈ P) (hcur : m.kernel.processor = pid p)
    (hop : Performs (code p (m.loc p)) cl.1) (hstep : Ysos.step B m.kernel cl = .ok (k', c'))
    (hkept : KernelKept m.kernel cl k') :
    ∃ T', (T' = T ∨ ∃ p, Threads.step B code T p = .ok (T', ())) ∧ Linked code P pid i
      { m with
        kernel := k'
        loc := Function.update m.loc p (goesOn (code p (m.loc p)) cl.1 (m.loc p)) } T' := by
  obtain ⟨op, c⟩ := cl
  rcases hop.cases with ⟨key, l, hcode, hop⟩ | ⟨key, l, hcode, hop⟩ | ⟨hspare, hblocks, hloc⟩
  · obtain rfl : op = .semWait key := hop
    rw [hcode]
    obtain ⟨T', hT, hl⟩ := h.semWait hh hinj hp hcur hcode hstep hkept
    exact ⟨T', Or.inr ⟨p, hT⟩, hl⟩
  · obtain rfl : op = .semSignal key := hop
    rw [hcode]
    obtain ⟨T', hT, hl⟩ := h.semSignal hh hp hcur hcode hstep
    exact ⟨T', Or.inr ⟨p, hT⟩, hl⟩
  · have ht := step_table hh.regular.numbered.keyed hstep
    rw [hloc, Function.update_eq_self]
    exact ⟨T, Or.inl rfl, h.of_spared hh ht (hspare _ i) fun _ _ _ => hblocks _⟩

/-- **A step of the machine** is a step of the threads, or none. -/
theorem step (h : Linked code P pid i m T) (hh : Hosted code P pid i m) (hinj : Set.InjOn pid P)
    (hstep : m.step B code e = .ok (m', u)) (hC : Plays code P pid i m e m') :
    (∃ T', (T' = T ∨ ∃ p, Threads.step B code T p = .ok (T', ())) ∧ Linked code P pid i m' T') ∧
      Hosted code P pid i m' := by
  cases e with
  | access p =>
      obtain ⟨hp, hcur⟩ := hC
      have hb := h.running hh hcur
      simp only [Machine.step] at hstep
      cases hcode : code p (m.loc p) with
      | access f =>
          rw [hcode] at hstep
          dsimp only at hstep
          cases hf : f m.shared with
          | error e =>
              rw [hf] at hstep
              cases hstep
          | ok x =>
              obtain ⟨x, l⟩ := x
              rw [hf] at hstep
              cases hstep
              have hcodeT : code p (T.loc p) = .access f := (congrArg (code p) (h.loc p hb)).trans hcode
              have hlinked : Linked code P pid i { m with loc := Function.update m.loc p l } (T.goto p l) :=
                h.goto hb h.sems (fun _ => rfl) h.parked
              refine ⟨⟨_, Or.inr ⟨p, Threads.step_access hb hcodeT (h.shared.symm ▸ hf)⟩, ?_⟩, ?_⟩
              · exact ⟨rfl, hlinked.sems, hlinked.loc, hlinked.blocked, hlinked.waits, hlinked.parked⟩
              · refine ⟨hh.regular, hh.schedOk, hh.made, hh.data, fun q hq r hr hdead => ?_⟩
                have hex := hh.alive q hq r hr hdead
                have hqp : q ≠ p := fun he => by
                  rw [he, hcode] at hex
                  cases hex
                show code q (Function.update m.loc p l q) = .exited
                rwa [Function.update_of_ne hqp]
      | wait key l =>
          rw [hcode] at hstep
          cases hstep
      | signal key l =>
          rw [hcode] at hstep
          cases hstep
      | exited =>
          rw [hcode] at hstep
          cases hstep
  | call p cl =>
      obtain ⟨hp, hcur, hop, hkept⟩ := hC
      simp only [Machine.step] at hstep
      rcases hcall : Ysos.step B m.kernel cl with e | ⟨k', c'⟩
      · rw [hcall] at hstep
        cases hstep
      · rw [hcall] at hstep
        cases hstep
        refine ⟨h.of_call hh hinj hp hcur hop hcall hkept, hh.of_call hcall hkept
          (.performs hinj hp hcur hop) fun q _ hex => ?_⟩
        by_cases hqp : q = p
        · subst hqp
          rw [Function.update_self, hex]
          rfl
        · exact Function.update_of_ne hqp _ _
  | other cl =>
      obtain ⟨hcur, hop, hkept⟩ := hC
      simp only [Machine.step] at hstep
      rcases hcall : Ysos.step B m.kernel cl with e | ⟨k', c'⟩
      · rw [hcall] at hstep
        cases hstep
      · rw [hcall] at hstep
        cases hstep
        have ht := step_table hh.regular.numbered.keyed hcall
        refine ⟨⟨T, Or.inl rfl, h.of_spared hh ht hop.1 fun p hp hc => absurd hc (hcur p hp)⟩, ?_⟩
        exact hh.of_call hcall hkept (.leaves hcur hop) fun _ _ _ => rfl

end Linked

/-! ### Runs -/

variable (B P pid i) in
/-- The kernel has made the semaphores, and no thread has made a call. -/
structure Launched (m : Machine α σ L) : Prop where
  reached : ∃ b : BootInfo α, Run (Ysos.step B) KernelKept (boot b) m.kernel
  made : i ≤ m.kernel.created
  fresh : Fresh (m.kernel.semaphoreSets i)
  data : ∀ p ∈ P, ∀ r, m.kernel.getProc (pid p) = some r →
    ∀ d ∈ (m.kernel.heap r).inner.procData, d.semaphores = i
  able : ∀ p ∈ P, ∀ r, m.kernel.getProc (pid p) = some r →
    (m.kernel.heap r).inner.status ≠ .blocked ∧ (m.kernel.heap r).inner.status ≠ .dead

theorem Launched.of_unborn (hreached : ∃ b : BootInfo α, Run (Ysos.step B) KernelKept (boot b) m.kernel)
    (hmade : i ≤ m.kernel.created) (hfresh : Fresh (m.kernel.semaphoreSets i))
    (hnone : ∀ p ∈ P, m.kernel.getProc (pid p) = none) : Launched B P pid i m := by
  refine ⟨hreached, hmade, hfresh, fun p hp r hr => ?_, fun p hp r hr => ?_⟩
  · rw [hnone p hp] at hr
    cases hr
  · rw [hnone p hp] at hr
    cases hr

/-- The threads of a machine in which none is blocked. -/
def Machine.threads (m : Machine α σ L) (i : Ref) : State σ L where
  sems := m.kernel.semaphoreSets i
  shared := m.shared
  loc := m.loc
  blocked := fun _ => false

theorem Launched.hosted (h : Launched B P pid i m) : Hosted code P pid i m := by
  obtain ⟨b, hb⟩ := h.reached
  obtain ⟨hreg, hok⟩ := run_schedOk hb
  exact ⟨hreg, hok, h.made, h.data, fun p hp r hr hdead => absurd hdead (h.able p hp r hr).2⟩

theorem Launched.linked (h : Launched B P pid i m) : Linked code P pid i m (m.threads i) := by
  have hempty : ∀ key, (m.threads i).sems.queue key = [] := fun key => by
    unfold SemaphoreSet.queue
    cases hsem : (m.threads i).sems key with
    | none => rfl
    | some sem => exact h.fresh key sem hsem
  refine ⟨rfl, (SemaphoreSet.rename_fresh h.fresh).symm, fun _ _ => rfl, fun p => ?_, fun p key hp => ?_,
    fun p hp r hr hb => absurd hb (h.able p hp r hr).1⟩
  · refine iff_of_false Bool.false_ne_true fun ⟨key, hmem⟩ => ?_
    rw [hempty] at hmem
    cases hmem
  · rw [hempty] at hp
    cases hp

variable {m₀ : Machine α σ L}

theorem run_linked (hinj : Set.InjOn pid P) (h0 : Launched B P pid i m₀)
    (hrun : Run (Machine.step B code) (Plays code P pid i) m₀ m) :
    ∃ T, Run (Threads.step B code) Any (m₀.threads i) T ∧ Linked code P pid i m T ∧
      Hosted code P pid i m := by
  refine hrun.simulates (R := fun m T => Linked code P pid i m T ∧ Hosted code P pid i m)
    ⟨h0.linked, h0.hosted⟩ ?_
  rintro m e m' u T ⟨hl, hh⟩ hstep hC
  obtain ⟨⟨T', hT, hl'⟩, hh'⟩ := hl.step hh hinj hstep hC
  rcases hT with rfl | ⟨p, hT⟩
  · exact ⟨_, .refl, hl', hh'⟩
  · exact ⟨T', .single ⟨p, (), hT, trivial⟩, hl', hh'⟩

omit [FrameAllocator α] in
/-- A thread that is not blocked and not at its end has the processor or is in the ready queue. -/
theorem Linked.scheduled (h : Linked code P pid i m T) (hh : Hosted code P pid i m) (hp : p ∈ P) {r : Ref}
    (hr : m.kernel.getProc (pid p) = some r) (hb : T.blocked p = false)
    (hne : code p (m.loc p) ≠ .exited) : pid p = m.kernel.processor ∨
      pid p ∈ m.kernel.readyQueue ∧ (m.kernel.heap r).inner.status = .ready := by
  have hst : m.kernel.table.view.status (pid p) = some (m.kernel.heap r).inner.status :=
    Table.read_eq (t := m.kernel.table) hr
  have hblocked : (m.kernel.heap r).inner.status ≠ .blocked := fun he => by
    rw [h.parked p hp r hr he] at hb
    cases hb
  have hdead : (m.kernel.heap r).inner.status ≠ .dead := fun he => hne (hh.alive p hp r hr he)
  cases hh.schedOk.situation (pid p) with
  | onCpu hrun => exact Or.inl (Option.some.inj hrun).symm
  | queued _ hs hready =>
      rw [hst] at hs
      refine Or.inr ⟨List.count_pos_iff.mp (hready ▸ Nat.one_pos), ?_⟩
      exact (hs.imp Option.some.inj Option.some.inj).resolve_right hdead
  | waiting a _ hs =>
      rw [hst] at hs
      exact ((hs.imp Option.some.inj Option.some.inj).elim hblocked hdead).elim
  | off _ hs =>
      rw [hst] at hs
      rcases hs with hs | hs | hs
      · cases hs
      · exact absurd (Option.some.inj hs) hblocked
      · exact absurd (Option.some.inj hs) hdead

/-- **Programs on the kernel.**  Whenever the clock interrupts, and whatever calls the other processes
make, as long as they leave the program alone (`Table.LeavesAlone`) and the kernel process runs on
(`KernelKept`), the state of a program is one that its threads reach by themselves: its memory and its
semaphores are the same, a thread that is not blocked is where its process is, and a blocked one is in a
call of `wait`, with its process in the queue.  A thread whose process exists and which is not blocked
and not at its end has the processor or waits for it in the ready queue. -/
theorem programs_refine (hinj : Set.InjOn pid P) (h0 : Launched B P pid i m₀)
    (hrun : Run (Machine.step B code) (Plays code P pid i) m₀ m) :
    ∃ T, Run (Threads.step B code) Any (m₀.threads i) T ∧
      T.shared = m.shared ∧ m.kernel.semaphoreSets i = T.sems.rename pid ∧
      (∀ p, T.blocked p = false → T.loc p = m.loc p) ∧
      (∀ p, T.blocked p = true → p ∈ P ∧ ∃ key, code p (T.loc p) = .wait key (m.loc p) ∧
        pid p ∈ (m.kernel.semaphoreSets i).queue key) ∧
      ∀ p ∈ P, ∀ r, m.kernel.getProc (pid p) = some r → T.blocked p = false →
        code p (m.loc p) ≠ .exited → pid p = m.kernel.processor ∨
          pid p ∈ m.kernel.readyQueue ∧ (m.kernel.heap r).inner.status = .ready := by
  obtain ⟨T, hT, hl, hh⟩ := run_linked hinj h0 hrun
  refine ⟨T, hT, hl.shared, hl.sems, hl.loc, fun p hb => ?_,
    fun p hp r hr hb hne => hl.scheduled hh hp hr hb hne⟩
  obtain ⟨key, hmem⟩ := (hl.blocked p).mp hb
  obtain ⟨hp, hcode⟩ := hl.waits p key hmem
  refine ⟨hp, key, hcode, ?_⟩
  rw [show m.kernel.semaphoreSets i = _ from hl.sems, SemaphoreSet.queue_rename]
  exact List.mem_map_of_mem hmem

/-! ### Programs that begin -/

variable (B P pid i) in
/-- The program begins: it has the semaphores and the memory of the first state of its threads, and they
have not made a call. -/
structure Opens (first : State σ L) (m : Machine α σ L) : Prop where
  launched : Launched B P pid i m
  sems : m.kernel.semaphoreSets i = first.sems
  shared : m.shared = first.shared
  loc : m.loc = first.loc

variable {first : State σ L}

theorem opens_run (hinj : Set.InjOn pid P) (hidle : first.blocked = fun _ => false)
    (h0 : Opens B P pid i first m₀) (hrun : Run (Machine.step B code) (Plays code P pid i) m₀ m) :
    ∃ T, Run (Threads.step B code) Any first T ∧ Linked code P pid i m T ∧ Hosted code P pid i m := by
  obtain ⟨T, hT, hl, hh⟩ := run_linked hinj h0.launched hrun
  have hfirst : m₀.threads i = first := by
    unfold Machine.threads
    rw [h0.sems, h0.shared, h0.loc, ← hidle]
  exact ⟨T, hfirst ▸ hT, hl, hh⟩

omit [FrameAllocator α] in
/-- A thread is where its process is, or the process is in the queue of the semaphore that the thread
waits for. -/
theorem linked_local (hl : Linked code P pid i m T) (p : ProcessId) : T.loc p = m.loc p ∨
    ∃ key, code p (T.loc p) = .wait key (m.loc p) ∧ pid p ∈ (m.kernel.semaphoreSets i).queue key := by
  cases hb : T.blocked p with
  | false => exact Or.inl (hl.loc p hb)
  | true =>
      obtain ⟨key, hmem⟩ := (hl.blocked p).mp hb
      refine Or.inr ⟨key, (hl.waits p key hmem).2, ?_⟩
      rw [show m.kernel.semaphoreSets i = _ from hl.sems, SemaphoreSet.queue_rename]
      exact List.mem_map_of_mem hmem

end Machine

/-! ### The coffee shop on the kernel -/

namespace Mq

open Threads

variable {α : Type} [FrameAllocator α] {B : Build} {N K C : ℕ} {pid : ProcessId → ProcessId} {i : Ref}
  {m₀ m : Machine α ℕ Local} {T : State ℕ Local} {j : ProcessId}

omit [FrameAllocator α] in
/-- A thread in a call of `wait` has not changed the counter since, and it is not at its end. -/
theorem wait_local {key : SemaphoreId} {l l' : Local} (h : program B N K j l = .wait key l') :
    writes l' = writes l ∧ l'.pc ≠ .exited ∧ l.pc ≠ .exited ∧ ∀ cups, l'.pc ≠ .write cups := by
  rw [program_eq] at h
  obtain ⟨n, pc⟩ := l
  obtain ⟨hpc, -, rfl⟩ | ⟨hpc, -, rfl⟩ := loop_wait h
  · obtain rfl : pc = .waitFirst := hpc
    simp [writes, Pc.changed]
  · obtain rfl : pc = .waitMutex := hpc
    simp [writes, Pc.changed]

omit [FrameAllocator α] in
theorem local_cases (hl : Linked (program B N K) (children N) pid i m T) (j : ProcessId) :
    T.loc j = m.loc j ∨ writes (m.loc j) = writes (T.loc j) ∧ (m.loc j).pc ≠ .exited ∧
      (T.loc j).pc ≠ .exited ∧ ∀ cups, (m.loc j).pc ≠ .write cups := by
  obtain h | ⟨key, hwait, -⟩ := linked_local hl j
  · exact Or.inl h
  · exact Or.inr (wait_local hwait)

/-- **The coffee shop on the kernel.**  However the clock interrupts the processes, and whatever calls
others make, as long as they leave the shop alone and the kernel process runs on: the counter is at most
`C`; who writes it back has read its present value, and a customer a positive one; the counter and the
cups drunk are the cups made; once all have been forked and until all have come to their end, somebody
who has not has the processor or is in the ready queue; and then the counter is `0`. -/
theorem coffee_shop (hC : 1 ≤ C) (hC' : C < U64) (hinj : Set.InjOn pid (children N))
    (h0 : Opens B (children N) pid i (init N K C) m₀)
    (hrun : Run (Machine.step B (program B N K)) (Plays (program B N K) (children N) pid i) m₀ m) :
    m.shared ≤ C ∧
    (∀ j cups, (m.loc j).pc = .write cups → cups = m.shared ∧ (j ≠ 0 → 0 < cups)) ∧
    (m.shared : ℤ) + ∑ j ∈ customers N, writes (m.loc j) = writes (m.loc 0) ∧
    ((∀ j ∈ children N, ∃ r, m.kernel.getProc (pid j) = some r) →
      (∃ j ∈ children N, (m.loc j).pc ≠ .exited) →
        ∃ j ∈ children N, (m.loc j).pc ≠ .exited ∧ ∃ r, m.kernel.getProc (pid j) = some r ∧
          (pid j = m.kernel.processor ∨
            pid j ∈ m.kernel.readyQueue ∧ (m.kernel.heap r).inner.status = .ready)) ∧
    ((∀ j ∈ children N, (m.loc j).pc = .exited) → m.shared = 0) := by
  obtain ⟨T, hT, hl, hh⟩ := opens_run hinj rfl h0 hrun
  have hs : Inv B N K C T := run_inv hC' hT
  have hwrites : ∀ j, writes (m.loc j) = writes (T.loc j) := fun j =>
    (local_cases hl j).elim (fun h => by rw [h]) And.left
  have hmade : (T.shared : ℤ) = writes (T.loc 0) - ∑ j ∈ customers N, writes (T.loc j) := by
    rw [hs.counter, ← Finset.add_sum_erase _ _ zero_mem_children, sub_eq_add_neg,
      ← Finset.sum_neg_distrib]
    congr 1
    exact Finset.sum_congr rfl fun j hj => if_neg (mem_customers.mp hj).1
  have hsum : (m.shared : ℤ) + ∑ j ∈ customers N, writes (m.loc j) = writes (m.loc 0) := by
    rw [hwrites, Finset.sum_congr rfl fun j _ => hwrites j, ← hl.shared, hmade]
    ring
  refine ⟨hl.shared ▸ hs.counter_le, fun j cups hpc => ?_, hsum, ?_, fun hall => ?_⟩
  · have hj : T.loc j = m.loc j := (local_cases hl j).resolve_right fun h => h.2.2.2 cups hpc
    rw [← hj] at hpc
    rw [← hl.shared, hs.current j cups hpc]
    refine ⟨rfl, fun h0 => ?_⟩
    have hmem : j ∈ children N := by
      by_contra hout
      have hex := hs.wf.outside j hout
      rw [program_eq, loop_exited, hpc] at hex
      cases hex
    exact hs.counter_pos hmem h0 (by rw [hpc]; exact zero_lt_one)
  · rintro hforked ⟨j, hj, hpc⟩
    have hpcT : (T.loc j).pc ≠ .exited := (local_cases hl j).elim (fun h => by rwa [h]) fun h => h.2.2.1
    obtain ⟨j', hj', hne, hb⟩ := hs.progress hC hj hpcT
    obtain ⟨r, hr⟩ := hforked j' hj'
    rw [hl.loc j' hb] at hne
    refine ⟨j', hj', hne, r, hr, hl.scheduled hh hj' hr hb ?_⟩
    rw [program_eq]
    exact fun he => hne (loop_exited.mp he)
  · have hdone : ∀ j ∈ children N, writes (m.loc j) = (rounds N K j : ℕ) := fun j hj => by
      have hloc : T.loc j = m.loc j := (local_cases hl j).resolve_right fun h => h.2.1 (hall j hj)
      have hpc : (T.loc j).pc = .exited := hloc ▸ hall j hj
      rw [← hloc, writes, hpc, hs.done j hj hpc]
      exact add_zero _
    have hdrunk : ∑ j ∈ customers N, writes (m.loc j) = ((N * K : ℕ) : ℤ) := by
      rw [← sum_rounds (N := N) (K := K), Nat.cast_sum]
      exact Finset.sum_congr rfl fun j hj => hdone j (mem_customers.mp hj).2
    have hmaker : writes (m.loc 0) = ((N * K : ℕ) : ℤ) := hdone 0 zero_mem_children
    omega

/-! ### A cup of coffee -/

/-- `main` has made the semaphores for one customer and one cup. -/
def shopCalls : List Op :=
  [.spawn "sh", .switch, .semNew NON_EMPTY 0, .semNew FULL_CAPACITY 1, .semNew MUTEX 1]

/-- The clock interrupts the coffee maker when it has read the counter. -/
def shopEvents : List Event :=
  [.other (.vfork, default), .other (.switch, default), .call 0 (.switch, default),
    .other (.vfork, default), .other (.switch, default), .call 0 (.semWait FULL_CAPACITY, default),
    .call 0 (.semWait MUTEX, default), .access 0, .call 0 (.switch, default),
    .call 1 (.semWait NON_EMPTY, default), .other (.switch, default), .other (.switch, default),
    .access 0, .call 0 (.semSignal MUTEX, default), .call 0 (.semSignal NON_EMPTY, default)]

/-- The processes 3 and 4 are the coffee maker and the customer. -/
def shop (k : Kernel BootInfoFrameAllocator) : Machine BootInfoFrameAllocator ℕ Local :=
  ⟨k, 0, (init 1 1 1).loc⟩

set_option maxRecDepth 4000 in
theorem shop_opens {k : Kernel BootInfoFrameAllocator}
    (hk : execCalls KernelKept default shopCalls = some k) :
    Opens Build.release (children 1) (· + 3) 2 (init 1 1 1) (shop k) := by
  have hsems : (execCalls KernelKept default shopCalls).map (fun k => k.semaphoreSets 2) =
      some (init 1 1 1).sems := by
    rfl
  have hnone : (execCalls KernelKept default shopCalls).map
      (fun k => (k.created, k.getProc 3, k.getProc 4)) = some (2, none, none) := by
    decide +kernel
  rw [hk, Option.map_some, Option.some.injEq] at hsems hnone
  simp only [Prod.mk.injEq] at hnone
  obtain ⟨hmade, hthree, hfour⟩ := hnone
  have hyet : ∀ p ∈ children 1, k.getProc (p + 3) = none := fun p hp => by
    obtain rfl | rfl := Nat.le_one_iff_eq_zero_or_eq_one.mp (Nat.lt_succ_iff.mp (Finset.mem_range.mp hp))
    · exact hthree
    · exact hfour
  refine ⟨.of_unborn ⟨smallMachine, run_of_exec hk⟩ hmade.ge ?_ hyet, hsems, rfl, rfl⟩
  show Fresh (k.semaphoreSets 2)
  rw [hsems]
  exact ((Fresh.empty.insert).insert).insert

theorem shop_runs : ∃ k m, execCalls KernelKept default shopCalls = some k ∧
    Run (Machine.step Build.release (program Build.release 1 1))
      (Plays (program Build.release 1 1) (children 1) (· + 3) 2) (shop k) m ∧
    m.shared = 1 ∧ m.kernel.readyQueue = [2, 1, 4] := by
  have hs : ((execCalls KernelKept default shopCalls).bind fun k =>
      (exec (Machine.step Build.release (program Build.release 1 1))
        (Plays (program Build.release 1 1) (children 1) (· + 3) 2) (shop k) shopEvents).map
          fun m => (m.shared, m.kernel.readyQueue)) = some (1, [2, 1, 4]) := by
    decide +kernel
  obtain ⟨k, hk, hs⟩ := Option.bind_eq_some_iff.mp hs
  obtain ⟨m, hm, hval⟩ := Option.map_eq_some_iff.mp hs
  exact ⟨k, m, hk, run_of_exec hm, (Prod.mk.inj hval).1, (Prod.mk.inj hval).2⟩

/-- The cup is on the counter, and the customer can drink it. -/
theorem coffee_shop_example : ∃ m : Machine BootInfoFrameAllocator ℕ Local,
    m.shared = 1 ∧ m.kernel.readyQueue = [2, 1, 4] ∧
    (m.shared : ℤ) + ∑ j ∈ customers 1, writes (m.loc j) = writes (m.loc 0) := by
  obtain ⟨k, m, hk, hrun, hone, hready⟩ := shop_runs
  exact ⟨m, hone, hready, (coffee_shop le_rfl (by decide) (add_left_injective 3).injOn
    (shop_opens hk) hrun).2.2.1⟩

end Mq

/-- The threads that drink the cup. -/
theorem programs_refine_example : ∃ (m₀ m : Machine BootInfoFrameAllocator ℕ Mq.Local)
    (T : Threads.State ℕ Mq.Local), m.kernel.readyQueue = [2, 1, 4] ∧
    Run (Threads.step Build.release (Mq.program Build.release 1 1)) Any (m₀.threads 2) T ∧
    T.shared = 1 ∧ m.kernel.semaphoreSets 2 = T.sems.rename (· + 3) := by
  obtain ⟨k, m, hk, hrun, hone, hready⟩ := Mq.shop_runs
  obtain ⟨T, hT, hshared, hsems, -⟩ := programs_refine (add_left_injective 3).injOn
    (Mq.shop_opens hk).launched hrun
  exact ⟨Mq.shop k, m, T, hready, hT, hshared.trans hone, hsems⟩

end Ysos
