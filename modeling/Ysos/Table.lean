import Ysos.Proc

/-! # What scheduling sees of the kernel

`Kernel.table` forgets the memory, the process tree and the tick counters of the kernel.  The
methods of the process manager are functions of the table up to panics, and so a call is one of
a few changes of the table.

* `Table.Step t call t' c'`: what the call may do, with one case for each outcome; the calls that
  give up the processor do so in `Table.GiveUp` and then `Table.Pick` a process.

The lemmas `…_table` say what the methods of the process manager do to the table. -/

namespace Ysos

open Runs

/-- What scheduling sees of a process. -/
@[ext] structure Entry where
  pid : ProcessId
  status : ProgramStatus
  context : ProcessContext
  exitCode : Option Int64
  procData : Option ProcessData
  hasVm : Bool

def ProcessInner.entry (p : ProcessInner) (pid : ProcessId) : Entry where
  pid := pid
  status := p.status
  context := p.context
  exitCode := p.exitCode
  procData := p.procData
  hasVm := p.procVm.isSome

def Process.entry (p : Process) : Entry := p.inner.entry p.pid

namespace Entry

def save (c : ProcessContext) (e : Entry) : Entry := { e with context := c, status := .ready }

def block (e : Entry) : Entry := { e with status := .blocked }

def resume (e : Entry) : Entry := { e with status := .running }

/-- The change of a saved context by a wake-up. -/
def wakeContext (ret : Option Int64) (c : ProcessContext) : ProcessContext :=
  match ret with
  | some ret => c.setRax ret.toUInt64
  | none => c

def wake (ret : Option Int64) (e : Entry) : Entry :=
  { e with context := wakeContext ret e.context, status := .ready }

def kill (ret : Int64) (e : Entry) : Entry :=
  { e with hasVm := false, procData := none, exitCode := some ret, status := .dead }

/-- The parent of a `vfork` with the child's id. -/
def setForked (child : ProcessId) (e : Entry) : Entry :=
  { e with context := e.context.setRax (UInt64.ofNat child), status := .ready }

end Entry

@[ext] structure Table where
  proc : Ref → Entry
  created : ℕ
  processes : ProcessId → Option Ref
  readyQueue : List ProcessId
  waitQueue : ProcessId → Option (SortedSet ProcessId)
  processor : ProcessId
  semaphoreSets : Ref → SemaphoreSet

namespace Table
variable (t : Table)

def exitCode (pid : ProcessId) : Option Int64 :=
  (t.processes pid).bind fun r => (t.proc r).exitCode

def current : Option Ref := if t.processor = 0 then none else t.processes t.processor

def modify (r : Ref) (f : Entry → Entry) : Table :=
  { t with proc := Function.update t.proc r (f (t.proc r)) }

def pushReady (pid : ProcessId) : Table := { t with readyQueue := t.readyQueue ++ [pid] }

/-- The current process waits for `pid`. -/
def register (pid : ProcessId) : Table :=
  let entry := (t.waitQueue pid).getD SortedSet.empty
  { t with waitQueue := Function.update t.waitQueue pid (some (entry.insert t.processor)) }

def wakeUp (ret : Option Int64) (pid : ProcessId) : Table :=
  match t.processes pid with
  | some r => (t.modify r (Entry.wake ret)).pushReady pid
  | none => t

def block (pid : ProcessId) : Table :=
  match t.processes pid with
  | some r => t.modify r Entry.block
  | none => t

/-- The processes that wait for `pid`. -/
def waiters (pid : ProcessId) : List ProcessId :=
  match t.waitQueue pid with
  | some waiters => waiters.elems
  | none => []

def removeWaiters (pid : ProcessId) : Table :=
  { t with waitQueue := Function.update t.waitQueue pid none }

def wakeAll (ret : Int64) (pids : List ProcessId) : Table :=
  pids.foldl (fun t pid => t.wakeUp (some ret) pid) t

def kill (ret : Int64) (pid : ProcessId) : Table :=
  match t.processes pid with
  | some r => ((t.modify r (Entry.kill ret)).removeWaiters pid).wakeAll ret (t.waiters pid)
  | none => t

variable {t} in
theorem wakeUp_some {ret : Option Int64} {pid : ProcessId} {r : Ref}
    (h : t.processes pid = some r) :
    t.wakeUp ret pid = (t.modify r (Entry.wake ret)).pushReady pid := by
  simp only [wakeUp, h]

variable {t} in
theorem wakeUp_none {ret : Option Int64} {pid : ProcessId} (h : t.processes pid = none) :
    t.wakeUp ret pid = t := by
  simp only [wakeUp, h]

variable {t} in
theorem block_some {pid : ProcessId} {r : Ref} (h : t.processes pid = some r) :
    t.block pid = t.modify r Entry.block := by
  simp only [block, h]

variable {t} in
theorem kill_some {ret : Int64} {pid : ProcessId} {r : Ref} (h : t.processes pid = some r) :
    t.kill ret pid =
      ((t.modify r (Entry.kill ret)).removeWaiters pid).wakeAll ret (t.waiters pid) := by
  simp only [kill, h]

variable {t} in
theorem kill_none {ret : Int64} {pid : ProcessId} (h : t.processes pid = none) :
    t.kill ret pid = t := by
  simp only [kill, h]

/-- The id of the next process. -/
def nextPid : ProcessId := (t.created + 1) % PIDS

/-- A new process. -/
def insert (e : Entry) : Table :=
  { t with
    proc := Function.update t.proc (t.created + 1) { e with pid := t.nextPid }
    created := t.created + 1 }

/-- A new process joins the ready queue. -/
def create (e : Entry) : Table :=
  { t.insert e with
    processes := Function.update t.processes t.nextPid (some (t.created + 1))
    readyQueue := t.readyQueue ++ [t.nextPid] }

variable {t} in
/-- A change of an older process and a new process. -/
theorem insert_modify_other {e : Entry} {r : Ref} {f : Entry → Entry} (hr : r ≠ t.created + 1) :
    (t.insert e).modify r f = (t.modify r f).insert e := by
  refine Table.ext ?_ rfl rfl rfl rfl rfl rfl
  simp only [insert, modify, nextPid, Function.update_of_ne hr]
  exact Function.update_comm hr.symm _ _ _

variable {t} in
/-- A change of the new process is a change of its entry. -/
theorem insert_modify {e : Entry} {f : Entry → Entry}
    (hf : ∀ (e : Entry) pid, f { e with pid := pid } = { f e with pid := pid }) :
    (t.insert e).modify (t.created + 1) f = t.insert (f e) := by
  refine Table.ext ?_ rfl rfl rfl rfl rfl rfl
  simp only [insert, modify, Function.update_self, Function.update_idem]
  rw [hf]

/-- The process behind `r` has a child, and both are ready. -/
def forked (r : Ref) (c : ProcessContext) (e : Entry) : Table :=
  (((t.modify r (Entry.save c)).modify r (Entry.setForked t.nextPid)).create e).pushReady
    (t.proc r).pid

/-- Every place of the table holds a process with that id. -/
def Keyed : Prop := ∀ p r, t.processes p = some r → r ≤ t.created ∧ (t.proc r).pid = p

def setSemaphores (i : Ref) (sems : SemaphoreSet) : Table :=
  { t with semaphoreSets := Function.update t.semaphoreSets i sems }

def IsReady (pid : ProcessId) : Prop :=
  ∃ r, t.processes pid = some r ∧ (t.proc r).status = .ready

/-- `switch_next`: entries of the queue that are not ready are dropped, and the first ready one
runs with its saved context, or goes on with the context `c` if it is the current one. -/
inductive Pick (c : ProcessContext) : Table → ProcessContext → Prop where
  | none (h : ∀ p ∈ t.readyQueue, ¬ t.IsReady p) : Pick c { t with readyQueue := [] } c
  | same {pre rest : List ProcessId} (h : t.readyQueue = pre ++ t.processor :: rest)
      (hpre : ∀ p ∈ pre, ¬ t.IsReady p) (hready : t.IsReady t.processor) :
      Pick c { t with readyQueue := rest } c
  | switch {pre rest : List ProcessId} {p : ProcessId} {r : Ref}
      (h : t.readyQueue = pre ++ p :: rest) (hpre : ∀ p ∈ pre, ¬ t.IsReady p)
      (hp : t.processes p = some r) (hready : (t.proc r).status = .ready)
      (hvm : (t.proc r).hasVm = true) (hne : t.processor ≠ p) :
      Pick c { t.modify r Entry.resume with readyQueue := rest, processor := p } (t.proc r).context

/-- `switch_next` panics. -/
inductive PickFails : Panic → Prop where
  | noCurrent (h : t.processor = 0) : PickFails .noCurrentProcess
  | notFound {p : ProcessId} (hp : p ∈ t.readyQueue) (h : t.processes p = none) :
      PickFails .processNotFound
  | vmTaken {p : ProcessId} {r : Ref} (hp : p ∈ t.readyQueue) (hr : t.processes p = some r)
      (hready : (t.proc r).status = .ready) (hvm : (t.proc r).hasVm = false) :
      PickFails (.vmTaken .restore)

/-- The calls that give up the processor: the table when `switch_next` is called. -/
inductive GiveUp : Call → Table → Prop where
  | switch {c : ProcessContext} {r : Ref} (hr : t.current = some r) :
      GiveUp (.switch, c) ((t.modify r (Entry.save c)).pushReady (t.proc r).pid)
  | exit {ret : Int64} {c : ProcessContext} : GiveUp (.processExit ret, c) (t.kill ret t.processor)
  | wait {pid : ProcessId} {c : ProcessContext} {r : Ref} (h : t.exitCode pid = none)
      (hr : t.current = some r) :
      GiveUp (.waitPid pid, c) (((t.register pid).modify r (Entry.save c)).modify r Entry.block)
  | killSelf {c : ProcessContext} : GiveUp (.kill t.processor, c) (t.kill 0xdead t.processor)
  | vfork {c : ProcessContext} {e : Entry} {r : Ref} (hr : t.current = some r)
      (hvm : (t.proc r).hasVm = true) (hready : e.status = .ready) (hexit : e.exitCode = none)
      (hdata : e.procData = (t.proc r).procData) (hvm' : e.hasVm = true) :
      GiveUp (.vfork, c) (t.forked r c e)
  | semBlock {key : ℕ} {c : ProcessContext} {r : Ref} {d : ProcessData} {p : ProcessId}
      {sems : SemaphoreSet} (hr : t.current = some r) (hd : (t.proc r).procData = some d)
      (h : (t.semaphoreSets d.semaphores).wait key (t.proc r).pid = (.block p, sems)) :
      GiveUp (.semWait key, c)
        (((t.setSemaphores d.semaphores sems).modify r (Entry.save c)).block p)

/-- The other calls: the table after the call, and the context that the process goes on with. -/
inductive Stay : Call → Table → ProcessContext → Prop where
  | spawn {name : String} {c : ProcessContext} {e : Entry} (hr : t.current ≠ none)
      (hready : e.status = .ready) (hexit : e.exitCode = none) (hvm : e.hasVm = true)
      (hdata : e.procData = some ⟨t.created + 1⟩) :
      Stay (.spawn name, c) ((t.setSemaphores (t.created + 1) SemaphoreSet.empty).create e) c
  | spawnNone {name : String} {c : ProcessContext} : Stay (.spawn name, c) t c
  | waitExited {pid : ProcessId} {ret : Int64} {c : ProcessContext} (h : t.exitCode pid = some ret) :
      Stay (.waitPid pid, c) t (c.setRax ret.toUInt64)
  | kill {pid : ProcessId} {c : ProcessContext} (hne : pid ≠ t.processor) :
      Stay (.kill pid, c) (t.kill 0xdead pid) c
  | semNew {key value : ℕ} {c : ProcessContext} {r : Ref} {d : ProcessData}
      (hr : t.current = some r) (hd : (t.proc r).procData = some d) :
      Stay (.semNew key value, c) (t.setSemaphores d.semaphores
        ((t.semaphoreSets d.semaphores).insert key value).2) c
  | removeSem {key : ℕ} {c : ProcessContext} {r : Ref} {d : ProcessData}
      (hr : t.current = some r) (hd : (t.proc r).procData = some d) :
      Stay (.removeSem key, c) (t.setSemaphores d.semaphores
        ((t.semaphoreSets d.semaphores).remove key).2) c
  | semWait {key : ℕ} {c : ProcessContext} {r : Ref} {d : ProcessData} {x : UInt64}
      {res : SemaphoreResult} {sems : SemaphoreSet} (hr : t.current = some r)
      (hd : (t.proc r).procData = some d)
      (h : (t.semaphoreSets d.semaphores).wait key (t.proc r).pid = (res, sems))
      (hres : ∀ p, res ≠ .block p) :
      Stay (.semWait key, c) (t.setSemaphores d.semaphores sems) (c.setRax x)
  | semSignal {B : Build} {key : ℕ} {c : ProcessContext} {r : Ref} {d : ProcessData} {x : UInt64}
      {res : SemaphoreResult} {sems : SemaphoreSet} (hr : t.current = some r)
      (hd : (t.proc r).procData = some d)
      (h : (t.semaphoreSets d.semaphores).signal B key = .ok (res, sems))
      (hres : ∀ p, res ≠ .wakeUp p) :
      Stay (.semSignal key, c) (t.setSemaphores d.semaphores sems) (c.setRax x)
  | semWake {B : Build} {key : ℕ} {c : ProcessContext} {r : Ref} {d : ProcessData} {p : ProcessId}
      {sems : SemaphoreSet} (hr : t.current = some r) (hd : (t.proc r).procData = some d)
      (h : (t.semaphoreSets d.semaphores).signal B key = .ok (.wakeUp p, sems)) :
      Stay (.semSignal key, c) ((t.setSemaphores d.semaphores sems).wakeUp none p) c
  | brk {addr : Option ℕ} {c : ProcessContext} : Stay (.brk addr, c) t c
  | pageFault {addr : ℕ} {violation : Bool} {c : ProcessContext} :
      Stay (.pageFault addr violation, c) t c

/-- What a call may do to the table, and the context that the processor goes on with. -/
inductive Step (call : Call) (t' : Table) (c' : ProcessContext) : Prop where
  | giveUp {u : Table} (h : t.GiveUp call u) (hp : u.Pick call.2 t' c')
  | stay (h : t.Stay call t' c')

variable {t} {t' : Table} {c c' : ProcessContext}

/-- Entries in front that are not ready do not change what is picked. -/
theorem Pick.skip {p : ProcessId} {q : List ProcessId} (h : { t with readyQueue := q }.Pick c t' c')
    (hp : ¬ t.IsReady p) : { t with readyQueue := p :: q }.Pick c t' c' := by
  have hcons : ∀ {pre : List ProcessId}, (∀ x ∈ pre, ¬ t.IsReady x) → ∀ x ∈ p :: pre, ¬ t.IsReady x := by
    intro pre hpre x hx
    rcases List.mem_cons.mp hx with rfl | hx
    · exact hp
    · exact hpre x hx
  cases h with
  | none h => exact .none (hcons h)
  | same h hpre hready => exact .same (congrArg (p :: ·) h) (hcons hpre) hready
  | switch h hpre hr hready hvm hne =>
      exact .switch (congrArg (p :: ·) h) (hcons hpre) hr hready hvm hne

theorem current_iff {r : Ref} :
    t.current = some r ↔ t.processor ≠ 0 ∧ t.processes t.processor = some r := by
  unfold current
  split_ifs with h0
  · simp [h0]
  · simp [h0]

theorem Keyed.current_pid (h : t.Keyed) {r : Ref} (hr : t.current = some r) :
    (t.proc r).pid = t.processor := (h _ _ (current_iff.mp hr).2).2

theorem Keyed.current_le (h : t.Keyed) {r : Ref} (hr : t.current = some r) : r ≤ t.created :=
  (h _ _ (current_iff.mp hr).2).1

end Table

variable {α : Type}

def Kernel.table (k : Kernel α) : Table where
  proc r := (k.heap r).entry
  created := k.created
  processes := k.processes
  readyQueue := k.readyQueue
  waitQueue := k.waitQueue
  processor := k.processor
  semaphoreSets := k.semaphoreSets

namespace Kernel
variable {B : Build} {k k' : Kernel α} {r : Ref}

/-! ### Changes of one record -/

theorem table_modify {f : ProcessInner → ProcessInner} (g : Entry → Entry)
    (h : (f (k.heap r).inner).entry (k.heap r).pid = g (k.heap r).entry) :
    (k.modify r f).table = k.table.modify r g := by
  refine Table.ext ?_ rfl rfl rfl rfl rfl rfl
  funext q
  by_cases hq : q = r
  · subst hq
    simpa [table, modify, Table.modify, Process.entry] using h
  · simp [table, modify, Table.modify, hq]

/-- A change that scheduling does not see. -/
theorem table_modify_quiet {f : ProcessInner → ProcessInner}
    (h : (f (k.heap r).inner).entry (k.heap r).pid = (k.heap r).entry) :
    (k.modify r f).table = k.table := by
  rw [table_modify id h]
  exact Table.ext (Function.update_eq_self r _) rfl rfl rfl rfl rfl rfl

theorem entry_update {heap : Ref → Process} {p : Process} :
    (fun q => (Function.update heap r p q).entry) =
      Function.update (fun q => (heap q).entry) r p.entry :=
  Function.comp_update Process.entry heap r p

theorem current_ok (h : k.current = .ok r) : k.table.current = some r := by
  simp only [current, getPid, getProc] at h
  split_ifs at h with h0
  · cases h
  simp only [bind_eq_ok] at h
  obtain ⟨pid, hpid, h⟩ := h
  cases hpid
  split at h
  · rename_i r' hr
    cases h
    rw [Table.current, if_neg (show ¬ k.table.processor = 0 from h0)]
    exact hr
  · cases h

theorem current_of_table (h : k.table.current = some r) : k.current = .ok r := by
  obtain ⟨h0, hr⟩ := Table.current_iff.mp h
  have hp : k.getPid = .ok k.processor := if_neg h0
  have hr' : k.getProc k.processor = some r := hr
  simp only [current, hp, bind_eq_ok]
  exact ⟨k.processor, rfl, by rw [hr']; rfl⟩

variable [FrameAllocator α]

/-! ### Memory and objects -/

/-- Memory and counts of `Arc`s may change, but neither the records nor the table. -/
def SameRecords (k k' : Kernel α) : Prop := k'.heap = k.heap ∧ k'.table = k.table

omit [FrameAllocator α] in
theorem SameRecords.refl (k : Kernel α) : k.SameRecords k := ⟨rfl, rfl⟩

omit [FrameAllocator α] in
theorem SameRecords.trans {k₁ k₂ k₃ : Kernel α} (h : k₁.SameRecords k₂) (h' : k₂.SameRecords k₃) :
    k₁.SameRecords k₃ := ⟨h'.1.trans h.1, h'.2.trans h.2⟩

theorem dropVm_same (h : k.dropVm B r = .ok k') : k.SameRecords k' := by
  unfold dropVm at h
  split at h
  · simp only [bind_eq_ok, pure_eq_ok] at h
    obtain ⟨v, -, rfl⟩ := h
    exact ⟨rfl, rfl⟩
  · cases h
    exact ⟨rfl, rfl⟩

theorem release_same : ∀ {n : ℕ} {r : Ref} {k k' : Kernel α},
    k.release B n r = .ok k' → k.SameRecords k'
  | 0, _, k, _, h => by
      cases h
      exact .refl k
  | n + 1, r, k, k', h => by
      simp only [release] at h
      split_ifs at h
      · obtain ⟨k₁, h₁, h⟩ := bind_eq_ok.mp h
        have hloop := foldlM_relates (R := SameRecords) .refl (fun _ _ _ => .trans)
          (fun _ _ _ hb => release_same hb) h₁
        exact SameRecords.trans ⟨hloop.1, hloop.2⟩ (dropVm_same h)
      · cases h
        exact ⟨rfl, rfl⟩

theorem releaseAll_same {rs : List Ref} (h : k.releaseAll B rs = .ok k') : k.SameRecords k' :=
  foldlM_relates (R := SameRecords) .refl (fun _ _ _ => .trans) (fun _ _ _ hb => release_same hb) h

theorem removeChild_table {child : ProcessId} (h : k.removeChild B r child = .ok k') :
    k'.table = k.table := by
  rw [(releaseAll_same h).2]
  exact table_modify_quiet rfl

omit [FrameAllocator α] in
theorem setParents_table {children : List Ref} {parent : Weak} :
    (k.setParents children parent).table = k.table := by
  unfold setParents
  induction children generalizing k with
  | nil => rfl
  | cons c cs ih =>
      rw [List.foldl_cons, ih]
      exact table_modify_quiet rfl

theorem leaveParent_table (h : k.leaveParent B r = .ok k') : k'.table = k.table := by
  simp only [leaveParent] at h
  split at h
  · split_ifs at h
    · simp only [bind_eq_ok, pure_eq_ok] at h
      obtain ⟨k₁, h₁, rfl⟩ := h
      rw [setParents_table, removeChild_table h₁]
    · cases h
      exact setParents_table
  · cases h
    rfl

theorem addProc_table {pid : ProcessId} (h : k.addProc B pid r = .ok k') :
    k'.heap = k.heap ∧
      k'.table = { k.table with processes := Function.update k.table.processes pid (some r) } :=
  releaseAll_same h

/-! ### Killing and waking -/

omit [FrameAllocator α] in
theorem wakeUp_table {pid : ProcessId} {ret : Option Int64} :
    (k.wakeUp pid ret).table = k.table.wakeUp ret pid := by
  rcases hr : k.processes pid with _ | r
  · rw [Table.wakeUp_none hr]
    simp only [wakeUp, getProc, hr]
  · rw [Table.wakeUp_some hr, ← table_modify (f := fun p => match ret with
      | some ret => (p.setReturn ret.toUInt64).pause
      | none => p.pause) (Entry.wake ret) (by cases ret <;> rfl)]
    simp only [wakeUp, getProc, hr]
    rfl

omit [FrameAllocator α] in
theorem wakeAll_table {ret : Int64} {pids : List ProcessId} :
    (pids.foldl (fun k pid => k.wakeUp pid (some ret)) k).table = k.table.wakeAll ret pids := by
  induction pids generalizing k with
  | nil => rfl
  | cons pid pids ih =>
      rw [List.foldl_cons, ih, wakeUp_table]
      rfl

theorem killProcess_table {ret : Int64} (h : k.killProcess B r ret = .ok k') :
    k'.table = k.table.modify r (Entry.kill ret) := by
  simp only [killProcess, bind_eq_ok, pure_eq_ok] at h
  obtain ⟨k₁, h₁, k₂, h₂, rfl⟩ := h
  rw [table_modify (Entry.kill ret) rfl, (dropVm_same h₂).2, leaveParent_table h₁]

theorem kill_table {pid : ProcessId} {ret : Int64} (h : k.kill B pid ret = .ok k') :
    k'.table = k.table.kill ret pid := by
  simp only [kill, getProc] at h
  split at h
  · rename_i r hr
    obtain ⟨k₁, h₁, h⟩ := bind_eq_ok.mp h
    have ht := killProcess_table h₁
    have hw : k₁.waitQueue = k.waitQueue := congrArg Table.waitQueue ht
    rw [Table.kill_some hr, ← ht]
    split at h
    · rename_i waiters hws
      cases h
      have hlist : k.table.waiters pid = waiters.elems := by
        rw [Table.waiters, show k.table.waitQueue pid = _ from hw ▸ hws]
      rw [wakeAll_table, hlist]
      rfl
    · rename_i hws
      cases h
      have hlist : k.table.waiters pid = [] := by
        rw [Table.waiters, show k.table.waitQueue pid = _ from hw ▸ hws]
      rw [hlist]
      refine Table.ext rfl rfl rfl rfl ?_ rfl rfl
      exact (Function.update_eq_self_iff.mpr hws.symm).symm
  · rename_i hr
    cases h
    rw [Table.kill_none hr]

/-! ### Saving and picking -/

omit [FrameAllocator α] in
theorem saveCurrent_table {c : ProcessContext} {pid : ProcessId}
    (h : k.saveCurrent B c = .ok (pid, k')) :
    ∃ r, k.current = .ok r ∧ pid = (k.table.proc r).pid ∧
      k'.table = k.table.modify r (Entry.save c) ∧
      (k'.heap r).inner.procVm = (k.heap r).inner.procVm := by
  simp only [saveCurrent, ProcessInner.tick, bind_eq_ok, pure_eq_ok] at h
  obtain ⟨r, hr, p, ⟨n, -, rfl⟩, h⟩ := h
  obtain ⟨rfl, rfl⟩ := Prod.mk.inj h
  exact ⟨r, hr, rfl, table_modify (Entry.save c) rfl, by simp [modify, ProcessInner.save]⟩

omit [FrameAllocator α] in
theorem restore_table {c c' : ProcessContext} (h : k.restore r c = .ok (c', k')) :
    (k.table.proc r).hasVm = true ∧ c' = (k.table.proc r).context ∧
      k'.table = k.table.modify r Entry.resume := by
  simp only [restore, ProcessInner.restore, ProcessInner.vm, bind_eq_ok, pure_eq_ok] at h
  obtain ⟨⟨c₁, p⟩, ⟨vm, hvm, hp⟩, h⟩ := h
  cases hp
  obtain ⟨rfl, rfl⟩ := Prod.mk.inj h
  split at hvm
  · rename_i vm' hvm'
    refine ⟨?_, rfl, table_modify Entry.resume rfl⟩
    simp [table, Process.entry, ProcessInner.entry, hvm']
  · cases hvm

omit [FrameAllocator α] in
theorem switchLoop_pick {c c' : ProcessContext} {pid : ProcessId} : ∀ {q : List ProcessId},
    k.switchLoop k.processor c q = .ok (pid, c', k') →
      { k.table with readyQueue := q }.Pick c k'.table c'
  | [], h => by
      cases h
      exact .none fun p hp => absurd hp List.not_mem_nil
  | next :: q, h => by
      simp only [switchLoop, getProc] at h
      split at h
      · cases h
      rename_i r hr
      split_ifs at h with hready hne
      · -- the entry is dropped
        refine (switchLoop_pick h).skip ?_
        rintro ⟨r', hr', hs⟩
        rw [show k.table.processes next = some r from hr] at hr'
        cases hr'
        exact hready hs
      · obtain ⟨⟨c₁, k₁⟩, hrestore, h⟩ := bind_eq_ok.mp h
        obtain ⟨hvm, rfl, ht⟩ := restore_table hrestore
        obtain ⟨-, h⟩ := Prod.mk.inj (Except.ok.inj h)
        obtain ⟨rfl, rfl⟩ := Prod.mk.inj h
        have hnil : next :: q = [] ++ next :: q := rfl
        have hpick := Table.Pick.switch (t := { k.table with readyQueue := next :: q }) (c := c)
          hnil (fun p hp => absurd hp List.not_mem_nil) hr (not_not.mp hready) hvm hne
        rw [show Table.modify { k.table with readyQueue := next :: q } r Entry.resume =
          { k.table.modify r Entry.resume with readyQueue := next :: q } from rfl, ← ht] at hpick
        exact hpick
      · cases h
        obtain rfl := not_not.mp hne
        have hnil : k.processor :: q = [] ++ k.processor :: q := rfl
        exact .same hnil (fun p hp => absurd hp List.not_mem_nil)
          ⟨r, hr, not_not.mp hready⟩

omit [FrameAllocator α] in
theorem switchNext_pick {c c' : ProcessContext} {pid : ProcessId}
    (h : k.switchNext c = .ok (pid, c', k')) : k.table.Pick c k'.table c' := by
  simp only [switchNext, getPid] at h
  split_ifs at h
  · cases h
  · exact switchLoop_pick h

omit [FrameAllocator α] in
/-- `switch_next` leaves the memory of the processes alone. -/
theorem switchLoop_procVm {c c' : ProcessContext} {cur pid : ProcessId} (r : Ref) :
    ∀ {q : List ProcessId}, k.switchLoop cur c q = .ok (pid, c', k') →
      (k'.heap r).inner.procVm = (k.heap r).inner.procVm
  | [], h => by
      cases h
      rfl
  | next :: q, h => by
      simp only [switchLoop] at h
      split at h
      · cases h
      rename_i r' _
      split_ifs at h
      · exact switchLoop_procVm r h
      · obtain ⟨⟨c₁, k₁⟩, hrestore, h⟩ := bind_eq_ok.mp h
        simp only [restore, ProcessInner.restore, bind_eq_ok, pure_eq_ok] at hrestore
        obtain ⟨⟨c₂, p⟩, ⟨vm, -, hp⟩, hrestore⟩ := hrestore
        cases hp
        cases hrestore
        cases h
        by_cases hr : r = r'
        · subst hr
          simp [modify, ProcessInner.resume]
        · simp [modify, hr]
      · cases h
        rfl

omit [FrameAllocator α] in
theorem switchNext_procVm {c c' : ProcessContext} {pid : ProcessId} (r : Ref)
    (h : k.switchNext c = .ok (pid, c', k')) :
    (k'.heap r).inner.procVm = (k.heap r).inner.procVm := by
  simp only [switchNext, bind_eq_ok] at h
  obtain ⟨cur, -, h⟩ := h
  exact switchLoop_procVm r h

/-! ### New processes -/

omit [FrameAllocator α] in
theorem vm_ok {p : ProcessInner} {use : VmUse} {vm : ProcessVm} (h : p.vm use = .ok vm) :
    p.procVm = some vm := by
  unfold ProcessInner.vm at h
  split at h
  · rename_i vm' hvm
    cases h
    exact hvm
  · cases h

omit [FrameAllocator α] in
theorem table_setProcVm {vm vm' : ProcessVm} {use : VmUse} {i : SpaceId} {v : Vm α}
    (h : (k.heap r).inner.vm use = .ok vm) :
    ((k.setVm i v).modify r fun p => { p with procVm := some vm' }).table = k.table := by
  refine table_modify_quiet ?_
  simp [Process.entry, ProcessInner.entry, setVm, vm_ok h]

theorem loadElf_table {elf : ElfFile} (h : k.loadElf B r elf = .ok k') : k'.table = k.table := by
  simp only [loadElf, bind_eq_ok, pure_eq_ok] at h
  obtain ⟨vm, hvm, ⟨vm', v⟩, -, rfl⟩ := h
  exact table_setProcVm hvm

omit [FrameAllocator α] in
theorem newProcess_table {name : String} {parent : Option Weak} {procVm : ProcessVm}
    (h : k.newProcess name parent procVm none = (r, k')) :
    r = k.table.created + 1 ∧
      k'.table = (k.table.setSemaphores (k.table.created + 1) SemaphoreSet.empty).insert
        ⟨0, .ready, default, none, some ⟨k.created + 1⟩, true⟩ := by
  obtain ⟨rfl, rfl⟩ := Prod.mk.inj h
  exact ⟨rfl, Table.ext entry_update rfl rfl rfl rfl rfl rfl⟩

omit [FrameAllocator α] in
theorem modify_insert {u : Table} {e : Entry} {f : ProcessInner → ProcessInner} (g : Entry → Entry)
    (hk : k.table = u.insert e)
    (h : (f (k.heap (u.created + 1)).inner).entry (k.heap (u.created + 1)).pid =
      g (k.heap (u.created + 1)).entry)
    (hg : ∀ (e : Entry) pid, g { e with pid := pid } = { g e with pid := pid }) :
    (k.modify (u.created + 1) f).table = u.insert (g e) := by
  rw [table_modify g h, hk]
  exact Table.insert_modify hg

/-- A new process is added to the table and the ready queue. -/
theorem create_table {u : Table} {e : Entry} (hk : k.table = u.insert e)
    (h : k.addProc B (k.heap (u.created + 1)).pid (u.created + 1) = .ok k') :
    (k'.pushReady (k.heap (u.created + 1)).pid).table = u.create e := by
  have hpid : (k.heap (u.created + 1)).pid = u.nextPid := by
    show (k.table.proc (u.created + 1)).pid = u.nextPid
    rw [hk]
    simp [Table.insert]
  rw [hpid] at h ⊢
  have ht := (addProc_table h).2
  rw [hk] at ht
  exact congrArg (fun t : Table => t.pushReady u.nextPid) ht

theorem spawn_table {elf : ElfFile} {name : String} {parent : Option Weak} {pid : ProcessId}
    (h : k.spawn B elf name parent none = .ok (pid, k')) :
    ∃ e : Entry, e.status = .ready ∧ e.exitCode = none ∧ e.hasVm = true ∧
      e.procData = some ⟨k.table.created + 1⟩ ∧
      k'.table = (k.table.setSemaphores (k.table.created + 1) SemaphoreSet.empty).create e := by
  simp only [spawn] at h
  split at h
  · cases h
  simp only [bind_eq_ok, pure_eq_ok] at h
  obtain ⟨⟨i, k₁⟩, hclone, h⟩ := h
  have ht₁ : k₁.table = k.table := by
    simp only [clonePageTable, bind_eq_ok] at hclone
    obtain ⟨vm, -, hclone⟩ := hclone
    split at hclone
    · cases hclone
    · cases hclone
      rfl
  rcases hnew : k₁.newProcess name parent (ProcessVm.new i) none with ⟨r, k₂⟩
  simp only [hnew] at h
  obtain ⟨k₃, hload, k₄, hadd, h⟩ := h
  obtain ⟨-, rfl⟩ := Prod.mk.inj h
  obtain ⟨rfl, ht₂⟩ := newProcess_table hnew
  have ht₃ := modify_insert (f := ProcessInner.pause) (fun e => { e with status := .ready }) ht₂ rfl
    fun _ _ => rfl
  rw [show k₁.table.created + 1 = (k₁.table.setSemaphores (k₁.table.created + 1)
    SemaphoreSet.empty).created + 1 from rfl] at hload hadd ⊢
  rw [← loadElf_table hload] at ht₃
  have ht₄ := modify_insert (f := ProcessInner.initStackFrame k₃.userSelectors
    (virtAddrTruncate elf.entryPoint) (virtAddrTruncate STACK_INIT_TOP))
    (fun e => { e with context := e.context.initStackFrame k₃.userSelectors _ _ }) ht₃ rfl
    fun _ _ => rfl
  rw [← ht₁]
  exact ⟨_, by rfl, by rfl, by rfl, by rfl, create_table ht₄ hadd⟩

omit [FrameAllocator α] in
theorem table_insert {strong : Ref → ℕ} {p : ProcessInner} :
    { k with
      created := k.created + 1
      heap := Function.update k.heap (k.created + 1) ⟨(k.created + 1) % PIDS, p⟩
      strong := strong }.table = k.table.insert (p.entry 0) :=
  Table.ext entry_update rfl rfl rfl rfl rfl rfl

theorem vforkInner_ok {child : ProcessInner} (h : k.vforkInner B r = .ok (child, k')) :
    k'.table = k.table ∧ k'.heap = k.heap ∧ ∃ vm childVm offset sp,
      (k.heap r).inner.procVm = some vm ∧ child.procVm = some childVm ∧
      childVm.stack.stackOffset B vm.stack = .ok offset ∧
      B.virtAdd (k.heap r).inner.context.stackFrame.stackPointer offset = .ok sp ∧
      child.context = ((k.heap r).inner.context.setStackPointer sp).setRax 0 ∧
      child.status = .ready ∧ child.exitCode = none ∧
      child.procData = (k.heap r).inner.procData := by
  simp only [vforkInner, ProcessContext.setStackOffset, bind_eq_ok, pure_eq_ok] at h
  obtain ⟨vm, hvm, n, -, ⟨childVm, v⟩, -, offset, hoffset, c, ⟨sp, hsp, rfl⟩, h⟩ := h
  obtain ⟨rfl, rfl⟩ := Prod.mk.inj h
  exact ⟨rfl, rfl, vm, childVm, offset, sp, vm_ok hvm, rfl, hoffset, hsp, rfl, rfl, rfl, rfl⟩

/-- **`vfork`.**  The parent gets the child's id, and the child the parent's context with its own
stack and the result `0`. -/
theorem vfork_table (h : k.vfork B = .ok k')
    (hb : ∀ r, k.table.current = some r → r ≤ k.table.created) :
    ∃ r child k₁, k.current = .ok r ∧ k.vforkInner B r = .ok (child, k₁) ∧
      (k'.heap (k.table.created + 1)).inner = child ∧
      k'.table = (k.table.modify r (Entry.setForked k.table.nextPid)).create (child.entry 0) := by
  simp only [vfork, vforkProcess, bind_eq_ok, pure_eq_ok] at h
  obtain ⟨r, hr, ⟨c, k₃⟩, ⟨⟨child, k₁⟩, hinner, h₃⟩, k₄, hadd, rfl⟩ := h
  obtain ⟨rfl, rfl⟩ := Prod.mk.inj h₃
  obtain ⟨ht₁, hheap, -⟩ := vforkInner_ok hinner
  have hne : r ≠ k.table.created + 1 := Nat.ne_of_lt (Nat.lt_succ_of_le (hb r (current_ok hr)))
  have hcreated : k₁.created + 1 = k.table.created + 1 := congrArg (Table.created · + 1) ht₁
  have hne' : r ≠ k₁.created + 1 := hcreated ▸ hne
  refine ⟨r, child, k₁, hr, hinner, ?_, ?_⟩
  · show (k₄.heap _).inner = child
    rw [(addProc_table hadd).1, ← hcreated]
    simp [modify, Function.update_of_ne hne'.symm]
  · rw [← ht₁]
    refine create_table (u := k₁.table.modify r (Entry.setForked k₁.table.nextPid)) ?_ hadd
    rw [table_modify (Entry.setForked k₁.table.nextPid), table_insert]
    · exact Table.insert_modify_other hne'
    · simp only [Function.update_of_ne hne']
      rfl

end Kernel

end Ysos
