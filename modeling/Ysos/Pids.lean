import Ysos.Death

/-! # Process ids

A new process gets the next value of a counter of type `u16`, and the table never loses a key.

* `Table.Names`: a change of the table that creates no process; a call is one, or it creates one
  process (`Table.Step.names`).
* `Table.Numbered`: the keys of the table are the ids of all processes so far.  It holds in
  every reachable state.
* `pids_fresh`: a new process gets an id that is neither `0` nor `KERNEL_PID` nor in the table if
  and only if at most 65535 processes have been created.
* `pid_zero`: the 65536th process gets the id that is reserved for no process. -/

namespace Ysos

open Runs

namespace Table

/-- No process is created, and no id changes. -/
structure Names (t u : Table) : Prop where
  created : u.created = t.created
  processes : u.processes = t.processes
  pids : ∀ r, (u.proc r).pid = (t.proc r).pid

variable {t u v : Table} {r : Ref} {p : ProcessId} {c c' : ProcessContext}

namespace Names

theorem refl (t : Table) : t.Names t := ⟨rfl, rfl, fun _ => rfl⟩

theorem trans (h : t.Names u) (h' : u.Names v) : t.Names v :=
  ⟨h'.created.trans h.created, h'.processes.trans h.processes,
    fun r => (h'.pids r).trans (h.pids r)⟩

theorem modify {f : Entry → Entry} (hf : ∀ e, (f e).pid = e.pid) : t.Names (t.modify r f) := by
  refine ⟨rfl, rfl, fun q => ?_⟩
  by_cases hq : q = r
  · subst hq
    simp [Table.modify, hf]
  · simp [Table.modify, hq]

theorem setForked :
    t.Names ((t.modify r (Entry.save c)).modify r (Entry.setForked t.nextPid)) := by
  have hsave : t.Names (t.modify r (Entry.save c)) := modify fun _ => rfl
  exact hsave.trans (modify fun _ => rfl)

theorem wakeUp {ret : Option Int64} : t.Names (t.wakeUp ret p) := by
  rcases hr : t.processes p with _ | r
  · rw [wakeUp_none hr]
    exact .refl t
  · rw [wakeUp_some hr]
    have hmod : t.Names (t.modify r (Entry.wake ret)) := modify fun _ => rfl
    exact hmod.trans ⟨rfl, rfl, fun _ => rfl⟩

theorem wakeAll {ret : Int64} : ∀ {ps : List ProcessId} {t : Table}, t.Names (t.wakeAll ret ps)
  | [], t => .refl t
  | _ :: _, _ => wakeUp.trans wakeAll

theorem block : t.Names (t.block p) := by
  unfold Table.block
  split
  · exact modify fun _ => rfl
  · exact .refl t

theorem kill {ret : Int64} : t.Names (t.kill ret p) := by
  rcases hr : t.processes p with _ | r
  · rw [kill_none hr]
    exact .refl t
  · rw [kill_some hr]
    have hmod : t.Names (t.modify r (Entry.kill ret)) := modify fun _ => rfl
    have hrem : t.Names ((t.modify r (Entry.kill ret)).removeWaiters p) :=
      hmod.trans ⟨rfl, rfl, fun _ => rfl⟩
    exact hrem.trans wakeAll

theorem pick (h : t.Pick c u c') : t.Names u := by
  cases h with
  | none => exact ⟨rfl, rfl, fun _ => rfl⟩
  | same => exact ⟨rfl, rfl, fun _ => rfl⟩
  | @switch pre rest p r =>
      have hmod : t.Names (t.modify r Entry.resume) := modify fun _ => rfl
      exact hmod.trans ⟨rfl, rfl, fun _ => rfl⟩

end Names

/-- The call creates no process, or one. -/
def Names1 (t u : Table) : Prop := t.Names u ∨ ∃ v e, t.Names v ∧ (v.create e).Names u

theorem GiveUp.names {call : Call} (h : t.GiveUp call u) : t.Names1 u := by
  cases h with
  | @switch c r =>
      have hmod : t.Names (t.modify r (Entry.save c)) := .modify fun _ => rfl
      exact Or.inl (hmod.trans ⟨rfl, rfl, fun _ => rfl⟩)
  | exit => exact Or.inl .kill
  | @wait pid c r =>
      have hreg : t.Names (t.register pid) := ⟨rfl, rfl, fun _ => rfl⟩
      have hsave : t.Names ((t.register pid).modify r (Entry.save c)) :=
        hreg.trans (.modify fun _ => rfl)
      exact Or.inl (hsave.trans (.modify fun _ => rfl))
  | killSelf => exact Or.inl .kill
  | @vfork c e r => exact Or.inr ⟨_, e, .setForked, rfl, rfl, fun _ => rfl⟩
  | @semBlock key c r d p sems =>
      have hsem : t.Names (t.setSemaphores d.semaphores sems) := ⟨rfl, rfl, fun _ => rfl⟩
      have hsave : t.Names ((t.setSemaphores d.semaphores sems).modify r (Entry.save c)) :=
        hsem.trans (.modify fun _ => rfl)
      exact Or.inl (hsave.trans .block)

theorem Stay.names {call : Call} (h : t.Stay call u c') : t.Names1 u := by
  cases h with
  | @spawn name c e =>
      have hsem : t.Names (t.setSemaphores (t.created + 1) SemaphoreSet.empty) :=
        ⟨rfl, rfl, fun _ => rfl⟩
      exact Or.inr ⟨_, e, hsem, .refl _⟩
  | spawnNone => exact Or.inl (.refl t)
  | waitExited => exact Or.inl (.refl t)
  | kill => exact Or.inl .kill
  | semNew => exact Or.inl ⟨rfl, rfl, fun _ => rfl⟩
  | removeSem => exact Or.inl ⟨rfl, rfl, fun _ => rfl⟩
  | semWait => exact Or.inl ⟨rfl, rfl, fun _ => rfl⟩
  | semSignal => exact Or.inl ⟨rfl, rfl, fun _ => rfl⟩
  | @semWake B key c r d p sems =>
      have hsem : t.Names (t.setSemaphores d.semaphores sems) := ⟨rfl, rfl, fun _ => rfl⟩
      exact Or.inl (hsem.trans .wakeUp)
  | brk => exact Or.inl (.refl t)
  | pageFault => exact Or.inl (.refl t)

/-- A call creates at most one process. -/
theorem Step.names {call : Call} (h : t.Step call u c') : t.Names1 u := by
  cases h with
  | giveUp hg hp =>
      rcases hg.names with hn | ⟨v, e, hv, hn⟩
      · exact Or.inl (hn.trans (.pick hp))
      · exact Or.inr ⟨v, e, hv, hn.trans (.pick hp)⟩
  | stay hs => exact hs.names

/-! ### The keys of the table -/

/-- The keys of the table are the ids of all processes so far, and every process in the table is
there under its own id. -/
structure Numbered (t : Table) : Prop where
  pos : 1 ≤ t.created
  ids : ∀ r, 1 ≤ r → r ≤ t.created → (t.proc r).pid = r % PIDS
  keys : ∀ r, 1 ≤ r → r ≤ t.created → t.processes (r % PIDS) ≠ none
  entries : ∀ p r, t.processes p = some r → 1 ≤ r ∧ r ≤ t.created ∧ p = r % PIDS

theorem Numbered.keyed (h : t.Numbered) : t.Keyed := fun p r hp => by
  obtain ⟨h1, hle, rfl⟩ := h.entries p r hp
  exact ⟨hle, h.ids r h1 hle⟩

theorem Numbered.key_iff (h : t.Numbered) :
    t.processes p ≠ none ↔ ∃ r, 1 ≤ r ∧ r ≤ t.created ∧ p = r % PIDS := by
  constructor
  · intro hp
    obtain ⟨r, hr⟩ := Option.ne_none_iff_exists'.mp hp
    exact ⟨r, h.entries p r hr⟩
  · rintro ⟨r, h1, hle, rfl⟩
    exact h.keys r h1 hle

theorem Keyed.of_names (h : t.Keyed) (hn : t.Names u) : u.Keyed := fun p r hp => by
  rw [hn.created, hn.pids]
  exact h p r (hn.processes ▸ hp)

theorem Numbered.of_names (h : t.Numbered) (hn : t.Names u) : u.Numbered := by
  obtain ⟨hcreated, hprocesses, hpids⟩ := hn
  refine ⟨hcreated ▸ h.pos, fun r h1 hle => ?_, fun r h1 hle => ?_, fun p r hp => ?_⟩
  · rw [hpids]
    exact h.ids r h1 (hcreated ▸ hle)
  · rw [hprocesses]
    exact h.keys r h1 (hcreated ▸ hle)
  · rw [hcreated]
    exact h.entries p r (hprocesses ▸ hp)

theorem create_processes {e : Entry} : (t.create e).processes =
    Function.update t.processes t.nextPid (some (t.created + 1)) := rfl

theorem create_proc_new {e : Entry} : ((t.create e).proc (t.created + 1)).pid = t.nextPid := by
  simp [Table.create, insert]

theorem create_proc_old {e : Entry} (hr : r ≤ t.created) : (t.create e).proc r = t.proc r :=
  Function.update_of_ne (Nat.ne_of_lt (Nat.lt_succ_of_le hr)) _ _

theorem Numbered.create {e : Entry} (h : t.Numbered) : (t.create e).Numbered := by
  have hcases : ∀ r, r ≤ t.created + 1 → r = t.created + 1 ∨ r ≤ t.created := fun r hle =>
    (Nat.lt_or_eq_of_le hle).symm.imp_right Nat.le_of_lt_succ
  refine ⟨Nat.succ_pos _, fun r h1 hle => ?_, fun r h1 hle => ?_, fun p r hp => ?_⟩
  · rcases hcases r hle with rfl | hle
    · exact create_proc_new
    · rw [create_proc_old hle]
      exact h.ids r h1 hle
  · rw [create_processes]
    rcases hcases r hle with rfl | hle
    · rw [show (t.created + 1) % PIDS = t.nextPid from rfl, Function.update_self]
      exact nofun
    · by_cases hpn : r % PIDS = t.nextPid
      · rw [hpn, Function.update_self]
        exact nofun
      · rw [Function.update_of_ne hpn]
        exact h.keys r h1 hle
  · rw [create_processes] at hp
    by_cases hpn : p = t.nextPid
    · subst hpn
      rw [Function.update_self, Option.some.injEq] at hp
      subst hp
      exact ⟨Nat.succ_pos _, le_rfl, rfl⟩
    · rw [Function.update_of_ne hpn] at hp
      obtain ⟨h1, hle, hpr⟩ := h.entries p r hp
      exact ⟨h1, Nat.le_succ_of_le hle, hpr⟩

/-- Up to `65536`, the next value of the counter is not one of its values so far. -/
theorem next_ne_key {n : ℕ} (hn : n < 65536) :
    ¬ ∃ r : ℕ, 1 ≤ r ∧ r ≤ n ∧ (n + 1) % PIDS = r % PIDS := by
  have hP : PIDS = 65536 := rfl
  rintro ⟨r, h1, hle, hr⟩
  rw [hP] at hr
  omega

theorem nextPid_arith {n : ℕ} (hn : 1 ≤ n) :
    ((n + 1) % PIDS ≠ 0 ∧ (n + 1) % PIDS ≠ KERNEL_PID ∧
      ¬ ∃ r : ℕ, 1 ≤ r ∧ r ≤ n ∧ (n + 1) % PIDS = r % PIDS) ↔ n < 65535 := by
  have hP : PIDS = 65536 := rfl
  have hK : KERNEL_PID = (1 : ℕ) := rfl
  rw [hP, hK]
  constructor
  · rintro ⟨h0, -, hno⟩
    by_contra hge
    -- the id that the process `65536` earlier has
    refine hno ⟨n + 1 - 65536, ?_, by omega, by omega⟩
    by_contra hlt
    exact h0 (by omega)
  · intro hlt
    exact ⟨by omega, by omega, next_ne_key (by omega)⟩

theorem Numbered.names1 (h : t.Numbered) (hn : t.Names1 u) : u.Numbered := by
  rcases hn with hn | ⟨v, e, hv, hn⟩
  · exact h.of_names hn
  · exact (h.of_names hv).create.of_names hn

/-- The next id is free and not reserved as long as the counter has not wrapped. -/
theorem Numbered.nextPid_fresh (h : t.Numbered) :
    (t.nextPid ≠ 0 ∧ t.nextPid ≠ KERNEL_PID ∧ t.processes t.nextPid = none) ↔
      t.created < 65535 := by
  have hfree : t.processes t.nextPid = none ↔
      ¬ ∃ r, 1 ≤ r ∧ r ≤ t.created ∧ t.nextPid = r % PIDS := by
    rw [← h.key_iff, not_not]
  rw [hfree]
  exact nextPid_arith h.pos

end Table

variable {α : Type}

theorem boot_numbered (b : BootInfo α) : (boot b).table.Numbered := by
  have hone : ∀ r : Ref, 1 ≤ r → r ≤ (boot b).table.created → r = 1 := fun r h1 hle =>
    Nat.le_antisymm hle h1
  refine ⟨le_rfl, fun r h1 hle => ?_, fun r h1 hle => ?_, fun p r hp => ?_⟩
  · rw [hone r h1 hle]
    rfl
  · rw [hone r h1 hle]
    exact nofun
  · by_cases hp1 : p = 1
    · subst hp1
      cases hp
      exact ⟨le_rfl, le_rfl, rfl⟩
    · rw [show (boot b).table.processes p = none from Function.update_of_ne hp1 _ _] at hp
      cases hp

variable [FrameAllocator α] {B : Build}

theorem run_numbered {b : BootInfo α} {s : Kernel α} {C : Kernel α → Call → Kernel α → Prop}
    (h : Run (step B) C (boot b) s) : s.table.Numbered :=
  h.invariant (P := fun k => k.table.Numbered) (boot_numbered b)
    fun _ _ _ _ hs hstep _ => hs.names1 (step_table hs.keyed hstep).names

theorem step_newPid {s t : Kernel α} {call : Call} {c' : ProcessContext} (hk : s.table.Keyed)
    (hstep : step B s call = .ok (t, c')) (hnew : t.created ≠ s.created) :
    t.created = s.created + 1 ∧ (t.heap t.created).pid = s.table.nextPid ∧
      t.processes s.table.nextPid = some t.created := by
  rcases (step_table hk hstep).names with hn | ⟨v, e, hv, hn⟩
  · exact absurd hn.created hnew
  have hv1 : v.created + 1 = s.created + 1 := congrArg (· + 1) hv.created
  have hcreated : t.created = s.created + 1 := hn.created.trans hv1
  have hnext : v.nextPid = s.table.nextPid := congrArg (fun n => (n + 1) % PIDS) hv.created
  refine ⟨hcreated, ?_, ?_⟩
  · show (t.table.proc t.created).pid = _
    rw [hn.pids, hcreated, ← hnext, ← hv1]
    exact Table.create_proc_new
  · have hp : t.processes = (v.create e).processes := hn.processes
    rw [hp, Table.create_processes, ← hnext, Function.update_self, hcreated, hv1]

/-- A program without segments. -/
def emptyElf : ElfFile where
  input := []
  programHeaders := []
  entryPoint := 0

/-- The first stack of an address space is one page. -/
theorem mapPages_initStack {m : Mem α} {f : Frame} {a : α} (ht : m.table = fun _ => none)
    (ha : allocateFrame m.alloc = (some f, a)) :
    ∃ r m', mapPages Build.release STACK_INIT_BOT STACK_DEF_PAGE true m = .ok (.ok r, m') ∧
      m'.alloc = a := by
  have haddr : virtAddrNew STACK_INIT_BOT = .ok STACK_INIT_BOT := rfl
  have hend : Build.release.pageAdd (pageOf STACK_INIT_BOT) STACK_DEF_PAGE =
      .ok (pageOf STACK_INIT_BOT + 1) := rfl
  have hlast : Build.release.pageSub (pageOf STACK_INIT_BOT + 1) 1 =
      .ok (pageOf STACK_INIT_BOT) := rfl
  have hmap : ∃ m', mapRange ⟨pageOf STACK_INIT_BOT, pageOf STACK_INIT_BOT⟩ true m = (.ok (), m') ∧
      m'.alloc = a := by
    have hpages : (PageRangeInclusive.mk (pageOf STACK_INIT_BOT) (pageOf STACK_INIT_BOT)).pages =
        [pageOf STACK_INIT_BOT] := rfl
    simp only [mapRange, hpages, mapEach, ha, Mem.mapTo, ht]
    exact ⟨_, rfl, rfl⟩
  obtain ⟨m', hmap, halloc⟩ := hmap
  refine ⟨⟨pageOf STACK_INIT_BOT, pageOf STACK_INIT_BOT + 1⟩, m', ?_, halloc⟩
  simp only [mapPages, bind_eq_ok]
  refine ⟨(), rfl, _, haddr, _, hend, _, hlast, ?_⟩
  rw [hmap]
  rfl

/-- A program without segments is loaded with one frame, for its stack. -/
theorem loadElf_empty {i : SpaceId} {v : Vm α} {f : Frame} {a : α}
    (ht : v.space.table = fun _ => none) (ha : allocateFrame v.alloc = (some f, a)) :
    ∃ vm' v', (ProcessVm.new i).loadElf Build.release emptyElf v = .ok (vm', v') ∧
      v'.alloc = a := by
  obtain ⟨r, m, hmap, halloc⟩ := mapPages_initStack (m := v.mem) ht ha
  refine ⟨⟨i, ⟨r, STACK_DEF_PAGE⟩, [], 0⟩, v.setMem m, ?_, halloc⟩
  simp only [ProcessVm.loadElf, Stack.init, bind_eq_ok]
  refine ⟨_, rfl, ⟨⟨r, STACK_DEF_PAGE⟩, m⟩, ⟨(), rfl, ⟨.ok r, m⟩, hmap, rfl⟩, ?_⟩
  rfl

/-- A machine with `n` frames and one app, a program without segments. -/
def wideMachine (n : ℕ) : BootInfo BootInfoFrameAllocator :=
  { smallMachine with
    loadApps := some [⟨"sh", emptyElf⟩]
    alloc := ⟨n, 0, List.range' 1 n, []⟩ }

/-- The kernel process runs, and there are frames for `n` more programs. -/
structure CanSpawn (n : ℕ) (k : Kernel BootInfoFrameAllocator) : Prop where
  numbered : k.table.Numbered
  processor : k.processor = 1
  kernel : k.processes 1 = some 1
  memory : ∃ vm, (k.heap 1).inner.procVm = some vm ∧ vm.pageTable = 1
  table : (k.spaces 1).table = fun _ => none
  apps : k.appList = some [⟨"sh", emptyElf⟩]
  frames : 2 * n ≤ k.alloc.free.length

theorem allocate_some {a : BootInfoFrameAllocator} (h : 0 < a.free.length) :
    ∃ f b, allocateFrame a = (some f, b) ∧ a.free.length = b.free.length + 1 := by
  rcases ha : allocateFrame a with ⟨_ | f, b⟩
  · rw [(BootInfoFrameAllocator.free_of_none ha).1] at h
    cases h
  · exact ⟨f, b, rfl, by rw [BootInfoFrameAllocator.free_of_some ha, List.length_cons]⟩

/-- What the kernel has in common before and after a program is started under the next id. -/
structure Started (k k' : Kernel BootInfoFrameAllocator) : Prop where
  created : k'.created = k.created + 1
  processor : k'.processor = k.processor
  apps : k'.appList = k.appList
  processes : k'.processes =
    Function.update k.processes ((k.created + 1) % PIDS) (some (k.created + 1))
  heap : ∀ r ≤ k.created, k'.heap r = k.heap r
  spaces : ∀ r ≤ k.created, k'.spaces r = k.spaces r

/-- With two frames the kernel process starts a program without segments under an id that is free. -/
theorem spawn_emptyElf {k : Kernel BootInfoFrameAllocator} {vm : ProcessVm} {f g : Frame}
    {a b : BootInfoFrameAllocator} (hkernel : k.processes 1 = some 1)
    (hvm : (k.heap 1).inner.procVm = some vm) (hspace : vm.pageTable = 1)
    (htable : (k.spaces 1).table = fun _ => none)
    (ha : allocateFrame k.alloc = (some f, a)) (hb : allocateFrame a = (some g, b))
    (hfree : k.processes ((k.created + 1) % PIDS) = none) :
    ∃ k', k.spawn Build.release emptyElf "sh" (some (some 1)) none =
      .ok ((k.created + 1) % PIDS, k') ∧ Started k k' ∧ k'.alloc = b := by
  -- the kernel's page table is copied, and a process made for the copy
  let space : AddressSpace :=
    { table := (k.spaces 1).table, addr := f, usingCount := 1, heapEnd := HEAP_START }
  let k₁ : Kernel BootInfoFrameAllocator := { k with
    alloc := a
    phys := Function.update k.phys f (k.phys (k.spaces 1).addr)
    spaces := Function.update k.spaces (k.created + 1) space }
  let k₂ := (k₁.newProcess "sh" (some (some 1)) (ProcessVm.new (k.created + 1)) none).2
  let k₃ := k₂.modify (k.created + 1) ProcessInner.pause
  have hspace₃ : k₃.spaces (k.created + 1) = space := Function.update_self _ _ _
  obtain ⟨vm', v', hload, halloc⟩ := loadElf_empty (i := k.created + 1)
    (v := k₃.vm (k.created + 1)) (by rw [Kernel.vm, hspace₃]; exact htable) hb
  let k₄ := (k₃.setVm (k.created + 1) v').modify (k.created + 1) fun p =>
    { p with procVm := some vm' }
  let k₅ := k₄.modify (k.created + 1) (ProcessInner.initStackFrame k₄.userSelectors
    (virtAddrTruncate emptyElf.entryPoint) (virtAddrTruncate STACK_INIT_TOP))
  let k₆ := { k₅ with
    processes := Function.update k.processes ((k.created + 1) % PIDS) (some (k.created + 1)) }
  have hclone : k.clonePageTable 1 = .ok (k.created + 1, k₁) := by
    simp only [Kernel.clonePageTable, ProcessInner.vm, hvm, bind_eq_ok]
    refine ⟨vm, rfl, ?_⟩
    rw [ha, hspace]
    rfl
  have hload' : k₃.loadElf Build.release (k.created + 1) emptyElf = .ok k₄ := by
    simp only [Kernel.loadElf, bind_eq_ok]
    refine ⟨ProcessVm.new (k.created + 1), ?_, (vm', v'), hload, rfl⟩
    simp [k₃, k₂, k₁, ProcessInner.vm, Kernel.modify, Kernel.newProcess, ProcessInner.pause]
  have hadd : k₅.addProc Build.release ((k.created + 1) % PIDS) (k.created + 1) = .ok k₆ := by
    have hold : k₅.processes ((k.created + 1) % PIDS) = none := hfree
    rw [Kernel.addProc, hold]
    rfl
  have hnew : (k₅.heap (k.created + 1)).pid = (k.created + 1) % PIDS := by
    simp [k₅, k₄, k₃, k₂, k₁, Kernel.modify, Kernel.newProcess, Kernel.setVm]
  refine ⟨k₆.pushReady ((k.created + 1) % PIDS), ?_,
    ⟨rfl, rfl, rfl, rfl, fun r hr => ?_, fun r hr => ?_⟩, halloc⟩
  · have hproc : k.getProc KERNEL_PID = some 1 := hkernel
    simp only [Kernel.spawn, hproc, bind_eq_ok]
    refine ⟨_, hclone, k₄, hload', k₆, ?_, ?_⟩
    · rw [← hnew] at hadd
      exact hadd
    · exact congrArg (fun p => Except.ok (p, k₆.pushReady p)) hnew
  · have hne : r ≠ k.created + 1 := (Nat.lt_succ_of_le hr).ne
    exact (Function.update_of_ne hne _ _).trans ((Function.update_of_ne hne _ _).trans
      ((Function.update_of_ne hne _ _).trans (Function.update_of_ne hne _ _)))
  · have hne : r ≠ k.created + 1 := (Nat.lt_succ_of_le hr).ne
    exact (Function.update_of_ne hne _ _).trans (Function.update_of_ne hne _ _)

namespace CanSpawn

variable {n : ℕ} {k k' : Kernel BootInfoFrameAllocator}

/-- A program that is started leaves the kernel process alone, and takes two frames. -/
theorem started (h : CanSpawn (n + 1) k) (hlt : k.created < 65536) (hs : Started k k')
    (hnumbered : k'.table.Numbered) (halloc : k.alloc.free.length = k'.alloc.free.length + 2) :
    CanSpawn n k' := by
  obtain ⟨vm, hvm, hspace⟩ := h.memory
  have hpos : 1 ≤ k.created := h.numbered.pos
  have hframes := h.frames
  have hP : PIDS = 65536 := rfl
  have hpid : (1 : ℕ) ≠ (k.created + 1) % PIDS := by
    rw [hP]
    omega
  refine ⟨hnumbered, hs.processor.trans h.processor, ?_, ⟨vm, ?_, hspace⟩, ?_,
    hs.apps.trans h.apps, by omega⟩
  · rw [hs.processes, Function.update_of_ne hpid, h.kernel]
  · rw [hs.heap 1 hpos, hvm]
  · rw [hs.spaces 1 hpos, h.table]

theorem step (h : CanSpawn (n + 1) k) (hlt : k.created < 65536) :
    ∃ k', Ysos.step Build.release k (.spawn "sh", default) = .ok (k', default) ∧
      k'.created = k.created + 1 ∧ CanSpawn n k' := by
  obtain ⟨vm, hvm, hspace⟩ := h.memory
  have hframes := h.frames
  obtain ⟨f, a, ha, hlen⟩ := allocate_some (a := k.alloc) (by omega)
  obtain ⟨g, b, hb, hlen'⟩ := allocate_some (a := a) (by omega)
  have hfree : k.processes ((k.created + 1) % PIDS) = none := by
    by_contra hp
    obtain ⟨r, h1, hle, hr⟩ := h.numbered.key_iff.mp hp
    exact Table.next_ne_key hlt ⟨r, h1, hle, hr⟩
  obtain ⟨k', hspawn, hs, halloc⟩ := spawn_emptyElf h.kernel hvm hspace h.table ha hb hfree
  have hstep : Ysos.step Build.release k (.spawn "sh", default) = .ok (k', default) := by
    have hfind : (k.appList.bind fun apps => apps.find? fun app => app.name = "sh") =
        some ⟨"sh", emptyElf⟩ := by
      rw [h.apps]
      rfl
    have hcur : k.current = .ok 1 := by
      refine Kernel.current_of_table (Table.current_iff.mpr ?_)
      rw [show k.table.processor = 1 from h.processor]
      exact ⟨one_ne_zero, h.kernel⟩
    simp only [Ysos.step, Proc.spawn, hfind, Proc.elfSpawn, hcur, bind_eq_ok]
    exact ⟨_, ⟨1, rfl, _, hspawn, rfl⟩, rfl⟩
  refine ⟨k', hstep, hs.created, h.started hlt hs ?_ (by rw [halloc]; omega)⟩
  exact h.numbered.names1 (step_table h.numbered.keyed hstep).names

end CanSpawn

/-- The wide machine boots with frames for `n` programs: the top-level table and the page of the stack,
and the three tables that lead to this page. -/
theorem wideMachine_canSpawn (n : ℕ) : CanSpawn n (boot (wideMachine (5 * n))) := by
  refine ⟨boot_numbered _, rfl, rfl, ⟨_, rfl, rfl⟩, rfl, rfl, ?_⟩
  show 2 * n ≤ ([] ++ List.range' 1 (5 * n)).length
  rw [List.nil_append, List.length_range']
  omega

theorem run_spawns : ∀ {n m : ℕ} {k : Kernel BootInfoFrameAllocator}, CanSpawn (n + m) k →
    k.created + n ≤ 65536 →
    ∃ k', Run (step Build.release) Any k k' ∧ k'.created = k.created + n ∧ CanSpawn m k'
  | 0, m, k, h, _ => ⟨k, .refl, rfl, by rwa [Nat.zero_add] at h⟩
  | n + 1, m, k, h, hle => by
      rw [Nat.add_right_comm] at h
      obtain ⟨k₁, hstep, hcreated, h₁⟩ := h.step (by omega)
      obtain ⟨k', hrun, hcreated', h'⟩ := run_spawns h₁ (by omega)
      exact ⟨k', .head ⟨_, _, hstep, trivial⟩ hrun, by omega, h'⟩

end Ysos
