import Ysos.Table

/-! # Calls as changes of the table

* `step_table`: a call of the kernel that does not panic is a `Table.Step`.
* `step_error`: a call that panics in `switch_next`, or because there is no current process, does so
  in a table that shows why. -/

namespace Ysos

open Runs

variable {α : Type} {B : Build} {k k' : Kernel α} {c c' : ProcessContext}

namespace Kernel

theorem getPid_ok {p : ProcessId} (h : k.getPid = .ok p) : p = k.table.processor := by
  unfold getPid at h
  split_ifs at h
  exact (Except.ok.inj h).symm

theorem waitPid_table {pid : ProcessId} (h : k.waitPid pid = .ok k') :
    k'.table = k.table.register pid := by
  simp only [waitPid, bind_eq_ok, pure_eq_ok] at h
  obtain ⟨cur, hcur, rfl⟩ := h
  rw [getPid_ok hcur]
  rfl

theorem block_table {pid : ProcessId} : (k.block pid).table = k.table.block pid := by
  rcases hr : k.processes pid with _ | r
  · simp only [block, getProc, Table.block, show k.table.processes pid = none from hr, hr]
  · simp only [block, getProc, Table.block, show k.table.processes pid = some r from hr, hr]
    exact table_modify Entry.block rfl

theorem currentSemaphores_ok {i : Ref} (h : Proc.currentSemaphores k = .ok i) :
    ∃ r d, k.table.current = some r ∧ (k.table.proc r).procData = some d ∧ i = d.semaphores := by
  simp only [Proc.currentSemaphores, bind_eq_ok, pure_eq_ok] at h
  obtain ⟨r, hr, d, hd, rfl⟩ := h
  unfold ProcessInner.data at hd
  split at hd
  · rename_i d' hd'
    cases hd
    exact ⟨r, d, current_ok hr, hd', rfl⟩
  · cases hd

theorem current_of_save {pid : ProcessId} {r r' : Ref} (h : k.saveCurrent B c = .ok (pid, k'))
    (hr : k.current = .ok r) (hr' : k'.current = .ok r') : r' = r := by
  obtain ⟨r₀, -, -, ht, -⟩ := saveCurrent_table h
  have h1 := current_ok hr
  have h2 := current_ok hr'
  rw [ht, show (k.table.modify r₀ (Entry.save c)).current = k.table.current from rfl, h1] at h2
  exact (Option.some.inj h2).symm

variable [FrameAllocator α]

theorem killSelf_table {ret : Int64} (h : k.killSelf B ret = .ok k') :
    k'.table = k.table.kill ret k.table.processor := by
  simp only [killSelf, bind_eq_ok] at h
  obtain ⟨pid, hpid, h⟩ := h
  rw [← getPid_ok hpid]
  exact kill_table h

end Kernel

variable [FrameAllocator α]

open Kernel

/-! ### Calls that do not panic -/

omit [FrameAllocator α] in
theorem switch_step (h : Proc.switch B c k = .ok (k', c')) :
    k.table.Step (.switch, c) k'.table c' := by
  simp only [Proc.switch, bind_eq_ok, pure_eq_ok] at h
  obtain ⟨⟨pid, k₁⟩, hsave, ⟨p, c₁, k₂⟩, hnext, h⟩ := h
  cases h
  obtain ⟨r, hr, rfl, ht, -⟩ := saveCurrent_table hsave
  have hp := switchNext_pick hnext
  rw [show (k₁.pushReady (k.table.proc r).pid).table = k₁.table.pushReady (k.table.proc r).pid
    from rfl, ht] at hp
  exact .giveUp (.switch (current_ok hr)) hp

theorem processExit_step {ret : Int64} (h : Proc.processExit B ret c k = .ok (k', c')) :
    k.table.Step (.processExit ret, c) k'.table c' := by
  simp only [Proc.processExit, bind_eq_ok, pure_eq_ok] at h
  obtain ⟨k₁, hkill, ⟨p, c₁, k₂⟩, hnext, h⟩ := h
  cases h
  have hp := switchNext_pick hnext
  rw [killSelf_table hkill] at hp
  exact .giveUp .exit hp

omit [FrameAllocator α] in
theorem waitPid_step {pid : ProcessId} (h : Proc.waitPid B pid c k = .ok (k', c')) :
    k.table.Step (.waitPid pid, c) k'.table c' := by
  unfold Proc.waitPid at h
  split at h
  · rename_i ret hret
    cases h
    exact .stay (.waitExited hret)
  · rename_i hret
    simp only [bind_eq_ok, pure_eq_ok] at h
    obtain ⟨k₁, hwait, ⟨_, k₂⟩, hsave, r', hr', ⟨p, c₁, k₃⟩, hnext, h⟩ := h
    cases h
    obtain ⟨r, hr, -, ht, -⟩ := saveCurrent_table hsave
    obtain rfl := current_of_save hsave hr hr'
    have hp := switchNext_pick hnext
    have hcur := current_ok hr
    rw [waitPid_table hwait] at ht hcur
    rw [table_modify Entry.block rfl, ht] at hp
    exact .giveUp (.wait hret hcur) hp

theorem kill_step {pid : ProcessId} (h : Proc.kill B pid c k = .ok (k', c')) :
    k.table.Step (.kill pid, c) k'.table c' := by
  simp only [Proc.kill] at h
  obtain ⟨cur, hcur, h⟩ := bind_eq_ok.mp h
  obtain rfl := getPid_ok hcur
  split_ifs at h with hpid
  · simp only [bind_eq_ok, pure_eq_ok] at h
    obtain ⟨k₁, hkill, ⟨p, c₁, k₂⟩, hnext, h⟩ := h
    cases h
    have hp := switchNext_pick hnext
    rw [killSelf_table hkill] at hp
    subst hpid
    exact .giveUp .killSelf hp
  · simp only [bind_eq_ok, pure_eq_ok] at h
    obtain ⟨k₁, hkill, h⟩ := h
    cases h
    rw [kill_table hkill]
    exact .stay (.kill hpid)

theorem spawn_step {name : String} {res : Except String ProcessId}
    (h : Proc.spawn B name k = .ok (res, k')) : k.table.Step (.spawn name, c) k'.table c := by
  unfold Proc.spawn at h
  split at h
  · cases h
    exact .stay .spawnNone
  · simp only [Proc.elfSpawn, bind_eq_ok, pure_eq_ok] at h
    obtain ⟨r, hr, ⟨pid, k₁⟩, hspawn, h⟩ := h
    cases h
    obtain ⟨e, hready, hexit, hvm, hdata, ht⟩ := spawn_table hspawn
    rw [ht]
    exact .stay (.spawn (by simp [current_ok hr]) hready hexit hvm hdata)

/-- A `vfork` up to `switch_next`.  The child has a copy of the parent's memory, and the captured
context with the stack pointer moved by the offset of its stack and the result `0`. -/
theorem vfork_giveUp {pid : ProcessId} {k₁ k₂ : Kernel α} (hk : k.table.Keyed)
    (hsave : k.saveCurrent B c = .ok (pid, k₁)) (hfork : k₁.vfork B = .ok k₂) :
    ∃ r vm childVm offset sp, ∃ e : Entry, k.table.current = some r ∧
      (k.heap r).inner.procVm = some vm ∧
      (k₂.heap (k.created + 1)).inner.procVm = some childVm ∧
      childVm.stack.stackOffset B vm.stack = .ok offset ∧
      B.virtAdd c.stackFrame.stackPointer offset = .ok sp ∧
      e.context = (c.setStackPointer sp).setRax 0 ∧ e.status = .ready ∧
      k.table.GiveUp (.vfork, c) (k.table.forked r c e) ∧
      (k₂.pushReady pid).table = k.table.forked r c e := by
  obtain ⟨r, hr, rfl, ht, hmem⟩ := saveCurrent_table hsave
  have hcur := current_ok hr
  have hle : r ≤ k₁.table.created := ht ▸ hk.current_le hcur
  obtain ⟨r', child, k₃, hr', hinner, hchild, htf⟩ := vfork_table hfork fun r' hr' => by
    rw [ht] at hr'
    exact (Option.some.inj (hcur.symm.trans hr')) ▸ hle
  obtain rfl := current_of_save hsave hr hr'
  obtain ⟨-, -, vm, childVm, offset, sp, hvm, hcvm, hoffset, hsp, hcc, hready, hexit, hdata⟩ :=
    vforkInner_ok hinner
  have hsaved : k₁.table.proc r' = (k.table.proc r').save c := by
    rw [ht]
    simp [Table.modify]
  have hctx : (k₁.heap r').inner.context = c := congrArg Entry.context hsaved
  have hpd : (k₁.heap r').inner.procData = (k.table.proc r').procData :=
    congrArg Entry.procData hsaved
  have hvm' : (k.heap r').inner.procVm = some vm := hmem ▸ hvm
  have hhas : (k.table.proc r').hasVm = true := by
    simp [Kernel.table, Process.entry, ProcessInner.entry, hvm']
  have hcreated : k.created = k₁.table.created := by
    rw [ht]
    rfl
  rw [ht] at htf
  rw [hctx] at hsp hcc
  refine ⟨r', vm, childVm, offset, sp, child.entry 0, hcur, hvm', ?_, hoffset, hsp, hcc, hready,
    ?_, ?_⟩
  · rw [hcreated, hchild]
    exact hcvm
  · exact .vfork hcur hhas hready hexit (hdata.trans hpd) (by simp [ProcessInner.entry, hcvm])
  · exact congrArg (fun t : Table => t.pushReady (k.table.proc r').pid) htf

theorem vfork_forked (hk : k.table.Keyed) (h : Proc.vfork B c k = .ok (k', c')) :
    ∃ r vm childVm offset sp, ∃ e : Entry, k.table.current = some r ∧
      (k.heap r).inner.procVm = some vm ∧
      (k'.heap (k.created + 1)).inner.procVm = some childVm ∧
      childVm.stack.stackOffset B vm.stack = .ok offset ∧
      B.virtAdd c.stackFrame.stackPointer offset = .ok sp ∧
      e.context = (c.setStackPointer sp).setRax 0 ∧ e.status = .ready ∧
      k.table.GiveUp (.vfork, c) (k.table.forked r c e) ∧
      (k.table.forked r c e).Pick c k'.table c' := by
  simp only [Proc.vfork, bind_eq_ok, pure_eq_ok] at h
  obtain ⟨⟨pid, k₁⟩, hsave, k₂, hfork, ⟨p, c₁, k₃⟩, hnext, h⟩ := h
  cases h
  obtain ⟨r, vm, childVm, offset, sp, e, hcur, hvm, hchild, hoffset, hsp, hctx, hready, hup, ht⟩ :=
    vfork_giveUp hk hsave hfork
  refine ⟨r, vm, childVm, offset, sp, e, hcur, hvm, ?_, hoffset, hsp, hctx, hready, hup, ?_⟩
  · exact (Kernel.switchNext_procVm _ hnext).trans hchild
  · exact ht ▸ Kernel.switchNext_pick hnext

theorem vfork_step (hk : k.table.Keyed) (h : Proc.vfork B c k = .ok (k', c')) :
    k.table.Step (.vfork, c) k'.table c' := by
  obtain ⟨r, vm, childVm, offset, sp, e, -, -, -, -, -, -, -, hup, hp⟩ := vfork_forked hk h
  exact .giveUp hup hp

omit [FrameAllocator α] in
theorem semNew_step {key value res : ℕ} (h : Proc.semNew key value k = .ok (res, k')) :
    k.table.Step (.semNew key value, c) k'.table c := by
  simp only [Proc.semNew, bind_eq_ok, pure_eq_ok] at h
  obtain ⟨i, hi, h⟩ := h
  obtain ⟨r, d, hr, hd, rfl⟩ := currentSemaphores_ok hi
  cases h
  exact .stay (.semNew hr hd)

omit [FrameAllocator α] in
theorem removeSem_step {key res : ℕ} (h : Proc.removeSem key k = .ok (res, k')) :
    k.table.Step (.removeSem key, c) k'.table c := by
  simp only [Proc.removeSem, bind_eq_ok, pure_eq_ok] at h
  obtain ⟨i, hi, h⟩ := h
  obtain ⟨r, d, hr, hd, rfl⟩ := currentSemaphores_ok hi
  cases h
  exact .stay (.removeSem hr hd)

omit [FrameAllocator α] in
theorem semWait_step {key : ℕ} (h : Proc.semWait B key c k = .ok (k', c')) :
    k.table.Step (.semWait key, c) k'.table c' := by
  simp only [Proc.semWait] at h
  obtain ⟨r', hr', h⟩ := bind_eq_ok.mp h
  obtain ⟨i, hi, h⟩ := bind_eq_ok.mp h
  obtain ⟨r, d, hr, hd, rfl⟩ := currentSemaphores_ok hi
  obtain rfl := Option.some.inj (hr.symm.trans (current_ok hr'))
  rcases hwait : (k.semaphoreSets d.semaphores).wait key (k.heap r).pid with ⟨res, sems⟩
  simp only [hwait] at h
  cases res with
  | ok =>
      cases h
      exact .stay (.semWait hr hd hwait nofun)
  | notExist =>
      cases h
      exact .stay (.semWait hr hd hwait nofun)
  | wakeUp p => cases h
  | block p =>
      simp only [bind_eq_ok, pure_eq_ok] at h
      obtain ⟨⟨_, k₁⟩, hsave, ⟨_, c₁, k₂⟩, hnext, h⟩ := h
      cases h
      obtain ⟨r₁, hr₁, -, ht, -⟩ := saveCurrent_table hsave
      obtain rfl := Option.some.inj (hr.symm.trans (current_ok hr₁))
      have hp := switchNext_pick hnext
      rw [block_table, ht] at hp
      exact .giveUp (.semBlock hr hd hwait) hp

omit [FrameAllocator α] in
theorem semSignal_step {key : ℕ} (h : Proc.semSignal B key c k = .ok (k', c')) :
    k.table.Step (.semSignal key, c) k'.table c' := by
  simp only [Proc.semSignal] at h
  obtain ⟨i, hi, h⟩ := bind_eq_ok.mp h
  obtain ⟨r, d, hr, hd, rfl⟩ := currentSemaphores_ok hi
  obtain ⟨⟨res, sems⟩, hsignal, h⟩ := bind_eq_ok.mp h
  cases res with
  | ok =>
      cases h
      exact .stay (.semSignal hr hd hsignal nofun)
  | notExist =>
      cases h
      exact .stay (.semSignal hr hd hsignal nofun)
  | wakeUp p =>
      cases h
      rw [wakeUp_table]
      exact .stay (.semWake hr hd hsignal)
  | block p => cases h

theorem brk_step {addr res : Option ℕ} (h : Proc.brk addr k = .ok (res, k')) :
    k'.table = k.table := by
  simp only [Proc.brk, bind_eq_ok, pure_eq_ok] at h
  obtain ⟨r, -, vm, -, h⟩ := h
  cases h
  rfl

theorem pageFault_step {addr : ℕ} {violation : Bool}
    (h : Proc.pageFault B addr violation k = .ok k') : k'.table = k.table := by
  simp only [Proc.pageFault, bind_eq_ok] at h
  obtain ⟨⟨ok, k₁⟩, hfault, h⟩ := h
  cases ok
  · cases h
  cases h
  unfold handlePageFault at hfault
  split_ifs at hfault
  · cases hfault
  simp only [bind_eq_ok, pure_eq_ok] at hfault
  obtain ⟨r, -, vm, hvm, ⟨res, vm', v⟩, -, hfault⟩ := hfault
  cases hfault
  exact table_setProcVm hvm

/-- **Calls are changes of the table.** -/
theorem step_table {call : Call} (hk : k.table.Keyed) (h : step B k call = .ok (k', c')) :
    k.table.Step call k'.table c' := by
  obtain ⟨op, c⟩ := call
  cases op with
  | switch => exact switch_step h
  | spawn name =>
      simp only [step, bind_eq_ok, pure_eq_ok] at h
      obtain ⟨⟨res, k₁⟩, hspawn, h⟩ := h
      cases h
      exact spawn_step hspawn
  | processExit ret => exact processExit_step h
  | waitPid pid => exact waitPid_step h
  | kill pid => exact kill_step h
  | vfork => exact vfork_step hk h
  | semNew key value =>
      simp only [step, bind_eq_ok, pure_eq_ok] at h
      obtain ⟨⟨res, k₁⟩, hsem, h⟩ := h
      cases h
      exact semNew_step hsem
  | removeSem key =>
      simp only [step, bind_eq_ok, pure_eq_ok] at h
      obtain ⟨⟨res, k₁⟩, hsem, h⟩ := h
      cases h
      exact removeSem_step hsem
  | semWait key => exact semWait_step h
  | semSignal key => exact semSignal_step h
  | brk addr =>
      simp only [step, bind_eq_ok, pure_eq_ok] at h
      obtain ⟨⟨res, k₁⟩, hbrk, h⟩ := h
      cases h
      exact .stay (brk_step hbrk ▸ .brk)
  | pageFault addr violation =>
      simp only [step, bind_eq_ok, pure_eq_ok] at h
      obtain ⟨k₁, hfault, h⟩ := h
      cases h
      exact .stay (pageFault_step hfault ▸ .pageFault)

/-! ### Calls that panic in `switch_next` -/

/-- A computation that does not panic in `switch_next` or for want of a current process. -/
abbrev Calm {β : Type} (x : Except Panic β) : Prop := Raises (fun e => e.inSwitch = false) x

omit [FrameAllocator α] in
theorem calm_of_inMemory {β : Type} {x : Except Panic β} (h : ProcessVm.InMemory x) : Calm x :=
  h.mono fun _ => Panic.not_inSwitch_of_inMemory

omit [FrameAllocator α] in
theorem add_calm {a b : ℕ} : Calm (B.add a b) :=
  calm_of_inMemory (ProcessVm.inMemory_of_error fun _ => Build.add_error)

omit [FrameAllocator α] in
theorem vm_calm {p : ProcessInner} {use : VmUse} (h : use ≠ .restore) : Calm (p.vm use) := by
  unfold ProcessInner.vm
  split
  · exact .ok _
  · refine .error ?_
    cases use <;> first | rfl | exact absurd rfl h

namespace Kernel

theorem dropVm_calm {r : Ref} : Calm (k.dropVm B r) := by
  unfold dropVm
  split
  · exact (calm_of_inMemory ProcessVm.drop_inMemory).bind fun _ _ => .pure _
  · exact .ok _

theorem release_calm : ∀ {n : ℕ} {r : Ref} {k : Kernel α}, Calm (k.release B n r)
  | 0, _, _ => .ok _
  | n + 1, r, k => by
      simp only [release]
      split_ifs
      · exact (Raises.foldlM fun _ _ => release_calm).bind fun _ _ => dropVm_calm
      · exact .ok _

theorem releaseAll_calm {rs : List Ref} : Calm (k.releaseAll B rs) :=
  Raises.foldlM fun _ _ => release_calm

theorem killProcess_calm {r : Ref} {ret : Int64} : Calm (k.killProcess B r ret) := by
  refine Raises.bind ?_ fun _ _ => dropVm_calm.bind fun _ _ => .pure _
  simp only [leaveParent]
  split
  · split_ifs
    · exact releaseAll_calm.bind fun _ _ => .pure _
    · exact .ok _
  · exact .ok _

theorem kill_calm {pid : ProcessId} {ret : Int64} : Calm (k.kill B pid ret) := by
  unfold kill
  split
  · refine killProcess_calm.bind fun k₁ _ => ?_
    split
    · exact .pure _
    · exact .pure _
  · exact .ok _

theorem spawn_calm {elf : ElfFile} {name : String} {parent : Option Weak}
    {procData : Option ProcessData} : Calm (k.spawn B elf name parent procData) := by
  unfold spawn
  split
  · exact .error rfl
  refine Raises.bind ?_ fun ⟨i, k₁⟩ _ => ?_
  · refine (vm_calm (by decide)).bind fun vm _ => ?_
    dsimp only
    split
    · exact .error rfl
    · exact .pure _
  · refine Raises.bind ?_ fun k₂ _ => releaseAll_calm.bind fun _ _ => .pure _
    exact (vm_calm (by decide)).bind fun _ _ =>
      (calm_of_inMemory ProcessVm.loadElf_inMemory).bind fun _ _ => .pure _

theorem vforkProcess_calm {r : Ref} : Calm (k.vforkProcess B r) := by
  refine Raises.bind ?_ fun _ _ => .pure _
  refine (vm_calm (by decide)).bind fun vm _ => add_calm.bind fun _ _ => ?_
  refine (calm_of_inMemory ProcessVm.fork_inMemory).bind fun ⟨childVm, v⟩ _ => ?_
  refine (calm_of_inMemory ProcessVm.stackOffset_inMemory).bind fun _ _ => ?_
  refine Raises.bind ?_ fun _ _ => .pure _
  refine Raises.bind (calm_of_inMemory ?_) fun _ _ => .pure _
  exact ProcessVm.inMemory_of_error fun _ => Build.virtAdd_error

/-! The causes of the other panics. -/

omit [FrameAllocator α] in
theorem getPid_error {e : Panic} (h : k.getPid = .error e) :
    e = .noCurrentProcess ∧ k.table.processor = 0 := by
  unfold getPid at h
  split_ifs at h with h0
  exact ⟨(Except.error.inj h).symm, h0⟩

omit [FrameAllocator α] in
theorem current_error {e : Panic} (h : k.current = .error e) :
    e = .noCurrentProcess ∧ k.table.current = none := by
  rcases bind_eq_error.mp h with h | ⟨pid, hpid, h⟩
  · obtain ⟨he, h0⟩ := getPid_error h
    exact ⟨he, if_pos h0⟩
  · obtain rfl := getPid_ok hpid
    simp only [getProc] at h
    split at h
    · cases h
    · rename_i hnone
      refine ⟨(Except.error.inj h).symm, ?_⟩
      unfold Table.current
      split_ifs
      · rfl
      · exact hnone

omit [FrameAllocator α] in
theorem switchLoop_error {cur : ProcessId} {e : Panic} : ∀ {q : List ProcessId},
    k.switchLoop cur c q = .error e → { k.table with readyQueue := q }.PickFails e
  | [], h => nomatch h
  | next :: q, h => by
      have hmem : next ∈ next :: q := List.mem_cons_self
      simp only [switchLoop, getProc] at h
      split at h
      · rename_i hnone
        cases h
        exact .notFound hmem hnone
      rename_i r hr
      split_ifs at h with hready hne
      · cases switchLoop_error h with
        | noCurrent h0 => exact .noCurrent h0
        | notFound hp hnone => exact .notFound (List.mem_cons_of_mem _ hp) hnone
        | vmTaken hp hr hready hvm => exact .vmTaken (List.mem_cons_of_mem _ hp) hr hready hvm
      · simp only [restore, ProcessInner.restore, ProcessInner.vm] at h
        rcases hvm : (k.heap r).inner.procVm with _ | vm
        · rw [hvm] at h
          cases h
          refine .vmTaken hmem hr (not_not.mp hready) ?_
          simp [table, Process.entry, ProcessInner.entry, hvm]
        · rw [hvm] at h
          cases h

omit [FrameAllocator α] in
theorem switchNext_error {e : Panic} (h : k.switchNext c = .error e) : k.table.PickFails e := by
  rcases bind_eq_error.mp h with h | ⟨pid, hpid, h⟩
  · obtain ⟨rfl, h0⟩ := getPid_error h
    exact .noCurrent h0
  · exact switchLoop_error h

end Kernel

/-- How a call panics in `switch_next` or because there is no current process. -/
def Table.Fails (t : Table) (call : Call) (e : Panic) : Prop :=
  (∃ u, t.GiveUp call u ∧ u.PickFails e) ∨ e = .noCurrentProcess ∧ t.current = none

/-- The panics of a part of a call that starts in `t`. -/
abbrev Explained {β : Type} (t : Table) (call : Call) (x : Except Panic β) : Prop :=
  Raises (fun e => e.inSwitch = true → t.Fails call e) x

section Explained
variable {t : Table} {call : Call}

omit [FrameAllocator α] in
theorem Calm.explained {β : Type} {x : Except Panic β} (h : Calm x) : Explained t call x :=
  h.mono fun _ he hs => absurd hs (by rw [he]; exact Bool.false_ne_true)

omit [FrameAllocator α] in
theorem current_explained (ht : k.table.current = t.current) : Explained t call k.current := by
  intro e he _
  obtain ⟨rfl, h⟩ := current_error he
  exact Or.inr ⟨rfl, ht ▸ h⟩

omit [FrameAllocator α] in
theorem getPid_explained : Explained k.table call k.getPid := by
  intro e he _
  obtain ⟨rfl, h⟩ := getPid_error he
  exact Or.inr ⟨rfl, if_pos h⟩

omit [FrameAllocator α] in
theorem saveCurrent_explained (ht : k.table.current = t.current) :
    Explained t call (k.saveCurrent B c) := by
  refine (current_explained ht).bind fun r _ => Raises.bind ?_ fun _ _ => .pure _
  exact (Calm.explained add_calm).bind fun _ _ => .pure _

omit [FrameAllocator α] in
/-- The end of a call that gave up the processor. -/
theorem switchNext_explained {β : Type} {f : ProcessId × ProcessContext × Kernel α → β}
    (h : t.GiveUp call k.table) :
    Explained t call (k.switchNext c >>= fun x => (pure (f x) : Except Panic β)) := by
  refine Raises.bind ?_ fun _ _ => .pure _
  exact fun e he _ => Or.inl ⟨k.table, h, switchNext_error he⟩

omit [FrameAllocator α] in
theorem currentSemaphores_explained : Explained k.table call (Proc.currentSemaphores k) := by
  refine (current_explained rfl).bind fun r _ => Raises.bind ?_ fun _ _ => .pure _
  refine Calm.explained (t := k.table) ?_
  unfold ProcessInner.data
  split
  · exact .ok _
  · exact .error rfl

omit [FrameAllocator α] in
theorem switch_explained : Explained k.table (.switch, c) (Proc.switch B c k) := by
  refine (saveCurrent_explained rfl).bind fun ⟨pid, k₁⟩ hsave => switchNext_explained ?_
  obtain ⟨r, hr, rfl, ht, -⟩ := saveCurrent_table hsave
  rw [show (k₁.pushReady (k.table.proc r).pid).table = k₁.table.pushReady (k.table.proc r).pid
    from rfl, ht]
  exact .switch (current_ok hr)

theorem killSelf_explained {ret : Int64} : Explained k.table call (k.killSelf B ret) :=
  getPid_explained.bind fun _ _ => Calm.explained kill_calm

theorem processExit_explained {ret : Int64} :
    Explained k.table (.processExit ret, c) (Proc.processExit B ret c k) := by
  refine killSelf_explained.bind fun k₁ hkill => switchNext_explained ?_
  rw [killSelf_table hkill]
  exact .exit

omit [FrameAllocator α] in
theorem waitPid_explained {pid : ProcessId} :
    Explained k.table (.waitPid pid, c) (Proc.waitPid B pid c k) := by
  unfold Proc.waitPid
  split
  · exact .ok _
  rename_i hret
  refine Raises.bind ?_ fun k₁ hwait => ?_
  · exact getPid_explained.bind fun _ _ => .pure _
  have ht₁ := waitPid_table hwait
  have hcur₁ : k₁.table.current = k.table.current := ht₁ ▸ rfl
  refine (saveCurrent_explained hcur₁).bind fun ⟨_, k₂⟩ hsave => ?_
  obtain ⟨r, hr, -, ht, -⟩ := saveCurrent_table hsave
  have hcur := current_ok hr
  rw [ht₁] at ht hcur
  have hcur₂ : k₂.table.current = k.table.current := ht ▸ rfl
  refine (current_explained hcur₂).bind fun r' hr' => switchNext_explained ?_
  obtain rfl := current_of_save hsave hr hr'
  rw [table_modify Entry.block rfl, ht]
  exact .wait hret hcur

theorem kill_explained {pid : ProcessId} :
    Explained k.table (.kill pid, c) (Proc.kill B pid c k) := by
  refine getPid_explained.bind fun cur hcur => ?_
  obtain rfl := getPid_ok hcur
  dsimp only
  split_ifs with hpid
  · subst hpid
    refine killSelf_explained.bind fun k₁ hkill => switchNext_explained ?_
    rw [killSelf_table hkill]
    exact .killSelf
  · exact (Calm.explained kill_calm).bind fun _ _ => .pure _

theorem spawn_explained {name : String} : Explained k.table call (Proc.spawn B name k) := by
  unfold Proc.spawn
  split
  · exact .ok _
  · exact (current_explained rfl).bind fun _ _ =>
      (Calm.explained spawn_calm).bind fun _ _ => .pure _

theorem vfork_explained (hk : k.table.Keyed) :
    Explained k.table (.vfork, c) (Proc.vfork B c k) := by
  refine (saveCurrent_explained rfl).bind fun ⟨pid, k₁⟩ hsave => ?_
  have hcur₁ : k₁.table.current = k.table.current := by
    obtain ⟨r, -, -, ht, -⟩ := saveCurrent_table hsave
    exact ht ▸ rfl
  refine Raises.bind ?_ fun k₂ hfork => switchNext_explained ?_
  · exact (current_explained hcur₁).bind fun _ _ => (Calm.explained vforkProcess_calm).bind
      fun ⟨_, _⟩ _ => (Calm.explained releaseAll_calm).bind fun _ _ => .pure _
  · obtain ⟨r, vm, childVm, offset, sp, e, -, -, -, -, -, -, -, hup, ht⟩ :=
      vfork_giveUp hk hsave hfork
    rw [ht]
    exact hup

omit [FrameAllocator α] in
theorem semWait_explained {key : ℕ} :
    Explained k.table (.semWait key, c) (Proc.semWait B key c k) := by
  refine (current_explained rfl).bind fun r' hr' => currentSemaphores_explained.bind fun i hi => ?_
  obtain ⟨r, d, hr, hd, rfl⟩ := currentSemaphores_ok hi
  obtain rfl := Option.some.inj (hr.symm.trans (current_ok hr'))
  rcases hwait : (k.semaphoreSets d.semaphores).wait key (k.heap r).pid with ⟨res, sems⟩
  dsimp only
  cases res with
  | ok => exact .pure _
  | notExist => exact .pure _
  | wakeUp p => exact (Calm.explained (.error rfl))
  | block p =>
      have hcur : (Proc.setSemaphores k d.semaphores sems).table.current = k.table.current := rfl
      refine (saveCurrent_explained hcur).bind fun ⟨_, k₁⟩ hsave => switchNext_explained ?_
      obtain ⟨r₁, hr₁, -, ht, -⟩ := saveCurrent_table hsave
      obtain rfl := Option.some.inj (hr.symm.trans (current_ok hr₁))
      rw [block_table, ht]
      exact .semBlock hr hd hwait

omit [FrameAllocator α] in
theorem semSignal_explained {key : ℕ} : Explained k.table call (Proc.semSignal B key c k) := by
  refine currentSemaphores_explained.bind fun i _ => Calm.explained (Raises.bind ?_ ?_)
  · unfold SemaphoreSet.signal
    split
    · refine Raises.bind ?_ fun _ _ => .pure _
      unfold Semaphore.signal
      split
      · exact add_calm.bind fun _ _ => .pure _
      · exact .ok _
    · exact .ok _
  · rintro ⟨res, sems⟩ -
    cases res with
    | ok => exact .pure _
    | notExist => exact .pure _
    | wakeUp p => exact .pure _
    | block p => exact .error rfl

theorem pageFault_explained {addr : ℕ} {violation : Bool} :
    Explained k.table call (Proc.pageFault B addr violation k) := by
  refine Raises.bind ?_ fun ⟨ok, k₁⟩ _ => ?_
  · unfold handlePageFault
    split_ifs
    · exact .ok _
    · exact (current_explained rfl).bind fun _ _ =>
        (Calm.explained (vm_calm (by decide))).bind fun _ _ =>
          (Calm.explained (calm_of_inMemory ProcessVm.handlePageFault_inMemory)).bind
            fun _ _ => .pure _
  · cases ok
    · exact Calm.explained (.error rfl)
    · exact .pure _

end Explained

/-- **Panics.**  A call that panics in `switch_next`, or for want of a current process, does so in
a table that shows why. -/
theorem step_error {call : Call} {e : Panic} (hk : k.table.Keyed) (h : step B k call = .error e)
    (he : e.inSwitch = true) : k.table.Fails call e := by
  suffices hx : Explained k.table call (step B k call) from hx e h he
  obtain ⟨op, c⟩ := call
  cases op with
  | switch => exact switch_explained
  | spawn name => exact spawn_explained.bind fun _ _ => .pure _
  | processExit ret => exact processExit_explained
  | waitPid pid => exact waitPid_explained
  | kill pid => exact kill_explained
  | vfork => exact vfork_explained hk
  | semNew key value =>
      refine Raises.bind (currentSemaphores_explained.bind fun _ _ => .pure _) fun _ _ => .pure _
  | removeSem key =>
      refine Raises.bind (currentSemaphores_explained.bind fun _ _ => .pure _) fun _ _ => .pure _
  | semWait key => exact semWait_explained
  | semSignal key => exact semSignal_explained
  | brk addr =>
      refine Raises.bind ?_ fun _ _ => .pure _
      exact (current_explained rfl).bind fun _ _ =>
        (Calm.explained (vm_calm (by decide))).bind fun _ _ => .pure _
  | pageFault addr violation => exact pageFault_explained.bind fun _ _ => .pure _

end Ysos
