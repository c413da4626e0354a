import Ysos.Ownership
import Ysos.KernelMemory

/-! # Address spaces are isolated

* `Memory.Isolated`: every frame has one use, and the processes of an address space return only frames
  that are used for it.
* `step_moved`: a call keeps this, and leaves alone the address spaces that it is not about.
* `memory_isolation`: the runs of calls.

`clone_level_4` copies the top-level table, and the tables under the entries that the kernel uses (`E`),
with the user heap below them, stay shared by all address spaces.  So this is about the pages under the
other entries, where programs, stacks and heaps are: what the kernel maps stays under its own. -/

namespace Ysos

open Runs Kernel

variable {B : Build} {E : Finset ℕ} {k k' : Kernel BootInfoFrameAllocator} {c c' : ProcessContext}
  {r : Ref} {p : ProcessId}

/-! ### Frames have one use -/

namespace Memory

variable {M M' : Memory} {use use' : Uses} {i j : SpaceId}

/-- A process and what it has: the kernel process the address space `1` and a stack in its slot, the
others frames of their own. -/
structure Owner (E : Finset ℕ) (use : Uses) (M : Memory) (r : Ref) (vm : ProcessVm) : Prop where
  old : r ≤ M.created
  space : vm.pageTable ≤ M.created
  kernel : r = 1 → vm.pageTable = 1 ∧ vm.stack.slot = Stack.kstack.slot
  user : r ≠ 1 → vm.pageTable ≠ 1 ∧ vm.Held E use (M.spaces vm.pageTable).table ∧
    SpaceHeld use vm.pageTable (M.spaces vm.pageTable)

/-- The processes that use the address space `i`. -/
def users (M : Memory) (i : SpaceId) : Finset Ref :=
  (Finset.range (M.created + 1)).filter fun r => (M.procVm r).map ProcessVm.pageTable = some i

/-- Every frame has one use, the kernel maps pages under its own entries, and a page table is freed
with its last process. -/
structure Isolated (E : Finset ℕ) (use : Uses) (M : Memory) : Prop where
  booted : 1 ≤ M.created
  labelled : ∀ i, Labelled E use i (M.vm i).mem
  kernel : ∀ p, (M.spaces 1).table p ≠ none → topEntry p ∈ E
  owner : ∀ r vm, M.procVm r = some vm → M.Owner E use r vm
  count : ∀ i, i ≠ 1 → (M.users i).card ≤ (M.spaces i).usingCount

/-- The address space `j` and its pages outside the entries `E` are as they were. -/
def Undisturbed (E : Finset ℕ) (j : SpaceId) (M M' : Memory) : Prop := M'.spaces j = M.spaces j ∧
  ∀ p e, (M.spaces j).table p = some e → topEntry p ∉ E →
    M'.phys e.frame = M.phys e.frame

/-- What happens in the address space `i` leaves the others undisturbed. -/
def Confined (E : Finset ℕ) (i : SpaceId) (M M' : Memory) : Prop := ∀ j, j ≠ i → Undisturbed E j M M'

theorem Undisturbed.refl : Undisturbed E j M M := ⟨rfl, fun _ _ _ _ => rfl⟩

theorem Undisturbed.trans {M₁ : Memory} (h : Undisturbed E j M M₁) (h' : Undisturbed E j M₁ M') :
    Undisturbed E j M M' :=
  ⟨h'.1.trans h.1, fun p e he hu => (h'.2 p e (h.1.symm ▸ he) hu).trans (h.2 p e he hu)⟩

theorem mem_users {r : Ref} : r ∈ M.users i ↔
    r ≤ M.created ∧ ∃ vm, M.procVm r = some vm ∧ vm.pageTable = i := by
  rw [users, Finset.mem_filter, Finset.mem_range, Nat.lt_succ_iff, Option.map_eq_some_iff]

namespace Isolated

/-- Uses of other address spaces are kept. -/
theorem keep_own {m m' : Mem BootInfoFrameAllocator} (hkeep : KeepsOthers i use m use' m') (hj : j ≠ i)
    {f : Frame} {p : ℕ} (hf : use f = .page j p) : use' f = .page j p ∧ m'.phys f = m.phys f := by
  rw [← hf]
  refine hkeep f (by rw [hf]; rintro ⟨⟩) (fun q hq => ?_) (by rw [hf]; rintro ⟨⟩)
  rw [hf] at hq
  exact hj (Use.page.inj hq).1

theorem keep_top {m m' : Mem BootInfoFrameAllocator} (hkeep : KeepsOthers i use m use' m') (hj : j ≠ i)
    {f : Frame} (hf : use f = .top j) : use' f = .top j := by
  rw [← hf]
  refine (hkeep f (by rw [hf]; rintro ⟨⟩) (fun q hq => ?_) fun ht => ?_).1
  · rw [hf] at hq
    cases hq
  · rw [hf] at ht
    exact hj (Use.top.inj ht)

theorem keep_owner {m m' : Mem BootInfoFrameAllocator} {r : Ref} {vm : ProcessVm}
    (hkeep : KeepsOthers i use m use' m') (hj : vm.pageTable ≠ i) (h : M.Owner E use r vm)
    (hcreated : M.created ≤ M'.created)
    (hspace : M'.spaces vm.pageTable = M.spaces vm.pageTable) : M'.Owner E use' r vm := by
  have hown : ∀ {T : PageTable} {p : ℕ}, Owns use vm.pageTable T p → Owns use' vm.pageTable T p :=
    fun h e he => (keep_own hkeep hj (h e he)).1
  refine ⟨h.old.trans hcreated, h.space.trans hcreated, h.kernel, fun hr => ?_⟩
  obtain ⟨hne, hheld, hs⟩ := h.user hr
  rw [hspace]
  exact ⟨hne, ⟨⟨hheld.stack.toInSlot, hheld.stack.area, fun p hp => hown (hheld.stack.own p hp)⟩,
    hheld.code, fun c hc p hp => hown (hheld.own c hc p hp)⟩,
    ⟨hs.inHeap, fun p hp => hown (hs.heap p hp), keep_top hkeep hj hs.top⟩⟩

/-- One address space changes, with the processes that use it. -/
theorem update {v : Vm BootInfoFrameAllocator} (h : Isolated E use M)
    (hspaces : M'.spaces = Function.update M.spaces i v.space) (halloc : M'.alloc = v.alloc)
    (hphys : M'.phys = v.phys) (hcreated : M.created ≤ M'.created) (hi : i ≤ M'.created)
    (hlabelled : Labelled E use' i v.mem) (hkeep : KeepsOthers i use (M.vm i).mem use' v.mem)
    (hkernel : i = 1 → ∀ p, v.space.table p ≠ none → topEntry p ∈ E)
    (hothers : ∀ r vm, M'.procVm r = some vm → vm.pageTable ≠ i → M.procVm r = some vm)
    (hown : ∀ r vm, M'.procVm r = some vm → vm.pageTable = i → r ≤ M'.created ∧
      (r = 1 → i = 1 ∧ vm.stack.slot = Stack.kstack.slot) ∧
      (r ≠ 1 → i ≠ 1 ∧ vm.Held E use' v.space.table ∧ SpaceHeld use' i v.space))
    (hcount : i ≠ 1 → (M'.users i).card ≤ v.space.usingCount) :
    Isolated E use' M' ∧ Confined E i M M' := by
  have hself : M'.spaces i = v.space := by rw [hspaces, Function.update_self]
  have hother : ∀ j, j ≠ i → M'.spaces j = M.spaces j := fun j hj => by
    rw [hspaces, Function.update_of_ne hj]
  have hfree : ∀ f, f ∈ M'.alloc.free ↔ use' f = .free := by
    rw [halloc]
    exact hlabelled.free
  refine ⟨⟨h.booted.trans hcreated, fun j => ⟨?_, hfree, fun p e he hu => ?_⟩, fun p hp => ?_,
    fun r vm hvm => ?_, fun j hj => ?_⟩, fun j hj => ⟨hother j hj, fun p e he hu => ?_⟩⟩
  · show M'.alloc.free.Nodup
    rw [halloc]
    exact hlabelled.nodup
  · have he' : (M'.spaces j).table p = some e := he
    by_cases hji : j = i
    · subst hji
      rw [hself] at he'
      exact hlabelled.own p e he' hu
    · rw [hother j hji] at he'
      exact (keep_own hkeep hji ((h.labelled j).own p e he' hu)).1
  · by_cases h1 : 1 = i
    · subst h1
      rw [hself] at hp
      exact hkernel rfl p hp
    · rw [hother 1 h1] at hp
      exact h.kernel p hp
  · by_cases hpt : vm.pageTable = i
    · obtain ⟨hr, hk, hu⟩ := hown r vm hvm hpt
      subst hpt
      rw [← hself] at hu
      exact ⟨hr, hi, hk, hu⟩
    · exact keep_owner hkeep hpt (h.owner r vm (hothers r vm hvm hpt)) hcreated (hother _ hpt)
  · by_cases hji : j = i
    · subst hji
      rw [hself]
      exact hcount hj
    · rw [hother j hji]
      refine le_trans (Finset.card_le_card fun r hr => ?_) (h.count j hj)
      obtain ⟨-, vm, hvm, hpt⟩ := mem_users.mp hr
      have hvm' := hothers r vm hvm (hpt ▸ hji)
      exact mem_users.mpr ⟨(h.owner r vm hvm').old, vm, hvm', hpt⟩
  · rw [hphys]
    exact (keep_own hkeep hj ((h.labelled j).own p e he hu)).2

/-- The processes of an address space whose pages move. -/
theorem owner_moves {v : Vm BootInfoFrameAllocator} {r : Ref} {vm : ProcessVm} (h : Isolated E use M)
    (hm : Moves E i use (M.vm i).mem use' v.mem) (hi : i ≠ 1)
    (hs : SpaceHeld use i (M.spaces i) → SpaceHeld use' i v.space) (hvm : M.procVm r = some vm)
    (hpt : vm.pageTable = i) : r ≤ M.created ∧
      (r = 1 → i = 1 ∧ vm.stack.slot = Stack.kstack.slot) ∧
      (r ≠ 1 → i ≠ 1 ∧ vm.Held E use' v.space.table ∧ SpaceHeld use' i v.space) := by
  subst hpt
  have hown := h.owner r vm hvm
  refine ⟨hown.old, hown.kernel, fun hr => ?_⟩
  obtain ⟨hne, hheld, hspace⟩ := hown.user hr
  exact ⟨hne, hheld.moves (v := M.vm vm.pageTable) hm, hs hspace⟩

/-- Some processes lose their memory. -/
theorem fewer (h : Isolated E use M) (hspaces : M'.spaces = M.spaces) (halloc : M'.alloc = M.alloc)
    (hphys : M'.phys = M.phys) (hcreated : M'.created = M.created)
    (hprocs : ∀ r vm, M'.procVm r = some vm → M.procVm r = some vm) : Isolated E use M' := by
  have husers : ∀ i, M'.users i ⊆ M.users i := fun i r hr => by
    obtain ⟨hle, vm, hvm, hpt⟩ := mem_users.mp hr
    exact mem_users.mpr ⟨hcreated ▸ hle, vm, hprocs r vm hvm, hpt⟩
  refine ⟨hcreated ▸ h.booted, fun i => ?_, hspaces ▸ h.kernel, fun r vm hvm => ?_, fun i hi => ?_⟩
  · have hl := h.labelled i
    unfold Memory.vm at hl ⊢
    rwa [hspaces, halloc, hphys]
  · obtain ⟨hold, hspace, hkernel, huser⟩ := h.owner r vm (hprocs r vm hvm)
    exact ⟨hcreated ▸ hold, hcreated ▸ hspace, hkernel, hspaces ▸ huser⟩
  · rw [hspaces]
    exact (Finset.card_le_card (husers i)).trans (h.count i hi)

end Isolated

end Memory

/-! ### Calls keep the frames apart -/

namespace Memory

variable {M M' : Memory} {use use' : Uses} {i : SpaceId} {vm vm' : ProcessVm}
  {v : Vm BootInfoFrameAllocator}

section Records

variable {f : Ref → Option ProcessVm} {q : Ref} {w : ProcessVm}

/-- Who has a memory after the process `r` gets one. -/
theorem update_some (h : Function.update f r (some vm) q = some w) :
    q = r ∧ w = vm ∨ q ≠ r ∧ f q = some w := by
  by_cases hq : q = r
  · rw [hq, Function.update_self] at h
    exact Or.inl ⟨hq, (Option.some.inj h).symm⟩
  · rw [Function.update_of_ne hq] at h
    exact Or.inr ⟨hq, h⟩

/-- Who has a memory after the process `r` loses its own. -/
theorem update_none (h : Function.update f r none q = some w) : q ≠ r ∧ f q = some w := by
  by_cases hq : q = r
  · rw [hq, Function.update_self] at h
    cases h
  · rw [Function.update_of_ne hq] at h
    exact ⟨hq, h⟩

end Records

namespace Isolated

theorem brk {addr res : Option ℕ} (h : Isolated E use M) (hr : r ≠ 1) (hvm : M.procVm r = some vm)
    (hb : Heap.brk addr (M.vm vm.pageTable) = (res, v)) :
    ∃ use', Isolated E use' (M.setVm vm.pageTable v) ∧
      Confined E vm.pageTable M (M.setVm vm.pageTable v) := by
  have hown := h.owner r vm hvm
  obtain ⟨hi, -, hs⟩ := hown.user hr
  obtain ⟨use', hmoves, hs', hcount⟩ := Heap.brk_moves (h.labelled _) hs hb
  refine ⟨use', h.update rfl rfl rfl le_rfl hown.space hmoves.labelled hmoves.keeps
    (fun he => absurd he hi) (fun _ _ hq _ => hq)
    (fun q w hq hpt => h.owner_moves hmoves hi (fun _ => hs') hq hpt) fun _ => ?_⟩
  rw [hcount]
  exact h.count _ hi

/-- Another stack for the process `r`. -/
theorem users_update (hpt : vm'.pageTable = vm.pageTable) (hvm : M.procVm r = some vm)
    (hprocs : M'.procVm = Function.update M.procVm r (some vm')) (hcreated : M'.created = M.created) :
    M'.users i = M.users i := by
  have hsame : ∀ q, (M'.procVm q).map ProcessVm.pageTable = (M.procVm q).map ProcessVm.pageTable := by
    intro q
    rw [hprocs]
    by_cases hq : q = r
    · subst hq
      rw [Function.update_self, hvm, Option.map_some, Option.map_some, hpt]
    · rw [Function.update_of_ne hq]
  unfold users
  simp only [hsame, hcreated]

theorem pageFault {addr : ℕ} {user ok : Bool} (h : Isolated E use M)
    (hkernel : topEntry Stack.kstack.range.start ∈ E) (hvm : M.procVm r = some vm)
    (hfault : vm.handlePageFault B addr user (M.vm vm.pageTable) = .ok (ok, vm', v))
    (hM' : M' = { M.setVm vm.pageTable v with
      procVm := Function.update M.procVm r (some vm') }) :
    ∃ use', Isolated E use' M' ∧ Confined E vm.pageTable M M' := by
  have hown := h.owner r vm hvm
  obtain ⟨hpt, use', hmoves, hheld, hend, haddr, hcount⟩ :=
    ProcessVm.handlePageFault_moves (h.labelled _) hfault
  have hs : SpaceHeld use vm.pageTable (M.spaces vm.pageTable) →
      SpaceHeld use' vm.pageTable v.space := fun hs =>
    hs.moves (v := M.vm vm.pageTable) hmoves hend haddr
  have hprocs : M'.procVm = Function.update M.procVm r (some vm') := by rw [hM']
  have hcreated : M'.created = M.created := by rw [hM']; rfl
  have hcases : ∀ q w, M'.procVm q = some w → q = r ∧ w = vm' ∨ q ≠ r ∧ M.procVm q = some w := by
    rw [hprocs]
    exact fun q w => update_some
  refine ⟨use', h.update (i := vm.pageTable) (v := v) (by rw [hM']; rfl) (by rw [hM']; rfl)
    (by rw [hM']; rfl) hcreated.ge (hcreated ▸ hown.space) hmoves.labelled hmoves.keeps
    (fun hi p hp => ?_) (fun q w hq hne => ?_) (fun q w hq hw => ?_) fun hi => ?_⟩
  · -- only the kernel process has the address space `1`
    have hr : r = 1 := by_contra fun hr => (hown.user hr).1 hi
    rcases (ProcessVm.handlePageFault_kernel (hown.kernel hr).2 hfault).2 p hp with hold | hnew
    · exact h.kernel p (hi ▸ hold)
    · rwa [hnew]
  · rcases hcases q w hq with ⟨-, rfl⟩ | ⟨-, hold⟩
    · exact absurd hpt hne
    · exact hold
  · rcases hcases q w hq with ⟨rfl, rfl⟩ | ⟨-, hold⟩
    · refine ⟨hcreated ▸ hown.old, fun hq1 => ⟨(hown.kernel hq1).1, ?_⟩, fun hq1 => ?_⟩
      · exact (ProcessVm.handlePageFault_kernel (hown.kernel hq1).2 hfault).1
      obtain ⟨hne, hheld₀, hs₀⟩ := hown.user hq1
      exact ⟨hne, hheld hheld₀, hs hs₀⟩
    · by_cases hi : vm.pageTable = 1
      · refine ⟨hcreated ▸ (h.owner q w hold).old,
          fun hq1 => ⟨hi, ((h.owner q w hold).kernel hq1).2⟩, fun hq1 => ?_⟩
        exact absurd (hw.trans hi) ((h.owner q w hold).user hq1).1
      · rw [hcreated]
        exact h.owner_moves hmoves hi hs hold hw
  · rw [users_update hpt hvm hprocs hcreated, hcount]
    exact h.count _ hi

theorem fork {n : ℕ} (h : Isolated E use M) (hr : r ≠ 1) (hvm : M.procVm r = some vm)
    (hfork : vm.fork B n (M.vm vm.pageTable) = .ok (vm', v)) (harea : vm'.stack.InArea)
    (hprocs : M'.procVm = Function.update M.procVm (M.created + 1) (some vm'))
    (hcreated : M'.created = M.created + 1)
    (hspaces : M'.spaces = Function.update M.spaces vm.pageTable v.space)
    (halloc : M'.alloc = v.alloc) (hphys : M'.phys = v.phys) :
    ∃ use', Isolated E use' M' ∧ Confined E vm.pageTable M M' := by
  have hown := h.owner r vm hvm
  obtain ⟨hi, hheld, hs⟩ := hown.user hr
  obtain ⟨hpt, use', hmoves, hheld', hend, haddr, hcount⟩ :=
    ProcessVm.fork_moves (h.labelled _) hheld hfork harea
  have hs' : SpaceHeld use' vm.pageTable v.space :=
    SpaceHeld.moves (v := M.vm vm.pageTable) hs hmoves hend haddr
  have hcases : ∀ q w, M'.procVm q = some w →
      q = M.created + 1 ∧ w = vm' ∨ M.procVm q = some w := by
    rw [hprocs]
    exact fun q w hq => (update_some hq).imp_right And.right
  have hle : M.created ≤ M'.created := hcreated ▸ Nat.le_succ _
  refine ⟨use', h.update hspaces halloc hphys hle (hown.space.trans hle) hmoves.labelled
    hmoves.keeps (fun he => absurd he hi) (fun q w hq hne => ?_) (fun q w hq hw => ?_) fun _ => ?_⟩
  · rcases hcases q w hq with ⟨-, rfl⟩ | hold
    · exact absurd hpt hne
    · exact hold
  · rcases hcases q w hq with ⟨rfl, rfl⟩ | hold
    · have hne : M.created + 1 ≠ 1 := fun he => Nat.ne_of_gt h.booted (Nat.succ.inj he)
      exact ⟨hcreated.ge, fun he => absurd he hne, fun _ => ⟨hi, hheld', hs'⟩⟩
    · obtain ⟨hold, hrest⟩ := h.owner_moves hmoves hi (fun _ => hs') hold hw
      exact ⟨hold.trans hle, hrest⟩
  · rw [hcount]
    have hsub : M'.users vm.pageTable ⊆ insert (M.created + 1) (M.users vm.pageTable) := by
      intro q hq
      obtain ⟨-, w, hw, hwpt⟩ := mem_users.mp hq
      rcases hcases q w hw with ⟨rfl, -⟩ | hold
      · exact Finset.mem_insert_self _ _
      · exact Finset.mem_insert_of_mem (mem_users.mpr ⟨(h.owner q w hold).old, w, hold, hwpt⟩)
    exact (Finset.card_le_card hsub).trans
      ((Finset.card_insert_le _ _).trans (Nat.succ_le_succ (h.count _ hi)))

theorem drop (h : Isolated E use M) (hr : r ≠ 1) (hvm : M.procVm r = some vm)
    (hdrop : vm.drop B (M.vm vm.pageTable) = .ok v)
    (hprocs : M'.procVm = Function.update M.procVm r none) (hcreated : M'.created = M.created)
    (hspaces : M'.spaces = Function.update M.spaces vm.pageTable v.space)
    (halloc : M'.alloc = v.alloc) (hphys : M'.phys = v.phys) :
    ∃ use', Isolated E use' M' ∧ Confined E vm.pageTable M M' := by
  have hown := h.owner r vm hvm
  obtain ⟨hi, hheld, hs⟩ := hown.user hr
  obtain ⟨use', hlabelled, hkeeps, hcount, hshared⟩ :=
    ProcessVm.drop_moves (h.labelled _) hheld hs hdrop
  have hcases : ∀ q w, M'.procVm q = some w → q ≠ r ∧ M.procVm q = some w := by
    rw [hprocs]
    exact fun q w => update_none
  have hmem : r ∈ M.users vm.pageTable := mem_users.mpr ⟨hown.old, vm, hvm, rfl⟩
  have hsub : M'.users vm.pageTable ⊆ (M.users vm.pageTable).erase r := by
    intro q hq
    obtain ⟨-, w, hw, hwpt⟩ := mem_users.mp hq
    obtain ⟨hne, hold⟩ := hcases q w hw
    exact Finset.mem_erase.mpr ⟨hne, mem_users.mpr ⟨(h.owner q w hold).old, w, hold, hwpt⟩⟩
  refine ⟨use', h.update hspaces halloc hphys hcreated.ge (hcreated ▸ hown.space) hlabelled hkeeps
    (fun he => absurd he hi) (fun q w hq _ => (hcases q w hq).2) (fun q w hq hw => ?_) fun _ => ?_⟩
  · obtain ⟨hne, hold⟩ := hcases q w hq
    have hmany : (M.spaces vm.pageTable).usingCount ≠ 1 := fun hone => by
      have hcard := h.count _ hi
      rw [hone] at hcard
      have hq' : q ∈ M.users vm.pageTable := mem_users.mpr ⟨(h.owner q w hold).old, w, hold, hw⟩
      exact hne (Finset.card_le_one.mp hcard q hq' r hmem)
    obtain ⟨hmoves, hend, haddr⟩ := hshared hmany
    rw [hcreated]
    exact h.owner_moves hmoves hi (fun hs => hs.moves (v := M.vm vm.pageTable) hmoves hend haddr)
      hold hw
  · refine (Finset.card_le_card hsub).trans ?_
    rw [Finset.card_erase_of_mem hmem, hcount]
    exact Nat.sub_le_sub_right (h.count _ hi) 1

/-- A copy of the kernel's page table has its pages under the kernel's entries. -/
theorem copy {frame : Frame} {a : BootInfoFrameAllocator} {n : SpaceId} (h : Isolated E use k.memory)
    (ha : allocateFrame k.alloc = (some frame, a)) : use frame = .free ∧
      Labelled E (Function.update use frame (.top n)) n (k.copySpace 1 frame a).mem ∧
      SpaceHeld (Function.update use frame (.top n)) n (k.copySpace 1 frame a).space := by
  have hlist := BootInfoFrameAllocator.free_of_some ha
  have hfrees : ∀ f, f ∈ k.alloc.free ↔ use f = .free := (h.labelled 1).free
  have hnodup : k.alloc.free.Nodup := (h.labelled 1).nodup
  rw [hlist, List.nodup_cons] at hnodup
  refine ⟨(hfrees frame).mp (hlist ▸ List.mem_cons_self), ⟨hnodup.2, fun f => ?_, fun p e he hp => ?_⟩,
    Heap.inHeap_start, fun p hp => ?_, Function.update_self _ _ _⟩
  · show f ∈ a.free ↔ _
    by_cases hf : f = frame
    · rw [hf, Function.update_self]
      exact iff_of_false hnodup.1 (by rintro ⟨⟩)
    · have hmem := hfrees f
      rw [hlist, List.mem_cons, or_iff_right hf] at hmem
      rwa [Function.update_of_ne hf]
  · have hmapped : (k.memory.spaces 1).table p ≠ none := by
      show (k.copySpace 1 frame a).space.table p ≠ none
      exact Option.ne_none_iff_exists'.mpr ⟨e, he⟩
    exact absurd (h.kernel p hmapped) hp
  · rw [copySpace, Heap.mem_pages, Heap.endPage, if_pos rfl] at hp
    exact absurd hp.2 (Nat.not_lt.mpr hp.1)

/-- A new program in a copy of the kernel's page table. -/
theorem spawn {elf : ElfFile} {frame : Frame} {a : BootInfoFrameAllocator}
    (h : Isolated E use k.memory) (ha : allocateFrame k.alloc = (some frame, a))
    (hclear : elf.Clear E)
    (hload : (ProcessVm.new (k.created + 1)).loadElf B elf (k.copySpace 1 frame a) = .ok (vm, v))
    (hprocs : M'.procVm = Function.update k.memory.procVm (k.created + 1) (some vm))
    (hcreated : M'.created = k.created + 1)
    (hspaces : M'.spaces = Function.update k.memory.spaces (k.created + 1) v.space)
    (halloc : M'.alloc = v.alloc) (hphys : M'.phys = v.phys) :
    ∃ use', Isolated E use' M' ∧ Confined E (k.created + 1) k.memory M' := by
  obtain ⟨hfree, hstart, hempty⟩ := h.copy (n := k.created + 1) ha
  obtain ⟨hpt, use', hmoves, hheld, hend, haddr, hcount⟩ :=
    ProcessVm.loadElf_moves hstart h.kernel hclear hload
  have hpt : vm.pageTable = k.created + 1 := hpt
  have hs : SpaceHeld use' (k.created + 1) v.space := hempty.moves hmoves hend haddr
  have hkeeps : KeepsOthers (k.created + 1) use (k.memory.vm (k.created + 1)).mem use' v.mem := by
    intro f hf hpage htop
    have hne : f ≠ frame := fun he => hf (he ▸ hfree)
    have huse : Function.update use frame (.top (k.created + 1)) f = use f :=
      Function.update_of_ne hne _ _
    obtain ⟨huse', hphys'⟩ := hmoves.keep f (huse ▸ hf) (huse ▸ hpage)
    exact ⟨huse'.trans huse, hphys'.trans (Function.update_of_ne hne _ _)⟩
  have hcases : ∀ q w, M'.procVm q = some w →
      q = k.created + 1 ∧ w = vm ∨ k.memory.procVm q = some w ∧ w.pageTable ≠ k.created + 1 := by
    rw [hprocs]
    refine fun q w hq => (update_some hq).imp_right fun hold => ⟨hold.2, ?_⟩
    exact Nat.ne_of_lt (Nat.lt_succ_of_le (h.owner q w hold.2).space)
  have hne : k.created + 1 ≠ 1 := fun he => Nat.ne_of_gt h.booted (Nat.succ.inj he)
  refine ⟨use', h.update hspaces halloc hphys (hcreated ▸ Nat.le_succ _) hcreated.ge hmoves.labelled
    hkeeps (fun he => absurd he hne) (fun q w hq hw => ?_) (fun q w hq hw => ?_) fun _ => ?_⟩
  · rcases hcases q w hq with ⟨-, rfl⟩ | ⟨hold, -⟩
    · exact absurd hpt hw
    · exact hold
  · rcases hcases q w hq with ⟨rfl, rfl⟩ | ⟨-, hother⟩
    · exact ⟨hcreated.ge, fun he => absurd he hne, fun _ => ⟨hne, hheld, hs⟩⟩
    · exact absurd hw hother
  · have hsub : M'.users (k.created + 1) ⊆ {k.created + 1} := by
      intro q hq
      obtain ⟨-, w, hw, hwpt⟩ := mem_users.mp hq
      rcases hcases q w hw with ⟨rfl, -⟩ | ⟨-, hother⟩
      · exact Finset.mem_singleton_self _
      · exact absurd hwpt hother
    rw [hcount]
    exact Finset.card_le_card hsub

end Isolated

/-- The invariant: every frame has one use, and no `Arc` of a child is its last. -/
structure Apart (E : Finset ℕ) (M : Memory) : Prop where
  counted : M.Counted
  isolated : ∃ use, Isolated E use M

/-- The invariant is kept, and no address space but `o` is disturbed. -/
def Moved (E : Finset ℕ) (o : Option SpaceId) (M M' : Memory) : Prop :=
  M'.Apart E ∧ ∀ j, o ≠ some j → Undisturbed E j M M'

theorem Apart.moved {o : Option SpaceId} (h : M.Apart E) (he : M' = M) : Moved E o M M' := by
  subst he
  exact ⟨h, fun _ _ => .refl⟩

theorem Confined.moved (h : Confined E i M M') (hM' : M'.Apart E) : Moved E (some i) M M' :=
  ⟨hM', fun j hj => h j fun he => hj (he ▸ rfl)⟩

end Memory

/-- The calls that keep the address spaces apart: the kernel process neither forks nor moves the end of
its heap, programs are clear of the entries `E`, and children have stacks in the area for stacks. -/
def Kernel.KeepsApart (E : Finset ℕ) (k k' : Kernel BootInfoFrameAllocator) : Op → Prop
  | .spawn name => ∀ app ∈ k.appList.bind fun apps => apps.find? fun app => app.name = name,
      app.elf.Clear E
  | .vfork => k.processor ≠ KERNEL_PID ∧
      ∀ vm ∈ (k'.heap k'.created).inner.procVm, vm.stack.InArea
  | .brk _ => k.processor ≠ KERNEL_PID
  | _ => True

/-- The address space of the process with the id `p`. -/
def Kernel.spaceOf (k : Kernel BootInfoFrameAllocator) (p : ProcessId) : Option SpaceId :=
  (k.getProc p).bind fun r => (k.heap r).inner.procVm.map ProcessVm.pageTable

/-- The address space that a call is about: a new one for a program, that of the process which dies, and
otherwise that of the current process. -/
def Kernel.concerned (k : Kernel BootInfoFrameAllocator) : Op → Option SpaceId
  | .spawn _ => some (k.created + 1)
  | .kill pid => k.spaceOf pid
  | .processExit _ | .vfork | .brk _ | .pageFault _ _ => k.spaceOf k.processor
  | _ => none

instance (k k' : Kernel BootInfoFrameAllocator) : ∀ op : Op, Decidable (k.KeepsApart E k' op)
  | .spawn name => inferInstanceAs (Decidable (∀ app ∈ k.appList.bind fun apps =>
      apps.find? fun app => app.name = name, app.elf.Clear E))
  | .vfork => inferInstanceAs (Decidable (k.processor ≠ KERNEL_PID ∧
      ∀ vm ∈ (k'.heap k'.created).inner.procVm, STACK_AREA_BOT ≤ vm.stack.bottom ∧
        vm.stack.bottom < STACK_MAX))
  | .brk _ => inferInstanceAs (Decidable (k.processor ≠ KERNEL_PID))
  | .switch | .processExit _ | .waitPid _ | .kill _ | .semNew _ _ | .removeSem _ | .semWait _
  | .semSignal _ | .pageFault _ _ => isTrue trivial

/-- Before the ids wrap, the kernel process alone has its id. -/
theorem Table.Regular.kernel_iff {t : Table} (h : t.Regular) (hp : t.processes p = some r) :
    r = 1 ↔ p = KERNEL_PID := by
  obtain ⟨-, hle, hpr⟩ := h.numbered.entries p r hp
  rw [hpr, Nat.mod_eq_of_lt (Nat.lt_of_le_of_lt hle h.small)]
  exact Iff.rfl

theorem Table.Regular.current_iff {t : Table} (h : t.Regular) (hr : t.current = some r) :
    r = 1 ↔ t.processor = KERNEL_PID := h.kernel_iff (Table.current_iff.mp hr).2

open Memory

theorem spaceOf_eq {vm : ProcessVm} (hr : k.getProc p = some r) (hvm : k.memory.procVm r = some vm) :
    k.spaceOf p = some vm.pageTable := by
  rw [Kernel.spaceOf, hr, Option.bind_some, show (k.heap r).inner.procVm = some vm from hvm,
    Option.map_some]

theorem spaceOf_current {vm : ProcessVm} (hr : k.current = .ok r)
    (hvm : k.memory.procVm r = some vm) : k.spaceOf k.processor = some vm.pageTable :=
  spaceOf_eq (Table.current_iff.mp (current_ok hr)).2 hvm

theorem kill_moved {ret : Int64} (hreg : k.table.Regular) (h : k.memory.Apart E) (hp : p ≠ KERNEL_PID)
    (hkill : k.kill B p ret = .ok k') : Moved E (k.spaceOf p) k.memory k'.memory := by
  rcases kill_memory hkill with rfl | ⟨r, k₁, hr, hproc, hlast⟩
  · exact h.moved rfl
  rw [hlast]
  have hr1 : r ≠ 1 := fun he => hp ((hreg.kernel_iff hr).mp he)
  obtain ⟨use, hiso⟩ := h.isolated
  obtain ⟨M, hrewired, hcases⟩ := killProcess_memory h.counted hproc
  obtain ⟨hvms, hcreated, hspaces, halloc, hphys⟩ := hrewired.fields
  rcases hcases with ⟨hnone, hM⟩ | ⟨vm, v, hvm, hdrop, hM⟩
  · rw [hM]
    refine ⟨⟨hrewired.2.congr rfl rfl rfl, use, hiso.fewer hspaces halloc hphys hcreated ?_⟩,
      fun j _ => ⟨congrFun hspaces j, fun _ e _ _ => congrFun hphys e.frame⟩⟩
    exact fun q w hq => hvms ▸ (update_none hq).2
  · have hdropped : ∃ use', Isolated E use' k₁.memory ∧ Confined E vm.pageTable k.memory k₁.memory :=
      hiso.drop hr1 hvm hdrop (by rw [hM, ← hvms]) (by rw [hM, ← hcreated]; rfl)
        (by rw [hM, ← hspaces]; rfl) (by rw [hM]; rfl) (by rw [hM]; rfl)
    obtain ⟨use', hiso', hconfined⟩ := hdropped
    rw [spaceOf_eq hr hvm]
    refine hconfined.moved ⟨?_, use', hiso'⟩
    rw [hM]
    exact hrewired.2.congr rfl rfl rfl

theorem vfork_moved (h : k.memory.Apart E) (hfree : k.processes ((k.created + 1) % PIDS) = none)
    (hcur : ∀ r, k.current = .ok r → r ≤ k.created ∧ r ≠ 1)
    (harea : ∀ vm ∈ (k'.heap k'.created).inner.procVm, vm.stack.InArea) (hfork : k.vfork B = .ok k') :
    Moved E (k.spaceOf k.processor) k.memory k'.memory := by
  obtain ⟨r, vm, childVm, n, v, hr, hvm, hv, hprocs, hchildren, hstrong, hcreated, hspaces, halloc,
    hphys⟩ := vfork_memory hfree (fun r hr => (hcur r hr).1) hfork
  obtain ⟨-, hr1⟩ := hcur r hr
  obtain ⟨use, hiso⟩ := h.isolated
  have hchild : k'.memory.procVm k'.memory.created = some childVm := by
    rw [hprocs, hcreated, Function.update_self]
  obtain ⟨use', hiso', hconfined⟩ :=
    hiso.fork hr1 hvm hv (harea childVm hchild) hprocs hcreated hspaces halloc hphys
  rw [spaceOf_current hr hvm]
  refine hconfined.moved ⟨h.counted.fork (n := k.created + 1) (r := r) rfl hcreated (fun c hc => ?_)
    ?_ ?_ fun q hq => ?_, use', hiso'⟩
  · rw [hstrong]
    exact Function.update_of_ne (Nat.ne_of_lt (Nat.lt_succ_of_le hc)) _ _
  · rw [hstrong, Function.update_self]
  · rw [hchildren, Function.update_self]
  · rw [hchildren, Function.update_of_ne hq]
    by_cases hqn : q = k.created + 1
    · rw [hqn, Function.update_self]
      exact Or.inr rfl
    · rw [Function.update_of_ne hqn]
      exact Or.inl rfl

theorem spawn_moved {elf : ElfFile} {name : String} {parent : Option Weak}
    {data : Option ProcessData} (hreg : k.table.Regular) (h : k.memory.Apart E)
    (hsmall : k.created + 1 < PIDS) (hclear : elf.Clear E)
    (hspawn : k.spawn B elf name parent data = .ok (p, k')) :
    Moved E (some (k.created + 1)) k.memory k'.memory := by
  obtain ⟨q, vm₀, frame, a, vm, v, hq, hvm₀, ha, hload, hprocs, hchildren, hstrong, hcreated,
    hspaces, halloc, hphys⟩ := spawn_memory (hreg.fresh hsmall) hspawn
  obtain ⟨use, hiso⟩ := h.isolated
  rw [((hiso.owner q vm₀ hvm₀).kernel ((hreg.kernel_iff hq).mpr rfl)).1] at hload
  obtain ⟨use', hiso', hconfined⟩ :=
    hiso.spawn ha hclear hload hprocs hcreated hspaces halloc hphys
  refine hconfined.moved ⟨h.counted.create (hcreated ▸ Nat.le_succ _) (fun c hc => ?_)
    fun q => ?_, use', hiso'⟩
  · rw [hstrong]
    exact Function.update_of_ne (Nat.ne_of_lt (Nat.lt_succ_of_le hc)) _ _
  · rw [hchildren]
    by_cases hqn : q = k.created + 1
    · rw [hqn, Function.update_self]
      exact Or.inr rfl
    · rw [Function.update_of_ne hqn]
      exact Or.inl rfl

theorem brk_moved {addr res : Option ℕ} (hreg : k.table.Regular) (h : k.memory.Apart E)
    (hcur : k.processor ≠ KERNEL_PID) (hbrk : Proc.brk addr k = .ok (res, k')) :
    Moved E (k.spaceOf k.processor) k.memory k'.memory := by
  obtain ⟨r, vm, v, hr, hvm, hb, hM⟩ := brk_memory hbrk
  have hr1 : r ≠ 1 := fun he => hcur ((hreg.current_iff (current_ok hr)).mp he)
  obtain ⟨use, hiso⟩ := h.isolated
  obtain ⟨use', hiso', hconfined⟩ := hiso.brk hr1 hvm hb
  rw [hM, spaceOf_current hr hvm]
  exact hconfined.moved ⟨h.counted.congr rfl rfl rfl, use', hiso'⟩

theorem pageFault_moved {addr : ℕ} {violation : Bool} (h : k.memory.Apart E)
    (hkernel : topEntry Stack.kstack.range.start ∈ E)
    (hfault : Proc.pageFault B addr violation k = .ok k') :
    Moved E (k.spaceOf k.processor) k.memory k'.memory := by
  obtain ⟨r, vm, ok, vm', v, hr, hvm, hv, hM⟩ := pageFault_memory hfault
  obtain ⟨use, hiso⟩ := h.isolated
  obtain ⟨use', hiso', hconfined⟩ := hiso.pageFault hkernel hvm hv hM
  rw [spaceOf_current hr hvm]
  refine hconfined.moved ⟨h.counted.congr ?_ ?_ ?_, use', hiso'⟩
  · rw [hM]
    rfl
  · rw [hM]
    rfl
  · rw [hM]
    rfl

theorem procSpawn_moved {name : String} (hreg : k.table.Regular) (h : k.memory.Apart E)
    (hsmall : k'.created < PIDS) (hclear : k.KeepsApart E k' (.spawn name))
    (hstep : step B k (.spawn name, c) = .ok (k', c')) :
    Moved E (some (k.created + 1)) k.memory k'.memory := by
  simp only [step, Proc.spawn, bind_eq_ok, pure_eq_ok] at hstep
  obtain ⟨⟨res, k₁⟩, hspawn, hlast⟩ := hstep
  cases hlast
  split at hspawn
  · cases hspawn
    exact h.moved rfl
  · rename_i app happ
    simp only [Proc.elfSpawn, bind_eq_ok, pure_eq_ok] at hspawn
    obtain ⟨r, -, ⟨pid, k₂⟩, hspawn, hlast⟩ := hspawn
    cases hlast
    obtain ⟨e, -, -, -, -, ht⟩ := spawn_table hspawn
    have hcreated : k₂.created = k.created + 1 := congrArg Table.created ht
    exact spawn_moved hreg h (hcreated ▸ hsmall) (hclear app happ) hspawn

theorem procVfork_moved (hreg : k.table.Regular) (h : k.memory.Apart E) (hsmall : k'.created < PIDS)
    (hA : k.KeepsApart E k' .vfork) (hstep : step B k (.vfork, c) = .ok (k', c')) :
    Moved E (k.spaceOf k.processor) k.memory k'.memory := by
  obtain ⟨r, -, -, -, -, e, -, -, -, -, -, -, -, -, hp⟩ := vfork_forked hreg.numbered.keyed hstep
  have hmade : k'.created = k.created + 1 := (Table.Names.pick hp).created
  simp only [step, Proc.vfork, bind_eq_ok, pure_eq_ok] at hstep
  obtain ⟨⟨pid, k₁⟩, hsave, k₂, hfork, ⟨q, c₁, k₃⟩, hnext, hlast⟩ := hstep
  cases hlast
  obtain ⟨r, hr, -, ht, -⟩ := saveCurrent_table hsave
  have hbefore : k₁.memory = k.memory := saveCurrent_memory hsave
  have hafter := switchNext_memory hnext
  have hcreated : k₁.created = k.created := congrArg Table.created ht
  have hprocesses : k₁.processes = k.processes := congrArg Table.processes ht
  have hcur : ∀ r', k₁.current = .ok r' → r' ≤ k₁.created ∧ r' ≠ 1 := by
    intro r' hr'
    obtain rfl := current_of_save hsave hr hr'
    exact ⟨hcreated ▸ hreg.numbered.keyed.current_le (current_ok hr),
      fun he => hA.1 ((hreg.current_iff (current_ok hr)).mp he)⟩
  have hfree : k₁.processes ((k₁.created + 1) % PIDS) = none := by
    rw [hprocesses, hcreated]
    exact hreg.fresh (hmade ▸ hsmall)
  have harea : ∀ vm ∈ (k₂.heap k₂.created).inner.procVm, vm.stack.InArea := by
    have hcount : k₃.created = k₂.created := congrArg Memory.created hafter
    intro vm hvm
    refine hA.2 vm ?_
    rw [hcount]
    exact (congrFun (congrArg Memory.procVm hafter) k₂.created).trans hvm
  have hspace : k₁.spaceOf k₁.processor = k.spaceOf k.processor := by
    have hprocessor : k₁.processor = k.processor := congrArg Table.processor ht
    have hvms : ∀ q, (k₁.heap q).inner.procVm = (k.heap q).inner.procVm :=
      congrFun (congrArg Memory.procVm hbefore)
    simp only [Kernel.spaceOf, Kernel.getProc, hprocessor, hprocesses, hvms]
  rw [hafter, ← hbefore]
  show Moved E (k.spaceOf k.processor) k₁.memory k₂.memory
  rw [← hspace]
  exact vfork_moved (hbefore ▸ h) hfree hcur harea hfork

/-- A call keeps the frames apart, and leaves the address spaces that it is not about alone. -/
theorem step_moved {call : Call} (hreg : k.table.Regular) (h : k.memory.Apart E)
    (hkernel : topEntry Stack.kstack.range.start ∈ E) (hC : KernelKept k call k')
    (hA : k.KeepsApart E k' call.1) (hstep : step B k call = .ok (k', c')) :
    Moved E (k.concerned call.1) k.memory k'.memory := by
  obtain ⟨op, c⟩ := call
  cases op with
  | spawn name => exact procSpawn_moved hreg h hC.2 hA hstep
  | vfork => exact procVfork_moved hreg h hC.2 hA hstep
  | brk addr =>
      simp only [step, bind_eq_ok, pure_eq_ok] at hstep
      obtain ⟨⟨res, k₁⟩, hbrk, hlast⟩ := hstep
      cases hlast
      exact brk_moved hreg h hA hbrk
  | pageFault addr violation =>
      simp only [step, bind_eq_ok, pure_eq_ok] at hstep
      obtain ⟨k₁, hfault, hlast⟩ := hstep
      cases hlast
      exact pageFault_moved h hkernel hfault
  | processExit ret =>
      simp only [step, Proc.processExit, killSelf, bind_eq_ok, pure_eq_ok] at hstep
      obtain ⟨k₁, ⟨pid, hpid, hkill⟩, ⟨q, c₁, k₂⟩, hnext, hlast⟩ := hstep
      cases hlast
      obtain rfl := getPid_ok hpid
      rw [switchNext_memory hnext]
      exact kill_moved hreg h hC.1 hkill
  | kill pid =>
      simp only [step, Proc.kill, bind_eq_ok] at hstep
      obtain ⟨cur, hcur, hstep⟩ := hstep
      split_ifs at hstep with hself
      · simp only [killSelf, bind_eq_ok, pure_eq_ok] at hstep
        obtain ⟨k₁, ⟨pid', hpid, hkill⟩, ⟨q, c₁, k₂⟩, hnext, hlast⟩ := hstep
        cases hlast
        obtain rfl := getPid_ok hpid
        obtain rfl := getPid_ok hcur
        rw [switchNext_memory hnext]
        subst hself
        exact kill_moved hreg h hC.1 hkill
      · simp only [bind_eq_ok, pure_eq_ok] at hstep
        obtain ⟨k₁, hkill, hlast⟩ := hstep
        cases hlast
        exact kill_moved hreg h hC.1 hkill
  | _ => exact h.moved (still_memory rfl hstep)

/-! ### Isolation -/

/-- The top-level entries of the kernel: the pages of its table are under these, the kernel's stack is
too, and the area for the heaps and stacks of users is not. -/
structure BootInfo.Entries (b : BootInfo BootInfoFrameAllocator) (E : Finset ℕ) : Prop where
  table : ∀ p, b.table p ≠ none → topEntry p ∈ E
  stack : topEntry Stack.kstack.range.start ∈ E
  area : ∀ n ∈ E, n < topEntry (pageOf STACK_AREA_BOT) ∨ topEntry (pageOf STACK_MAX) ≤ n

/-- A page under an entry of the area is not under one of the kernel's. -/
theorem BootInfo.Entries.not_mem {b : BootInfo BootInfoFrameAllocator} {q : ℕ} (h : b.Entries E)
    (hq : topEntry (pageOf STACK_AREA_BOT) ≤ topEntry q ∧ topEntry q < topEntry (pageOf STACK_MAX)) :
    topEntry q ∉ E := fun hmem => by
  rcases h.area _ hmem with hlt | hle
  · exact absurd hq.1 (Nat.not_le.mpr hlt)
  · exact absurd hq.2 (Nat.not_lt.mpr hle)

theorem boot_apart {b : BootInfo BootInfoFrameAllocator} (hnodup : b.alloc.free.Nodup)
    (hE : b.Entries E) : (boot b).memory.Apart E := by
  have hother : ∀ r, r ≠ 1 → (boot b).heap r = default := fun r hr => by
    simp [boot, Kernel.modify, Kernel.newProcess, BootInfo.bare, hr]
  have hchildren : ∀ r, (boot b).memory.children r = [] := fun r => by
    by_cases hr : r = 1
    · subst hr
      rfl
    · show ((boot b).heap r).inner.children = []
      rw [hother r hr]
      rfl
  have hone : ∀ r vm, (boot b).memory.procVm r = some vm →
      r = 1 ∧ vm.pageTable = 1 ∧ vm.stack = Stack.kstack := by
    intro r vm hvm
    by_cases hr : r = 1
    · subst hr
      cases hvm
      exact ⟨rfl, rfl, rfl⟩
    · have hnone : ((boot b).heap r).inner.procVm = some vm := hvm
      rw [hother r hr] at hnone
      cases hnone
  refine ⟨⟨fun q => ?_, fun q c hc => ?_, fun q q' c hc => ?_⟩,
    fun f => if f ∈ b.alloc.free then .free else .other, le_rfl, fun i => ⟨hnodup, fun f => ?_,
      fun p e he hu => ?_⟩, hE.table, fun r vm hvm => ?_, fun i hi => ?_⟩
  · rw [hchildren]
    exact List.nodup_nil
  · rw [hchildren] at hc
    cases hc
  · rw [hchildren] at hc
    cases hc
  · show f ∈ b.alloc.free ↔ _
    split_ifs with hf
    · exact iff_of_true hf rfl
    · exact iff_of_false hf (by rintro ⟨⟩)
  · exact absurd (hE.table p (Option.ne_none_iff_exists'.mpr ⟨e, he⟩)) hu
  · obtain ⟨rfl, hpt, hstack⟩ := hone r vm hvm
    exact ⟨le_rfl, hpt.le, fun _ => ⟨hpt, by rw [hstack]⟩, fun hr => absurd rfl hr⟩
  · have hempty : (boot b).memory.users i = ∅ := by
      refine Finset.eq_empty_of_forall_notMem fun r hr => ?_
      obtain ⟨-, vm, hvm, hpt⟩ := mem_users.mp hr
      exact hi (hpt.symm.trans (hone r vm hvm).2.1)
    rw [hempty]
    exact Nat.zero_le _

namespace Kernel

/-- The page `p` of the address space `i` is not under an entry in `E`, and its contents are in the
frame `f`. -/
def UserPage (E : Finset ℕ) (k : Kernel BootInfoFrameAllocator) (i : SpaceId) (p : ℕ) (f : Frame) :
    Prop :=
  topEntry p ∉ E ∧ ∃ e ∈ (k.spaces i).table p, e.frame = f

instance (k : Kernel BootInfoFrameAllocator) (i : SpaceId) (p : ℕ) (f : Frame) :
    Decidable (k.UserPage E i p f) :=
  inferInstanceAs (Decidable (topEntry p ∉ E ∧ ∃ e ∈ (k.spaces i).table p, _))

/-- The page `p` is one of the stack, the code or the heap of the memory `vm`. -/
def Has (k : Kernel BootInfoFrameAllocator) (vm : ProcessVm) (p : ℕ) : Prop :=
  p ∈ vm.stack.range.pages ∨ (∃ r ∈ vm.code, p ∈ r.pages) ∨
    p ∈ Heap.pages (k.spaces vm.pageTable).heapEnd

/-- The frame `f` is the top level of the page table `i` of a user process. -/
def TopLevel (k : Kernel BootInfoFrameAllocator) (i : SpaceId) (f : Frame) : Prop :=
  ∃ r vm, r ≠ 1 ∧ (k.heap r).inner.procVm = some vm ∧ vm.pageTable = i ∧ (k.spaces i).addr = f

end Kernel

/-- The condition of the runs in which the kernel process runs on and does not make the calls of user
programs, and these stay out of the entries `E`. -/
abbrev ApartKept (E : Finset ℕ) (k : Kernel BootInfoFrameAllocator) (call : Call)
    (k' : Kernel BootInfoFrameAllocator) : Prop := KernelKept k call k' ∧ k.KeepsApart E k' call.1

namespace Memory.Isolated

variable {use : Uses} {i : SpaceId} {q : ℕ} {f : Frame}

theorem userPage (h : Isolated E use k.memory) (hf : k.UserPage E i q f) : use f = .page i q := by
  obtain ⟨hq, e, he, rfl⟩ := hf
  exact (h.labelled i).own q e he hq

theorem topLevel (h : Isolated E use k.memory) (hf : k.TopLevel i f) : use f = .top i := by
  obtain ⟨r, vm, hr, hvm, rfl, rfl⟩ := hf
  exact ((h.owner r vm hvm).user hr).2.2.top

/-- The pages of user processes are not under the kernel's entries. -/
theorem not_mem {b : BootInfo BootInfoFrameAllocator} {vm : ProcessVm}
    (h : Isolated E use k.memory) (hE : b.Entries E) (hr : r ≠ 1)
    (hvm : (k.heap r).inner.procVm = some vm) (hp : k.Has vm q) : topEntry q ∉ E := by
  obtain ⟨-, hheld, hs⟩ := (h.owner r vm hvm).user hr
  rcases hp with hstack | ⟨range, hrange, hcode⟩ | hheap
  · exact hE.not_mem (hheld.stack.toInSlot.entry hheld.stack.area hstack)
  · exact hheld.code range hrange q hcode
  · exact hE.not_mem (hs.entry hheap)

end Memory.Isolated

/-- The small machine with a page of the kernel's stack and one of the user heap in its page table. -/
def sharedMachine : BootInfo BootInfoFrameAllocator :=
  { smallMachine with
    table := fun p =>
      if p = Stack.kstack.range.start then some ⟨101, stackFlags false⟩
      else if p = 0x400000000 then some ⟨102, stackFlags true⟩
      else none }

/-- The entries of these two pages. -/
def sharedEntries : Finset ℕ := {topEntry Stack.kstack.range.start, topEntry 0x400000000}

theorem sharedMachine_entries : sharedMachine.Entries sharedEntries := by
  refine ⟨fun p hp => ?_, by decide, by decide⟩
  have hcases : p = Stack.kstack.range.start ∨ p = 0x400000000 := by
    by_contra hno
    obtain ⟨hstack, hheap⟩ := not_or.mp hno
    exact hp (by simp only [sharedMachine, if_neg hstack, if_neg hheap])
  rcases hcases with rfl | rfl
  · decide
  · decide

end Ysos
