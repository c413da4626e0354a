import Ysos.Heap
import Ysos.Stack

/-! # The memory of a process (`proc/vm/mod.rs`)

A `ProcessVm` has its own stack; the page table and the heap are shared with the processes it
was forked from and the ones forked from it, and the code is held by the first of them.  The
operations work on the address space of the process (`Vm`), which the process names by
`pageTable`.

Dropping a `ProcessVm` cleans up, ignoring an error, and then releases its count of the page
table.  The last process frees the heap, the code it holds and the top-level frame.  The frames
of the lower levels of the page table are not modelled, so neither is `Mapper::clean_up`. -/

namespace Ysos

open PartialMap Runs

/-- The identity of a `PageTableContext`. -/
abbrev SpaceId := ℕ

structure ProcessVm where
  pageTable : SpaceId
  stack : Stack
  code : List PageRangeInclusive
  codeUsage : ℕ
deriving DecidableEq, Repr

variable {α : Type} [FrameAllocator α] (B : Build)

namespace ProcessVm

def new (pageTable : SpaceId) : ProcessVm where
  pageTable := pageTable
  stack := Stack.empty
  code := []
  codeUsage := 0

def initKernelVm (vm : ProcessVm) (pages : List PageRangeInclusive) : ProcessVm :=
  { vm with
    code := pages
    codeUsage := (pages.map fun r => r.count * PAGE_SIZE).sum
    stack := Stack.kstack }

def brk (_vm : ProcessVm) (addr : Option ℕ) (v : Vm α) : Option ℕ × Vm α := Heap.brk addr v

def loadElfCode (vm : ProcessVm) (elf : ElfFile) (v : Vm α) : Except Panic (ProcessVm × Vm α) := do
  match ← Ysos.loadElf B elf true v.mem with
  | (.error _, _) => .error .elfLoad
  | (.ok (code, usage), m) => return ({ vm with code := code, codeUsage := usage }, v.setMem m)

def loadElf (vm : ProcessVm) (elf : ElfFile) (v : Vm α) : Except Panic (ProcessVm × Vm α) := do
  let (vm, v) ← vm.loadElfCode B elf v
  let (stack, m) ← vm.stack.init B v.mem
  return ({ vm with stack := stack }, v.setMem m)

/-- The child shares the page table, whose count goes up, and the heap. -/
def fork (vm : ProcessVm) (childCount : ℕ) (v : Vm α) : Except Panic (ProcessVm × Vm α) := do
  let v := { v with space := { v.space with usingCount := v.space.usingCount + 1 } }
  let (stack, m) ← vm.stack.vfork B childCount v.mem
  return ({ pageTable := vm.pageTable, stack := stack, code := [], codeUsage := 0 }, v.setMem m)

def handlePageFault (vm : ProcessVm) (addr : ℕ) (user : Bool) (v : Vm α) :
    Except Panic (Bool × ProcessVm × Vm α) := do
  let (ok, stack, m) ← vm.stack.handlePageFault B addr user v.mem
  return (ok, { vm with stack := stack }, v.setMem m)

/-- The loop of `clean_up` over the code ranges. -/
def unmapCode : List PageRangeInclusive → Mem α → Except UnmapError Unit × Mem α
  | [], m => (.ok (), m)
  | r :: rs, m =>
      match unmapRange r m with
      | (.error e, m') => (.error e, m')
      | (.ok (), m') => unmapCode rs m'

/-- What `clean_up` does when no other process uses the page table. -/
def freeShared (vm : ProcessVm) (v : Vm α) : Except UnmapError Unit × Vm α :=
  match Heap.cleanUp v with
  | (.error e, v) => (.error e, v)
  | (.ok (), v) =>
      match unmapCode vm.code v.mem with
      | (.error e, m) => (.error e, v.setMem m)
      | (.ok (), m) =>
          (.ok (), { v.setMem m with alloc := deallocateFrame m.alloc v.space.addr })

def cleanUp (vm : ProcessVm) (v : Vm α) : Except Panic (Except UnmapError Unit × Vm α) := do
  match ← vm.stack.cleanUp B v.mem with
  | (.error e, _, m) => return (.error e, v.setMem m)
  | (.ok (), _, m) =>
      let v := v.setMem m
      if v.space.usingCount = 1 then return vm.freeShared v else return (.ok (), v)

/-- `Drop for ProcessVm`, and the drop of the fields behind it. -/
def drop (vm : ProcessVm) (v : Vm α) : Except Panic (Vm α) := do
  let (_, v) ← vm.cleanUp B v
  return { v with space := { v.space with usingCount := v.space.usingCount - 1 } }

/-! ### Loading a program -/

variable {B}

/-- A process with a program: its ranges are what `load_elf` mapped, and its stack is new. -/
theorem loadElf_eq {vm vm' : ProcessVm} {v v' : Vm α} {elf : ElfFile}
    (h : vm.loadElf B elf v = .ok (vm', v')) :
    ∃ m m', Ysos.loadElf B elf true v.mem = .ok (.ok (vm'.code, vm'.codeUsage), m) ∧
      mapEach (stackFlags true) Stack.initial.range.pages m = (.ok (), m') ∧
      vm'.stack = Stack.initial ∧ v' = v.setMem m' := by
  simp only [loadElf, loadElfCode, bind_eq_ok, pure_eq_ok] at h
  obtain ⟨⟨p, w⟩, ⟨⟨r, m⟩, hload, hcode⟩, ⟨stack, m'⟩, hinit, h⟩ := h
  rcases r with e | ⟨code, usage⟩
  · cases hcode
  · cases hcode
    obtain ⟨rfl, hm⟩ := Stack.init_eq hinit
    cases h
    exact ⟨m, m', hload, hm, rfl, rfl⟩

/-! ### Panics -/

/-- A computation that panics in the memory code only. -/
abbrev InMemory {β : Type} (x : Except Panic β) : Prop := Raises (fun e => e.inMemory = true) x

omit [FrameAllocator α] in
theorem inMemory_of_error {β : Type} {x : Except Panic β}
    (h : ∀ e, x = .error e → e.isArithmetic = true) : InMemory x :=
  fun e he => Panic.inMemory_of_isArithmetic (h e he)

theorem loadEach_inMemory {elf : ElfFile} {seg : ProgramHeader} {flags : PageTableFlags} :
    ∀ {idx : ℕ} {ps : List ℕ} {m : Mem α}, InMemory (loadEach B elf seg flags idx ps m)
  | _, [], _ => .ok _
  | idx, p :: ps, m => by
      unfold loadEach
      split
      · exact .ok _
      · refine (inMemory_of_error fun _ => Build.sub_error).bind fun left _ => ?_
        dsimp only
        split
        · exact .pure _
        · exact loadEach_inMemory

theorem loadSegment_inMemory {elf : ElfFile} {seg : ProgramHeader} {user : Bool} {m : Mem α} :
    InMemory (loadSegment B elf seg user m) := by
  have hadd : ∀ a n, InMemory (B.virtAdd a n) := fun _ _ =>
    inMemory_of_error fun _ => Build.virtAdd_error
  have hsub : ∀ a n, InMemory (B.virtSub a n) := fun _ _ =>
    inMemory_of_error fun _ => Build.virtSub_error
  have hnew : ∀ a, InMemory (virtAddrNew a) := fun _ => inMemory_of_error fun _ => virtAddrNew_error
  have hdata : ∀ virtStart, InMemory (loadFileData B elf seg user virtStart m) := by
    intro virtStart
    unfold loadFileData
    split_ifs
    · exact (hadd _ _).bind fun _ _ => (hsub _ _).bind fun _ _ => loadEach_inMemory
    · exact .ok _
  have hbss : ∀ virtStart (m : Mem α), InMemory (loadBss B seg user virtStart m) := by
    intro virtStart m
    unfold loadBss
    split_ifs
    · exact (hadd _ _).bind fun _ _ => (hnew _).bind fun _ _ => (hadd _ _).bind fun _ _ =>
        (hsub _ _).bind fun _ _ => .pure _
    · exact .ok _
  unfold loadSegment
  refine (hnew _).bind fun virtStart _ => (hdata virtStart).bind fun ⟨r, m₁⟩ _ => ?_
  rcases r with e | _
  · exact .pure _
  refine (hbss virtStart m₁).bind fun ⟨r, m₂⟩ _ => ?_
  rcases r with e | _
  · exact .pure _
  · exact (hadd _ _).bind fun _ _ => (hsub _ _).bind fun _ _ => .pure _

theorem loadSegments_inMemory {elf : ElfFile} {user : Bool} :
    ∀ {segs : List ProgramHeader} {ranges : List PageRangeInclusive} {usage : ℕ} {m : Mem α},
      InMemory (loadSegments B elf user segs ranges usage m)
  | [], _, _, _ => .ok _
  | seg :: segs, ranges, usage, m => by
      unfold loadSegments
      split
      · exact .error rfl
      · exact loadSegments_inMemory
      split_ifs
      · exact loadSegments_inMemory
      refine loadSegment_inMemory.bind fun ⟨r, m'⟩ _ => ?_
      rcases r with e | ⟨range, bytes⟩
      · exact .pure _
      · exact (inMemory_of_error fun _ => Build.add_error).bind fun _ _ => loadSegments_inMemory

theorem loadElf_inMemory {vm : ProcessVm} {v : Vm α} {elf : ElfFile} :
    InMemory (vm.loadElf B elf v) := by
  have hcode : InMemory (vm.loadElfCode B elf v) := by
    refine loadSegments_inMemory.bind fun ⟨r, m⟩ _ => ?_
    rcases r with e | ⟨code, usage⟩
    · exact .error rfl
    · exact .pure _
  refine hcode.bind fun ⟨vm', v'⟩ _ => Raises.bind ?_ fun ⟨stack, m⟩ _ => .pure _
  refine (inMemory_of_error fun _ => Build.debugAssert_error).bind fun _ _ => ?_
  refine (inMemory_of_error fun _ => mapPages_error).bind fun ⟨r, m⟩ _ => ?_
  rcases r with e | range
  · exact .error rfl
  · exact .pure _

theorem probe_inMemory {usage : ℕ} :
    ∀ {n base : ℕ} {m : Mem α}, InMemory (Stack.probe B usage n base m)
  | 0, _, _ => .error rfl
  | n + 1, base, m => by
      refine (inMemory_of_error fun _ => mapPages_error).bind fun ⟨r, m'⟩ _ => ?_
      rcases r with e | r
      · exact (inMemory_of_error fun _ => Build.sub_error).bind fun _ _ => probe_inMemory
      · exact .pure _

theorem fork_inMemory {vm : ProcessVm} {childCount : ℕ} {v : Vm α} :
    InMemory (vm.fork B childCount v) := by
  refine Raises.bind ?_ fun ⟨stack, m⟩ _ => .pure _
  refine (inMemory_of_error fun _ => Build.mul_error).bind fun _ _ => ?_
  refine (inMemory_of_error fun _ => Build.sub_error).bind fun _ _ => ?_
  refine probe_inMemory.bind fun _ _ => ?_
  refine (inMemory_of_error fun _ => virtAddrNew_error).bind fun _ _ => ?_
  exact (inMemory_of_error fun _ => Build.pageAdd_error).bind fun _ _ => .pure _

omit [FrameAllocator α] in
theorem stackOffset_inMemory {st old : Stack} : InMemory (st.stackOffset B old) :=
  (inMemory_of_error fun _ => Build.sub_error).bind fun _ _ =>
    (inMemory_of_error fun _ => Build.debugAssert_error).bind fun _ _ => .pure _

theorem handlePageFault_inMemory {vm : ProcessVm} {addr : ℕ} {user : Bool} {v : Vm α} :
    InMemory (vm.handlePageFault B addr user v) := by
  refine Raises.bind ?_ fun ⟨ok, stack, m⟩ _ => .pure _
  unfold Stack.handlePageFault
  split_ifs
  · refine Raises.bind ?_ fun ⟨r, st', m'⟩ _ => ?_
    · refine (inMemory_of_error fun _ => Build.debugAssert_error).bind fun _ _ => ?_
      dsimp only
      split_ifs
      · exact .error rfl
      refine (inMemory_of_error fun _ => mapPages_error).bind fun ⟨r, m'⟩ _ => ?_
      rcases r with e | r
      · exact .pure _
      · exact .pure _
    · rcases r with e | _
      · exact .pure _
      · exact .pure _
  · exact .ok _

theorem drop_inMemory {vm : ProcessVm} {v : Vm α} : InMemory (vm.drop B v) := by
  refine Raises.bind ?_ fun _ _ => .pure _
  refine Raises.bind ?_ fun ⟨r, st, m⟩ _ => ?_
  · unfold Stack.cleanUp
    split_ifs
    · exact .ok _
    · refine (inMemory_of_error fun _ => unmapPages_error).bind fun ⟨r, m'⟩ _ => ?_
      rcases r with e | _
      · exact .pure _
      · exact .pure _
    · exact .ok _
  · rcases r with e | _
    · exact .pure _
    · dsimp only
      split_ifs
      · exact .pure _
      · exact .pure _

/-! ### What dropping removes -/

variable {vm : ProcessVm} {v v' : Vm (Recorder α)} {T₀ : PageTable} {rest : List (Set ℕ)}

theorem unmapCode_removes : ∀ {code : List PageRangeInclusive} {m m' : Mem (Recorder α)}
    {r : Except UnmapError Unit}, Layered T₀ (code.map PageRangeInclusive.pageSet ++ rest) m.table →
    unmapCode code m = (r, m') →
    r = .ok () ∧ Removes (code.flatMap PageRangeInclusive.pages) m m' ∧ Layered T₀ rest m'.table
  | [], m, m', r, hl, h => by
      cases h
      exact ⟨rfl, Removes.nil m, hl⟩
  | c :: cs, m, m', r, hl, h => by
      rw [List.map_cons, List.cons_append] at hl
      rcases hm : unmapRange c m with ⟨r₁, m₁⟩
      have hmapped : ∀ p ∈ c.pages, m.table p ≠ none := fun p hp => hl.bound List.mem_cons_self hp
      obtain ⟨rfl, hrem⟩ := unmapRange_removes hmapped hm
      simp only [unmapCode, hm] at h
      obtain ⟨rfl, hrem', hl'⟩ := unmapCode_removes (hl.pop hrem.table) h
      exact ⟨rfl, hrem.append hrem', hl'⟩

/-- The pages of a process: its stack, and the code if it holds it. -/
def layers (vm : ProcessVm) : List (Set ℕ) :=
  {p | p ∈ vm.stack.range.pages} :: vm.code.map PageRangeInclusive.pageSet

/-- While other processes use the page table, dropping a process that holds no code removes its
stack. -/
theorem drop_shared (hst : vm.stack.Sized) (hcode : vm.code = [])
    (hcount : v.space.usingCount ≠ 1) (hl : Layered T₀ (vm.layers ++ rest) v.space.table)
    (h : vm.drop B v = .ok v') :
    Removes vm.stack.range.pages v.mem v'.mem ∧ Layered T₀ rest v'.space.table ∧
      v'.space.usingCount = v.space.usingCount - 1 ∧ v'.space.heapEnd = v.space.heapEnd := by
  rw [layers, hcode, List.map_nil, List.singleton_append] at hl
  simp only [drop, bind_eq_ok, pure_eq_ok] at h
  obtain ⟨⟨r, v₁⟩, hclean, rfl⟩ := h
  simp only [cleanUp, bind_eq_ok] at hclean
  obtain ⟨⟨r', st, m⟩, hstack, hclean⟩ := hclean
  obtain ⟨rfl, hrem⟩ :=
    Stack.cleanUp_removes hst (fun p hp => hl.bound List.mem_cons_self hp) hstack
  have hcount' : (v.setMem m).space.usingCount ≠ 1 := hcount
  simp only [if_neg hcount', pure_eq_ok, Prod.mk.injEq] at hclean
  obtain ⟨-, rfl⟩ := hclean
  exact ⟨hrem, hl.pop hrem.table, rfl, rfl⟩

theorem freeShared_eq {v v₂ : Vm α} {m : Mem α}
    (hheap : Heap.cleanUp v = (.ok (), v₂)) (hcode : unmapCode vm.code v₂.mem = (.ok (), m)) :
    vm.freeShared v =
      (.ok (), { v₂.setMem m with alloc := deallocateFrame m.alloc v₂.space.addr }) := by
  rw [freeShared, hheap]
  simp only [hcode]

/-- Dropping the last process removes its stack, the heap and the code it holds, and frees the
top-level frame. -/
theorem drop_last (hst : vm.stack.Sized) (hcount : v.space.usingCount = 1)
    (hl : Layered T₀ (vm.layers ++ {p | p ∈ Heap.pages v.space.heapEnd} :: rest) v.space.table)
    (h : vm.drop B v = .ok v') :
    ∃ m, Removes (vm.stack.range.pages ++ Heap.pages v.space.heapEnd ++
        vm.code.flatMap PageRangeInclusive.pages) v.mem m ∧
      v'.space.table = m.table ∧ v'.alloc.freed = v.space.addr :: m.alloc.freed ∧
      Layered T₀ rest v'.space.table ∧ v'.space.usingCount = 0 ∧
      v'.space.heapEnd = HEAP_START := by
  simp only [drop, bind_eq_ok, pure_eq_ok] at h
  obtain ⟨⟨r, v₁⟩, hclean, rfl⟩ := h
  simp only [cleanUp, bind_eq_ok] at hclean
  obtain ⟨⟨r', st, m₁⟩, hstack, hclean⟩ := hclean
  rw [layers, List.cons_append] at hl
  obtain ⟨rfl, hrem₁⟩ :=
    Stack.cleanUp_removes hst (fun p hp => hl.bound List.mem_cons_self hp) hstack
  have hl₁ := (hl.pop hrem₁.table).perm List.perm_middle
  have hcount' : (v.setMem m₁).space.usingCount = 1 := hcount
  simp only [if_pos hcount', pure_eq_ok] at hclean
  rcases hheapUp : Heap.cleanUp (v.setMem m₁) with ⟨r₂, v₂⟩
  obtain ⟨rfl, hrem₂, hend, hcount₂, haddr⟩ :=
    Heap.cleanUp_removes (v := v.setMem m₁) (fun p hp => hl₁.bound List.mem_cons_self hp) hheapUp
  have hl₂ := hl₁.pop hrem₂.table
  rcases hcodeUp : unmapCode vm.code v₂.mem with ⟨r₃, m₃⟩
  obtain ⟨rfl, hrem₃, hl₃⟩ := unmapCode_removes hl₂ hcodeUp
  rw [freeShared_eq hheapUp hcodeUp] at hclean
  obtain ⟨-, rfl⟩ := Prod.mk.inj hclean
  refine ⟨m₃, (hrem₁.append hrem₂).append hrem₃, rfl, ?_, hl₃, ?_, hend⟩
  · rw [haddr]
    rfl
  · show v₂.space.usingCount - 1 = 0
    rw [hcount₂, hcount']

end ProcessVm

end Ysos
