import Ysos.Address
import Ysos.Build

/-! # The heap of the user allocator (`memory/user.rs`)

`init_user_heap` maps pages for the user allocator and then hands it a region.  The allocator is not
part of the repository: a `UserAllocator` is anything with its operations, and `Within` says that the
blocks it returns lie in the region it was initialised with.

* `blocksOf`: the blocks that a sequence of system calls returns.
* `user_blocks_mapped_iff`: their bytes are mapped for the user exactly when none of them reaches into
  the last page of the region.
* `last_page_not_mapped`: a block of the whole region. -/

namespace Ysos

open PartialMap

/-! ### The allocator -/

/-- `core::alloc::Layout` -/
structure AllocLayout where
  size : UInt64
  align : UInt64
deriving DecidableEq, Repr

/-- The operations of the linked-list allocator that the kernel uses. -/
structure UserAllocator (σ : Type) where
  init : (start size : ℕ) → σ
  allocateFirstFit : AllocLayout → σ → Option ℕ × σ
  deallocate : (ptr : ℕ) → AllocLayout → σ → σ

namespace UserAllocator

variable {σ : Type} (A : UserAllocator σ) (start size : ℕ)

/-- The states of an allocator that was initialised with a region. -/
inductive Reached : σ → Prop where
  | init : Reached (A.init start size)
  | allocate {s : σ} (layout : AllocLayout) (h : Reached s) : Reached (A.allocateFirstFit layout s).2
  | deallocate {s : σ} (ptr : ℕ) (layout : AllocLayout) (h : Reached s) :
      Reached (A.deallocate ptr layout s)

/-- The blocks lie in the region. -/
def Within : Prop := ∀ s layout ptr, A.Reached start size s →
  (A.allocateFirstFit layout s).1 = some ptr → start ≤ ptr ∧ ptr + layout.size.toNat ≤ start + size

end UserAllocator

/-! ### The code -/

def USER_HEAP_START : ℕ := 0x4000_0000_0000
def USER_HEAP_SIZE : ℕ := 1024 * 1024
def USER_HEAP_PAGE : ℕ := USER_HEAP_SIZE / PAGE_SIZE

/-- `page_range` -/
def userHeapRange : PageRange :=
  let heapStartPage := pageOf USER_HEAP_START
  let heapEndPage := heapStartPage + USER_HEAP_PAGE - 1
  ⟨heapStartPage, heapEndPage⟩

/-- `flags` -/
def userHeapFlags : PageTableFlags := { writable := true, userAccessible := true, noExecute := false }

section

variable {σ α : Type} (A : UserAllocator σ) [FrameAllocator α] (B : Build)

def initUserHeap (m : Mem α) : Except MapToError σ × Mem α :=
  match mapEach userHeapFlags userHeapRange.pages m with
  | (.error e, m) => (.error e, m)
  | (.ok (), m) => (.ok (A.init USER_HEAP_START USER_HEAP_SIZE), m)

/-- `sys_allocate`, over the layouts in memory; the reference to the one at zero is unwrapped. -/
def sysAllocate (layoutAt : UInt64 → AllocLayout) (args : SyscallArgs) (s : σ) : Option (UInt64 × σ) :=
  if args.arg0 = 0 then none
  else
    let layout := layoutAt args.arg0
    if layout.size = 0 then some (0, s)
    else
      match A.allocateFirstFit layout s with
      | (some ptr, s) => some (UInt64.ofNat ptr, s)
      | (none, s) => some (0, s)

/-- `sys_deallocate`, over the page table and the layouts in memory. -/
def sysDeallocate (T : PageTable) (layoutAt : UInt64 → AllocLayout) (args : SyscallArgs) (s : σ) :
    Option σ :=
  if args.arg0 = 0 then some s
  else if ¬ isUserAccessable T args.arg0 then some s
  else if ¬ isUserAccessable T args.arg1 then some s
  else if args.arg1 = 0 then none
  else
    let layout := layoutAt args.arg1
    if layout.size = 0 then some s
    else
      match (do B.sub (← B.add args.arg0.toNat layout.size.toNat) 1 : Except Panic ℕ) with
      | .error _ => none
      | .ok last =>
          if ¬ isUserAccessable T (UInt64.ofNat last) then some s
          else some (A.deallocate args.arg0.toNat layout s)

end

/-- A call, with the memory that it finds. -/
inductive UserHeapCall where
  | allocate (layoutAt : UInt64 → AllocLayout) (args : SyscallArgs)
  | deallocate (T : PageTable) (layoutAt : UInt64 → AllocLayout) (args : SyscallArgs)

/-- A block that a call returned. -/
structure UserBlock where
  ptr : ℕ
  size : ℕ
deriving DecidableEq, Repr

section

variable {σ : Type} (A : UserAllocator σ) (B : Build)

/-- The blocks that a sequence of calls returns, up to the first call that panics. -/
def blocksOf : List UserHeapCall → σ → List UserBlock
  | [], _ => []
  | .allocate layoutAt args :: calls, s =>
      match sysAllocate A layoutAt args s with
      | none => []
      | some (ret, s) =>
          if ret = 0 then blocksOf calls s
          else ⟨ret.toNat, (layoutAt args.arg0).size.toNat⟩ :: blocksOf calls s
  | .deallocate T layoutAt args :: calls, s =>
      match sysDeallocate A B T layoutAt args s with
      | none => []
      | some s => blocksOf calls s

end

/-! ### The two descriptions of the region -/

/-- The page is one that was mapped for the user between the two tables. -/
def MappedForUser (T T' : PageTable) (p : ℕ) : Prop :=
  T p = none ∧ ∃ entry ∈ T' p, entry.flags.userAccessible = true

/-- Each byte of the block is in such a page. -/
def UserBlock.Mapped (b : UserBlock) (T T' : PageTable) : Prop :=
  ∀ a, b.ptr ≤ a → a < b.ptr + b.size → MappedForUser T T' (pageOf a)

/-- The end of the mapped pages, a page before the end of the region. -/
def USER_HEAP_MAPPED : ℕ := USER_HEAP_START + USER_HEAP_SIZE - PAGE_SIZE

/-- The block lies in the region. -/
def UserBlock.InRegion (b : UserBlock) : Prop :=
  0 < b.size ∧ USER_HEAP_START ≤ b.ptr ∧ b.ptr + b.size ≤ USER_HEAP_START + USER_HEAP_SIZE

instance (b : UserBlock) : Decidable b.InRegion :=
  inferInstanceAs (Decidable (0 < b.size ∧ USER_HEAP_START ≤ b.ptr ∧
    b.ptr + b.size ≤ USER_HEAP_START + USER_HEAP_SIZE))

variable {σ α : Type} {A : UserAllocator σ} [FrameAllocator α] {B : Build}

theorem mem_userHeapRange {a : ℕ} :
    pageOf a ∈ userHeapRange.pages ↔ USER_HEAP_START ≤ a ∧ a < USER_HEAP_MAPPED := by
  rw [PageRange.mem_pages]
  simp only [userHeapRange, USER_HEAP_MAPPED, USER_HEAP_PAGE, USER_HEAP_START, USER_HEAP_SIZE, pageOf,
    PAGE_SIZE]
  omega

theorem mapEach_flags {flags : PageTableFlags} : ∀ {ps : List ℕ} {m m' : Mem α},
    mapEach flags ps m = (.ok (), m') → ∀ p ∈ ps, ∃ entry ∈ m'.table p, entry.flags = flags
  | [], _, _, _ => nofun
  | q :: ps, m, m', h => by
      unfold mapEach at h
      split at h
      · cases h
      rename_i f a ha
      split at h
      · cases h
      rename_i m₁ hmap
      intro p hp
      rcases List.mem_cons.mp hp with rfl | hp
      · unfold Mem.mapTo at hmap
        split at hmap
        · cases hmap
        cases hmap
        exact ⟨_, (mapEach_ok h).keeps (Function.update_self _ _ _), rfl⟩
      · exact mapEach_flags h p hp

theorem initUserHeap_ok {m m' : Mem α} {s : σ} (h : initUserHeap A m = (.ok s, m')) :
    s = A.init USER_HEAP_START USER_HEAP_SIZE ∧
      ∀ p, MappedForUser m.table m'.table p ↔ p ∈ userHeapRange.pages := by
  unfold initUserHeap at h
  split at h
  · cases h
  rename_i m₁ hmap
  cases h
  have hg := mapEach_ok hmap
  refine ⟨rfl, fun p => ⟨fun ⟨hnone, entry, hentry, _⟩ => ?_, fun hp => ⟨hg.fresh p hp, ?_⟩⟩⟩
  · exact hg.mem_iff.mpr ⟨hnone, fun h => by cases h.symm.trans hentry⟩
  · obtain ⟨entry, hentry, hflags⟩ := mapEach_flags hmap p hp
    exact ⟨entry, hentry, by rw [hflags]; rfl⟩

/-- In the region, a block is mapped if it ends before the last page. -/
theorem UserBlock.mapped_iff {b : UserBlock} {m m' : Mem α} {s : σ}
    (h : initUserHeap A m = (.ok s, m')) (hb : b.InRegion) :
    b.Mapped m.table m'.table ↔ b.ptr + b.size ≤ USER_HEAP_MAPPED := by
  obtain ⟨hpos, hlo, hhi⟩ := hb
  obtain ⟨-, hmapped⟩ := initUserHeap_ok h
  unfold Mapped
  simp only [hmapped, mem_userHeapRange]
  constructor
  · intro hall
    have hlast := (hall (b.ptr + b.size - 1) (by omega) (by omega)).2
    omega
  · intro hend a ha hlt
    exact ⟨hlo.trans ha, by omega⟩

/-! ### Sequences of calls -/

theorem sysDeallocate_reached {T : PageTable} {layoutAt : UInt64 → AllocLayout} {args : SyscallArgs}
    {s s' : σ} {start size : ℕ} (hs : A.Reached start size s)
    (h : sysDeallocate A B T layoutAt args s = some s') : A.Reached start size s' := by
  unfold sysDeallocate at h
  split at h
  · exact Option.some.inj h ▸ hs
  split at h
  · exact Option.some.inj h ▸ hs
  split at h
  · exact Option.some.inj h ▸ hs
  split at h
  · cases h
  simp only at h
  split at h
  · exact Option.some.inj h ▸ hs
  split at h
  · cases h
  split at h
  · exact Option.some.inj h ▸ hs
  · exact Option.some.inj h ▸ .deallocate _ _ hs

theorem sysAllocate_reached {layoutAt : UInt64 → AllocLayout} {args : SyscallArgs} {s s' : σ} {ret : UInt64}
    (hA : A.Within USER_HEAP_START USER_HEAP_SIZE) (hs : A.Reached USER_HEAP_START USER_HEAP_SIZE s)
    (h : sysAllocate A layoutAt args s = some (ret, s')) :
    A.Reached USER_HEAP_START USER_HEAP_SIZE s' ∧
      (ret ≠ 0 → UserBlock.InRegion ⟨ret.toNat, (layoutAt args.arg0).size.toNat⟩) := by
  unfold sysAllocate at h
  split_ifs at h with h0
  simp only at h
  split_ifs at h with hsize
  · cases h
    exact ⟨hs, fun hret => absurd rfl hret⟩
  · split at h
    · rename_i ptr s₁ hfit
      cases h
      refine ⟨?_, fun _ => ?_⟩
      · have hreached := UserAllocator.Reached.allocate (layoutAt args.arg0) hs
        rwa [hfit] at hreached
      · obtain ⟨hlo, hhi⟩ := hA s (layoutAt args.arg0) ptr hs (by rw [hfit])
        have hpos : 0 < (layoutAt args.arg0).size.toNat :=
          Nat.pos_of_ne_zero fun hz => hsize (UInt64.toNat_inj.mp hz)
        have hlt : ptr < 2 ^ 64 := by
          simp only [USER_HEAP_START, USER_HEAP_SIZE] at hhi
          omega
        have hptr : (UInt64.ofNat ptr).toNat = ptr := UInt64.toNat_ofNat_of_lt' hlt
        exact ⟨hpos, hptr.symm ▸ hlo, hptr.symm ▸ hhi⟩
    · rename_i s₁ hfit
      cases h
      refine ⟨?_, fun hret => absurd rfl hret⟩
      have hreached := UserAllocator.Reached.allocate (layoutAt args.arg0) hs
      rwa [hfit] at hreached

theorem blocksOf_inRegion (hA : A.Within USER_HEAP_START USER_HEAP_SIZE) :
    ∀ {calls : List UserHeapCall} {s : σ}, A.Reached USER_HEAP_START USER_HEAP_SIZE s →
      ∀ b ∈ blocksOf A B calls s, b.InRegion
  | [], _, _ => nofun
  | .allocate layoutAt args :: calls, s, hs => by
      rw [blocksOf]
      cases hret : sysAllocate A layoutAt args s with
      | none => exact nofun
      | some r =>
          obtain ⟨ret, s'⟩ := r
          obtain ⟨hs', hblock⟩ := sysAllocate_reached hA hs hret
          simp only
          split_ifs with h0
          · exact blocksOf_inRegion hA hs'
          · intro b hb
            rcases List.mem_cons.mp hb with rfl | hb
            · exact hblock h0
            · exact blocksOf_inRegion hA hs' b hb
  | .deallocate T layoutAt args :: calls, s, hs => by
      rw [blocksOf]
      cases hret : sysDeallocate A B T layoutAt args s with
      | none => exact nofun
      | some s' => exact blocksOf_inRegion hA (sysDeallocate_reached hs hret)

/-- **The user heap.**  The kernel initialises the user heap, and processes then make any system calls.  The
bytes of all blocks that these return are in pages that were mapped for the user exactly when none of the blocks
reaches into the last page of the region. -/
theorem user_blocks_mapped_iff (hA : A.Within USER_HEAP_START USER_HEAP_SIZE) {m m' : Mem α} {s : σ}
    (h : initUserHeap A m = (.ok s, m')) (calls : List UserHeapCall) :
    (∀ b ∈ blocksOf A B calls s, b.Mapped m.table m'.table) ↔
      ∀ b ∈ blocksOf A B calls s, b.ptr + b.size ≤ USER_HEAP_MAPPED := by
  obtain ⟨rfl, -⟩ := initUserHeap_ok h
  exact forall₂_congr fun b hb => UserBlock.mapped_iff h (blocksOf_inRegion hA .init b hb)

/-! ### An allocator -/

/-- The next free address and the end of the region. -/
def bumpAllocator : UserAllocator (ℕ × ℕ) where
  init start size := (start, start + size)
  allocateFirstFit layout s :=
    if s.1 + layout.size.toNat ≤ s.2 then (some s.1, (s.1 + layout.size.toNat, s.2)) else (none, s)
  deallocate _ _ s := s

theorem bumpAllocator_within (start size : ℕ) : bumpAllocator.Within start size := by
  have hreached : ∀ s, bumpAllocator.Reached start size s → start ≤ s.1 ∧ s.2 = start + size := by
    intro s hs
    induction hs with
    | init => exact ⟨le_rfl, rfl⟩
    | @allocate s layout hs ih =>
        simp only [bumpAllocator]
        split_ifs
        · exact ⟨ih.1.trans (Nat.le_add_right _ _), ih.2⟩
        · exact ih
    | deallocate ptr layout hs ih => exact ih
  intro s layout ptr hs hptr
  obtain ⟨hlo, hhi⟩ := hreached s hs
  simp only [bumpAllocator] at hptr
  split_ifs at hptr with hfit
  cases hptr
  exact ⟨hlo, hhi ▸ hfit⟩

/-- An empty page table, with a number of free frames. -/
def emptyMem (frames : ℕ) : Mem BootInfoFrameAllocator where
  table _ := none
  alloc := ⟨frames, 0, List.range frames, []⟩
  phys _ _ := 0

theorem mapEach_emptyMem (flags : PageTableFlags) {r : PageRange} {frames : ℕ}
    (h : r.stop - r.start ≤ frames) : ∃ m', mapEach flags r.pages (emptyMem frames) = (.ok (), m') := by
  have hfree : (emptyMem frames).alloc.free.length = frames := List.length_range
  have hgrants : Grants r.pages.length (emptyMem frames).alloc := by
    rw [BootInfoFrameAllocator.grants_iff, PageRange.length_pages, hfree]
    exact h
  exact mapEach_of_free (fun _ _ => rfl) (PageRange.nodup_pages r) hgrants

theorem initUserHeap_emptyMem :
    ∃ m', initUserHeap A (emptyMem USER_HEAP_PAGE) = (.ok (A.init USER_HEAP_START USER_HEAP_SIZE), m') := by
  have hframes : userHeapRange.stop - userHeapRange.start ≤ USER_HEAP_PAGE := by decide
  obtain ⟨m', hm'⟩ := mapEach_emptyMem userHeapFlags hframes
  refine ⟨m', ?_⟩
  unfold initUserHeap
  simp only [hm']

/-- A call for a block of this size. -/
def allocateCall (size : UInt64) : UserHeapCall := .allocate (fun _ => ⟨size, 8⟩) ⟨65533, 0x1000, 0, 0⟩

theorem user_blocks_mapped_iff_example : ∃ m' : Mem BootInfoFrameAllocator,
    UserBlock.Mapped ⟨USER_HEAP_START, 16⟩ (emptyMem USER_HEAP_PAGE).table m'.table := by
  obtain ⟨m', hm'⟩ := initUserHeap_emptyMem (A := bumpAllocator)
  refine ⟨m', ?_⟩
  have hmapped := (user_blocks_mapped_iff (B := .release) (bumpAllocator_within _ _) hm' [allocateCall 16]).mpr
  exact hmapped (by decide) _ (by decide)

/-- A block that is the whole region. -/
theorem last_page_not_mapped : ¬ ∀ (A : UserAllocator (ℕ × ℕ)) (m m' : Mem BootInfoFrameAllocator)
    (s : ℕ × ℕ) (calls : List UserHeapCall), A.Within USER_HEAP_START USER_HEAP_SIZE →
      initUserHeap A m = (.ok s, m') →
        ∀ b ∈ blocksOf A .release calls s, b.Mapped m.table m'.table := by
  intro hall
  obtain ⟨m', hm'⟩ := initUserHeap_emptyMem (A := bumpAllocator)
  have hmapped := hall _ _ _ _ [allocateCall 0x100000] (bumpAllocator_within _ _) hm'
    ⟨USER_HEAP_START, USER_HEAP_SIZE⟩ (by decide)
  exact absurd ((UserBlock.mapped_iff hm' (by decide)).mp hmapped) (by decide)

end Ysos
