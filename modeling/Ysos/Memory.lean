import Ysos.Build
import Ysos.PartialMap

/-! # Frames, page tables and the mapper

A frame is named by its number (physical address divided by `PAGE_SIZE`) and a page by its
number.  The mapper of the `x86_64` crate is taken as a partial map from pages to entries:
`mapTo` fails on a page that is mapped and `unmap` on one that is not.  The frames that hold
the lower levels of a page table are those of `Tables`; here they exist.

The code that maps and unmaps is generic over the frame allocator, and so is the model
(`FrameAllocator`); `BootInfoFrameAllocator` is the kernel's.  `Recorder` is any allocator
together with the list of the frames that were passed to `deallocate_frame`, newest first. -/

namespace Ysos

open PartialMap

abbrev Frame := ℕ

/-- The page table flags that the code sets besides `PRESENT`. -/
structure PageTableFlags where
  writable : Bool
  userAccessible : Bool
  noExecute : Bool
deriving DecidableEq, Repr

structure PageTableEntry where
  frame : Frame
  flags : PageTableFlags
deriving DecidableEq, Repr

/-- A page table as the mapper sees it. -/
abbrev PageTable := ℕ → Option PageTableEntry

/-- The frame a page is mapped to (`0` when it is not mapped). -/
def PageTable.frameOf (T : PageTable) (p : ℕ) : Frame := ((T p).map PageTableEntry.frame).getD 0

/-! ### Frame allocators -/

/-- The traits `FrameAllocator` and `FrameDeallocator`. -/
class FrameAllocator (α : Type) where
  allocateFrame : α → Option Frame × α
  deallocateFrame : α → Frame → α

export FrameAllocator (allocateFrame deallocateFrame)

/-- The kernel's allocator: `frames` are the frames that the iterator over the memory map has
yet to yield, `recycled` is the vector of returned frames, last one first. -/
structure BootInfoFrameAllocator where
  size : ℕ
  used : ℕ
  frames : List Frame
  recycled : List Frame
deriving DecidableEq, Repr

instance : FrameAllocator BootInfoFrameAllocator where
  allocateFrame a :=
    match a.recycled with
    | f :: rest => (some f, { a with recycled := rest })
    | [] =>
        match a.frames with
        | f :: rest => (some f, { a with frames := rest, used := a.used + 1 })
        | [] => (none, a)
  deallocateFrame a f := { a with recycled := f :: a.recycled }

/-- An allocator that records the frames passed to `deallocate_frame`. -/
structure Recorder (α : Type) where
  inner : α
  freed : List Frame

instance {α : Type} [FrameAllocator α] : FrameAllocator (Recorder α) where
  allocateFrame r := ((allocateFrame r.inner).1, { r with inner := (allocateFrame r.inner).2 })
  deallocateFrame r f := { inner := deallocateFrame r.inner f, freed := f :: r.freed }

/-- Return the frames of a list one by one. -/
def deallocateAll {α : Type} [FrameAllocator α] (a : α) (fs : List Frame) : α :=
  fs.foldl deallocateFrame a

theorem Recorder.freed_allocateFrame {α : Type} [FrameAllocator α] (r : Recorder α) :
    (allocateFrame r).2.freed = r.freed := rfl

theorem Recorder.freed_deallocateAll {α : Type} [FrameAllocator α] (fs : List Frame) :
    ∀ r : Recorder α, (deallocateAll r fs).freed = fs.reverse ++ r.freed := by
  induction fs with
  | nil => exact fun _ => rfl
  | cons f fs ih =>
      intro r
      have h : (deallocateAll r (f :: fs)) = deallocateAll (deallocateFrame r f) fs := rfl
      rw [h, ih]
      simp [deallocateFrame]

/-- The next `n` calls of `allocate_frame` all return a frame. -/
def Grants {α : Type} [FrameAllocator α] : ℕ → α → Prop
  | 0, _ => True
  | n + 1, a => (allocateFrame a).1 ≠ none ∧ Grants n (allocateFrame a).2

instance decidableGrants {α : Type} [FrameAllocator α] : ∀ (n : ℕ) (a : α), Decidable (Grants n a)
  | 0, _ => isTrue trivial
  | n + 1, a =>
      have := decidableGrants n (allocateFrame a).2
      inferInstanceAs (Decidable ((allocateFrame a).1 ≠ none ∧ Grants n (allocateFrame a).2))

/-! ### The free frames of the kernel's allocator -/

namespace BootInfoFrameAllocator

/-- The frames that calls of `allocate_frame` return, in their order. -/
def free (a : BootInfoFrameAllocator) : List Frame := a.recycled ++ a.frames

variable {a b : BootInfoFrameAllocator} {f : Frame}

theorem free_of_some (h : allocateFrame a = (some f, b)) : a.free = f :: b.free := by
  obtain ⟨size, used, frames, recycled⟩ := a
  rcases recycled with _ | ⟨g, recycled⟩
  · rcases frames with _ | ⟨g, frames⟩ <;> cases h
    rfl
  · cases h
    rfl

theorem free_of_none (h : allocateFrame a = (none, b)) : a.free = [] ∧ b = a := by
  obtain ⟨size, used, frames, recycled⟩ := a
  rcases recycled with _ | ⟨g, recycled⟩
  · rcases frames with _ | ⟨g, frames⟩ <;> cases h
    exact ⟨rfl, rfl⟩
  · cases h

theorem grants_iff : ∀ {n : ℕ} {a : BootInfoFrameAllocator}, Grants n a ↔ n ≤ a.free.length
  | 0, _ => iff_of_true trivial (Nat.zero_le _)
  | n + 1, a => by
      unfold Grants
      rcases ha : allocateFrame a with ⟨_ | f, b⟩
      · simp [(free_of_none ha).1]
      · simp [free_of_some ha, grants_iff]

end BootInfoFrameAllocator

/-! ### The memory of one address space -/

/-- What the code that maps and unmaps pages works on: a page table, the frame allocator and
the contents of the frames. -/
structure Mem (α : Type) where
  table : PageTable
  alloc : α
  phys : Frame → ℕ → UInt8

/-- Errors of `Mapper::map_to`, with the allocator's failure that callers turn into one. -/
inductive MapToError where
  | frameAllocationFailed
  | pageAlreadyMapped (f : Frame)
deriving DecidableEq, Repr

/-- Errors of `Mapper::unmap`. -/
inductive UnmapError where
  | pageNotMapped
deriving DecidableEq, Repr

variable {α : Type}

/-- `Mapper::map_to`. -/
def Mem.mapTo (m : Mem α) (p : ℕ) (f : Frame) (flags : PageTableFlags) :
    Except MapToError (Mem α) :=
  match m.table p with
  | some e => .error (.pageAlreadyMapped e.frame)
  | none => .ok { m with table := Function.update m.table p (some ⟨f, flags⟩) }

/-- `Mapper::unmap`. -/
def Mem.unmap (m : Mem α) (p : ℕ) : Except UnmapError (Frame × Mem α) :=
  match m.table p with
  | none => .error .pageNotMapped
  | some e => .ok (e.frame, { m with table := Function.update m.table p none })

/-- The whole of frame `src` is copied to frame `dst`. -/
def Mem.copyFrame (m : Mem α) (src dst : Frame) : Mem α :=
  { m with phys := Function.update m.phys dst (m.phys src) }

theorem mapTo_grown {m m' : Mem α} {p : ℕ} {f : Frame} {flags : PageTableFlags}
    (h : m.mapTo p f flags = .ok m') :
    Grown m.table {p} m'.table ∧ m'.alloc = m.alloc ∧ m'.phys = m.phys := by
  unfold Mem.mapTo at h
  split at h
  · cases h
  · rename_i hp
    cases h
    exact ⟨Grown.single _ hp, rfl, rfl⟩

/-! ### Recorded changes -/

/-- From `m` to `m'` the pages `S` are mapped, and no frame is returned to the allocator. -/
structure Adds (S : Set ℕ) (m m' : Mem (Recorder α)) : Prop where
  table : Grown m.table S m'.table
  freed : m'.alloc.freed = m.alloc.freed

/-- From `m` to `m'` the distinct pages `ps` are unmapped, and exactly their frames are returned
to the allocator, one by one. -/
structure Removes (ps : List ℕ) (m m' : Mem (Recorder α)) : Prop where
  table : Grown m'.table {p | p ∈ ps} m.table
  nodup : ps.Nodup
  freed : m'.alloc.freed = (ps.map m.table.frameOf).reverse ++ m.alloc.freed

theorem Removes.nil (m : Mem (Recorder α)) : Removes [] m m :=
  ⟨(Grown.refl m.table).congr (by ext; simp), List.nodup_nil, rfl⟩

theorem Removes.append {ps qs : List ℕ} {m m' m'' : Mem (Recorder α)} (h : Removes ps m m')
    (h' : Removes qs m' m'') : Removes (ps ++ qs) m m'' := by
  have hd := h'.table.disjoint h.table
  have hqp : ∀ q ∈ qs, q ∉ ps := fun q hq hp => Set.disjoint_left.mp hd hq hp
  have hframe : qs.map m'.table.frameOf = qs.map m.table.frameOf := by
    apply List.map_congr_left
    intro q hq
    rw [PageTable.frameOf, PageTable.frameOf, h.table.same q (hqp q hq)]
  refine ⟨(h'.table.trans h.table).congr ?_, ?_, ?_⟩
  · ext p
    simp [or_comm]
  · exact h.nodup.append h'.nodup fun p hp hq => hqp p hq hp
  · rw [h'.freed, h.freed, hframe]
    simp

/-! ### Page ranges -/

/-- `PageRange`: the pages from `start` up to but not including `stop`. -/
structure PageRange where
  start : ℕ
  stop : ℕ
deriving DecidableEq, Repr

/-- `PageRangeInclusive`. -/
structure PageRangeInclusive where
  start : ℕ
  last : ℕ
deriving DecidableEq, Repr

/-- `PageRange::count`. -/
def PageRange.count (r : PageRange) : ℕ := r.stop - r.start

/-- The pages that iterating over the range yields. -/
def PageRange.pages (r : PageRange) : List ℕ := List.range' r.start r.count

/-- `PageRangeInclusive::count`. -/
def PageRangeInclusive.count (r : PageRangeInclusive) : ℕ := r.last + 1 - r.start

/-- The pages that iterating over the range yields. -/
def PageRangeInclusive.pages (r : PageRangeInclusive) : List ℕ := List.range' r.start r.count

@[simp] theorem PageRange.mem_pages {r : PageRange} {p : ℕ} :
    p ∈ r.pages ↔ r.start ≤ p ∧ p < r.stop := by
  simp only [pages, count, List.mem_range'_1]
  omega

@[simp] theorem PageRangeInclusive.mem_pages {r : PageRangeInclusive} {p : ℕ} :
    p ∈ r.pages ↔ r.start ≤ p ∧ p ≤ r.last := by
  simp only [pages, count, List.mem_range'_1]
  omega

theorem PageRange.nodup_pages (r : PageRange) : r.pages.Nodup := List.nodup_range'

theorem PageRange.length_pages (r : PageRange) : r.pages.length = r.stop - r.start :=
  List.length_range'

theorem PageRangeInclusive.nodup_pages (r : PageRangeInclusive) : r.pages.Nodup :=
  List.nodup_range'

/-- An inclusive range and the half-open one that ends behind it have the same pages. -/
theorem PageRangeInclusive.pages_eq (r : PageRangeInclusive) :
    r.pages = (PageRange.mk r.start (r.last + 1)).pages := rfl

theorem PageRangeInclusive.pages_pred {a b : ℕ} (h : 0 < b) :
    (PageRangeInclusive.mk a (b - 1)).pages = (PageRange.mk a b).pages := by
  rw [pages_eq, Nat.sub_add_cancel h]

end Ysos
