import Ysos.Memory

/-! # The frames of the memory map

`BootInfoFrameAllocator` takes its frames from an iterator over the memory map of the boot
loader: the regions of type `CONVENTIONAL`, and of each of them the frames from its start on.
Here is the allocator with this iterator.  `LazyFrameAllocator.toList` is the same allocator with
the list of the frames that its iterator has yet to yield, which the rest of the development
works with.

* `FrameIter.next_some`, `FrameIter.next_none`: the iterator yields its `rest` one by one.
* `LazyFrameAllocator.allocate_toList`: the two allocators agree.
* `frames_conserved`: on every run on which only frames that are handed out are returned, the
  outstanding frames, the recycled frames and the frames to come are the frames of the memory
  map, each once. -/

namespace Ysos

open Runs

/-! ### The memory map -/

/-- `MemoryType::CONVENTIONAL`. -/
def CONVENTIONAL : UInt32 := 7

structure MemoryDescriptor where
  ty : UInt32
  physStart : UInt64
  pageCount : UInt64
deriving DecidableEq, Repr

abbrev MemoryMap := List MemoryDescriptor

namespace MemoryDescriptor

/-- The frames of a region from offset `v` on; only conventional regions have any. -/
def framesFrom (v : ℕ) (r : MemoryDescriptor) : List Frame :=
  if r.ty = CONVENTIONAL then
    List.range' (r.physStart.toNat / PAGE_SIZE + v) (r.pageCount.toNat - v)
  else []

/-- The addresses of a region. -/
def Has (r : MemoryDescriptor) (a : ℕ) : Prop :=
  r.physStart.toNat ≤ a ∧ a < r.physStart.toNat + r.pageCount.toNat * PAGE_SIZE

theorem mem_framesFrom_zero {r : MemoryDescriptor} {f : Frame} :
    f ∈ r.framesFrom 0 ↔ r.ty = CONVENTIONAL ∧ r.physStart.toNat / PAGE_SIZE ≤ f ∧
      f < r.physStart.toNat / PAGE_SIZE + r.pageCount.toNat := by
  unfold framesFrom
  split_ifs with hty
  · rw [and_iff_right hty, List.mem_range'_1, Nat.add_zero, Nat.sub_zero]
  · simp [hty]

end MemoryDescriptor

/-- All frames of the conventional regions. -/
def MemoryMap.frames (map : MemoryMap) : List Frame := map.flatMap (·.framesFrom 0)

/-- The conventional regions start at page boundaries and have no address in common. -/
structure MemoryMap.Valid (map : MemoryMap) : Prop where
  aligned : ∀ r ∈ map, r.ty = CONVENTIONAL → PAGE_SIZE ∣ r.physStart.toNat
  disjoint : map.Pairwise fun r r' =>
    r.ty = CONVENTIONAL → r'.ty = CONVENTIONAL → ∀ a, r.Has a → ¬ r'.Has a

theorem MemoryMap.Valid.nodup_frames {map : MemoryMap} (h : map.Valid) : map.frames.Nodup := by
  refine List.nodup_flatMap.mpr ⟨fun r _ => ?_, ?_⟩
  · unfold MemoryDescriptor.framesFrom
    split_ifs
    · exact List.nodup_range'
    · exact List.nodup_nil
  · refine h.disjoint.imp_of_mem fun {r r'} hr hr' hd => ?_
    intro f hf hf'
    obtain ⟨hty, hlo, hhi⟩ := MemoryDescriptor.mem_framesFrom_zero.mp hf
    obtain ⟨hty', hlo', hhi'⟩ := MemoryDescriptor.mem_framesFrom_zero.mp hf'
    obtain ⟨k, hk⟩ := h.aligned r hr hty
    obtain ⟨k', hk'⟩ := h.aligned r' hr' hty'
    have hpos : 0 < PAGE_SIZE := by decide
    rw [hk, Nat.mul_div_cancel_left k hpos] at hlo hhi
    rw [hk', Nat.mul_div_cancel_left k' hpos] at hlo' hhi'
    have has : ∀ {n c : ℕ}, n ≤ f → f < n + c →
        PAGE_SIZE * n ≤ PAGE_SIZE * f ∧ PAGE_SIZE * f < PAGE_SIZE * n + c * PAGE_SIZE := by
      intro n c hn hc
      refine ⟨Nat.mul_le_mul_left _ hn, ?_⟩
      rw [Nat.mul_comm c, ← Nat.mul_add]
      exact Nat.mul_lt_mul_of_pos_left hc hpos
    refine hd hty hty' (PAGE_SIZE * f) ?_ ?_
    · rw [MemoryDescriptor.Has, hk]
      exact has hlo hhi
    · rw [MemoryDescriptor.Has, hk']
      exact has hlo' hhi'

/-! ### The iterator -/

/-- The iterator of `create_frame_iter`: the regions that it has not left, and the offset that it
has reached in the first of them. -/
structure FrameIter where
  regions : List MemoryDescriptor
  offset : ℕ
deriving DecidableEq, Repr

/-- `PhysAddr::new`, which panics on an address of more than 52 bits. -/
def physAddrNew (a : ℕ) : Except Panic ℕ := if a < 2 ^ 52 then .ok a else .error .nonCanonical

namespace FrameIter

/-- The next region and offset of the filtered and flattened memory map. -/
def advance : List MemoryDescriptor → ℕ → Option (MemoryDescriptor × ℕ × FrameIter)
  | [], _ => none
  | r :: rs, v =>
      if r.ty = CONVENTIONAL ∧ v < r.pageCount.toNat then some (r, v, ⟨r :: rs, v + 1⟩)
      else advance rs 0

/-- The frame at offset `v` of a region. -/
def frameAt (B : Build) (r : MemoryDescriptor) (v : ℕ) : Except Panic Frame := do
  let bytes ← B.mul v 4096
  let addr ← B.add bytes r.physStart.toNat
  let addr ← physAddrNew addr
  return addr / PAGE_SIZE

/-- `Iterator::next`. -/
def next (B : Build) (it : FrameIter) : Except Panic (Option (Frame × FrameIter)) :=
  match advance it.regions it.offset with
  | none => .ok none
  | some (r, v, it') => do
      let f ← frameAt B r v
      return some (f, it')

/-- The frames that the iterator has yet to yield. -/
def rest (it : FrameIter) : List Frame :=
  match it.regions with
  | [] => []
  | r :: rs => r.framesFrom it.offset ++ MemoryMap.frames rs

/-- The frame before the next one lies below the bound of physical addresses. -/
def Begun (it : FrameIter) : Prop :=
  ∀ r ∈ it.regions.head?, 0 < it.offset →
    r.physStart.toNat + (it.offset - 1) * PAGE_SIZE < 2 ^ 52

theorem rest_zero (map : MemoryMap) : rest ⟨map, 0⟩ = map.frames := by
  cases map <;> rfl

theorem advance_none : ∀ {rs : List MemoryDescriptor} {v : ℕ}, advance rs v = none →
    rest ⟨rs, v⟩ = []
  | [], _, _ => rfl
  | r :: rs, v, h => by
      unfold advance at h
      split_ifs at h with hr
      have hfrom : r.framesFrom v = [] := by
        unfold MemoryDescriptor.framesFrom
        split_ifs with hty
        · rw [show r.pageCount.toNat - v = 0 by simp only [hty, true_and] at hr; omega]
          rfl
        · rfl
      simp only [rest, hfrom, List.nil_append]
      rw [← rest_zero, advance_none h]

theorem advance_some : ∀ {rs : List MemoryDescriptor} {v w : ℕ} {r : MemoryDescriptor}
    {it : FrameIter}, advance rs v = some (r, w, it) →
    rest ⟨rs, v⟩ = (r.physStart.toNat / PAGE_SIZE + w) :: rest it ∧
      it.offset = w + 1 ∧ it.regions.head? = some r ∧
      (w = 0 ∨ w = v ∧ rs.head? = some r)
  | [], _, _, _, _, h => by cases h
  | r :: rs, v, w, r', it, h => by
      unfold advance at h
      split_ifs at h with hr
      · cases h
        refine ⟨?_, rfl, rfl, Or.inr ⟨rfl, rfl⟩⟩
        simp only [rest, MemoryDescriptor.framesFrom, if_pos hr.1]
        rw [show r.pageCount.toNat - v = (r.pageCount.toNat - (v + 1)) + 1 by omega,
          List.range'_succ]
        rfl
      · obtain ⟨hrest, hoff, hhead, hw⟩ := advance_some h
        refine ⟨?_, hoff, hhead, Or.inl (hw.elim id fun h => h.1)⟩
        rw [← hrest]
        have hfrom : r.framesFrom v = [] := by
          unfold MemoryDescriptor.framesFrom
          split_ifs with hty
          · rw [show r.pageCount.toNat - v = 0 by simp only [hty, true_and] at hr; omega]
            rfl
          · rfl
        simp only [rest, hfrom, List.nil_append]
        exact (rest_zero rs).symm

/-- Right behind a frame below the bound of physical addresses nothing overflows. -/
theorem frameAt_ok {B : Build} {r : MemoryDescriptor} {v : ℕ} {f : Frame}
    (h : frameAt B r v = .ok f) (hv : v = 0 ∨ r.physStart.toNat + (v - 1) * PAGE_SIZE < 2 ^ 52) :
    f = r.physStart.toNat / PAGE_SIZE + v ∧ r.physStart.toNat + v * PAGE_SIZE < 2 ^ 52 := by
  have hP : PAGE_SIZE = 4096 := rfl
  have hU : U64 = 2 ^ 64 := rfl
  have hstart : r.physStart.toNat < 2 ^ 64 := r.physStart.toNat_lt
  rw [hP] at hv ⊢
  have hsum : v * 4096 + r.physStart.toNat < U64 := by omega
  have hmul : v * 4096 < U64 := Nat.lt_of_le_of_lt (Nat.le_add_right _ _) hsum
  simp only [frameAt, bind_eq_ok, pure_eq_ok] at h
  obtain ⟨bytes, hbytes, addr, haddr, a, ha, rfl⟩ := h
  rw [Build.mul, if_pos hmul] at hbytes
  cases hbytes
  rw [B.add_eq hsum] at haddr
  cases haddr
  unfold physAddrNew at ha
  split_ifs at ha with hlt
  cases ha
  rw [hP, Nat.add_comm (v * 4096), Nat.add_mul_div_right _ _ (by decide)]
  exact ⟨rfl, by omega⟩

variable {B : Build} {it it' : FrameIter} {f : Frame}

theorem next_none (h : it.next B = .ok none) : it.rest = [] := by
  unfold next at h
  split at h
  · rename_i hadv
    exact advance_none hadv
  · obtain ⟨f, -, hf⟩ := bind_eq_ok.mp h
    cases hf

theorem next_some (hb : it.Begun) (h : it.next B = .ok (some (f, it'))) :
    it.rest = f :: it'.rest ∧ it'.Begun ∧ f < 2 ^ 40 := by
  unfold next at h
  split at h
  · cases h
  · rename_i r v it'' hadv
    obtain ⟨f', hf', h⟩ := bind_eq_ok.mp h
    cases pure_eq_ok.mp h
    obtain ⟨hrest, hoff, hhead, hv⟩ := advance_some hadv
    have hprev : v = 0 ∨ r.physStart.toNat + (v - 1) * PAGE_SIZE < 2 ^ 52 := by
      rcases hv with hv | ⟨hv, hr⟩
      · exact Or.inl hv
      · rcases Nat.eq_zero_or_pos v with h0 | h0
        · exact Or.inl h0
        · exact Or.inr (hv ▸ hb r hr (hv ▸ h0))
    obtain ⟨rfl, hlt⟩ := frameAt_ok hf' hprev
    refine ⟨hrest, ?_, ?_⟩
    · intro r' hr' _
      rw [hhead] at hr'
      cases hr'
      rwa [hoff, Nat.add_sub_cancel]
    · have hP : PAGE_SIZE = 4096 := rfl
      rw [hP] at hlt ⊢
      have hdiv : r.physStart.toNat / 4096 + v < 2 ^ 40 := by omega
      exact hdiv

end FrameIter
/-! ### The allocator -/

/-- `BootInfoFrameAllocator` with its iterator; `recycled` has the frame returned last first. -/
structure LazyFrameAllocator where
  size : ℕ
  used : ℕ
  frames : FrameIter
  recycled : List Frame
deriving DecidableEq, Repr

namespace LazyFrameAllocator

/-- `BootInfoFrameAllocator::init` with `create_frame_iter`. -/
def init (map : MemoryMap) (size : ℕ) : LazyFrameAllocator :=
  { size := size, used := 0, frames := ⟨map, 0⟩, recycled := [] }

def framesUsed (a : LazyFrameAllocator) : ℕ := a.used

def framesTotal (a : LazyFrameAllocator) : ℕ := a.size

def framesRecycledCount (a : LazyFrameAllocator) : ℕ := a.recycled.length

/-- `allocate_frame`. -/
def allocate (B : Build) (a : LazyFrameAllocator) :
    Except Panic (Option Frame × LazyFrameAllocator) :=
  match a.recycled with
  | f :: rest => .ok (some f, { a with recycled := rest })
  | [] => do
      match ← a.frames.next B with
      | some (f, it) => do
          let used ← B.add a.used 1
          return (some f, { a with used := used, frames := it })
      | none => return (none, a)

/-- `deallocate_frame`. -/
def deallocate (a : LazyFrameAllocator) (f : Frame) : LazyFrameAllocator :=
  { a with recycled := f :: a.recycled }

/-- The allocator with the list of the frames that are to come. -/
def toList (a : LazyFrameAllocator) : BootInfoFrameAllocator :=
  { size := a.size, used := a.used, frames := a.frames.rest, recycled := a.recycled }

variable {B : Build} {a b : LazyFrameAllocator} {o : Option Frame}

/-- The allocator hands out what the allocator with the list of its frames hands out. -/
theorem allocate_toList (hb : a.frames.Begun) (hused : a.used + 1 < U64)
    (h : a.allocate B = .ok (o, b)) : allocateFrame a.toList = (o, b.toList) := by
  unfold allocate at h
  split at h
  · rename_i f rest hr
    cases h
    simp only [allocateFrame, toList, hr]
  · rename_i hr
    obtain ⟨n, hn, h⟩ := bind_eq_ok.mp h
    split at h
    · rename_i f it
      rw [B.add_eq hused] at h
      cases h
      simp only [allocateFrame, toList, hr, (FrameIter.next_some hb hn).1]
    · cases h
      simp only [allocateFrame, toList, hr, FrameIter.next_none hn]

theorem deallocate_toList (a : LazyFrameAllocator) (f : Frame) :
    (a.deallocate f).toList = deallocateFrame a.toList f := rfl

end LazyFrameAllocator

/-- `memory::init`: the pages of the memory map and the usable ones are counted for the log and
for the size of the allocator. -/
def memoryInit (B : Build) (map : MemoryMap) : Except Panic LazyFrameAllocator := do
  let (memSize, usableMemSize) ← map.foldlM (fun (memSize, usable) item => do
    let memSize ← B.add memSize item.pageCount.toNat
    if item.ty = CONVENTIONAL then
      let usable ← B.add usable item.pageCount.toNat
      return (memSize, usable)
    else return (memSize, usable)) (0, 0)
  let _ ← B.mul memSize PAGE_SIZE
  let _ ← B.mul usableMemSize PAGE_SIZE
  return LazyFrameAllocator.init map usableMemSize

theorem memoryInit_ok {B : Build} {map : MemoryMap} {a : LazyFrameAllocator}
    (h : memoryInit B map = .ok a) : ∃ size, a = LazyFrameAllocator.init map size := by
  obtain ⟨n, -, h⟩ := bind_eq_ok.mp h
  obtain ⟨_, -, h⟩ := bind_eq_ok.mp h
  obtain ⟨_, -, h⟩ := bind_eq_ok.mp h
  exact ⟨n.2, (pure_eq_ok.mp h).symm⟩

/-! ### Runs of the allocator -/

inductive FrameCall where
  | allocate
  | deallocate (f : Frame)
deriving DecidableEq, Repr

/-- An allocator and the frames that it has handed out and not got back. -/
structure FramePool where
  alloc : LazyFrameAllocator
  outstanding : List Frame
deriving DecidableEq, Repr

namespace FramePool

/-- A call; the answer of `deallocate_frame` is `none`. -/
def step (B : Build) (s : FramePool) : FrameCall → Except Panic (FramePool × Option Frame)
  | .allocate => do
      let (f, alloc) ← s.alloc.allocate B
      return ({ alloc := alloc, outstanding := f.toList ++ s.outstanding }, f)
  | .deallocate f =>
      .ok ({ alloc := s.alloc.deallocate f, outstanding := s.outstanding.erase f }, none)

/-- Only frames that are handed out are returned. -/
def Returns (s : FramePool) (c : FrameCall) (_ : FramePool) : Prop :=
  ∀ f, c = .deallocate f → f ∈ s.outstanding

/-- The frames taken from the iterator: the outstanding and the recycled ones. -/
def taken (s : FramePool) : List Frame := s.outstanding ++ s.alloc.recycled

/-- Outstanding frames, recycled frames and frames to come are the frames of the memory map. -/
structure Conserved (map : MemoryMap) (s : FramePool) : Prop where
  frames : (s.taken ++ s.alloc.frames.rest).Perm map.frames
  used : s.alloc.used = s.taken.length
  bounded : ∀ f ∈ s.taken, f < 2 ^ 40
  begun : s.alloc.frames.Begun

theorem conserved_init (map : MemoryMap) (size : ℕ) :
    Conserved map ⟨LazyFrameAllocator.init map size, []⟩ where
  frames := by rw [LazyFrameAllocator.init, FrameIter.rest_zero]; rfl
  used := rfl
  bounded := nofun
  begun _ _ h := absurd h (Nat.lt_irrefl 0)

variable {B : Build} {map : MemoryMap} {s t : FramePool} {f : Frame}

theorem Conserved.nodup_taken (h : s.Conserved map) (hmap : map.Valid) : s.taken.Nodup :=
  (List.nodup_append.mp (h.frames.nodup_iff.mpr hmap.nodup_frames)).1

theorem Conserved.used_lt (h : s.Conserved map) (hmap : map.Valid) : s.alloc.used + 1 < U64 := by
  have hsub : s.taken ⊆ List.range (2 ^ 40) := fun f hf => List.mem_range.mpr (h.bounded f hf)
  have hlen := ((h.nodup_taken hmap).subperm hsub).length_le
  rw [List.length_range] at hlen
  rw [h.used, show U64 = 2 ^ 64 from rfl]
  omega

/-- What a call of `allocate_frame` does: it takes a recycled frame or the next one. -/
theorem allocate_cases {o : Option Frame} (hmap : map.Valid) (h : s.Conserved map)
    (hst : s.step B .allocate = .ok (t, o)) :
    (∃ f rest, o = some f ∧ s.alloc.recycled = f :: rest ∧
      t = ⟨{ s.alloc with recycled := rest }, f :: s.outstanding⟩) ∨
    (∃ f it, o = some f ∧ s.alloc.recycled = [] ∧ s.alloc.frames.next B = .ok (some (f, it)) ∧
      t = ⟨{ s.alloc with used := s.alloc.used + 1, frames := it }, f :: s.outstanding⟩) ∨
    (o = none ∧ s.alloc.recycled = [] ∧ s.alloc.frames.next B = .ok none ∧ t = s) := by
  simp only [step, LazyFrameAllocator.allocate] at hst
  obtain ⟨⟨f, a⟩, ha, hst⟩ := bind_eq_ok.mp hst
  cases pure_eq_ok.mp hst
  split at ha
  · rename_i g rest hr
    cases ha
    exact Or.inl ⟨g, rest, rfl, hr, rfl⟩
  · rename_i hr
    obtain ⟨n, hn, ha⟩ := bind_eq_ok.mp ha
    split at ha
    · rename_i g it
      rw [B.add_eq (h.used_lt hmap)] at ha
      cases ha
      exact Or.inr (Or.inl ⟨g, it, rfl, hr, hn, rfl⟩)
    · cases ha
      exact Or.inr (Or.inr ⟨rfl, hr, hn, rfl⟩)

theorem Conserved.allocate {o : Option Frame} (hmap : map.Valid) (h : s.Conserved map)
    (hst : s.step B .allocate = .ok (t, o)) : t.Conserved map := by
  obtain ⟨f, rest, -, hr, rfl⟩ | ⟨f, it, -, hr, hn, rfl⟩ | ⟨-, -, -, rfl⟩ :=
    allocate_cases hmap h hst
  · have hperm : (f :: s.outstanding ++ rest).Perm s.taken := by
      rw [taken, hr]
      exact List.perm_middle.symm
    exact ⟨(hperm.append_right _).trans h.frames, h.used.trans hperm.length_eq.symm,
      fun g hg => h.bounded g (hperm.mem_iff.mp hg), h.begun⟩
  · obtain ⟨hrest, hbegun, hlt⟩ := FrameIter.next_some h.begun hn
    have htaken : s.taken = s.outstanding := by rw [taken, hr, List.append_nil]
    have htaken' : taken ⟨{ s.alloc with used := s.alloc.used + 1, frames := it },
        f :: s.outstanding⟩ = f :: s.taken := by
      rw [taken, hr, List.append_nil, htaken]
    refine ⟨?_, ?_, ?_, hbegun⟩
    · have hframes := h.frames
      rw [hrest] at hframes
      rw [htaken']
      exact List.perm_middle.symm.trans hframes
    · rw [htaken', List.length_cons, ← h.used]
    · rw [htaken']
      exact List.forall_mem_cons.mpr ⟨hlt, h.bounded⟩
  · exact h

theorem Conserved.deallocate (h : s.Conserved map) (hf : f ∈ s.outstanding) :
    Conserved map ⟨s.alloc.deallocate f, s.outstanding.erase f⟩ := by
  have hperm : (s.outstanding.erase f ++ f :: s.alloc.recycled).Perm s.taken :=
    List.perm_middle.trans ((List.perm_cons_erase hf).symm.append_right _)
  exact ⟨(hperm.append_right _).trans h.frames, h.used.trans hperm.length_eq.symm,
    fun g hg => h.bounded g (hperm.mem_iff.mp hg), h.begun⟩

theorem conserved_of_run {size : ℕ} (hmap : map.Valid)
    (h : Run (step B) Returns ⟨LazyFrameAllocator.init map size, []⟩ s) : s.Conserved map := by
  refine h.invariant (conserved_init map size) fun s c t o hs hst hC => ?_
  rcases c with _ | f
  · exact hs.allocate hmap hst
  · cases hst
    exact hs.deallocate (hC f rfl)

end FramePool

open FramePool in
/-- **Frames are conserved.**  Let the conventional regions of the memory map be page-aligned and
disjoint.  On every run on which only frames that are handed out are returned, the outstanding,
the recycled and the coming frames are the frames of the conventional regions, each exactly once;
the counters tell how many are outstanding; and `allocate_frame` returns `None` only when all of
them are. -/
theorem frames_conserved {B : Build} {map : MemoryMap} {size : ℕ} {s : FramePool}
    (hmap : map.Valid)
    (h : Run (FramePool.step B) Returns ⟨LazyFrameAllocator.init map size, []⟩ s) :
    (s.outstanding ++ s.alloc.recycled ++ s.alloc.frames.rest).Nodup ∧
    (∀ f, f ∈ s.outstanding ++ s.alloc.recycled ++ s.alloc.frames.rest ↔
      ∃ r ∈ map, r.ty = CONVENTIONAL ∧ r.physStart.toNat / PAGE_SIZE ≤ f ∧
        f < r.physStart.toNat / PAGE_SIZE + r.pageCount.toNat) ∧
    s.alloc.framesRecycledCount ≤ s.alloc.framesUsed ∧
    s.alloc.framesUsed - s.alloc.framesRecycledCount = s.outstanding.length ∧
    ∀ t, s.step B .allocate = .ok (t, none) → s.outstanding.Perm map.frames := by
  have hs := conserved_of_run hmap h
  have hused := hs.used
  rw [taken, List.length_append] at hused
  refine ⟨hs.frames.nodup_iff.mpr hmap.nodup_frames, ?_, ?_, ?_, ?_⟩
  · intro f
    have hmem := hs.frames.mem_iff (a := f)
    rw [taken, MemoryMap.frames, List.mem_flatMap] at hmem
    simp only [hmem, MemoryDescriptor.mem_framesFrom_zero]
  · rw [LazyFrameAllocator.framesUsed, LazyFrameAllocator.framesRecycledCount]
    omega
  · rw [LazyFrameAllocator.framesUsed, LazyFrameAllocator.framesRecycledCount]
    omega
  · intro t ht
    obtain ⟨_, _, ho, -⟩ | ⟨_, _, ho, -⟩ | ⟨-, hr, hn, -⟩ := allocate_cases hmap hs ht
    · cases ho
    · cases ho
    · have hframes := hs.frames
      rwa [FrameIter.next_none hn, taken, hr, List.append_nil, List.append_nil] at hframes

/-- A memory map with one conventional region of two frames, of which one is handed out. -/
theorem frames_conserved_example :
    (⟨⟨2, 1, ⟨[⟨CONVENTIONAL, 4096, 2⟩], 1⟩, []⟩, [1]⟩ : FramePool).alloc.framesUsed -
      (⟨⟨2, 1, ⟨[⟨CONVENTIONAL, 4096, 2⟩], 1⟩, []⟩, [1]⟩ : FramePool).alloc.framesRecycledCount =
      1 := by
  have hmap : MemoryMap.Valid [⟨CONVENTIONAL, 4096, 2⟩] :=
    ⟨by simp [PAGE_SIZE], List.pairwise_singleton _ _⟩
  have hrun : Run (FramePool.step .release) FramePool.Returns
      ⟨LazyFrameAllocator.init [⟨CONVENTIONAL, 4096, 2⟩] 2, []⟩
      ⟨⟨2, 1, ⟨[⟨CONVENTIONAL, 4096, 2⟩], 1⟩, []⟩, [1]⟩ :=
    Relation.ReflTransGen.single ⟨.allocate, some 1, by decide, by rintro - ⟨⟩⟩
  exact (frames_conserved hmap hrun).2.2.2.1

end Ysos
