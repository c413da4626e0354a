import Ysos.Elf

/-! # The heap of an address space (`proc/vm/heap.rs`)

`AddressSpace` is what the processes of one family share: the page table with its top-level
frame (`PageTableContext`, an `Arc` whose count is `usingCount`) and the end of the heap (an
`Arc` made together with the page table).  A `Vm` is an address space with the frame allocator
and the frames.

`Heap.brk` moves the end of the heap and maps or unmaps the pages in between.  The end never
leaves the heap area, so its page arithmetic needs no overflow checks. -/

namespace Ysos

open PartialMap Runs

/-- What the processes of one family share. -/
structure AddressSpace where
  table : PageTable
  addr : Frame
  usingCount : ℕ
  heapEnd : ℕ

/-- An address space, the frame allocator and the contents of the frames. -/
structure Vm (α : Type) where
  space : AddressSpace
  alloc : α
  phys : Frame → ℕ → UInt8

variable {α : Type}

namespace Vm

def mem (v : Vm α) : Mem α := ⟨v.space.table, v.alloc, v.phys⟩

def setMem (v : Vm α) (m : Mem α) : Vm α :=
  { space := { v.space with table := m.table }, alloc := m.alloc, phys := m.phys }

def setHeapEnd (v : Vm α) (e : ℕ) : Vm α := { v with space := { v.space with heapEnd := e } }

@[simp] theorem mem_setMem (v : Vm α) (m : Mem α) : (v.setMem m).mem = m := rfl
@[simp] theorem mem_setHeapEnd (v : Vm α) (e : ℕ) : (v.setHeapEnd e).mem = v.mem := rfl

end Vm

variable [FrameAllocator α]

def HEAP_START : ℕ := 0x2000_0000_0000
def HEAP_PAGES : ℕ := 0x100000
def HEAP_SIZE : ℕ := HEAP_PAGES * PAGE_SIZE

namespace Heap

/-- The page behind the heap: an end at the base is an empty heap, any other end is included. -/
def endPage (e : ℕ) : ℕ := if e = HEAP_START then pageOf e else pageOf e + 1

def brk (newEnd : Option ℕ) (v : Vm α) : Option ℕ × Vm α :=
  match newEnd with
  | none => (some v.space.heapEnd, v)
  | some e =>
      if HEAP_START + HEAP_SIZE < e ∨ e < HEAP_START then (none, v)
      else
        let curEndPage := endPage v.space.heapEnd
        let newEndPage := endPage e
        if curEndPage < newEndPage then
          match mapRange ⟨curEndPage, newEndPage - 1⟩ true v.mem with
          | (.error _, m) => (none, v.setMem m)
          | (.ok (), m) => (some e, (v.setMem m).setHeapEnd e)
        else if newEndPage < curEndPage then
          match unmapRange ⟨newEndPage, curEndPage - 1⟩ v.mem with
          | (.error _, m) => (none, v.setMem m)
          | (.ok (), m) => (some e, (v.setMem m).setHeapEnd e)
        else (some e, v.setHeapEnd e)

def cleanUp (v : Vm α) : Except UnmapError Unit × Vm α :=
  -- `memory_usage`, the end minus the base, is zero
  if v.space.heapEnd = HEAP_START then (.ok (), v)
  else
    -- the end is reset before the pages are unmapped
    match unmapRange ⟨pageOf HEAP_START, pageOf v.space.heapEnd⟩ v.mem with
    | (.error e, m) => (.error e, (v.setMem m).setHeapEnd HEAP_START)
    | (.ok (), m) => (.ok (), (v.setMem m).setHeapEnd HEAP_START)

/-! ### The pages of the heap -/

/-- The pages of a heap with this end. -/
def pages (e : ℕ) : List ℕ := (PageRange.mk (pageOf HEAP_START) (endPage e)).pages

/-- Ends that `brk` accepts. -/
def InHeap (e : ℕ) : Prop := HEAP_START ≤ e ∧ e ≤ HEAP_START + HEAP_SIZE

instance (e : ℕ) : Decidable (InHeap e) :=
  inferInstanceAs (Decidable (HEAP_START ≤ e ∧ e ≤ HEAP_START + HEAP_SIZE))

/-- If `brk` has pages to map, mapping them does not stop halfway. -/
def Whole (newEnd : Option ℕ) (v : Vm α) : Prop :=
  ∀ e ∈ newEnd, InHeap e → endPage v.space.heapEnd < endPage e →
    MapsWhole (PageRange.mk (endPage v.space.heapEnd) (endPage e)).pages v.mem

instance (newEnd : Option ℕ) (v : Vm α) : Decidable (Whole newEnd v) :=
  inferInstanceAs (Decidable (∀ e ∈ newEnd, InHeap e → endPage v.space.heapEnd < endPage e →
    MapsWhole (PageRange.mk (endPage v.space.heapEnd) (endPage e)).pages v.mem))

theorem le_endPage {e : ℕ} (h : InHeap e) : pageOf HEAP_START ≤ endPage e := by
  have h1 : pageOf HEAP_START ≤ pageOf e := Nat.div_le_div_right h.1
  unfold endPage
  split_ifs <;> omega

theorem inHeap_start : InHeap HEAP_START := by
  unfold InHeap
  omega

theorem pages_start : pages HEAP_START = [] := by decide

theorem mem_pages {e p : ℕ} : p ∈ pages e ↔ pageOf HEAP_START ≤ p ∧ p < endPage e :=
  PageRange.mem_pages

theorem mem_pages_grow {e e' p : ℕ} (he : InHeap e) (hlt : endPage e ≤ endPage e') :
    p ∈ pages e' ↔ p ∈ (PageRange.mk (endPage e) (endPage e')).pages ∨ p ∈ pages e := by
  have := le_endPage he
  simp only [mem_pages, PageRange.mem_pages]
  omega

/-! ### What a call of `brk` can do -/

/-- The loop of `map_range` over the pages from `a` up to but not including `b`. -/
def mapHeap (a b : ℕ) (v : Vm α) : Except MapToError Unit × Mem α :=
  mapEach { writable := true, userAccessible := true, noExecute := false }
    (PageRange.mk a b).pages v.mem

/-- The outcomes of `brk`: what it returns and the address space afterwards. -/
inductive Outcome (v : Vm α) : Option ℕ → Option ℕ × Vm α → Prop where
  | query : Outcome v none (some v.space.heapEnd, v)
  | outOfRange {e : ℕ} (he : ¬ InHeap e) : Outcome v (some e) (none, v)
  | stay {e : ℕ} (he : InHeap e) (heq : endPage v.space.heapEnd = endPage e) :
      Outcome v (some e) (some e, v.setHeapEnd e)
  | map {e : ℕ} {m : Mem α} (he : InHeap e) (hlt : endPage v.space.heapEnd < endPage e)
      (hm : mapHeap (endPage v.space.heapEnd) (endPage e) v = (.ok (), m)) :
      Outcome v (some e) (some e, (v.setMem m).setHeapEnd e)
  | mapFails {e : ℕ} {m : Mem α} {er : MapToError} (he : InHeap e)
      (hlt : endPage v.space.heapEnd < endPage e)
      (hm : mapHeap (endPage v.space.heapEnd) (endPage e) v = (.error er, m)) :
      Outcome v (some e) (none, v.setMem m)
  | unmap {e : ℕ} {m : Mem α} (he : InHeap e) (hlt : endPage e < endPage v.space.heapEnd)
      (hm : unmapEach (PageRange.mk (endPage e) (endPage v.space.heapEnd)).pages v.mem =
        (.ok (), m)) :
      Outcome v (some e) (some e, (v.setMem m).setHeapEnd e)
  | unmapFails {e : ℕ} {m : Mem α} {er : UnmapError} (he : InHeap e)
      (hlt : endPage e < endPage v.space.heapEnd)
      (hm : unmapEach (PageRange.mk (endPage e) (endPage v.space.heapEnd)).pages v.mem =
        (.error er, m)) :
      Outcome v (some e) (none, v.setMem m)

theorem mapRange_eq {a b : ℕ} (hb : 0 < b) (v : Vm α) :
    mapRange ⟨a, b - 1⟩ true v.mem = mapHeap a b v := by
  rw [mapRange, mapHeap, PageRangeInclusive.pages_pred hb]

theorem unmapRange_eq {a b : ℕ} (hb : 0 < b) (m : Mem α) :
    unmapRange ⟨a, b - 1⟩ m = unmapEach (PageRange.mk a b).pages m := by
  rw [unmapRange, PageRangeInclusive.pages_pred hb]

theorem brk_outcome (newEnd : Option ℕ) (v : Vm α) : Outcome v newEnd (brk newEnd v) := by
  unfold brk
  split
  · exact .query
  rename_i e
  by_cases hrange : HEAP_START + HEAP_SIZE < e ∨ e < HEAP_START
  · rw [if_pos hrange]
    refine .outOfRange fun he => ?_
    rcases hrange with h | h
    · exact absurd he.2 (Nat.not_le.mpr h)
    · exact absurd he.1 (Nat.not_le.mpr h)
  rw [if_neg hrange]
  have he : InHeap e := by
    rw [not_or, not_lt, not_lt] at hrange
    exact ⟨hrange.2, hrange.1⟩
  rcases lt_trichotomy (endPage v.space.heapEnd) (endPage e) with hgrow | heq | hshrink
  · simp only [if_pos hgrow, mapRange_eq (Nat.zero_lt_of_lt hgrow)]
    split
    · rename_i er m hm
      exact .mapFails he hgrow hm
    · rename_i m hm
      exact .map he hgrow hm
  · simp only [heq, lt_irrefl, if_false]
    exact .stay he heq
  · simp only [if_neg hshrink.not_gt, if_pos hshrink, unmapRange_eq (Nat.zero_lt_of_lt hshrink)]
    split
    · rename_i er m hm
      exact .unmapFails he hshrink hm
    · rename_i m hm
      exact .unmap he hshrink hm

/-- If `brk` fails to map its pages, it has mapped none of them. -/
def FailsClean (newEnd : Option ℕ) (v : Vm α) : Prop :=
  ∀ e ∈ newEnd, InHeap e → endPage v.space.heapEnd < endPage e →
    ∀ er m, mapHeap (endPage v.space.heapEnd) (endPage e) v = (.error er, m) →
      m.table = v.space.table

theorem Whole.failsClean {newEnd : Option ℕ} {v : Vm α} (h : Whole newEnd v) :
    FailsClean newEnd v := by
  intro e he hin hlt er m hm
  rcases mapEach_whole (h e he hin hlt) (PageRange.nodup_pages _) hm with ⟨hr, -⟩ | ⟨-, -, rfl⟩
  · cases hr
  · rfl

/-! ### What the operations do to the page table -/

variable {v v' : Vm (Recorder α)} {newEnd r : Option ℕ}

/-- What the code needs to know about the outcome of `brk`: the rest of the address space is the
same, and the heap grew by `S` or lost the pages `ps`. -/
inductive Moved (v v' : Vm (Recorder α)) : Prop where
  | grew (S : Set ℕ) (adds : Adds S v.mem v'.mem)
      (pages : ∀ p, p ∈ pages v'.space.heapEnd ↔ p ∈ S ∨ p ∈ pages v.space.heapEnd)
  | shrank (ps : List ℕ) (removes : Removes ps v.mem v'.mem)
      (pages : ∀ p, p ∈ Heap.pages v.space.heapEnd ↔ p ∈ ps ∨ p ∈ Heap.pages v'.space.heapEnd)
      (apart : ∀ p ∈ ps, p ∉ Heap.pages v'.space.heapEnd)

omit [FrameAllocator α] in
theorem Moved.refl (v : Vm (Recorder α)) : Moved v v :=
  .grew ∅ ⟨PartialMap.Grown.refl _, rfl⟩ fun p => by simp

theorem mapHeap_freed {a b : ℕ} {m : Mem (Recorder α)} {x : Except MapToError Unit}
    (h : mapHeap a b v = (x, m)) : m.alloc.freed = v.alloc.freed := by
  have hfreed : (mapHeap a b v).2.alloc.freed = v.mem.alloc.freed := mapEach_freed _ _
  rw [h] at hfreed
  exact hfreed

/-- `brk` on a mapped heap moves the end of the heap with its pages, unless mapping stopped
halfway. -/
theorem Outcome.moved (hin : InHeap v.space.heapEnd)
    (hmapped : ∀ p ∈ pages v.space.heapEnd, v.space.table p ≠ none) (hf : FailsClean newEnd v)
    (h : Outcome v newEnd (r, v')) :
    Moved v v' ∧ InHeap v'.space.heapEnd ∧ v'.space.usingCount = v.space.usingCount ∧
      v'.space.addr = v.space.addr := by
  cases h with
  | query => exact ⟨Moved.refl v, hin, rfl, rfl⟩
  | outOfRange => exact ⟨Moved.refl v, hin, rfl, rfl⟩
  | @stay e he heq =>
      refine ⟨.grew ∅ ⟨PartialMap.Grown.refl _, rfl⟩ fun p => ?_, he, rfl, rfl⟩
      simp [Vm.setHeapEnd, mem_pages, heq]
  | @map e m he hlt hm =>
      exact ⟨.grew _ ⟨mapEach_ok hm, mapHeap_freed hm⟩ fun p => mem_pages_grow hin hlt.le, he,
        rfl, rfl⟩
  | @mapFails e m er he hlt hm =>
      have htable := hf e rfl he hlt er m hm
      refine ⟨.grew ∅ ⟨?_, mapHeap_freed hm⟩ fun p => by simp [Vm.setMem], hin, rfl, rfl⟩
      exact htable ▸ PartialMap.Grown.refl _
  | @unmap e m he hlt hm =>
      have hsub : ∀ p ∈ (PageRange.mk (endPage e) (endPage v.space.heapEnd)).pages,
          v.mem.table p ≠ none :=
        fun p hp => hmapped p ((mem_pages_grow he hlt.le).mpr (Or.inl hp))
      obtain ⟨-, hrem⟩ := unmapEach_removes hsub (PageRange.nodup_pages _) hm
      refine ⟨.shrank _ hrem (fun p => mem_pages_grow he hlt.le) ?_, he, rfl, rfl⟩
      intro p hp hp'
      rw [PageRange.mem_pages] at hp
      exact absurd (mem_pages.mp hp').2 (not_lt.mpr hp.1)
  | @unmapFails e m er he hlt hm =>
      have hsub : ∀ p ∈ (PageRange.mk (endPage e) (endPage v.space.heapEnd)).pages,
          v.mem.table p ≠ none :=
        fun p hp => hmapped p ((mem_pages_grow he hlt.le).mpr (Or.inl hp))
      obtain ⟨hok, -⟩ := unmapEach_removes hsub (PageRange.nodup_pages _) hm
      cases hok

theorem brk_moved (hin : InHeap v.space.heapEnd)
    (hmapped : ∀ p ∈ pages v.space.heapEnd, v.space.table p ≠ none) (hw : Whole newEnd v)
    (h : brk newEnd v = (r, v')) :
    Moved v v' ∧ InHeap v'.space.heapEnd ∧ v'.space.usingCount = v.space.usingCount ∧
      v'.space.addr = v.space.addr :=
  Outcome.moved hin hmapped hw.failsClean (h ▸ brk_outcome newEnd v)

theorem cleanUp_removes {r : Except UnmapError Unit}
    (hmapped : ∀ p ∈ pages v.space.heapEnd, v.space.table p ≠ none) (h : cleanUp v = (r, v')) :
    r = .ok () ∧ Removes (pages v.space.heapEnd) v.mem v'.mem ∧ v'.space.heapEnd = HEAP_START ∧
      v'.space.usingCount = v.space.usingCount ∧ v'.space.addr = v.space.addr := by
  unfold cleanUp at h
  split_ifs at h with he
  · cases h
    rw [he, pages_start]
    exact ⟨rfl, Removes.nil v.mem, rfl, rfl, rfl⟩
  · have hpages : (PageRangeInclusive.mk (pageOf HEAP_START) (pageOf v.space.heapEnd)).pages =
        pages v.space.heapEnd := by
      rw [PageRangeInclusive.pages_eq, pages, endPage, if_neg he]
    rw [← hpages] at hmapped ⊢
    rcases hm : unmapRange ⟨pageOf HEAP_START, pageOf v.space.heapEnd⟩ v.mem with ⟨r', m⟩
    obtain ⟨rfl, hrem⟩ := unmapRange_removes hmapped hm
    simp only [hm] at h
    cases h
    exact ⟨rfl, hrem, rfl, rfl, rfl⟩

/-! ### Runs of `brk` -/

/-- `brk` as a step of an address space. -/
def brkStep (v : Vm α) (newEnd : Option ℕ) : Except Empty (Vm α × Option ℕ) :=
  .ok ((brk newEnd v).2, (brk newEnd v).1)

/-- The calls of `map_range` and `unmap_range` that `brk` makes do not fail. -/
def RangesSucceed (v : Vm α) (newEnd : Option ℕ) (_ : Vm α) : Prop :=
  ∀ e ∈ newEnd, InHeap e →
    (endPage v.space.heapEnd < endPage e →
      (mapRange ⟨endPage v.space.heapEnd, endPage e - 1⟩ true v.mem).1 = .ok ()) ∧
    (endPage e < endPage v.space.heapEnd →
      (unmapRange ⟨endPage e, endPage v.space.heapEnd - 1⟩ v.mem).1 = .ok ())

/-- The pages of the heap area. -/
def InArea (p : ℕ) : Prop := pageOf HEAP_START ≤ p ∧ p ≤ pageOf (HEAP_START + HEAP_SIZE)

instance (p : ℕ) : Decidable (InArea p) :=
  inferInstanceAs (Decidable (pageOf HEAP_START ≤ p ∧ p ≤ pageOf (HEAP_START + HEAP_SIZE)))

/-- The mapped pages of the heap area are those of the heap. -/
structure Exact (v : Vm α) : Prop where
  inHeap : InHeap v.space.heapEnd
  mapped : ∀ p, InArea p → (v.space.table p ≠ none ↔ p ∈ pages v.space.heapEnd)

theorem RangesSucceed.failsClean {v v' : Vm α} {newEnd : Option ℕ}
    (h : RangesSucceed v newEnd v') : FailsClean newEnd v := by
  intro e he hin hlt er m hm
  have hok := (h e he hin).1 hlt
  rw [mapRange_eq (Nat.zero_lt_of_lt hlt), hm] at hok
  cases hok

theorem inArea_of_mem {e p : ℕ} (he : InHeap e) (hp : p ∈ pages e) : InArea p := by
  obtain ⟨hlo, hhi⟩ := mem_pages.mp hp
  have hle : pageOf e ≤ pageOf (HEAP_START + HEAP_SIZE) := Nat.div_le_div_right he.2
  refine ⟨hlo, ?_⟩
  unfold endPage at hhi
  split_ifs at hhi <;> omega

theorem mem_pages_iff {e p : ℕ} :
    p ∈ pages e ↔ e ≠ HEAP_START ∧ pageOf HEAP_START ≤ p ∧ p ≤ pageOf e := by
  rw [mem_pages, endPage]
  split_ifs with he
  · simp only [he, ne_eq, not_true_eq_false, false_and, iff_false]
    omega
  · simp only [ne_eq, he, not_false_eq_true, true_and]
    omega

omit [FrameAllocator α] in
theorem Exact.isMapped (h : Exact v) : ∀ p ∈ pages v.space.heapEnd, v.space.table p ≠ none :=
  fun p hp => (h.mapped p (inArea_of_mem h.inHeap hp)).mpr hp

theorem Exact.brk (h : Exact v) (hf : FailsClean newEnd v) (hb : brk newEnd v = (r, v')) :
    Exact v' := by
  obtain ⟨hm, hin, -, -⟩ := Outcome.moved h.inHeap h.isMapped hf (hb ▸ brk_outcome newEnd v)
  refine ⟨hin, fun p hp => ?_⟩
  have hmapped := h.mapped p hp
  obtain ⟨S, ha, hS⟩ | ⟨ps, hr, hps, hd⟩ := hm
  · by_cases hpS : p ∈ S
    · exact iff_of_true (ha.table.bound p hpS) ((hS p).mpr (Or.inl hpS))
    · rw [hS, or_iff_right hpS, ← hmapped]
      exact iff_of_eq (congrArg (· ≠ none) (ha.table.same p hpS))
  · by_cases hpp : p ∈ ps
    · exact iff_of_false (fun hn => hn (hr.table.fresh p hpp)) (hd p hpp)
    · rw [← or_iff_right (b := p ∈ pages v'.space.heapEnd) hpp, ← hps, ← hmapped]
      exact iff_of_eq (congrArg (· ≠ none) (hr.table.same p hpp).symm)

end Heap

open Heap in
/-- **`brk` keeps the heap map exact.**  Start with an empty heap and no mapping in the heap
area, and let no `map_range` or `unmap_range` of the calls of `brk` fail.  After every call the
mapped pages of the heap area are those from the page of the base to the page of the end, none
when the end is the base.  A further call that returns an address for a requested end has moved
the end there; a request outside of the heap area changes nothing; a page that stays mapped keeps
its entry; and the frames of the pages that are unmapped are returned once for each page.
`clean_up` unmaps every heap page and returns its frame once. -/
theorem heap_exact {v₀ v : Vm (Recorder α)} (hend : v₀.space.heapEnd = HEAP_START)
    (hfree : ∀ p, InArea p → v₀.space.table p = none) (h : Run brkStep RangesSucceed v₀ v) :
    (∀ p, InArea p → (v.space.table p ≠ none ↔
      v.space.heapEnd ≠ HEAP_START ∧ pageOf HEAP_START ≤ p ∧ p ≤ pageOf v.space.heapEnd)) ∧
    (∀ newEnd r v', RangesSucceed v newEnd v' → brk newEnd v = (r, v') →
      (∀ e a, newEnd = some e → r = some a → a = e ∧ v'.space.heapEnd = a) ∧
      (∀ e, newEnd = some e → ¬ InHeap e → r = none ∧ v' = v) ∧
      (∀ p, v.space.table p ≠ none → v'.space.table p ≠ none →
        v'.space.table p = v.space.table p) ∧
      ∃ ps : List ℕ, ps.Nodup ∧ (∀ p, p ∈ ps ↔ v.space.table p ≠ none ∧ v'.space.table p = none) ∧
        v'.alloc.freed = (ps.map v.space.table.frameOf).reverse ++ v.alloc.freed) ∧
    ∀ r v', cleanUp v = (r, v') →
      r = .ok () ∧ (∀ p, InArea p → v'.space.table p = none) ∧
      ∃ ps : List ℕ, ps.Nodup ∧ (∀ p, p ∈ ps ↔ InArea p ∧ v.space.table p ≠ none) ∧
        v'.alloc.freed = (ps.map v.space.table.frameOf).reverse ++ v.alloc.freed := by
  have hexact : Exact v := by
    refine h.invariant ⟨hend ▸ inHeap_start, fun p hp => ?_⟩ ?_
    · rw [hend, pages_start]
      exact iff_of_false (fun hn => hn (hfree p hp)) List.not_mem_nil
    · intro v newEnd v' o hv hst hC
      cases hst
      exact hv.brk hC.failsClean rfl
  refine ⟨fun p hp => (hexact.mapped p hp).trans mem_pages_iff, ?_, ?_⟩
  · intro newEnd r v' hC hb
    have hout : Outcome v newEnd (r, v') := hb ▸ brk_outcome newEnd v
    obtain ⟨hm, -, -, -⟩ := hout.moved hexact.inHeap hexact.isMapped hC.failsClean
    refine ⟨?_, ?_, ?_, ?_⟩
    · rintro e a rfl rfl
      cases hout <;> exact ⟨rfl, rfl⟩
    · rintro e rfl he
      cases hout with
      | outOfRange => exact ⟨rfl, rfl⟩
      | stay hin => exact absurd hin he
      | map hin => exact absurd hin he
      | mapFails hin => exact absurd hin he
      | unmap hin => exact absurd hin he
      | unmapFails hin => exact absurd hin he
    · intro p hp hp'
      obtain ⟨S, ha, -⟩ | ⟨ps, hr, -, -⟩ := hm
      · exact ha.table.same p fun hS => hp (ha.table.fresh p hS)
      · exact (hr.table.same p fun hS => hp' (hr.table.fresh p hS)).symm
    · obtain ⟨S, ha, -⟩ | ⟨ps, hr, -, -⟩ := hm
      · refine ⟨[], List.nodup_nil, fun p => ?_, ha.freed⟩
        refine iff_of_false List.not_mem_nil fun hp => hp.1 ?_
        rcases hs : v.space.table p with _ | e
        · rfl
        · exact absurd (ha.table.keeps hs) (by rw [show v'.mem.table p = none from hp.2]; simp)
      · refine ⟨ps, hr.nodup, fun p => ?_, hr.freed⟩
        exact hr.table.mem_iff.trans and_comm
  · intro r v' hc
    obtain ⟨rfl, hr, -, -, -⟩ := cleanUp_removes hexact.isMapped hc
    refine ⟨rfl, fun p hp => ?_, _, hr.nodup, fun p => ?_, hr.freed⟩
    · by_cases hmem : p ∈ pages v.space.heapEnd
      · exact hr.table.fresh p hmem
      · have hnone := not_not.mp (mt (hexact.mapped p hp).mp hmem)
        have hsame := hr.table.same p hmem
        exact hsame.symm.trans hnone
    · constructor
      · exact fun hp => ⟨inArea_of_mem hexact.inHeap hp, hexact.isMapped p hp⟩
      · exact fun hp => (hexact.mapped p hp.1).mp hp.2

/-- An address space without mappings and an allocator with one frame. -/
def oneFrame : Vm (Recorder BootInfoFrameAllocator) :=
  { space := { table := fun _ => none, addr := 0, usingCount := 1, heapEnd := HEAP_START }
    alloc := ⟨⟨1, 0, [7], []⟩, []⟩
    phys := fun _ _ => 0 }

open Heap in
/-- One byte of heap is one page. -/
theorem heap_exact_oneFrame :
    (brk (some (HEAP_START + 1)) oneFrame).2.space.table (pageOf HEAP_START) ≠ none := by
  have hC : RangesSucceed oneFrame (some (HEAP_START + 1))
      (brk (some (HEAP_START + 1)) oneFrame).2 := by
    intro e he _
    cases he
    exact ⟨fun _ => by rfl, fun h => absurd h (by decide)⟩
  have hrun : Run brkStep RangesSucceed oneFrame (brk (some (HEAP_START + 1)) oneFrame).2 :=
    Relation.ReflTransGen.single ⟨some (HEAP_START + 1), _, rfl, hC⟩
  apply ((heap_exact rfl (fun _ _ => rfl) hrun).1 (pageOf HEAP_START) (by decide)).mpr
  decide

end Ysos
