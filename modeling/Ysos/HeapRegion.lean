import Ysos.Tables

/-! # The region of the heap

The heap's region has `HEAP_PAGES` pages from `HEAP_START` on.  `brk` accepts the address behind the
region as an end, and the page of an end is a page of the heap.

* `staysInRegion_iff`: when one call maps pages of the region only.
* `heap_stays_iff`: the same for any sequence of calls.
* `heap_leaves_region`: a heap of `HEAP_PAGES + 1` pages. -/

namespace Ysos

open PartialMap

variable {α : Type} [FrameAllocator α]

namespace Heap

/-- The pages of the region. -/
def region : Set ℕ := Set.Ico (pageOf HEAP_START) (pageOf HEAP_START + HEAP_PAGES)

/-- The address behind the region. -/
def limit : ℕ := HEAP_START + HEAP_SIZE

theorem endPage_limit : endPage limit = pageOf HEAP_START + HEAP_PAGES + 1 := by decide

/-- Only the end behind the region has a page behind it. -/
theorem endPage_le {e : ℕ} (he : InHeap e) (hne : e ≠ limit) :
    endPage e ≤ pageOf HEAP_START + HEAP_PAGES := by
  obtain ⟨h1, h2⟩ := he
  have hlt : e < HEAP_START + HEAP_SIZE := lt_of_le_of_ne h2 hne
  unfold endPage
  split_ifs <;> simp only [pageOf, HEAP_START, HEAP_SIZE, HEAP_PAGES, PAGE_SIZE] at * <;> omega

theorem endPage_lt_limit {e : ℕ} (he : InHeap e) (hne : e ≠ limit) : endPage e < endPage limit := by
  have := endPage_le he hne
  rw [endPage_limit]
  omega

theorem mem_region {cur e p : ℕ} (hcur : InHeap cur) (he : InHeap e) (hne : e ≠ limit)
    (hp : p ∈ (PageRange.mk (endPage cur) (endPage e)).pages) : p ∈ region := by
  rw [PageRange.mem_pages] at hp
  exact ⟨(le_endPage hcur).trans hp.1, lt_of_lt_of_le hp.2 (endPage_le he hne)⟩

theorem inHeap_brk {newEnd : Option ℕ} {v : Vm α} (hin : InHeap v.space.heapEnd) :
    InHeap (brk newEnd v).2.space.heapEnd := by
  generalize hb : brk newEnd v = out
  have hout : Outcome v newEnd out := hb ▸ brk_outcome newEnd v
  cases hout with
  | query => exact hin
  | outOfRange => exact hin
  | stay he => exact he
  | map he => exact he
  | mapFails => exact hin
  | unmap he => exact he
  | unmapFails => exact hin

end Heap

namespace Tabled

open Heap (InHeap endPage region limit)

/-- Each page that the call maps is in the region. -/
def StaysInRegion (newEnd : Option ℕ) (v : Vm (Tabled α)) : Prop :=
  ∀ p, v.space.table p = none → (brk newEnd v).2.space.table p ≠ none → p ∈ region

/-- The call moves the end to the address behind the region, and all pages up to the one of this address
can be mapped: they are free, and there are frames for them and for their missing tables. -/
def ReachesLimit (newEnd : Option ℕ) (v : Vm (Tabled α)) : Prop :=
  newEnd = some limit ∧ v.space.heapEnd ≠ limit ∧
    (∀ p ∈ (PageRange.mk (endPage v.space.heapEnd) (endPage limit)).pages, v.space.table p = none) ∧
    Grants (need (PageRange.mk (endPage v.space.heapEnd) (endPage limit)).pages v.alloc.lower)
      v.alloc.frames

theorem lt_last_of_error {flags : PageTableFlags} {a b p : ℕ} {m m' : Mem (Tabled α)} {er : MapToError}
    (h : mapEach flags (PageRange.mk a b).pages m = (.error er, m')) (h0 : m.table p = none)
    (h1 : m'.table p ≠ none) : a ≤ p ∧ p + 1 < b := by
  obtain ⟨qs, q, rest, hps, hg⟩ := mapEach_error h
  have hp : p ∈ qs := by
    by_contra hp
    exact h1 ((hg.same p hp).trans h0)
  have hsorted : (qs ++ q :: rest).Pairwise (· < ·) := hps ▸ List.pairwise_lt_range'
  have hlt : p < q := (List.pairwise_append.mp hsorted).2.2 p hp q List.mem_cons_self
  have hmem : ∀ {k}, k ∈ qs ++ q :: rest → a ≤ k ∧ k < b :=
    fun hk => PageRange.mem_pages.mp (hps ▸ hk)
  have hpa := (hmem (List.mem_append_left _ hp)).1
  have hqb := (hmem (List.mem_append_right _ List.mem_cons_self)).2
  exact ⟨hpa, lt_of_le_of_lt hlt hqb⟩

/-- If the end does not reach the address behind the region, the call maps pages of the region only. -/
theorem staysInRegion_of_not {newEnd : Option ℕ} {v : Vm (Tabled α)} (hin : InHeap v.space.heapEnd)
    (h : ¬ ReachesLimit newEnd v) : StaysInRegion newEnd v := by
  intro p h0 h1
  by_cases hgrow : ∃ e ∈ newEnd, InHeap e ∧ endPage v.space.heapEnd < endPage e
  · obtain ⟨e, he, hine, hlt⟩ := hgrow
    obtain rfl : newEnd = some e := he
    rw [brk_grow hine hlt] at h1
    rcases hm : mapEach (stackFlags true)
      (PageRange.mk (endPage v.space.heapEnd) (endPage e)).pages v.mem with ⟨er | _, m⟩
    · rw [hm] at h1
      obtain ⟨hlo, hhi⟩ := lt_last_of_error hm h0 h1
      have hend : endPage e ≤ endPage limit := by
        rcases eq_or_ne e limit with rfl | hne
        · exact le_rfl
        · exact (Heap.endPage_lt_limit hine hne).le
      rw [Heap.endPage_limit] at hend
      have hstart := Heap.le_endPage hin
      exact ⟨hstart.trans hlo, by omega⟩
    · rw [hm] at h1
      have hp : p ∈ (PageRange.mk (endPage v.space.heapEnd) (endPage e)).pages := by
        by_contra hp
        exact h1 (((mapEach_ok hm).same p hp).trans h0)
      refine Heap.mem_region hin hine (fun hlimit => h ?_) hp
      subst hlimit
      obtain ⟨hfree, hgrants⟩ := (mapEach_ok_iff (PageRange.nodup_pages _)).mp ⟨m, hm⟩
      exact ⟨rfl, fun heq => absurd hlt (heq ▸ lt_irrefl _), hfree, hgrants⟩
  · exact absurd h0 (brk_mapped (fun e he hine hlt => hgrow ⟨e, he, hine, hlt⟩) h1)

/-- The page of the address behind the region gets mapped. -/
theorem not_staysInRegion {newEnd : Option ℕ} {v : Vm (Tabled α)} (hin : InHeap v.space.heapEnd)
    (h : ReachesLimit newEnd v) : ¬ StaysInRegion newEnd v := by
  obtain ⟨rfl, hne, hfree, hgrants⟩ := h
  have hlt := Heap.endPage_lt_limit hin hne
  have hinlimit : InHeap limit := ⟨Nat.le_add_right _ _, le_rfl⟩
  have hlast : endPage limit - 1 ∈ (PageRange.mk (endPage v.space.heapEnd) (endPage limit)).pages :=
    PageRange.mem_pages.mpr ⟨Nat.le_sub_one_of_lt hlt, Nat.sub_one_lt_of_lt hlt⟩
  obtain ⟨m, hm⟩ : ∃ m, mapEach (stackFlags true)
      (PageRange.mk (endPage v.space.heapEnd) (endPage limit)).pages v.mem = (.ok (), m) :=
    (mapEach_ok_iff (PageRange.nodup_pages _)).mpr ⟨hfree, hgrants⟩
  intro hstay
  have hmem := hstay _ (hfree _ hlast) (by
    rw [brk_grow hinlimit hlt, hm]
    exact (mapEach_ok hm).bound _ hlast)
  have hend := Heap.endPage_limit
  have := hmem.2
  omega

theorem staysInRegion_iff {newEnd : Option ℕ} {v : Vm (Tabled α)} (hin : InHeap v.space.heapEnd) :
    StaysInRegion newEnd v ↔ ¬ ReachesLimit newEnd v :=
  ⟨fun hstay h => not_staysInRegion hin h hstay, staysInRegion_of_not hin⟩

theorem inHeap_brk {newEnd : Option ℕ} {v : Vm (Tabled α)} (hin : InHeap v.space.heapEnd) :
    InHeap (brk newEnd v).2.space.heapEnd := by
  by_cases hgrow : ∃ e ∈ newEnd, InHeap e ∧ endPage v.space.heapEnd < endPage e
  · obtain ⟨e, he, hine, hlt⟩ := hgrow
    obtain rfl : newEnd = some e := he
    rw [brk_grow hine hlt]
    rcases mapEach (stackFlags true)
      (PageRange.mk (endPage v.space.heapEnd) (endPage e)).pages v.mem with ⟨er | _, m⟩
    · exact hin
    · exact hine
  · rw [brk_of_not_grow fun e he hine hlt => hgrow ⟨e, he, hine, hlt⟩]
    exact Heap.inHeap_brk hin

/-- `P` holds of each call of a sequence, the first of which finds the heap at the end `e`.  The page table
and the allocator of a call are those that it brings along. -/
def Always (P : Option ℕ → Vm (Tabled α) → Prop) : ℕ → List (Option ℕ × Vm (Tabled α)) → Prop
  | _, [] => True
  | e, (newEnd, v) :: calls =>
      P newEnd (v.setHeapEnd e) ∧ Always P (brk newEnd (v.setHeapEnd e)).2.space.heapEnd calls

/-- What is the same for calls in the heap is the same for sequences of them. -/
theorem always_congr {P Q : Option ℕ → Vm (Tabled α) → Prop}
    (h : ∀ newEnd v, InHeap v.space.heapEnd → (P newEnd v ↔ Q newEnd v)) :
    ∀ {e : ℕ} {calls : List (Option ℕ × Vm (Tabled α))}, InHeap e → (Always P e calls ↔ Always Q e calls)
  | _, [], _ => Iff.rfl
  | _, (newEnd, v) :: _, he => and_congr (h newEnd (v.setHeapEnd _) he) (always_congr h (inHeap_brk he))

end Tabled

open Tabled

/-- **When the heap stays in its region.**  For any sequence of calls of `brk` on an empty heap, each with
any argument, page table and allocator, the pages that the calls map are pages of the region if and only if
no call moves the end to the address behind the region while all pages up to its page are free and there are
frames for all of them and for the tables that they miss. -/
theorem heap_stays_iff (calls : List (Option ℕ × Vm (Tabled α))) :
    Always StaysInRegion HEAP_START calls ↔
      Always (fun newEnd v => ¬ ReachesLimit newEnd v) HEAP_START calls :=
  always_congr (fun _ _ => staysInRegion_iff) Heap.inHeap_start

/-- An address space without mappings and without lower tables, and an allocator with `n` frames. -/
def withFrames (n : ℕ) : Vm (Tabled BootInfoFrameAllocator) :=
  { space := { table := fun _ => none, addr := 0, usingCount := 1, heapEnd := HEAP_START }
    alloc := ⟨⟨n, 0, List.range n, []⟩, fun _ => false⟩
    phys := fun _ _ => 0 }

theorem length_free_withFrames (n : ℕ) : (withFrames n).alloc.frames.free.length = n := List.length_range

theorem reachesLimit_withFrames {n : ℕ} (hn : 4 * (HEAP_PAGES + 1) ≤ n) :
    ReachesLimit (some Heap.limit) (withFrames n) := by
  have hne : HEAP_START ≠ Heap.limit := by
    unfold Heap.limit HEAP_SIZE HEAP_PAGES PAGE_SIZE
    omega
  have hlen : (PageRange.mk (Heap.endPage HEAP_START) (Heap.endPage Heap.limit)).pages.length =
      HEAP_PAGES + 1 := by
    have hstart : Heap.endPage HEAP_START = pageOf HEAP_START := if_pos rfl
    rw [PageRange.length_pages, Heap.endPage_limit, hstart, Nat.add_assoc, Nat.add_sub_cancel_left]
  refine ⟨rfl, hne, fun p _ => rfl, BootInfoFrameAllocator.grants_iff.mpr ?_⟩
  rw [length_free_withFrames]
  refine need_le.trans (le_trans ?_ hn)
  exact Nat.mul_le_mul_left 4 hlen.le

/-- With four frames for each page, the first call can map one page more than the region has. -/
theorem heap_leaves_region : ¬ ∀ calls : List (Option ℕ × Vm (Tabled BootInfoFrameAllocator)),
    Always StaysInRegion HEAP_START calls := by
  intro h
  have hstay := (h [(some Heap.limit, withFrames (4 * (HEAP_PAGES + 1)))]).1
  exact not_staysInRegion Heap.inHeap_start (reachesLimit_withFrames le_rfl) hstay

end Ysos
