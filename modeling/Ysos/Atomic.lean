import Ysos.Tables

/-! # When mapping is all or nothing

`map_range` takes the frames and maps the pages of its range one by one, and leaves what it has
done when it fails.  Here is when a failure leaves no trace.

* `mapRange_atomic`: for the kernel's allocator, if no frame is free, or all pages of the range
  are and there are frames for all of them and for their missing tables.
* `brk_atomic`: `Heap::brk` that returns `None` has mapped no page, exactly if the pages that it
  asks for are mapped all or not at all (`Tabled.Whole`).
* `probes_atomic`: the same for every failed round of the probe of `Stack::vfork`
  (`Tabled.ProbesClean`). -/

namespace Ysos

open PartialMap Runs

namespace Tabled

/-! ### Ranges -/

section

variable {a : Tabled BootInfoFrameAllocator} {m : Mem (Tabled BootInfoFrameAllocator)}

theorem free_allocateFrame_le (a : BootInfoFrameAllocator) :
    (allocateFrame a).2.free.length ≤ a.free.length :=
  (BootInfoFrameAllocator.free_spend (n := 1) (a := a)).le.trans (Nat.sub_le _ _)

theorem free_createTables_le : ∀ (ts : List TableId) (a : Tabled BootInfoFrameAllocator),
    (createTables ts a).2.frames.free.length ≤ a.frames.free.length
  | [], _ => le_rfl
  | t :: ts, a => by
      unfold createTables
      split_ifs
      · exact free_createTables_le ts a
      · have hle := free_allocateFrame_le a.frames
        rcases ha : allocateFrame a.frames with ⟨_ | f, frames⟩
        · rw [ha] at hle
          exact hle
        · rw [ha] at hle
          exact (free_createTables_le ts _).trans hle

theorem free_allocatePage_lt (p : ℕ) (h : a.frames.free ≠ []) :
    (a.allocatePage p).2.frames.free.length < a.frames.free.length := by
  have hone : (allocateFrame a).2.frames.free.length = a.frames.free.length - 1 :=
    BootInfoFrameAllocator.free_spend (n := 1)
  have hpos : 0 < a.frames.free.length := List.length_pos_iff.mpr h
  have hlt : (allocateFrame a).2.frames.free.length < a.frames.free.length :=
    lt_of_eq_of_lt hone (Nat.sub_one_lt_of_lt hpos)
  unfold allocatePage
  rcases ha : allocateFrame a with ⟨_ | f, b⟩
  · rw [ha] at hlt
    exact hlt
  · rw [ha] at hlt
    have hle := (free_createTables_le (path p) b).trans_lt hlt
    rcases hc : createTables (path p) b with ⟨_ | _, c⟩
    · rw [hc] at hle
      simpa only [hc] using hle
    · rw [hc] at hle
      simpa only [hc] using hle

theorem mapEach_of_free_nil {flags : PageTableFlags} {ps : List ℕ} (h : m.alloc.frames.free = []) :
    (mapEach flags ps m).2 = m := by
  rcases ps with _ | ⟨p, ps⟩
  · rfl
  · have hnone : allocateFrame m.alloc = (none, m.alloc) := by
      rcases ha : allocateFrame m.alloc.frames with ⟨_ | f, frames⟩
      · obtain ⟨-, hsame⟩ := BootInfoFrameAllocator.free_of_none ha
        rw [allocateFrame_eq, ha, hsame]
      · rw [BootInfoFrameAllocator.free_of_some ha] at h
        cases h
    rw [mapEach, hnone]

/-- A failure of `map_range` changes neither the page table nor the free frames if and only if no
frame is free, or all pages of the range are and the free frames suffice for them and for their
missing tables. -/
theorem mapRange_atomic {r : PageRangeInclusive} {user : Bool} :
    (∀ e m', mapRange r user m = (.error e, m') → m'.table = m.table ∧
      m'.alloc.lower = m.alloc.lower ∧ m'.alloc.frames.free.Perm m.alloc.frames.free) ↔
    m.alloc.frames.free = [] ∨ (∀ p ∈ r.pages, m.table p = none) ∧
      need r.pages m.alloc.lower ≤ m.alloc.frames.free.length := by
  constructor
  · intro h
    rcases hm : mapRange r user m with ⟨e | _, m'⟩
    · obtain ⟨htable, -, hfree⟩ := h e m' hm
      obtain ⟨hne, -, rfl⟩ := blocked_of_error hm fun p hp => htable ▸ hp
      by_contra hno
      obtain ⟨p, ps, hps⟩ := List.exists_cons_of_ne_nil hne
      have hlt := free_allocatePage_lt p fun hnil => hno (Or.inl hnil)
      have hlen := hfree.length_eq
      rw [blockedAt, hps] at hlen
      exact absurd hlen hlt.ne
    · obtain ⟨hp, hg⟩ := (mapEach_ok_iff r.nodup_pages).mp ⟨m', hm⟩
      exact Or.inr ⟨hp, BootInfoFrameAllocator.grants_iff.mp hg⟩
  · rintro (hnone | ⟨hp, hlen⟩) e m' hm
    · have hm' : (mapRange r user m).2 = m := mapEach_of_free_nil hnone
      rw [hm] at hm'
      subst hm'
      exact ⟨rfl, rfl, List.Perm.refl _⟩
    · obtain ⟨m₁, h₁⟩ : ∃ m₁, mapRange r user m = (.ok (), m₁) :=
        (mapEach_ok_iff r.nodup_pages).mpr ⟨hp, BootInfoFrameAllocator.grants_iff.mpr hlen⟩
      cases h₁.symm.trans hm

end

variable {α : Type} [FrameAllocator α]

/-! ### The heap -/

/-- If `brk` has pages to map, mapping them does not stop halfway. -/
def Whole (newEnd : Option ℕ) (v : Vm (Tabled α)) : Prop :=
  ∀ e ∈ newEnd, Heap.InHeap e → Heap.endPage v.space.heapEnd < Heap.endPage e →
    MapsWhole (PageRange.mk (Heap.endPage v.space.heapEnd) (Heap.endPage e)).pages v.mem

/-- `brk` that returns `None` has mapped no page if and only if mapping the pages of the request
does not stop halfway. -/
theorem brk_atomic {newEnd : Option ℕ} {v : Vm (Tabled α)} :
    ((brk newEnd v).1 = none → ∀ p, (brk newEnd v).2.space.table p ≠ none →
      v.space.table p ≠ none) ↔ Whole newEnd v := by
  by_cases hgrow : ∃ e ∈ newEnd, Heap.InHeap e ∧ Heap.endPage v.space.heapEnd < Heap.endPage e
  · obtain ⟨e, he, hin, hlt⟩ := hgrow
    obtain rfl : newEnd = some e := he
    have hwhole : Whole (some e) v ↔
        MapsWhole (PageRange.mk (Heap.endPage v.space.heapEnd) (Heap.endPage e)).pages v.mem := by
      constructor
      · exact fun h => h e rfl hin hlt
      · rintro h e' he' - -
        exact Option.some.inj he' ▸ h
    rw [hwhole, ← mapEach_clean_iff (stackFlags true) (PageRange.nodup_pages _), brk_grow hin hlt]
    rcases mapEach (stackFlags true)
      (PageRange.mk (Heap.endPage v.space.heapEnd) (Heap.endPage e)).pages v.mem with ⟨er | _, m⟩
    · constructor
      · rintro h e' m' hm p
        cases hm
        exact h rfl p
      · exact fun h _ => h er m rfl
    · exact iff_of_true nofun nofun
  · have hstay : ∀ e ∈ newEnd, Heap.InHeap e → ¬ Heap.endPage v.space.heapEnd < Heap.endPage e :=
      fun e he hin hlt => hgrow ⟨e, he, hin, hlt⟩
    refine iff_of_true (fun _ p hp => brk_mapped hstay hp) fun e he hin hlt => ?_
    exact absurd hlt (hstay e he hin)

/-! ### The probe for the stack of a child -/

variable (B : Build)

/-- The pages that `map_pages` asks `map_range` for. -/
def mapBounds (addr pages : ℕ) : Except Panic PageRangeInclusive := do
  B.debugAssert (decide (0 < pages))
  let rangeStart := pageOf (← virtAddrNew addr)
  let rangeEnd ← B.pageAdd rangeStart pages
  let last ← B.pageSub rangeEnd 1
  return ⟨rangeStart, last⟩

/-- The probe that starts at `base` with memory `m` has a failed round at the address `b`, which
takes the memory from `m₁` to `m₂`. -/
inductive FailedProbe (usage : ℕ) : ℕ → Mem (Tabled α) → ℕ → Mem (Tabled α) → Mem (Tabled α) → Prop where
  | here {base : ℕ} {m m' : Mem (Tabled α)} {e : MapToError}
      (h : mapPages B base usage true m = .ok (.error e, m')) :
      FailedProbe usage base m base m m'
  | later {base base' b : ℕ} {m m' m₁ m₂ : Mem (Tabled α)} {e : MapToError}
      (h : mapPages B base usage true m = .ok (.error e, m'))
      (hbase : B.sub base STACK_MAX_SIZE = .ok base')
      (hrest : FailedProbe usage base' m' b m₁ m₂) : FailedProbe usage base m b m₁ m₂

/-- In the first `n` rounds no failure comes after a page was mapped.  A round is followed by
another one if it is blocked. -/
def ProbesClean (usage : ℕ) : ℕ → ℕ → Mem (Tabled α) → Prop
  | 0, _, _ => True
  | n + 1, base, m =>
      ∀ range, mapBounds B base usage = .ok range →
        MapsWhole range.pages m ∧
          (Blocked range.pages m → ∀ base', B.sub base STACK_MAX_SIZE = .ok base' →
            ProbesClean usage n base' (blockedAt range.pages m))

variable {B} {usage base b : ℕ} {m m' m₁ m₂ : Mem (Tabled α)}

theorem mapPages_eq_error {addr pages : ℕ} {user : Bool} {e : MapToError} :
    mapPages B addr pages user m = .ok (.error e, m') ↔
      ∃ range, mapBounds B addr pages = .ok range ∧ mapRange range user m = (.error e, m') := by
  simp only [mapPages, mapBounds, bind_eq_ok, pure_eq_ok]
  constructor
  · rintro ⟨_, hd, a, ha, stop, hstop, last, hlast, h⟩
    refine ⟨_, ⟨_, hd, a, ha, stop, hstop, last, hlast, rfl⟩, ?_⟩
    split at h <;> cases h
    assumption
  · rintro ⟨_, ⟨_, hd, a, ha, stop, hstop, last, hlast, rfl⟩, h⟩
    refine ⟨_, hd, a, ha, stop, hstop, last, hlast, ?_⟩
    rw [h]
    rfl

theorem ProbesClean.failedProbe (h : FailedProbe B usage base m b m₁ m₂) :
    (∀ n, ProbesClean B usage n base m) → ∀ p, m₂.table p ≠ none → m₁.table p ≠ none := by
  induction h with
  | here h =>
      intro hc
      obtain ⟨range, hrange, hm⟩ := mapPages_eq_error.mp h
      exact (mapEach_clean_iff _ range.nodup_pages).mpr (hc 1 range hrange).1 _ _ hm
  | @later base base' b m m' m₁ m₂ e h hbase hrest ih =>
      intro hc
      obtain ⟨range, hrange, hm⟩ := mapPages_eq_error.mp h
      have hclean := (mapEach_clean_iff _ range.nodup_pages).mpr (hc 1 range hrange).1 _ _ hm
      obtain ⟨-, hblocked, rfl⟩ := blocked_of_error hm hclean
      exact ih fun n => (hc (n + 1) range hrange).2 hblocked base' hbase

theorem probesClean_of_failedProbe : ∀ (n : ℕ) {base : ℕ} {m : Mem (Tabled α)},
    (∀ b m₁ m₂, FailedProbe B usage base m b m₁ m₂ →
      ∀ p, m₂.table p ≠ none → m₁.table p ≠ none) → ProbesClean B usage n base m
  | 0, _, _, _ => trivial
  | n + 1, base, m, h => by
      intro range hrange
      refine ⟨?_, fun hblocked base' hbase => probesClean_of_failedProbe n ?_⟩
      · exact (mapEach_clean_iff _ range.nodup_pages).mp fun e m' hm =>
          h base m m' (.here (mapPages_eq_error.mpr ⟨range, hrange, hm⟩))
      · obtain ⟨e, he⟩ := mapEach_blocked hblocked
        exact fun b m₁ m₂ hf =>
          h b m₁ m₂ (.later (mapPages_eq_error.mpr ⟨range, hrange, he⟩) hbase hf)

/-- No failed round of the probe of `vfork` maps a page if and only if no round fails after it
mapped one. -/
theorem probes_atomic {st : Stack} {childCount : ℕ} :
    (∀ base, st.firstBase B childCount = .ok base → ∀ b m₁ m₂,
      FailedProbe B st.usage base m b m₁ m₂ → ∀ p, m₂.table p ≠ none → m₁.table p ≠ none) ↔
    ∀ base, st.firstBase B childCount = .ok base → ∀ n, ProbesClean B st.usage n base m := by
  constructor
  · exact fun h base hbase n => probesClean_of_failedProbe n (h base hbase)
  · exact fun h base hbase b m₁ m₂ hf => ProbesClean.failedProbe hf (h base hbase)

end Tabled

/-- **When mapping is all or nothing.**  An error of `map_range` leaves the page table and the
free frames as they were, if and only if no frame is free, or all pages of the range are and the
free frames suffice for them and for the tables that they miss.  `Heap::brk` that returns `None`, and
every failed round of the probe of `Stack::vfork`, leave no page mapped that was not, if and only if
mapping does not stop after the first page. -/
theorem mapping_atomic {α : Type} [FrameAllocator α] {B : Build} :
    (∀ (r : PageRangeInclusive) (user : Bool) (m : Mem (Tabled BootInfoFrameAllocator)),
      (∀ e m', Tabled.mapRange r user m = (.error e, m') → m'.table = m.table ∧
        m'.alloc.lower = m.alloc.lower ∧ m'.alloc.frames.free.Perm m.alloc.frames.free) ↔
      m.alloc.frames.free = [] ∨ (∀ p ∈ r.pages, m.table p = none) ∧
        need r.pages m.alloc.lower ≤ m.alloc.frames.free.length) ∧
    (∀ (newEnd : Option ℕ) (v : Vm (Tabled α)),
      ((Tabled.brk newEnd v).1 = none → ∀ p, (Tabled.brk newEnd v).2.space.table p ≠ none →
        v.space.table p ≠ none) ↔ Tabled.Whole newEnd v) ∧
    ∀ (st : Stack) (childCount : ℕ) (m : Mem (Tabled α)),
      (∀ base, st.firstBase B childCount = .ok base → ∀ b m₁ m₂,
        Tabled.FailedProbe B st.usage base m b m₁ m₂ →
          ∀ p, m₂.table p ≠ none → m₁.table p ≠ none) ↔
      ∀ base, st.firstBase B childCount = .ok base →
        ∀ n, Tabled.ProbesClean B st.usage n base m :=
  ⟨fun _ _ _ => Tabled.mapRange_atomic, fun _ _ => Tabled.brk_atomic, fun _ _ _ => Tabled.probes_atomic⟩

/-- Four frames and no lower table: one page takes them all. -/
def fourFrames : Tabled BootInfoFrameAllocator := ⟨⟨4, 0, [7, 8, 9, 10], []⟩, fun _ => false⟩

/-- With four free frames and no table, mapping two pages fails and leaves the first one mapped; a
request for two pages of heap returns `None` and leaves the first one mapped behind the empty heap. -/
theorem mapping_partial :
    (∃ m', Tabled.mapRange ⟨1, 2⟩ true ⟨fun _ => none, fourFrames, fun _ _ => 0⟩ =
        (.error .frameAllocationFailed, m') ∧ m'.table 1 ≠ none ∧ m'.alloc.frames.free = []) ∧
    ∃ v, Tabled.brk (some (HEAP_START + PAGE_SIZE))
        ⟨⟨fun _ => none, 0, 1, HEAP_START⟩, fourFrames, fun _ _ => 0⟩ = (none, v) ∧
      v.space.heapEnd = HEAP_START ∧ v.space.table (pageOf HEAP_START) ≠ none := by
  refine ⟨⟨_, rfl, ?_, rfl⟩, ⟨_, rfl, rfl, ?_⟩⟩
  · decide
  · decide

end Ysos
