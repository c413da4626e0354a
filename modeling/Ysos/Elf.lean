import Ysos.Memory

/-! # Mapping, unmapping and loading (package `elf`)

`mapRange`, `unmapRange`, `mapPages` and `unmapPages` are the functions of these names in
`elf/src/lib.rs`, with the loop over the pages of a range as a recursion (`mapEach`,
`unmapEach`); `loadSegment` and `loadElf` load a program into new frames.  A function that can
fail returns its error together with the memory at that moment: what was done before the error
is not undone.

The results about them say which pages they add or remove (`PartialMap.Grown`):

* `mapEach_ok`, `mapEach_error`: on success all the pages, on an error the pages before the one
  that failed.
* `unmapEach_of_mapped`: unmapping distinct mapped pages succeeds and returns their frames to
  the allocator, each once, in order.
* `loadElf_layered`: a program whose segments occupy distinct unmapped pages adds exactly the
  pages of the ranges it returns. -/

namespace Ysos

open PartialMap Runs

variable {α : Type} [FrameAllocator α] (B : Build)

/-! ### Ranges of pages -/

/-- The loop of `map_range`. -/
def mapEach (flags : PageTableFlags) : List ℕ → Mem α → Except MapToError Unit × Mem α
  | [], m => (.ok (), m)
  | p :: ps, m =>
      match allocateFrame m.alloc with
      | (none, a) => (.error .frameAllocationFailed, { m with alloc := a })
      | (some f, a) =>
          match ({ m with alloc := a } : Mem α).mapTo p f flags with
          | .error e => (.error e, { m with alloc := a })
          | .ok m' => mapEach flags ps m'

def mapRange (r : PageRangeInclusive) (user : Bool) (m : Mem α) :
    Except MapToError Unit × Mem α :=
  mapEach { writable := true, userAccessible := user, noExecute := false } r.pages m

/-- The loop of `unmap_range`, with `do_dealloc` set as all its callers do. -/
def unmapEach : List ℕ → Mem α → Except UnmapError Unit × Mem α
  | [], m => (.ok (), m)
  | p :: ps, m =>
      match m.unmap p with
      | .error e => (.error e, m)
      | .ok (f, m') => unmapEach ps { m' with alloc := deallocateFrame m'.alloc f }

def unmapRange (r : PageRangeInclusive) (m : Mem α) : Except UnmapError Unit × Mem α :=
  unmapEach r.pages m

def mapPages (addr pages : ℕ) (user : Bool) (m : Mem α) :
    Except Panic (Except MapToError PageRange × Mem α) := do
  B.debugAssert (decide (0 < pages))
  let rangeStart := pageOf (← virtAddrNew addr)
  let rangeEnd ← B.pageAdd rangeStart pages
  let last ← B.pageSub rangeEnd 1
  match mapRange ⟨rangeStart, last⟩ user m with
  | (.error e, m') => return (.error e, m')
  | (.ok (), m') => return (.ok ⟨rangeStart, rangeEnd⟩, m')

def unmapPages (addr pages : ℕ) (m : Mem α) : Except Panic (Except UnmapError Unit × Mem α) := do
  B.debugAssert (decide (0 < pages))
  let start := pageOf (← virtAddrNew addr)
  let last ← B.pageSub (← B.pageAdd start pages) 1
  return unmapRange ⟨start, last⟩ m

/-! ### What the loops do to the page table -/

/-- Mapping succeeds: all the pages are new, and no other entry changes. -/
theorem mapEach_ok {flags : PageTableFlags} : ∀ {ps : List ℕ} {m m' : Mem α},
    mapEach flags ps m = (.ok (), m') → Grown m.table {p | p ∈ ps} m'.table
  | [], m, m', h => by
      cases h
      exact (Grown.refl m.table).congr (by ext; simp)
  | p :: ps, m, m', h => by
      unfold mapEach at h
      split at h
      · cases h
      · split at h
        · cases h
        · rename_i m₁ h₁
          obtain ⟨hg, -, -⟩ := mapTo_grown h₁
          refine (hg.trans (mapEach_ok h)).congr ?_
          ext q
          simp [eq_comm]

/-- Mapping fails: the pages before the failing one are mapped, no other entry changes. -/
theorem mapEach_error {flags : PageTableFlags} {e : MapToError} : ∀ {ps : List ℕ} {m m' : Mem α},
    mapEach flags ps m = (.error e, m') →
      ∃ qs p rest, ps = qs ++ p :: rest ∧ Grown m.table {q | q ∈ qs} m'.table
  | [], m, m', h => by cases h
  | p :: ps, m, m', h => by
      unfold mapEach at h
      split at h
      · cases h
        exact ⟨[], p, ps, rfl, (Grown.refl m.table).congr (by ext; simp)⟩
      · split at h
        · cases h
          exact ⟨[], p, ps, rfl, (Grown.refl m.table).congr (by ext; simp)⟩
        · rename_i m₁ h₁
          obtain ⟨hg, -, -⟩ := mapTo_grown h₁
          obtain ⟨qs, q, rest, rfl, hgs⟩ := mapEach_error h
          refine ⟨p :: qs, q, rest, rfl, (hg.trans hgs).congr ?_⟩
          ext r
          simp [eq_comm]

theorem mapEach_grown (flags : PageTableFlags) (ps : List ℕ) (m : Mem α) :
    ∃ S : Set ℕ, Grown m.table S (mapEach flags ps m).2.table ∧ ∀ p ∈ S, p ∈ ps := by
  rcases h : mapEach flags ps m with ⟨e | _, m'⟩
  · obtain ⟨qs, p, rest, rfl, hg⟩ := mapEach_error h
    exact ⟨_, hg, fun q hq => List.mem_append_left _ hq⟩
  · exact ⟨_, mapEach_ok h, fun q hq => hq⟩

theorem mapEach_of_free {flags : PageTableFlags} : ∀ {ps : List ℕ} {m : Mem α},
    (∀ p ∈ ps, m.table p = none) → ps.Nodup → Grants ps.length m.alloc →
      ∃ m', mapEach flags ps m = (.ok (), m')
  | [], m, _, _, _ => ⟨m, rfl⟩
  | p :: ps, m, hfree, hnd, hg => by
      obtain ⟨hsome, hrest⟩ := hg
      obtain ⟨hp, hnd⟩ := List.nodup_cons.mp hnd
      unfold mapEach
      rcases ha : allocateFrame m.alloc with ⟨_ | f, a⟩
      · exact absurd (by rw [ha]) hsome
      · have hpf : m.table p = none := hfree p List.mem_cons_self
        simp only [Mem.mapTo, hpf]
        apply mapEach_of_free
        · intro q hq
          have hne : q ≠ p := fun h => hp (h ▸ hq)
          show Function.update m.table p _ q = none
          rw [Function.update_of_ne hne]
          exact hfree q (List.mem_cons_of_mem _ hq)
        · exact hnd
        · rw [ha] at hrest
          exact hrest

/-- Mapping without any frame, or onto a mapped first page, leaves the page table alone. -/
theorem mapEach_blocked {flags : PageTableFlags} {p : ℕ} {ps : List ℕ} {m : Mem α}
    (h : (allocateFrame m.alloc).1 = none ∨ m.table p ≠ none) :
    ∃ e, mapEach flags (p :: ps) m = (.error e, { m with alloc := (allocateFrame m.alloc).2 }) := by
  unfold mapEach
  rcases ha : allocateFrame m.alloc with ⟨_ | f, a⟩
  · exact ⟨_, rfl⟩
  · rw [ha] at h
    have hp : m.table p ≠ none := h.resolve_left (by simp)
    obtain ⟨e, he⟩ := Option.ne_none_iff_exists'.mp hp
    exact ⟨.pageAlreadyMapped e.frame, by simp [Mem.mapTo, he]⟩

/-- Unmapping succeeds: the pages are gone, no other entry changes, and their frames were
returned to the allocator in order. -/
theorem unmapEach_ok : ∀ {ps : List ℕ} {m m' : Mem α}, unmapEach ps m = (.ok (), m') →
    Grown m'.table {p | p ∈ ps} m.table ∧
      m'.alloc = deallocateAll m.alloc (ps.map m.table.frameOf) ∧ m'.phys = m.phys
  | [], m, m', h => by
      cases h
      exact ⟨(Grown.refl m.table).congr (by ext; simp), rfl, rfl⟩
  | p :: ps, m, m', h => by
      unfold unmapEach Mem.unmap at h
      rcases hp : m.table p with _ | e
      · rw [hp] at h
        cases h
      · rw [hp] at h
        obtain ⟨hg, ha, hphys⟩ := unmapEach_ok h
        have h1 : Grown (Function.update m.table p none) {p} m.table := by
          have := Grown.single (T := Function.update m.table p none) e (k := p) (by simp)
          simpa [Function.update_idem, ← hp] using this
        refine ⟨(hg.trans h1).congr ?_, ?_, hphys⟩
        · ext q
          simp [eq_comm]
        · -- the frames of the other pages are read before or after `p` is unmapped
          have hnot : p ∉ ps := by
            intro hmem
            have := hg.bound p hmem
            simp at this
          have hmap : ps.map (PageTable.frameOf (Function.update m.table p none)) =
              ps.map m.table.frameOf := by
            apply List.map_congr_left
            intro q hq
            have hne : q ≠ p := fun h => hnot (h ▸ hq)
            simp [PageTable.frameOf, Function.update_of_ne hne]
          rw [ha]
          simp only [deallocateAll, List.map_cons, List.foldl_cons, hmap]
          simp [PageTable.frameOf, hp]

theorem unmapEach_of_mapped : ∀ {ps : List ℕ} {m : Mem α}, (∀ p ∈ ps, m.table p ≠ none) →
    ps.Nodup → ∃ m', unmapEach ps m = (.ok (), m')
  | [], m, _, _ => ⟨m, rfl⟩
  | p :: ps, m, hm, hnd => by
      obtain ⟨hp, hnd⟩ := List.nodup_cons.mp hnd
      obtain ⟨e, he⟩ := Option.ne_none_iff_exists'.mp (hm p List.mem_cons_self)
      simp only [unmapEach, Mem.unmap, he]
      apply unmapEach_of_mapped
      · intro q hq
        have hne : q ≠ p := fun h => hp (h ▸ hq)
        show Function.update m.table p none q ≠ none
        rw [Function.update_of_ne hne]
        exact hm q (List.mem_cons_of_mem _ hq)
      · exact hnd

theorem unmapEach_mapped : ∀ {ps : List ℕ} {m : Mem α} {p : ℕ},
    (unmapEach ps m).2.table p ≠ none → m.table p ≠ none
  | [], _, _, h => h
  | q :: ps, m, p, h => by
      unfold unmapEach Mem.unmap at h
      rcases hq : m.table q with _ | e
      · rw [hq] at h
        exact h
      · rw [hq] at h
        have hp := unmapEach_mapped h
        by_cases hpq : p = q
        · rw [hpq, hq]
          exact nofun
        · exact fun hn => hp ((Function.update_of_ne hpq _ _).trans hn)

/-! ### Mapping whole ranges -/

/-- Mapping these pages stops before the first of them. -/
def Blocked (ps : List ℕ) (m : Mem α) : Prop :=
  (allocateFrame m.alloc).1 = none ∨ ∃ p ∈ ps.head?, m.table p ≠ none

/-- Mapping these pages stops before the first of them or goes through: all the pages are free
and there are frames for all. -/
def MapsWhole (ps : List ℕ) (m : Mem α) : Prop :=
  Blocked ps m ∨ (∀ p ∈ ps, m.table p = none) ∧ Grants ps.length m.alloc

instance (ps : List ℕ) (m : Mem α) : Decidable (Blocked ps m) :=
  inferInstanceAs (Decidable ((allocateFrame m.alloc).1 = none ∨ ∃ p ∈ ps.head?, m.table p ≠ none))

instance (ps : List ℕ) (m : Mem α) : Decidable (MapsWhole ps m) :=
  inferInstanceAs (Decidable (Blocked ps m ∨ (∀ p ∈ ps, m.table p = none) ∧ Grants ps.length m.alloc))

/-- All or nothing: the pages are mapped, or the page table is left as it was. -/
theorem mapEach_whole {flags : PageTableFlags} {ps : List ℕ} {m m' : Mem α}
    {r : Except MapToError Unit} (hw : MapsWhole ps m) (hnd : ps.Nodup)
    (h : mapEach flags ps m = (r, m')) :
    r = .ok () ∧ Grown m.table {p | p ∈ ps} m'.table ∨
      (∃ e, r = .error e) ∧ Blocked ps m ∧ m' = { m with alloc := (allocateFrame m.alloc).2 } := by
  rcases ps with _ | ⟨p, ps⟩
  · cases h
    exact Or.inl ⟨rfl, (Grown.refl m.table).congr (by ext; simp)⟩
  · rcases hw with hb | ⟨hfree, hg⟩
    · have hb' : (allocateFrame m.alloc).1 = none ∨ m.table p ≠ none := by
        simpa [Blocked] using hb
      obtain ⟨e, he⟩ := mapEach_blocked hb'
      rw [he] at h
      cases h
      exact Or.inr ⟨⟨e, rfl⟩, hb, rfl⟩
    · obtain ⟨m₁, h₁⟩ := mapEach_of_free hfree hnd hg
      rw [h₁] at h
      cases h
      exact Or.inl ⟨rfl, mapEach_ok h₁⟩

theorem mapsWhole_of_ok {flags : PageTableFlags} : ∀ {ps : List ℕ} {m m' : Mem α},
    mapEach flags ps m = (.ok (), m') →
      (∀ p ∈ ps, m.table p = none) ∧ Grants ps.length m.alloc
  | [], _, _, _ => ⟨nofun, trivial⟩
  | p :: ps, m, m', h => by
      refine ⟨(mapEach_ok h).fresh, ?_⟩
      unfold mapEach at h
      rcases ha : allocateFrame m.alloc with ⟨_ | f, a⟩ <;> simp only [ha] at h
      · cases h
      · split at h
        · cases h
        · rename_i m₁ h₁
          obtain ⟨-, halloc, -⟩ := mapTo_grown h₁
          refine ⟨by rw [ha]; exact nofun, ?_⟩
          have hg := (mapsWhole_of_ok h).2
          rw [halloc] at hg
          rw [ha]
          exact hg

/-- Mapping that fails without a trace in the page table has stopped before the first page. -/
theorem blocked_of_error {flags : PageTableFlags} {ps : List ℕ} {m m' : Mem α} {e : MapToError}
    (h : mapEach flags ps m = (.error e, m')) (htable : ∀ p, m'.table p ≠ none → m.table p ≠ none) :
    ps ≠ [] ∧ Blocked ps m ∧ m' = { m with alloc := (allocateFrame m.alloc).2 } := by
  rcases ps with _ | ⟨p, ps⟩
  · cases h
  · by_cases hb : (allocateFrame m.alloc).1 = none ∨ m.table p ≠ none
    · obtain ⟨e', he'⟩ := mapEach_blocked hb
      rw [he'] at h
      cases h
      exact ⟨List.cons_ne_nil p ps, by simpa [Blocked] using hb, rfl⟩
    · rw [not_or, not_not] at hb
      obtain ⟨hsome, hp⟩ := hb
      refine absurd hp (htable p ?_)
      unfold mapEach at h
      rcases ha : allocateFrame m.alloc with ⟨_ | f, a⟩ <;> simp only [ha] at h
      · exact absurd (by rw [ha]) hsome
      · simp only [Mem.mapTo, hp] at h
        obtain ⟨S, hS, -⟩ := mapEach_grown flags ps
          { m with alloc := a, table := Function.update m.table p (some ⟨f, flags⟩) }
        rw [h] at hS
        rw [hS.keeps (k := p) (v := ⟨f, flags⟩) (Function.update_self _ _ _)]
        exact nofun

/-- **When mapping is all or nothing.**  A failure leaves no page mapped exactly if it comes
before the first page. -/
theorem mapEach_clean_iff {flags : PageTableFlags} {ps : List ℕ} {m : Mem α} (hnd : ps.Nodup) :
    (∀ e m', mapEach flags ps m = (.error e, m') → ∀ p, m'.table p ≠ none → m.table p ≠ none) ↔
      MapsWhole ps m := by
  constructor
  · intro h
    rcases hm : mapEach flags ps m with ⟨e | _, m'⟩
    · exact Or.inl (blocked_of_error hm (h e m' hm)).2.1
    · exact Or.inr (mapsWhole_of_ok hm)
  · intro hw e m' hm
    rcases mapEach_whole hw hnd hm with ⟨hr, -⟩ | ⟨-, -, rfl⟩
    · cases hr
    · exact fun _ h => h

theorem mapEach_freed {flags : PageTableFlags} : ∀ (ps : List ℕ) (m : Mem (Recorder α)),
    (mapEach flags ps m).2.alloc.freed = m.alloc.freed
  | [], m => rfl
  | p :: ps, m => by
      unfold mapEach
      split
      · rename_i a ha
        rw [← Recorder.freed_allocateFrame m.alloc, ha]
      · rename_i f a ha
        have hfreed : a.freed = m.alloc.freed := by
          rw [← Recorder.freed_allocateFrame m.alloc, ha]
        split
        · exact hfreed
        · rename_i m₁ h₁
          obtain ⟨-, halloc, -⟩ := mapTo_grown h₁
          rw [mapEach_freed ps m₁, halloc]
          exact hfreed

theorem mapEach_adds {flags : PageTableFlags} {ps : List ℕ} {m m' : Mem (Recorder α)}
    {r : Except MapToError Unit} (hw : MapsWhole ps m) (hnd : ps.Nodup)
    (h : mapEach flags ps m = (r, m')) :
    r = .ok () ∧ Adds {p | p ∈ ps} m m' ∨ (∃ e, r = .error e) ∧ Adds ∅ m m' := by
  have hfreed : m'.alloc.freed = m.alloc.freed := by
    rw [← mapEach_freed ps m, h]
  rcases mapEach_whole hw hnd h with ⟨hr, hg⟩ | ⟨hr, -, hm⟩
  · exact Or.inl ⟨hr, hg, hfreed⟩
  · exact Or.inr ⟨hr, hm ▸ Grown.refl m.table, hfreed⟩

theorem unmapEach_removes {ps : List ℕ} {m m' : Mem (Recorder α)} {r : Except UnmapError Unit}
    (hm : ∀ p ∈ ps, m.table p ≠ none) (hnd : ps.Nodup) (h : unmapEach ps m = (r, m')) :
    r = .ok () ∧ Removes ps m m' := by
  obtain ⟨m₁, h₁⟩ := unmapEach_of_mapped hm hnd
  rw [h₁] at h
  cases h
  obtain ⟨hg, halloc, -⟩ := unmapEach_ok h₁
  exact ⟨rfl, hg, hnd, by rw [halloc, Recorder.freed_deallocateAll]⟩

theorem unmapRange_removes {range : PageRangeInclusive} {m m' : Mem (Recorder α)}
    {r : Except UnmapError Unit} (hm : ∀ p ∈ range.pages, m.table p ≠ none)
    (h : unmapRange range m = (r, m')) : r = .ok () ∧ Removes range.pages m m' :=
  unmapEach_removes hm range.nodup_pages h

variable {B}

/-- `map_pages` without overflow is `map_range` on the pages from the address on. -/
theorem mapPages_eq {addr pages : ℕ} {user : Bool} {m m' : Mem α}
    {r : Except MapToError PageRange} (hpos : 0 < pages)
    (hlt : (pageOf addr + pages) * PAGE_SIZE < U64)
    (h : mapPages B addr pages user m = .ok (r, m')) :
    ∃ r', mapEach { writable := true, userAccessible := user, noExecute := false }
        (PageRange.mk (pageOf addr) (pageOf addr + pages)).pages m = (r', m') ∧
      r = r'.map fun _ => ⟨pageOf addr, pageOf addr + pages⟩ := by
  simp only [mapPages, bind_eq_ok] at h
  obtain ⟨_, -, a, ha, stop, hstop, last, hlast, h⟩ := h
  obtain ⟨rfl, -⟩ := virtAddrNew_ok ha
  obtain rfl := B.pageAdd_eq hstop hlt
  obtain rfl := B.pageSub_eq hlast (by omega) hlt
  have hpages : (PageRangeInclusive.mk (pageOf addr) (pageOf addr + pages - 1)).pages =
      (PageRange.mk (pageOf addr) (pageOf addr + pages)).pages := by
    rw [PageRangeInclusive.pages_eq, Nat.sub_add_cancel (by omega)]
  rw [mapRange, hpages] at h
  split at h
  · rename_i e m₁ hm
    cases h
    exact ⟨_, hm, rfl⟩
  · rename_i m₁ hm
    cases h
    exact ⟨_, hm, rfl⟩

theorem mapPages_ok {addr pages : ℕ} {user : Bool} {m m' : Mem α} {r : PageRange}
    (hpos : 0 < pages) (hlt : (pageOf addr + pages) * PAGE_SIZE < U64)
    (h : mapPages B addr pages user m = .ok (.ok r, m')) :
    r = ⟨pageOf addr, pageOf addr + pages⟩ ∧ Grown m.table {p | p ∈ r.pages} m'.table := by
  obtain ⟨r', hm, hr⟩ := mapPages_eq hpos hlt h
  rcases r' with e | _
  · cases hr
  · cases hr
    exact ⟨rfl, mapEach_ok hm⟩

theorem mapPages_grown {addr pages : ℕ} {user : Bool} {m m' : Mem α}
    {r : Except MapToError PageRange} (h : mapPages B addr pages user m = .ok (r, m')) :
    ∃ S : Set ℕ, Grown m.table S m'.table := by
  simp only [mapPages, bind_eq_ok] at h
  obtain ⟨_, -, a, -, stop, -, last, -, h⟩ := h
  have hg := mapEach_grown { writable := true, userAccessible := user, noExecute := false }
    (PageRangeInclusive.mk (pageOf a) last).pages m
  rw [mapRange] at h
  split at h
  all_goals
    rename_i hm
    cases h
    rw [hm] at hg
    obtain ⟨S, hS, -⟩ := hg
    exact ⟨S, hS⟩

theorem mapPages_error {addr pages : ℕ} {user : Bool} {m : Mem α} {e : Panic}
    (h : mapPages B addr pages user m = .error e) : e.isArithmetic = true := by
  rcases bind_eq_error.mp h with h | ⟨_, -, h⟩
  · exact Build.debugAssert_error h
  rcases bind_eq_error.mp h with h | ⟨_, -, h⟩
  · exact virtAddrNew_error h
  rcases bind_eq_error.mp h with h | ⟨_, -, h⟩
  · exact Build.pageAdd_error h
  rcases bind_eq_error.mp h with h | ⟨_, -, h⟩
  · exact Build.pageSub_error h
  split at h <;> cases h

theorem unmapPages_error {addr pages : ℕ} {m : Mem α} {e : Panic}
    (h : unmapPages B addr pages m = .error e) : e.isArithmetic = true := by
  rcases bind_eq_error.mp h with h | ⟨_, -, h⟩
  · exact Build.debugAssert_error h
  rcases bind_eq_error.mp h with h | ⟨_, -, h⟩
  · exact virtAddrNew_error h
  rcases bind_eq_error.mp h with h | ⟨_, -, h⟩
  · exact Build.pageAdd_error h
  rcases bind_eq_error.mp h with h | ⟨_, -, h⟩
  · exact Build.pageSub_error h
  · cases h

theorem unmapPages_eq {addr pages : ℕ} {m m' : Mem α} {r : Except UnmapError Unit}
    (hpos : 0 < pages) (hlt : (pageOf addr + pages) * PAGE_SIZE < U64)
    (h : unmapPages B addr pages m = .ok (r, m')) :
    unmapEach (PageRange.mk (pageOf addr) (pageOf addr + pages)).pages m = (r, m') := by
  simp only [unmapPages, bind_eq_ok, pure_eq_ok] at h
  obtain ⟨_, -, a, ha, stop, hstop, last, hlast, h⟩ := h
  obtain ⟨rfl, -⟩ := virtAddrNew_ok ha
  obtain rfl := B.pageAdd_eq hstop hlt
  obtain rfl := B.pageSub_eq hlast (by omega) hlt
  rw [unmapRange, PageRangeInclusive.pages_eq, Nat.sub_add_cancel (by omega)] at h
  exact h

/-! ### Loading a program -/

variable (B)

/-- The types of a program header that `load_elf` tells apart. -/
inductive SegmentType where
  | load
  | other
deriving DecidableEq, Repr

/-- A program header; `segmentType` is `none` where `get_type` returns an error. -/
structure ProgramHeader where
  segmentType : Option SegmentType
  offset : ℕ
  virtualAddr : ℕ
  fileSize : ℕ
  memSize : ℕ
  isExecute : Bool
  isWrite : Bool
deriving DecidableEq, Repr

structure ElfFile where
  input : List UInt8
  programHeaders : List ProgramHeader
  entryPoint : ℕ
deriving DecidableEq, Repr

namespace ProgramHeader

/-- Page table flags of a segment. -/
def flags (seg : ProgramHeader) (user : Bool) : PageTableFlags where
  writable := seg.isWrite
  userAccessible := user
  noExecute := !seg.isExecute

/-- The pages from the one of the first byte to the one of the last byte in memory. -/
def pageRange (seg : ProgramHeader) : PageRangeInclusive where
  start := pageOf seg.virtualAddr
  last := pageOf (seg.virtualAddr + seg.memSize - 1)

/-- The segment is loaded: `PT_LOAD` and not empty. -/
def isLoaded (seg : ProgramHeader) : Bool := seg.segmentType == some .load && seg.memSize != 0

end ProgramHeader

/-- The loop of `load_segment` over the pages with file data; `idx` counts the pages.  The data
is copied to the start of the frame, whatever the offset of the segment in its first page. -/
def loadEach (elf : ElfFile) (seg : ProgramHeader) (flags : PageTableFlags) :
    ℕ → List ℕ → Mem α → Except Panic (Except MapToError Unit × Mem α)
  | _, [], m => .ok (.ok (), m)
  | idx, p :: ps, m =>
      match allocateFrame m.alloc with
      | (none, a) => .ok (.error .frameAllocationFailed, { m with alloc := a })
      | (some f, a) => do
          let dataOffset := idx * PAGE_SIZE
          let left ← B.sub seg.fileSize dataOffset
          let bytes := if left < PAGE_SIZE then left else PAGE_SIZE
          let content := fun i =>
            if i < bytes then elf.input.getD (seg.offset + dataOffset + i) 0 else 0
          let m' : Mem α := { m with alloc := a, phys := Function.update m.phys f content }
          match m'.mapTo p f flags with
          | .error e => return (.error e, m')
          | .ok m'' => loadEach elf seg flags (idx + 1) ps m''

/-- The loop of `load_segment` over the `.bss` pages, which skips mapped pages. -/
def zeroEach (flags : PageTableFlags) : List ℕ → Mem α → Except MapToError Unit × Mem α
  | [], m => (.ok (), m)
  | p :: ps, m =>
      if (m.table p).isNone then
        match allocateFrame m.alloc with
        | (none, a) => (.error .frameAllocationFailed, { m with alloc := a })
        | (some f, a) =>
            match ({ m with alloc := a } : Mem α).mapTo p f flags with
            | .error e => (.error e, { m with alloc := a })
            | .ok m' =>
                zeroEach flags ps { m' with phys := Function.update m'.phys f (fun _ => 0) }
      else zeroEach flags ps m

/-- `x86_64::align_up` to the page size. -/
def alignUp (a : ℕ) : ℕ := (a + (PAGE_SIZE - 1)) / PAGE_SIZE * PAGE_SIZE

/-- The part of `load_segment` that loads the file data. -/
def loadFileData (elf : ElfFile) (seg : ProgramHeader) (user : Bool) (virtStart : ℕ) (m : Mem α) :
    Except Panic (Except MapToError Unit × Mem α) :=
  if 0 < seg.fileSize then do
    let lastByte ← B.virtSub (← B.virtAdd virtStart seg.fileSize) 1
    let pages : PageRangeInclusive := ⟨pageOf virtStart, pageOf lastByte⟩
    loadEach B elf seg (seg.flags user) 0 pages.pages m
  else .ok (.ok (), m)

/-- The part of `load_segment` that maps and zeroes the `.bss` pages. -/
def loadBss (seg : ProgramHeader) (user : Bool) (virtStart : ℕ) (m : Mem α) :
    Except Panic (Except MapToError Unit × Mem α) :=
  if seg.fileSize < seg.memSize then do
    let bssStart ← B.virtAdd virtStart seg.fileSize
    let bssStartPage := pageOf (← virtAddrNew (alignUp bssStart))
    let lastByte ← B.virtSub (← B.virtAdd virtStart seg.memSize) 1
    let pages : PageRangeInclusive := ⟨bssStartPage, pageOf lastByte⟩
    return zeroEach (seg.flags user) pages.pages m
  else .ok (.ok (), m)

def loadSegment (elf : ElfFile) (seg : ProgramHeader) (user : Bool) (m : Mem α) :
    Except Panic (Except MapToError (PageRangeInclusive × ℕ) × Mem α) := do
  let virtStart ← virtAddrNew seg.virtualAddr
  match ← loadFileData B elf seg user virtStart m with
  | (.error e, m₁) => return (.error e, m₁)
  | (.ok (), m₁) =>
      match ← loadBss B seg user virtStart m₁ with
      | (.error e, m₂) => return (.error e, m₂)
      | (.ok (), m₂) =>
          let lastByte ← B.virtSub (← B.virtAdd virtStart seg.memSize) 1
          let range : PageRangeInclusive := ⟨pageOf virtStart, pageOf lastByte⟩
          return (.ok (range, range.count * PAGE_SIZE), m₂)

/-- The loop of `load_elf`, with the ranges and the usage collected so far. -/
def loadSegments (elf : ElfFile) (user : Bool) :
    List ProgramHeader → List PageRangeInclusive → ℕ → Mem α →
      Except Panic (Except MapToError (List PageRangeInclusive × ℕ) × Mem α)
  | [], ranges, usage, m => .ok (.ok (ranges, usage), m)
  | seg :: segs, ranges, usage, m =>
      match seg.segmentType with
      | none => .error .elfLoad
      | some .other => loadSegments elf user segs ranges usage m
      | some .load =>
          if seg.memSize = 0 then loadSegments elf user segs ranges usage m
          else do
            match ← loadSegment B elf seg user m with
            | (.error e, m') => return (.error e, m')
            | (.ok (range, bytes), m') =>
                let ranges' := if 0 < range.count then ranges ++ [range] else ranges
                loadSegments elf user segs ranges' (← B.add usage bytes) m'

def loadElf (elf : ElfFile) (user : Bool) (m : Mem α) :
    Except Panic (Except MapToError (List PageRangeInclusive × ℕ) × Mem α) :=
  loadSegments B elf user elf.programHeaders [] 0 m

/-! ### What loading does to the page table -/

variable {B}

theorem loadEach_ok {elf : ElfFile} {seg : ProgramHeader} {flags : PageTableFlags} :
    ∀ {ps : List ℕ} {idx : ℕ} {m m' : Mem α}, loadEach B elf seg flags idx ps m = .ok (.ok (), m') →
      Grown m.table {p | p ∈ ps} m'.table
  | [], idx, m, m', h => by
      cases h
      exact (Grown.refl m.table).congr (by ext; simp)
  | p :: ps, idx, m, m', h => by
      unfold loadEach at h
      split at h
      · cases h
      · simp only [bind_eq_ok] at h
        obtain ⟨left, -, h⟩ := h
        split at h
        · cases h
        · rename_i m₁ h₁
          obtain ⟨hg, -, -⟩ := mapTo_grown h₁
          refine (hg.trans (loadEach_ok h)).congr ?_
          ext q
          simp [eq_comm]

theorem zeroEach_ok {flags : PageTableFlags} : ∀ {ps : List ℕ} {m m' : Mem α},
    zeroEach flags ps m = (.ok (), m') → Grown m.table {p | p ∈ ps ∧ m.table p = none} m'.table
  | [], m, m', h => by
      cases h
      exact (Grown.refl m.table).congr (by ext; simp)
  | p :: ps, m, m', h => by
      unfold zeroEach at h
      split_ifs at h with hp
      · rw [Option.isNone_iff_eq_none] at hp
        split at h
        · cases h
        · split at h
          · cases h
          · rename_i m₁ h₁
            obtain ⟨hg, -, -⟩ := mapTo_grown h₁
            have hrest := zeroEach_ok h
            refine (hg.trans hrest).congr ?_
            ext q
            by_cases hq : q = p
            · subst hq
              simp [hp]
            · have hsame : m₁.table q = m.table q := hg.same q hq
              simp [hq, hsame]
      · rw [Option.isNone_iff_eq_none] at hp
        refine (zeroEach_ok h).congr ?_
        ext q
        by_cases hq : q = p
        · subst hq
          simp [hp]
        · simp [hq]

/-- The segment stays below `2 ^ 64`, its file data lies in its pages in memory, and without
file data it starts on a page boundary. -/
structure ProgramHeader.Fits (seg : ProgramHeader) : Prop where
  fileEnd : seg.virtualAddr + seg.fileSize < U64
  memEnd : seg.virtualAddr + seg.memSize < U64
  fileInside : seg.fileSize ≠ 0 →
    pageOf (seg.virtualAddr + seg.fileSize - 1) ≤ pageOf (seg.virtualAddr + seg.memSize - 1)
  aligned : seg.fileSize = 0 → seg.virtualAddr % PAGE_SIZE = 0

theorem loadFileData_ok {elf : ElfFile} {seg : ProgramHeader} {user : Bool} {m m' : Mem α}
    (hfit : seg.Fits) (h : loadFileData B elf seg user seg.virtualAddr m = .ok (.ok (), m')) :
    Grown m.table {p | seg.fileSize ≠ 0 ∧ pageOf seg.virtualAddr ≤ p ∧
      p ≤ pageOf (seg.virtualAddr + seg.fileSize - 1)} m'.table := by
  unfold loadFileData at h
  split_ifs at h with hfile
  · simp only [bind_eq_ok] at h
    obtain ⟨e, he, l, hl, h⟩ := h
    have he' := B.virtAdd_eq he hfit.fileEnd
    have hl' := B.virtSub_eq hl (by omega) (by rw [he']; exact hfit.fileEnd)
    subst he' hl'
    refine (loadEach_ok h).congr ?_
    ext p
    simp
    omega
  · cases h
    refine (Grown.refl m.table).congr ?_
    ext p
    simp
    omega

theorem pageOf_alignUp_le (a : ℕ) (ha : 0 < a) : pageOf (alignUp a) ≤ pageOf (a - 1) + 1 := by
  simp only [pageOf, alignUp, PAGE_SIZE]
  omega

theorem le_alignUp (a : ℕ) : a ≤ alignUp a := by
  simp only [alignUp, PAGE_SIZE]
  omega

theorem alignUp_of_aligned {a : ℕ} (ha : a % PAGE_SIZE = 0) : alignUp a = a := by
  simp only [alignUp, PAGE_SIZE] at ha ⊢
  omega

theorem loadBss_ok {seg : ProgramHeader} {user : Bool} {m m' : Mem α}
    (hfit : seg.Fits) (h : loadBss B seg user seg.virtualAddr m = .ok (.ok (), m')) :
    Grown m.table {p | seg.fileSize < seg.memSize ∧
      pageOf (alignUp (seg.virtualAddr + seg.fileSize)) ≤ p ∧ p ≤ seg.pageRange.last ∧
      m.table p = none} m'.table := by
  unfold loadBss at h
  split_ifs at h with hbss
  · simp only [bind_eq_ok, pure_eq_ok] at h
    obtain ⟨b, hb, u, hu, e, he, l, hl, h⟩ := h
    have hb' := B.virtAdd_eq hb hfit.fileEnd
    have he' := B.virtAdd_eq he hfit.memEnd
    have hl' := B.virtSub_eq hl (by omega) (by rw [he']; exact hfit.memEnd)
    obtain ⟨hu', -⟩ := virtAddrNew_ok hu
    subst hb' hu' he' hl'
    refine (zeroEach_ok h).congr ?_
    ext p
    simp [ProgramHeader.pageRange, hbss, and_assoc]
  · cases h
    refine (Grown.refl m.table).congr ?_
    ext p
    simp
    omega

theorem loadSegment_parts {elf : ElfFile} {seg : ProgramHeader} {user : Bool} {m m' : Mem α}
    {r : PageRangeInclusive × ℕ} (h : loadSegment B elf seg user m = .ok (.ok r, m')) :
    ∃ m₁ e l, loadFileData B elf seg user seg.virtualAddr m = .ok (.ok (), m₁) ∧
      loadBss B seg user seg.virtualAddr m₁ = .ok (.ok (), m') ∧
      B.virtAdd seg.virtualAddr seg.memSize = .ok e ∧ B.virtSub e 1 = .ok l ∧
      r = (⟨pageOf seg.virtualAddr, pageOf l⟩,
        (PageRangeInclusive.mk (pageOf seg.virtualAddr) (pageOf l)).count * PAGE_SIZE) := by
  unfold loadSegment at h
  simp only [bind_eq_ok] at h
  obtain ⟨v, hv, ⟨r₁, m₁⟩, h₁, h⟩ := h
  obtain ⟨rfl, -⟩ := virtAddrNew_ok hv
  rcases r₁ with e | _
  · cases h
  simp only [bind_eq_ok] at h
  obtain ⟨⟨r₂, m₂⟩, h₂, h⟩ := h
  rcases r₂ with e | _
  · cases h
  obtain ⟨e, he, h⟩ := bind_eq_ok.mp h
  obtain ⟨l, hl, h⟩ := bind_eq_ok.mp h
  cases pure_eq_ok.mp h
  exact ⟨m₁, e, l, h₁, h₂, he, hl, rfl⟩

/-- A segment that fits and whose pages are free adds exactly its pages. -/
theorem loadSegment_ok {elf : ElfFile} {seg : ProgramHeader} {user : Bool} {m m' : Mem α}
    {range : PageRangeInclusive} {bytes : ℕ} (hfit : seg.Fits) (hmem : seg.memSize ≠ 0)
    (hfree : ∀ p ∈ seg.pageRange.pages, m.table p = none)
    (h : loadSegment B elf seg user m = .ok (.ok (range, bytes), m')) :
    range = seg.pageRange ∧ Grown m.table {p | p ∈ seg.pageRange.pages} m'.table := by
  obtain ⟨m₁, e, l, h₁, h₂, he, hl, hr⟩ := loadSegment_parts h
  have he' := B.virtAdd_eq he hfit.memEnd
  have hl' := B.virtSub_eq hl (by omega) (by rw [he']; exact hfit.memEnd)
  subst he' hl'
  obtain ⟨rfl, rfl⟩ := Prod.mk.inj hr
  have g₁ := loadFileData_ok hfit h₁
  have g₂ := loadBss_ok hfit h₂
  refine ⟨rfl, (g₁.trans g₂).congr ?_⟩
  -- the pages of the file data, then the pages from the aligned end of the data on
  have hmono : ∀ {a b : ℕ}, a ≤ b → pageOf a ≤ pageOf b := fun hab => Nat.div_le_div_right hab
  have hrange : seg.pageRange.start = pageOf seg.virtualAddr ∧
      seg.pageRange.last = pageOf (seg.virtualAddr + seg.memSize - 1) := ⟨rfl, rfl⟩
  ext p
  simp only [Set.mem_union, Set.mem_ofPred_eq, PageRangeInclusive.mem_pages, hrange.1, hrange.2]
  constructor
  · rintro (⟨hfile, h1, h2⟩ | ⟨hbss, h1, h2, -⟩)
    · exact ⟨h1, h2.trans (hfit.fileInside hfile)⟩
    · refine ⟨le_trans (hmono ?_) h1, h2⟩
      exact (Nat.le_add_right _ _).trans (le_alignUp _)
  · rintro ⟨h1, h2⟩
    by_cases hdata : seg.fileSize ≠ 0 ∧ p ≤ pageOf (seg.virtualAddr + seg.fileSize - 1)
    · exact Or.inl ⟨hdata.1, h1, hdata.2⟩
    · refine Or.inr ⟨?_, ?_, h2, ?_⟩
      · by_contra hle
        refine hdata ⟨by omega, h2.trans (hmono (by omega))⟩
      · by_cases hfile : seg.fileSize = 0
        · rw [hfile, Nat.add_zero, alignUp_of_aligned (hfit.aligned hfile)]
          exact h1
        · have hup := pageOf_alignUp_le (seg.virtualAddr + seg.fileSize) (by omega)
          omega
      · rw [g₁.same p (fun hp => hdata ⟨hp.1, hp.2.2⟩)]
        exact hfree p (PageRangeInclusive.mem_pages.mpr ⟨h1, h2⟩)

/-! ### Programs whose segments do not meet -/

/-- The loaded segments fit, and their pages are pairwise disjoint and free in `T`. -/
structure SegmentsApart (segs : List ProgramHeader) (T : PageTable) : Prop where
  fits : ∀ seg ∈ segs, seg.isLoaded = true → seg.Fits
  free : ∀ seg ∈ segs, seg.isLoaded = true → ∀ p ∈ seg.pageRange.pages, T p = none
  apart : (segs.filter ProgramHeader.isLoaded).Pairwise fun s t =>
    ∀ p ∈ s.pageRange.pages, p ∉ t.pageRange.pages

/-- The set of pages of a range. -/
def PageRangeInclusive.pageSet (r : PageRangeInclusive) : Set ℕ := {p | p ∈ r.pages}

theorem SegmentsApart.tail {seg : ProgramHeader} {segs : List ProgramHeader} {T : PageTable}
    (h : SegmentsApart (seg :: segs) T) : SegmentsApart segs T := by
  refine ⟨fun s hs => h.fits s (List.mem_cons_of_mem _ hs),
    fun s hs => h.free s (List.mem_cons_of_mem _ hs), ?_⟩
  have hp := h.apart
  rw [List.filter_cons] at hp
  split_ifs at hp
  · exact (List.pairwise_cons.mp hp).2
  · exact hp

theorem SegmentsApart.tail_of_grown {seg : ProgramHeader} {segs : List ProgramHeader}
    {T T' : PageTable} (h : SegmentsApart (seg :: segs) T) (hl : seg.isLoaded = true)
    (hg : Grown T {p | p ∈ seg.pageRange.pages} T') : SegmentsApart segs T' := by
  refine ⟨h.tail.fits, ?_, h.tail.apart⟩
  intro s hs hsl p hp
  have hp' := h.apart
  rw [List.filter_cons, if_pos hl] at hp'
  have hd := (List.pairwise_cons.mp hp').1 s (List.mem_filter.mpr ⟨hs, hsl⟩)
  rw [hg.same p (fun hq => hd p hq hp)]
  exact h.free s (List.mem_cons_of_mem _ hs) hsl p hp

theorem loadSegments_layered {elf : ElfFile} {user : Bool} {T₀ : PageTable} :
    ∀ {segs : List ProgramHeader} {ranges ranges' : List PageRangeInclusive} {usage usage' : ℕ}
      {m m' : Mem α}, SegmentsApart segs m.table →
      Layered T₀ (ranges.map PageRangeInclusive.pageSet) m.table →
      loadSegments B elf user segs ranges usage m = .ok (.ok (ranges', usage'), m') →
      Layered T₀ (ranges'.map PageRangeInclusive.pageSet) m'.table
  | [], ranges, ranges', usage, usage', m, m', _, hl, h => by
      cases h
      exact hl
  | seg :: segs, ranges, ranges', usage, usage', m, m', hs, hl, h => by
      unfold loadSegments at h
      split at h
      · cases h
      · exact loadSegments_layered hs.tail hl h
      · rename_i hload
        split_ifs at h with hmem
        · exact loadSegments_layered hs.tail hl h
        · have hloaded : seg.isLoaded = true := by simp [ProgramHeader.isLoaded, hload, hmem]
          simp only [bind_eq_ok] at h
          obtain ⟨⟨r, m₁⟩, h₁, h⟩ := h
          rcases r with e | ⟨range, bytes⟩
          · cases h
          · simp only [bind_eq_ok] at h
            obtain ⟨total, -, h⟩ := h
            obtain ⟨rfl, hg⟩ := loadSegment_ok (hs.fits seg List.mem_cons_self hloaded) hmem
              (hs.free seg List.mem_cons_self hloaded) h₁
            refine loadSegments_layered (hs.tail_of_grown hloaded hg) ?_ h
            split_ifs with hcount
            · rw [List.map_append]
              exact (hl.push hg).perm (List.perm_append_singleton _ _).symm
            · -- an empty range has no pages, so the table did not change
              have hempty : {p | p ∈ seg.pageRange.pages} = (∅ : Set ℕ) := by
                ext p
                simp only [PageRangeInclusive.count] at hcount
                simp
                omega
              rw [hempty] at hg
              exact Layered.cons_empty_iff.mp (hl.push hg)

/-- **What `load_elf` maps.**  If the segments do not meet each other or a mapped page, the page
table grows by exactly the ranges that `load_elf` returns, and these are disjoint. -/
theorem loadElf_layered {elf : ElfFile} {user : Bool} {m m' : Mem α}
    {ranges : List PageRangeInclusive} {usage : ℕ}
    (hs : SegmentsApart elf.programHeaders m.table)
    (h : loadElf B elf user m = .ok (.ok (ranges, usage), m')) :
    Layered m.table (ranges.map PageRangeInclusive.pageSet) m'.table := by
  have h0 : Layered m.table (List.map PageRangeInclusive.pageSet []) m.table := Layered.nil m.table
  exact loadSegments_layered hs h0 h

/-! ### Loading returns no frame -/

theorem freed_of_allocateFrame {a a' : Recorder α} {f : Option Frame}
    (h : allocateFrame a = (f, a')) : a'.freed = a.freed := by
  rw [← Recorder.freed_allocateFrame a, h]

theorem loadEach_freed {elf : ElfFile} {seg : ProgramHeader} {flags : PageTableFlags} :
    ∀ {ps : List ℕ} {idx : ℕ} {m m' : Mem (Recorder α)} {r : Except MapToError Unit},
      loadEach B elf seg flags idx ps m = .ok (r, m') → m'.alloc.freed = m.alloc.freed
  | [], idx, m, m', r, h => by
      cases h
      rfl
  | p :: ps, idx, m, m', r, h => by
      unfold loadEach at h
      split at h
      · rename_i a ha
        cases h
        exact freed_of_allocateFrame ha
      · rename_i f a ha
        simp only [bind_eq_ok] at h
        obtain ⟨left, -, h⟩ := h
        split at h
        · cases h
          exact freed_of_allocateFrame ha
        · rename_i m₁ h₁
          obtain ⟨-, halloc, -⟩ := mapTo_grown h₁
          rw [loadEach_freed h, halloc]
          exact freed_of_allocateFrame ha

theorem zeroEach_freed {flags : PageTableFlags} :
    ∀ {ps : List ℕ} {m m' : Mem (Recorder α)} {r : Except MapToError Unit},
      zeroEach flags ps m = (r, m') → m'.alloc.freed = m.alloc.freed
  | [], m, m', r, h => by
      cases h
      rfl
  | p :: ps, m, m', r, h => by
      unfold zeroEach at h
      split_ifs at h
      · split at h
        · rename_i a ha
          cases h
          exact freed_of_allocateFrame ha
        · rename_i f a ha
          split at h
          · cases h
            exact freed_of_allocateFrame ha
          · rename_i m₁ h₁
            obtain ⟨-, halloc, -⟩ := mapTo_grown h₁
            rw [zeroEach_freed h, halloc]
            exact freed_of_allocateFrame ha
      · exact zeroEach_freed h

theorem loadSegment_freed {elf : ElfFile} {seg : ProgramHeader} {user : Bool}
    {m m' : Mem (Recorder α)} {r : Except MapToError (PageRangeInclusive × ℕ)}
    (h : loadSegment B elf seg user m = .ok (r, m')) : m'.alloc.freed = m.alloc.freed := by
  simp only [loadSegment, bind_eq_ok] at h
  obtain ⟨v, -, ⟨r₁, m₁⟩, h₁, h⟩ := h
  have hfile : m₁.alloc.freed = m.alloc.freed := by
    unfold loadFileData at h₁
    split_ifs at h₁
    · simp only [bind_eq_ok] at h₁
      obtain ⟨e, -, l, -, h₁⟩ := h₁
      exact loadEach_freed h₁
    · cases h₁
      rfl
  rcases r₁ with e | _
  · cases h
    exact hfile
  simp only [bind_eq_ok] at h
  obtain ⟨⟨r₂, m₂⟩, h₂, h⟩ := h
  have hbss : m₂.alloc.freed = m₁.alloc.freed := by
    unfold loadBss at h₂
    split_ifs at h₂
    · simp only [bind_eq_ok, pure_eq_ok] at h₂
      obtain ⟨b, -, u, -, e, -, l, -, h₂⟩ := h₂
      exact zeroEach_freed h₂
    · cases h₂
      rfl
  rcases r₂ with e | _
  · cases h
    exact hbss.trans hfile
  simp only [bind_eq_ok, pure_eq_ok] at h
  obtain ⟨e, -, l, -, h⟩ := h
  cases h
  exact hbss.trans hfile

theorem loadSegments_freed {elf : ElfFile} {user : Bool} :
    ∀ {segs : List ProgramHeader} {ranges : List PageRangeInclusive} {usage : ℕ}
      {m m' : Mem (Recorder α)} {r : Except MapToError (List PageRangeInclusive × ℕ)},
      loadSegments B elf user segs ranges usage m = .ok (r, m') → m'.alloc.freed = m.alloc.freed
  | [], ranges, usage, m, m', r, h => by
      cases h
      rfl
  | seg :: segs, ranges, usage, m, m', r, h => by
      unfold loadSegments at h
      split at h
      · cases h
      · exact loadSegments_freed h
      · split_ifs at h
        · exact loadSegments_freed h
        · simp only [bind_eq_ok] at h
          obtain ⟨⟨r₁, m₁⟩, h₁, h⟩ := h
          rcases r₁ with e | ⟨range, bytes⟩
          · cases h
            exact loadSegment_freed h₁
          · simp only [bind_eq_ok] at h
            obtain ⟨total, -, h⟩ := h
            exact (loadSegments_freed h).trans (loadSegment_freed h₁)

end Ysos
