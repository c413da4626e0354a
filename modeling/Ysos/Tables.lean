import Ysos.Heap
import Ysos.Stack

/-! # The mapper with its lower tables

`Mapper::map_to` gets the frame allocator because it may need frames itself: the tables below the
top-level one that lead to a page are made when a page needs them, one frame each, and they stay when
the call fails afterwards.  `Tabled α` is an allocator together with the set of the lower tables of the
address space, and the functions of this module are those of `Elf`, `Heap` and `Stack` over this mapper.
There are no huge pages, and `unmap` keeps the tables.

* `createTables_cases`: the tables of a page take a frame for each one that is missing.
* `mapEach_paying`: mapping is what it is for the partial map, over an allocator that pays for the
  tables of a page together with its frame.
* `mapEach_ok_iff`: mapping succeeds on free pages if there are frames for them and for all their
  missing tables (`need`).
* `mapEach_clean_iff`: a failure leaves no page mapped exactly if it comes before the first page.
* `mapEach_of_made`, `brk_of_made`: with the tables there, mapping and `brk` are those of the partial
  map. -/

namespace Ysos

open PartialMap Runs

/-! ### Counting allocations -/

section

variable {α : Type} [FrameAllocator α]

/-- The allocator after `n` calls of `allocate_frame`. -/
def spend : ℕ → α → α
  | 0, a => a
  | n + 1, a => spend n (allocateFrame a).2

theorem grants_add : ∀ {m n : ℕ} {a : α}, Grants (m + n) a ↔ Grants m a ∧ Grants n (spend m a)
  | 0, n, a => by
      rw [Nat.zero_add]
      exact (and_iff_right trivial).symm
  | m + 1, n, a => by
      rw [Nat.add_right_comm]
      exact (and_congr_right fun _ => grants_add).trans and_assoc.symm

theorem spend_add : ∀ {m n : ℕ} {a : α}, spend (m + n) a = spend n (spend m a)
  | 0, n, a => by
      rw [Nat.zero_add]
      rfl
  | m + 1, n, a => by
      rw [Nat.add_right_comm]
      exact spend_add (m := m)

theorem BootInfoFrameAllocator.free_spend : ∀ {n : ℕ} {a : BootInfoFrameAllocator},
    (spend n a).free.length = a.free.length - n
  | 0, _ => rfl
  | n + 1, a => by
      rw [spend, free_spend]
      rcases ha : allocateFrame a with ⟨_ | f, b⟩
      · obtain ⟨hfree, rfl⟩ := free_of_none ha
        simp [hfree]
      · rw [free_of_some ha, List.length_cons, Nat.add_sub_add_right]

end

/-! ### Lower tables -/

/-- A table below the top-level one: its level, and which one of the level it is. -/
structure TableId where
  level : ℕ
  index : ℕ
deriving DecidableEq, Repr

/-- The entries of a table. -/
def ENTRIES : ℕ := 512

/-- The lower tables that lead to a page. -/
def path (p : ℕ) : List TableId :=
  [⟨3, p / ENTRIES ^ 3⟩, ⟨2, p / ENTRIES ^ 2⟩, ⟨1, p / ENTRIES⟩]

/-- The lower tables of some pages. -/
def tablesOf (ps : List ℕ) : List TableId := ps.flatMap path

/-- The tables after these were made. -/
def made (L : TableId → Bool) (ts : List TableId) : TableId → Bool := fun t => L t || decide (t ∈ ts)

/-- How many of the tables there are not yet. -/
def missing (ts : List TableId) (L : TableId → Bool) : ℕ := (ts.toFinset.filter fun t => L t = false).card

/-- The frames for some pages and for all their missing tables. -/
def need (ps : List ℕ) (L : TableId → Bool) : ℕ := ps.length + missing (tablesOf ps) L

variable {L : TableId → Bool} {ts us : List TableId} {t : TableId} {p : ℕ} {ps qs : List ℕ}

theorem made_append : made L (ts ++ us) = made (made L ts) us := by
  funext t
  simp [made, Bool.or_assoc]

theorem made_cons_of_mem (h : L t = true) : made L (t :: ts) = made L ts := by
  funext u
  by_cases hu : u = t
  · simp [made, hu, h]
  · simp [made, hu]

theorem made_cons : made L (t :: ts) = made (Function.update L t true) ts := by
  funext u
  by_cases hu : u = t
  · simp [made, hu]
  · simp [made, hu]

/-- The tables of the second list that are in the first one need not be made again. -/
theorem missing_append : missing (ts ++ us) L = missing ts L + missing us (made L ts) := by
  rw [missing, missing, missing, ← Finset.card_union_of_disjoint]
  · congr 1
    ext t
    simp only [made, List.toFinset_append, Finset.mem_filter, Finset.mem_union, List.mem_toFinset,
      Bool.or_eq_false_iff, decide_eq_false_iff_not]
    tauto
  · rw [Finset.disjoint_left]
    intro t ht hu
    simp only [made, Finset.mem_filter, List.mem_toFinset, Bool.or_eq_false_iff,
      decide_eq_false_iff_not] at ht hu
    exact hu.2.2 ht.1

theorem missing_cons_of_mem (h : L t = true) : missing (t :: ts) L = missing ts L := by
  have hone : missing [t] L = 0 := by simp [missing, Finset.filter_singleton, h]
  have hmade : made L [t] = L := by
    rw [made_cons_of_mem h]
    funext u
    simp [made]
  rw [show t :: ts = [t] ++ ts from rfl, missing_append, hone, hmade, Nat.zero_add]

theorem missing_cons (h : L t = false) :
    missing (t :: ts) L = missing ts (Function.update L t true) + 1 := by
  have hone : missing [t] L = 1 := by simp [missing, Finset.filter_singleton, h]
  have hmade : made L [t] = Function.update L t true := by
    rw [made_cons]
    funext u
    simp [made]
  rw [show t :: ts = [t] ++ ts from rfl, missing_append, hone, hmade, Nat.add_comm]

theorem missing_of_made (h : ∀ t ∈ ts, L t = true) : missing ts L = 0 := by
  rw [missing, Finset.card_eq_zero, Finset.filter_eq_empty_iff]
  intro t ht
  simp [h t (List.mem_toFinset.mp ht)]

theorem need_append : need (ps ++ qs) L = need ps L + need qs (made L (tablesOf ps)) := by
  rw [need, need, need, tablesOf, List.flatMap_append, ← tablesOf, ← tablesOf, missing_append,
    List.length_append]
  omega

theorem need_cons (p : ℕ) (ps : List ℕ) :
    need (p :: ps) L = need [p] L + need ps (made L (path p)) := by
  have hpath : tablesOf [p] = path p := by simp [tablesOf]
  have happend : need ([p] ++ ps) L = need [p] L + need ps (made L (tablesOf [p])) := need_append
  rwa [hpath] at happend

theorem need_singleton : need [p] L = 1 + missing (path p) L := by
  simp [need, tablesOf]

theorem length_le_need : ps.length ≤ need ps L := Nat.le_add_right _ _

theorem length_tablesOf (ps : List ℕ) : (tablesOf ps).length = 3 * ps.length := by
  induction ps with
  | nil => rfl
  | cons p ps ih =>
      have hcons : tablesOf (p :: ps) = path p ++ tablesOf ps := rfl
      have hpath : (path p).length = 3 := rfl
      rw [hcons, List.length_append, ih, hpath, List.length_cons]
      omega

/-- No page needs more than four frames. -/
theorem need_le : need ps L ≤ 4 * ps.length := by
  have hcard : missing (tablesOf ps) L ≤ (tablesOf ps).length :=
    (Finset.card_filter_le _ _).trans (List.toFinset_card_le _)
  rw [length_tablesOf] at hcard
  rw [need]
  omega

/-- With all the tables of the pages there, only the pages take frames. -/
theorem need_of_made (h : ∀ t ∈ tablesOf ps, L t = true) : need ps L = ps.length := by
  rw [need, missing_of_made h, Nat.add_zero]

/-! ### Mapping -/

/-- An allocator, and which of the lower tables of the address space there are. -/
structure Tabled (α : Type) where
  frames : α
  lower : TableId → Bool

variable {α : Type} [FrameAllocator α]

instance : FrameAllocator (Tabled α) where
  allocateFrame a := ((allocateFrame a.frames).1, { a with frames := (allocateFrame a.frames).2 })
  deallocateFrame a f := { a with frames := deallocateFrame a.frames f }

namespace Tabled

theorem allocateFrame_eq (a : Tabled α) :
    allocateFrame a = ((allocateFrame a.frames).1, { a with frames := (allocateFrame a.frames).2 }) := rfl

/-- `create_next_table` for one table after the other. -/
def createTables : List TableId → Tabled α → Except MapToError Unit × Tabled α
  | [], a => (.ok (), a)
  | t :: ts, a =>
      if a.lower t = true then createTables ts a
      else
        match allocateFrame a.frames with
        | (none, frames) => (.error .frameAllocationFailed, { a with frames := frames })
        | (some _, frames) => createTables ts ⟨frames, Function.update a.lower t true⟩

/-- `Mapper::map_to`. -/
def mapTo (m : Mem (Tabled α)) (p : ℕ) (f : Frame) (flags : PageTableFlags) :
    Except MapToError Unit × Mem (Tabled α) :=
  match createTables (path p) m.alloc with
  | (.error e, a) => (.error e, { m with alloc := a })
  | (.ok (), a) =>
      match m.table p with
      | some e => (.error (.pageAlreadyMapped e.frame), { m with alloc := a })
      | none => (.ok (), { m with table := Function.update m.table p (some ⟨f, flags⟩), alloc := a })

/-- The loop of `map_range`. -/
def mapEach (flags : PageTableFlags) : List ℕ → Mem (Tabled α) → Except MapToError Unit × Mem (Tabled α)
  | [], m => (.ok (), m)
  | p :: ps, m =>
      match allocateFrame m.alloc with
      | (none, a) => (.error .frameAllocationFailed, { m with alloc := a })
      | (some f, a) =>
          match mapTo { m with alloc := a } p f flags with
          | (.error e, m') => (.error e, m')
          | (.ok (), m') => mapEach flags ps m'

def mapRange (r : PageRangeInclusive) (user : Bool) (m : Mem (Tabled α)) :
    Except MapToError Unit × Mem (Tabled α) :=
  mapEach { writable := true, userAccessible := user, noExecute := false } r.pages m

def mapPages (B : Build) (addr pages : ℕ) (user : Bool) (m : Mem (Tabled α)) :
    Except Panic (Except MapToError PageRange × Mem (Tabled α)) := do
  B.debugAssert (decide (0 < pages))
  let rangeStart := pageOf (← virtAddrNew addr)
  let rangeEnd ← B.pageAdd rangeStart pages
  let last ← B.pageSub rangeEnd 1
  match mapRange ⟨rangeStart, last⟩ user m with
  | (.error e, m') => return (.error e, m')
  | (.ok (), m') => return (.ok ⟨rangeStart, rangeEnd⟩, m')

/-- `Heap::brk`. -/
def brk (newEnd : Option ℕ) (v : Vm (Tabled α)) : Option ℕ × Vm (Tabled α) :=
  match newEnd with
  | none => (some v.space.heapEnd, v)
  | some e =>
      if HEAP_START + HEAP_SIZE < e ∨ e < HEAP_START then (none, v)
      else
        let curEndPage := Heap.endPage v.space.heapEnd
        let newEndPage := Heap.endPage e
        if curEndPage < newEndPage then
          match mapRange ⟨curEndPage, newEndPage - 1⟩ true v.mem with
          | (.error _, m) => (none, v.setMem m)
          | (.ok (), m) => (some e, (v.setMem m).setHeapEnd e)
        else if newEndPage < curEndPage then
          match unmapRange ⟨newEndPage, curEndPage - 1⟩ v.mem with
          | (.error _, m) => (none, v.setMem m)
          | (.ok (), m) => (some e, (v.setMem m).setHeapEnd e)
        else (some e, v.setHeapEnd e)

/-- The loop of `Stack::vfork`. -/
def probe (B : Build) (usage : ℕ) : ℕ → ℕ → Mem (Tabled α) → Except Panic (ℕ × Mem (Tabled α))
  | 0, _, _ => .error .outOfProbes
  | n + 1, base, m => do
      match ← mapPages B base usage true m with
      | (.ok _, m') => return (base, m')
      | (.error _, m') => probe B usage n (← B.sub base STACK_MAX_SIZE) m'

/-- `Stack::vfork`. -/
def vfork (B : Build) (st : Stack) (childCount : ℕ) (m : Mem (Tabled α)) :
    Except Panic (Stack × Mem (Tabled α)) := do
  let shift ← B.mul childCount STACK_MAX_SIZE
  let base ← B.sub st.bottom shift
  let (newBase, m') ← probe B st.usage PROBES base m
  let m'' := Stack.copyPages st.range.start (pageOf newBase) st.usage m'
  let newStart := pageOf (← virtAddrNew newBase)
  let newEnd ← B.pageAdd newStart st.usage
  return ({ range := ⟨newStart, newEnd⟩, usage := st.usage }, m'')

end Tabled

/-- Where the probe of `vfork` starts. -/
def Stack.firstBase (B : Build) (st : Stack) (childCount : ℕ) : Except Panic ℕ := do
  let shift ← B.mul childCount STACK_MAX_SIZE
  B.sub st.bottom shift

namespace Tabled

/-! ### What the tables of a page take -/

/-- The missing tables are made, each from a frame, or the frames run out. -/
theorem createTables_cases : ∀ (ts : List TableId) (a : Tabled α),
    Grants (missing ts a.lower) a.frames ∧ createTables ts a =
        (.ok (), ⟨spend (missing ts a.lower) a.frames, made a.lower ts⟩) ∨
      ¬ Grants (missing ts a.lower) a.frames ∧
        ∃ a', createTables ts a = (.error .frameAllocationFailed, a')
  | [], a => by
      have hmade : made a.lower [] = a.lower := funext fun t => by simp [made]
      rw [hmade]
      exact Or.inl ⟨trivial, rfl⟩
  | t :: ts, a => by
      unfold createTables
      by_cases ht : a.lower t = true
      · rw [if_pos ht, missing_cons_of_mem ht, made_cons_of_mem ht]
        exact createTables_cases ts a
      · rw [if_neg ht, missing_cons (Bool.eq_false_iff.mpr ht), made_cons]
        rcases hf : allocateFrame a.frames with ⟨_ | f, frames⟩
        · exact Or.inr ⟨fun hg => hg.1 (by rw [hf]), _, rfl⟩
        · have hgrants : Grants (missing ts (Function.update a.lower t true) + 1) a.frames ↔
              Grants (missing ts (Function.update a.lower t true)) frames := by
            rw [Grants, hf]
            exact and_iff_right nofun
          have hspend : spend (missing ts (Function.update a.lower t true) + 1) a.frames =
              spend (missing ts (Function.update a.lower t true)) frames := by
            rw [spend, hf]
          rw [hgrants, hspend]
          exact createTables_cases ts ⟨frames, Function.update a.lower t true⟩

/-- When making tables fails, the kernel's allocator has no frame left. -/
theorem free_of_createTables_error {e : MapToError} : ∀ {ts : List TableId}
    {a a' : Tabled BootInfoFrameAllocator}, createTables ts a = (.error e, a') → a'.frames.free = []
  | [], _, _, h => by cases h
  | t :: ts, a, a', h => by
      unfold createTables at h
      split_ifs at h
      · exact free_of_createTables_error h
      · rcases ha : allocateFrame a.frames with ⟨_ | f, frames⟩
        · rw [ha] at h
          cases h
          obtain ⟨hfree, rfl⟩ := BootInfoFrameAllocator.free_of_none ha
          exact hfree
        · rw [ha] at h
          exact free_of_createTables_error h

theorem createTables_of_made {ts : List TableId} {a : Tabled α} (h : ∀ t ∈ ts, a.lower t = true) :
    createTables ts a = (.ok (), a) := by
  induction ts with
  | nil => rfl
  | cons t ts ih =>
      rw [createTables, if_pos (h t List.mem_cons_self)]
      exact ih fun u hu => h u (List.mem_cons_of_mem _ hu)

/-! ### The partial map with an allocator that pays for the tables -/

end Tabled

/-- An allocator for the pages of a list, that makes the tables of the next page when it is asked for a
frame. -/
structure Paying (α : Type) where
  todo : List ℕ
  tabled : Tabled α

namespace Tabled

/-- A frame for a page, and then its tables. -/
def allocatePage (p : ℕ) (a : Tabled α) : Option Frame × Tabled α :=
  match allocateFrame a with
  | (none, a) => (none, a)
  | (some f, a) =>
      match createTables (path p) a with
      | (.error _, a) => (none, a)
      | (.ok (), a) => (some f, a)

end Tabled

instance : FrameAllocator (Paying α) where
  allocateFrame a :=
    match a.todo with
    | [] => ((allocateFrame a.tabled).1, ⟨[], (allocateFrame a.tabled).2⟩)
    | p :: todo => ((a.tabled.allocatePage p).1, ⟨todo, (a.tabled.allocatePage p).2⟩)
  deallocateFrame a f := { a with tabled := deallocateFrame a.tabled f }

namespace Tabled

/-- The memory with an allocator that pays for the tables of these pages. -/
def paying (ps : List ℕ) (m : Mem (Tabled α)) : Mem (Paying α) := ⟨m.table, ⟨ps, m.alloc⟩, m.phys⟩

/-- The memory without it. -/
def paid (m : Mem (Paying α)) : Mem (Tabled α) := ⟨m.table, m.alloc.tabled, m.phys⟩

theorem allocatePage_cases (p : ℕ) (a : Tabled α) :
    Grants (need [p] a.lower) a.frames ∧ (∃ f, allocatePage p a =
        (some f, ⟨spend (need [p] a.lower) a.frames, made a.lower (path p)⟩)) ∨
      ¬ Grants (need [p] a.lower) a.frames ∧ ∃ a', allocatePage p a = (none, a') := by
  rw [need_singleton, Nat.add_comm, Grants, spend]
  unfold allocatePage
  rcases hf : allocateFrame a.frames with ⟨_ | f, frames⟩
  · rw [allocateFrame_eq, hf]
    exact Or.inr ⟨fun h => h.1 rfl, _, rfl⟩
  · rw [allocateFrame_eq, hf]
    rcases createTables_cases (path p) { a with frames := frames } with ⟨hg, hc⟩ | ⟨hg, a', hc⟩
    · exact Or.inl ⟨⟨nofun, hg⟩, f, by simp only [hc]⟩
    · exact Or.inr ⟨fun h => hg h.2, a', by simp only [hc]⟩

theorem free_of_allocatePage_none {p : ℕ} {a a' : Tabled BootInfoFrameAllocator}
    (h : a.allocatePage p = (none, a')) : a'.frames.free = [] := by
  unfold allocatePage at h
  rw [allocateFrame_eq] at h
  rcases ha : allocateFrame a.frames with ⟨_ | f, frames⟩
  · rw [ha] at h
    cases h
    obtain ⟨hfree, rfl⟩ := BootInfoFrameAllocator.free_of_none ha
    exact hfree
  · rw [ha] at h
    rcases hc : createTables (path p) { a with frames := frames } with ⟨e | _, b⟩
    · simp only [hc] at h
      cases h
      exact free_of_createTables_error hc
    · simp only [hc] at h
      cases h

/-- Frames for the pages and their missing tables are what the paying allocator needs. -/
theorem grants_paying : ∀ {ps : List ℕ} {a : Tabled α},
    Grants ps.length (⟨ps, a⟩ : Paying α) ↔ Grants (need ps a.lower) a.frames
  | [], a => by
      have hnil : need [] a.lower = 0 := need_of_made fun t ht => absurd ht List.not_mem_nil
      rw [hnil]
      exact Iff.rfl
  | p :: ps, a => by
      have hstep : Grants (p :: ps).length (⟨p :: ps, a⟩ : Paying α) ↔
          (a.allocatePage p).1 ≠ none ∧ Grants ps.length (⟨ps, (a.allocatePage p).2⟩ : Paying α) := Iff.rfl
      rw [hstep, need_cons, grants_add]
      rcases allocatePage_cases p a with ⟨hg, f, hp⟩ | ⟨hg, a', hp⟩
      · rw [hp, and_iff_right hg, and_iff_right nofun]
        exact grants_paying
      · rw [hp]
        exact iff_of_false (fun h => h.1 rfl) fun h => hg h.1

/-- A round of `map_range`: the page gets its frame and its tables, and then it may be mapped already. -/
theorem mapEach_cons {flags : PageTableFlags} (p : ℕ) (ps : List ℕ) (m : Mem (Tabled α)) :
    mapEach flags (p :: ps) m =
      match m.alloc.allocatePage p with
      | (none, a) => (.error .frameAllocationFailed, { m with alloc := a })
      | (some f, a) =>
          match m.table p with
          | some e => (.error (.pageAlreadyMapped e.frame), { m with alloc := a })
          | none => mapEach flags ps ⟨Function.update m.table p (some ⟨f, flags⟩), a, m.phys⟩ := by
  rw [mapEach]
  unfold allocatePage
  rcases allocateFrame m.alloc with ⟨_ | f, a⟩
  · rfl
  · simp only [mapTo]
    rcases createTables_cases (path p) a with ⟨-, hc⟩ | ⟨-, a', hc⟩
    · rw [hc]
      cases m.table p <;> rfl
    · rw [hc]

/-- **Mapping with lower tables.**  This is mapping in the partial map, over an allocator that makes the
tables of each page before it gives the frame. -/
theorem mapEach_paying {flags : PageTableFlags} : ∀ {ps : List ℕ} {m : Mem (Tabled α)},
    mapEach flags ps m =
      ((Ysos.mapEach flags ps (paying ps m)).1, paid (Ysos.mapEach flags ps (paying ps m)).2)
  | [], m => rfl
  | p :: ps, m => by
      have halloc : allocateFrame (paying (p :: ps) m).alloc =
          ((m.alloc.allocatePage p).1, ⟨ps, (m.alloc.allocatePage p).2⟩) := rfl
      rw [mapEach_cons, Ysos.mapEach, halloc]
      rcases m.alloc.allocatePage p with ⟨_ | f, a⟩
      · rfl
      · have htable : (paying (p :: ps) m).table p = m.table p := rfl
        simp only [Mem.mapTo, htable]
        cases m.table p with
        | some e => rfl
        | none => exact mapEach_paying

/-- With the tables of the pages there, nothing differs from the partial map. -/
theorem mapEach_of_made {flags : PageTableFlags} : ∀ {ps : List ℕ} {m : Mem (Tabled α)},
    (∀ t ∈ tablesOf ps, m.alloc.lower t = true) → mapEach flags ps m = Ysos.mapEach flags ps m
  | [], m, _ => rfl
  | p :: ps, m, h => by
      have hpath : ∀ t ∈ path p, (allocateFrame m.alloc).2.lower t = true := fun t ht =>
        h t (List.mem_append_left _ ht)
      have hrest : ∀ t ∈ tablesOf ps, (allocateFrame m.alloc).2.lower t = true := fun t ht =>
        h t (List.mem_append_right (path p) ht)
      have hpage : m.alloc.allocatePage p = allocateFrame m.alloc := by
        unfold allocatePage
        rcases ha : allocateFrame m.alloc with ⟨_ | f, a⟩
        · rfl
        · rw [ha] at hpath
          simp only [createTables_of_made hpath]
      rw [mapEach_cons, Ysos.mapEach, hpage]
      rcases ha : allocateFrame m.alloc with ⟨_ | f, a⟩
      · rfl
      · rw [ha] at hrest
        simp only [Mem.mapTo]
        cases m.table p with
        | some e => rfl
        | none => exact mapEach_of_made hrest

/-! ### What mapping does to the page table -/

section

variable {flags : PageTableFlags} {m m' : Mem (Tabled α)} {e : MapToError}

theorem mapEach_ok (h : mapEach flags ps m = (.ok (), m')) : Grown m.table {p | p ∈ ps} m'.table := by
  rw [mapEach_paying] at h
  obtain ⟨hr, rfl⟩ := Prod.mk.inj h
  exact Ysos.mapEach_ok (m := paying ps m) (Prod.ext hr rfl)

theorem mapEach_error (h : mapEach flags ps m = (.error e, m')) :
    ∃ qs p rest, ps = qs ++ p :: rest ∧ Grown m.table {q | q ∈ qs} m'.table := by
  rw [mapEach_paying] at h
  obtain ⟨hr, rfl⟩ := Prod.mk.inj h
  exact Ysos.mapEach_error (m := paying ps m) (Prod.ext hr rfl)

theorem mapEach_grown (flags : PageTableFlags) (ps : List ℕ) (m : Mem (Tabled α)) :
    ∃ S : Set ℕ, Grown m.table S (mapEach flags ps m).2.table ∧ ∀ p ∈ S, p ∈ ps := by
  rw [mapEach_paying]
  exact Ysos.mapEach_grown flags ps (paying ps m)

/-- Mapping distinct pages succeeds if they are free and there are frames for them and for their missing
tables. -/
theorem mapEach_ok_iff (hnd : ps.Nodup) : (∃ m', mapEach flags ps m = (.ok (), m')) ↔
    (∀ p ∈ ps, m.table p = none) ∧ Grants (need ps m.alloc.lower) m.alloc.frames := by
  rw [← grants_paying, mapEach_paying]
  constructor
  · rintro ⟨m', h⟩
    exact mapsWhole_of_ok (m := paying ps m) (Prod.ext (Prod.mk.inj h).1 rfl)
  · rintro ⟨hfree, hg⟩
    obtain ⟨m', h⟩ : ∃ m', Ysos.mapEach flags ps (paying ps m) = (.ok (), m') :=
      mapEach_of_free hfree hnd hg
    exact ⟨paid m', by rw [h]⟩

end

/-! ### Mapping whole ranges -/

/-- Mapping these pages stops before the first of them: it is mapped, or there are no frames for it and
its missing tables. -/
def Blocked (ps : List ℕ) (m : Mem (Tabled α)) : Prop :=
  ∃ p ∈ ps.head?, m.table p ≠ none ∨ ¬ Grants (need [p] m.alloc.lower) m.alloc.frames

/-- Mapping these pages stops before the first of them or goes through: all the pages are free and there
are frames for them and for their missing tables. -/
def MapsWhole (ps : List ℕ) (m : Mem (Tabled α)) : Prop :=
  Blocked ps m ∨ (∀ p ∈ ps, m.table p = none) ∧ Grants (need ps m.alloc.lower) m.alloc.frames

/-- The memory after an attempt that stopped before the first page: frames are gone, and tables may have
been made. -/
def blockedAt (ps : List ℕ) (m : Mem (Tabled α)) : Mem (Tabled α) :=
  { m with alloc := ps.head?.elim m.alloc fun p => (m.alloc.allocatePage p).2 }

theorem blocked_paying (hne : ps ≠ []) {m : Mem (Tabled α)} :
    Ysos.Blocked ps (paying ps m) ↔ Blocked ps m := by
  obtain ⟨p, ps, rfl⟩ := List.exists_cons_of_ne_nil hne
  have halloc : (allocateFrame (paying (p :: ps) m).alloc).1 = (m.alloc.allocatePage p).1 := rfl
  simp only [Ysos.Blocked, Blocked, halloc, List.head?_cons, Option.mem_some_iff, exists_eq_left']
  rw [or_comm]
  refine or_congr Iff.rfl ?_
  rcases allocatePage_cases p m.alloc with ⟨hg, f, hp⟩ | ⟨hg, a', hp⟩
  · rw [hp]
    exact iff_of_false (Option.some_ne_none f) fun h => h hg
  · rw [hp]
    exact iff_of_true rfl hg

theorem mapsWhole_paying {m : Mem (Tabled α)} : Ysos.MapsWhole ps (paying ps m) ↔ MapsWhole ps m := by
  rw [Ysos.MapsWhole, MapsWhole]
  have hgrants : Grants ps.length (paying ps m).alloc ↔ Grants (need ps m.alloc.lower) m.alloc.frames :=
    grants_paying
  rw [hgrants]
  rcases eq_or_ne ps [] with rfl | hne
  · have hfree : ∀ p ∈ ([] : List ℕ), m.table p = none := nofun
    have hg : Grants (need [] m.alloc.lower) m.alloc.frames := hgrants.mp trivial
    exact iff_of_true (Or.inr ⟨hfree, hg⟩) (Or.inr ⟨hfree, hg⟩)
  · rw [blocked_paying hne]
    exact Iff.rfl

variable {flags : PageTableFlags} {m m' : Mem (Tabled α)} {e : MapToError}

/-- **When mapping is all or nothing.**  A failure leaves no page mapped exactly if it comes before the
first page. -/
theorem mapEach_clean_iff (flags : PageTableFlags) (hnd : ps.Nodup) :
    (∀ e m', mapEach flags ps m = (.error e, m') → ∀ p, m'.table p ≠ none → m.table p ≠ none) ↔
      MapsWhole ps m := by
  have hpaying : (∀ e m', Ysos.mapEach flags ps (paying ps m) = (.error e, m') →
      ∀ p, m'.table p ≠ none → m.table p ≠ none) ↔ Ysos.MapsWhole ps (paying ps m) :=
    Ysos.mapEach_clean_iff hnd
  rw [← mapsWhole_paying, ← hpaying, mapEach_paying]
  constructor
  · intro h e m' hm
    exact h e (paid m') (by rw [hm])
  · intro h e m' hm
    obtain ⟨hr, rfl⟩ := Prod.mk.inj hm
    exact h e _ (Prod.ext hr rfl)

/-- Mapping that fails without a trace in the page table has stopped before the first page. -/
theorem blocked_of_error (h : mapEach flags ps m = (.error e, m'))
    (htable : ∀ p, m'.table p ≠ none → m.table p ≠ none) :
    ps ≠ [] ∧ Blocked ps m ∧ m' = blockedAt ps m := by
  rw [mapEach_paying] at h
  obtain ⟨hr, rfl⟩ := Prod.mk.inj h
  obtain ⟨hne, hblocked, hm⟩ := Ysos.blocked_of_error (m := paying ps m) (Prod.ext hr rfl) htable
  refine ⟨hne, (blocked_paying hne).mp hblocked, ?_⟩
  obtain ⟨p, ps, rfl⟩ := List.exists_cons_of_ne_nil hne
  exact congrArg paid hm

theorem mapEach_blocked (h : Blocked ps m) : ∃ e, mapEach flags ps m = (.error e, blockedAt ps m) := by
  obtain ⟨p, hp, -⟩ := id h
  obtain ⟨ps, rfl⟩ : ∃ qs, ps = p :: qs := by
    obtain ⟨qs, hqs⟩ := List.head?_eq_some_iff.mp hp
    exact ⟨qs, hqs⟩
  have hb := (blocked_paying (List.cons_ne_nil p ps)).mpr h
  obtain ⟨e, he⟩ : ∃ e, Ysos.mapEach flags (p :: ps) (paying (p :: ps) m) = (.error e, _) :=
    Ysos.mapEach_blocked (by simpa [Ysos.Blocked] using hb)
  exact ⟨e, by rw [mapEach_paying, he]; rfl⟩

/-! ### The heap -/

section

variable {v : Vm (Tabled α)} {newEnd : Option ℕ}

/-- Where the heap grows, `brk` maps the pages between the ends. -/
theorem brk_grow {e : ℕ} (he : Heap.InHeap e) (hlt : Heap.endPage v.space.heapEnd < Heap.endPage e) :
    brk (some e) v =
      match mapEach (stackFlags true)
        (PageRange.mk (Heap.endPage v.space.heapEnd) (Heap.endPage e)).pages v.mem with
      | (.error _, m) => (none, v.setMem m)
      | (.ok (), m) => (some e, (v.setMem m).setHeapEnd e) := by
  have hrange : ¬ (HEAP_START + HEAP_SIZE < e ∨ e < HEAP_START) := by
    rw [not_or, not_lt, not_lt]
    exact ⟨he.2, he.1⟩
  simp only [brk, if_neg hrange, if_pos hlt, mapRange,
    PageRangeInclusive.pages_pred (Nat.zero_lt_of_lt hlt)]

/-- Where it does not, no table is needed. -/
theorem brk_of_not_grow
    (h : ∀ e ∈ newEnd, Heap.InHeap e → ¬ Heap.endPage v.space.heapEnd < Heap.endPage e) :
    brk newEnd v = Heap.brk newEnd v := by
  rcases newEnd with _ | e
  · rfl
  · by_cases hrange : HEAP_START + HEAP_SIZE < e ∨ e < HEAP_START
    · simp only [brk, Heap.brk, if_pos hrange]
    · have hlt : ¬ Heap.endPage v.space.heapEnd < Heap.endPage e := by
        rw [not_or, not_lt, not_lt] at hrange
        exact h e rfl ⟨hrange.2, hrange.1⟩
      simp only [brk, Heap.brk, if_neg hrange, if_neg hlt]
      rcases unmapRange ⟨Heap.endPage e, Heap.endPage v.space.heapEnd - 1⟩ v.mem with ⟨_ | _, m⟩ <;> rfl

theorem brk_mapped (h : ∀ e ∈ newEnd, Heap.InHeap e → ¬ Heap.endPage v.space.heapEnd < Heap.endPage e)
    {p : ℕ} (hp : (brk newEnd v).2.space.table p ≠ none) : v.space.table p ≠ none := by
  rw [brk_of_not_grow h] at hp
  have hout := Heap.brk_outcome newEnd v
  generalize Heap.brk newEnd v = out at hp hout
  cases hout with
  | query => exact hp
  | outOfRange => exact hp
  | stay => exact hp
  | map he hlt => exact absurd hlt (h _ rfl he)
  | mapFails he hlt => exact absurd hlt (h _ rfl he)
  | @unmap e m he hlt hm =>
      have hlast : (unmapEach (PageRange.mk (Heap.endPage e) (Heap.endPage v.space.heapEnd)).pages
          v.mem).2.table p ≠ none := by
        rw [hm]
        exact hp
      exact unmapEach_mapped hlast
  | @unmapFails e m er he hlt hm =>
      have hlast : (unmapEach (PageRange.mk (Heap.endPage e) (Heap.endPage v.space.heapEnd)).pages
          v.mem).2.table p ≠ none := by
        rw [hm]
        exact hp
      exact unmapEach_mapped hlast

/-- With the tables of its pages there, `brk` is that of the partial map. -/
theorem brk_of_made (h : ∀ e ∈ newEnd, ∀ t ∈ tablesOf
      (PageRange.mk (Heap.endPage v.space.heapEnd) (Heap.endPage e)).pages, v.alloc.lower t = true) :
    brk newEnd v = Heap.brk newEnd v := by
  rcases newEnd with _ | e
  · rfl
  · have hmap : Heap.endPage v.space.heapEnd < Heap.endPage e →
        mapRange ⟨Heap.endPage v.space.heapEnd, Heap.endPage e - 1⟩ true v.mem =
          Ysos.mapRange ⟨Heap.endPage v.space.heapEnd, Heap.endPage e - 1⟩ true v.mem := fun hlt => by
      have hpages := PageRangeInclusive.pages_pred (a := Heap.endPage v.space.heapEnd) (Nat.zero_lt_of_lt hlt)
      rw [mapRange, Ysos.mapRange, hpages]
      exact mapEach_of_made (h e rfl)
    simp only [brk, Heap.brk]
    split_ifs with hrange hlt
    · rfl
    · rw [hmap hlt]
      rcases Ysos.mapRange ⟨Heap.endPage v.space.heapEnd, Heap.endPage e - 1⟩ true v.mem
        with ⟨_ | _, m⟩ <;> rfl
    · rcases unmapRange ⟨Heap.endPage e, Heap.endPage v.space.heapEnd - 1⟩ v.mem with ⟨_ | _, m⟩ <;> rfl
    · rfl

end

end Tabled

end Ysos
