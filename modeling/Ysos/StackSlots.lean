import Ysos.Stack

/-! # User stacks never overlap

The stacks that processes sharing a page table hold at the same time, with the four operations
that change them: `Stack::init`, a page fault on a page that is not present, `Stack::vfork`
with any number of children, and `Stack::clean_up`.

`Stack.Placed` says that a stack ends at the top of a slot, starts in that slot and is mapped;
`Apart` is the invariant: every stack is placed, and no two are in the same slot.  It rests on
the mapper: the pages that a new stack maps include the top page of its slot
(`Placed.slot_ne`), and growth keeps the top. -/

namespace Ysos

open PartialMap Runs

variable {α : Type} [FrameAllocator α] (B : Build)

/-! ### The operations on the stacks of one address space -/

/-- The stacks in use, and the memory they live in. -/
structure StackSpace (α : Type) where
  mem : Mem α
  live : List Stack

inductive StackOp where
  | init
  | pageFault (i addr : ℕ) (user : Bool)
  | vfork (i childCount : ℕ)
  | cleanUp (i : ℕ)
deriving DecidableEq, Repr

/-- One operation.  The processor raises page faults at canonical addresses only, and the
handler looks at the stack only if the page is not present. -/
def StackSpace.step (s : StackSpace α) : StackOp → Except Panic (StackSpace α × Unit)
  | .init => do
      let (st, m) ← Stack.empty.init B s.mem
      return ({ mem := m, live := s.live ++ [st] }, ())
  | .pageFault i addr user =>
      match s.live[i]? with
      | none => .ok (s, ())
      | some st =>
          if canonical addr && (s.mem.table (pageOf addr)).isNone then do
            let (_, st', m) ← st.handlePageFault B addr user s.mem
            return ({ mem := m, live := s.live.set i st' }, ())
          else .ok (s, ())
  | .vfork i childCount =>
      match s.live[i]? with
      | none => .ok (s, ())
      | some st => do
          let (st', m) ← st.vfork B childCount s.mem
          return ({ mem := m, live := s.live ++ [st'] }, ())
  | .cleanUp i =>
      match s.live[i]? with
      | none => .ok (s, ())
      | some st => do
          let (_, _, m) ← st.cleanUp B s.mem
          return ({ mem := m, live := s.live.eraseIdx i }, ())

/-- The stack lies in the area for user stacks. -/
def Stack.InArea (st : Stack) : Prop := STACK_AREA_BOT ≤ st.bottom ∧ st.bottom < STACK_MAX

/-! ### Placed stacks -/

/-- The number of the slot that a stack starts in. -/
def Stack.slot (st : Stack) : ℕ := st.range.start / STACK_MAX_PAGES

/-- The stack ends at the top of a slot below `STACK_MAX`, starts in it, and is mapped. -/
structure Stack.Placed (st : Stack) (T : PageTable) : Prop extends st.Sized where
  top : st.range.stop = (st.slot + 1) * STACK_MAX_PAGES
  below : st.range.stop ≤ pageOf STACK_MAX
  mapped : ∀ p ∈ st.range.pages, T p ≠ none

namespace Stack.Placed

variable {B} {st st' : Stack} {T T' : PageTable}

theorem topPage_mem (h : st.Placed T) : (st.slot + 1) * STACK_MAX_PAGES - 1 ∈ st.range.pages := by
  have h1 := h.start_lt
  have h2 := h.top
  rw [PageRange.mem_pages]
  omega

/-- A stack stays placed while its own pages stay mapped. -/
theorem congr (h : st.Placed T) (hk : ∀ p ∈ st.range.pages, T p ≠ none → T' p ≠ none) :
    st.Placed T' :=
  ⟨h.toSized, h.top, h.below, fun p hp => hk p hp (h.mapped p hp)⟩

theorem grown (h : st.Placed T) {S : Set ℕ} (hS : Grown T S T') : st.Placed T' := by
  refine h.congr fun p _ hp => ?_
  obtain ⟨e, he⟩ := Option.ne_none_iff_exists'.mp hp
  simp [hS.keeps he]

/-- Pages that were free before a placed stack was mapped are not the pages of another one in
the same slot: both would hold the top page of the slot. -/
theorem slot_ne (h : st.Placed T) (h' : st'.Placed T') (hfree : ∀ p ∈ st'.range.pages, T p = none) :
    st.slot ≠ st'.slot := by
  intro he
  have htop := h.topPage_mem
  rw [he] at htop
  exact h.mapped _ htop (hfree _ h'.topPage_mem)

theorem pages_disjoint (h : st.Placed T) (h' : st'.Placed T') (hne : st.slot ≠ st'.slot) :
    ∀ p ∈ st.range.pages, p ∉ st'.range.pages := by
  intro p hp hp'
  rw [PageRange.mem_pages, h.top] at hp
  rw [PageRange.mem_pages, h'.top] at hp'
  simp only [slot, STACK_MAX_PAGES] at *
  omega

/-- **No underflow in `grow_stack`.**  An address of the slot whose page is not mapped lies below
the stack. -/
theorem pageOf_lt_start (h : st.Placed T) {addr : ℕ} (hc : canonical addr = true)
    (hfree : T (pageOf addr) = none) (hon : st.isOnStack addr = true) :
    pageOf addr < st.range.start := by
  have hslot := slot_of_isOnStack hon (canonical_lt hc) h.bottom_lt
  have hmem : pageOf addr ∉ st.range.pages := fun hp => h.mapped _ hp hfree
  have htop := h.top
  rw [PageRange.mem_pages] at hmem
  simp only [slot, STACK_MAX_PAGES] at *
  omega

end Stack.Placed

/-! ### What the operations do to the stacks -/

variable {B}

theorem Stack.initial_placed {T : PageTable} (h : ∀ p ∈ initial.range.pages, T p ≠ none) :
    initial.Placed T :=
  ⟨initial_sized, by decide, by decide, h⟩

/-- Growth keeps the top of the stack and maps the pages between the address and the stack. -/
theorem Stack.handlePageFault_placed {st st' : Stack} {addr : ℕ} {user ok : Bool} {m m' : Mem α}
    (hst : st.Placed m.table) (hc : canonical addr = true) (hfree : m.table (pageOf addr) = none)
    (h : st.handlePageFault B addr user m = .ok (ok, st', m')) :
    st'.Placed m'.table ∧ st'.slot = st.slot ∧ ∃ S : Set ℕ, Grown m.table S m'.table := by
  unfold handlePageFault at h
  split_ifs at h with hon
  · have hlt := hst.pageOf_lt_start hc hfree hon
    simp only [bind_eq_ok] at h
    obtain ⟨⟨r, st₁, m₁⟩, hgrow, h⟩ := h
    obtain ⟨hm, hsame, hnew⟩ := growStack_eq hst.toSized hlt hgrow
    rcases r with e | _
    · cases h
      obtain rfl := hsame e rfl
      obtain ⟨qs, q, rest, -, hS⟩ := mapEach_error hm
      exact ⟨hst.grown hS, rfl, _, hS⟩
    · cases h
      obtain rfl := hnew rfl
      have hg := mapEach_ok hm
      have hslot : pageOf addr / STACK_MAX_PAGES = st.slot :=
        slot_of_isOnStack hon (canonical_lt hc) hst.bottom_lt
      have hstart := hst.start_lt
      refine ⟨⟨⟨rfl, ?_, hst.stop⟩, ?_, hst.below, ?_⟩, hslot, _, hg⟩
      · show 1 ≤ st.range.stop - pageOf addr
        omega
      · show st.range.stop = (pageOf addr / STACK_MAX_PAGES + 1) * STACK_MAX_PAGES
        rw [hslot]
        exact hst.top
      · intro p hp
        simp only [PageRange.mem_pages] at hp
        by_cases hps : st.range.start ≤ p
        · exact (hst.grown hg).mapped p (PageRange.mem_pages.mpr ⟨hps, hp.2⟩)
        · exact hg.bound p (PageRange.mem_pages.mpr ⟨hp.1, not_le.mp hps⟩)
  · cases h
    exact ⟨hst, rfl, ∅, Grown.refl m.table⟩

/-- A child whose stack lies in the area gets a placed stack, in pages that were free. -/
theorem Stack.vfork_placed {st st' : Stack} {childCount : ℕ} {m m' : Mem α}
    (hst : st.Placed m.table) (h : st.vfork B childCount m = .ok (st', m')) (harea : st'.InArea) :
    st'.Placed m'.table ∧ (∀ p ∈ st'.range.pages, m.table p = none) ∧
      ∃ S : Set ℕ, Grown m.table S m'.table := by
  simp only [vfork, bind_eq_ok, pure_eq_ok] at h
  obtain ⟨shift, hshift, base, hbase, ⟨newBase, m₂⟩, hprobe, a, ha, stop, hstop, h⟩ := h
  obtain ⟨rfl, hc⟩ := virtAddrNew_ok ha
  obtain ⟨m₁, r, S, hS, hmap, hmod, hlt⟩ := probe_ok hprobe (B.sub_lt hbase hst.bottom_lt)
  -- the probe and the shift move the base by whole slots
  have hshift' : STACK_MAX_SIZE ∣ shift := B.mul_dvd hshift (by decide) dvd_rfl
  have hbase' := B.sub_mod hbase hst.bottom_lt (by decide) hshift'
  have hpage : pageOf newBase % STACK_MAX_PAGES = st.range.start % STACK_MAX_PAGES := by
    rw [hbase'] at hmod
    simp only [bottom, startAddress, pageOf, STACK_MAX_SIZE, STACK_MAX_PAGES, PAGE_SIZE] at hmod ⊢
    omega
  have hstart : pageOf newBase < pageOf STACK_MAX := by
    cases h
    have h1 := harea.2
    have h2 : pageOf STACK_MAX = 0x400000000 := by decide
    simp only [bottom, startAddress, PAGE_SIZE, STACK_MAX] at h1
    omega
  have hstop' : pageOf newBase + st.usage = (pageOf newBase / STACK_MAX_PAGES + 1) * STACK_MAX_PAGES ∧
      pageOf newBase + st.usage ≤ pageOf STACK_MAX := by
    have h1 := hst.usage
    have h2 := hst.top
    have h3 := hst.start_lt
    have h4 : pageOf STACK_MAX = 0x400000000 := by decide
    simp only [slot, PageRange.count, STACK_MAX_PAGES] at *
    omega
  have hmax : pageOf STACK_MAX * PAGE_SIZE < U64 := by decide
  have hend : (pageOf newBase + st.usage) * PAGE_SIZE < U64 :=
    lt_of_le_of_lt (Nat.mul_le_mul_right _ hstop'.2) hmax
  obtain rfl := B.pageAdd_eq hstop hend
  obtain ⟨rfl, hg⟩ := mapPages_ok hst.pos hend hmap
  cases h
  have htable : (copyPages st.range.start (pageOf newBase) st.usage m₂).table = m₂.table :=
    (copyPages_table _ _ _ _).1
  rw [htable]
  refine ⟨⟨⟨?_, hst.pos, hend⟩, hstop'.1, hstop'.2, fun p hp => hg.bound p hp⟩, ?_, _, hS.trans hg⟩
  · simp [PageRange.count]
  · intro p hp
    by_contra hne
    obtain ⟨e, he⟩ := Option.ne_none_iff_exists'.mp hne
    have := hg.fresh p hp
    rw [hS.keeps he] at this
    cases this

theorem Stack.cleanUp_placed {st st' : Stack} {m m' : Mem α} {r : Except UnmapError Unit}
    (hst : st.Placed m.table) (h : st.cleanUp B m = .ok (r, st', m')) :
    Grown m'.table {p | p ∈ st.range.pages} m.table := by
  obtain ⟨m₁, h₁⟩ := unmapEach_of_mapped hst.mapped st.range.nodup_pages
  have hu := cleanUp_eq hst.toSized h
  rw [h₁] at hu
  cases hu
  exact (unmapEach_ok h₁).1

/-! ### The invariant -/

/-- Every stack is placed, and no two are in the same slot. -/
structure Apart (live : List Stack) (T : PageTable) : Prop where
  placed : ∀ st ∈ live, st.Placed T
  slots : (live.map Stack.slot).Nodup

namespace Apart

variable {live : List Stack} {T T' : PageTable} {st st' : Stack} {i : ℕ}

theorem append (h : Apart live T) {S : Set ℕ} (hS : Grown T S T') (hst : st.Placed T')
    (hfree : ∀ p ∈ st.range.pages, T p = none) : Apart (live ++ [st]) T' := by
  refine ⟨?_, ?_⟩
  · intro st₁ h₁
    rcases List.mem_append.mp h₁ with h₁ | h₁
    · exact (h.placed st₁ h₁).grown hS
    · rw [List.mem_singleton.mp h₁]
      exact hst
  · rw [List.map_append, List.map_singleton, List.nodup_append]
    refine ⟨h.slots, List.nodup_singleton _, ?_⟩
    intro a ha b hb
    obtain ⟨st₁, h₁, rfl⟩ := List.mem_map.mp ha
    rw [List.mem_singleton.mp hb]
    exact (h.placed st₁ h₁).slot_ne hst hfree

theorem set (h : Apart live T) {S : Set ℕ} (hS : Grown T S T') (hi : live[i]? = some st)
    (hst : st'.Placed T') (hslot : st'.slot = st.slot) : Apart (live.set i st') T' := by
  refine ⟨?_, ?_⟩
  · intro st₁ h₁
    rcases List.mem_or_eq_of_mem_set h₁ with h₁ | rfl
    · exact (h.placed st₁ h₁).grown hS
    · exact hst
  · have hmap : (live.set i st').map Stack.slot = live.map Stack.slot := by
      obtain ⟨hlt, rfl⟩ := List.getElem?_eq_some_iff.mp hi
      rw [List.map_set, hslot, ← List.getElem_map Stack.slot (h := by simpa using hlt),
        List.set_getElem_self]
    rw [hmap]
    exact h.slots

theorem eraseIdx (h : Apart live T) (hi : live[i]? = some st)
    (hg : Grown T' {p | p ∈ st.range.pages} T) : Apart (live.eraseIdx i) T' := by
  refine ⟨?_, h.slots.sublist ((List.eraseIdx_sublist live i).map _)⟩
  intro st₁ h₁
  obtain ⟨hlt, rfl⟩ := List.getElem?_eq_some_iff.mp hi
  have hperm := (List.getElem_cons_eraseIdx_perm hlt).map Stack.slot
  have hne : live[i].slot ≠ st₁.slot := by
    have hnd := hperm.nodup_iff.mpr h.slots
    rw [List.map_cons, List.nodup_cons] at hnd
    exact fun he => hnd.1 (he ▸ List.mem_map_of_mem h₁)
  have hp := h.placed st₁ (List.mem_of_mem_eraseIdx h₁)
  refine hp.congr fun p hmem hbound => ?_
  have hpi := (h.placed live[i] (List.getElem_mem hlt)).pages_disjoint hp hne
  rw [← hg.same p fun hpi' => hpi p hpi' hmem]
  exact hbound

end Apart

/-- Every stack of the state lies in the area for user stacks. -/
def StackSpace.InArea (s : StackSpace α) : Prop := ∀ st ∈ s.live, st.InArea

/-- **Step.**  An operation after which the stacks lie in the area keeps them apart. -/
theorem StackSpace.step_apart {s t : StackSpace α} {op : StackOp}
    (hs : Apart s.live s.mem.table) (h : s.step B op = .ok (t, ())) (harea : t.InArea) :
    Apart t.live t.mem.table := by
  cases op with
  | init =>
      simp only [step, bind_eq_ok, pure_eq_ok] at h
      obtain ⟨⟨st, m⟩, hinit, h⟩ := h
      cases h
      obtain ⟨rfl, hm⟩ := Stack.init_eq hinit
      have hg := mapEach_ok hm
      exact hs.append hg (Stack.initial_placed fun p hp => hg.bound p hp) fun p hp => hg.fresh p hp
  | pageFault i addr user =>
      simp only [step] at h
      split at h
      · cases h
        exact hs
      rename_i st hi
      split_ifs at h with hguard
      · simp only [bind_eq_ok, pure_eq_ok] at h
        obtain ⟨⟨ok, st', m⟩, hfault, h⟩ := h
        cases h
        rw [Bool.and_eq_true, Option.isNone_iff_eq_none] at hguard
        have hst := hs.placed st (List.mem_of_getElem? hi)
        obtain ⟨hst', hslot, S, hS⟩ := Stack.handlePageFault_placed hst hguard.1 hguard.2 hfault
        exact hs.set hS hi hst' hslot
      · cases h
        exact hs
  | vfork i childCount =>
      simp only [step] at h
      split at h
      · cases h
        exact hs
      rename_i st hi
      simp only [bind_eq_ok, pure_eq_ok] at h
      obtain ⟨⟨st', m⟩, hfork, h⟩ := h
      cases h
      have hst := hs.placed st (List.mem_of_getElem? hi)
      have hmem : st' ∈ s.live ++ [st'] := List.mem_append_right _ (List.mem_singleton_self st')
      obtain ⟨hst', hfree, S, hS⟩ := Stack.vfork_placed hst hfork (harea st' hmem)
      exact hs.append hS hst' hfree
  | cleanUp i =>
      simp only [step] at h
      split at h
      · cases h
        exact hs
      rename_i st hi
      simp only [bind_eq_ok, pure_eq_ok] at h
      obtain ⟨⟨r, st', m⟩, hclean, h⟩ := h
      cases h
      have hst := hs.placed st (List.mem_of_getElem? hi)
      exact hs.eraseIdx hi (Stack.cleanUp_placed hst hclean)

/-- **User stacks never overlap.**  In every run from an address space without stacks whose
stacks stay in their area: each stack in use is as large as its range says and not empty, ends
at the top of an aligned slot, starts in that slot, and is mapped; `grow_stack` never finds a
page that is not present above the start of a stack; and no two stacks are in the same slot. -/
theorem StackSpace.stacks_never_overlap {s₀ s : StackSpace α} (h0 : s₀.live = [])
    (h : Run (step B) (fun _ _ t => t.InArea) s₀ s) :
    (∀ st ∈ s.live, st.usage = st.range.count ∧ 1 ≤ st.range.count ∧
        st.range.stop % STACK_MAX_PAGES = 0 ∧
        st.range.start / STACK_MAX_PAGES + 1 = st.range.stop / STACK_MAX_PAGES ∧
        (∀ p ∈ st.range.pages, s.mem.table p ≠ none) ∧
        ∀ addr, canonical addr = true → s.mem.table (pageOf addr) = none →
          st.isOnStack addr = true → ¬ st.range.start < pageOf addr) ∧
      s.live.Pairwise fun a b => a.range.start / STACK_MAX_PAGES ≠ b.range.start / STACK_MAX_PAGES := by
  have hinv : Apart s.live s.mem.table := by
    refine h.invariant (P := fun s => Apart s.live s.mem.table) ?_ ?_
    · rw [h0]
      exact ⟨by simp, by simp⟩
    · intro s op t _ hs hstep harea
      exact step_apart hs hstep harea
  refine ⟨?_, List.pairwise_map.mp hinv.slots⟩
  intro st hst
  have hp := hinv.placed st hst
  have htop := hp.top
  have hslot : st.slot = st.range.start / STACK_MAX_PAGES := rfl
  refine ⟨hp.usage, hp.usage ▸ hp.pos, ?_, ?_, hp.mapped, ?_⟩
  · rw [htop, Nat.mul_mod_left]
  · rw [htop, ← hslot, Nat.mul_div_cancel _ (by decide)]
  · intro addr hc hfree hon
    have := hp.pageOf_lt_start hc hfree hon
    omega

instance (s : StackSpace α) : Decidable s.InArea :=
  inferInstanceAs (Decidable (∀ st ∈ s.live, STACK_AREA_BOT ≤ st.bottom ∧ st.bottom < STACK_MAX))

/-- A stack, a child's stack below it that grows by two pages, and the exit of the first
process. -/
theorem StackSpace.stacks_never_overlap_example :
    ∃ s : StackSpace BootInfoFrameAllocator,
      s.live = [⟨⟨0x3ffeffffd, 0x3fff00000⟩, 3⟩, ⟨⟨0x3ffdfffff, 0x3ffe00000⟩, 1⟩] ∧
      s.live.Pairwise fun a b =>
        a.range.start / STACK_MAX_PAGES ≠ b.range.start / STACK_MAX_PAGES := by
  let s₀ : StackSpace BootInfoFrameAllocator :=
    { mem := { table := fun _ => none, alloc := ⟨9, 0, [1, 2, 3, 4, 5, 6, 7, 8, 9], []⟩,
               phys := fun _ _ => 0 },
      live := [] }
  let ops : List StackOp :=
    [.init, .vfork 0 1, .pageFault 1 0x3ffeffffd123 true, .vfork 0 1, .cleanUp 0]
  obtain ⟨s, hs, hlive⟩ : ∃ s, exec (step Build.release) (fun _ _ t => t.InArea) s₀ ops = some s ∧
      s.live = [⟨⟨0x3ffeffffd, 0x3fff00000⟩, 3⟩, ⟨⟨0x3ffdfffff, 0x3ffe00000⟩, 1⟩] := by
    have hlive : (exec (step Build.release) (fun _ _ t => t.InArea) s₀ ops).map (fun s => s.live) =
        some [⟨⟨0x3ffeffffd, 0x3fff00000⟩, 3⟩, ⟨⟨0x3ffdfffff, 0x3ffe00000⟩, 1⟩] := by
      decide +kernel
    exact Option.map_eq_some_iff.mp hlive
  have h0 : s₀.live = [] := rfl
  exact ⟨s, hlive, (stacks_never_overlap h0 (run_of_exec hs)).2⟩

end Ysos
