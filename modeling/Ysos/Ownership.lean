import Ysos.StackSlots
import Ysos.ProcessVm
import Ysos.Tables

/-! # Who has which frame

What every frame is used for is not written down anywhere in the kernel.  Here it is, as a map from
frames to uses, and the operations on one address space move it along.  Address spaces share the tables
under some entries of the top level, those of the kernel (`E`); only the pages outside of them belong to
one address space.

* `Labelled`: the free list and the pages of one page table outside the shared entries agree with the
  uses.
* `Moves`: what mapping and unmapping in one address space does to the frames of the others: nothing.
* `mapEach_moves`, `loadEach_moves`, `zeroEach_moves`, `unmapEach_moves`, `copyPages_moves`: the loops.
* `ProcessVm.Held`, `SpaceHeld`: the pages that `clean_up` unmaps, and the frame it frees, belong to the
  address space. -/

namespace Ysos

open PartialMap Runs

/-- What a frame is used for: nothing, a page of an address space, the top level of a page table, or
something that the allocator was never asked for. -/
inductive Use where
  | free
  | page (i : SpaceId) (p : ℕ)
  | top (i : SpaceId)
  | other
deriving DecidableEq, Repr

abbrev Uses := Frame → Use

/-- The entry of the top-level table that leads to a page. -/
def topEntry (p : ℕ) : ℕ := p / ENTRIES ^ 3

/-- The page `p` of the address space `i` is not mapped, or to a frame that is used for it. -/
def Owns (use : Uses) (i : SpaceId) (T : PageTable) (p : ℕ) : Prop :=
  ∀ e, T p = some e → use e.frame = .page i p

variable {E : Finset ℕ} {use use' use₁ use₂ : Uses} {i : SpaceId}
  {m m' m₁ m₂ : Mem BootInfoFrameAllocator} {p : ℕ} {f : Frame} {flags : PageTableFlags} {B : Build}

/-- The uses agree with the free frames and with the pages of the address space `i` outside the
entries `E`. -/
structure Labelled (E : Finset ℕ) (use : Uses) (i : SpaceId) (m : Mem BootInfoFrameAllocator) :
    Prop where
  nodup : m.alloc.free.Nodup
  free : ∀ f, f ∈ m.alloc.free ↔ use f = .free
  own : ∀ p e, m.table p = some e → topEntry p ∉ E → use e.frame = .page i p

/-- The frames that are used for something else than the address space `i` are left alone. -/
def KeepsOthers (i : SpaceId) (use : Uses) (m : Mem BootInfoFrameAllocator) (use' : Uses)
    (m' : Mem BootInfoFrameAllocator) : Prop :=
  ∀ f, use f ≠ .free → (∀ p, use f ≠ .page i p) → use f ≠ .top i →
    use' f = use f ∧ m'.phys f = m.phys f

/-- Pages of the address space `i` are mapped, written or unmapped: the frames with other uses are left
alone, and its own pages stay its own. -/
structure Moves (E : Finset ℕ) (i : SpaceId) (use : Uses) (m : Mem BootInfoFrameAllocator) (use' : Uses)
    (m' : Mem BootInfoFrameAllocator) : Prop where
  labelled : Labelled E use' i m'
  keep : ∀ f, use f ≠ .free → (∀ p, use f ≠ .page i p) → use' f = use f ∧ m'.phys f = m.phys f
  own : ∀ p, Owns use i m.table p → Owns use' i m'.table p

namespace Moves

theorem refl (h : Labelled E use i m) : Moves E i use m use m :=
  ⟨h, fun _ _ _ => ⟨rfl, rfl⟩, fun _ => id⟩

theorem trans (h : Moves E i use m use₁ m₁) (h' : Moves E i use₁ m₁ use₂ m₂) :
    Moves E i use m use₂ m₂ := by
  refine ⟨h'.labelled, fun f hfree hpage => ?_, fun p hp => h'.own p (h.own p hp)⟩
  obtain ⟨huse, hphys⟩ := h.keep f hfree hpage
  obtain ⟨huse', hphys'⟩ := h'.keep f (huse ▸ hfree) (huse ▸ hpage)
  exact ⟨huse'.trans huse, hphys'.trans hphys⟩

theorem keeps (h : Moves E i use m use' m') : KeepsOthers i use m use' m' := fun f hfree hpage _ =>
  h.keep f hfree hpage

theorem top (h : Moves E i use m use' m') (hf : use f = .top i) : use' f = .top i :=
  (h.keep f (by rw [hf]; rintro ⟨⟩) (by rw [hf]; rintro p ⟨⟩)).1.trans hf

/-- A page that was not mapped. -/
theorem own_new (h : Moves E i use m use' m') (hp : m.table p = none) : Owns use' i m'.table p :=
  h.own p fun e he => by rw [hp] at he; cases he

end Moves

/-! ### One page -/

theorem mapTo_entry {q : ℕ} {e : PageTableEntry} (hm : m.mapTo p f flags = .ok m')
    (he : m'.table q = some e) : m.table q = some e ∨ q = p ∧ e = ⟨f, flags⟩ := by
  unfold Mem.mapTo at hm
  split at hm
  · cases hm
  cases hm
  dsimp only at he
  by_cases hq : q = p
  · rw [hq, Function.update_self] at he
    exact Or.inr ⟨hq, (Option.some.inj he).symm⟩
  · rw [Function.update_of_ne hq] at he
    exact Or.inl he

namespace Labelled

/-- A free frame is taken for a page. -/
theorem alloc (h : Labelled E use i m) {a : BootInfoFrameAllocator} (p : ℕ)
    (ha : allocateFrame m.alloc = (some f, a)) :
    use f = .free ∧ Moves E i use m (Function.update use f (.page i p)) { m with alloc := a } := by
  have hlist := BootInfoFrameAllocator.free_of_some ha
  have hnodup := h.nodup
  rw [hlist, List.nodup_cons] at hnodup
  have hfree : use f = .free := (h.free f).mp (hlist ▸ List.mem_cons_self)
  have hne : ∀ g q, use g = .page i q → g ≠ f := by
    rintro g q hg rfl
    rw [hfree] at hg
    cases hg
  refine ⟨hfree, ⟨hnodup.2, fun g => ?_, fun q e he hu => ?_⟩, fun g hg _ => ?_, fun q hq e he => ?_⟩
  · by_cases hgf : g = f
    · subst hgf
      rw [Function.update_self]
      exact iff_of_false hnodup.1 (by rintro ⟨⟩)
    · have hmem := h.free g
      rw [hlist, List.mem_cons, or_iff_right hgf] at hmem
      rwa [Function.update_of_ne hgf]
  · have hown := h.own q e he hu
    rwa [Function.update_of_ne (hne _ q hown)]
  · have hgf : g ≠ f := fun hgf => hg (hgf ▸ hfree)
    exact ⟨Function.update_of_ne hgf _ _, rfl⟩
  · have hown := hq e he
    rwa [Function.update_of_ne (hne _ q hown)]

/-- The contents of a page of the address space change. -/
theorem write (h : Labelled E use i m) (hf : use f = .page i p) (content : ℕ → UInt8) :
    Moves E i use m use { m with phys := Function.update m.phys f content } := by
  refine ⟨⟨h.nodup, h.free, h.own⟩, fun g _ hpage => ⟨rfl, ?_⟩, fun _ => id⟩
  exact Function.update_of_ne (fun hgf => hpage p (by rw [hgf, hf])) _ _

/-- A frame that was taken for a page is mapped there. -/
theorem mapTo (h : Labelled E use i m) (hf : use f = .page i p) (hm : m.mapTo p f flags = .ok m') :
    Moves E i use m use m' := by
  obtain ⟨-, halloc, hphys⟩ := mapTo_grown hm
  have hown : ∀ q e, m'.table q = some e → m.table q = some e ∨ use e.frame = .page i q := by
    intro q e he
    refine (mapTo_entry hm he).imp_right ?_
    rintro ⟨rfl, rfl⟩
    exact hf
  refine ⟨⟨halloc ▸ h.nodup, halloc ▸ h.free, fun q e he hu => ?_⟩, fun g _ _ => ⟨rfl, by rw [hphys]⟩,
    fun q hq e he => ?_⟩
  · exact (hown q e he).elim (fun hold => h.own q e hold hu) id
  · exact (hown q e he).elim (hq e) id

/-- A page of the address space is unmapped, and its frame is free again. -/
theorem give (h : Labelled E use i m) {e : PageTableEntry} (hown : use e.frame = .page i p) :
    Moves E i use m (Function.update use e.frame .free)
      { m with table := Function.update m.table p none, alloc := deallocateFrame m.alloc e.frame } := by
  have hlist : (deallocateFrame m.alloc e.frame).free = e.frame :: m.alloc.free := rfl
  have hnot : e.frame ∉ m.alloc.free := fun hmem => by
    rw [(h.free _).mp hmem] at hown
    cases hown
  have hother : ∀ q e', Function.update m.table p none q = some e' →
      m.table q = some e' ∧ (use e'.frame = .page i q → e'.frame ≠ e.frame) := by
    intro q e' he'
    by_cases hq : q = p
    · rw [hq, Function.update_self] at he'
      cases he'
    · rw [Function.update_of_ne hq] at he'
      refine ⟨he', fun huse hframe => hq ?_⟩
      rw [hframe, hown] at huse
      exact (Use.page.inj huse).2.symm
  refine ⟨⟨?_, fun g => ?_, fun q e' he' hu => ?_⟩, fun g _ hpage => ?_, fun q hq e' he' => ?_⟩
  · show (deallocateFrame m.alloc e.frame).free.Nodup
    rw [hlist]
    exact List.nodup_cons.mpr ⟨hnot, h.nodup⟩
  · show g ∈ (deallocateFrame m.alloc e.frame).free ↔ _
    rw [hlist, List.mem_cons]
    by_cases hg : g = e.frame
    · rw [hg, Function.update_self]
      exact iff_of_true (Or.inl rfl) rfl
    · rw [or_iff_right hg, Function.update_of_ne hg]
      exact h.free g
  · obtain ⟨hold, hne⟩ := hother q e' he'
    have huse := h.own q e' hold hu
    rwa [Function.update_of_ne (hne huse)]
  · have hg : g ≠ e.frame := fun hg => hpage p (hg ▸ hown)
    exact ⟨Function.update_of_ne hg _ _, rfl⟩
  · obtain ⟨hold, hne⟩ := hother q e' he'
    have huse := hq e' hold
    rwa [Function.update_of_ne (hne huse)]

end Labelled

/-! ### Loops over pages -/

theorem alloc_none {a : BootInfoFrameAllocator} (ha : allocateFrame m.alloc = (none, a)) :
    ({ m with alloc := a } : Mem BootInfoFrameAllocator) = m := by
  rw [(BootInfoFrameAllocator.free_of_none ha).2]

theorem mapEach_moves : ∀ {ps : List ℕ} {use : Uses} {m m' : Mem BootInfoFrameAllocator}
    {r : Except MapToError Unit}, Labelled E use i m → mapEach flags ps m = (r, m') →
      ∃ use', Moves E i use m use' m'
  | [], use, m, m', r, h, hm => by
      cases hm
      exact ⟨use, .refl h⟩
  | p :: ps, use, m, m', r, h, hm => by
      unfold mapEach at hm
      split at hm
      · rename_i a ha
        cases hm
        rw [alloc_none ha]
        exact ⟨use, .refl h⟩
      · rename_i f a ha
        obtain ⟨-, htake⟩ := h.alloc p ha
        split at hm
        · cases hm
          exact ⟨_, htake⟩
        · rename_i m₁ h₁
          have hmap := htake.labelled.mapTo (Function.update_self f _ use) h₁
          obtain ⟨use', hrest⟩ := mapEach_moves hmap.labelled hm
          exact ⟨use', (htake.trans hmap).trans hrest⟩

theorem loadEach_moves {elf : ElfFile} {seg : ProgramHeader} : ∀ {ps : List ℕ} {idx : ℕ} {use : Uses}
    {m m' : Mem BootInfoFrameAllocator} {r : Except MapToError Unit}, Labelled E use i m →
      loadEach B elf seg flags idx ps m = .ok (r, m') → ∃ use', Moves E i use m use' m'
  | [], idx, use, m, m', r, h, hm => by
      cases hm
      exact ⟨use, .refl h⟩
  | p :: ps, idx, use, m, m', r, h, hm => by
      unfold loadEach at hm
      split at hm
      · rename_i a ha
        cases hm
        rw [alloc_none ha]
        exact ⟨use, .refl h⟩
      · rename_i f a ha
        obtain ⟨-, htake⟩ := h.alloc p ha
        have huse : Function.update use f (.page i p) f = .page i p := Function.update_self f _ use
        obtain ⟨left, -, hm⟩ := bind_eq_ok.mp hm
        have hwrite := fun content => htake.trans (htake.labelled.write huse content)
        dsimp only at hm
        split at hm
        · cases hm
          exact ⟨_, hwrite _⟩
        · rename_i m₁ h₁
          have hmap := (hwrite _).labelled.mapTo huse h₁
          obtain ⟨use', hrest⟩ := loadEach_moves hmap.labelled hm
          exact ⟨use', ((hwrite _).trans hmap).trans hrest⟩

theorem zeroEach_moves : ∀ {ps : List ℕ} {use : Uses} {m m' : Mem BootInfoFrameAllocator}
    {r : Except MapToError Unit}, Labelled E use i m → zeroEach flags ps m = (r, m') →
      ∃ use', Moves E i use m use' m'
  | [], use, m, m', r, h, hm => by
      cases hm
      exact ⟨use, .refl h⟩
  | p :: ps, use, m, m', r, h, hm => by
      unfold zeroEach at hm
      split_ifs at hm
      · split at hm
        · rename_i a ha
          cases hm
          rw [alloc_none ha]
          exact ⟨use, .refl h⟩
        · rename_i f a ha
          obtain ⟨-, htake⟩ := h.alloc p ha
          have huse : Function.update use f (.page i p) f = .page i p := Function.update_self f _ use
          split at hm
          · cases hm
            exact ⟨_, htake⟩
          · rename_i m₁ h₁
            have hmap := htake.labelled.mapTo huse h₁
            have hwrite := hmap.labelled.write huse fun _ => 0
            obtain ⟨use', hrest⟩ := zeroEach_moves hwrite.labelled hm
            exact ⟨use', ((htake.trans hmap).trans hwrite).trans hrest⟩
      · exact zeroEach_moves h hm

theorem unmapEach_moves : ∀ {ps : List ℕ} {use : Uses} {m m' : Mem BootInfoFrameAllocator}
    {r : Except UnmapError Unit}, Labelled E use i m → (∀ p ∈ ps, Owns use i m.table p) →
      unmapEach ps m = (r, m') → ∃ use', Moves E i use m use' m'
  | [], use, m, m', r, h, _, hm => by
      cases hm
      exact ⟨use, .refl h⟩
  | p :: ps, use, m, m', r, h, hown, hm => by
      unfold unmapEach Mem.unmap at hm
      rcases hp : m.table p with _ | e
      · rw [hp] at hm
        cases hm
        exact ⟨use, .refl h⟩
      · rw [hp] at hm
        have hgive := h.give (hown p List.mem_cons_self e hp)
        obtain ⟨use', hrest⟩ := unmapEach_moves hgive.labelled
          (fun q hq => hgive.own q (hown q (List.mem_cons_of_mem _ hq))) hm
        exact ⟨use', hgive.trans hrest⟩

/-- Copying to mapped pages of the address space. -/
theorem copyPages_moves : ∀ {n src dst : ℕ} {m : Mem BootInfoFrameAllocator}, Labelled E use i m →
    (∀ p, dst ≤ p → p < dst + n → m.table p ≠ none ∧ Owns use i m.table p) →
      Moves E i use m use (Stack.copyPages src dst n m)
  | 0, _, _, _, h, _ => .refl h
  | n + 1, src, dst, m, h, hdst => by
      obtain ⟨hmapped, hown⟩ := hdst dst le_rfl (by omega)
      obtain ⟨e, he⟩ := Option.ne_none_iff_exists'.mp hmapped
      have hframe : use (m.table.frameOf dst) = .page i dst := by
        rw [PageTable.frameOf, he]
        exact hown e he
      have hwrite := h.write hframe (m.phys (m.table.frameOf src))
      exact hwrite.trans (copyPages_moves hwrite.labelled fun p hlo hhi => hdst p (by omega) (by omega))

theorem mapPages_moves {addr pages : ℕ} {user : Bool} {r : Except MapToError PageRange}
    (h : Labelled E use i m) (hm : mapPages B addr pages user m = .ok (r, m')) :
    ∃ use', Moves E i use m use' m' := by
  simp only [mapPages, bind_eq_ok] at hm
  obtain ⟨_, -, a, -, stop, -, last, -, hm⟩ := hm
  rcases hrange : mapRange ⟨pageOf a, last⟩ user m with ⟨x, m₁⟩
  have hmoves := mapEach_moves h hrange
  simp only [hrange] at hm
  cases x <;> cases hm <;> exact hmoves

/-- Mapping pages adds no others to the table. -/
theorem mapPages_between {addr pages : ℕ} {user : Bool} {r : Except MapToError PageRange}
    (hpos : 0 < pageOf addr + pages) (hlt : (pageOf addr + pages) * PAGE_SIZE < U64)
    (hm : mapPages B addr pages user m = .ok (r, m')) (hp : m'.table p ≠ none) :
    m.table p ≠ none ∨ pageOf addr ≤ p ∧ p < pageOf addr + pages := by
  simp only [mapPages, bind_eq_ok] at hm
  obtain ⟨_, -, a, ha, stop, hstop, last, hlast, hm⟩ := hm
  obtain ⟨rfl, -⟩ := virtAddrNew_ok ha
  obtain rfl := B.pageAdd_eq hstop hlt
  obtain rfl := B.pageSub_eq hlast hpos hlt
  obtain ⟨S, hgrown, hS⟩ := mapEach_grown (stackFlags user)
    (PageRangeInclusive.mk (pageOf addr) (pageOf addr + pages - 1)).pages m
  rcases hrange : mapRange ⟨pageOf addr, pageOf addr + pages - 1⟩ user m with ⟨y, m₁⟩
  have hlast : m₁ = m' := by
    simp only [hrange] at hm
    cases y <;> cases hm <;> rfl
  subst hlast
  by_cases hpS : p ∈ S
  · have hmem := hS p hpS
    rw [PageRangeInclusive.mem_pages] at hmem
    exact Or.inr ⟨hmem.1, hmem.2.trans_lt (Nat.sub_one_lt_of_lt hpos)⟩
  · have hsame := hgrown.same p hpS
    rw [show mapEach (stackFlags user) _ m = (y, m₁) from hrange] at hsame
    exact Or.inl (hsame ▸ hp)

/-! ### Stacks -/

namespace Stack

variable {st st' : Stack}

/-- From its first page on, the pages of a stack do not go beyond its slot. -/
structure InSlot (st : Stack) : Prop where
  start_lt : st.range.start * PAGE_SIZE < U64
  stop_lt : st.range.stop * PAGE_SIZE < U64
  usage_le : st.range.start % STACK_MAX_PAGES + st.usage ≤ STACK_MAX_PAGES
  stop_le : st.range.stop ≤ st.range.start / STACK_MAX_PAGES * STACK_MAX_PAGES + STACK_MAX_PAGES

/-- The stack is in its slot in the area for user stacks, and its pages are pages of the address
space. -/
structure Held (use : Uses) (i : SpaceId) (T : PageTable) (st : Stack) : Prop extends st.InSlot where
  area : st.InArea
  own : ∀ p ∈ st.range.pages, Owns use i T p

theorem initial_inSlot : initial.InSlot := ⟨by decide, by decide, by decide, by decide⟩

theorem initial_inArea : initial.InArea := ⟨by decide, by decide⟩

/-- The area consists of whole slots. -/
theorem InArea.of_slot (h : st.InArea) (hslot : st'.slot = st.slot) : st'.InArea := by
  obtain ⟨hlo, hhi⟩ := h
  simp only [slot, STACK_MAX_PAGES] at hslot
  simp only [bottom, startAddress, PAGE_SIZE, STACK_AREA_BOT] at hlo
  simp only [bottom, startAddress, PAGE_SIZE, STACK_MAX] at hhi
  simp only [InArea, bottom, startAddress, PAGE_SIZE, STACK_AREA_BOT, STACK_MAX]
  omega

/-- A stack in the area is under entries between its ends. -/
theorem InSlot.entry (h : st.InSlot) (harea : st.InArea) (hp : p ∈ st.range.pages) :
    topEntry (pageOf STACK_AREA_BOT) ≤ topEntry p ∧ topEntry p < topEntry (pageOf STACK_MAX) := by
  obtain ⟨hlo, hhi⟩ := harea
  have hstop := h.stop_le
  rw [PageRange.mem_pages] at hp
  simp only [bottom, startAddress, STACK_AREA_BOT, STACK_MAX, STACK_MAX_PAGES, PAGE_SIZE, pageOf,
    topEntry, ENTRIES] at *
  omega

theorem cleanUp_moves {r : Except UnmapError Unit} (h : Labelled E use i m)
    (hst : st.Held use i m.table) (hm : st.cleanUp B m = .ok (r, st', m')) :
    ∃ use', Moves E i use m use' m' := by
  unfold cleanUp at hm
  split_ifs at hm with husage hcount
  · cases hm
    exact ⟨use, .refl h⟩
  · simp only [bind_eq_ok] at hm
    obtain ⟨⟨x, m₁⟩, hunmap, hm⟩ := hm
    have hpage : pageOf st.bottom = st.range.start := pageOf_startAddress _
    have hstop : st.range.start + st.range.count = st.range.stop := by
      unfold PageRange.count at hcount ⊢
      omega
    have heach := unmapPages_eq hcount (by rw [hpage, hstop]; exact hst.stop_lt) hunmap
    rw [hpage, hstop] at heach
    have hmoves := unmapEach_moves h hst.own heach
    cases x <;> cases hm <;> exact hmoves
  · cases hm
    exact ⟨use, .refl h⟩

/-- Rounds of the probe that map nothing usable, and the one that maps the stack. -/
theorem probe_moves {usage : ℕ} : ∀ {n base b : ℕ} {use : Uses} {m m' : Mem BootInfoFrameAllocator},
    Labelled E use i m → probe B usage n base m = .ok (b, m') → base < U64 →
      ∃ use₁ m₁ r, Moves E i use m use₁ m₁ ∧ mapPages B b usage true m₁ = .ok (.ok r, m') ∧
        b % STACK_MAX_SIZE = base % STACK_MAX_SIZE ∧ b < U64
  | 0, _, _, _, _, _, _, hm, _ => by cases hm
  | n + 1, base, b, use, m, m', h, hm, hb => by
      simp only [probe, bind_eq_ok] at hm
      obtain ⟨⟨r, m₁⟩, hmap, hm⟩ := hm
      rcases r with e | r
      · obtain ⟨base', hbase, hm⟩ := bind_eq_ok.mp hm
        obtain ⟨use₁, hfirst⟩ := mapPages_moves h hmap
        obtain ⟨use₂, m₂, r, hrest, hr, hmod, hlt⟩ :=
          probe_moves hfirst.labelled hm (B.sub_lt hbase hb)
        exact ⟨use₂, m₂, r, hfirst.trans hrest, hr,
          hmod.trans (B.sub_mod hbase hb (by decide) dvd_rfl), hlt⟩
      · cases hm
        exact ⟨use, m, r, .refl h, hmap, rfl, hb⟩

theorem vfork_moves {childCount : ℕ} (h : Labelled E use i m) (hst : st.InSlot)
    (hm : st.vfork B childCount m = .ok (st', m')) (harea : st'.InArea) :
    ∃ use', Moves E i use m use' m' ∧ st'.Held use' i m'.table := by
  simp only [vfork, bind_eq_ok, pure_eq_ok] at hm
  obtain ⟨shift, hshift, base, hbase, ⟨newBase, m₂⟩, hprobe, a, ha, stop, hstop, hm⟩ := hm
  obtain ⟨rfl, -⟩ := virtAddrNew_ok ha
  have hbottom : st.bottom < U64 := hst.start_lt
  have hdvd : STACK_MAX_SIZE ∣ shift := B.mul_dvd hshift (by decide) dvd_rfl
  obtain ⟨use₁, m₁, r, hfirst, hmap, hmod, hlt⟩ := probe_moves h hprobe (B.sub_lt hbase hbottom)
  have hmod' : newBase % STACK_MAX_SIZE = st.bottom % STACK_MAX_SIZE :=
    hmod.trans (B.sub_mod hbase hbottom (by decide) hdvd)
  -- the new stack is as far from the end of its slot as the old one
  have hslot : pageOf newBase % STACK_MAX_PAGES = st.range.start % STACK_MAX_PAGES := by
    simp only [bottom, startAddress, pageOf, STACK_MAX_SIZE, STACK_MAX_PAGES, PAGE_SIZE] at hmod' ⊢
    omega
  have husage := hst.usage_le
  rw [← hslot] at husage
  cases hm
  have hstart : pageOf newBase * PAGE_SIZE < STACK_MAX := harea.2
  have hfit : (pageOf newBase + st.usage) * PAGE_SIZE < U64 := by
    rw [Nat.add_mul]
    calc pageOf newBase * PAGE_SIZE + st.usage * PAGE_SIZE
        < STACK_MAX + STACK_MAX_PAGES * PAGE_SIZE :=
          Nat.add_lt_add_of_lt_of_le hstart (Nat.mul_le_mul_right _ (le_of_add_le_right husage))
      _ < U64 := by decide
  obtain rfl := B.pageAdd_eq hstop hfit
  obtain ⟨use₂, hsecond⟩ := mapPages_moves hfirst.labelled hmap
  have hnew : ∀ p, pageOf newBase ≤ p → p < pageOf newBase + st.usage →
      m₂.table p ≠ none ∧ Owns use₂ i m₂.table p := by
    intro p hlo hhi
    obtain ⟨rfl, hgrown⟩ := mapPages_ok (by omega) hfit hmap
    have hp : p ∈ (PageRange.mk (pageOf newBase) (pageOf newBase + st.usage)).pages :=
      PageRange.mem_pages.mpr ⟨hlo, hhi⟩
    exact ⟨hgrown.bound p hp, hsecond.own_new (hgrown.fresh p hp)⟩
  have hcopy : Moves E i use₂ m₂ use₂ (copyPages st.range.start (pageOf newBase) st.usage m₂) :=
    copyPages_moves hsecond.labelled hnew
  obtain ⟨htable, -⟩ := copyPages_table st.usage st.range.start (pageOf newBase) m₂
  refine ⟨use₂, (hfirst.trans hsecond).trans hcopy,
    ⟨⟨hstart.trans (by decide), hfit, husage, ?_⟩, harea, fun p hp => ?_⟩⟩
  · have hdiv := Nat.div_add_mod' (pageOf newBase) STACK_MAX_PAGES
    dsimp only
    omega
  · rw [PageRange.mem_pages] at hp
    rw [htable]
    exact (hnew p hp.1 hp.2).2

/-- Growth maps pages below the stack, with the given flags. -/
theorem growStack_moves {addr : ℕ} {user : Bool} {r : Except MapToError Unit} (h : Labelled E use i m)
    (hm : st.growStack B addr user m = .ok (r, st', m')) :
    ∃ use', Moves E i use m use' m' ∧
      (st.isOnStack addr = true → st.Held use i m.table → st'.Held use' i m'.table) := by
  simp only [growStack, bind_eq_ok] at hm
  obtain ⟨_, -, hm⟩ := hm
  split_ifs at hm with hle
  rw [not_lt] at hle
  obtain ⟨⟨x, m₁⟩, hmap, hm⟩ := bind_eq_ok.mp hm
  obtain ⟨use', hmoves⟩ := mapPages_moves h hmap
  rcases x with e | range
  · cases hm
    exact ⟨use', hmoves, fun _ hst =>
      ⟨hst.toInSlot, hst.area, fun p hp => hmoves.own p (hst.own p hp)⟩⟩
  · cases hm
    refine ⟨use', hmoves, fun hon hst => ?_⟩
    have haddr : addr < U64 := by
      have hstart := hst.start_lt
      simp only [pageOf, PAGE_SIZE, U64] at hle hstart ⊢
      omega
    have hslot := slot_of_isOnStack hon haddr hst.start_lt
    have hstart : pageOf addr * PAGE_SIZE < U64 :=
      lt_of_le_of_lt (Nat.mul_le_mul_right _ hle) hst.start_lt
    have hstop := hst.stop_le
    refine ⟨⟨hstart, hst.stop_lt, ?_, ?_⟩, ?_, fun p hp => ?_⟩
    · show pageOf addr % STACK_MAX_PAGES + (st.range.stop - pageOf addr) ≤ STACK_MAX_PAGES
      have hdiv := Nat.div_add_mod' (pageOf addr) STACK_MAX_PAGES
      have hmod := Nat.mod_lt (pageOf addr) (show 0 < STACK_MAX_PAGES by decide)
      rw [← hslot] at hstop
      omega
    · show st.range.stop ≤ pageOf addr / STACK_MAX_PAGES * STACK_MAX_PAGES + STACK_MAX_PAGES
      rw [hslot]
      exact hstop
    · exact hst.area.of_slot hslot
    · rw [PageRange.mem_pages] at hp
      rcases Nat.lt_or_ge p st.range.start with hlt | hge
      · -- a new page
        have hpage : pageOf (startAddress (pageOf addr)) = pageOf addr := pageOf_startAddress _
        have hsum : pageOf addr + (st.range.start - pageOf addr) = st.range.start :=
          Nat.add_sub_cancel' hle
        have hlo : pageOf addr ≤ p := hp.1
        have hgrown := mapPages_ok (by omega) (by rw [hpage, hsum]; exact hst.start_lt) hmap
        rw [hpage, hsum] at hgrown
        obtain ⟨rfl, hgrown⟩ := hgrown
        exact hmoves.own_new (hgrown.fresh p (PageRange.mem_pages.mpr ⟨hlo, hlt⟩))
      · exact hmoves.own p (hst.own p (PageRange.mem_pages.mpr ⟨hge, hp.2⟩))

theorem handlePageFault_moves {addr : ℕ} {user ok : Bool} (h : Labelled E use i m)
    (hm : st.handlePageFault B addr user m = .ok (ok, st', m')) :
    ∃ use', Moves E i use m use' m' ∧ (st.Held use i m.table → st'.Held use' i m'.table) := by
  unfold handlePageFault at hm
  split_ifs at hm with hon
  · obtain ⟨⟨r, st₁, m₁⟩, hgrow, hm⟩ := bind_eq_ok.mp hm
    obtain ⟨use', hmoves, hheld⟩ := growStack_moves h hgrow
    cases r <;> cases hm <;> exact ⟨use', hmoves, hheld hon⟩
  · cases hm
    exact ⟨use, .refl h, id⟩

/-- Growth stays in the slot of the stack. -/
theorem handlePageFault_slot {addr : ℕ} {user ok : Bool} (hpos : 0 < st.range.start)
    (hlt : st.range.start * PAGE_SIZE < U64)
    (hm : st.handlePageFault B addr user m = .ok (ok, st', m')) : st'.slot = st.slot ∧
      ∀ p, m'.table p ≠ none → m.table p ≠ none ∨ p / STACK_MAX_PAGES = st.slot := by
  unfold handlePageFault at hm
  split_ifs at hm with hon
  · simp only [growStack, bind_eq_ok] at hm
    obtain ⟨⟨r, st₁, m₁⟩, ⟨_, -, hgrow⟩, hm⟩ := hm
    split_ifs at hgrow with hle
    rw [not_lt] at hle
    obtain ⟨⟨x, m₂⟩, hmap, hgrow⟩ := bind_eq_ok.mp hgrow
    have haddr : addr < U64 := by
      simp only [pageOf, PAGE_SIZE, U64] at hle hlt ⊢
      omega
    have hslot : pageOf addr / STACK_MAX_PAGES = st.slot := slot_of_isOnStack hon haddr hlt
    have hlast : m₂ = m' ∧ st'.slot = st.slot := by
      rcases x with e | r
      · cases hgrow
        cases hm
        exact ⟨rfl, rfl⟩
      · cases hgrow
        cases hm
        exact ⟨rfl, hslot⟩
    obtain ⟨rfl, hst'⟩ := hlast
    have hpage : pageOf (startAddress (pageOf addr)) = pageOf addr := pageOf_startAddress _
    have hsum : pageOf addr + (st.range.start - pageOf addr) = st.range.start :=
      Nat.add_sub_cancel' hle
    refine ⟨hst', fun p hp => ?_⟩
    have hnew := mapPages_between (by rw [hpage, hsum]; exact hpos) (by rw [hpage, hsum]; exact hlt)
      hmap hp
    rw [hpage, hsum] at hnew
    refine hnew.imp_right fun hbetween => Nat.le_antisymm ?_ ?_
    · exact Nat.div_le_div_right hbetween.2.le
    · exact hslot.symm.trans_le (Nat.div_le_div_right hbetween.1)
  · cases hm
    exact ⟨rfl, fun p hp => Or.inl hp⟩

end Stack

/-! ### The heap -/

variable {v v' : Vm BootInfoFrameAllocator}

/-- The heap pages belong to the address space, and so does its top-level frame. -/
structure SpaceHeld (use : Uses) (i : SpaceId) (s : AddressSpace) : Prop where
  inHeap : Heap.InHeap s.heapEnd
  heap : ∀ p ∈ Heap.pages s.heapEnd, Owns use i s.table p
  top : use s.addr = .top i

/-- An operation that leaves the end of the heap and the top-level frame as they are. -/
theorem SpaceHeld.moves (h : SpaceHeld use i v.space) (hm : Moves E i use v.mem use' v'.mem)
    (hend : v'.space.heapEnd = v.space.heapEnd) (haddr : v'.space.addr = v.space.addr) :
    SpaceHeld use' i v'.space :=
  ⟨hend ▸ h.inHeap, fun p hp => hm.own p (h.heap p (hend ▸ hp)), haddr ▸ hm.top h.top⟩

/-- The heap is in the area between its ends too. -/
theorem SpaceHeld.entry {s : AddressSpace} (h : SpaceHeld use i s) (hp : p ∈ Heap.pages s.heapEnd) :
    topEntry (pageOf STACK_AREA_BOT) ≤ topEntry p ∧ topEntry p < topEntry (pageOf STACK_MAX) := by
  obtain ⟨hlo, hhi⟩ := Heap.inArea_of_mem h.inHeap hp
  have h1 : topEntry (pageOf STACK_AREA_BOT) = topEntry (pageOf HEAP_START) := rfl
  have h2 : topEntry (pageOf (HEAP_START + HEAP_SIZE)) < topEntry (pageOf STACK_MAX) := by decide
  rw [h1]
  exact ⟨Nat.div_le_div_right hlo, (Nat.div_le_div_right hhi).trans_lt h2⟩

namespace Heap

theorem brk_moves {newEnd res : Option ℕ} (h : Labelled E use i v.mem) (hs : SpaceHeld use i v.space)
    (hb : brk newEnd v = (res, v')) :
    ∃ use', Moves E i use v.mem use' v'.mem ∧ SpaceHeld use' i v'.space ∧
      v'.space.usingCount = v.space.usingCount := by
  have hout := brk_outcome newEnd v
  rw [hb] at hout
  cases hout with
  | query => exact ⟨use, .refl h, hs, rfl⟩
  | outOfRange => exact ⟨use, .refl h, hs, rfl⟩
  | @stay e he heq =>
      refine ⟨use, .refl h, ⟨he, fun p hp => hs.heap p ?_, hs.top⟩, rfl⟩
      have hp' : p ∈ pages e := hp
      rw [mem_pages] at hp' ⊢
      rwa [heq]
  | @map e m he hlt hm =>
      obtain ⟨use', hmoves⟩ := mapEach_moves h hm
      refine ⟨use', hmoves, ⟨he, fun p hp => ?_, hmoves.top hs.top⟩, rfl⟩
      have hp' : p ∈ pages e := hp
      rw [mem_pages] at hp'
      rcases Nat.lt_or_ge p (endPage v.space.heapEnd) with hold | hnew
      · exact hmoves.own p (hs.heap p (mem_pages.mpr ⟨hp'.1, hold⟩))
      · exact hmoves.own_new ((mapEach_ok hm).fresh p (PageRange.mem_pages.mpr ⟨hnew, hp'.2⟩))
  | @mapFails e m er he hlt hm =>
      obtain ⟨use', hmoves⟩ := mapEach_moves h hm
      exact ⟨use', hmoves, hs.moves hmoves rfl rfl, rfl⟩
  | @unmap e m he hlt hm =>
      obtain ⟨use', hmoves⟩ := unmapEach_moves h
        (fun p hp => hs.heap p ((mem_pages_grow he hlt.le).mpr (Or.inl hp))) hm
      refine ⟨use', hmoves, ⟨he, fun p hp => hmoves.own p (hs.heap p ?_), hmoves.top hs.top⟩, rfl⟩
      exact (mem_pages_grow he hlt.le).mpr (Or.inr hp)
  | @unmapFails e m er he hlt hm =>
      obtain ⟨use', hmoves⟩ := unmapEach_moves h
        (fun p hp => hs.heap p ((mem_pages_grow he hlt.le).mpr (Or.inl hp))) hm
      exact ⟨use', hmoves, hs.moves hmoves rfl rfl, rfl⟩

theorem cleanUp_moves {r : Except UnmapError Unit} (h : Labelled E use i v.mem)
    (hs : SpaceHeld use i v.space) (hc : cleanUp v = (r, v')) :
    (∃ use', Moves E i use v.mem use' v'.mem) ∧ v'.space.addr = v.space.addr ∧
      v'.space.usingCount = v.space.usingCount := by
  unfold cleanUp at hc
  split_ifs at hc with hend
  · cases hc
    exact ⟨⟨use, .refl h⟩, rfl, rfl⟩
  · have hpages : (PageRangeInclusive.mk (pageOf HEAP_START) (pageOf v.space.heapEnd)).pages =
        pages v.space.heapEnd := by
      rw [PageRangeInclusive.pages_eq, pages, endPage, if_neg hend]
    rcases hm : unmapRange ⟨pageOf HEAP_START, pageOf v.space.heapEnd⟩ v.mem with ⟨x, m⟩
    have hmoves := unmapEach_moves h (fun p hp => hs.heap p (hpages ▸ hp)) hm
    rw [hm] at hc
    cases x <;> cases hc <;> exact ⟨hmoves, rfl, rfl⟩

end Heap

/-! ### The code -/

/-- No byte of a loaded segment lies under one of the entries. -/
def ElfFile.Clear (elf : ElfFile) (E : Finset ℕ) : Prop :=
  ∀ seg ∈ elf.programHeaders, seg.isLoaded = true →
    ∀ k < seg.memSize, topEntry (pageOf ((seg.virtualAddr + k) % U64)) ∉ E

instance (elf : ElfFile) (E : Finset ℕ) : Decidable (elf.Clear E) :=
  inferInstanceAs (Decidable (∀ seg ∈ elf.programHeaders, seg.isLoaded = true →
    ∀ k < seg.memSize, topEntry (pageOf ((seg.virtualAddr + k) % U64)) ∉ E))

/-- The range that `load_segment` returns for a segment. -/
def ProgramHeader.Returns (B : Build) (seg : ProgramHeader) (r : PageRangeInclusive) : Prop :=
  canonical seg.virtualAddr = true ∧ ∃ e l, B.virtAdd seg.virtualAddr seg.memSize = .ok e ∧
    B.virtSub e 1 = .ok l ∧ r = ⟨pageOf seg.virtualAddr, pageOf l⟩

/-- Every page of the range has a byte of the segment. -/
theorem ProgramHeader.Returns.byte {seg : ProgramHeader} {r : PageRangeInclusive}
    (h : seg.Returns B r) (hsize : seg.memSize ≠ 0) (hp : p ∈ r.pages) :
    ∃ k < seg.memSize, p = pageOf ((seg.virtualAddr + k) % U64) := by
  obtain ⟨hvirt, e, l, he, hl, rfl⟩ := h
  have he' := (B.add_wraps _ _ _ (B.virtAdd_ok he)).2
  have hl' := (B.sub_wraps _ _ _ (B.virtSub_ok hl)).2
  rw [PageRangeInclusive.mem_pages] at hp
  dsimp only at hp
  have hlast : l = (seg.virtualAddr + seg.memSize - 1) % U64 := by
    rw [hl', he', Nat.mod_add_mod]
    rw [show seg.virtualAddr + seg.memSize + (U64 - 1) = seg.virtualAddr + seg.memSize - 1 + U64 by
      simp only [U64]
      omega, Nat.add_mod_right]
  have hle : l ≤ seg.virtualAddr + seg.memSize - 1 := hlast ▸ Nat.mod_le _ _
  have hlt : l < U64 := hlast ▸ Nat.mod_lt _ (by decide)
  by_cases hfirst : p * PAGE_SIZE ≤ seg.virtualAddr
  · refine ⟨0, Nat.pos_of_ne_zero hsize, ?_⟩
    rw [Nat.add_zero, Nat.mod_eq_of_lt (canonical_lt hvirt)]
    simp only [pageOf, PAGE_SIZE] at hp hfirst ⊢
    omega
  · refine ⟨p * PAGE_SIZE - seg.virtualAddr, ?_, ?_⟩
    · simp only [pageOf, PAGE_SIZE] at hp hfirst ⊢
      omega
    · rw [Nat.add_sub_cancel' (by omega), Nat.mod_eq_of_lt ?_]
      · exact (pageOf_startAddress p).symm
      · simp only [pageOf, PAGE_SIZE] at hp hfirst ⊢
        omega

theorem loadFileData_moves {elf : ElfFile} {seg : ProgramHeader} {user : Bool} {virtStart : ℕ}
    {r : Except MapToError Unit} (h : Labelled E use i m)
    (hm : loadFileData B elf seg user virtStart m = .ok (r, m')) : ∃ use', Moves E i use m use' m' := by
  unfold loadFileData at hm
  split_ifs at hm
  · simp only [bind_eq_ok] at hm
    obtain ⟨e, -, l, -, hm⟩ := hm
    exact loadEach_moves h hm
  · cases hm
    exact ⟨use, .refl h⟩

theorem loadBss_moves {seg : ProgramHeader} {user : Bool} {virtStart : ℕ}
    {r : Except MapToError Unit} (h : Labelled E use i m)
    (hm : loadBss B seg user virtStart m = .ok (r, m')) : ∃ use', Moves E i use m use' m' := by
  unfold loadBss at hm
  split_ifs at hm
  · simp only [bind_eq_ok, pure_eq_ok] at hm
    obtain ⟨b, -, u, -, e, -, l, -, hm⟩ := hm
    exact zeroEach_moves h hm
  · cases hm
    exact ⟨use, .refl h⟩

theorem loadSegment_moves {elf : ElfFile} {seg : ProgramHeader} {user : Bool}
    {r : PageRangeInclusive × ℕ} (h : Labelled E use i m)
    (hm : loadSegment B elf seg user m = .ok (.ok r, m')) :
    (∃ use', Moves E i use m use' m') ∧ seg.Returns B r.1 := by
  have hvirt : canonical seg.virtualAddr = true := by
    obtain ⟨virtStart, hnew, -⟩ := bind_eq_ok.mp hm
    exact (virtAddrNew_ok hnew).2
  obtain ⟨m₁, e, l, hfile, hbss, he, hl, rfl⟩ := loadSegment_parts hm
  obtain ⟨use₁, hfirst⟩ := loadFileData_moves h hfile
  obtain ⟨use₂, hsecond⟩ := loadBss_moves hfirst.labelled hbss
  exact ⟨⟨use₂, hfirst.trans hsecond⟩, hvirt, e, l, he, hl, rfl⟩

theorem loadSegments_moves {elf : ElfFile} {user : Bool} : ∀ {segs : List ProgramHeader}
    {ranges ranges' : List PageRangeInclusive} {usage usage' : ℕ} {use : Uses}
    {m m' : Mem BootInfoFrameAllocator}, Labelled E use i m →
      loadSegments B elf user segs ranges usage m = .ok (.ok (ranges', usage'), m') →
      (∃ use', Moves E i use m use' m') ∧ ∀ r ∈ ranges', r ∈ ranges ∨
        ∃ seg ∈ segs, seg.isLoaded = true ∧ seg.memSize ≠ 0 ∧ seg.Returns B r
  | [], _, _, _, _, use, _, _, h, hm => by
      cases hm
      exact ⟨⟨use, .refl h⟩, fun r hr => Or.inl hr⟩
  | seg :: segs, ranges, ranges', usage, usage', use, m, m', h, hm => by
      have hskip : loadSegments B elf user segs ranges usage m = .ok (.ok (ranges', usage'), m') →
          (∃ use', Moves E i use m use' m') ∧ ∀ r ∈ ranges', r ∈ ranges ∨
            ∃ s ∈ seg :: segs, s.isLoaded = true ∧ s.memSize ≠ 0 ∧ s.Returns B r := fun hm =>
        (loadSegments_moves h hm).imp_right fun hranges r hr => (hranges r hr).imp_right
          fun ⟨s, hs, hrest⟩ => ⟨s, List.mem_cons_of_mem _ hs, hrest⟩
      unfold loadSegments at hm
      split at hm
      · cases hm
      · exact hskip hm
      · rename_i hload
        split_ifs at hm with hsize
        · exact hskip hm
        obtain ⟨⟨x, m₁⟩, hseg, hm⟩ := bind_eq_ok.mp hm
        rcases x with e | ⟨range, bytes⟩
        · cases hm
        obtain ⟨total, -, hm⟩ := bind_eq_ok.mp hm
        obtain ⟨⟨use₁, hfirst⟩, hreturns⟩ := loadSegment_moves h hseg
        obtain ⟨⟨use₂, hrest⟩, hranges⟩ := loadSegments_moves hfirst.labelled hm
        have hloaded : seg.isLoaded = true := by simp [ProgramHeader.isLoaded, hload, hsize]
        refine ⟨⟨use₂, hfirst.trans hrest⟩, fun r hr => ?_⟩
        rcases hranges r hr with hold | ⟨s, hs, hrest⟩
        · split_ifs at hold
          · rcases List.mem_append.mp hold with hold | hnew
            · exact Or.inl hold
            · rw [List.mem_singleton.mp hnew]
              exact Or.inr ⟨seg, List.mem_cons_self, hloaded, hsize, hreturns⟩
          · exact Or.inl hold
        · exact Or.inr ⟨s, List.mem_cons_of_mem _ hs, hrest⟩

/-! ### The memory of a process -/

namespace ProcessVm

variable {vm vm' : ProcessVm}

/-- The stack and the code of a process belong to its address space, and the code is not under the
entries `E`. -/
structure Held (E : Finset ℕ) (use : Uses) (T : PageTable) (vm : ProcessVm) : Prop where
  stack : vm.stack.Held use vm.pageTable T
  code : ∀ r ∈ vm.code, ∀ p ∈ r.pages, topEntry p ∉ E
  own : ∀ r ∈ vm.code, ∀ p ∈ r.pages, Owns use vm.pageTable T p

theorem Held.moves (h : vm.Held E use v.space.table) (hm : Moves E vm.pageTable use v.mem use' v'.mem) :
    vm.Held E use' v'.space.table :=
  ⟨⟨h.stack.toInSlot, h.stack.area, fun p hp => hm.own p (h.stack.own p hp)⟩, h.code,
    fun r hr p hp => hm.own p (h.own r hr p hp)⟩

/-- A program whose segments are clear of the entries that are in use. -/
theorem loadElf_moves {elf : ElfFile} (h : Labelled E use vm.pageTable v.mem)
    (htable : ∀ p, v.space.table p ≠ none → topEntry p ∈ E) (hclear : elf.Clear E)
    (hload : vm.loadElf B elf v = .ok (vm', v')) :
    vm'.pageTable = vm.pageTable ∧ ∃ use', Moves E vm.pageTable use v.mem use' v'.mem ∧
      vm'.Held E use' v'.space.table ∧ v'.space.heapEnd = v.space.heapEnd ∧
      v'.space.addr = v.space.addr ∧ v'.space.usingCount = v.space.usingCount := by
  have hsame : vm'.pageTable = vm.pageTable := by
    simp only [loadElf, loadElfCode, bind_eq_ok, pure_eq_ok] at hload
    obtain ⟨⟨vm₁, v₁⟩, ⟨⟨r, m⟩, -, hcode⟩, ⟨stack, m'⟩, -, hload⟩ := hload
    rcases r with e | ⟨code, usage⟩
    · cases hcode
    · cases hcode
      cases hload
      rfl
  obtain ⟨m₁, m₂, hcode, hstack, hinit, rfl⟩ := loadElf_eq hload
  obtain ⟨⟨use₁, hfirst⟩, hranges⟩ := loadSegments_moves h hcode
  obtain ⟨use₂, hsecond⟩ := mapEach_moves hfirst.labelled hstack
  have hmoves := hfirst.trans hsecond
  have hcode : ∀ r ∈ vm'.code, ∀ p ∈ r.pages, topEntry p ∉ E := by
    intro r hr p hp
    rcases hranges r hr with hnil | ⟨seg, hseg, hloaded, hsize, hreturns⟩
    · cases hnil
    · obtain ⟨k, hk, rfl⟩ := hreturns.byte hsize hp
      exact hclear seg hseg hloaded k hk
  refine ⟨hsame, use₂, hmoves, ⟨?_, hcode, fun r hr p hp => ?_⟩, rfl, rfl, rfl⟩
  · rw [hinit, hsame]
    exact ⟨Stack.initial_inSlot, Stack.initial_inArea,
      fun p hp => hsecond.own_new ((mapEach_ok hstack).fresh p hp)⟩
  · rw [hsame]
    exact hmoves.own_new (by_contra fun he => hcode r hr p hp (htable p he))

theorem fork_moves {childCount : ℕ} (h : Labelled E use vm.pageTable v.mem)
    (hheld : vm.Held E use v.space.table) (hfork : vm.fork B childCount v = .ok (vm', v'))
    (harea : vm'.stack.InArea) :
    vm'.pageTable = vm.pageTable ∧ ∃ use', Moves E vm.pageTable use v.mem use' v'.mem ∧
      vm'.Held E use' v'.space.table ∧ v'.space.heapEnd = v.space.heapEnd ∧
      v'.space.addr = v.space.addr ∧ v'.space.usingCount = v.space.usingCount + 1 := by
  simp only [fork, bind_eq_ok, pure_eq_ok] at hfork
  obtain ⟨⟨stack, m⟩, hstack, hfork⟩ := hfork
  cases hfork
  obtain ⟨use', hmoves, hst⟩ := Stack.vfork_moves h hheld.stack.toInSlot hstack harea
  have hnil : ∀ r ∈ ([] : List PageRangeInclusive), ∀ p ∈ r.pages, False := fun r hr => by cases hr
  exact ⟨rfl, use', hmoves, ⟨hst, fun r hr p hp => (hnil r hr p hp).elim,
    fun r hr p hp => (hnil r hr p hp).elim⟩, rfl, rfl, rfl⟩

theorem handlePageFault_moves {addr : ℕ} {user ok : Bool} (h : Labelled E use vm.pageTable v.mem)
    (hfault : vm.handlePageFault B addr user v = .ok (ok, vm', v')) :
    vm'.pageTable = vm.pageTable ∧ ∃ use', Moves E vm.pageTable use v.mem use' v'.mem ∧
      (vm.Held E use v.space.table → vm'.Held E use' v'.space.table) ∧
      v'.space.heapEnd = v.space.heapEnd ∧ v'.space.addr = v.space.addr ∧
      v'.space.usingCount = v.space.usingCount := by
  simp only [handlePageFault, bind_eq_ok, pure_eq_ok] at hfault
  obtain ⟨⟨ok, stack, m⟩, hstack, hfault⟩ := hfault
  cases hfault
  obtain ⟨use', hmoves, hst⟩ := Stack.handlePageFault_moves h hstack
  refine ⟨rfl, use', hmoves, fun hheld => ?_, rfl, rfl, rfl⟩
  have hmoved : vm.Held E use' (v.setMem m).space.table := hheld.moves hmoves
  exact ⟨hst hheld.stack, hmoved.code, hmoved.own⟩

/-- A page fault of the kernel process maps pages of the slot of its stack. -/
theorem handlePageFault_kernel {addr : ℕ} {user ok : Bool} (hslot : vm.stack.slot = Stack.kstack.slot)
    (hfault : vm.handlePageFault B addr user v = .ok (ok, vm', v')) :
    vm'.stack.slot = Stack.kstack.slot ∧ ∀ p, v'.space.table p ≠ none →
      v.space.table p ≠ none ∨ topEntry p = topEntry Stack.kstack.range.start := by
  simp only [handlePageFault, bind_eq_ok, pure_eq_ok] at hfault
  obtain ⟨⟨ok, stack, m⟩, hstack, hfault⟩ := hfault
  cases hfault
  have hstart : 0 < vm.stack.range.start ∧ vm.stack.range.start * PAGE_SIZE < U64 := by
    have hkernel : Stack.kstack.slot = 0xffffff01 := by decide
    rw [hkernel] at hslot
    simp only [Stack.slot, STACK_MAX_PAGES, PAGE_SIZE, U64] at hslot ⊢
    omega
  obtain ⟨hslot', hpages⟩ := Stack.handlePageFault_slot hstart.1 hstart.2 hstack
  refine ⟨hslot'.trans hslot, fun p hp => (hpages p hp).imp_right fun he => ?_⟩
  have hdiv : ENTRIES ^ 3 = STACK_MAX_PAGES * 128 := by decide
  have hkernel : p / STACK_MAX_PAGES = Stack.kstack.range.start / STACK_MAX_PAGES := he.trans hslot
  rw [topEntry, topEntry, hdiv, ← Nat.div_div_eq_div_mul, hkernel, Nat.div_div_eq_div_mul]

theorem unmapCode_moves : ∀ {code : List PageRangeInclusive} {use : Uses}
    {m m' : Mem BootInfoFrameAllocator} {r : Except UnmapError Unit}, Labelled E use i m →
      (∀ r ∈ code, ∀ p ∈ r.pages, Owns use i m.table p) → unmapCode code m = (r, m') →
      ∃ use', Moves E i use m use' m'
  | [], use, m, m', r, h, _, hm => by
      cases hm
      exact ⟨use, .refl h⟩
  | c :: cs, use, m, m', r, h, hown, hm => by
      rcases hrange : unmapRange c m with ⟨x, m₁⟩
      obtain ⟨use₁, hfirst⟩ := unmapEach_moves h (hown c List.mem_cons_self) hrange
      simp only [unmapCode, hrange] at hm
      cases x with
      | error e =>
          cases hm
          exact ⟨use₁, hfirst⟩
      | ok u =>
          obtain ⟨use₂, hrest⟩ := unmapCode_moves hfirst.labelled
            (fun r hr p hp => hfirst.own p (hown r (List.mem_cons_of_mem _ hr) p hp)) hm
          exact ⟨use₂, hfirst.trans hrest⟩

end ProcessVm

/-- The top-level frame of an address space is returned. -/
theorem Labelled.giveTop (h : Labelled E use i m) (hf : use f = .top i) :
    Labelled E (Function.update use f .free) i { m with alloc := deallocateFrame m.alloc f } ∧
      KeepsOthers i use m (Function.update use f .free)
        { m with alloc := deallocateFrame m.alloc f } := by
  have hlist : (deallocateFrame m.alloc f).free = f :: m.alloc.free := rfl
  have hnot : f ∉ m.alloc.free := fun hmem => by
    rw [(h.free f).mp hmem] at hf
    cases hf
  refine ⟨⟨?_, fun g => ?_, fun p e he hu => ?_⟩, fun g _ _ htop => ?_⟩
  · show (deallocateFrame m.alloc f).free.Nodup
    rw [hlist]
    exact List.nodup_cons.mpr ⟨hnot, h.nodup⟩
  · show g ∈ (deallocateFrame m.alloc f).free ↔ _
    rw [hlist, List.mem_cons]
    by_cases hg : g = f
    · rw [hg, Function.update_self]
      exact iff_of_true (Or.inl rfl) rfl
    · rw [or_iff_right hg, Function.update_of_ne hg]
      exact h.free g
  · have huse := h.own p e he hu
    rwa [Function.update_of_ne]
    rintro rfl
    rw [hf] at huse
    cases huse
  · exact ⟨Function.update_of_ne (fun hg => htop (by rw [hg, hf])) _ _, rfl⟩

theorem Moves.transKeeps (h : Moves E i use m use₁ m₁) (h' : KeepsOthers i use₁ m₁ use₂ m₂) :
    KeepsOthers i use m use₂ m₂ := by
  intro f hfree hpage htop
  obtain ⟨huse, hphys⟩ := h.keep f hfree hpage
  obtain ⟨huse', hphys'⟩ := h' f (huse ▸ hfree) (huse ▸ hpage) (huse ▸ htop)
  exact ⟨huse'.trans huse, hphys'.trans hphys⟩

namespace ProcessVm

variable {vm : ProcessVm}

theorem freeShared_moves {r : Except UnmapError Unit} (h : Labelled E use vm.pageTable v.mem)
    (hcode : ∀ r ∈ vm.code, ∀ p ∈ r.pages, Owns use vm.pageTable v.space.table p)
    (hs : SpaceHeld use vm.pageTable v.space) (hfree : vm.freeShared v = (r, v')) :
    (∃ use', Labelled E use' vm.pageTable v'.mem ∧ KeepsOthers vm.pageTable use v.mem use' v'.mem) ∧
      v'.space.usingCount = v.space.usingCount := by
  unfold freeShared at hfree
  rcases hheap : Heap.cleanUp v with ⟨x, v₁⟩
  obtain ⟨⟨use₁, hfirst⟩, haddr, hcount⟩ := Heap.cleanUp_moves h hs hheap
  simp only [hheap] at hfree
  cases x with
  | error e =>
      cases hfree
      exact ⟨⟨use₁, hfirst.labelled, hfirst.keeps⟩, hcount⟩
  | ok u =>
      rcases hun : unmapCode vm.code v₁.mem with ⟨y, m⟩
      obtain ⟨use₂, hsecond⟩ := unmapCode_moves hfirst.labelled
        (fun r hr p hp => hfirst.own p (hcode r hr p hp)) hun
      have hmoves := hfirst.trans hsecond
      simp only [hun] at hfree
      cases y with
      | error e =>
          cases hfree
          exact ⟨⟨use₂, hmoves.labelled, hmoves.keeps⟩, hcount⟩
      | ok u =>
          cases hfree
          obtain ⟨hlabelled, hkeeps⟩ := hmoves.labelled.giveTop (haddr ▸ hmoves.top hs.top)
          exact ⟨⟨_, hlabelled, hmoves.transKeeps hkeeps⟩, hcount⟩

/-- Dropping the memory of a process leaves the frames of the other address spaces alone; while others
use the page table, it only unmaps pages. -/
theorem drop_moves (h : Labelled E use vm.pageTable v.mem) (hheld : vm.Held E use v.space.table)
    (hs : SpaceHeld use vm.pageTable v.space) (hdrop : vm.drop B v = .ok v') :
    ∃ use', Labelled E use' vm.pageTable v'.mem ∧ KeepsOthers vm.pageTable use v.mem use' v'.mem ∧
      v'.space.usingCount = v.space.usingCount - 1 ∧
      (v.space.usingCount ≠ 1 → Moves E vm.pageTable use v.mem use' v'.mem ∧
        v'.space.heapEnd = v.space.heapEnd ∧ v'.space.addr = v.space.addr) := by
  simp only [drop, bind_eq_ok, pure_eq_ok] at hdrop
  obtain ⟨⟨r, v₁⟩, hclean, rfl⟩ := hdrop
  simp only [cleanUp, bind_eq_ok] at hclean
  obtain ⟨⟨x, st, m⟩, hstack, hclean⟩ := hclean
  obtain ⟨use₁, hfirst⟩ := Stack.cleanUp_moves h hheld.stack hstack
  cases x with
  | error e =>
      cases hclean
      exact ⟨use₁, hfirst.labelled, hfirst.keeps, rfl, fun _ => ⟨hfirst, rfl, rfl⟩⟩
  | ok u =>
      dsimp only at hclean
      split_ifs at hclean with hcount
      · rcases hfree : vm.freeShared (v.setMem m) with ⟨y, v₂⟩
        have hcode : ∀ r ∈ vm.code, ∀ p ∈ r.pages, Owns use₁ vm.pageTable m.table p :=
          fun r hr p hp => hfirst.own p (hheld.own r hr p hp)
        have hs₁ : SpaceHeld use₁ vm.pageTable (v.setMem m).space := hs.moves hfirst rfl rfl
        obtain ⟨⟨use₂, hlabelled, hkeeps⟩, hsame⟩ :=
          freeShared_moves (v := v.setMem m) hfirst.labelled hcode hs₁ hfree
        rw [hfree] at hclean
        cases hclean
        refine ⟨use₂, hlabelled, hfirst.transKeeps hkeeps, ?_, fun hne => absurd hcount hne⟩
        exact congrArg (· - 1) hsame
      · cases hclean
        exact ⟨use₁, hfirst.labelled, hfirst.keeps, rfl, fun _ => ⟨hfirst, rfl, rfl⟩⟩

end ProcessVm

end Ysos
