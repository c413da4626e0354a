import Ysos.Image
import Ysos.ProcessVm

/-! # What `load_elf` returns and what it maps

`load_elf` computes the ranges and the usage from the sizes in memory, and maps the pages in two
loops with ends of their own.

* `Places`: the pages that a part of the loader maps, with the frames in the order in which the
  allocator grants them.
* `loadSegments_ranges`: the ranges and the usage, from the headers alone.
* `loadElf_accounted`: for segments that start on page boundaries the ranges are the pages that are
  new, each with a frame of its own and the flags of its segment.
* `loadElf_unmapCode`: unmapping the ranges restores the page table. -/

namespace Ysos

open PartialMap Runs

variable {α : Type} [FrameAllocator α] {B : Build}

/-! ### Frames in their order -/

/-- From `m` to `m'` the pages of the list are mapped to its entries, whose frames are the next ones
that the allocator grants. -/
structure Places (es : List (ℕ × PageTableEntry)) (m m' : Mem α) : Prop where
  table : Grown m.table {p | p ∈ es.map Prod.fst} m'.table
  entries : ∀ x ∈ es, m'.table x.1 = some x.2
  granted : ∀ n, grantedFrames (es.length + n) m.alloc =
    es.map (fun x => x.2.frame) ++ grantedFrames n m'.alloc

namespace Places

variable {es es' : List (ℕ × PageTableEntry)} {m m' m'' : Mem α} {p : ℕ}

theorem refl (m : Mem α) : Places [] m m where
  table := (Grown.refl m.table).congr (by ext; simp)
  entries _ hx := nomatch hx
  granted n := by rw [List.length_nil, Nat.zero_add, List.map_nil, List.nil_append]

theorem trans (h : Places es m m') (h' : Places es' m' m'') : Places (es ++ es') m m'' where
  table := (h.table.trans h'.table).congr (by ext; simp)
  entries x hx := by
    rcases List.mem_append.mp hx with hx | hx
    · exact h'.table.keeps (h.entries x hx)
    · exact h'.entries x hx
  granted n := by
    rw [List.length_append, Nat.add_assoc, h.granted, h'.granted, List.map_append, List.append_assoc]

theorem page {a : α} {f : Frame} {c : Frame → ℕ → UInt8} (flags : PageTableFlags)
    (ha : allocateFrame m.alloc = (some f, a)) (hp : m.table p = none) :
    Places [(p, ⟨f, flags⟩)] m ⟨Function.update m.table p (some ⟨f, flags⟩), a, c⟩ where
  table := (Grown.single _ hp).congr (by ext; simp)
  entries x hx := by
    rw [List.mem_singleton.mp hx]
    exact Function.update_self _ _ _
  granted n := by
    rw [List.length_singleton, Nat.add_comm]
    simp only [grantedFrames, ha]
    rfl

theorem frameOf_inj (h : Places es m m') (hu : Unique m.alloc) {p q : ℕ}
    (hp : p ∈ es.map Prod.fst) (hq : q ∈ es.map Prod.fst)
    (hf : m'.table.frameOf p = m'.table.frameOf q) : p = q := by
  have hnodup : (es.map fun x => x.2.frame).Nodup := by
    have hn := hu (es.length + 0)
    rw [h.granted, grantedFrames, List.append_nil] at hn
    exact hn
  obtain ⟨x, hx, rfl⟩ := List.mem_map.mp hp
  obtain ⟨y, hy, rfl⟩ := List.mem_map.mp hq
  rw [PageTable.frameOf, PageTable.frameOf, h.entries x hx, h.entries y hy] at hf
  rw [List.inj_on_of_nodup_map hnodup hx hy hf]

end Places

/-! ### One segment -/

theorem loadEach_places {elf : ElfFile} {seg : ProgramHeader} {flags : PageTableFlags} :
    ∀ {ps : List ℕ} {idx : ℕ} {m m' : Mem α}, loadEach B elf seg flags idx ps m = .ok (.ok (), m') →
      ∃ es, Places es m m' ∧ ∀ x ∈ es, x.2.flags = flags
  | [], idx, m, m', h => by
      cases h
      exact ⟨[], Places.refl m, nofun⟩
  | p :: ps, idx, m, m', h => by
      unfold loadEach at h
      split at h
      · cases h
      · rename_i f a ha
        obtain ⟨left, -, h⟩ := bind_eq_ok.mp h
        simp only [Mem.mapTo] at h
        rcases hp : m.table p with _ | e <;> simp only [hp] at h
        · obtain ⟨es, hes, hflags⟩ := loadEach_places h
          refine ⟨_, (Places.page flags ha hp).trans hes, ?_⟩
          rintro x (_ | ⟨_, hx⟩)
          · rfl
          · exact hflags x hx
        · cases h

theorem zeroEach_places {flags : PageTableFlags} : ∀ {ps : List ℕ} {m m' : Mem α},
    zeroEach flags ps m = (.ok (), m') → ∃ es, Places es m m' ∧ ∀ x ∈ es, x.2.flags = flags
  | [], m, m', h => by
      cases h
      exact ⟨[], Places.refl m, nofun⟩
  | p :: ps, m, m', h => by
      unfold zeroEach at h
      split_ifs at h with hp
      · rw [Option.isNone_iff_eq_none] at hp
        split at h
        · cases h
        · rename_i f a ha
          simp only [Mem.mapTo, hp] at h
          obtain ⟨es, hes, hflags⟩ := zeroEach_places h
          refine ⟨_, (Places.page flags ha hp).trans hes, ?_⟩
          rintro x (_ | ⟨_, hx⟩)
          · rfl
          · exact hflags x hx
      · exact zeroEach_places h

theorem loadFileData_places {elf : ElfFile} {seg : ProgramHeader} {user : Bool} {v : ℕ} {m m' : Mem α}
    (h : loadFileData B elf seg user v m = .ok (.ok (), m')) :
    ∃ es, Places es m m' ∧ ∀ x ∈ es, x.2.flags = seg.flags user := by
  unfold loadFileData at h
  split_ifs at h
  · simp only [bind_eq_ok] at h
    obtain ⟨e, -, l, -, h⟩ := h
    exact loadEach_places h
  · cases h
    exact ⟨[], Places.refl m, nofun⟩

theorem loadBss_places {seg : ProgramHeader} {user : Bool} {v : ℕ} {m m' : Mem α}
    (h : loadBss B seg user v m = .ok (.ok (), m')) :
    ∃ es, Places es m m' ∧ ∀ x ∈ es, x.2.flags = seg.flags user := by
  unfold loadBss at h
  split_ifs at h
  · simp only [bind_eq_ok, pure_eq_ok] at h
    obtain ⟨b, -, u, -, e, -, l, -, h⟩ := h
    exact zeroEach_places h
  · cases h
    exact ⟨[], Places.refl m, nofun⟩

theorem loadSegment_places {elf : ElfFile} {seg : ProgramHeader} {user : Bool} {m m' : Mem α}
    {r : PageRangeInclusive × ℕ} (h : loadSegment B elf seg user m = .ok (.ok r, m')) :
    ∃ es, Places es m m' ∧ ∀ x ∈ es, x.2.flags = seg.flags user := by
  obtain ⟨m₁, e, l, h₁, h₂, -⟩ := loadSegment_parts h
  obtain ⟨es₁, hes₁, hflags₁⟩ := loadFileData_places h₁
  obtain ⟨es₂, hes₂, hflags₂⟩ := loadBss_places h₂
  refine ⟨es₁ ++ es₂, hes₁.trans hes₂, fun x hx => ?_⟩
  rcases List.mem_append.mp hx with hx | hx
  · exact hflags₁ x hx
  · exact hflags₂ x hx

theorem loadSegment_range {elf : ElfFile} {seg : ProgramHeader} {user : Bool} {m m' : Mem α}
    {r : PageRangeInclusive × ℕ} (hend : seg.virtualAddr + seg.memSize ≤ U64) (h0 : 0 < seg.memSize)
    (h : loadSegment B elf seg user m = .ok (.ok r, m')) :
    r = (seg.pageRange, seg.pageRange.count * PAGE_SIZE) := by
  obtain ⟨m₁, e, l, -, -, he, hl, rfl⟩ := loadSegment_parts h
  rw [lastByte_eq he hl h0 hend]
  rfl

/-! ### All segments -/

/-- The pages of the segments that are loaded, in their order. -/
def loadedPages (segs : List ProgramHeader) : List ℕ :=
  ((segs.filter ProgramHeader.isLoaded).map ProgramHeader.pageRange).flatMap PageRangeInclusive.pages

theorem loadSegments_ranges {elf : ElfFile} {user : Bool} :
    ∀ {segs : List ProgramHeader} {ranges : List PageRangeInclusive} {usage : ℕ} {m m' : Mem α}
      {r : List PageRangeInclusive × ℕ},
      (∀ seg ∈ segs, seg.isLoaded = true → seg.virtualAddr + seg.memSize ≤ U64) →
      usage + PAGE_SIZE * (loadedPages segs).length < U64 →
      loadSegments B elf user segs ranges usage m = .ok (.ok r, m') →
      r = (ranges ++ (segs.filter ProgramHeader.isLoaded).map ProgramHeader.pageRange,
        usage + PAGE_SIZE * (loadedPages segs).length)
  | [], ranges, usage, m, m', r, _, _, h => by
      cases h
      simp [loadedPages]
  | seg :: segs, ranges, usage, m, m', r, hend, hlt, h => by
      have hend' : ∀ t ∈ segs, t.isLoaded = true → t.virtualAddr + t.memSize ≤ U64 :=
        fun t ht => hend t (List.mem_cons_of_mem _ ht)
      have hskip : seg.isLoaded = false → (seg :: segs).filter ProgramHeader.isLoaded =
          segs.filter ProgramHeader.isLoaded := fun hno => List.filter_cons_of_neg (by simp [hno])
      unfold loadSegments at h
      split at h
      · cases h
      · rename_i hother
        have hno : seg.isLoaded = false := by simp [ProgramHeader.isLoaded, hother]
        rw [loadedPages, hskip hno] at hlt ⊢
        exact loadSegments_ranges hend' hlt h
      · rename_i hload
        split_ifs at h with hmem
        · have hno : seg.isLoaded = false := by simp [ProgramHeader.isLoaded, hmem]
          rw [loadedPages, hskip hno] at hlt ⊢
          exact loadSegments_ranges hend' hlt h
        have hl : seg.isLoaded = true := isLoaded_iff.mpr ⟨hload, hmem⟩
        obtain ⟨⟨r₁, m₁⟩, h₁, h⟩ := bind_eq_ok.mp h
        rcases r₁ with e | ⟨range, bytes⟩
        · cases h
        obtain ⟨total, htotal, h⟩ := bind_eq_ok.mp h
        obtain ⟨rfl, rfl⟩ := Prod.mk.inj (loadSegment_range (hend seg List.mem_cons_self hl)
          (Nat.pos_of_ne_zero hmem) h₁)
        have hpages : (loadedPages (seg :: segs)).length =
            seg.pageRange.count + (loadedPages segs).length := by
          rw [loadedPages, List.filter_cons_of_pos hl, List.map_cons, List.flatMap_cons,
            List.length_append, PageRangeInclusive.pages, List.length_range']
          rfl
        have hcount : 0 < seg.pageRange.count := by
          have hle : pageOf seg.virtualAddr ≤ pageOf (seg.virtualAddr + seg.memSize - 1) :=
            Nat.div_le_div_right (by omega)
          simp only [PageRangeInclusive.count, ProgramHeader.pageRange]
          omega
        rw [hpages] at hlt ⊢
        have hsum : usage + seg.pageRange.count * PAGE_SIZE + PAGE_SIZE * (loadedPages segs).length =
            usage + PAGE_SIZE * (seg.pageRange.count + (loadedPages segs).length) := by
          ring
        rw [B.add_eq (by omega)] at htotal
        cases htotal
        rw [if_pos hcount] at h
        rw [loadSegments_ranges hend' (by omega) h, List.filter_cons_of_pos hl, List.map_cons,
          List.append_assoc, hsum]
        rfl

/-- Each page of a segment that starts on a page boundary is mapped, with the flags of the segment. -/
theorem loadSegment_flags {elf : ElfFile} {seg : ProgramHeader} {user : Bool} {m m' : Mem α}
    {r : PageRangeInclusive × ℕ} (hu : Unique m.alloc) (hseg : seg.Loadable m.table)
    (halign : seg.virtualAddr % PAGE_SIZE = 0) (h0 : 0 < seg.memSize)
    (h : loadSegment B elf seg user m = .ok (.ok r, m')) :
    ∀ i < seg.memSize, ∃ f, m'.table (pageOf (seg.virtualAddr + i)) = some ⟨f, seg.flags user⟩ := by
  obtain ⟨S, hl, -, hbytes⟩ := loadSegment_loads hu hseg h0 h
  obtain ⟨es, hes, hflags⟩ := loadSegment_places h
  intro i hi
  have hmapped : m'.table (pageOf (seg.virtualAddr + i)) ≠ none := by
    intro hnone
    have hbyte := hbytes i hi
    rw [Mem.byteAt, Mem.pageBytes, hnone, ProgramHeader.imageByte] at hbyte
    split_ifs at hbyte with hdata hbss
    · cases hbyte
    · exact hbss.2.1 halign
    · cases hbyte
  obtain ⟨x, hx, hpage⟩ := List.mem_map.mp (hes.table.mem_iff.mpr ⟨hseg.free i hi, hmapped⟩)
  rw [← hpage, hes.entries x hx, ← hflags x hx]
  exact ⟨x.2.frame, rfl⟩

theorem loadSegments_places {elf : ElfFile} {user : Bool} :
    ∀ {segs : List ProgramHeader} {ranges : List PageRangeInclusive} {usage : ℕ} {m m' : Mem α}
      {r : List PageRangeInclusive × ℕ}, Unique m.alloc →
      (∀ seg ∈ segs, seg.isLoaded = true → seg.Loadable m.table ∧ seg.virtualAddr % PAGE_SIZE = 0) →
      PagesApart segs → loadSegments B elf user segs ranges usage m = .ok (.ok r, m') →
      ∃ es, Places es m m' ∧ ∀ seg ∈ segs, seg.isLoaded = true → ∀ i < seg.memSize,
        ∃ f, m'.table (pageOf (seg.virtualAddr + i)) = some ⟨f, seg.flags user⟩
  | [], ranges, usage, m, m', r, _, _, _, h => by
      cases h
      exact ⟨[], Places.refl m, nofun⟩
  | seg :: segs, ranges, usage, m, m', r, hu, hs, hd, h => by
      have hs' : ∀ t ∈ segs, t.isLoaded = true → t.Loadable m.table ∧ t.virtualAddr % PAGE_SIZE = 0 :=
        fun t ht => hs t (List.mem_cons_of_mem _ ht)
      have hskip : seg.isLoaded = false →
          loadSegments B elf user segs ranges usage m = .ok (.ok r, m') →
          ∃ es, Places es m m' ∧ ∀ t ∈ seg :: segs, t.isLoaded = true → ∀ i < t.memSize,
            ∃ f, m'.table (pageOf (t.virtualAddr + i)) = some ⟨f, t.flags user⟩ := by
        intro hno h
        obtain ⟨es, hes, hflags⟩ := loadSegments_places hu hs' hd.tail h
        refine ⟨es, hes, fun t ht htl => ?_⟩
        rcases List.mem_cons.mp ht with rfl | ht
        · exact absurd htl (by simp [hno])
        · exact hflags t ht htl
      unfold loadSegments at h
      split at h
      · cases h
      · rename_i hother
        exact hskip (by simp [ProgramHeader.isLoaded, hother]) h
      · rename_i hload
        split_ifs at h with hmem
        · exact hskip (by simp [ProgramHeader.isLoaded, hmem]) h
        have hl : seg.isLoaded = true := isLoaded_iff.mpr ⟨hload, hmem⟩
        have h0 := Nat.pos_of_ne_zero hmem
        obtain ⟨⟨r₁, m₁⟩, h₁, h⟩ := bind_eq_ok.mp h
        rcases r₁ with e | ⟨range, bytes⟩
        · cases h
        obtain ⟨total, -, h⟩ := bind_eq_ok.mp h
        obtain ⟨hseg, halign⟩ := hs seg List.mem_cons_self hl
        obtain ⟨S, hloads, hS, -⟩ := loadSegment_loads hu hseg h0 h₁
        obtain ⟨es₁, hes₁, -⟩ := loadSegment_places h₁
        have hs₁ : ∀ t ∈ segs, t.isLoaded = true →
            t.Loadable m₁.table ∧ t.virtualAddr % PAGE_SIZE = 0 := fun t ht htl =>
          ⟨(hs' t ht htl).1.after hloads.table hS (hd.head hl ht htl), (hs' t ht htl).2⟩
        obtain ⟨es₂, hes₂, hflags⟩ := loadSegments_places hloads.unique hs₁ hd.tail h
        refine ⟨es₁ ++ es₂, hes₁.trans hes₂, fun t ht htl i hi => ?_⟩
        rcases List.mem_cons.mp ht with rfl | ht
        · obtain ⟨f, hf⟩ := loadSegment_flags hu hseg halign h0 h₁ i hi
          exact ⟨f, hes₂.table.keeps hf⟩
        · exact hflags t ht htl i hi

/-! ### The pages of the segments -/

theorem mem_loadedPages {segs : List ProgramHeader} {p : ℕ} : p ∈ loadedPages segs ↔
    ∃ seg ∈ segs, seg.isLoaded = true ∧ ∃ i < seg.memSize, p = pageOf (seg.virtualAddr + i) := by
  simp only [loadedPages, List.mem_flatMap, List.mem_map, List.mem_filter]
  constructor
  · rintro ⟨-, ⟨seg, ⟨hseg, hl⟩, rfl⟩, hp⟩
    obtain ⟨hlo, hhi⟩ := PageRangeInclusive.mem_pages.mp hp
    exact ⟨seg, hseg, hl, exists_byte (Nat.pos_of_ne_zero (isLoaded_iff.mp hl).2) hlo hhi⟩
  · rintro ⟨seg, hseg, hl, i, hi, rfl⟩
    refine ⟨_, ⟨seg, ⟨hseg, hl⟩, rfl⟩, PageRangeInclusive.mem_pages.mpr ⟨?_, ?_⟩⟩
    · exact Nat.div_le_div_right (Nat.le_add_right _ _)
    · exact Nat.div_le_div_right (by omega)

theorem nodup_loadedPages {segs : List ProgramHeader} (h : PagesApart segs) : (loadedPages segs).Nodup := by
  rw [loadedPages, List.nodup_flatMap, List.pairwise_map]
  refine ⟨fun r _ => r.nodup_pages, ?_⟩
  refine h.imp_of_mem fun {s t} hs ht hapart => ?_
  rintro p hp hq
  have h0 := fun u (hu : u ∈ segs.filter ProgramHeader.isLoaded) =>
    Nat.pos_of_ne_zero (isLoaded_iff.mp (List.mem_filter.mp hu).2).2
  obtain ⟨hlo, hhi⟩ := PageRangeInclusive.mem_pages.mp hp
  obtain ⟨hlo', hhi'⟩ := PageRangeInclusive.mem_pages.mp hq
  obtain ⟨i, hi, rfl⟩ := exists_byte (h0 s hs) hlo hhi
  obtain ⟨j, hj, he⟩ := exists_byte (h0 t ht) hlo' hhi'
  exact hapart i hi j hj he

/-- Not every number below `2 ^ 52` is one of a page with canonical addresses. -/
theorem pageOf_canonical {a : ℕ} (h : canonical a = true) : pageOf a < 2 ^ 52 ∧ pageOf a ≠ 2 ^ 35 := by
  refine ⟨pageOf_lt h, fun he => ?_⟩
  rw [canonical_iff] at h
  simp only [pageOf, PAGE_SIZE] at he h
  omega

theorem length_loadedPages {segs : List ProgramHeader} (hd : PagesApart segs)
    (hc : ∀ seg ∈ segs, seg.isLoaded = true → ∀ i < seg.memSize,
      canonical (seg.virtualAddr + i) = true) : (loadedPages segs).length < 2 ^ 52 := by
  have hsub : (loadedPages segs).toFinset ⊆ (Finset.range (2 ^ 52)).erase (2 ^ 35) := by
    intro p hp
    obtain ⟨seg, hseg, hl, i, hi, rfl⟩ := mem_loadedPages.mp (List.mem_toFinset.mp hp)
    obtain ⟨hlt, hne⟩ := pageOf_canonical (hc seg hseg hl i hi)
    exact Finset.mem_erase.mpr ⟨hne, Finset.mem_range.mpr hlt⟩
  have hcard := Finset.card_le_card hsub
  rw [List.toFinset_card_of_nodup (nodup_loadedPages hd),
    Finset.card_erase_of_mem (Finset.mem_range.mpr (by norm_num)), Finset.card_range] at hcard
  omega

/-! ### Unmapping the ranges -/

theorem unmapEach_append {ps qs : List ℕ} : ∀ {m : Mem α}, unmapEach (ps ++ qs) m =
    match unmapEach ps m with
    | (.error e, m') => (.error e, m')
    | (.ok (), m') => unmapEach qs m' := by
  induction ps with
  | nil => exact fun {m} => rfl
  | cons p ps ih =>
      intro m
      simp only [List.cons_append, unmapEach]
      cases m.unmap p with
      | error e => rfl
      | ok r => exact ih

/-- The loop of `clean_up` is `unmap_range` on all the pages of the ranges. -/
theorem ProcessVm.unmapCode_eq : ∀ {code : List PageRangeInclusive} {m : Mem α},
    unmapCode code m = unmapEach (code.flatMap PageRangeInclusive.pages) m
  | [], _ => rfl
  | r :: rs, m => by
      rw [List.flatMap_cons, unmapEach_append, unmapCode]
      rw [unmapRange]
      rcases unmapEach r.pages m with ⟨e | _, m'⟩
      · rfl
      · exact unmapCode_eq

/-! ### Accounting -/

/-- The loaded segments start on page boundaries, their data are not longer than their memory, and
they touch pairwise disjoint sets of free pages. -/
structure ElfFile.PageAligned (elf : ElfFile) (T : PageTable) : Prop where
  u64 : ∀ seg ∈ elf.programHeaders, seg.isLoaded = true → seg.IsU64
  aligned : ∀ seg ∈ elf.programHeaders, seg.isLoaded = true → seg.virtualAddr % PAGE_SIZE = 0
  fileSize : ∀ seg ∈ elf.programHeaders, seg.isLoaded = true → seg.fileSize ≤ seg.memSize
  pages : ∀ seg ∈ elf.programHeaders, seg.isLoaded = true → ∀ i < seg.memSize,
    canonical (seg.virtualAddr + i) = true ∧ T (pageOf (seg.virtualAddr + i)) = none
  apart : PagesApart elf.programHeaders

/-- What `load_elf` returned is what it mapped: the pages of the ranges are distinct, they were free
and are the only ones that changed, each has a frame of its own and the flags of its segment, and the
usage is their size. -/
structure Accounted (elf : ElfFile) (user : Bool) (ranges : List PageRangeInclusive) (usage : ℕ)
    (m m' : Mem α) : Prop where
  disjoint : (ranges.flatMap PageRangeInclusive.pages).Nodup
  mapped : Grown m.table {p | p ∈ ranges.flatMap PageRangeInclusive.pages} m'.table
  frames : ((ranges.flatMap PageRangeInclusive.pages).map m'.table.frameOf).Nodup
  segments : ∀ p, p ∈ ranges.flatMap PageRangeInclusive.pages ↔
    ∃ seg ∈ elf.programHeaders, seg.isLoaded = true ∧
      ∃ i < seg.memSize, p = pageOf (seg.virtualAddr + i)
  flags : ∀ seg ∈ elf.programHeaders, seg.isLoaded = true → ∀ i < seg.memSize,
    (m'.table (pageOf (seg.virtualAddr + i))).map PageTableEntry.flags = some (seg.flags user)
  usage : usage = PAGE_SIZE * (ranges.flatMap PageRangeInclusive.pages).length

theorem ElfFile.PageAligned.loadable {elf : ElfFile} {T : PageTable} (h : elf.PageAligned T) :
    ∀ seg ∈ elf.programHeaders, seg.isLoaded = true →
      seg.Loadable T ∧ seg.virtualAddr % PAGE_SIZE = 0 := by
  intro seg hseg hl
  have h0 := Nat.pos_of_ne_zero (isLoaded_iff.mp hl).2
  have hlast := canonical_lt (h.pages seg hseg hl (seg.memSize - 1) (Nat.sub_lt h0 Nat.one_pos)).1
  exact ⟨⟨h.u64 seg hseg hl, by omega, h.fileSize seg hseg hl, fun i hi => (h.pages seg hseg hl i hi).2⟩,
    h.aligned seg hseg hl⟩

theorem loadElf_accounted {elf : ElfFile} {user : Bool} {ranges : List PageRangeInclusive} {usage : ℕ}
    {m m' : Mem α} (helf : elf.PageAligned m.table) (hu : Unique m.alloc)
    (h : loadElf B elf user m = .ok (.ok (ranges, usage), m')) :
    Accounted elf user ranges usage m m' := by
  have hloadable := helf.loadable
  obtain ⟨S, hloads, hS, hbytes⟩ :=
    loadSegments_loads hu (fun seg hseg hl => (hloadable seg hseg hl).1) helf.apart h
  obtain ⟨es, hes, hflags⟩ := loadSegments_places hu hloadable helf.apart h
  have hlength := length_loadedPages helf.apart fun seg hseg hl i hi => (helf.pages seg hseg hl i hi).1
  have hU : U64 = 2 ^ 64 := rfl
  have hr := loadSegments_ranges (fun seg hseg hl => (hloadable seg hseg hl).1.inSpace)
    (by rw [PAGE_SIZE]; omega) h
  obtain ⟨rfl, rfl⟩ := Prod.mk.inj hr
  rw [List.nil_append, Nat.zero_add]
  have hpages : ∀ p, p ∈ loadedPages elf.programHeaders ↔ p ∈ es.map Prod.fst := by
    intro p
    rw [mem_loadedPages]
    constructor
    · rintro ⟨seg, hseg, hl, i, hi, rfl⟩
      obtain ⟨f, hf⟩ := hflags seg hseg hl i hi
      refine hes.table.mem_iff.mpr ⟨(helf.pages seg hseg hl i hi).2, ?_⟩
      rw [hf]
      rintro ⟨⟩
    · exact fun hp => hS p (hloads.table.mem_iff.mpr (hes.table.mem_iff.mp hp))
  exact {
    disjoint := nodup_loadedPages helf.apart
    mapped := hes.table.congr (Set.ext fun p => (hpages p).symm)
    frames := (nodup_loadedPages helf.apart).map_on fun p hp q hq =>
      hes.frameOf_inj hu ((hpages p).mp hp) ((hpages q).mp hq)
    segments := fun p => mem_loadedPages
    flags := fun seg hseg hl i hi => by
      obtain ⟨f, hf⟩ := hflags seg hseg hl i hi
      rw [hf]
      rfl
    usage := rfl }

/-- **Loaded pages are accounted exactly.**  What `load_elf` returns is what it mapped, and unmapping
the ranges restores the page table and returns each of the frames once. -/
theorem loadElf_unmapCode {elf : ElfFile} {user : Bool} {ranges : List PageRangeInclusive} {usage : ℕ}
    {m m' : Mem (Recorder α)} (helf : elf.PageAligned m.table) (hu : Unique m.alloc)
    (h : loadElf B elf user m = .ok (.ok (ranges, usage), m')) :
    Accounted elf user ranges usage m m' ∧ ∃ m'', ProcessVm.unmapCode ranges m' = (.ok (), m'') ∧
      m''.table = m.table ∧ m''.alloc.freed =
        ((ranges.flatMap PageRangeInclusive.pages).map m'.table.frameOf).reverse ++ m.alloc.freed := by
  have hacc := loadElf_accounted helf hu h
  refine ⟨hacc, ?_⟩
  rcases hun : ProcessVm.unmapCode ranges m' with ⟨r, m''⟩
  obtain ⟨rfl, hrem⟩ := unmapEach_removes hacc.mapped.bound hacc.disjoint
    (ProcessVm.unmapCode_eq.symm.trans hun)
  refine ⟨m'', rfl, ?_, hrem.freed.trans (congrArg _ (loadSegments_freed h))⟩
  funext p
  by_cases hp : p ∈ ranges.flatMap PageRangeInclusive.pages
  · rw [hrem.table.fresh p hp, hacc.mapped.fresh p hp]
  · rw [← hrem.table.same p hp, hacc.mapped.same p hp]

theorem Recorder.grantedFrames_eq : ∀ (n : ℕ) (r : Recorder α), grantedFrames n r = grantedFrames n r.inner
  | 0, _ => rfl
  | n + 1, r => by
      simp only [grantedFrames, allocateFrame]
      cases FrameAllocator.allocateFrame r.inner with
      | mk f a =>
          cases f with
          | none => rfl
          | some f => exact congrArg (f :: ·) (Recorder.grantedFrames_eq n _)

/-- Memory without mappings and an allocator with two frames. -/
def twoFree : Mem (Recorder BootInfoFrameAllocator) :=
  ⟨fun _ => none, ⟨⟨2, 0, [7, 9], []⟩, []⟩, fun _ _ => 0⟩

/-- Two bytes of data and a page of zeros. -/
theorem loadElf_unmapCode_example : ∃ m' m'',
    loadElf Build.release (oneSegment [5, 6] 0 0x1000 2 5000) true twoFree =
      .ok (.ok ([⟨1, 2⟩], 8192), m') ∧
    ProcessVm.unmapCode [⟨1, 2⟩] m' = (.ok (), m'') ∧ m''.table = twoFree.table ∧
      m''.alloc.freed = [9, 7] := by
  have helf : (oneSegment [5, 6] 0 0x1000 2 5000).PageAligned twoFree.table := by
    refine ⟨?_, ?_, ?_, ?_, (List.pairwise_singleton _ _).sublist List.filter_sublist⟩ <;>
      intro seg hseg _ <;> rw [List.mem_singleton.mp hseg]
    · exact ⟨by decide, by decide, by decide⟩
    · decide
    · decide
    · exact fun i hi => ⟨canonical_iff.mpr (Or.inl (by simp only at hi ⊢; omega)), rfl⟩
  have hunique : Unique twoFree.alloc := fun n => by
    rw [Recorder.grantedFrames_eq]
    exact unique_of_nodup (by decide) n
  have hload : loadElf Build.release (oneSegment [5, 6] 0 0x1000 2 5000) true twoFree =
      .ok (.ok ([⟨1, 2⟩], 8192), _) := rfl
  obtain ⟨-, m'', hun, htable, hfreed⟩ := loadElf_unmapCode helf hunique hload
  exact ⟨_, m'', hload, hun, htable, hfreed⟩

end Ysos
