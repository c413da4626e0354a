import Ysos.Image
import Ysos.Frames

/-! # Mapping a program in place (package `elf`)

`map_elf` maps the pages of a program to the frames that the file itself occupies, and `unmap_elf`
walks the same pages.  Where the data of a segment end inside of a page and `.bss` follows, the last
page of the data is mapped again, to a copy of its frame.

* `Layout`: the pages that both functions compute from a header.
* `mapElf_layouts`: what `map_elf` adds to the page table.
* `unmapElf_eq`: `unmap_elf` unmaps the pages of the layouts one by one.
* `unmap_elf_undoes_iff`: it succeeds exactly if no page is in them twice. -/

namespace Ysos

open PartialMap Runs

variable {α : Type} [FrameAllocator α] (B : Build)

/-- Arithmetic of `PhysAddr`: without overflow the exact one, with a check of the upper bits. -/
structure PhysBuild where
  addPhysAddr : ℕ → ℕ → Option ℕ
  subPhysAddr : ℕ → ℕ → Option ℕ
  add_exact : ∀ a b, a + b < U64 → addPhysAddr a b = if a + b < 2 ^ 52 then some (a + b) else none
  sub_exact : ∀ a b, b ≤ a → a < 2 ^ 52 → subPhysAddr a b = some (a - b)

namespace PhysBuild
variable (P : PhysBuild)

/-- `PhysAddr + u64`. -/
def physAdd (a n : ℕ) : Except Panic ℕ :=
  match P.addPhysAddr a n with
  | some b => .ok b
  | none => .error .nonCanonical

/-- `PhysAddr - u64`. -/
def physSub (a n : ℕ) : Except Panic ℕ :=
  match P.subPhysAddr a n with
  | some b => .ok b
  | none => .error .nonCanonical

end PhysBuild

variable (P : PhysBuild)

/-- Write a byte at a virtual address. -/
def Mem.store (m : Mem α) (a : ℕ) (b : UInt8) : Mem α :=
  match m.table (pageOf a) with
  | some e =>
      let content := Function.update (m.phys e.frame) (a % PAGE_SIZE) b
      { m with phys := Function.update m.phys e.frame content }
  | none => m

/-! ### Mapping -/

/-- The loop of `map_segment` over the frames of the file. -/
def mapFrames (flags : PageTableFlags) (startPage startFrame : ℕ) :
    List ℕ → Mem α → Except Panic (Except MapToError Unit × Mem α)
  | [], m => .ok (.ok (), m)
  | frame :: frames, m => do
      let offset := frame - startFrame
      let page ← B.pageAdd startPage offset
      match m.mapTo page frame flags with
      | .error e => return (.error e, m)
      | .ok m' => mapFrames flags startPage startFrame frames m'

/-- The part of `map_segment` that moves the last page of the data to a frame of its own. -/
def remapLast (flags : PageTableFlags) (lastPage endFrame : ℕ) (m : Mem α) :
    Except Panic (Except MapToError Unit × Mem α) :=
  match allocateFrame m.alloc with
  | (none, a) => .ok (.error .frameAllocationFailed, { m with alloc := a })
  | (some newFrame, a) =>
      let m' := ({ m with alloc := a } : Mem α).copyFrame endFrame newFrame
      match m'.unmap lastPage with
      | .error .pageNotMapped => .error .unreachable
      | .ok (_, m') =>
          match m'.mapTo lastPage newFrame flags with
          | .error e => .ok (.error e, m')
          | .ok m' => .ok (.ok (), m')

/-- The frames that hold the data of a segment of a file at this physical address. -/
def fileFrames (seg : ProgramHeader) (start : ℕ) : Except Panic PageRangeInclusive := do
  let fileOffset := seg.offset / PAGE_SIZE * PAGE_SIZE
  let physStart ← P.physAdd start fileOffset
  let lastByte ← P.physSub (← P.physAdd physStart seg.fileSize) 1
  return ⟨pageOf physStart, pageOf lastByte⟩

/-- The part of `map_segment` for a last page of the data that `.bss` begins in. -/
def remapData (seg : ProgramHeader) (virtStart zeroStart endFrame : ℕ) (m : Mem α) :
    Except Panic (Except MapToError Unit × Mem α) :=
  if zeroStart % PAGE_SIZE ≠ 0 then do
    let lastByte ← B.virtSub (← B.virtAdd virtStart seg.fileSize) 1
    remapLast (seg.flags false) (pageOf lastByte) endFrame m
  else .ok (.ok (), m)

/-- The part of `map_segment` for `.bss`. -/
def mapBss (seg : ProgramHeader) (virtStart endFrame : ℕ) (m : Mem α) :
    Except Panic (Except MapToError Unit × Mem α) :=
  if seg.memSize > seg.fileSize then do
    let zeroStart ← B.virtAdd virtStart seg.fileSize
    let zeroEnd ← B.virtAdd virtStart seg.memSize
    match ← remapData B seg virtStart zeroStart endFrame m with
    | (.error e, m) => return (.error e, m)
    | (.ok (), m) =>
        let startPage := pageOf (← virtAddrNew (alignUp zeroStart))
        let pages : PageRangeInclusive := ⟨startPage, pageOf zeroEnd⟩
        match mapEach (seg.flags false) pages.pages m with
        | (.error e, m) => return (.error e, m)
        | (.ok (), m) =>
            let zeros := List.range' zeroStart (seg.memSize - seg.fileSize)
            return (.ok (), zeros.foldl (fun m a => m.store a 0) m)
  else .ok (.ok (), m)

def mapSegment (seg : ProgramHeader) (start : ℕ) (m : Mem α) :
    Except Panic (Except MapToError Unit × Mem α) :=
  match seg.segmentType with
  | none => .error .elfLoad
  | some .other => .ok (.ok (), m)
  | some .load => do
      let virtStart ← virtAddrNew seg.virtualAddr
      let frames ← fileFrames P seg start
      match ← mapFrames B (seg.flags false) (pageOf virtStart) frames.start frames.pages m with
      | (.error e, m) => return (.error e, m)
      | (.ok (), m) => mapBss B seg virtStart frames.last m

/-- The loop of `map_elf`. -/
def mapSegments (start : ℕ) :
    List ProgramHeader → Mem α → Except Panic (Except MapToError Unit × Mem α)
  | [], m => .ok (.ok (), m)
  | seg :: segs, m => do
      match ← mapSegment B P seg start m with
      | (.error e, m) => return (.error e, m)
      | (.ok (), m) => mapSegments start segs m

/-- `map_elf`, where `input` is the address of the file in memory. -/
def mapElf (elf : ElfFile) (input : ℕ) (m : Mem α) : Except Panic (Except MapToError Unit × Mem α) := do
  let start ← physAddrNew input
  mapSegments B P start elf.programHeaders m

/-! ### Unmapping -/

/-- The loop of `unmap_segment` over the frames of the file. -/
def unmapFrames (startPage startFrame : ℕ) :
    List ℕ → Mem α → Except Panic (Except UnmapError Unit × Mem α)
  | [], m => .ok (.ok (), m)
  | frame :: frames, m => do
      let offset := frame - startFrame
      let page ← B.pageAdd startPage offset
      match m.unmap page with
      | .error e => return (.error e, m)
      | .ok (_, m') => unmapFrames startPage startFrame frames m'

/-- Unmap pages, whose frames are not returned. -/
def unmapAll : List ℕ → Mem α → Except UnmapError Unit × Mem α
  | [], m => (.ok (), m)
  | p :: ps, m =>
      match m.unmap p with
      | .error e => (.error e, m)
      | .ok (_, m') => unmapAll ps m'

/-- The part of `unmap_segment` for a last page of the data that `.bss` begins in. -/
def unmapData (seg : ProgramHeader) (virtStart zeroStart : ℕ) (m : Mem α) :
    Except Panic (Except UnmapError Unit × Mem α) :=
  if zeroStart % PAGE_SIZE ≠ 0 then do
    let lastByte ← B.virtSub (← B.virtAdd virtStart seg.fileSize) 1
    return unmapAll [pageOf lastByte] m
  else .ok (.ok (), m)

/-- The part of `unmap_segment` for `.bss`. -/
def unmapBss (seg : ProgramHeader) (virtStart : ℕ) (m : Mem α) :
    Except Panic (Except UnmapError Unit × Mem α) :=
  if seg.memSize > seg.fileSize then do
    let zeroStart ← B.virtAdd virtStart seg.fileSize
    let zeroEnd ← B.virtAdd virtStart seg.memSize
    match ← unmapData B seg virtStart zeroStart m with
    | (.error e, m) => return (.error e, m)
    | (.ok (), m) =>
        let startPage := pageOf (← virtAddrNew (alignUp zeroStart))
        let pages : PageRangeInclusive := ⟨startPage, pageOf zeroEnd⟩
        return unmapAll pages.pages m
  else .ok (.ok (), m)

def unmapSegment (seg : ProgramHeader) (kernelStart : ℕ) (m : Mem α) :
    Except Panic (Except UnmapError Unit × Mem α) :=
  match seg.segmentType with
  | none => .error .elfLoad
  | some .other => .ok (.ok (), m)
  | some .load => do
      let virtStart ← virtAddrNew seg.virtualAddr
      let frames ← fileFrames P seg kernelStart
      match ← unmapFrames B (pageOf virtStart) frames.start frames.pages m with
      | (.error e, m) => return (.error e, m)
      | (.ok (), m) => unmapBss B seg virtStart m

def unmapSegments (kernelStart : ℕ) :
    List ProgramHeader → Mem α → Except Panic (Except UnmapError Unit × Mem α)
  | [], m => .ok (.ok (), m)
  | seg :: segs, m => do
      match ← unmapSegment B P seg kernelStart m with
      | (.error e, m) => return (.error e, m)
      | (.ok (), m) => unmapSegments kernelStart segs m

def unmapElf (elf : ElfFile) (input : ℕ) (m : Mem α) :
    Except Panic (Except UnmapError Unit × Mem α) := do
  let kernelStart ← physAddrNew input
  unmapSegments B P kernelStart elf.programHeaders m

/-! ### The pages of a segment -/

/-- The pages that both functions go through: the ones of the file, the last one of them again, and
the ones of `.bss`. -/
structure Layout where
  file : List ℕ
  remap : List ℕ
  bss : List ℕ

namespace Layout
variable (L : Layout)

/-- The pages that are added to the page table. -/
def added : List ℕ := L.file ++ L.bss

/-- The pages that are unmapped, in their order. -/
def walk : List ℕ := L.file ++ L.remap ++ L.bss

theorem walk_perm : L.walk.Perm (L.added ++ L.remap) := by
  rw [walk, added, List.append_assoc, List.append_assoc]
  exact List.perm_append_comm.append_left L.file

end Layout

/-- The pages for the frames of the file. -/
def filePages (startPage startFrame : ℕ) : List ℕ → Except Panic (List ℕ)
  | [] => .ok []
  | frame :: frames => do
      let page ← B.pageAdd startPage (frame - startFrame)
      let pages ← filePages startPage startFrame frames
      return page :: pages

/-- The page that is mapped again, if there is one. -/
def remapPages (seg : ProgramHeader) (virtStart zeroStart : ℕ) : Except Panic (List ℕ) :=
  if zeroStart % PAGE_SIZE ≠ 0 then do
    let lastByte ← B.virtSub (← B.virtAdd virtStart seg.fileSize) 1
    return [pageOf lastByte]
  else .ok []

/-- The page that is mapped again and the pages of `.bss`. -/
def bssLayout (seg : ProgramHeader) (virtStart : ℕ) : Except Panic (List ℕ × List ℕ) :=
  if seg.memSize > seg.fileSize then do
    let zeroStart ← B.virtAdd virtStart seg.fileSize
    let zeroEnd ← B.virtAdd virtStart seg.memSize
    let remap ← remapPages B seg virtStart zeroStart
    let startPage := pageOf (← virtAddrNew (alignUp zeroStart))
    return (remap, (PageRangeInclusive.mk startPage (pageOf zeroEnd)).pages)
  else .ok ([], [])

/-- The arithmetic of both functions. -/
def layout (seg : ProgramHeader) (start : ℕ) : Except Panic Layout :=
  match seg.segmentType with
  | none => .error .elfLoad
  | some .other => .ok ⟨[], [], []⟩
  | some .load => do
      let virtStart ← virtAddrNew seg.virtualAddr
      let frames ← fileFrames P seg start
      let file ← filePages B (pageOf virtStart) frames.start frames.pages
      let (remap, bss) ← bssLayout B seg virtStart
      return ⟨file, remap, bss⟩

/-- From `T` to `T'` the pages `V` are added, and the mapped pages `R` may have other entries. -/
structure Added (V R : List ℕ) (T T' : PageTable) : Prop where
  fresh : ∀ p ∈ V, T p = none
  nodup : V.Nodup
  mapped : ∀ p, T' p ≠ none ↔ T p ≠ none ∨ p ∈ V
  same : R = [] → ∀ p ∉ V, T' p = T p
  remap : ∀ p ∈ R, T p ≠ none ∨ p ∈ V

namespace Added

variable {V V' R R' : List ℕ} {T T' T'' : PageTable}

theorem refl (T : PageTable) : Added [] [] T T where
  fresh := nofun
  nodup := List.nodup_nil
  mapped p := by simp
  same _ _ _ := rfl
  remap := nofun

theorem trans (h : Added V R T T') (h' : Added V' R' T' T'') : Added (V ++ V') (R ++ R') T T'' where
  fresh p hp := by
    rcases List.mem_append.mp hp with hp | hp
    · exact h.fresh p hp
    · by_contra hne
      exact (h.mapped p).mpr (Or.inl hne) (h'.fresh p hp)
  nodup := h.nodup.append h'.nodup fun p hp hp' => (h.mapped p).mpr (Or.inr hp) (h'.fresh p hp')
  mapped p := by rw [h'.mapped, h.mapped, List.mem_append, or_assoc]
  same hR p hp := by
    rw [List.append_eq_nil_iff] at hR
    rw [List.mem_append, not_or] at hp
    rw [h'.same hR.2 p hp.2, h.same hR.1 p hp.1]
  remap p hp := by
    rw [List.mem_append]
    rcases List.mem_append.mp hp with hp | hp
    · exact (h.remap p hp).imp_right Or.inl
    · rcases h'.remap p hp with hne | hp
      · exact ((h.mapped p).mp hne).imp_right Or.inl
      · exact Or.inr (Or.inr hp)

theorem of_grown (h : Grown T {p | p ∈ V} T') (hV : V.Nodup) : Added V [] T T' where
  fresh := h.fresh
  nodup := hV
  mapped p := by
    by_cases hp : p ∈ V
    · exact iff_of_true (h.bound p hp) (Or.inr hp)
    · rw [h.same p hp]
      exact (or_iff_left hp).symm
  same _ := h.same
  remap := nofun

end Added

/-! ### What mapping adds -/

variable {B P}

omit [FrameAllocator α] in
theorem mapFrames_added {flags : PageTableFlags} {startPage startFrame : ℕ} :
    ∀ {frames : List ℕ} {m m' : Mem α},
      mapFrames B flags startPage startFrame frames m = .ok (.ok (), m') →
      ∃ file, filePages B startPage startFrame frames = .ok file ∧ Added file [] m.table m'.table
  | [], m, m', h => by
      cases h
      exact ⟨[], rfl, Added.refl m.table⟩
  | frame :: frames, m, m', h => by
      unfold mapFrames at h
      obtain ⟨page, hpage, h⟩ := bind_eq_ok.mp h
      split at h
      · cases h
      · rename_i m₁ h₁
        obtain ⟨file, hfile, hadded⟩ := mapFrames_added h
        have hone : Added [page] [] m.table m₁.table :=
          Added.of_grown ((mapTo_grown h₁).1.congr (by ext; simp)) (List.nodup_singleton page)
        refine ⟨page :: file, ?_, hone.trans hadded⟩
        rw [filePages, bind_eq_ok]
        exact ⟨page, hpage, bind_eq_ok.mpr ⟨file, hfile, rfl⟩⟩

theorem remapLast_added {flags : PageTableFlags} {lastPage endFrame : ℕ} {m m' : Mem α}
    (h : remapLast flags lastPage endFrame m = .ok (.ok (), m')) :
    Added [] [lastPage] m.table m'.table := by
  unfold remapLast at h
  split at h
  · cases h
  · rename_i newFrame a ha
    simp only [Mem.copyFrame, Mem.unmap] at h
    rcases hl : m.table lastPage with _ | e <;> simp only [hl, Mem.mapTo, Function.update_self] at h
    · cases h
    · cases h
      refine ⟨List.forall_mem_nil _, List.nodup_nil, fun p => ?_, by rintro ⟨⟩, fun p hp => Or.inl ?_⟩
      · by_cases hp : p = lastPage
        · subst hp
          simp [hl]
        · simp [Function.update_of_ne hp]
      · rw [List.mem_singleton.mp hp, hl]
        rintro ⟨⟩

omit [FrameAllocator α] in
theorem table_store (m : Mem α) (a : ℕ) (b : UInt8) : (m.store a b).table = m.table := by
  unfold Mem.store
  cases m.table (pageOf a) <;> rfl

omit [FrameAllocator α] in
theorem table_zeros (zeros : List ℕ) (m : Mem α) :
    (zeros.foldl (fun m a => m.store a 0) m).table = m.table := by
  induction zeros generalizing m with
  | nil => rfl
  | cons a zeros ih => exact (ih _).trans (table_store m a 0)

theorem remapData_added {seg : ProgramHeader} {virtStart zeroStart endFrame : ℕ} {m m' : Mem α}
    (h : remapData B seg virtStart zeroStart endFrame m = .ok (.ok (), m')) :
    ∃ remap, remapPages B seg virtStart zeroStart = .ok remap ∧ Added [] remap m.table m'.table := by
  unfold remapData at h
  unfold remapPages
  split_ifs at h ⊢
  · simp only [bind_eq_ok] at h
    obtain ⟨e, he, l, hl, h⟩ := h
    refine ⟨[pageOf l], ?_, remapLast_added h⟩
    simp only [bind_eq_ok]
    exact ⟨e, he, l, hl, rfl⟩
  · cases h
    exact ⟨[], rfl, Added.refl m.table⟩

theorem mapBss_added {seg : ProgramHeader} {virtStart endFrame : ℕ} {m m' : Mem α}
    (h : mapBss B seg virtStart endFrame m = .ok (.ok (), m')) :
    ∃ remap bss, bssLayout B seg virtStart = .ok (remap, bss) ∧ Added bss remap m.table m'.table := by
  unfold mapBss at h
  unfold bssLayout
  split_ifs at h ⊢
  · obtain ⟨zeroStart, hzs, h⟩ := bind_eq_ok.mp h
    obtain ⟨zeroEnd, hze, h⟩ := bind_eq_ok.mp h
    obtain ⟨⟨r₁, m₁⟩, h₁, h⟩ := bind_eq_ok.mp h
    rcases r₁ with e | _
    · cases h
    obtain ⟨a, ha, h⟩ := bind_eq_ok.mp h
    obtain ⟨remap, hremap, hadded₁⟩ := remapData_added h₁
    dsimp only at h
    split at h
    · cases h
    · rename_i m₂ h₂
      cases h
      have hadded₂ := Added.of_grown (mapEach_ok h₂) (PageRangeInclusive.nodup_pages _)
      refine ⟨remap, (PageRangeInclusive.mk (pageOf a) (pageOf zeroEnd)).pages, ?_, ?_⟩
      · simp only [bind_eq_ok]
        exact ⟨zeroStart, hzs, zeroEnd, hze, remap, hremap, a, ha, rfl⟩
      · rw [table_zeros]
        simpa using hadded₁.trans hadded₂
  · cases h
    exact ⟨[], [], rfl, Added.refl m.table⟩

theorem mapSegment_added {seg : ProgramHeader} {start : ℕ} {m m' : Mem α}
    (h : mapSegment B P seg start m = .ok (.ok (), m')) :
    ∃ L, layout B P seg start = .ok L ∧ Added L.added L.remap m.table m'.table := by
  unfold mapSegment at h
  unfold layout
  split at h
  · cases h
  · cases h
    exact ⟨_, rfl, Added.refl m.table⟩
  obtain ⟨virtStart, hstart, h⟩ := bind_eq_ok.mp h
  obtain ⟨frames, hframes, h⟩ := bind_eq_ok.mp h
  obtain ⟨⟨r₁, m₁⟩, h₁, h⟩ := bind_eq_ok.mp h
  rcases r₁ with e | _
  · cases h
  obtain ⟨file, hfile, hadded₁⟩ := mapFrames_added h₁
  obtain ⟨remap, bss, hbss, hadded₂⟩ := mapBss_added h
  refine ⟨⟨file, remap, bss⟩, ?_, hadded₁.trans hadded₂⟩
  simp only [bind_eq_ok]
  exact ⟨virtStart, hstart, frames, hframes, file, hfile, (remap, bss), hbss, rfl⟩

theorem mapSegments_added {start : ℕ} : ∀ {segs : List ProgramHeader} {m m' : Mem α},
    mapSegments B P start segs m = .ok (.ok (), m') →
      ∃ Ls, List.Forall₂ (fun seg L => layout B P seg start = .ok L) segs Ls ∧
        Added (Ls.flatMap Layout.added) (Ls.flatMap Layout.remap) m.table m'.table
  | [], m, m', h => by
      cases h
      exact ⟨[], .nil, Added.refl m.table⟩
  | seg :: segs, m, m', h => by
      unfold mapSegments at h
      obtain ⟨⟨r₁, m₁⟩, h₁, h⟩ := bind_eq_ok.mp h
      rcases r₁ with e | _
      · cases h
      obtain ⟨L, hL, hadded₁⟩ := mapSegment_added h₁
      obtain ⟨Ls, hLs, hadded₂⟩ := mapSegments_added h
      exact ⟨L :: Ls, .cons hL hLs, hadded₁.trans hadded₂⟩

/-! ### What unmapping goes through -/

section

omit [FrameAllocator α]

theorem unmapAll_append (ps qs : List ℕ) : ∀ {m : Mem α}, unmapAll (ps ++ qs) m =
    match unmapAll ps m with
    | (.error e, m') => (.error e, m')
    | (.ok (), m') => unmapAll qs m' := by
  induction ps with
  | nil => exact fun {m} => rfl
  | cons p ps ih =>
      intro m
      simp only [List.cons_append, unmapAll]
      cases m.unmap p with
      | error e => rfl
      | ok r => exact ih

/-- Unmapping that succeeds has removed distinct pages and nothing else. -/
theorem unmapAll_ok : ∀ {ps : List ℕ} {m m' : Mem α}, unmapAll ps m = (.ok (), m') →
    ps.Nodup ∧ Grown m'.table {p | p ∈ ps} m.table
  | [], m, m', h => by
      cases h
      exact ⟨List.nodup_nil, (Grown.refl m.table).congr (by ext; simp)⟩
  | p :: ps, m, m', h => by
      unfold unmapAll Mem.unmap at h
      rcases hp : m.table p with _ | e <;> rw [hp] at h
      · cases h
      · obtain ⟨hnd, hg⟩ := unmapAll_ok h
        have h1 : Grown (Function.update m.table p none) {p} m.table := by
          have := Grown.single (T := Function.update m.table p none) e (k := p) (by simp)
          simpa [Function.update_idem, ← hp] using this
        have hnot : p ∉ ps := fun hmem => hg.bound p hmem (Function.update_self _ _ _)
        refine ⟨List.nodup_cons.mpr ⟨hnot, hnd⟩, (hg.trans h1).congr ?_⟩
        ext q
        simp [eq_comm]

theorem unmapAll_of_mapped : ∀ {ps : List ℕ} {m : Mem α}, (∀ p ∈ ps, m.table p ≠ none) →
    ps.Nodup → ∃ m', unmapAll ps m = (.ok (), m')
  | [], m, _, _ => ⟨m, rfl⟩
  | p :: ps, m, hm, hnd => by
      obtain ⟨hp, hnd⟩ := List.nodup_cons.mp hnd
      obtain ⟨e, he⟩ := Option.ne_none_iff_exists'.mp (hm p List.mem_cons_self)
      simp only [unmapAll, Mem.unmap, he]
      refine unmapAll_of_mapped (fun q hq => ?_) hnd
      have hne : q ≠ p := fun h => hp (h ▸ hq)
      show Function.update m.table p none q ≠ none
      rw [Function.update_of_ne hne]
      exact hm q (List.mem_cons_of_mem _ hq)

theorem unmapFrames_eq {startPage startFrame : ℕ} : ∀ {frames file : List ℕ} {m : Mem α},
    filePages B startPage startFrame frames = .ok file →
      unmapFrames B startPage startFrame frames m = .ok (unmapAll file m)
  | [], file, m, h => by
      cases h
      rfl
  | frame :: frames, file, m, h => by
      unfold filePages at h
      obtain ⟨page, hpage, h⟩ := bind_eq_ok.mp h
      obtain ⟨pages, hpages, h⟩ := bind_eq_ok.mp h
      cases h
      simp only [unmapFrames, hpage, bind, Except.bind, unmapAll]
      rcases m.unmap page with e | ⟨f, m'⟩
      · rfl
      · exact unmapFrames_eq hpages

theorem unmapData_eq {seg : ProgramHeader} {virtStart zeroStart : ℕ} {remap : List ℕ} {m : Mem α}
    (h : remapPages B seg virtStart zeroStart = .ok remap) :
    unmapData B seg virtStart zeroStart m = .ok (unmapAll remap m) := by
  unfold remapPages at h
  unfold unmapData
  split_ifs at h ⊢
  · simp only [bind_eq_ok] at h
    obtain ⟨e, he, l, hl, h⟩ := h
    cases h
    simp only [he, hl, bind, Except.bind]
    rfl
  · cases h
    rfl

theorem unmapBss_eq {seg : ProgramHeader} {virtStart : ℕ} {remap bss : List ℕ} {m : Mem α}
    (h : bssLayout B seg virtStart = .ok (remap, bss)) :
    unmapBss B seg virtStart m = .ok (unmapAll (remap ++ bss) m) := by
  unfold bssLayout at h
  unfold unmapBss
  split_ifs at h ⊢
  · simp only [bind_eq_ok] at h
    obtain ⟨zeroStart, hzs, zeroEnd, hze, r, hr, a, ha, h⟩ := h
    cases h
    simp only [hzs, hze, unmapData_eq hr, bind, Except.bind, unmapAll_append]
    rcases unmapAll remap m with ⟨e | _, m'⟩
    · rfl
    · simp only [ha]
      rfl
  · cases h
    rfl

/-- Unmapping a segment goes through the pages of its layout. -/
theorem unmapSegment_eq {seg : ProgramHeader} {start : ℕ} {L : Layout} {m : Mem α}
    (h : layout B P seg start = .ok L) : unmapSegment B P seg start m = .ok (unmapAll L.walk m) := by
  unfold layout at h
  unfold unmapSegment
  split at h
  · cases h
  · cases h
    rfl
  · simp only [bind_eq_ok] at h
    obtain ⟨virtStart, hstart, frames, hframes, file, hfile, ⟨remap, bss⟩, hbss, h⟩ := h
    cases h
    simp only [hstart, hframes, unmapFrames_eq hfile, bind, Except.bind, Layout.walk,
      List.append_assoc file, unmapAll_append file]
    rcases unmapAll file m with ⟨e | _, m'⟩
    · rfl
    · exact unmapBss_eq hbss

theorem unmapSegments_eq {start : ℕ} : ∀ {segs : List ProgramHeader} {Ls : List Layout} {m : Mem α},
    List.Forall₂ (fun seg L => layout B P seg start = .ok L) segs Ls →
      unmapSegments B P start segs m = .ok (unmapAll (Ls.flatMap Layout.walk) m)
  | [], _, m, .nil => rfl
  | seg :: segs, L :: Ls, m, .cons hL hLs => by
      simp only [unmapSegments, unmapSegment_eq hL, bind, Except.bind, List.flatMap_cons, unmapAll_append]
      rcases unmapAll L.walk m with ⟨e | _, m'⟩
      · rfl
      · exact unmapSegments_eq hLs

end

/-! ### The page that is mapped again -/

/-- The data of the segment end inside of a page, and `.bss` follows. -/
def ProgramHeader.BssInside (seg : ProgramHeader) : Prop :=
  seg.segmentType = some .load ∧ seg.fileSize < seg.memSize ∧
    (seg.virtualAddr + seg.fileSize) % PAGE_SIZE ≠ 0

instance (seg : ProgramHeader) : Decidable seg.BssInside :=
  inferInstanceAs (Decidable (_ ∧ _ ∧ _))

theorem virtAdd_mod {a n c : ℕ} (h : B.virtAdd a n = .ok c) : c = (a + n) % U64 :=
  (B.add_wraps a n c (B.virtAdd_ok h)).2

theorem remapPages_eq {seg : ProgramHeader} {zeroStart : ℕ} {remap : List ℕ}
    (hzs : B.virtAdd seg.virtualAddr seg.fileSize = .ok zeroStart) (hfile : 0 < seg.fileSize)
    (h : remapPages B seg seg.virtualAddr zeroStart = .ok remap) :
    (remap ≠ [] ↔ (seg.virtualAddr + seg.fileSize) % PAGE_SIZE ≠ 0) ∧
      ∀ p ∈ remap, p = pageOf ((seg.virtualAddr + (seg.fileSize - 1)) % U64) := by
  have hzero : zeroStart % PAGE_SIZE = (seg.virtualAddr + seg.fileSize) % PAGE_SIZE := by
    rw [virtAdd_mod hzs]
    exact Nat.mod_mod_of_dvd _ ⟨2 ^ 52, rfl⟩
  unfold remapPages at h
  rw [hzero] at h
  split_ifs at h with hin
  · simp only [bind_eq_ok] at h
    obtain ⟨e, he, l, hl, h⟩ := h
    cases h
    refine ⟨iff_of_true (List.cons_ne_nil _ _) hin, fun p hp => ?_⟩
    have hl' := (B.sub_wraps e 1 l (B.virtSub_ok hl)).2
    rw [List.mem_singleton.mp hp, hl', virtAdd_mod he, Nat.mod_add_mod]
    have hsum : seg.virtualAddr + seg.fileSize + (U64 - 1) =
        seg.virtualAddr + (seg.fileSize - 1) + U64 := by
      simp only [U64]
      omega
    rw [hsum, Nat.add_mod_right]
  · cases h
    exact ⟨iff_of_false (not_not.mpr rfl) hin, by rintro - ⟨⟩⟩

theorem layout_remap {seg : ProgramHeader} {start : ℕ} {L : Layout}
    (hfile : seg.segmentType = some .load → 0 < seg.fileSize) (h : layout B P seg start = .ok L) :
    (L.remap ≠ [] ↔ seg.BssInside) ∧ ∀ p ∈ L.remap, seg.segmentType = some .load ∧
      p = pageOf ((seg.virtualAddr + (seg.fileSize - 1)) % U64) := by
  unfold layout at h
  split at h
  · cases h
  · rename_i hother
    cases h
    exact ⟨iff_of_false (not_not.mpr rfl) fun hin => (nomatch hother.symm.trans hin.1), nofun⟩
  · rename_i hload
    simp only [bind_eq_ok] at h
    obtain ⟨virtStart, hstart, frames, -, file, -, ⟨remap, bss⟩, hbss, h⟩ := h
    cases h
    obtain ⟨rfl, -⟩ := virtAddrNew_ok hstart
    unfold bssLayout at hbss
    split_ifs at hbss with hlt
    · simp only [bind_eq_ok] at hbss
      obtain ⟨zeroStart, hzs, zeroEnd, -, r, hr, a, -, hbss⟩ := hbss
      cases hbss
      obtain ⟨hne, hp⟩ := remapPages_eq hzs (hfile hload) hr
      have hin : seg.BssInside ↔ (seg.virtualAddr + seg.fileSize) % PAGE_SIZE ≠ 0 :=
        ⟨fun hin => hin.2.2, fun hin => ⟨hload, hlt, hin⟩⟩
      exact ⟨hne.trans hin.symm, fun p hmem => ⟨hload, hp p hmem⟩⟩
    · cases hbss
      exact ⟨iff_of_false (not_not.mpr rfl) fun hin => hlt hin.2.1, nofun⟩

theorem layouts_remap {start : ℕ} : ∀ {segs : List ProgramHeader} {Ls : List Layout},
    (∀ seg ∈ segs, seg.segmentType = some .load → 0 < seg.fileSize) →
      List.Forall₂ (fun seg L => layout B P seg start = .ok L) segs Ls →
      (Ls.flatMap Layout.remap = [] ↔ ∀ seg ∈ segs, ¬ seg.BssInside) ∧
        ∀ p ∈ Ls.flatMap Layout.remap, ∃ seg ∈ segs, seg.segmentType = some .load ∧
          p = pageOf ((seg.virtualAddr + (seg.fileSize - 1)) % U64)
  | [], _, _, .nil => ⟨iff_of_true rfl nofun, nofun⟩
  | seg :: segs, L :: Ls, hfile, .cons hL hLs => by
      obtain ⟨hne, hp⟩ := layout_remap (hfile seg List.mem_cons_self) hL
      obtain ⟨hnes, hps⟩ := layouts_remap (fun t ht => hfile t (List.mem_cons_of_mem _ ht)) hLs
      refine ⟨?_, fun p hmem => ?_⟩
      · rw [List.flatMap_cons, List.append_eq_nil_iff, List.forall_mem_cons, hnes, ← hne, not_not]
      · rcases List.mem_append.mp hmem with hmem | hmem
        · exact ⟨seg, List.mem_cons_self, hp p hmem⟩
        · obtain ⟨t, ht, hpt⟩ := hps p hmem
          exact ⟨t, List.mem_cons_of_mem _ ht, hpt⟩

/-- **When `unmap_elf` undoes `map_elf`.**  On a page table without the pages of the segments, it
succeeds and restores the page table exactly if the data of no segment end inside of a page that
`.bss` begins in: that page is unmapped twice. -/
theorem unmap_elf_undoes_iff {elf : ElfFile} {input : ℕ} {m m' : Mem α}
    (hsize : ∀ seg ∈ elf.programHeaders, seg.segmentType = some .load →
      0 < seg.fileSize ∧ seg.fileSize ≤ seg.memSize)
    (hfree : ∀ seg ∈ elf.programHeaders, seg.segmentType = some .load → ∀ i < seg.memSize,
      m.table (pageOf ((seg.virtualAddr + i) % U64)) = none)
    (h : mapElf B P elf input m = .ok (.ok (), m')) :
    (∃ m'', unmapElf B P elf input m' = .ok (.ok (), m'') ∧ m''.table = m.table) ↔
      ∀ seg ∈ elf.programHeaders, ¬ seg.BssInside := by
  obtain ⟨start, hstart, h⟩ := bind_eq_ok.mp h
  obtain ⟨Ls, hLs, hadded⟩ := mapSegments_added h
  have hperm : (Ls.flatMap Layout.walk).Perm (Ls.flatMap Layout.added ++ Ls.flatMap Layout.remap) :=
    (List.Perm.flatMap_left Ls fun L _ => L.walk_perm).trans (List.flatMap_append_perm Ls _ _).symm
  have hunmap : unmapElf B P elf input m' = .ok (unmapAll (Ls.flatMap Layout.walk) m') := by
    rw [unmapElf, bind_eq_ok]
    exact ⟨start, hstart, unmapSegments_eq hLs⟩
  obtain ⟨hremap, hpage⟩ := layouts_remap (fun seg hseg hload => (hsize seg hseg hload).1) hLs
  -- the page that is mapped again was mapped before, so it is one of the added pages
  have hagain : ∀ p ∈ Ls.flatMap Layout.remap, p ∈ Ls.flatMap Layout.added := by
    intro p hp
    obtain ⟨seg, hseg, hload, rfl⟩ := hpage p hp
    obtain ⟨h0, hle⟩ := hsize seg hseg hload
    exact (hadded.remap _ hp).resolve_left
      (not_not.mpr (hfree seg hseg hload (seg.fileSize - 1) (by omega)))
  rw [hunmap, ← hremap]
  constructor
  · rintro ⟨m'', hun, -⟩
    have hnd := hperm.nodup_iff.mp (unmapAll_ok (Except.ok.inj hun)).1
    exact List.eq_nil_iff_forall_not_mem.mpr fun p hp =>
      List.disjoint_of_nodup_append hnd (hagain p hp) hp
  · intro hnil
    rw [hnil, List.append_nil] at hperm
    obtain ⟨m'', hun⟩ := unmapAll_of_mapped (m := m')
      (fun p hp => (hadded.mapped p).mpr (Or.inr (hperm.mem_iff.mp hp))) (hperm.nodup_iff.mpr hadded.nodup)
    refine ⟨m'', congrArg Except.ok hun, funext fun p => ?_⟩
    have hg := (unmapAll_ok hun).2
    by_cases hp : p ∈ Ls.flatMap Layout.added
    · rw [hg.fresh p (hperm.mem_iff.mpr hp), hadded.fresh p hp]
    · rw [← hg.same p (fun hmem => hp (hperm.mem_iff.mp hmem)), hadded.same hnil p hp]

/-- `PhysAddr` with checked arithmetic. -/
def PhysBuild.checked : PhysBuild where
  addPhysAddr a b := if a + b < 2 ^ 52 then some (a + b) else none
  subPhysAddr a b := if b ≤ a then some (a - b) else none
  add_exact _ _ _ := rfl
  sub_exact _ _ h _ := if_pos h

/-- A page of data and a byte of `.bss` on the next one. -/
theorem unmap_elf_undoes_iff_example : ∃ m' m'',
    mapElf .release .checked (oneSegment [5] 0 0x1000 4096 4097) 0x5000 oneFree = .ok (.ok (), m') ∧
    unmapElf .release .checked (oneSegment [5] 0 0x1000 4096 4097) 0x5000 m' = .ok (.ok (), m'') ∧
    m''.table = oneFree.table := by
  have hmap : mapElf .release .checked (oneSegment [5] 0 0x1000 4096 4097) 0x5000 oneFree =
      .ok (.ok (), _) := rfl
  obtain ⟨m'', hun, htable⟩ := (unmap_elf_undoes_iff (by
      intro seg hseg _
      rw [List.mem_singleton.mp hseg]
      decide) (fun _ _ _ _ _ => rfl) hmap).mpr (by
      intro seg hseg
      rw [List.mem_singleton.mp hseg]
      decide)
  exact ⟨_, m'', hmap, hun, htable⟩

/-- A byte of data and a byte of `.bss` behind it: the page is unmapped twice. -/
theorem unmap_elf_fails : ∃ m' m'',
    mapElf .release .checked (oneSegment [5] 0 0x1000 1 2) 0x5000 oneFree = .ok (.ok (), m') ∧
    unmapElf .release .checked (oneSegment [5] 0 0x1000 1 2) 0x5000 m' =
      .ok (.error .pageNotMapped, m'') :=
  ⟨_, _, rfl, rfl⟩

end Ysos
