import Ysos.Elf

/-! # The image of a program in memory

After `load_elf` the bytes of a segment should be the file's data followed by zeros.  The copy of
`load_segment` puts the data at the start of the segment's first frame, also when the segment
starts inside of its first page.

* `Loads`: what every part of the loader does: it maps some free pages to frames that the
  allocator has not granted before, and writes to no other frame.
* `loadSegment_loads`: the byte that loading leaves at each address of a segment
  (`ProgramHeader.imageByte`).
* `loadElf_image`: the image is the one the file describes if and only if every loaded segment
  starts on a page boundary, or its data hides the displacement.
* `load_displaced`: a segment of one byte at offset 1 of its page. -/

namespace Ysos

open PartialMap Runs

variable {α : Type} [FrameAllocator α]

/-! ### Frames that are still to be granted -/

/-- The frames that the next `n` calls of `allocate_frame` return, up to the first `None`. -/
def grantedFrames : ℕ → α → List Frame
  | 0, _ => []
  | n + 1, a =>
      match allocateFrame a with
      | (none, _) => []
      | (some f, b) => f :: grantedFrames n b

def upcoming (a : α) : Set Frame := {f | ∃ n, f ∈ grantedFrames n a}

/-- The allocator grants no frame twice, which the trait `FrameAllocator` asks of it. -/
def Unique (a : α) : Prop := ∀ n, (grantedFrames n a).Nodup

theorem mem_upcoming_of_some {a b : α} {f g : Frame} (h : allocateFrame a = (some f, b)) :
    g ∈ upcoming a ↔ g = f ∨ g ∈ upcoming b := by
  constructor
  · rintro ⟨n, hn⟩
    rcases n with _ | n
    · cases hn
    · simp only [grantedFrames, h, List.mem_cons] at hn
      exact hn.imp id fun hg => ⟨n, hg⟩
  · rintro (rfl | ⟨n, hn⟩)
    · exact ⟨1, by simp [grantedFrames, h]⟩
    · exact ⟨n + 1, by simp [grantedFrames, h, hn]⟩

theorem Unique.of_some {a b : α} {f : Frame} (ha : Unique a) (h : allocateFrame a = (some f, b)) :
    f ∉ upcoming b ∧ Unique b := by
  have hcons : ∀ n, (f :: grantedFrames n b).Nodup := by
    intro n
    have hn := ha (n + 1)
    simp only [grantedFrames, h] at hn
    exact hn
  exact ⟨fun ⟨n, hn⟩ => (List.nodup_cons.mp (hcons n)).1 hn,
    fun n => (List.nodup_cons.mp (hcons n)).2⟩

theorem grantedFrames_eq_take : ∀ (n : ℕ) (a : BootInfoFrameAllocator),
    grantedFrames n a = a.free.take n
  | 0, _ => rfl
  | n + 1, a => by
      unfold grantedFrames
      rcases ha : allocateFrame a with ⟨_ | f, b⟩
      · simp [(BootInfoFrameAllocator.free_of_none ha).1]
      · simp [BootInfoFrameAllocator.free_of_some ha, grantedFrames_eq_take n b]

theorem unique_of_nodup {a : BootInfoFrameAllocator} (h : a.free.Nodup) : Unique a := by
  intro n
  rw [grantedFrames_eq_take]
  exact h.sublist (List.take_sublist n _)

/-! ### What loading does to memory -/

/-- The bytes of a page. -/
def Mem.pageBytes (m : Mem α) (p : ℕ) : Option (ℕ → UInt8) :=
  (m.table p).map fun e => m.phys e.frame

/-- The byte at a virtual address. -/
def Mem.byteAt (m : Mem α) (a : ℕ) : Option UInt8 :=
  (m.pageBytes (pageOf a)).map fun bytes => bytes (a % PAGE_SIZE)

/-- From `m` to `m'` the pages `S` are mapped to frames that the allocator will not grant again,
and only frames that it granted in between are written. -/
structure Loads (S : Set ℕ) (m m' : Mem α) : Prop where
  table : Grown m.table S m'.table
  phys : ∀ f, f ∉ upcoming m.alloc → m'.phys f = m.phys f
  coming : ∀ f, f ∈ upcoming m'.alloc → f ∈ upcoming m.alloc
  owned : ∀ p ∈ S, m'.table.frameOf p ∉ upcoming m'.alloc
  unique : Unique m'.alloc

namespace Loads

variable {S S' : Set ℕ} {m m' m'' : Mem α} {p : ℕ}

theorem refl (hu : Unique m.alloc) : Loads ∅ m m where
  table := Grown.refl m.table
  phys _ _ := rfl
  coming _ hf := hf
  owned _ hp := absurd hp (Set.notMem_empty _)
  unique := hu

omit [FrameAllocator α] in
theorem frameOf_eq (h : Grown m.table S m'.table) (hp : m.table p ≠ none) :
    m'.table.frameOf p = m.table.frameOf p := by
  obtain ⟨e, he⟩ := Option.ne_none_iff_exists'.mp hp
  rw [PageTable.frameOf, PageTable.frameOf, h.keeps he, he]

theorem trans (h : Loads S m m') (h' : Loads S' m' m'') : Loads (S ∪ S') m m'' where
  table := h.table.trans h'.table
  phys f hf := (h'.phys f (mt (h.coming f) hf)).trans (h.phys f hf)
  coming f hf := h.coming f (h'.coming f hf)
  owned p hp := by
    rcases hp with hp | hp
    · rw [frameOf_eq h'.table (h.table.bound p hp)]
      exact mt (h'.coming _) (h.owned p hp)
    · exact h'.owned p hp
  unique := h'.unique

theorem congr (h : Loads S m m') (hS : S = S') : Loads S' m m' := hS ▸ h

theorem page {a : α} {f : Frame} (flags : PageTableFlags) (c : ℕ → UInt8)
    (hu : Unique m.alloc) (ha : allocateFrame m.alloc = (some f, a)) (hp : m.table p = none) :
    Loads {p} m ⟨Function.update m.table p (some ⟨f, flags⟩), a, Function.update m.phys f c⟩ where
  table := Grown.single _ hp
  phys g hg := Function.update_of_ne (fun h => hg ((mem_upcoming_of_some ha).mpr (Or.inl h))) _ _
  coming g hg := (mem_upcoming_of_some ha).mpr (Or.inr hg)
  owned q hq := by
    rw [Set.mem_singleton_iff.mp hq]
    simp only [PageTable.frameOf, Function.update_self, Option.map_some, Option.getD_some]
    exact (hu.of_some ha).1
  unique := (hu.of_some ha).2

/-- A page whose frame is not granted again keeps its bytes. -/
theorem pageBytes_eq (h : Loads S m m') (hp : m.table p ≠ none)
    (hf : m.table.frameOf p ∉ upcoming m.alloc) : m'.pageBytes p = m.pageBytes p := by
  obtain ⟨e, he⟩ := Option.ne_none_iff_exists'.mp hp
  rw [PageTable.frameOf, he] at hf
  simp only [Mem.pageBytes, h.table.keeps he, he, Option.map_some, h.phys e.frame hf]

theorem pageBytes_none (h : Loads S m m') (hp : m.table p = none) (hS : p ∉ S) :
    m'.pageBytes p = none := by
  rw [Mem.pageBytes, h.table.same p hS, hp]
  rfl

/-- What was loaded first is still there after the rest. -/
theorem keeps (h : Loads S m m') (h' : Loads S' m' m'') (hp : m.table p = none) (hS : p ∉ S') :
    m''.pageBytes p = m'.pageBytes p := by
  by_cases hpS : p ∈ S
  · exact h'.pageBytes_eq (h.table.bound p hpS) (h.owned p hpS)
  · have hnone : m'.table p = none := (h.table.same p hpS).trans hp
    rw [h'.pageBytes_none hnone hS, h.pageBytes_none hp hpS]

end Loads

/-! ### The two loops of `load_segment` -/

variable {B : Build}

/-- The contents that `load_segment` gives to the frame of page number `idx` of the file data,
where `left` is the difference of the file size and the offset of the page. -/
def frameContent (elf : ElfFile) (seg : ProgramHeader) (idx left : ℕ) : ℕ → UInt8 := fun i =>
  if i < (if left < PAGE_SIZE then left else PAGE_SIZE) then
    elf.input.getD (seg.offset + idx * PAGE_SIZE + i) 0
  else 0

theorem loadEach_loads {elf : ElfFile} {seg : ProgramHeader} {flags : PageTableFlags} :
    ∀ {ps : List ℕ} {idx : ℕ} {m m' : Mem α}, Unique m.alloc →
      loadEach B elf seg flags idx ps m = .ok (.ok (), m') →
      Loads {p | p ∈ ps} m m' ∧ ∀ k p, ps[k]? = some p → ∃ left,
        B.sub seg.fileSize ((idx + k) * PAGE_SIZE) = .ok left ∧
        m'.pageBytes p = some (frameContent elf seg (idx + k) left)
  | [], idx, m, m', hu, h => by
      cases h
      exact ⟨(Loads.refl hu).congr (by ext; simp), fun k p hk => by simp at hk⟩
  | p :: ps, idx, m, m', hu, h => by
      unfold loadEach at h
      split at h
      · cases h
      · rename_i f a ha
        obtain ⟨left, hleft, h⟩ := bind_eq_ok.mp h
        simp only [Mem.mapTo] at h
        rcases hp : m.table p with _ | e <;> simp only [hp] at h
        · have h1 := Loads.page flags (frameContent elf seg idx left) hu ha hp
          obtain ⟨h2, hbytes⟩ := loadEach_loads h1.unique h
          have hp2 : p ∉ ps := fun hmem => h1.table.bound p rfl (h2.table.fresh p hmem)
          refine ⟨(h1.trans h2).congr (by ext q; simp [eq_comm]), ?_⟩
          intro k q hk
          rcases k with _ | k
          · obtain rfl : p = q := by simpa using hk
            refine ⟨left, hleft, ?_⟩
            rw [h1.keeps h2 hp hp2]
            simp [Mem.pageBytes]
          · obtain ⟨left', hleft', hq⟩ := hbytes k q (by simpa using hk)
            rw [Nat.add_right_comm] at hleft' hq
            exact ⟨left', hleft', hq⟩
        · cases h

theorem zeroEach_loads {flags : PageTableFlags} : ∀ {ps : List ℕ} {m m' : Mem α},
    Unique m.alloc → zeroEach flags ps m = (.ok (), m') →
      Loads {p | p ∈ ps ∧ m.table p = none} m m' ∧
        ∀ p ∈ ps, m.table p = none → m'.pageBytes p = some fun _ => 0
  | [], m, m', hu, h => by
      cases h
      exact ⟨(Loads.refl hu).congr (by ext; simp), fun p hp => by cases hp⟩
  | p :: ps, m, m', hu, h => by
      unfold zeroEach at h
      split_ifs at h with hp
      · rw [Option.isNone_iff_eq_none] at hp
        split at h
        · cases h
        · rename_i f a ha
          simp only [Mem.mapTo, hp] at h
          have h1 := Loads.page flags (fun _ => 0) hu ha hp
          obtain ⟨h2, hbytes⟩ := zeroEach_loads h1.unique h
          refine ⟨(h1.trans h2).congr ?_, ?_⟩
          · ext q
            by_cases hq : q = p
            · subst hq
              simp [hp]
            · simp [hq]
          · intro q hq hnone
            by_cases hqp : q = p
            · subst hqp
              rw [h1.keeps h2 hp (by simp)]
              simp [Mem.pageBytes]
            · refine hbytes q ((List.mem_cons.mp hq).resolve_left hqp) ?_
              exact (Function.update_of_ne hqp _ _).trans hnone
      · rw [Option.isNone_iff_eq_none] at hp
        obtain ⟨h1, hbytes⟩ := zeroEach_loads hu h
        refine ⟨h1.congr ?_, ?_⟩
        · ext q
          by_cases hq : q = p
          · subst hq
            simp [hp]
          · simp [hq]
        · intro q hq hnone
          have hqp : q ≠ p := fun e => hp (e ▸ hnone)
          exact hbytes q ((List.mem_cons.mp hq).resolve_left hqp) hnone

/-! ### One segment -/

namespace ProgramHeader
variable (seg : ProgramHeader)

/-- The fields of the header are values of `u64`. -/
structure IsU64 : Prop where
  virtualAddr : seg.virtualAddr < U64
  fileSize : seg.fileSize < U64
  memSize : seg.memSize < U64

/-- The offset of the segment in its first page. -/
def shift : ℕ := seg.virtualAddr % PAGE_SIZE

/-- The offset of the last page of the file data from the first one. -/
def lastData : ℕ := (seg.shift + seg.fileSize - 1) / PAGE_SIZE * PAGE_SIZE

/-- The byte that the copy puts `j` bytes behind the start of the first page.  Where a page
starts behind the file size, the number of bytes to copy wraps and the whole page is copied. -/
def copiedByte (input : List UInt8) (j : ℕ) : UInt8 :=
  if j < seg.fileSize ∨ seg.fileSize < j / PAGE_SIZE * PAGE_SIZE then input.getD (seg.offset + j) 0
  else 0

/-- The byte that loading leaves at byte `i` of the segment. -/
def imageByte (input : List UInt8) (i : ℕ) : Option UInt8 :=
  if 0 < seg.fileSize ∧ (seg.shift + i) / PAGE_SIZE * PAGE_SIZE ≤ seg.lastData then
    some (seg.copiedByte input (seg.shift + i))
  else if seg.fileSize = 0 ∧ seg.shift ≠ 0 ∧ seg.shift + i < PAGE_SIZE then none
  else some 0

end ProgramHeader

variable {seg : ProgramHeader}

/-- The last byte of a segment, also of one that ends with the address space. -/
theorem lastByte_eq {v n e l : ℕ} (he : B.virtAdd v n = .ok e) (hl : B.virtSub e 1 = .ok l)
    (hn : 0 < n) (hle : v + n ≤ U64) : l = v + n - 1 := by
  have hU : U64 = 2 ^ 64 := rfl
  rcases Nat.lt_or_ge (v + n) U64 with hlt | hge
  · have he' := B.virtAdd_eq he hlt
    rw [he'] at hl
    exact B.virtSub_eq hl (by omega) hlt
  · have hvn : v + n = U64 := by omega
    have he' := (B.add_wraps v n e (B.virtAdd_ok he)).2
    have hl' := (B.sub_wraps e 1 l (B.virtSub_ok hl)).2
    rw [hvn, Nat.mod_self] at he'
    rw [he', Nat.zero_add, Nat.mod_eq_of_lt (by omega)] at hl'
    omega

theorem addr_split (v i : ℕ) : pageOf (v + i) = pageOf v + (v % PAGE_SIZE + i) / PAGE_SIZE ∧
    (v + i) % PAGE_SIZE = (v % PAGE_SIZE + i) % PAGE_SIZE := by
  simp only [pageOf, PAGE_SIZE]
  omega

theorem frameContent_eq {elf : ElfFile} {k left off : ℕ} (hseg : seg.fileSize < U64)
    (hk : k * PAGE_SIZE < seg.fileSize + PAGE_SIZE) (hlt : k * PAGE_SIZE < U64)
    (hleft : B.sub seg.fileSize (k * PAGE_SIZE) = .ok left) (hoff : off < PAGE_SIZE) :
    frameContent elf seg k left off = seg.copiedByte elf.input (k * PAGE_SIZE + off) := by
  have hU : U64 = 2 ^ 64 := rfl
  have hP : PAGE_SIZE = 4096 := rfl
  have hj : (k * PAGE_SIZE + off) / PAGE_SIZE = k := by
    rw [Nat.mul_comm, Nat.mul_add_div (by decide), Nat.div_eq_of_lt hoff, Nat.add_zero]
  rw [frameContent, ProgramHeader.copiedByte, hj, ← Nat.add_assoc]
  rcases Nat.lt_or_ge seg.fileSize (k * PAGE_SIZE) with hbehind | hle
  · have hmod := B.sub_eq hleft hseg
    rw [Nat.mod_eq_of_lt (by omega)] at hmod
    have hbig : ¬ left < PAGE_SIZE := by omega
    rw [if_neg hbig, if_pos hoff, if_pos (Or.inr hbehind)]
  · have hsub : left = seg.fileSize - k * PAGE_SIZE := by
      rw [Build.sub, if_pos hle] at hleft
      exact (Except.ok.inj hleft).symm
    have hiff : off < (if left < PAGE_SIZE then left else PAGE_SIZE) ↔
        k * PAGE_SIZE + off < seg.fileSize ∨ seg.fileSize < k * PAGE_SIZE := by
      split_ifs <;> omega
    simp only [hiff]

/-- A segment that ends inside of the address space, with its file data inside of its memory and
its pages free. -/
structure ProgramHeader.Loadable (seg : ProgramHeader) (T : PageTable) : Prop where
  u64 : seg.IsU64
  inSpace : seg.virtualAddr + seg.memSize ≤ U64
  fileSize : seg.fileSize ≤ seg.memSize
  free : ∀ i < seg.memSize, T (pageOf (seg.virtualAddr + i)) = none

theorem exists_byte {p : ℕ} (h0 : 0 < seg.memSize) (hlo : pageOf seg.virtualAddr ≤ p)
    (hhi : p ≤ pageOf (seg.virtualAddr + seg.memSize - 1)) :
    ∃ i < seg.memSize, p = pageOf (seg.virtualAddr + i) := by
  refine ⟨p * PAGE_SIZE - seg.virtualAddr, ?_, ?_⟩ <;>
    simp only [pageOf, PAGE_SIZE] at hlo hhi ⊢ <;> omega

theorem loadFileData_loads {elf : ElfFile} {user : Bool} {m m' : Mem α} (hu : Unique m.alloc)
    (hseg : seg.Loadable m.table)
    (h : loadFileData B elf seg user seg.virtualAddr m = .ok (.ok (), m')) :
    ∃ S, Loads S m m' ∧
      (∀ p, p ∈ S ↔ 0 < seg.fileSize ∧ pageOf seg.virtualAddr ≤ p ∧
        p ≤ pageOf (seg.virtualAddr + seg.fileSize - 1)) ∧
      ∀ k off, pageOf seg.virtualAddr + k ∈ S → off < PAGE_SIZE →
        (m'.pageBytes (pageOf seg.virtualAddr + k)).map (fun bytes => bytes off) =
          some (seg.copiedByte elf.input (k * PAGE_SIZE + off)) := by
  have hend := hseg.inSpace
  have hsize := hseg.fileSize
  unfold loadFileData at h
  split_ifs at h with hfile
  · simp only [bind_eq_ok] at h
    obtain ⟨e, he, l, hl, h⟩ := h
    have hl' := lastByte_eq he hl hfile (by omega)
    subst hl'
    obtain ⟨hloads, hbytes⟩ := loadEach_loads hu h
    refine ⟨_, hloads, fun p => by simp [hfile], fun k off hk hoff => ?_⟩
    have hle : pageOf seg.virtualAddr + k ≤ pageOf (seg.virtualAddr + seg.fileSize - 1) :=
      (PageRangeInclusive.mem_pages.mp hk).2
    have hk' : k < pageOf (seg.virtualAddr + seg.fileSize - 1) + 1 - pageOf seg.virtualAddr := by
      omega
    obtain ⟨left, hleft, hp⟩ := hbytes k (pageOf seg.virtualAddr + k) (by
      rw [PageRangeInclusive.pages, PageRangeInclusive.count, List.getElem?_range' hk']
      simp)
    rw [Nat.zero_add] at hleft hp
    rw [hp, Option.map_some]
    simp only [pageOf, PAGE_SIZE] at hle
    refine congrArg some (frameContent_eq hseg.u64.fileSize ?_ ?_ hleft hoff) <;>
      simp only [PAGE_SIZE] <;> omega
  · cases h
    exact ⟨∅, Loads.refl hu, fun p => by simp [hfile], fun k off hk => absurd hk (Set.notMem_empty _)⟩

theorem loadBss_loads {user : Bool} {m m' : Mem α} (hu : Unique m.alloc)
    (hend : seg.virtualAddr + seg.memSize ≤ U64)
    (h : loadBss B seg user seg.virtualAddr m = .ok (.ok (), m')) :
    ∃ S, Loads S m m' ∧
      (∀ p, p ∈ S ↔ seg.fileSize < seg.memSize ∧
        pageOf (alignUp (seg.virtualAddr + seg.fileSize)) ≤ p ∧
        p ≤ pageOf (seg.virtualAddr + seg.memSize - 1) ∧ m.table p = none) ∧
      ∀ p ∈ S, m'.pageBytes p = some fun _ => 0 := by
  unfold loadBss at h
  split_ifs at h with hbss
  · simp only [bind_eq_ok, pure_eq_ok] at h
    obtain ⟨b, hb, u, hu', e, he, l, hl, h⟩ := h
    have hb' := B.virtAdd_eq hb (by omega)
    obtain ⟨rfl, -⟩ := virtAddrNew_ok hu'
    have hl' := lastByte_eq he hl (by omega) hend
    subst hb' hl'
    obtain ⟨hloads, hbytes⟩ := zeroEach_loads hu h
    refine ⟨_, hloads, fun p => by simp [hbss, and_assoc], fun p hp => hbytes p hp.1 hp.2⟩
  · cases h
    exact ⟨∅, Loads.refl hu, fun p => by simp [hbss], fun p hp => absurd hp (Set.notMem_empty _)⟩

theorem loadSegment_loads {elf : ElfFile} {user : Bool} {m m' : Mem α}
    {r : PageRangeInclusive × ℕ} (hu : Unique m.alloc) (hseg : seg.Loadable m.table)
    (h0 : 0 < seg.memSize) (h : loadSegment B elf seg user m = .ok (.ok r, m')) :
    ∃ S, Loads S m m' ∧ (∀ p ∈ S, ∃ i < seg.memSize, p = pageOf (seg.virtualAddr + i)) ∧
      ∀ i < seg.memSize, m'.byteAt (seg.virtualAddr + i) = seg.imageByte elf.input i := by
  obtain ⟨m₁, e, l, h₁, h₂, -⟩ := loadSegment_parts h
  obtain ⟨S₁, hl₁, hS₁, hb₁⟩ := loadFileData_loads hu hseg h₁
  obtain ⟨S₂, hl₂, hS₂, hb₂⟩ := loadBss_loads hl₁.unique hseg.inSpace h₂
  have hsize := hseg.fileSize
  have hdisj : ∀ p ∈ S₁, p ∉ S₂ := fun p hp hp' => hl₁.table.bound p hp ((hS₂ p).mp hp').2.2.2
  refine ⟨S₁ ∪ S₂, hl₁.trans hl₂, ?_, fun i hi => ?_⟩
  · rintro p (hp | hp)
    · obtain ⟨-, hlo, hhi⟩ := (hS₁ p).mp hp
      exact exists_byte h0 hlo (hhi.trans (Nat.div_le_div_right (by omega)))
    · obtain ⟨-, hlo, hhi, -⟩ := (hS₂ p).mp hp
      refine exists_byte h0 (le_trans (Nat.div_le_div_right ?_) hlo) hhi
      exact (Nat.le_add_right _ _).trans (le_alignUp _)
  · obtain ⟨hpage, hoff⟩ := addr_split seg.virtualAddr i
    have hfree := hseg.free i hi
    have hlt : (seg.shift + i) % PAGE_SIZE < PAGE_SIZE := Nat.mod_lt _ (by decide)
    rw [Mem.byteAt, hoff, hpage]
    rw [hpage] at hfree
    change m.table (pageOf seg.virtualAddr + (seg.shift + i) / PAGE_SIZE) = none at hfree
    change (m'.pageBytes (pageOf seg.virtualAddr + (seg.shift + i) / PAGE_SIZE)).map
      (fun bytes => bytes ((seg.shift + i) % PAGE_SIZE)) = _
    -- a page of the file data, a page that only `.bss` has, or the first page of a `.bss` that
    -- starts inside of it
    by_cases hdata : pageOf seg.virtualAddr + (seg.shift + i) / PAGE_SIZE ∈ S₁
    · obtain ⟨hfile, -, hle⟩ := (hS₁ _).mp hdata
      rw [hl₂.pageBytes_eq (hl₁.table.bound _ hdata) (hl₁.owned _ hdata), hb₁ _ _ hdata hlt,
        Nat.div_add_mod', ProgramHeader.imageByte, if_pos]
      refine ⟨hfile, ?_⟩
      simp only [ProgramHeader.shift, ProgramHeader.lastData, pageOf, PAGE_SIZE] at hle ⊢
      omega
    · have hnodata : ¬ (0 < seg.fileSize ∧
          (seg.shift + i) / PAGE_SIZE * PAGE_SIZE ≤ seg.lastData) := by
        rintro ⟨hfile, hle⟩
        refine hdata ((hS₁ _).mpr ⟨hfile, Nat.le_add_right _ _, ?_⟩)
        simp only [ProgramHeader.shift, ProgramHeader.lastData, pageOf, PAGE_SIZE] at hle ⊢
        omega
      have hfree₁ := (hl₁.table.same _ hdata).trans hfree
      rw [ProgramHeader.imageByte, if_neg hnodata]
      by_cases hbss : pageOf seg.virtualAddr + (seg.shift + i) / PAGE_SIZE ∈ S₂
      · rw [hb₂ _ hbss, Option.map_some, if_neg]
        obtain ⟨-, hlo, -, -⟩ := (hS₂ _).mp hbss
        simp only [ProgramHeader.shift, pageOf, alignUp, PAGE_SIZE] at hlo ⊢
        omega
      · rw [hl₂.pageBytes_none hfree₁ hbss, Option.map_none, if_pos]
        have hnobss := mt (hS₂ _).mpr hbss
        simp only [hfree₁, and_true] at hnobss
        simp only [ProgramHeader.shift, ProgramHeader.lastData, pageOf, alignUp, PAGE_SIZE]
          at hnobss hnodata ⊢
        omega

/-! ### When the displacement does not show -/

namespace ProgramHeader
variable (seg : ProgramHeader)

/-- Byte `j` of the input from the start of the segment's data on. -/
def data (input : List UInt8) (j : ℕ) : UInt8 := input.getD (seg.offset + j) 0

/-- In memory the segment has the bytes that the file describes. -/
def ImageIn (input : List UInt8) (byteAt : ℕ → Option UInt8) : Prop :=
  (∀ i < seg.fileSize, byteAt (seg.virtualAddr + i) = input[seg.offset + i]?) ∧
    ∀ i, seg.fileSize ≤ i → i < seg.memSize → byteAt (seg.virtualAddr + i) = some 0

/-- The last page of the data starts behind the file size, so that all of it is copied, and what
the copy leaves repeats the data at the distance of the segment's offset in its first page. -/
structure Repeats (input : List UInt8) : Prop where
  behind : seg.fileSize < seg.lastData
  same : ∀ i < seg.fileSize, seg.shift + i < seg.fileSize ∨ seg.lastData ≤ seg.shift + i →
    seg.data input i = seg.data input (seg.shift + i)
  gap : ∀ i < seg.fileSize, seg.fileSize ≤ seg.shift + i → seg.shift + i < seg.lastData →
    seg.data input i = 0
  tail : ∀ i, seg.fileSize ≤ i → i < seg.memSize → seg.shift + i < seg.lastData + PAGE_SIZE →
    seg.data input (seg.shift + i) = 0

/-- The segment starts on a page boundary; or it has file data, and these are zero or happen to
repeat at the distance of the displacement. -/
def Faithful (input : List UInt8) : Prop :=
  seg.shift = 0 ∨
    0 < seg.fileSize ∧ seg.lastData ≤ seg.fileSize ∧
      (∀ i < seg.fileSize, seg.data input i = 0) ∨
    0 < seg.fileSize ∧ seg.Repeats input

variable {seg} {input : List UInt8}

theorem lastData_bounds (seg : ProgramHeader) : seg.lastData ≤ seg.shift + seg.fileSize - 1 ∧
    seg.shift + seg.fileSize ≤ seg.lastData + PAGE_SIZE := by
  simp only [lastData, PAGE_SIZE]
  omega

/-- Byte `j` of the pages of a segment with file data. -/
def pageByte (seg : ProgramHeader) (input : List UInt8) (j : ℕ) : UInt8 :=
  if j < seg.fileSize ∨
      seg.fileSize < seg.lastData ∧ seg.lastData ≤ j ∧ j < seg.lastData + PAGE_SIZE
  then seg.data input j else 0

/-- With file data, all bytes are copied or zero. -/
theorem imageByte_eq (h : 0 < seg.fileSize) (i : ℕ) :
    seg.imageByte input i = some (seg.pageByte input (seg.shift + i)) := by
  obtain ⟨hlo, hhi⟩ := seg.lastData_bounds
  have hshift : seg.shift < PAGE_SIZE := Nat.mod_lt _ (by decide)
  have hmod : seg.lastData % PAGE_SIZE = 0 := Nat.mul_mod_left _ _
  rw [imageByte]
  by_cases hdata : 0 < seg.fileSize ∧ (seg.shift + i) / PAGE_SIZE * PAGE_SIZE ≤ seg.lastData
  · rw [if_pos hdata, copiedByte, pageByte, data]
    have hiff : (seg.shift + i < seg.fileSize ∨
          seg.fileSize < (seg.shift + i) / PAGE_SIZE * PAGE_SIZE) ↔
        (seg.shift + i < seg.fileSize ∨ seg.fileSize < seg.lastData ∧
          seg.lastData ≤ seg.shift + i ∧ seg.shift + i < seg.lastData + PAGE_SIZE) := by
      have hle := hdata.2
      simp only [PAGE_SIZE] at hle hmod hhi hshift ⊢
      omega
    simp only [hiff]
  · rw [if_neg hdata, if_neg fun hno => Nat.ne_of_gt h hno.1, pageByte, if_neg]
    have hgt : ¬ (seg.shift + i) / PAGE_SIZE * PAGE_SIZE ≤ seg.lastData := fun hle => hdata ⟨h, hle⟩
    simp only [PAGE_SIZE] at hgt hmod hhi ⊢
    omega

/-- If the data are the same one shift further on, up to zeros, they are zero. -/
theorem data_eq_zero (hshift : 0 < seg.shift) (h : ∀ i < seg.fileSize, seg.data input i =
    if seg.shift + i < seg.fileSize then seg.data input (seg.shift + i) else 0) :
    ∀ n i, seg.fileSize ≤ i + n → i < seg.fileSize → seg.data input i = 0
  | 0, i, hn, hi => absurd hi (by omega)
  | n + 1, i, hn, hi => by
      rw [h i hi]
      split_ifs with hnext
      · exact data_eq_zero hshift h n (seg.shift + i) (by omega) hnext
      · rfl

/-- The bytes of the segment are those that stand one shift further on. -/
structure Undisplaced (seg : ProgramHeader) (input : List UInt8) : Prop where
  file : ∀ i < seg.fileSize, seg.data input i = seg.pageByte input (seg.shift + i)
  zero : ∀ i, seg.fileSize ≤ i → i < seg.memSize → seg.pageByte input (seg.shift + i) = 0

theorem undisplaced_of_aligned (hshift : seg.shift = 0) : seg.Undisplaced input := by
  obtain ⟨hlo, -⟩ := seg.lastData_bounds
  constructor
  · intro i hi
    rw [pageByte, hshift, Nat.zero_add, if_pos (Or.inl hi)]
  · intro i hi _
    rw [pageByte, if_neg (by omega)]

theorem undisplaced_iff_repeats (hbehind : seg.fileSize < seg.lastData) :
    seg.Undisplaced input ↔ seg.Repeats input := by
  obtain ⟨hlo, hhi⟩ := seg.lastData_bounds
  constructor
  · rintro ⟨hfile, hzero⟩
    refine ⟨hbehind, fun i hi hor => ?_, fun i hi h1 h2 => ?_, fun i h1 h2 h3 => ?_⟩
    · rw [hfile i hi, pageByte, if_pos (hor.imp id fun h => ⟨hbehind, h, by omega⟩)]
    · rw [hfile i hi, pageByte, if_neg (by omega)]
    · have hz := hzero i h1 h2
      by_cases hge : seg.lastData ≤ seg.shift + i
      · rwa [pageByte, if_pos (Or.inr ⟨hbehind, hge, h3⟩)] at hz
      · omega
  · intro h
    refine ⟨fun i hi => ?_, fun i h1 h2 => ?_⟩
    · rw [pageByte]
      split_ifs with hor
      · exact h.same i hi (hor.imp id fun h => h.2.1)
      · exact h.gap i hi (by omega) (by omega)
    · rw [pageByte]
      split_ifs with hor
      · exact h.tail i h1 h2 (by omega)
      · rfl

theorem undisplaced_iff_zero (hshift : 0 < seg.shift) (hwithin : seg.lastData ≤ seg.fileSize) :
    seg.Undisplaced input ↔ ∀ i < seg.fileSize, seg.data input i = 0 := by
  have hpage : ∀ j, seg.pageByte input j =
      if j < seg.fileSize then seg.data input j else 0 := by
    intro j
    simp only [pageByte, Nat.not_lt.mpr hwithin, false_and, or_false]
  constructor
  · intro h i hi
    exact data_eq_zero hshift (fun i hi => (h.file i hi).trans (hpage _)) seg.fileSize i (by omega) hi
  · intro h
    refine ⟨fun i hi => ?_, fun i h1 _ => by rw [hpage, if_neg (by omega)]⟩
    rw [hpage]
    split_ifs with hnext
    · rw [h i hi, h _ hnext]
    · exact h i hi

theorem undisplaced_iff (hf : 0 < seg.fileSize) : seg.Undisplaced input ↔ seg.Faithful input := by
  rcases Nat.eq_zero_or_pos seg.shift with hshift | hshift
  · exact iff_of_true (undisplaced_of_aligned hshift) (Or.inl hshift)
  · rcases Nat.lt_or_ge seg.fileSize seg.lastData with hbehind | hwithin
    · rw [undisplaced_iff_repeats hbehind]
      simp [Faithful, hshift.ne', hf, Nat.not_le.mpr hbehind]
    · rw [undisplaced_iff_zero hshift hwithin]
      have hnot : ¬ seg.Repeats input := fun h => absurd h.behind (Nat.not_lt.mpr hwithin)
      simp [Faithful, hshift.ne', hf, hwithin, hnot]

/-- Without file data, the rest of the first page must be the segment's own. -/
theorem imageByte_zero_iff (h0 : 0 < seg.memSize) (hf : seg.fileSize = 0) :
    (∀ i, seg.fileSize ≤ i → i < seg.memSize → seg.imageByte input i = some 0) ↔ seg.shift = 0 := by
  constructor
  · intro h
    by_contra hshift
    have hnone := h 0 (by omega) h0
    have hlt : seg.shift < PAGE_SIZE := Nat.mod_lt _ (by decide)
    rw [imageByte, if_neg (by omega), if_pos ⟨hf, hshift, hlt⟩] at hnone
    cases hnone
  · intro hshift i _ _
    rw [imageByte, if_neg (by omega), if_neg (by omega)]

/-- The closed form of the image is the one that the file describes in exactly these cases. -/
theorem imageByte_iff (h0 : 0 < seg.memSize)
    (hinput : seg.offset + seg.fileSize ≤ input.length) :
    ((∀ i < seg.fileSize, seg.imageByte input i = input[seg.offset + i]?) ∧
      ∀ i, seg.fileSize ≤ i → i < seg.memSize → seg.imageByte input i = some 0) ↔
    seg.Faithful input := by
  rcases Nat.eq_zero_or_pos seg.fileSize with hf | hf
  · have hempty : seg.Faithful input ↔ seg.shift = 0 := by
      simp [Faithful, hf]
    rw [hempty, imageByte_zero_iff h0 hf]
    exact and_iff_right fun i hi => by omega
  · have hdata : ∀ i < seg.fileSize, input[seg.offset + i]? = some (seg.data input i) := by
      intro i hi
      rw [data, List.getD_eq_getElem?_getD, List.getElem?_eq_getElem (by omega), Option.getD_some]
    rw [← undisplaced_iff hf]
    simp only [imageByte_eq hf, Option.some_inj]
    constructor
    · rintro ⟨hfile, hzero⟩
      exact ⟨fun i hi => (Option.some.inj ((hfile i hi).trans (hdata i hi))).symm, hzero⟩
    · rintro ⟨hfile, hzero⟩
      exact ⟨fun i hi => by rw [hdata i hi, hfile i hi], hzero⟩

end ProgramHeader

/-! ### All segments -/

/-- The segments that are loaded touch no page of each other. -/
def PagesApart (segs : List ProgramHeader) : Prop :=
  (segs.filter ProgramHeader.isLoaded).Pairwise fun s t =>
    ∀ i < s.memSize, ∀ j < t.memSize,
      pageOf (s.virtualAddr + i) ≠ pageOf (t.virtualAddr + j)

theorem PagesApart.tail {segs : List ProgramHeader} (h : PagesApart (seg :: segs)) :
    PagesApart segs := by
  unfold PagesApart at h ⊢
  rw [List.filter_cons] at h
  split_ifs at h
  · exact (List.pairwise_cons.mp h).2
  · exact h

theorem PagesApart.head {segs : List ProgramHeader} (h : PagesApart (seg :: segs))
    (hl : seg.isLoaded = true) {t : ProgramHeader} (ht : t ∈ segs) (htl : t.isLoaded = true) :
    ∀ i < seg.memSize, ∀ j < t.memSize,
      pageOf (seg.virtualAddr + i) ≠ pageOf (t.virtualAddr + j) := by
  unfold PagesApart at h
  rw [List.filter_cons, if_pos hl] at h
  exact (List.pairwise_cons.mp h).1 t (List.mem_filter.mpr ⟨ht, htl⟩)

theorem isLoaded_iff : seg.isLoaded = true ↔ seg.segmentType = some .load ∧ seg.memSize ≠ 0 := by
  simp [ProgramHeader.isLoaded]

omit [FrameAllocator α] in
theorem ProgramHeader.Loadable.after {seg t : ProgramHeader} {S : Set ℕ} {m m' : Mem α}
    (h : t.Loadable m.table) (hg : Grown m.table S m'.table)
    (hS : ∀ p ∈ S, ∃ i < seg.memSize, p = pageOf (seg.virtualAddr + i))
    (hapart : ∀ i < seg.memSize, ∀ j < t.memSize,
      pageOf (seg.virtualAddr + i) ≠ pageOf (t.virtualAddr + j)) : t.Loadable m'.table := by
  refine ⟨h.u64, h.inSpace, h.fileSize, fun j hj => ?_⟩
  rw [hg.same _ fun hp => ?_]
  · exact h.free j hj
  · obtain ⟨i, hi, hp⟩ := hS _ hp
    exact hapart i hi j hj hp.symm

theorem loadSegments_loads {elf : ElfFile} {user : Bool} :
    ∀ {segs : List ProgramHeader} {ranges : List PageRangeInclusive} {usage : ℕ} {m m' : Mem α}
      {r : List PageRangeInclusive × ℕ}, Unique m.alloc →
      (∀ seg ∈ segs, seg.isLoaded = true → seg.Loadable m.table) → PagesApart segs →
      loadSegments B elf user segs ranges usage m = .ok (.ok r, m') →
      ∃ S, Loads S m m' ∧
        (∀ p ∈ S, ∃ seg ∈ segs, seg.isLoaded = true ∧
          ∃ i < seg.memSize, p = pageOf (seg.virtualAddr + i)) ∧
        ∀ seg ∈ segs, seg.isLoaded = true → ∀ i < seg.memSize,
          m'.byteAt (seg.virtualAddr + i) = seg.imageByte elf.input i
  | [], ranges, usage, m, m', r, hu, _, _, h => by
      cases h
      exact ⟨∅, Loads.refl hu, fun p hp => absurd hp (Set.notMem_empty _), nofun⟩
  | seg :: segs, ranges, usage, m, m', r, hu, hs, hd, h => by
      have hs' : ∀ t ∈ segs, t.isLoaded = true → t.Loadable m.table :=
        fun t ht => hs t (List.mem_cons_of_mem _ ht)
      have hskip : seg.isLoaded = false →
          loadSegments B elf user segs ranges usage m = .ok (.ok r, m') →
          ∃ S, Loads S m m' ∧
            (∀ p ∈ S, ∃ t ∈ seg :: segs, t.isLoaded = true ∧
              ∃ i < t.memSize, p = pageOf (t.virtualAddr + i)) ∧
            ∀ t ∈ seg :: segs, t.isLoaded = true → ∀ i < t.memSize,
              m'.byteAt (t.virtualAddr + i) = t.imageByte elf.input i := by
        intro hno h
        obtain ⟨S, hl, hS, hb⟩ := loadSegments_loads hu hs' hd.tail h
        refine ⟨S, hl, fun p hp => ?_, fun t ht htl => ?_⟩
        · obtain ⟨t, ht, htl, hi⟩ := hS p hp
          exact ⟨t, List.mem_cons_of_mem _ ht, htl, hi⟩
        · rcases List.mem_cons.mp ht with rfl | ht
          · rw [hno] at htl
            cases htl
          · exact hb t ht htl
      unfold loadSegments at h
      split at h
      · cases h
      · rename_i hother
        exact hskip (by simp [ProgramHeader.isLoaded, hother]) h
      · rename_i hload
        split_ifs at h with hmem
        · exact hskip (by simp [ProgramHeader.isLoaded, hmem]) h
        have hloaded : seg.isLoaded = true := isLoaded_iff.mpr ⟨hload, hmem⟩
        obtain ⟨⟨r₁, m₁⟩, h₁, h⟩ := bind_eq_ok.mp h
        rcases r₁ with e | ⟨range, bytes⟩
        · cases h
        obtain ⟨total, -, h⟩ := bind_eq_ok.mp h
        have hseg := hs seg List.mem_cons_self hloaded
        obtain ⟨S₁, hl₁, hS₁, hb₁⟩ := loadSegment_loads hu hseg (Nat.pos_of_ne_zero hmem) h₁
        have hapart := fun t (ht : t ∈ segs) => hd.head hloaded (t := t) ht
        have hs₁ : ∀ t ∈ segs, t.isLoaded = true → t.Loadable m₁.table :=
          fun t ht htl => (hs' t ht htl).after hl₁.table hS₁ (hapart t ht htl)
        obtain ⟨S₂, hl₂, hS₂, hb₂⟩ := loadSegments_loads hl₁.unique hs₁ hd.tail h
        refine ⟨S₁ ∪ S₂, hl₁.trans hl₂, ?_, ?_⟩
        · rintro p (hp | hp)
          · exact ⟨seg, List.mem_cons_self, hloaded, hS₁ p hp⟩
          · obtain ⟨t, ht, htl, hi⟩ := hS₂ p hp
            exact ⟨t, List.mem_cons_of_mem _ ht, htl, hi⟩
        · intro t ht htl i hi
          rcases List.mem_cons.mp ht with rfl | ht
          · rw [← hb₁ i hi, Mem.byteAt, Mem.byteAt, hl₁.keeps hl₂ (hseg.free i hi) fun hp => ?_]
            obtain ⟨t', ht', htl', j, hj, hp⟩ := hS₂ _ hp
            exact hapart t' ht' htl' i hi j hj hp
          · exact hb₂ t ht htl i hi

/-! ### Pages behind the address space -/

theorem pageOf_lt {a : ℕ} (h : canonical a = true) : pageOf a < 2 ^ 52 := by
  have hlt := canonical_lt h
  simp only [pageOf, PAGE_SIZE, U64] at hlt ⊢
  omega

theorem lastPage_lt {v n e l : ℕ} (_ : B.virtAdd v n = .ok e) (hl : B.virtSub e 1 = .ok l) :
    pageOf l < 2 ^ 52 :=
  pageOf_lt (B.sub_wraps e 1 l (B.virtSub_ok hl)).1

theorem loadSegment_below {elf : ElfFile} {user : Bool} {m m' : Mem α}
    {r : PageRangeInclusive × ℕ} (h : loadSegment B elf seg user m = .ok (.ok r, m')) {p : ℕ}
    (hp : 2 ^ 52 ≤ p) : m'.table p = m.table p := by
  obtain ⟨m₁, e, l, h₁, h₂, -⟩ := loadSegment_parts h
  have hdata : m₁.table p = m.table p := by
    unfold loadFileData at h₁
    split_ifs at h₁
    · simp only [bind_eq_ok] at h₁
      obtain ⟨e, he, l, hl, h₁⟩ := h₁
      refine (loadEach_ok h₁).same p fun hmem => ?_
      have hle := (PageRangeInclusive.mem_pages.mp hmem).2
      exact absurd (lastPage_lt he hl) (Nat.not_lt.mpr (hp.trans hle))
    · cases h₁
      rfl
  rw [← hdata]
  unfold loadBss at h₂
  split_ifs at h₂
  · simp only [bind_eq_ok, pure_eq_ok] at h₂
    obtain ⟨b, -, u, -, e, he, l, hl, h₂⟩ := h₂
    refine (zeroEach_ok h₂).same p fun hmem => ?_
    have hle := (PageRangeInclusive.mem_pages.mp hmem.1).2
    exact absurd (lastPage_lt he hl) (Nat.not_lt.mpr (hp.trans hle))
  · cases h₂
    rfl

theorem loadSegments_below {elf : ElfFile} {user : Bool} {p : ℕ} (hp : 2 ^ 52 ≤ p) :
    ∀ {segs : List ProgramHeader} {ranges : List PageRangeInclusive} {usage : ℕ} {m m' : Mem α}
      {r : List PageRangeInclusive × ℕ},
      loadSegments B elf user segs ranges usage m = .ok (.ok r, m') → m'.table p = m.table p
  | [], ranges, usage, m, m', r, h => by
      cases h
      rfl
  | seg :: segs, ranges, usage, m, m', r, h => by
      unfold loadSegments at h
      split at h
      · cases h
      · exact loadSegments_below hp h
      · split_ifs at h
        · exact loadSegments_below hp h
        obtain ⟨⟨r₁, m₁⟩, h₁, h⟩ := bind_eq_ok.mp h
        rcases r₁ with e | ⟨range, bytes⟩
        · cases h
        obtain ⟨total, -, h⟩ := bind_eq_ok.mp h
        exact (loadSegments_below hp h).trans (loadSegment_below h₁ hp)

/-- The segments as the ELF rules have them: their data lie in the input, at the offset of their
address in a page, and they touch pairwise disjoint sets of free pages. -/
structure ElfFile.WellFormed (elf : ElfFile) (T : PageTable) : Prop where
  u64 : ∀ seg ∈ elf.programHeaders, seg.isLoaded = true → seg.IsU64
  congruent : ∀ seg ∈ elf.programHeaders, seg.isLoaded = true →
    seg.virtualAddr % PAGE_SIZE = seg.offset % PAGE_SIZE
  fileSize : ∀ seg ∈ elf.programHeaders, seg.isLoaded = true → seg.fileSize ≤ seg.memSize
  input : ∀ seg ∈ elf.programHeaders, seg.isLoaded = true →
    seg.offset + seg.fileSize ≤ elf.input.length
  free : ∀ seg ∈ elf.programHeaders, seg.isLoaded = true →
    ∀ i < seg.memSize, T (pageOf (seg.virtualAddr + i)) = none
  apart : PagesApart elf.programHeaders

/-- **When the image in memory is the one the file describes.**  A well-formed program that
`load_elf` loads, with an allocator that grants no frame twice, has its data and zeros at the
addresses that the file gives if and only if every loaded segment ends inside of the address
space and starts on a page boundary, or has data that hide the displacement. -/
theorem loadElf_image {elf : ElfFile} {user : Bool} {m m' : Mem α}
    {r : List PageRangeInclusive × ℕ} (helf : elf.WellFormed m.table) (hu : Unique m.alloc)
    (h : loadElf B elf user m = .ok (.ok r, m')) :
    (∀ seg ∈ elf.programHeaders, seg.isLoaded = true → seg.ImageIn elf.input m'.byteAt) ↔
      ∀ seg ∈ elf.programHeaders, seg.isLoaded = true →
        seg.virtualAddr + seg.memSize ≤ U64 ∧ seg.Faithful elf.input := by
  have key : (∀ seg ∈ elf.programHeaders, seg.isLoaded = true →
      seg.virtualAddr + seg.memSize ≤ U64) → ∀ seg ∈ elf.programHeaders, seg.isLoaded = true →
        (seg.ImageIn elf.input m'.byteAt ↔ seg.Faithful elf.input) := by
    intro hspace seg hseg hl
    obtain ⟨S, -, -, hb⟩ := loadSegments_loads hu (fun s hs hsl => ⟨helf.u64 s hs hsl,
      hspace s hs hsl, helf.fileSize s hs hsl, helf.free s hs hsl⟩) helf.apart h
    have hsize := helf.fileSize seg hseg hl
    have h0 : 0 < seg.memSize := Nat.pos_of_ne_zero (isLoaded_iff.mp hl).2
    rw [← ProgramHeader.imageByte_iff h0 (helf.input seg hseg hl), ProgramHeader.ImageIn]
    refine and_congr (forall₂_congr fun i hi => ?_) (forall₃_congr fun i _ hi => ?_)
    · rw [hb seg hseg hl i (by omega)]
    · rw [hb seg hseg hl i hi]
  constructor
  · intro himage
    have hspace : ∀ seg ∈ elf.programHeaders, seg.isLoaded = true →
        seg.virtualAddr + seg.memSize ≤ U64 := by
      intro seg hseg hl
      by_contra hgt
      have hv := (helf.u64 seg hseg hl).virtualAddr
      have haddr : seg.virtualAddr + (U64 - seg.virtualAddr) = U64 := by omega
      have hin : U64 - seg.virtualAddr < seg.memSize := by omega
      have hpage : (2 : ℕ) ^ 52 ≤ pageOf (seg.virtualAddr + (U64 - seg.virtualAddr)) := by
        rw [haddr]
        decide
      have hnone : m'.byteAt (seg.virtualAddr + (U64 - seg.virtualAddr)) = none := by
        rw [Mem.byteAt, Mem.pageBytes, loadSegments_below hpage h, helf.free seg hseg hl _ hin]
        rfl
      obtain ⟨hdata, hzero⟩ := himage seg hseg hl
      rcases Nat.lt_or_ge (U64 - seg.virtualAddr) seg.fileSize with hlt | hge
      · rw [hdata _ hlt, List.getElem?_eq_none_iff] at hnone
        have := helf.input seg hseg hl
        omega
      · rw [hzero _ hge hin] at hnone
        cases hnone
    exact fun seg hseg hl => ⟨hspace seg hseg hl, (key hspace seg hseg hl).mp (himage seg hseg hl)⟩
  · exact fun hok seg hseg hl =>
      (key (fun s hs hsl => (hok s hs hsl).1) seg hseg hl).mpr (hok seg hseg hl).2

/-- Memory without mappings and an allocator with one frame. -/
def oneFree : Mem BootInfoFrameAllocator := ⟨fun _ => none, ⟨1, 0, [7], []⟩, fun _ _ => 0⟩

/-- A program with one segment. -/
def oneSegment (input : List UInt8) (offset virtualAddr fileSize memSize : ℕ) : ElfFile where
  input := input
  programHeaders := [⟨some .load, offset, virtualAddr, fileSize, memSize, true, false⟩]
  entryPoint := virtualAddr

theorem oneSegment_wellFormed {input : List UInt8} {offset virtualAddr fileSize memSize : ℕ}
    (hv : virtualAddr < U64) (hm : memSize < U64) (hf : fileSize ≤ memSize)
    (hc : virtualAddr % PAGE_SIZE = offset % PAGE_SIZE) (hi : offset + fileSize ≤ input.length) :
    (oneSegment input offset virtualAddr fileSize memSize).WellFormed oneFree.table where
  u64 seg hseg _ := by
    rw [List.mem_singleton.mp hseg]
    exact ⟨hv, Nat.lt_of_le_of_lt hf hm, hm⟩
  congruent seg hseg _ := by
    rw [List.mem_singleton.mp hseg]
    exact hc
  fileSize seg hseg _ := by
    rw [List.mem_singleton.mp hseg]
    exact hf
  input seg hseg _ := by
    rw [List.mem_singleton.mp hseg]
    exact hi
  free _ _ _ _ _ := rfl
  apart := (List.pairwise_singleton _ _).sublist List.filter_sublist

/-- Two bytes of data and one of zeros at the start of a page. -/
theorem loadElf_image_example : ∃ r m',
    loadElf Build.release (oneSegment [5, 6] 0 0x1000 2 3) true oneFree = .ok (.ok r, m') ∧
    m'.byteAt 0x1001 = some 6 ∧ m'.byteAt 0x1002 = some 0 := by
  refine ⟨_, _, rfl, ?_⟩
  have helf : (oneSegment [5, 6] 0 0x1000 2 3).WellFormed oneFree.table :=
    oneSegment_wellFormed (by decide) (by decide) (by decide) (by decide) (by decide)
  have hload : loadElf Build.release (oneSegment [5, 6] 0 0x1000 2 3) true oneFree =
      .ok (.ok _, _) := rfl
  have himage := (loadElf_image helf (unique_of_nodup (by decide)) hload).mpr (by
    intro seg hseg _
    rw [List.mem_singleton.mp hseg]
    exact ⟨by decide, Or.inl (by decide)⟩) _ List.mem_cons_self rfl
  exact ⟨himage.1 1 (by decide), himage.2 2 (by decide) (by decide)⟩

/-- One byte of data at offset 1 of its page is put at offset 0, and a zero is left in its
place. -/
theorem load_displaced :
    (oneSegment [5, 6] 1 0x1001 1 1).WellFormed oneFree.table ∧ ∃ r m',
      loadElf Build.release (oneSegment [5, 6] 1 0x1001 1 1) true oneFree = .ok (.ok r, m') ∧
      ([5, 6] : List UInt8)[1]? = some 6 ∧ m'.byteAt 0x1001 = some 0 ∧ m'.byteAt 0x1000 = some 6 := by
  refine ⟨oneSegment_wellFormed (by decide) (by decide) (by decide) (by decide) (by decide),
    _, _, rfl, rfl, ?_, ?_⟩
  · decide
  · decide

end Ysos
