import Ysos.StackSlots
import Ysos.Tables

/-! # The addresses that `vfork` tries

The loop of `Stack::vfork` goes down by a slot whenever `map_pages` fails, for whatever reason, and
has no other end.

* `FindsSlot`: a slot of the area is free, all the slots before it are occupied, and the frames are
  enough for it and for what the attempts before it take, with the tables that they make.
* `probeStays_iff`: what the loop does from one base on.
* `vfork_stays_iff`: when `vfork` returns a stack and tries no address outside of the area.
* `vfork_leaves_area`: a child's stack in the last page of the heap. -/

namespace Ysos

open PartialMap Runs

/-! ### Arithmetic in the lower half -/

namespace Build

variable (B : Build) {p n : ℕ}

theorem pageAdd_low (h : (p + n) * PAGE_SIZE < 2 ^ 47) : B.pageAdd p n = .ok (p + n) := by
  have hU : U64 = 2 ^ 64 := rfl
  rw [Nat.add_mul] at h
  have hmul : B.mul n PAGE_SIZE = .ok (n * PAGE_SIZE) := if_pos (by omega)
  have hadd : B.virtAdd (startAddress p) (n * PAGE_SIZE) = .ok (startAddress p + n * PAGE_SIZE) := by
    rw [virtAdd, B.add_exact _ _ (by rw [startAddress]; omega),
      if_pos (canonical_iff.mpr (Or.inl (by rw [startAddress]; exact h)))]
  rw [pageAdd, hmul]
  simp only [bind, Except.bind, hadd]
  rw [startAddress, ← Nat.add_mul]
  exact congrArg Except.ok (pageOf_startAddress (p + n))

theorem pageSub_low (hle : n ≤ p) (h : p * PAGE_SIZE < 2 ^ 47) : B.pageSub p n = .ok (p - n) := by
  have hU : U64 = 2 ^ 64 := rfl
  have hn : n * PAGE_SIZE ≤ p * PAGE_SIZE := Nat.mul_le_mul_right _ hle
  have hmul : B.mul n PAGE_SIZE = .ok (n * PAGE_SIZE) := if_pos (by omega)
  have hsub : B.virtSub (startAddress p) (n * PAGE_SIZE) = .ok (startAddress p - n * PAGE_SIZE) := by
    rw [virtSub, B.sub_exact _ _ (by rw [startAddress]; exact hn) (by rw [startAddress]; omega),
      if_pos (canonical_iff.mpr (Or.inl (by rw [startAddress]; omega)))]
  rw [pageSub, hmul]
  simp only [bind, Except.bind, hsub]
  rw [startAddress, ← Nat.sub_mul]
  exact congrArg Except.ok (pageOf_startAddress (p - n))

end Build

variable {B : Build}

theorem Stack.Placed.bounds {st : Stack} {T : PageTable} (hst : st.Placed T) :
    st.usage ≤ STACK_MAX_PAGES ∧ (st.range.start + st.usage) * PAGE_SIZE ≤ STACK_MAX := by
  have htop := hst.top
  have hadd := hst.start_add
  constructor
  · simp only [Stack.slot, STACK_MAX_PAGES] at htop ⊢
    omega
  · rw [hadd]
    exact (Nat.mul_le_mul_right _ hst.below).trans (by decide)

namespace Tabled

/-- In the lower half, `map_pages` is the loop of `map_range`. -/
theorem mapPages_low {α : Type} [FrameAllocator α] {addr pages : ℕ} {user : Bool} (m : Mem (Tabled α))
    (hpos : 0 < pages) (hlt : (pageOf addr + pages) * PAGE_SIZE < 2 ^ 47) :
    mapPages B addr pages user m = .ok
      ((mapEach (stackFlags user) (PageRange.mk (pageOf addr) (pageOf addr + pages)).pages m).1.map
        fun _ => ⟨pageOf addr, pageOf addr + pages⟩,
      (mapEach (stackFlags user) (PageRange.mk (pageOf addr) (pageOf addr + pages)).pages m).2) := by
  have hc : canonical addr = true := by
    refine canonical_iff.mpr (Or.inl ?_)
    simp only [pageOf, PAGE_SIZE] at hlt
    omega
  have hassert : B.debugAssert (decide (0 < pages)) = .ok () := by
    simp [Build.debugAssert, hpos]
  have hnew : virtAddrNew addr = .ok addr := if_pos hc
  simp only [mapPages, bind, Except.bind, hassert, hnew, B.pageAdd_low hlt,
    B.pageSub_low (show 1 ≤ pageOf addr + pages by omega) hlt, mapRange]
  rw [PageRangeInclusive.pages_eq, Nat.sub_add_cancel (by omega)]
  rcases mapEach (stackFlags user) (PageRange.mk (pageOf addr) (pageOf addr + pages)).pages m
    with ⟨e | _, m'⟩
  · rfl
  · rfl

/-! ### One attempt -/

/-- The pages that an attempt to map these takes frames for: it stops at a mapped one. -/
def attempted (T : PageTable) (ps : List ℕ) : List ℕ := ps.take (ps.findIdx (fun p => (T p).isSome) + 1)

variable {T T' : PageTable} {p : ℕ} {ps : List ℕ}

theorem attempted_cons_of_none (h : T p = none) : attempted T (p :: ps) = p :: attempted T ps := by
  simp [attempted, List.findIdx_cons, h]

theorem attempted_cons_of_ne_none (h : T p ≠ none) : attempted T (p :: ps) = [p] := by
  simp [attempted, List.findIdx_cons, Option.isSome_iff_ne_none.mpr h]

theorem attempted_congr (h : ∀ p ∈ ps, T p = T' p) : attempted T ps = attempted T' ps := by
  induction ps with
  | nil => rfl
  | cons p ps ih =>
      have hrest := ih fun q hq => h q (List.mem_cons_of_mem _ hq)
      have hp := h p List.mem_cons_self
      by_cases hnone : T p = none
      · rw [attempted_cons_of_none hnone, attempted_cons_of_none (hp ▸ hnone), hrest]
      · rw [attempted_cons_of_ne_none hnone, attempted_cons_of_ne_none (hp ▸ hnone)]

theorem attempted_of_free : ∀ {ps : List ℕ}, (∀ p ∈ ps, T p = none) → attempted T ps = ps
  | [], _ => rfl
  | p :: ps, h => by
      rw [attempted_cons_of_none (h p List.mem_cons_self),
        attempted_of_free fun q hq => h q (List.mem_cons_of_mem _ hq)]

/-- An attempt that fails has taken the frames for its pages and for their tables, or all that there
were. -/
theorem mapEach_taken {flags : PageTableFlags} {e : MapToError} :
    ∀ {ps : List ℕ} {m m' : Mem (Tabled BootInfoFrameAllocator)}, ps.Nodup →
      mapEach flags ps m = (.error e, m') →
      m.alloc.frames.free.length < need (attempted m.table ps) m.alloc.lower ∧
          m'.alloc.frames.free.length = 0 ∨
        need (attempted m.table ps) m.alloc.lower ≤ m.alloc.frames.free.length ∧
          m'.alloc.frames.free.length =
            m.alloc.frames.free.length - need (attempted m.table ps) m.alloc.lower ∧
          m'.alloc.lower = made m.alloc.lower (tablesOf (attempted m.table ps))
  | [], m, m', _, h => by cases h
  | p :: ps, m, m', hnd, h => by
      obtain ⟨hp, hnd⟩ := List.nodup_cons.mp hnd
      rw [mapEach_cons] at h
      rcases allocatePage_cases p m.alloc with ⟨hg, f, ha⟩ | ⟨hg, a', ha⟩
      · rw [BootInfoFrameAllocator.grants_iff] at hg
        simp only [ha] at h
        have hfree : (spend (need [p] m.alloc.lower) m.alloc.frames).free.length =
            m.alloc.frames.free.length - need [p] m.alloc.lower := BootInfoFrameAllocator.free_spend
        rcases hpt : m.table p with _ | entry
        · simp only [hpt] at h
          have hcongr : attempted (Function.update m.table p (some ⟨f, flags⟩)) ps =
              attempted m.table ps := by
            refine attempted_congr fun q hq => Function.update_of_ne ?_ _ _
            rintro rfl
            exact hp hq
          have hrest := mapEach_taken hnd h
          simp only [hcongr, hfree] at hrest
          have htables : tablesOf (p :: attempted m.table ps) =
            path p ++ tablesOf (attempted m.table ps) := rfl
          rw [attempted_cons_of_none hpt, need_cons p (attempted m.table ps), htables, made_append]
          rcases hrest with ⟨hlt, hzero⟩ | ⟨hle, hrest, hlower⟩
          · exact Or.inl ⟨by omega, hzero⟩
          · exact Or.inr ⟨by omega, by omega, hlower⟩
        · simp only [hpt] at h
          cases h
          have htables : tablesOf [p] = path p := List.append_nil _
          rw [attempted_cons_of_ne_none (by rw [hpt]; exact nofun), htables]
          exact Or.inr ⟨hg, hfree, rfl⟩
      · rw [BootInfoFrameAllocator.grants_iff, not_le] at hg
        simp only [ha] at h
        cases h
        have hfirst : need [p] m.alloc.lower ≤ need (attempted m.table (p :: ps)) m.alloc.lower := by
          by_cases hnone : m.table p = none
          · rw [attempted_cons_of_none hnone, need_cons p (attempted m.table ps)]
            exact Nat.le_add_right _ _
          · rw [attempted_cons_of_ne_none hnone]
        exact Or.inl ⟨hg.trans_le hfirst, by rw [free_of_allocatePage_none ha]; rfl⟩

/-! ### The slots in their order -/

/-- The pages that a stack of `usage` pages has at an address. -/
def slotPages (base usage : ℕ) : List ℕ := (PageRange.mk (pageOf base) (pageOf base + usage)).pages

/-- The lowest address for a stack: the heap is below it. -/
def STACK_LOWEST : ℕ := STACK_AREA_BOT + HEAP_SIZE

/-- The pages that the attempts at the first `n` slots from the base on take frames for. -/
def attempts (usage base : ℕ) (T : PageTable) (n : ℕ) : List ℕ :=
  (List.range n).flatMap fun j => attempted T (slotPages (base - j * STACK_MAX_SIZE) usage)

/-- Some slots below the base, but in the area, is one whose pages are free; each slot before it has
a mapped page; and there are frames for the pages of all the attempts and for the tables that they
miss. -/
def FindsSlot (usage base : ℕ) (T : PageTable) (L : TableId → Bool) (frames : ℕ) : Prop :=
  ∃ k, STACK_LOWEST + k * STACK_MAX_SIZE ≤ base ∧
    (∀ p ∈ slotPages (base - k * STACK_MAX_SIZE) usage, T p = none) ∧
    (∀ j < k, ∃ p ∈ slotPages (base - j * STACK_MAX_SIZE) usage, T p ≠ none) ∧
    need (attempts usage base T (k + 1)) L ≤ frames

variable {usage base frames : ℕ} {L : TableId → Bool}

theorem sub_slots (base j : ℕ) :
    base - (j + 1) * STACK_MAX_SIZE = base - STACK_MAX_SIZE - j * STACK_MAX_SIZE := by
  rw [Nat.sub_sub, Nat.add_mul, Nat.one_mul, Nat.add_comm]

theorem attempts_succ (n : ℕ) : attempts usage base T (n + 1) =
    attempted T (slotPages base usage) ++ attempts usage (base - STACK_MAX_SIZE) T n := by
  rw [attempts, attempts, List.range_succ_eq_map, List.flatMap_cons, List.flatMap_map, Nat.zero_mul,
    Nat.sub_zero]
  simp only [Nat.succ_eq_add_one, sub_slots]

theorem attempted_ne_nil {T : PageTable} {ps : List ℕ} (h : ps ≠ []) : attempted T ps ≠ [] := by
  simp [attempted, h]

theorem FindsSlot.pos (h : FindsSlot usage base T L frames) (hpos : 0 < usage) : 0 < frames := by
  obtain ⟨k, -, -, -, hframes⟩ := h
  have hpages : slotPages base usage ≠ [] :=
    List.ne_nil_of_mem (PageRange.mem_pages.mpr ⟨le_rfl, Nat.lt_add_of_pos_right hpos⟩)
  rw [attempts_succ, need_append] at hframes
  have hfirst := List.length_pos_iff.mpr (attempted_ne_nil (T := T) hpages)
  have hlen : _ ≤ need (attempted T (slotPages base usage)) L := length_le_need
  omega

/-- The first slot is taken, or it is occupied and the search goes on below it. -/
theorem findsSlot_iff : FindsSlot usage base T L frames ↔ STACK_LOWEST ≤ base ∧
    ((∀ p ∈ slotPages base usage, T p = none) ∧ need (slotPages base usage) L ≤ frames ∨
      (∃ p ∈ slotPages base usage, T p ≠ none) ∧
        need (attempted T (slotPages base usage)) L ≤ frames ∧
        FindsSlot usage (base - STACK_MAX_SIZE) T
          (made L (tablesOf (attempted T (slotPages base usage))))
          (frames - need (attempted T (slotPages base usage)) L)) := by
  have hS : 0 < STACK_LOWEST := by decide
  constructor
  · rintro ⟨k, hbase, hfree, hblocked, hframes⟩
    refine ⟨(Nat.le_add_right _ _).trans hbase, ?_⟩
    rw [attempts_succ, need_append] at hframes
    rcases k with _ | k
    · rw [Nat.zero_mul, Nat.sub_zero] at hfree
      rw [attempted_of_free hfree] at hframes
      exact Or.inl ⟨hfree, (Nat.le_add_right _ _).trans hframes⟩
    · have hfirst := hblocked 0 (Nat.succ_pos k)
      rw [Nat.zero_mul, Nat.sub_zero] at hfirst
      rw [sub_slots] at hfree
      rw [Nat.add_mul, Nat.one_mul] at hbase
      refine Or.inr ⟨hfirst, (Nat.le_add_right _ _).trans hframes, k, by omega, hfree, fun j hj => ?_, ?_⟩
      · rw [← sub_slots]
        exact hblocked (j + 1) (by omega)
      · omega
  · rintro ⟨hbase, ⟨hfree, hframes⟩ | ⟨hfirst, hle, k, hk, hfree, hblocked, hframes⟩⟩
    · refine ⟨0, by omega, ?_, nofun, ?_⟩
      · rw [Nat.zero_mul, Nat.sub_zero]
        exact hfree
      · rw [attempts_succ, attempted_of_free hfree]
        exact (congrArg (need · L) (List.append_nil _)).trans_le hframes
    · refine ⟨k + 1, ?_, ?_, fun j hj => ?_, ?_⟩
      · rw [Nat.add_mul, Nat.one_mul]
        omega
      · rw [sub_slots]
        exact hfree
      · rcases j with _ | j
        · rw [Nat.zero_mul, Nat.sub_zero]
          exact hfirst
        · rw [sub_slots]
          exact hblocked j (by omega)
      · rw [attempts_succ, need_append]
        omega

/-- The search looks at no page above the first slot. -/
theorem findsSlot_congr (h : ∀ p < pageOf base + usage, T p = T' p) :
    FindsSlot usage base T L frames ↔ FindsSlot usage base T' L frames := by
  have hpages : ∀ k, ∀ p ∈ slotPages (base - k * STACK_MAX_SIZE) usage, T p = T' p := by
    intro k p hp
    have hle : pageOf (base - k * STACK_MAX_SIZE) ≤ pageOf base := Nat.div_le_div_right (Nat.sub_le _ _)
    have hlt := (PageRange.mem_pages.mp hp).2
    exact h p (by simp only at hlt; omega)
  have hattempts : ∀ n, attempts usage base T n = attempts usage base T' n := fun n => by
    simp only [attempts, fun j => attempted_congr (hpages j)]
  simp only [FindsSlot, hattempts]
  refine exists_congr fun k => and_congr_right fun _ => and_congr ?_ (and_congr ?_ Iff.rfl)
  · exact forall₂_congr fun p hp => by rw [hpages k p hp]
  · exact forall₂_congr fun j _ => exists_congr fun p => and_congr_right fun hp => by rw [hpages j p hp]

/-! ### The loop -/

/-- The addresses that the loop of `vfork` tries. -/
def probeBases (B : Build) (usage : ℕ) : ℕ → ℕ → Mem (Tabled BootInfoFrameAllocator) → List ℕ
  | 0, _, _ => []
  | n + 1, base, m =>
      base :: match mapPages B base usage true m with
        | .ok (.error _, m') =>
            match B.sub base STACK_MAX_SIZE with
            | .ok base' => probeBases B usage n base' m'
            | .error _ => []
        | _ => []

/-- The probe returns an address, and the addresses that it tries are in the area. -/
def ProbeStays (B : Build) (usage top n base : ℕ) (m : Mem (Tabled BootInfoFrameAllocator)) : Prop :=
  (∃ r, probe B usage n base m = .ok r) ∧
    ∀ b ∈ probeBases B usage n base m, STACK_LOWEST ≤ b ∧ b ≤ top

theorem probe_mem {n : ℕ} : ∀ {base b : ℕ} {m m' : Mem (Tabled BootInfoFrameAllocator)},
    probe B usage n base m = .ok (b, m') → b ∈ probeBases B usage n base m := by
  induction n with
  | zero => exact fun h => nomatch h
  | succ n ih =>
      intro base b m m' h
      unfold probe at h
      obtain ⟨⟨r, m₁⟩, hm, h⟩ := bind_eq_ok.mp h
      rcases r with e | r
      · obtain ⟨base', hbase, h⟩ := bind_eq_ok.mp h
        simp only [probeBases, hm, hbase]
        exact List.mem_cons_of_mem _ (ih h)
      · cases h
        exact List.mem_cons_self

theorem mem_probeBases (B : Build) (usage base : ℕ) (m : Mem (Tabled BootInfoFrameAllocator)) {n : ℕ}
    (hn : 0 < n) : base ∈ probeBases B usage n base m := by
  obtain ⟨n, rfl⟩ := Nat.exists_eq_succ_of_ne_zero (Nat.ne_of_gt hn)
  exact List.mem_cons_self

/-- One round in the area. -/
theorem probeStays_succ {n top : ℕ} {m : Mem (Tabled BootInfoFrameAllocator)} (hpos : 0 < usage)
    (hlt : (pageOf base + usage) * PAGE_SIZE ≤ STACK_MAX) (hbase : STACK_LOWEST ≤ base)
    (htop : base ≤ top) : ProbeStays B usage top (n + 1) base m ↔
      (∃ m', mapEach (stackFlags true) (slotPages base usage) m = (.ok (), m')) ∨
        ∃ e m', mapEach (stackFlags true) (slotPages base usage) m = (.error e, m') ∧
          ProbeStays B usage top n (base - STACK_MAX_SIZE) m' := by
  have hmap : mapPages B base usage true m = .ok _ :=
    mapPages_low m hpos (lt_of_le_of_lt hlt (by decide))
  have hsub : B.sub base STACK_MAX_SIZE = .ok (base - STACK_MAX_SIZE) :=
    if_pos (le_trans (by decide) hbase)
  rw [slotPages]
  rcases hrun : mapEach (stackFlags true) (PageRange.mk (pageOf base) (pageOf base + usage)).pages m
    with ⟨e | _, m'⟩
  · rw [hrun] at hmap
    have hprobe : probe B usage (n + 1) base m = probe B usage n (base - STACK_MAX_SIZE) m' := by
      simp only [probe, hmap, hsub, bind, Except.bind, Except.map]
    have hbases : probeBases B usage (n + 1) base m =
        base :: probeBases B usage n (base - STACK_MAX_SIZE) m' := by
      simp only [probeBases, hmap, hsub, Except.map]
    rw [ProbeStays, hprobe, hbases, List.forall_mem_cons]
    constructor
    · exact fun h => Or.inr ⟨e, m', rfl, h.1, h.2.2⟩
    · rintro (⟨m'', h⟩ | ⟨_, _, h, hok, hin⟩)
      · cases h
      · cases h
        exact ⟨hok, ⟨hbase, htop⟩, hin⟩
  · rw [hrun] at hmap
    have hprobe : probe B usage (n + 1) base m = .ok (base, m') := by
      simp only [probe, hmap, bind, Except.bind, Except.map]
      rfl
    have hbases : probeBases B usage (n + 1) base m = [base] := by
      simp only [probeBases, hmap, Except.map]
    rw [ProbeStays, hprobe, hbases]
    refine iff_of_true ⟨⟨_, rfl⟩, fun b hb => ?_⟩ (Or.inl ⟨m', rfl⟩)
    rw [List.mem_singleton.mp hb]
    exact ⟨hbase, htop⟩

theorem pageOf_sub_slot {base : ℕ} (hle : STACK_MAX_SIZE ≤ base) :
    pageOf (base - STACK_MAX_SIZE) + STACK_MAX_PAGES = pageOf base := by
  have hS : STACK_MAX_SIZE = STACK_MAX_PAGES * PAGE_SIZE := rfl
  simp only [pageOf, hS, STACK_MAX_PAGES, PAGE_SIZE] at hle ⊢
  omega

/-- After an attempt that failed, frames are gone and only pages of its slot were added, so that the
search below finds what it would have found before. -/
theorem findsSlot_after {base : ℕ} {m m' : Mem (Tabled BootInfoFrameAllocator)} {e : MapToError}
    (hpos : 0 < usage) (hslot : usage ≤ STACK_MAX_PAGES) (hle : STACK_MAX_SIZE ≤ base)
    (hrun : mapEach (stackFlags true) (slotPages base usage) m = (.error e, m')) :
    FindsSlot usage (base - STACK_MAX_SIZE) m'.table m'.alloc.lower m'.alloc.frames.free.length ↔
      (∃ p ∈ slotPages base usage, m.table p ≠ none) ∧
      need (attempted m.table (slotPages base usage)) m.alloc.lower ≤ m.alloc.frames.free.length ∧
      FindsSlot usage (base - STACK_MAX_SIZE) m.table
        (made m.alloc.lower (tablesOf (attempted m.table (slotPages base usage))))
        (m.alloc.frames.free.length -
          need (attempted m.table (slotPages base usage)) m.alloc.lower) := by
  have hnd : (slotPages base usage).Nodup := PageRange.nodup_pages _
  have hsame : ∀ p < pageOf (base - STACK_MAX_SIZE) + usage, m'.table p = m.table p := by
    intro p hp
    obtain ⟨S, hS, hSpages⟩ := mapEach_grown (stackFlags true) (slotPages base usage) m
    rw [hrun] at hS
    refine hS.same p fun hmem => ?_
    have hfirst := (PageRange.mem_pages.mp (hSpages p hmem)).1
    have hpage := pageOf_sub_slot hle
    simp only at hfirst
    omega
  rw [findsSlot_congr hsame]
  rcases mapEach_taken hnd hrun with ⟨hout, hzero⟩ | ⟨hframes, htaken, hlower⟩
  · rw [hzero]
    exact iff_of_false (fun h => absurd (h.pos hpos) (lt_irrefl 0)) fun h => absurd h.2.1 hout.not_ge
  · -- there were frames, so a page was mapped
    have hmapped : ∃ p ∈ slotPages base usage, m.table p ≠ none := by
      by_contra hno
      push Not at hno
      rw [attempted_of_free hno] at hframes
      obtain ⟨m₁, hok⟩ : ∃ m₁, mapEach (stackFlags true) (slotPages base usage) m = (.ok (), m₁) :=
        (mapEach_ok_iff hnd).mpr ⟨hno, BootInfoFrameAllocator.grants_iff.mpr hframes⟩
      cases hrun.symm.trans hok
    rw [htaken, hlower, and_iff_right hmapped, and_iff_right hframes]

/-- **What the loop does.**  With enough rounds to leave the area, the probe stays in it exactly if it
finds a slot. -/
theorem probeStays_iff (hpos : 0 < usage) (hslot : usage ≤ STACK_MAX_PAGES) {top n : ℕ} :
    ∀ {base : ℕ} {m : Mem (Tabled BootInfoFrameAllocator)}, base < STACK_LOWEST + n * STACK_MAX_SIZE →
      base ≤ top → (pageOf base + usage) * PAGE_SIZE ≤ STACK_MAX →
      (ProbeStays B usage top n base m ↔
        FindsSlot usage base m.table m.alloc.lower m.alloc.frames.free.length) := by
  induction n with
  | zero =>
      intro base m hn _ _
      refine iff_of_false (fun h => by obtain ⟨⟨_, ⟨⟩⟩, -⟩ := h) fun h => ?_
      have hbase := (findsSlot_iff.mp h).1
      omega
  | succ n ih =>
      intro base m hn htop hlt
      rcases Nat.lt_or_ge base STACK_LOWEST with hlow | hbase
      · refine iff_of_false (fun h => ?_) fun h => ?_
        · exact absurd (h.2 base List.mem_cons_self).1 hlow.not_ge
        · exact absurd (findsSlot_iff.mp h).1 hlow.not_ge
      have hle : STACK_MAX_SIZE ≤ base := le_trans (by decide) hbase
      have hpage := pageOf_sub_slot hle
      have hok : (∃ m', mapEach (stackFlags true) (slotPages base usage) m = (.ok (), m')) ↔ _ :=
        mapEach_ok_iff (PageRange.nodup_pages _)
      rw [BootInfoFrameAllocator.grants_iff] at hok
      rw [probeStays_succ hpos hlt hbase htop, findsSlot_iff, hok, and_iff_right hbase]
      by_cases hmaps : (∀ p ∈ slotPages base usage, m.table p = none) ∧
          need (slotPages base usage) m.alloc.lower ≤ m.alloc.frames.free.length
      · exact iff_of_true (Or.inl hmaps) (Or.inl hmaps)
      rw [or_iff_right hmaps, or_iff_right hmaps]
      rcases hrun : mapEach (stackFlags true) (slotPages base usage) m with ⟨e | _, m'⟩
      · have hnext : base - STACK_MAX_SIZE < STACK_LOWEST + n * STACK_MAX_SIZE := by
          rw [Nat.add_mul, Nat.one_mul] at hn
          omega
        have hlt' : (pageOf (base - STACK_MAX_SIZE) + usage) * PAGE_SIZE ≤ STACK_MAX :=
          le_trans (Nat.mul_le_mul_right _ (by omega)) hlt
        rw [← findsSlot_after hpos hslot hle hrun, ← ih hnext ((Nat.sub_le _ _).trans htop) hlt']
        constructor
        · rintro ⟨_, _, he, h⟩
          cases he
          exact h
        · exact fun h => ⟨e, m', rfl, h⟩
      · exact absurd (hok.mp ⟨m', hrun⟩) hmaps

/-! ### `vfork` -/

/-- The addresses that the loop tries, unless there is a panic before it. -/
def basesFrom (B : Build) (usage n : ℕ) (m : Mem (Tabled BootInfoFrameAllocator)) : Except Panic ℕ → List ℕ
  | .ok base => probeBases B usage n base m
  | .error _ => []

theorem basesFrom_ok {n : ℕ} {m : Mem (Tabled BootInfoFrameAllocator)} :
    basesFrom B usage n m (.ok base) = probeBases B usage n base m := rfl

/-- The addresses that `vfork` tries. -/
def triedBases (B : Build) (st : Stack) (childCount : ℕ) (m : Mem (Tabled BootInfoFrameAllocator)) : List ℕ :=
  basesFrom B st.usage PROBES m (st.firstBase B childCount)

/-- `vfork` returns a stack, and each address that it tries is in the area, above the heap and not
above the stack of the parent. -/
def StaysInArea (B : Build) (st : Stack) (childCount : ℕ) (m : Mem (Tabled BootInfoFrameAllocator)) : Prop :=
  (∃ r, vfork B st childCount m = .ok r) ∧
    ∀ b ∈ triedBases B st childCount m, STACK_LOWEST ≤ b ∧ b ≤ st.bottom

/-- Without an overflow the child's first slot is not above the parent's, and from there on a slot is
found. -/
def ChildFits (B : Build) (st : Stack) (childCount : ℕ) (m : Mem (Tabled BootInfoFrameAllocator)) : Prop :=
  ∃ shift, B.mul childCount STACK_MAX_SIZE = .ok shift ∧ shift ≤ st.bottom ∧
    FindsSlot st.usage (st.bottom - shift) m.table m.alloc.lower m.alloc.frames.free.length

/-- With an address of the area the rest of `vfork` does not panic. -/
theorem vfork_of_probe {st : Stack} {childCount shift base b : ℕ} {m m' : Mem (Tabled BootInfoFrameAllocator)}
    (hshift : B.mul childCount STACK_MAX_SIZE = .ok shift) (hbase : B.sub st.bottom shift = .ok base)
    (hprobe : probe B st.usage PROBES base m = .ok (b, m'))
    (hlt : (pageOf b + st.usage) * PAGE_SIZE < 2 ^ 47) (hpos : 0 < st.usage) :
    ∃ r, vfork B st childCount m = .ok r := by
  have hnew : virtAddrNew b = .ok b := by
    refine if_pos (canonical_iff.mpr (Or.inl ?_))
    simp only [pageOf, PAGE_SIZE] at hlt
    omega
  simp only [vfork, bind_eq_ok, pure_eq_ok]
  exact ⟨_, shift, hshift, base, hbase, (b, m'), hprobe, b, hnew, _, B.pageAdd_low hlt, rfl⟩

section

variable {st : Stack} {childCount shift : ℕ} {m : Mem (Tabled BootInfoFrameAllocator)}

/-- A subtraction that does not panic wraps to an address above the parent's stack. -/
theorem not_staysInArea (hbottom : st.bottom < U64)
    (hshift : B.mul childCount STACK_MAX_SIZE = .ok shift) (hlt : st.bottom < shift) :
    ¬ StaysInArea B st childCount m := by
  intro h
  rcases hsub : B.sub st.bottom shift with e | base
  · obtain ⟨r, hr⟩ := h.1
    simp only [vfork, bind_eq_ok] at hr
    obtain ⟨s, hs, base, hb, -⟩ := hr
    cases hshift.symm.trans hs
    cases hsub.symm.trans hb
  · have hwrap := B.sub_eq hsub hbottom
    have hshiftlt : shift < U64 := by
      rw [B.mul_eq hshift]
      exact Nat.mod_lt _ (by decide)
    rw [Nat.mod_eq_of_lt (by omega)] at hwrap
    have hmem : base ∈ triedBases B st childCount m := by
      have hfirst : st.firstBase B childCount = .ok base := bind_eq_ok.mpr ⟨shift, hshift, hsub⟩
      rw [triedBases, hfirst, basesFrom_ok]
      exact mem_probeBases B _ _ _ (by decide)
    have hbound := (h.2 base hmem).2
    omega

theorem staysInArea_iff_probe (hpos : 0 < st.usage)
    (hdown : ∀ b ≤ st.bottom, (pageOf b + st.usage) * PAGE_SIZE ≤ STACK_MAX)
    (hshift : B.mul childCount STACK_MAX_SIZE = .ok shift) (hle : shift ≤ st.bottom) :
    StaysInArea B st childCount m ↔
      ProbeStays B st.usage st.bottom PROBES (st.bottom - shift) m := by
  have hbase : B.sub st.bottom shift = .ok (st.bottom - shift) := if_pos hle
  have hfirst : st.firstBase B childCount = .ok (st.bottom - shift) :=
    bind_eq_ok.mpr ⟨shift, hshift, hbase⟩
  have htried : triedBases B st childCount m = probeBases B st.usage PROBES (st.bottom - shift) m := by
    rw [triedBases, hfirst, basesFrom_ok]
  rw [StaysInArea, htried, ProbeStays]
  refine and_congr_left fun hin => ⟨?_, ?_⟩
  · rintro ⟨r, hr⟩
    simp only [vfork, bind_eq_ok] at hr
    obtain ⟨s, hs, base, hb, p, hp, -⟩ := hr
    cases hshift.symm.trans hs
    cases hbase.symm.trans hb
    exact ⟨p, hp⟩
  · rintro ⟨⟨b, m'⟩, hr⟩
    have hb := (hin b (probe_mem hr)).2
    exact vfork_of_probe hshift hbase hr (lt_of_le_of_lt (hdown b hb) (by decide)) hpos

/-- There is a round for every slot below the stack. -/
theorem bottom_lt_rounds (hpos : 0 < st.usage)
    (hstop : (st.range.start + st.usage) * PAGE_SIZE ≤ STACK_MAX) :
    st.bottom < STACK_LOWEST + PROBES * STACK_MAX_SIZE := by
  have hpos' : 0 < st.usage * PAGE_SIZE := Nat.mul_pos hpos (by decide)
  have henough : STACK_MAX ≤ STACK_LOWEST + PROBES * STACK_MAX_SIZE := by decide
  rw [Nat.add_mul] at hstop
  have hstart : st.bottom = st.range.start * PAGE_SIZE := rfl
  generalize STACK_LOWEST + PROBES * STACK_MAX_SIZE = lowest at henough ⊢
  omega

end

/-- **When the probe of `vfork` stays in its area.** -/
theorem vfork_stays_iff {st : Stack} {childCount : ℕ} {m : Mem (Tabled BootInfoFrameAllocator)}
    (hst : st.Placed m.table) : StaysInArea B st childCount m ↔ ChildFits B st childCount m := by
  obtain ⟨hslot, hstop⟩ := hst.bounds
  have hpos : 0 < st.usage := hst.pos
  have hpage : pageOf st.bottom = st.range.start := pageOf_startAddress _
  rcases hshift : B.mul childCount STACK_MAX_SIZE with e | shift
  · refine iff_of_false (fun h => ?_) fun ⟨s, hs, _⟩ => nomatch hshift.symm.trans hs
    obtain ⟨r, hr⟩ := h.1
    simp only [vfork, bind_eq_ok] at hr
    obtain ⟨s, hs, -⟩ := hr
    cases hshift.symm.trans hs
  · have hfits : ChildFits B st childCount m ↔ shift ≤ st.bottom ∧
        FindsSlot st.usage (st.bottom - shift) m.table m.alloc.lower m.alloc.frames.free.length := by
      constructor
      · rintro ⟨s, hs, h⟩
        cases hshift.symm.trans hs
        exact h
      · exact fun h => ⟨shift, hshift, h⟩
    rw [hfits]
    by_cases hle : shift ≤ st.bottom
    · have hdown : ∀ b ≤ st.bottom, (pageOf b + st.usage) * PAGE_SIZE ≤ STACK_MAX := fun b hb => by
        have hmono : pageOf b ≤ pageOf st.bottom := Nat.div_le_div_right hb
        exact (Nat.mul_le_mul_right _ (by omega)).trans hstop
      have hrounds := (Nat.sub_le st.bottom shift).trans_lt (bottom_lt_rounds hpos hstop)
      rw [staysInArea_iff_probe hpos hdown hshift hle, and_iff_right hle]
      exact probeStays_iff hpos hslot hrounds (Nat.sub_le _ _) (hdown _ (Nat.sub_le _ _))
    · exact iff_of_false (not_staysInArea hst.bottom_lt hshift (Nat.not_le.mp hle)) fun h => hle h.1

/-- An address space in which only this page is mapped, with its tables, and three free frames. -/
def onlyMapped (page : ℕ) : Mem (Tabled BootInfoFrameAllocator) where
  table p := if p = page then some ⟨1, stackFlags true⟩ else none
  alloc := ⟨⟨4, 1, [2, 3, 4], []⟩, fun t => decide (t ∈ path page)⟩
  phys _ _ := 0

/-- The first child of the first process of an address space: a page and two tables. -/
theorem vfork_stays_iff_example :
    StaysInArea .release Stack.initial 1 (onlyMapped (pageOf STACK_INIT_BOT)) := by
  have hplaced : Stack.initial.Placed (onlyMapped (pageOf STACK_INIT_BOT)).table :=
    Stack.initial_placed (by decide)
  have hshift : Build.release.mul 1 STACK_MAX_SIZE = .ok (1 * STACK_MAX_SIZE) := if_pos (by decide)
  refine (vfork_stays_iff hplaced).mpr ⟨1 * STACK_MAX_SIZE, hshift, by decide, 0, by decide, ?_⟩
  exact ⟨by decide, nofun, by decide +kernel⟩

/-- A parent in the lowest slot above the heap gets a child whose stack is in the heap. -/
theorem vfork_leaves_area :
    let parent : Stack := ⟨⟨0x2001fffff, 0x200200000⟩, 1⟩
    (vfork .release parent 1 (onlyMapped 0x2001fffff)).map (fun r => r.1) =
        .ok ⟨⟨0x2000fffff, 0x200100000⟩, 1⟩ ∧
      HEAP_START ≤ startAddress 0x2000fffff ∧ startAddress 0x200100000 ≤ HEAP_START + HEAP_SIZE ∧
      parent.Placed (onlyMapped 0x2001fffff).table ∧
      ¬ StaysInArea .release parent 1 (onlyMapped 0x2001fffff) := by
  refine ⟨by decide +kernel, by decide, by decide, ⟨⟨by decide, by decide, by decide⟩, by decide,
    by decide, by decide⟩, fun h => ?_⟩
  have hfirst : Stack.firstBase .release ⟨⟨0x2001fffff, 0x200200000⟩, 1⟩ 1 =
      .ok (startAddress 0x2000fffff) := by decide
  have hmem := mem_probeBases .release 1 (startAddress 0x2000fffff) (onlyMapped 0x2001fffff)
    (n := PROBES) (by decide)
  rw [← basesFrom_ok, ← hfirst] at hmem
  exact absurd (h.2 _ hmem).1 (by decide)

end Tabled

end Ysos
