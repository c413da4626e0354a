import Ysos.Elf

/-! # User stacks (`proc/vm/stack.rs`)

Every process has a stack in a slot of `STACK_MAX_SIZE` bytes, aligned to its size, and the
stack ends at the top of the slot.  The first process of an address space gets the topmost slot
(`Stack.init`), a `vfork` child a slot below its parent's that the mapper accepts
(`Stack.vfork`), and a page fault in the slot extends the stack downwards (`Stack.growStack`).

The probe of `Stack::vfork` is a loop without a bound.  It is modelled with `PROBES` rounds,
and `Stack.vfork_error` shows that it never needs them all: it ends by mapping a stack or by an
arithmetic panic, at the latest when the address leaves the canonical range. -/

namespace Ysos

open PartialMap Runs

/-! ### Constants -/

def STACK_MAX : ℕ := 0x4000_0000_0000
def STACK_MAX_PAGES : ℕ := 0x100000
def STACK_MAX_SIZE : ℕ := STACK_MAX_PAGES * PAGE_SIZE
/-- `!(STACK_MAX_SIZE - 1)` -/
def STACK_START_MASK : ℕ := U64 - 1 - (STACK_MAX_SIZE - 1)
def STACK_DEF_PAGE : ℕ := 1
def STACK_DEF_SIZE : ℕ := STACK_DEF_PAGE * PAGE_SIZE
def STACK_INIT_BOT : ℕ := STACK_MAX - STACK_DEF_SIZE
def STACK_INIT_TOP : ℕ := STACK_MAX - 8
/-- The lowest address of the stack area in the comment on `STACK_MAX`. -/
def STACK_AREA_BOT : ℕ := 0x2000_0000_0000

def KSTACK_MAX : ℕ := 0xffff_ff02_0000_0000
def KSTACK_DEF_PAGE : ℕ := 8
def KSTACK_DEF_SIZE : ℕ := KSTACK_DEF_PAGE * PAGE_SIZE
def KSTACK_INIT_BOT : ℕ := KSTACK_MAX - KSTACK_DEF_SIZE
def KSTACK_INIT_TOP : ℕ := KSTACK_MAX - 8

/-- Rounds of the probe of `vfork`: the addresses it can try before it panics are fewer. -/
def PROBES : ℕ := 2 ^ 17

/-! ### Operations -/

structure Stack where
  range : PageRange
  usage : ℕ
deriving DecidableEq, Repr

variable {α : Type} [FrameAllocator α] (B : Build)

namespace Stack

def kstack : Stack where
  range := ⟨pageOf KSTACK_INIT_BOT, pageOf KSTACK_INIT_TOP⟩
  usage := KSTACK_DEF_PAGE

def empty : Stack where
  range := ⟨pageOf STACK_INIT_TOP, pageOf STACK_INIT_TOP⟩
  usage := 0

def memoryUsage (st : Stack) : ℕ := st.usage * PAGE_SIZE

/-- Start address of the range, where every caller looks for the bottom of the stack. -/
def bottom (st : Stack) : ℕ := startAddress st.range.start

def cleanUp (st : Stack) (m : Mem α) : Except Panic (Except UnmapError Unit × Stack × Mem α) :=
  if st.usage = 0 then .ok (.ok (), st, m)
  else if 0 < st.range.count then do
    match ← unmapPages B st.bottom st.range.count m with
    | (.error e, m') => return (.error e, st, m')
    | (.ok (), m') => return (.ok (), { st with usage := 0 }, m')
  else .ok (.ok (), { st with usage := 0 }, m)

def init (st : Stack) (m : Mem α) : Except Panic (Stack × Mem α) := do
  B.debugAssert (st.usage == 0)
  match ← mapPages B STACK_INIT_BOT STACK_DEF_PAGE true m with
  | (.error _, _) => .error .stackInit
  | (.ok range, m') => return ({ range := range, usage := STACK_DEF_PAGE }, m')

def stackOffset (st old : Stack) : Except Panic ℕ := do
  let offset ← B.sub st.bottom old.bottom
  B.debugAssert (offset % STACK_MAX_SIZE != 0)
  return offset

/-- The loop of `vfork`: map `usage` pages at `base`, or else a slot further down. -/
def probe (usage : ℕ) : ℕ → ℕ → Mem α → Except Panic (ℕ × Mem α)
  | 0, _, _ => .error .outOfProbes
  | n + 1, base, m => do
      match ← mapPages B base usage true m with
      | (.ok _, m') => return (base, m')
      | (.error _, m') => probe usage n (← B.sub base STACK_MAX_SIZE) m'

/-- `copy_nonoverlapping` from the old stack to the new one, page by page. -/
def copyPages (src dst : ℕ) : ℕ → Mem α → Mem α
  | 0, m => m
  | n + 1, m => copyPages (src + 1) (dst + 1) n (m.copyFrame (m.table.frameOf src) (m.table.frameOf dst))

def vfork (st : Stack) (childCount : ℕ) (m : Mem α) : Except Panic (Stack × Mem α) := do
  let shift ← B.mul childCount STACK_MAX_SIZE
  let base ← B.sub st.bottom shift
  let (newBase, m') ← probe B st.usage PROBES base m
  let m'' := copyPages st.range.start (pageOf newBase) st.usage m'
  let newStart := pageOf (← virtAddrNew newBase)
  let newEnd ← B.pageAdd newStart st.usage
  return ({ range := ⟨newStart, newEnd⟩, usage := st.usage }, m'')

def isOnStack (st : Stack) (addr : ℕ) : Bool :=
  addr &&& STACK_START_MASK == st.bottom &&& STACK_START_MASK

def growStack (st : Stack) (addr : ℕ) (user : Bool) (m : Mem α) :
    Except Panic (Except MapToError Unit × Stack × Mem α) := do
  B.debugAssert (st.isOnStack addr)
  let newStart := pageOf addr
  -- `Page - Page` panics when the difference is negative, in every build
  if st.range.start < newStart then .error .overflow
  else do
    match ← mapPages B (startAddress newStart) (st.range.start - newStart) user m with
    | (.error e, m') => return (.error e, st, m')
    | (.ok _, m') =>
        let range : PageRange := ⟨newStart, st.range.stop⟩
        return (.ok (), { range := range, usage := range.count }, m')

def handlePageFault (st : Stack) (addr : ℕ) (user : Bool) (m : Mem α) :
    Except Panic (Bool × Stack × Mem α) :=
  if st.isOnStack addr then do
    match ← st.growStack B addr user m with
    | (.error _, st', m') => return (false, st', m')
    | (.ok (), st', m') => return (true, st', m')
  else .ok (false, st, m)

end Stack

/-! ### Arithmetic of slots -/

theorem land_mask {a : ℕ} (h : a < U64) :
    a &&& STACK_START_MASK = a / STACK_MAX_SIZE * STACK_MAX_SIZE := by
  have hm : STACK_START_MASK = (2 ^ 32 - 1) * 2 ^ 32 := by decide
  have hs : STACK_MAX_SIZE = 2 ^ 32 := by decide
  rw [hm, hs]
  apply Nat.eq_of_testBit_eq
  intro i
  rw [Nat.testBit_and, Nat.testBit_mul_two_pow, Nat.testBit_mul_two_pow,
    Nat.testBit_two_pow_sub_one, Nat.testBit_div_two_pow]
  by_cases hi : 32 ≤ i
  · by_cases hi' : i < 64
    · simp [hi, show i - 32 < 32 by omega, Nat.sub_add_cancel hi]
    · have h64 : U64 ≤ 2 ^ i := Nat.pow_le_pow_right (by norm_num) (by omega)
      have hbit : a.testBit i = false := Nat.testBit_lt_two_pow (lt_of_lt_of_le h h64)
      simp [hbit, Nat.sub_add_cancel hi]
  · simp [hi]

/-- An address of the slot of a stack lies in the same slot as the stack's first page. -/
theorem Stack.slot_of_isOnStack {st : Stack} {addr : ℕ} (h : st.isOnStack addr = true)
    (ha : addr < U64) (hb : st.bottom < U64) :
    pageOf addr / STACK_MAX_PAGES = st.range.start / STACK_MAX_PAGES := by
  simp only [isOnStack, beq_iff_eq] at h
  rw [land_mask ha, land_mask hb] at h
  simp only [bottom, startAddress, pageOf, STACK_MAX_SIZE, STACK_MAX_PAGES, PAGE_SIZE] at h ⊢
  omega

/-! ### What the operations do to the page table -/

variable {B}

/-- The stack of the first process of an address space. -/
def Stack.initial : Stack where
  range := ⟨pageOf STACK_INIT_BOT, pageOf STACK_INIT_BOT + STACK_DEF_PAGE⟩
  usage := STACK_DEF_PAGE

/-- The flags of the pages of a stack. -/
abbrev stackFlags (user : Bool) : PageTableFlags where
  writable := true
  userAccessible := user
  noExecute := false

theorem Stack.init_eq {st st' : Stack} {m m' : Mem α} (h : st.init B m = .ok (st', m')) :
    st' = initial ∧ mapEach (stackFlags true) initial.range.pages m = (.ok (), m') := by
  simp only [init, bind_eq_ok] at h
  obtain ⟨_, -, ⟨r, m₁⟩, hm, h⟩ := h
  obtain ⟨r', hm', rfl⟩ := mapPages_eq (by decide) (by decide) hm
  rcases r' with e | _
  · cases h
  · cases h
    exact ⟨rfl, hm'⟩

/-- The range of the stack is not empty, its size is recorded, and it ends below `2 ^ 64`. -/
structure Stack.Sized (st : Stack) : Prop where
  usage : st.usage = st.range.count
  pos : 1 ≤ st.usage
  stop : st.range.stop * PAGE_SIZE < U64

theorem Stack.initial_sized : initial.Sized := ⟨by decide, by decide, by decide⟩

namespace Stack.Sized

variable {st : Stack}

theorem start_lt (h : st.Sized) : st.range.start < st.range.stop := by
  have h1 := h.pos
  rw [h.usage, PageRange.count] at h1
  omega

theorem bottom_lt (h : st.Sized) : st.bottom < U64 :=
  lt_of_le_of_lt (Nat.mul_le_mul_right _ h.start_lt.le) h.stop

theorem start_add (h : st.Sized) : st.range.start + st.usage = st.range.stop := by
  rw [h.usage, PageRange.count, Nat.add_sub_cancel' h.start_lt.le]

end Stack.Sized

theorem Stack.cleanUp_eq {st st' : Stack} {m m' : Mem α} {r : Except UnmapError Unit}
    (hst : st.Sized) (h : st.cleanUp B m = .ok (r, st', m')) :
    unmapEach st.range.pages m = (r, m') := by
  have hpos := hst.pos
  have hcount : 0 < st.range.count := hst.usage ▸ hpos
  have hpage : pageOf st.bottom = st.range.start := pageOf_startAddress _
  have hstop : st.range.start + st.range.count = st.range.stop := hst.usage ▸ hst.start_add
  simp only [cleanUp, if_neg (show st.usage ≠ 0 by omega), if_pos hcount, bind_eq_ok] at h
  obtain ⟨⟨r', m₁⟩, hm, h⟩ := h
  have hu := unmapPages_eq hcount (by rw [hpage, hstop]; exact hst.stop) hm
  rw [hpage, hstop] at hu
  rcases r' with e | _ <;> cases h <;> exact hu

/-- Below the range, growth maps the pages from the address to the range, and on success the
range starts with the page of the address. -/
theorem Stack.growStack_eq {st st' : Stack} {addr : ℕ} {user : Bool} {m m' : Mem α}
    {r : Except MapToError Unit} (hst : st.Sized) (hlt : pageOf addr < st.range.start)
    (h : st.growStack B addr user m = .ok (r, st', m')) :
    mapEach (stackFlags user) (PageRange.mk (pageOf addr) st.range.start).pages m = (r, m') ∧
      (∀ e, r = .error e → st' = st) ∧
      (r = .ok () →
        st' = { range := ⟨pageOf addr, st.range.stop⟩, usage := st.range.stop - pageOf addr }) := by
  have hpage : pageOf (startAddress (pageOf addr)) = pageOf addr := pageOf_startAddress _
  have hsum : pageOf addr + (st.range.start - pageOf addr) = st.range.start :=
    Nat.add_sub_cancel' hlt.le
  have hend : st.range.start * PAGE_SIZE < U64 := hst.bottom_lt
  simp only [growStack, if_neg hlt.not_gt, bind_eq_ok] at h
  obtain ⟨_, -, ⟨r', m₁⟩, hm, h⟩ := h
  obtain ⟨r'', hm', rfl⟩ := mapPages_eq (by omega) (by rw [hpage, hsum]; exact hend) hm
  rw [hpage, hsum] at hm'
  rcases r'' with e | _ <;> cases h
  · exact ⟨hm', fun _ _ => rfl, nofun⟩
  · exact ⟨hm', nofun, fun _ => rfl⟩

omit [FrameAllocator α] in
theorem Stack.copyPages_table : ∀ (n src dst : ℕ) (m : Mem α),
    (copyPages src dst n m).table = m.table ∧ (copyPages src dst n m).alloc = m.alloc
  | 0, _, _, _ => ⟨rfl, rfl⟩
  | n + 1, src, dst, _ => copyPages_table n (src + 1) (dst + 1) _

/-- The probe ends by mapping the pages at an address that differs from the first one by a
multiple of the size of a slot. -/
theorem Stack.probe_ok {usage : ℕ} : ∀ {n base b : ℕ} {m m' : Mem α},
    probe B usage n base m = .ok (b, m') → base < U64 →
      ∃ (m₁ : Mem α) (r : PageRange) (S : Set ℕ), Grown m.table S m₁.table ∧
        mapPages B b usage true m₁ = .ok (.ok r, m') ∧
        b % STACK_MAX_SIZE = base % STACK_MAX_SIZE ∧ b < U64
  | 0, base, b, m, m', h, _ => by cases h
  | n + 1, base, b, m, m', h, hb => by
      simp only [probe, bind_eq_ok] at h
      obtain ⟨⟨r, m₁⟩, hm, h⟩ := h
      rcases r with e | r
      · obtain ⟨base', hbase, h⟩ := bind_eq_ok.mp h
        obtain ⟨m₂, r, S', hS', hr, hmod, hlt⟩ := probe_ok h (B.sub_lt hbase hb)
        obtain ⟨S, hS⟩ := mapPages_grown hm
        refine ⟨m₂, r, S ∪ S', hS.trans hS', hr, hmod.trans ?_, hlt⟩
        exact B.sub_mod hbase hb (by decide) dvd_rfl
      · cases h
        exact ⟨m, r, ∅, Grown.refl m.table, hm, rfl, hb⟩

/-! ### Growth maps all its pages or nothing -/

/-- If the address is in the slot of the stack, mapping the pages down to it does not stop
halfway. -/
def Stack.GrowsWhole (st : Stack) (addr : ℕ) (m : Mem α) : Prop :=
  st.isOnStack addr = true → MapsWhole (PageRange.mk (pageOf addr) st.range.start).pages m

instance (st : Stack) (addr : ℕ) (m : Mem α) : Decidable (st.GrowsWhole addr m) :=
  inferInstanceAs (Decidable (st.isOnStack addr = true →
    MapsWhole (PageRange.mk (pageOf addr) st.range.start).pages m))

/-- A page fault on a page that is not mapped adds pages to the stack, or none. -/
theorem Stack.handlePageFault_adds {st st' : Stack} {addr : ℕ} {user ok : Bool}
    {m m' : Mem (Recorder α)} (hst : st.Sized) (hmapped : ∀ p ∈ st.range.pages, m.table p ≠ none)
    (hfree : m.table (pageOf addr) = none) (hw : st.GrowsWhole addr m)
    (h : st.handlePageFault B addr user m = .ok (ok, st', m')) :
    st'.Sized ∧ ∃ S : Set ℕ, Adds S m m' ∧
      ∀ p, p ∈ st'.range.pages ↔ p ∈ S ∨ p ∈ st.range.pages := by
  have hstart := hst.start_lt
  unfold handlePageFault at h
  split_ifs at h with hon
  · simp only [bind_eq_ok] at h
    obtain ⟨⟨r, st₁, m₁⟩, hgrow, h⟩ := h
    have hlt : pageOf addr < st.range.start := by
      refine lt_of_le_of_ne ?_ ?_
      · by_contra hgt
        rw [not_le] at hgt
        simp only [growStack, if_pos hgt, bind_eq_ok] at hgrow
        obtain ⟨_, -, hgrow⟩ := hgrow
        cases hgrow
      · intro he
        refine hmapped _ (PageRange.mem_pages.mpr ⟨le_rfl, hstart⟩) ?_
        rw [← he]
        exact hfree
    obtain ⟨hm, hsame, hnew⟩ := growStack_eq hst hlt hgrow
    rcases mapEach_adds (hw hon) (PageRange.nodup_pages _) hm with ⟨rfl, ha⟩ | ⟨⟨e, rfl⟩, ha⟩
    · cases h
      obtain rfl := hnew rfl
      refine ⟨⟨rfl, ?_, hst.stop⟩, _, ha, ?_⟩
      · show 1 ≤ st.range.stop - pageOf addr
        omega
      · intro p
        simp only [PageRange.mem_pages, Set.mem_ofPred_eq]
        omega
    · cases h
      obtain rfl := hsame e rfl
      exact ⟨hst, ∅, ha, fun p => by simp⟩
  · cases h
    exact ⟨hst, ∅, ⟨Grown.refl m.table, rfl⟩, fun p => by simp⟩

theorem Stack.cleanUp_removes {st st' : Stack} {m m' : Mem (Recorder α)}
    {r : Except UnmapError Unit} (hst : st.Sized) (hmapped : ∀ p ∈ st.range.pages, m.table p ≠ none)
    (h : st.cleanUp B m = .ok (r, st', m')) : r = .ok () ∧ Removes st.range.pages m m' :=
  unmapEach_removes hmapped st.range.nodup_pages (cleanUp_eq hst h)

/-! ### The probe maps the stack or nothing -/

/-- No round of the probe stops after it mapped some pages, or reaches the end of the address
space.  A round is followed by the next one if it is blocked. -/
def Stack.ProbesWhole (usage : ℕ) : ℕ → ℕ → Mem α → Prop
  | 0, _, _ => True
  | n + 1, base, m =>
      (pageOf base + usage) * PAGE_SIZE < U64 ∧
        MapsWhole (PageRange.mk (pageOf base) (pageOf base + usage)).pages m ∧
        (Blocked (PageRange.mk (pageOf base) (pageOf base + usage)).pages m →
          ProbesWhole usage n ((base + (U64 - STACK_MAX_SIZE)) % U64)
            { m with alloc := (allocateFrame m.alloc).2 })

instance Stack.decidableProbesWhole (usage : ℕ) : ∀ (n base : ℕ) (m : Mem α),
    Decidable (ProbesWhole usage n base m)
  | 0, _, _ => isTrue trivial
  | n + 1, base, m =>
      have := decidableProbesWhole usage n ((base + (U64 - STACK_MAX_SIZE)) % U64)
        { m with alloc := (allocateFrame m.alloc).2 }
      inferInstanceAs (Decidable (_ ∧ _ ∧ (_ → _)))

/-- The address of the first round of the probe for the stack of a child. -/
def Stack.childBase (st : Stack) (childCount : ℕ) : ℕ :=
  (st.bottom + (U64 - childCount * STACK_MAX_SIZE % U64)) % U64

theorem Stack.probe_adds {usage : ℕ} (hpos : 0 < usage) :
    ∀ {n base b : ℕ} {m m' : Mem (Recorder α)}, ProbesWhole usage n base m → base < U64 →
      probe B usage n base m = .ok (b, m') →
      (pageOf b + usage) * PAGE_SIZE < U64 ∧
        Adds {p | p ∈ (PageRange.mk (pageOf b) (pageOf b + usage)).pages} m m'
  | 0, base, b, m, m', _, _, h => by cases h
  | n + 1, base, b, m, m', ⟨hend, hw, hnext⟩, hb, h => by
      simp only [probe, bind_eq_ok] at h
      obtain ⟨⟨r, m₁⟩, hm, h⟩ := h
      obtain ⟨r', hm', rfl⟩ := mapPages_eq hpos hend hm
      rcases r' with e | _
      · obtain ⟨base', hbase, h⟩ := bind_eq_ok.mp h
        rcases mapEach_whole hw (PageRange.nodup_pages _) hm' with ⟨hr, -⟩ | ⟨-, hblocked, rfl⟩
        · cases hr
        · rw [← B.sub_eq hbase hb] at hnext
          obtain ⟨hend', ha⟩ := probe_adds hpos (hnext hblocked) (B.sub_lt hbase hb) h
          exact ⟨hend', ha.table, ha.freed⟩
      · cases h
        rcases mapEach_adds hw (PageRange.nodup_pages _) hm' with ⟨-, ha⟩ | ⟨⟨_, hr⟩, -⟩
        · exact ⟨hend, ha⟩
        · cases hr

theorem Stack.vfork_adds {st st' : Stack} {childCount : ℕ} {m m' : Mem (Recorder α)}
    (hst : st.Sized) (hw : ProbesWhole st.usage PROBES (st.childBase childCount) m)
    (h : st.vfork B childCount m = .ok (st', m')) :
    st'.Sized ∧ Adds {p | p ∈ st'.range.pages} m m' := by
  simp only [vfork, bind_eq_ok, pure_eq_ok] at h
  obtain ⟨shift, hshift, base, hbase, ⟨newBase, m₁⟩, hprobe, a, ha, stop, hstop, h⟩ := h
  obtain ⟨rfl, -⟩ := virtAddrNew_ok ha
  rw [childBase, ← B.mul_eq hshift, ← B.sub_eq hbase hst.bottom_lt] at hw
  obtain ⟨hend, hadds⟩ := probe_adds hst.pos hw (B.sub_lt hbase hst.bottom_lt) hprobe
  obtain rfl := B.pageAdd_eq hstop hend
  cases h
  obtain ⟨htable, halloc⟩ := copyPages_table st.usage st.range.start (pageOf newBase) m₁
  refine ⟨⟨?_, hst.pos, hend⟩, ?_, ?_⟩
  · simp [PageRange.count]
  · rw [htable]
    exact hadds.table
  · rw [halloc]
    exact hadds.freed

/-! ### The probe ends -/

/-- A round of the probe moves to a smaller value of this measure.  Below the low half of the
address space the probe continues, if the subtraction wraps, in the high half; below the high
half no address is canonical. -/
def probeMeasure (base : ℕ) : ℕ :=
  if base < 2 ^ 47 then base / STACK_MAX_SIZE + 2 ^ 15 + 1
  else if U64 - 2 ^ 47 ≤ base then (base - (U64 - 2 ^ 47)) / STACK_MAX_SIZE + 1
  else 0

theorem probeMeasure_sub {base base' : ℕ} (hc : canonical base = true)
    (h : B.sub base STACK_MAX_SIZE = .ok base') : probeMeasure base' < probeMeasure base := by
  have hU : U64 = 2 ^ 64 := rfl
  have hS : STACK_MAX_SIZE = 2 ^ 32 := by decide
  have hlt := canonical_lt hc
  have hb : base' = base - 2 ^ 32 ∧ 2 ^ 32 ≤ base ∨
      base' = base + (2 ^ 64 - 2 ^ 32) ∧ base < 2 ^ 32 := by
    unfold Build.sub at h
    rw [hS, hU] at h
    split_ifs at h
    · have := Except.ok.inj h
      omega
    · rw [Nat.mod_eq_of_lt (by omega)] at h
      have := Except.ok.inj h
      omega
  rw [canonical_iff] at hc
  simp only [probeMeasure, hS, hU]
  split_ifs <;> omega

/-- With a round for every address it can try, the probe never runs out of rounds. -/
theorem Stack.probe_error {usage : ℕ} {e : Panic} : ∀ {n base : ℕ} {m : Mem α},
    probeMeasure base < n → probe B usage n base m = .error e → e.isArithmetic = true
  | 0, _, _, hn, _ => absurd hn (Nat.not_lt_zero _)
  | n + 1, base, m, hn, h => by
      rcases bind_eq_error.mp h with h | ⟨⟨r, m₁⟩, hm, h⟩
      · exact mapPages_error h
      rcases r with e | r
      · rcases bind_eq_error.mp h with h | ⟨base', hbase, h⟩
        · exact Build.sub_error h
        · simp only [mapPages, bind_eq_ok] at hm
          obtain ⟨_, -, addr, haddr, -⟩ := hm
          have hlt := probeMeasure_sub (virtAddrNew_ok haddr).2 hbase
          exact probe_error (by omega) h
      · cases h

theorem probeMeasure_lt {base : ℕ} (h : base < U64) : probeMeasure base < PROBES := by
  have hU : U64 = 2 ^ 64 := rfl
  have hS : STACK_MAX_SIZE = 2 ^ 32 := by decide
  have hP : PROBES = 2 ^ 17 := rfl
  simp only [probeMeasure, hS, hU]
  split_ifs <;> omega

/-- **The probe of `vfork` ends.**  It maps a stack or panics with an arithmetic panic. -/
theorem Stack.vfork_error {st : Stack} {childCount : ℕ} {m : Mem α} {e : Panic}
    (hst : st.bottom < U64) (h : st.vfork B childCount m = .error e) : e.isArithmetic = true := by
  rcases bind_eq_error.mp h with h | ⟨_, -, h⟩
  · exact Build.mul_error h
  rcases bind_eq_error.mp h with h | ⟨base, hbase, h⟩
  · exact Build.sub_error h
  rcases bind_eq_error.mp h with h | ⟨⟨newBase, m'⟩, -, h⟩
  · exact probe_error (probeMeasure_lt (B.sub_lt hbase hst)) h
  rcases bind_eq_error.mp h with h | ⟨_, -, h⟩
  · exact virtAddrNew_error h
  rcases bind_eq_error.mp h with h | ⟨_, -, h⟩
  · exact Build.pageAdd_error h
  · cases h

end Ysos
