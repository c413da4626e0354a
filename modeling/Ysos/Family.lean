import Ysos.ProcessVm

/-! # Families of processes that share a page table

A family is started by loading a program into a new address space (`Family.start`) and grows
and shrinks by `vfork` and by dropping the memory of a process that is killed; in between its
members move the end of the heap and fault on their stacks (`Family.step`).  The allocator
records the frames that are passed to `deallocate_frame`.

* `Family.reclaimed`: if the program's segments are apart and every step is `Clean`, each step
  returns exactly the frames of the pages that it unmaps, each one time, and after the last
  member is dropped the page table is as it was before the program was loaded.
* `Family.code_leaks`: without the condition this fails, as the code is freed only if the
  process that holds it is dropped last. -/

namespace Ysos

open PartialMap Runs

variable {α : Type} [FrameAllocator α] (B : Build)

structure Family (α : Type) where
  vm : Vm (Recorder α)
  members : List ProcessVm

inductive FamilyOp where
  | brk (i : ℕ) (addr : Option ℕ)
  | pageFault (i addr : ℕ) (user : Bool)
  | vfork (i childCount : ℕ)
  | drop (i : ℕ)
deriving DecidableEq, Repr

namespace Family

abbrev table (f : Family α) : PageTable := f.vm.space.table

/-- The frames passed to `deallocate_frame`, newest first. -/
abbrev freed (f : Family α) : List Frame := f.vm.alloc.freed

/-- A first process, with a new page table that starts as `T₀`. -/
def start (elf : ElfFile) (T₀ : PageTable) (addr : Frame) (a : α) (phys : Frame → ℕ → UInt8) :
    Except Panic (Family α) := do
  let space : AddressSpace := { table := T₀, addr := addr, usingCount := 1, heapEnd := HEAP_START }
  let (p, v) ← (ProcessVm.new 0).loadElf B elf { space := space, alloc := ⟨a, []⟩, phys := phys }
  return { vm := v, members := [p] }

/-- One operation of a member.  The processor raises page faults at canonical addresses only,
and the handler looks at the stack only if the page is not present. -/
def step (f : Family α) : FamilyOp → Except Panic (Family α × Unit)
  | .brk i addr =>
      match f.members[i]? with
      | none => .ok (f, ())
      | some p => .ok ({ f with vm := (p.brk addr f.vm).2 }, ())
  | .pageFault i addr user =>
      match f.members[i]? with
      | none => .ok (f, ())
      | some p =>
          if canonical addr && (f.table (pageOf addr)).isNone then do
            let (_, p', v) ← p.handlePageFault B addr user f.vm
            return ({ vm := v, members := f.members.set i p' }, ())
          else .ok (f, ())
  | .vfork i childCount =>
      match f.members[i]? with
      | none => .ok (f, ())
      | some p => do
          let (child, v) ← p.fork B childCount f.vm
          return ({ vm := v, members := f.members ++ [child] }, ())
  | .drop i =>
      match f.members[i]? with
      | none => .ok (f, ())
      | some p => do
          let v ← p.drop B f.vm
          return ({ vm := v, members := f.members.eraseIdx i }, ())

/-! ### Clean steps -/

/-- The steps without leaks: no mapping stops after it mapped some of its pages, and the member
that holds the code is dropped last. -/
def Clean (f : Family α) : FamilyOp → Prop
  | .brk _ addr => Heap.Whole addr f.vm
  | .pageFault i addr _ => ∀ p ∈ f.members[i]?, p.stack.GrowsWhole addr f.vm.mem
  | .vfork i childCount => ∀ p ∈ f.members[i]?,
      Stack.ProbesWhole p.stack.usage PROBES (p.stack.childBase childCount) f.vm.mem
  | .drop i => ∀ p ∈ f.members[i]?, p.code = [] ∨ f.members.length = 1

instance (f : Family α) : ∀ op : FamilyOp, Decidable (f.Clean op)
  | .brk _ addr => inferInstanceAs (Decidable (Heap.Whole addr f.vm))
  | .pageFault i addr _ =>
      inferInstanceAs (Decidable (∀ p ∈ f.members[i]?, p.stack.GrowsWhole addr f.vm.mem))
  | .vfork i childCount => inferInstanceAs (Decidable (∀ p ∈ f.members[i]?,
      Stack.ProbesWhole p.stack.usage PROBES (p.stack.childBase childCount) f.vm.mem))
  | .drop i =>
      inferInstanceAs (Decidable (∀ p ∈ f.members[i]?, p.code = [] ∨ f.members.length = 1))

/-- A step returns the frames of the pages that it unmaps, each one time and no others, and with
the last member the frame of the top-level page table. -/
def FreesUnmapped (s t : Family α) : Prop :=
  ∃ ps : List ℕ, ps.Nodup ∧ (∀ p, p ∈ ps ↔ s.table p ≠ none ∧ t.table p = none) ∧
    (∀ p e, s.table p = some e → p ∉ ps → t.table p = some e) ∧
    t.freed = (if s.members ≠ [] ∧ t.members = [] then [s.vm.space.addr] else []) ++
      (ps.map s.table.frameOf).reverse ++ s.freed

omit [FrameAllocator α] in
theorem freesUnmapped_of_adds {s t : Family α} {S : Set ℕ} (h : Adds S s.vm.mem t.vm.mem)
    (hm : s.members = [] ∨ t.members ≠ []) : FreesUnmapped s t := by
  refine ⟨[], List.nodup_nil, ?_, fun p e hp _ => h.table.keeps hp, ?_⟩
  · intro p
    simp only [List.not_mem_nil, false_iff, not_and]
    intro hp
    obtain ⟨e, he⟩ := Option.ne_none_iff_exists'.mp hp
    rw [show t.table p = some e from h.table.keeps he]
    simp
  · rw [if_neg fun hc => hm.elim hc.1 fun hne => hne hc.2]
    exact h.freed

omit [FrameAllocator α] in
theorem freesUnmapped_of_removes {s t : Family α} {ps : List ℕ} {m : Mem (Recorder α)}
    (h : Removes ps s.vm.mem m) (htable : t.table = m.table)
    (hfreed : t.freed = (if s.members ≠ [] ∧ t.members = [] then [s.vm.space.addr] else []) ++
      m.alloc.freed) : FreesUnmapped s t := by
  refine ⟨ps, h.nodup, ?_, ?_, ?_⟩
  · intro p
    rw [htable, and_comm]
    exact h.table.mem_iff
  · intro p e hp hps
    rw [htable, ← hp]
    exact (h.table.same p hps).symm
  · rw [hfreed, h.freed, List.append_assoc]
    rfl

/-! ### The invariant -/

/-- The page table is its first state and the disjoint layers of the heap and the members. -/
structure Inv (T₀ : PageTable) (f : Family α) : Prop where
  layered : Layered T₀ ({p | p ∈ Heap.pages f.vm.space.heapEnd} ::
    f.members.flatMap ProcessVm.layers) f.table
  count : f.vm.space.usingCount = f.members.length
  heap : Heap.InHeap f.vm.space.heapEnd
  empty : f.members = [] → f.vm.space.heapEnd = HEAP_START
  sized : ∀ p ∈ f.members, p.stack.Sized

variable {B} {T₀ : PageTable} {s t : Family α} {i : ℕ} {p : ProcessVm}

omit [FrameAllocator α] in
theorem perm_focus (hi : s.members[i]? = some p) : s.members.Perm (p :: s.members.eraseIdx i) := by
  obtain ⟨hlt, rfl⟩ := List.getElem?_eq_some_iff.mp hi
  exact (List.getElem_cons_eraseIdx_perm hlt).symm

omit [FrameAllocator α] in
theorem perm_set {p' : ProcessVm} (hi : s.members[i]? = some p) :
    (s.members.set i p').Perm (p' :: s.members.eraseIdx i) := by
  obtain ⟨hlt, -⟩ := List.getElem?_eq_some_iff.mp hi
  exact List.set_perm_cons_eraseIdx hlt p'

omit [FrameAllocator α] in
/-- The layers of one member in front of the others. -/
theorem Inv.focus (h : Inv T₀ s) (hi : s.members[i]? = some p) :
    Layered T₀ (p.layers ++ {q | q ∈ Heap.pages s.vm.space.heapEnd} ::
      (s.members.eraseIdx i).flatMap ProcessVm.layers) s.table := by
  refine h.layered.perm (List.Perm.trans ?_ List.perm_middle.symm)
  exact ((perm_focus hi).flatMap_right _).cons _

omit [FrameAllocator α] in
theorem ne_nil (hi : s.members[i]? = some p) : s.members ≠ [] :=
  List.ne_nil_of_mem (List.mem_of_getElem? hi)

theorem Inv.brk {addr : Option ℕ} (h : Inv T₀ s) (hi : s.members[i]? = some p)
    (hw : Heap.Whole addr s.vm) :
    let t : Family α := { s with vm := (p.brk addr s.vm).2 }
    Inv T₀ t ∧ FreesUnmapped s t := by
  intro t
  have hne := ne_nil hi
  have hmapped : ∀ q ∈ Heap.pages s.vm.space.heapEnd, s.vm.space.table q ≠ none :=
    fun q hq => h.layered.bound List.mem_cons_self hq
  obtain ⟨hmoved, hheap, hcount, -⟩ :=
    Heap.brk_moved h.heap hmapped hw (rfl : Heap.brk addr s.vm = ((p.brk addr s.vm).1, t.vm))
  have hcount' : t.vm.space.usingCount = t.members.length := hcount.trans h.count
  cases hmoved with
  | grew S hadds hpages =>
      refine ⟨⟨h.layered.growHead hadds.table hpages, hcount', hheap, fun he => absurd he hne,
        h.sized⟩, ?_⟩
      exact freesUnmapped_of_adds hadds (Or.inr hne)
  | shrank ps hrem hpages hapart =>
      refine ⟨⟨h.layered.shrinkHead hrem.table hpages hapart, hcount', hheap,
        fun he => absurd he hne, h.sized⟩, ?_⟩
      exact freesUnmapped_of_removes hrem rfl (by rw [if_neg fun hc => hne hc.2]; rfl)

theorem Inv.pageFault {addr : ℕ} {user ok : Bool} {p' : ProcessVm} {v : Vm (Recorder α)}
    (h : Inv T₀ s) (hi : s.members[i]? = some p) (hfree : s.table (pageOf addr) = none)
    (hw : p.stack.GrowsWhole addr s.vm.mem)
    (hp : p.handlePageFault B addr user s.vm = .ok (ok, p', v)) :
    let t : Family α := { vm := v, members := s.members.set i p' }
    Inv T₀ t ∧ FreesUnmapped s t := by
  intro t
  have hfocus := h.focus hi
  simp only [ProcessVm.handlePageFault, bind_eq_ok, pure_eq_ok] at hp
  obtain ⟨⟨ok', stack, m⟩, hfault, hp⟩ := hp
  cases hp
  have hmapped : ∀ q ∈ p.stack.range.pages, s.vm.mem.table q ≠ none :=
    fun q hq => hfocus.bound List.mem_cons_self hq
  obtain ⟨hsized, S, hadds, hpages⟩ := Stack.handlePageFault_adds
    (h.sized p (List.mem_of_getElem? hi)) hmapped hfree hw hfault
  have hmembers : t.members ≠ [] := by simp [t, ne_nil hi]
  refine ⟨⟨?_, ?_, h.heap, fun he => absurd he hmembers, ?_⟩, ?_⟩
  · have hl : Layered T₀ (ProcessVm.layers { p with stack := stack } ++
        {q | q ∈ Heap.pages s.vm.space.heapEnd} ::
          (s.members.eraseIdx i).flatMap ProcessVm.layers) t.table :=
      hfocus.growHead hadds.table hpages
    refine hl.perm (List.Perm.trans List.perm_middle ?_)
    exact (((perm_set hi).flatMap_right _).cons _).symm
  · show s.vm.space.usingCount = (s.members.set i _).length
    rw [h.count, List.length_set]
  · intro q hq
    rcases List.mem_or_eq_of_mem_set hq with hq | rfl
    · exact h.sized q hq
    · exact hsized
  · exact freesUnmapped_of_adds hadds (Or.inr hmembers)

theorem Inv.vfork {childCount : ℕ} {child : ProcessVm} {v : Vm (Recorder α)} (h : Inv T₀ s)
    (hi : s.members[i]? = some p)
    (hw : Stack.ProbesWhole p.stack.usage PROBES (p.stack.childBase childCount) s.vm.mem)
    (hp : p.fork B childCount s.vm = .ok (child, v)) :
    let t : Family α := { vm := v, members := s.members ++ [child] }
    Inv T₀ t ∧ FreesUnmapped s t := by
  intro t
  simp only [ProcessVm.fork, bind_eq_ok, pure_eq_ok] at hp
  obtain ⟨⟨stack, m⟩, hfork, hp⟩ := hp
  cases hp
  obtain ⟨hsized, hadds⟩ := Stack.vfork_adds (h.sized p (List.mem_of_getElem? hi)) hw hfork
  have hmembers : t.members ≠ [] := by simp [t]
  refine ⟨⟨?_, ?_, h.heap, fun he => absurd he hmembers, ?_⟩, ?_⟩
  · refine Layered.perm (h.layered.push hadds.table) ?_
    simp only [t, List.flatMap_append, List.flatMap_singleton, ProcessVm.layers, List.map_nil]
    exact (List.perm_append_singleton _ (_ :: _)).symm
  · show s.vm.space.usingCount + 1 = (s.members ++ [_]).length
    rw [h.count, List.length_append, List.length_singleton]
  · intro q hq
    rcases List.mem_append.mp hq with hq | hq
    · exact h.sized q hq
    · rw [List.mem_singleton.mp hq]
      exact hsized
  · exact freesUnmapped_of_adds hadds (Or.inr hmembers)

theorem Inv.drop {v : Vm (Recorder α)} (h : Inv T₀ s) (hi : s.members[i]? = some p)
    (hw : p.code = [] ∨ s.members.length = 1) (hp : p.drop B s.vm = .ok v) :
    let t : Family α := { vm := v, members := s.members.eraseIdx i }
    Inv T₀ t ∧ FreesUnmapped s t := by
  intro t
  have hfocus := h.focus hi
  have hst := h.sized p (List.mem_of_getElem? hi)
  have hlen : t.members.length + 1 = s.members.length := by
    rw [(perm_focus hi).length_eq, List.length_cons]
  have hsized : ∀ q ∈ t.members, q.stack.Sized :=
    fun q hq => h.sized q (List.mem_of_mem_eraseIdx hq)
  by_cases hone : s.members.length = 1
  · have hnil : t.members = [] := List.length_eq_zero_iff.mp (by omega)
    obtain ⟨m, hrem, htable, hfreed, hl, hcount, hend⟩ :=
      ProcessVm.drop_last hst (h.count.trans hone) hfocus hp
    refine ⟨⟨?_, ?_, ?_, fun _ => hend, hsized⟩, ?_⟩
    · rw [hend, Heap.pages_start]
      exact hl.push ((Grown.refl _).congr (by ext; simp))
    · rw [hnil]
      exact hcount
    · rw [hend]
      exact Heap.inHeap_start
    · exact freesUnmapped_of_removes hrem htable (by rw [if_pos ⟨ne_nil hi, hnil⟩]; exact hfreed)
  · have hne : t.members ≠ [] := fun he => hone (by rw [← hlen, he, List.length_nil])
    have hcount : s.vm.space.usingCount ≠ 1 := by rw [h.count]; exact hone
    obtain ⟨hrem, hl, hcount', hend⟩ :=
      ProcessVm.drop_shared hst (hw.resolve_right hone) hcount hfocus hp
    refine ⟨⟨?_, ?_, ?_, fun he => absurd he hne, hsized⟩, ?_⟩
    · rw [hend]
      exact hl
    · rw [hcount', h.count]
      omega
    · rw [hend]
      exact h.heap
    · exact freesUnmapped_of_removes hrem rfl (by rw [if_neg fun hc => hne hc.2]; rfl)

/-- **Step.**  A clean step keeps the invariant and frees exactly what it unmaps. -/
theorem Inv.step {op : FamilyOp} (h : Inv T₀ s) (hclean : s.Clean op)
    (hs : s.step B op = .ok (t, ())) : Inv T₀ t ∧ FreesUnmapped s t := by
  have hsame : FreesUnmapped s s :=
    freesUnmapped_of_adds ⟨Grown.refl _, rfl⟩ (em _)
  cases op with
  | brk i addr =>
      simp only [Family.step] at hs
      split at hs
      · cases hs
        exact ⟨h, hsame⟩
      · rename_i p hi
        cases hs
        exact h.brk hi hclean
  | pageFault i addr user =>
      simp only [Family.step] at hs
      split at hs
      · cases hs
        exact ⟨h, hsame⟩
      rename_i p hi
      split_ifs at hs with hguard
      · simp only [bind_eq_ok, pure_eq_ok] at hs
        obtain ⟨⟨ok, p', v⟩, hp, hs⟩ := hs
        cases hs
        rw [Bool.and_eq_true, Option.isNone_iff_eq_none] at hguard
        exact h.pageFault hi hguard.2 (hclean p hi) hp
      · cases hs
        exact ⟨h, hsame⟩
  | vfork i childCount =>
      simp only [Family.step] at hs
      split at hs
      · cases hs
        exact ⟨h, hsame⟩
      rename_i p hi
      simp only [bind_eq_ok, pure_eq_ok] at hs
      obtain ⟨⟨child, v⟩, hp, hs⟩ := hs
      cases hs
      exact h.vfork hi (hclean p hi) hp
  | drop i =>
      simp only [Family.step] at hs
      split at hs
      · cases hs
        exact ⟨h, hsame⟩
      rename_i p hi
      simp only [bind_eq_ok, pure_eq_ok] at hs
      obtain ⟨v, hp, hs⟩ := hs
      cases hs
      exact h.drop hi (hclean p hi) hp

/-- A program whose segments are apart starts a family with the invariant. -/
theorem start_inv {elf : ElfFile} {addr : Frame} {a : α} {phys : Frame → ℕ → UInt8}
    (hapart : SegmentsApart elf.programHeaders T₀) (h : start B elf T₀ addr a phys = .ok s) :
    Inv T₀ s ∧ s.freed = [] := by
  simp only [start, bind_eq_ok, pure_eq_ok] at h
  obtain ⟨⟨p, v⟩, hp, rfl⟩ := h
  obtain ⟨m, m', hload, hm, hstack, rfl⟩ := ProcessVm.loadElf_eq hp
  have hfreed : m'.alloc.freed = m.alloc.freed := by
    rw [← mapEach_freed Stack.initial.range.pages m, hm]
  refine ⟨⟨?_, rfl, Heap.inHeap_start, fun he => by simp at he, ?_⟩, ?_⟩
  · have hl := (loadElf_layered hapart hload).push (mapEach_ok hm)
    have hset : {p : ℕ | p ∈ Heap.pages HEAP_START} = ∅ := by
      rw [Heap.pages_start]
      ext
      simp
    show Layered T₀ ({p | p ∈ Heap.pages HEAP_START} :: _) m'.table
    rw [hset]
    refine Layered.cons_empty_iff.mpr ?_
    rw [List.flatMap_singleton, ProcessVm.layers, hstack]
    exact hl
  · intro q hq
    rw [List.mem_singleton.mp hq, hstack]
    exact Stack.initial_sized
  · exact hfreed.trans (loadSegments_freed hload)

/-- The condition of a clean run. -/
abbrev CleanStep (s : Family α) (op : FamilyOp) (_ : Family α) : Prop := s.Clean op

/-- **Address spaces are reclaimed.**  In every clean run of a family whose program has its
segments apart, each step returns to the allocator exactly the frames of the pages that it
unmaps, each one time; when the last member is gone, the page table is as it was before the
program was loaded; and so any page `q` the family maps at some time is unmapped, and its frame
returned, by a step between that time and the end. -/
theorem reclaimed {elf : ElfFile} {addr : Frame} {a : α} {phys : Frame → ℕ → UInt8}
    {f₀ s : Family α} (hapart : SegmentsApart elf.programHeaders T₀)
    (h0 : start B elf T₀ addr a phys = .ok f₀) (h : Run (step B) CleanStep f₀ s) :
    f₀.freed = [] ∧ (∀ t, Step (step B) CleanStep s t → FreesUnmapped s t) ∧
      (s.members = [] → s.table = T₀) ∧
      ∀ t q e, Run (step B) CleanStep s t → t.members = [] → s.table q = some e → T₀ q = none →
        ∃ b c, Run (step B) CleanStep s b ∧ Step (step B) CleanStep b c ∧
          Run (step B) CleanStep c t ∧ b.table q = some e ∧ c.table q = none := by
  have hinv : ∀ {t}, Run (step B) CleanStep f₀ t → Inv T₀ t := fun ht =>
    ht.invariant (P := Inv T₀) (start_inv hapart h0).1 fun _ _ _ _ hs hstep hc => (hs.step hc hstep).1
  have hbase : ∀ {t}, Run (step B) CleanStep f₀ t → t.members = [] → t.table = T₀ := by
    intro t ht hnil
    have hl := (hinv ht).layered
    rw [(hinv ht).empty hnil, hnil, Heap.pages_start] at hl
    have hset : {p : ℕ | p ∈ ([] : List ℕ)} = ∅ := by
      ext
      simp
    rw [hset] at hl
    exact (Layered.cons_empty_iff.mp hl).eq_base
  refine ⟨(start_inv hapart h0).2, ?_, hbase h, ?_⟩
  · rintro t ⟨op, _, hs, hc⟩
    exact ((hinv h).step hc hs).2
  · intro t q e hrun hnil hq hbase0
    have ht : ¬ t.table q = some e := by
      rw [hbase (h.trans hrun) hnil, hbase0]
      simp
    obtain ⟨b, c, hsb, hb, hbc, hc, hct⟩ :=
      hrun.exists_first (P := fun f => f.table q = some e) hq ht
    have hsb' := hsb.mono (D := CleanStep) fun _ _ _ hC => hC.1
    refine ⟨b, c, hsb', hbc, hct, hb, ?_⟩
    obtain ⟨op, _, hs, hclean⟩ := hbc
    obtain ⟨ps, -, hps, hkeep, -⟩ := ((hinv (h.trans hsb')).step hclean hs).2
    have hmem : q ∈ ps := by
      by_contra hne
      exact hc (hkeep q e hb hne)
    exact ((hps q).mp hmem).2

/-! ### A program with one page of code -/

/-- A program with one page of code. -/
def onePage : ElfFile where
  input := [0xc3]
  programHeaders := [⟨some .load, 0, 0x400000, 1, 1, true, false⟩]
  entryPoint := 0x400000

def freshAllocator : BootInfoFrameAllocator := ⟨9, 0, [1, 2, 3, 4, 5, 6, 7, 8, 9], []⟩

/-- The family of `onePage` after a list of operations, if all of them meet the condition. -/
def execFrom (C : Family BootInfoFrameAllocator → FamilyOp → Family BootInfoFrameAllocator → Prop)
    [∀ s i t, Decidable (C s i t)] (ops : List FamilyOp) : Option (Family BootInfoFrameAllocator) :=
  match start Build.release onePage (fun _ => none) 100 freshAllocator (fun _ _ => 0) with
  | .ok f₀ => exec (step Build.release) C f₀ ops
  | .error _ => none

theorem run_of_execFrom
    {C : Family BootInfoFrameAllocator → FamilyOp → Family BootInfoFrameAllocator → Prop}
    [∀ s i t, Decidable (C s i t)] {ops : List FamilyOp} {s : Family BootInfoFrameAllocator}
    (h : execFrom C ops = some s) :
    ∃ f₀, start Build.release onePage (fun _ => none) 100 freshAllocator (fun _ _ => 0) = .ok f₀ ∧
      Run (step Build.release) C f₀ s := by
  unfold execFrom at h
  split at h
  · rename_i f₀ hf
    exact ⟨f₀, hf, run_of_exec h⟩
  · cases h

theorem onePage_fits : (ProgramHeader.mk (some .load) 0 0x400000 1 1 true false).Fits :=
  ⟨by decide, by decide, by decide, by decide⟩

/-- A child and its stack, the heap up and down, and the child dropped first. -/
theorem reclaimed_onePage : ∃ f₀ s : Family BootInfoFrameAllocator,
    start Build.release onePage (fun _ => none) 100 freshAllocator (fun _ _ => 0) = .ok f₀ ∧
      s.freed = [100, 1, 5, 4, 2, 3, 6, 6] ∧ f₀.freed = [] ∧ s.table = fun _ => none := by
  have hrun : (execFrom CleanStep [.vfork 0 1, .brk 0 (some 0x200000002000),
      .brk 1 (some 0x200000001000), .pageFault 1 0x3ffeffffe123 true, .drop 1, .drop 0]).map
        (fun s => (s.members, s.freed)) = some ([], [100, 1, 5, 4, 2, 3, 6, 6]) := by
    decide +kernel
  obtain ⟨s, hs, hval⟩ := Option.map_eq_some_iff.mp hrun
  obtain ⟨hnil, hfreed⟩ := Prod.mk.inj hval
  obtain ⟨f₀, hstart, hr⟩ := run_of_execFrom hs
  have hapart : SegmentsApart onePage.programHeaders (fun _ => none) :=
    ⟨by simp [onePage, onePage_fits], fun _ _ _ _ _ => rfl, by decide⟩
  obtain ⟨h0, -, hbase, -⟩ := reclaimed hapart hstart hr
  exact ⟨f₀, s, hstart, hfreed, h0, hbase hnil⟩

/-- The first process exits before its child: the page of code stays mapped. -/
theorem code_leaks : ¬ ∀ (elf : ElfFile) (T₀ : PageTable) (addr : Frame)
    (a : BootInfoFrameAllocator) (phys : Frame → ℕ → UInt8) (f₀ s : Family BootInfoFrameAllocator),
    start Build.release elf T₀ addr a phys = .ok f₀ → Run (step Build.release) Any f₀ s →
      s.members = [] → ∀ q, T₀ q = none → s.table q = none := by
  intro hall
  have hrun : (execFrom Any [.vfork 0 1, .drop 0, .drop 0]).map
      (fun s => (s.members, s.table 0x400)) = some ([], some ⟨1, ⟨false, true, false⟩⟩) := by
    decide +kernel
  obtain ⟨s, hs, hval⟩ := Option.map_eq_some_iff.mp hrun
  obtain ⟨hnil, hpage⟩ := Prod.mk.inj hval
  obtain ⟨f₀, hstart, hr⟩ := run_of_execFrom hs
  have := hall _ _ _ _ _ f₀ s hstart hr hnil 0x400 rfl
  rw [hpage] at this
  cases this

end Family

end Ysos
