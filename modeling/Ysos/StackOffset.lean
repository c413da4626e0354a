import Ysos.StackSlots

/-! # The stack offset of a child

`ProcessInner::vfork` adds the difference of the two stacks to the stack pointer of the child.
`stack_offset` subtracts the parent's stack from the child's, which is below it, and asserts that the
difference is not a multiple of the size of a slot.

* `Stack.vfork_bottom`: the child's stack is a multiple of the size of a slot away, below the parent's.
* `stack_offset_unfit`: no offset is what it has to be.
* `first_child_unfit`: the first child of a process. -/

namespace Ysos

open PartialMap Runs

variable {α : Type} [FrameAllocator α] {B : Build}

namespace Build

variable (B : Build) {a b c : ℕ}

theorem sub_debug (hB : B.debug = true) (h : B.sub a b = .ok c) : c ≤ a ∧ c + b = a := by
  unfold sub at h
  split_ifs at h
  cases h
  omega

theorem mul_debug (hB : B.debug = true) (h : B.mul a b = .ok c) : c = a * b := by
  unfold mul at h
  split_ifs at h
  cases h
  rfl

end Build

namespace Stack

variable {st child : Stack} {childCount : ℕ} {m m' : Mem α}

/-- `stack_offset` does not underflow and meets its assertion, and adding the offset to a stack pointer of the
old stack gives the same position in the new one. -/
structure OffsetFits (child old : Stack) : Prop where
  noUnderflow : old.bottom ≤ child.bottom
  asserted : (child.bottom - old.bottom) % STACK_MAX_SIZE ≠ 0
  moved : ∀ sp, old.bottom ≤ sp → sp < startAddress old.range.stop →
    sp + (child.bottom - old.bottom) < startAddress child.range.stop ∧
      sp + (child.bottom - old.bottom) - child.bottom = sp - old.bottom

/-- The slots are a divisor of the address space, so that all the moves of `vfork` are by whole slots. -/
theorem vfork_bottom (hst : st.bottom < U64) (h : st.vfork B childCount m = .ok (child, m')) :
    child.bottom % STACK_MAX_SIZE = st.bottom % STACK_MAX_SIZE := by
  simp only [vfork, bind_eq_ok, pure_eq_ok] at h
  obtain ⟨shift, hshift, base, hbase, ⟨newBase, m₁⟩, hprobe, a, ha, stop, -, h⟩ := h
  obtain ⟨rfl, -⟩ := virtAddrNew_ok ha
  obtain ⟨-, -, -, -, -, hmod, -⟩ := probe_ok hprobe (B.sub_lt hbase hst)
  rw [B.sub_mod hbase hst (by decide) (B.mul_dvd hshift (by decide) dvd_rfl)] at hmod
  cases h
  simp only [bottom, startAddress, pageOf, STACK_MAX_SIZE, STACK_MAX_PAGES, PAGE_SIZE] at hmod ⊢
  omega

theorem probe_le (hB : B.debug = true) {usage : ℕ} : ∀ {n base b : ℕ} {m m' : Mem α},
    probe B usage n base m = .ok (b, m') → b ≤ base
  | 0, _, _, _, _, h => nomatch h
  | n + 1, base, b, m, m', h => by
      obtain ⟨⟨r, m₁⟩, -, h⟩ := bind_eq_ok.mp h
      cases r with
      | ok r =>
          cases h
          exact le_rfl
      | error e =>
          obtain ⟨base', hbase, h⟩ := bind_eq_ok.mp h
          exact (probe_le hB h).trans (B.sub_debug hB hbase).1

theorem vfork_below (hB : B.debug = true) (hcount : 0 < childCount)
    (h : st.vfork B childCount m = .ok (child, m')) : child.bottom < st.bottom := by
  simp only [vfork, bind_eq_ok, pure_eq_ok] at h
  obtain ⟨shift, hshift, base, hbase, ⟨newBase, m₁⟩, hprobe, a, ha, stop, -, h⟩ := h
  obtain ⟨rfl, -⟩ := virtAddrNew_ok ha
  have hle := probe_le hB hprobe
  obtain ⟨-, hsum⟩ := B.sub_debug hB hbase
  have hshift' := B.mul_debug hB hshift
  have hpos : 0 < childCount * STACK_MAX_SIZE := Nat.mul_pos hcount (by decide)
  have hstart : startAddress (pageOf newBase) ≤ newBase := Nat.div_mul_le_self _ _
  cases h
  change startAddress (pageOf newBase) < st.bottom
  omega

end Stack

open Stack

/-- **The offset of a child's stack is never well formed.**  For every parent and every child stack that
`vfork` returns, the assertion of `stack_offset` is wrong for the difference of the two, whatever its sign.
In a debug build the child is below the parent, so that the subtraction underflows, and `stack_offset`
panics. -/
theorem stack_offset_unfit {st child : Stack} {childCount : ℕ} {m m' : Mem α} (hst : st.bottom < U64)
    (h : st.vfork B childCount m = .ok (child, m')) :
    ¬ child.OffsetFits st ∧ (B.debug = true → 0 < childCount →
      child.bottom < st.bottom ∧ stackOffset B child st = .error .overflow) := by
  refine ⟨fun hfits => hfits.asserted ?_, fun hB hcount => ?_⟩
  · exact Nat.sub_mod_eq_zero_of_mod_eq (vfork_bottom hst h)
  · have hbelow := vfork_below hB hcount h
    refine ⟨hbelow, ?_⟩
    have hsub : B.sub child.bottom st.bottom = .error .overflow := by
      rw [Build.sub, if_neg hbelow.not_ge, if_pos hB]
    rw [stackOffset, hsub]
    rfl

/-- An address space in which only this page is mapped, and two free frames. -/
def onlyMapped (page : ℕ) : Mem BootInfoFrameAllocator where
  table p := if p = page then some ⟨1, stackFlags true⟩ else none
  alloc := ⟨3, 1, [2, 3], []⟩
  phys _ _ := 0

theorem initial_vfork : ∃ child m', Stack.initial.vfork .release 1 (onlyMapped (pageOf STACK_INIT_BOT)) =
    .ok (child, m') := by
  have hchild : (Stack.initial.vfork .release 1 (onlyMapped (pageOf STACK_INIT_BOT))).map (fun r => r.1) =
      .ok ⟨⟨0x3ffefffff, 0x3fff00000⟩, 1⟩ := by
    decide +kernel
  cases h : Stack.initial.vfork .release 1 (onlyMapped (pageOf STACK_INIT_BOT)) with
  | ok r => exact ⟨r.1, r.2, rfl⟩
  | error e =>
      rw [h] at hchild
      cases hchild

theorem stack_offset_unfit_example : ∃ child : Stack, ¬ child.OffsetFits Stack.initial := by
  obtain ⟨child, m', h⟩ := initial_vfork
  exact ⟨child, (stack_offset_unfit (by decide) h).1⟩

/-- The first child of the first process. -/
theorem first_child_unfit : ¬ ∀ (st child : Stack) (childCount : ℕ) (m m' : Mem BootInfoFrameAllocator),
    st.vfork .release childCount m = .ok (child, m') → child.OffsetFits st := by
  intro hall
  obtain ⟨child, m', h⟩ := initial_vfork
  refine (hall _ _ _ _ _ h).asserted (Nat.sub_mod_eq_zero_of_mod_eq ?_)
  exact vfork_bottom (by decide) h

end Ysos
