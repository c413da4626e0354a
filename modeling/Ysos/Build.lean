import Ysos.Runs

/-! # Builds, addresses and pages

The kernel is compiled with or without overflow checks and debug assertions, and the address
arithmetic of the `x86_64` crate is not part of the repository.  A `Build` fixes both:
`debug` says whether arithmetic on `u64` and `debug_assert!` panic, and `addVirtAddr` and
`subVirtAddr` are the crate's `VirtAddr + u64` and `VirtAddr - u64`.  On results below `2 ^ 64`
they are ordinary addition and subtraction followed by the check for a canonical address; on
overflow they panic or wrap.  Everything is proved for every build.

Addresses and page numbers are natural numbers: an address is a value below `2 ^ 64`, and the
page containing `a` is `a / PAGE_SIZE`. -/

namespace Ysos

open Runs

/-- The callers of `vm()` and `vm_mut()`, which unwrap the `proc_vm` of a process. -/
inductive VmUse where
  | restore
  | vfork
  | clonePageTable
  | loadElf
  | brk
  | pageFault
deriving DecidableEq, Repr

/-- The ways the modelled code panics. -/
inductive Panic where
  | overflow
  | debugAssertion
  | nonCanonical
  | noFrame
  | elfLoad
  | stackInit
  | outOfProbes
  | noCurrentProcess
  | noKernelProcess
  | processNotFound
  | vmTaken (use : VmUse)
  | processDataEmpty
  | unreachable
  | pageFault
deriving DecidableEq, Repr

/-- The panics of `u64` and address arithmetic and of `debug_assert!`. -/
def Panic.isArithmetic : Panic → Bool
  | .overflow | .debugAssertion | .nonCanonical => true
  | _ => false

/-- The panics of the code that handles memory. -/
def Panic.inMemory : Panic → Bool
  | .overflow | .debugAssertion | .nonCanonical => true
  | .noFrame | .elfLoad | .stackInit | .outOfProbes => true
  | _ => false

/-- The panics of `switch_next` and of looking up the current process. -/
def Panic.inSwitch : Panic → Bool
  | .noCurrentProcess | .processNotFound | .vmTaken .restore => true
  | _ => false

theorem Panic.not_inSwitch_of_inMemory {e : Panic} (h : e.inMemory = true) :
    e.inSwitch = false := by
  cases e <;> first | rfl | cases h

theorem Panic.inMemory_of_isArithmetic {e : Panic} (h : e.isArithmetic = true) :
    e.inMemory = true := by
  cases e <;> first | rfl | cases h

/-! ### Virtual addresses -/

/-- `2 ^ 64`, the number of values of `u64` and `usize`. -/
def U64 : ℕ := 2 ^ 64

/-- Size of a page and of a frame (`Size4KiB::SIZE`). -/
def PAGE_SIZE : ℕ := 4096

/-- Canonical addresses: bits 47 to 63 are equal. -/
def canonical (a : ℕ) : Bool := a < 2 ^ 47 || (U64 - 2 ^ 47 ≤ a && a < U64)

theorem canonical_iff {a : ℕ} :
    canonical a = true ↔ a < 2 ^ 47 ∨ 2 ^ 64 - 2 ^ 47 ≤ a ∧ a < 2 ^ 64 := by
  unfold canonical
  rw [Bool.or_eq_true, Bool.and_eq_true]
  exact or_congr decide_eq_true_iff (and_congr decide_eq_true_iff decide_eq_true_iff)

theorem canonical_lt {a : ℕ} (h : canonical a = true) : a < U64 := by
  have hU : U64 = 2 ^ 64 := rfl
  rcases canonical_iff.mp h with h | h <;> omega

/-- `VirtAddr::new`. -/
def virtAddrNew (a : ℕ) : Except Panic ℕ := if canonical a then .ok a else .error .nonCanonical

/-- `VirtAddr::new_truncate`: bit 47 is copied into the bits above it. -/
def virtAddrTruncate (a : ℕ) : ℕ :=
  if a % 2 ^ 48 < 2 ^ 47 then a % 2 ^ 48 else U64 - 2 ^ 48 + a % 2 ^ 48

theorem virtAddrNew_ok {a b : ℕ} (h : virtAddrNew a = .ok b) : a = b ∧ canonical a = true := by
  unfold virtAddrNew at h
  split_ifs at h with hc
  exact ⟨Except.ok.inj h, hc⟩

theorem virtAddrNew_error {a : ℕ} {e : Panic} (h : virtAddrNew a = .error e) :
    e.isArithmetic = true := by
  unfold virtAddrNew at h
  split_ifs at h
  cases h
  rfl

/-- `Page::containing_address`. -/
def pageOf (a : ℕ) : ℕ := a / PAGE_SIZE

/-- `Page::start_address`. -/
def startAddress (p : ℕ) : ℕ := p * PAGE_SIZE

@[simp] theorem pageOf_startAddress (p : ℕ) : pageOf (startAddress p) = p :=
  Nat.mul_div_cancel p (by norm_num [PAGE_SIZE])

/-! ### Builds -/

/-- Overflow checks and the address arithmetic of the `x86_64` crate. -/
structure Build where
  debug : Bool
  addVirtAddr : ℕ → ℕ → Option ℕ
  subVirtAddr : ℕ → ℕ → Option ℕ
  add_exact : ∀ a b, a + b < U64 →
    addVirtAddr a b = if canonical (a + b) then some (a + b) else none
  add_wraps : ∀ a b c, addVirtAddr a b = some c → canonical c = true ∧ c = (a + b) % U64
  sub_exact : ∀ a b, b ≤ a → a < U64 →
    subVirtAddr a b = if canonical (a - b) then some (a - b) else none
  sub_wraps : ∀ a b c, subVirtAddr a b = some c → canonical c = true ∧ c = (a + (U64 - b)) % U64

namespace Build
variable (B : Build)

/-- Addition of `u64` values. -/
def add (a b : ℕ) : Except Panic ℕ :=
  if a + b < U64 then .ok (a + b) else if B.debug then .error .overflow else .ok ((a + b) % U64)

/-- Subtraction of `u64` values. -/
def sub (a b : ℕ) : Except Panic ℕ :=
  if b ≤ a then .ok (a - b)
  else if B.debug then .error .overflow else .ok ((a + (U64 - b)) % U64)

/-- Multiplication of `u64` values. -/
def mul (a b : ℕ) : Except Panic ℕ :=
  if a * b < U64 then .ok (a * b) else if B.debug then .error .overflow else .ok (a * b % U64)

/-- `debug_assert!`. -/
def debugAssert (c : Bool) : Except Panic Unit :=
  if B.debug && !c then .error .debugAssertion else .ok ()

/-- `VirtAddr + u64`. -/
def virtAdd (a n : ℕ) : Except Panic ℕ :=
  match B.addVirtAddr a n with
  | some b => .ok b
  | none => .error .nonCanonical

/-- `VirtAddr - u64`. -/
def virtSub (a n : ℕ) : Except Panic ℕ :=
  match B.subVirtAddr a n with
  | some b => .ok b
  | none => .error .nonCanonical

/-- `Page + u64`. -/
def pageAdd (p n : ℕ) : Except Panic ℕ := do
  let bytes ← B.mul n PAGE_SIZE
  let a ← B.virtAdd (startAddress p) bytes
  return pageOf a

/-- `Page - u64`. -/
def pageSub (p n : ℕ) : Except Panic ℕ := do
  let bytes ← B.mul n PAGE_SIZE
  let a ← B.virtSub (startAddress p) bytes
  return pageOf a

theorem virtAdd_ok {a n b : ℕ} (h : B.virtAdd a n = .ok b) : B.addVirtAddr a n = some b := by
  unfold virtAdd at h
  split at h
  · rename_i c hc
    rw [hc, Except.ok.inj h]
  · cases h

theorem virtSub_ok {a n b : ℕ} (h : B.virtSub a n = .ok b) : B.subVirtAddr a n = some b := by
  unfold virtSub at h
  split at h
  · rename_i c hc
    rw [hc, Except.ok.inj h]
  · cases h

/-- Without overflow, addition is the sum. -/
theorem add_eq {a b : ℕ} (h : a + b < U64) : B.add a b = .ok (a + b) := by
  rw [add, if_pos h]

theorem virtAdd_eq {a n b : ℕ} (h : B.virtAdd a n = .ok b) (hlt : a + n < U64) : b = a + n := by
  have := B.virtAdd_ok h
  rw [B.add_exact a n hlt] at this
  split_ifs at this
  exact (Option.some.inj this).symm

theorem virtSub_eq {a n b : ℕ} (h : B.virtSub a n = .ok b) (hle : n ≤ a) (ha : a < U64) :
    b = a - n := by
  have := B.virtSub_ok h
  rw [B.sub_exact a n hle ha] at this
  split_ifs at this
  exact (Option.some.inj this).symm

theorem pageAdd_eq {p n q : ℕ} (h : B.pageAdd p n = .ok q) (hlt : (p + n) * PAGE_SIZE < U64) :
    q = p + n := by
  rw [Nat.add_mul] at hlt
  simp only [pageAdd, mul, if_pos (show n * PAGE_SIZE < U64 by omega), bind_eq_ok, pure_eq_ok] at h
  obtain ⟨bytes, hbytes, a, ha, rfl⟩ := h
  cases hbytes
  rw [B.virtAdd_eq ha hlt, startAddress, ← Nat.add_mul]
  exact pageOf_startAddress (p + n)

theorem pageSub_eq {p n q : ℕ} (h : B.pageSub p n = .ok q) (hle : n ≤ p)
    (hp : p * PAGE_SIZE < U64) : q = p - n := by
  have hn : n * PAGE_SIZE ≤ p * PAGE_SIZE := Nat.mul_le_mul_right _ hle
  simp only [pageSub, mul, if_pos (show n * PAGE_SIZE < U64 by omega), bind_eq_ok, pure_eq_ok] at h
  obtain ⟨bytes, hbytes, a, ha, rfl⟩ := h
  cases hbytes
  rw [B.virtSub_eq ha hn hp, startAddress, ← Nat.sub_mul]
  exact pageOf_startAddress (p - n)

/-- Where it does not panic, subtraction is subtraction modulo `2 ^ 64`. -/
theorem sub_eq {a b c : ℕ} (h : B.sub a b = .ok c) (ha : a < U64) : c = (a + (U64 - b)) % U64 := by
  unfold sub at h
  split_ifs at h with hle
  · cases h
    rw [show a + (U64 - b) = a - b + U64 by omega, Nat.add_mod_right, Nat.mod_eq_of_lt (by omega)]
  · cases h
    rfl

theorem mul_eq {a b c : ℕ} (h : B.mul a b = .ok c) : c = a * b % U64 := by
  unfold mul at h
  split_ifs at h with hlt
  · cases h
    rw [Nat.mod_eq_of_lt hlt]
  · cases h
    rfl

/-- Multiplication keeps divisors of `2 ^ 64`, also when it wraps. -/
theorem mul_dvd {n k c d : ℕ} (h : B.mul n k = .ok c) (hd : d ∣ U64) (hk : d ∣ k) : d ∣ c := by
  rw [B.mul_eq h]
  exact (Nat.dvd_mod_iff hd).mpr (Dvd.dvd.mul_left hk n)

/-- Subtracting a multiple of a divisor `d` of `2 ^ 64` keeps the residue modulo `d`, also when
it wraps. -/
theorem sub_mod {a b c d : ℕ} (h : B.sub a b = .ok c) (ha : a < U64) (hd : d ∣ U64) (hb : d ∣ b) :
    c % d = a % d := by
  obtain ⟨k, hk⟩ := Nat.dvd_sub hd hb
  rw [B.sub_eq h ha, Nat.mod_mod_of_dvd _ hd, hk, Nat.add_mul_mod_self_left]

theorem sub_lt {a b c : ℕ} (h : B.sub a b = .ok c) (ha : a < U64) : c < U64 := by
  rw [B.sub_eq h ha]
  exact Nat.mod_lt _ (by norm_num [U64])

/-! ### The panics of arithmetic -/

section Errors
variable {B} {a b p n : ℕ} {c : Bool} {e : Panic}

theorem add_error (h : B.add a b = .error e) : e.isArithmetic = true := by
  unfold add at h
  split_ifs at h
  cases h
  rfl

theorem sub_error (h : B.sub a b = .error e) : e.isArithmetic = true := by
  unfold sub at h
  split_ifs at h
  cases h
  rfl

theorem mul_error (h : B.mul a b = .error e) : e.isArithmetic = true := by
  unfold mul at h
  split_ifs at h
  cases h
  rfl

theorem debugAssert_error (h : B.debugAssert c = .error e) : e.isArithmetic = true := by
  unfold debugAssert at h
  split_ifs at h
  cases h
  rfl

theorem virtAdd_error (h : B.virtAdd a n = .error e) : e.isArithmetic = true := by
  unfold virtAdd at h
  split at h
  · cases h
  · cases h
    rfl

theorem virtSub_error (h : B.virtSub a n = .error e) : e.isArithmetic = true := by
  unfold virtSub at h
  split at h
  · cases h
  · cases h
    rfl

theorem pageAdd_error (h : B.pageAdd p n = .error e) : e.isArithmetic = true := by
  rcases bind_eq_error.mp h with h | ⟨bytes, -, h⟩
  · exact mul_error h
  · rcases bind_eq_error.mp h with h | ⟨a, -, h⟩
    · exact virtAdd_error h
    · cases h

theorem pageSub_error (h : B.pageSub p n = .error e) : e.isArithmetic = true := by
  rcases bind_eq_error.mp h with h | ⟨bytes, -, h⟩
  · exact mul_error h
  · rcases bind_eq_error.mp h with h | ⟨a, -, h⟩
    · exact virtSub_error h
    · cases h

end Errors

end Build

/-- The build without overflow checks, where address arithmetic wraps. -/
def Build.release : Build where
  debug := false
  addVirtAddr a b := if canonical ((a + b) % U64) then some ((a + b) % U64) else none
  subVirtAddr a b := if canonical ((a + (U64 - b)) % U64) then some ((a + (U64 - b)) % U64) else none
  add_exact a b h := by rw [Nat.mod_eq_of_lt h]
  add_wraps a b c h := by
    split_ifs at h with hc
    rw [← Option.some.inj h]
    exact ⟨hc, rfl⟩
  sub_exact a b h ha := by
    have e : (a + (U64 - b)) % U64 = a - b := by
      rw [show a + (U64 - b) = a - b + U64 by omega, Nat.add_mod_right, Nat.mod_eq_of_lt (by omega)]
    rw [e]
  sub_wraps a b c h := by
    split_ifs at h with hc
    rw [← Option.some.inj h]
    exact ⟨hc, rfl⟩

end Ysos
