import Ysos.SemCalls

/-! # User memory in system calls (`memory/address.rs`)

`as_user_slice` and `as_user_slice_mut` turn a pointer and a length from a process into a slice, and
`sys_write` and `sys_read` hand it to `write` and `read`.  The mapper's `translate` looks up the
page of an address.

* `UserBytes`: all bytes of a slice are mapped for the user.
* `userSlice_iff`: only the first byte is looked up, so that this holds exactly for the slices whose
  further pages happen to be mapped for the user as well. -/

namespace Ysos

inductive TranslateResult where
  | mapped (frame : Frame) (offset : ℕ) (flags : PageTableFlags)
  | notMapped
  | invalidFrameAddress (addr : ℕ)
deriving DecidableEq, Repr

def PageTable.translate (T : PageTable) (addr : ℕ) : TranslateResult :=
  match T (pageOf addr) with
  | some entry => .mapped entry.frame (addr % PAGE_SIZE) entry.flags
  | none => .notMapped

def isUserAccessable (T : PageTable) (addr : UInt64) : Bool :=
  match T.translate (virtAddrTruncate addr.toNat) with
  | .mapped _ _ flags => flags.userAccessible
  | _ => false

/-- `from_raw_parts`: a slice of `len` bytes from `ptr` on. -/
structure RawSlice where
  ptr : UInt64
  len : UInt64
deriving DecidableEq, Repr

def asUserSlice (T : PageTable) (ptr len : UInt64) : Option RawSlice :=
  if ¬ isUserAccessable T ptr then none else some ⟨ptr, len⟩

def asUserSliceMut (T : PageTable) (ptr len : UInt64) : Option RawSlice :=
  if ¬ isUserAccessable T ptr then none else some ⟨ptr, len⟩

/-- `sys_write`, over the `write` of the process manager. -/
def sysWrite (T : PageTable) (args : SyscallArgs) (write : UInt8 → RawSlice → Int64) : UInt64 :=
  match asUserSlice T args.arg1 args.arg2 with
  | some buf => (write args.arg0.toUInt8 buf).toUInt64
  | none => 0xffffffffffffffff

/-- `sys_read`, over the `read` of the process manager. -/
def sysRead (T : PageTable) (args : SyscallArgs) (read : UInt8 → RawSlice → Int64) : UInt64 :=
  match asUserSliceMut T args.arg1 args.arg2 with
  | some buf => (read args.arg0.toUInt8 buf).toUInt64
  | none => 0xffffffffffffffff

/-! ### What the slices may hold -/

/-- The page is mapped with `USER_ACCESSIBLE`. -/
def PageTable.UserPage (T : PageTable) (p : ℕ) : Prop := ∃ entry ∈ T p, entry.flags.userAccessible

/-- The address exists, and its byte is mapped with `USER_ACCESSIBLE`. -/
def PageTable.UserByte (T : PageTable) (addr : ℕ) : Prop := canonical addr ∧ T.UserPage (pageOf addr)

/-- The slice does not wrap, and all its bytes are mapped with `USER_ACCESSIBLE`. -/
def RawSlice.UserBytes (T : PageTable) (s : RawSlice) : Prop :=
  s.ptr.toNat + s.len.toNat < U64 ∧
    ∀ addr, s.ptr.toNat ≤ addr → addr < s.ptr.toNat + s.len.toNat → T.UserByte addr

/-- The system call hands out no slices but those with bytes of the user: what it does does not
depend on what happens to other slices. -/
def Contained (T : PageTable) (sys : (UInt8 → RawSlice → Int64) → UInt64) : Prop :=
  ∀ access access' : UInt8 → RawSlice → Int64,
    (∀ fd buf, buf.UserBytes T → access fd buf = access' fd buf) → sys access = sys access'

/-- The pointer is not accessible, or the length is zero, or the slice lies in one half of the
addresses and the pages that it reaches behind its first one are mapped for the user. -/
def Covered (T : PageTable) (ptr len : UInt64) : Prop :=
  isUserAccessable T ptr = false ∨ len = 0 ∨
    (ptr.toNat + len.toNat ≤ 2 ^ 47 ∨
      2 ^ 64 - 2 ^ 47 ≤ ptr.toNat ∧ ptr.toNat + len.toNat < 2 ^ 64) ∧
    ∀ p, pageOf ptr.toNat < p → p ≤ pageOf (ptr.toNat + len.toNat - 1) → T.UserPage p

variable {T : PageTable} {ptr len : UInt64}

theorem isUserAccessable_iff : isUserAccessable T ptr ↔
    T.UserPage (pageOf (virtAddrTruncate ptr.toNat)) := by
  unfold isUserAccessable PageTable.translate PageTable.UserPage
  rcases T (pageOf (virtAddrTruncate ptr.toNat)) with _ | entry
  · simp
  · simp

theorem virtAddrTruncate_canonical {a : ℕ} (h : canonical a) : virtAddrTruncate a = a := by
  have hU : U64 = 2 ^ 64 := rfl
  unfold virtAddrTruncate
  rcases canonical_iff.mp h with h | h
  · rw [if_pos (by omega)]
    omega
  · rw [if_neg (by omega)]
    omega

/-- The bytes of a slice that does not leave its half of the addresses. -/
theorem userByte_covered {addr : ℕ} (hptr : isUserAccessable T ptr) (hcov : Covered T ptr len)
    (hle : ptr.toNat ≤ addr) (hlt : addr < ptr.toNat + len.toNat) : T.UserByte addr := by
  have hlen : len ≠ 0 := by
    rintro rfl
    exact absurd hlt (by simpa using hle)
  obtain ⟨hhalf, hpages⟩ := (hcov.resolve_left (by simp [hptr])).resolve_left hlen
  have hcan : ∀ a, ptr.toNat ≤ a → a < ptr.toNat + len.toNat → canonical a = true := fun a _ _ =>
    canonical_iff.mpr (by omega)
  refine ⟨hcan addr hle hlt, ?_⟩
  have hfirst : pageOf ptr.toNat ≤ pageOf addr := Nat.div_le_div_right hle
  rcases hfirst.eq_or_lt with heq | hbehind
  · have hsame := isUserAccessable_iff.mp hptr
    rwa [virtAddrTruncate_canonical (hcan _ le_rfl (by omega)), heq] at hsame
  · exact hpages _ hbehind (Nat.div_le_div_right (by omega))

/-- If the bytes of a slice exist, then it does not leave its half of the addresses. -/
theorem half_of_canonical {a n : ℕ} (hn : 0 < n) (hlt : a + n < 2 ^ 64)
    (h : ∀ x, a ≤ x → x < a + n → canonical x = true) :
    a + n ≤ 2 ^ 47 ∨ 2 ^ 64 - 2 ^ 47 ≤ a ∧ a + n < 2 ^ 64 := by
  rcases canonical_iff.mp (h a le_rfl (by omega)) with hlow | hhigh
  · refine Or.inl (le_of_not_gt fun hleaves => ?_)
    -- the slice would contain the first address that does not exist
    have hgap := canonical_iff.mp (h (2 ^ 47) (by omega) hleaves)
    omega
  · exact Or.inr ⟨hhigh.1, hlt⟩

/-- **The bytes of a slice.**  A slice with an accessible pointer consists of bytes of the user
exactly when it is covered. -/
theorem userBytes_iff (hptr : isUserAccessable T ptr) :
    (RawSlice.mk ptr len).UserBytes T ↔ Covered T ptr len := by
  constructor
  · rintro ⟨hwrap, hbytes⟩
    by_cases hlen : len = 0
    · exact Or.inr (Or.inl hlen)
    have hpos : 0 < len.toNat := Nat.pos_of_ne_zero fun h => hlen (UInt64.toNat_inj.mp h)
    refine Or.inr (Or.inr ⟨half_of_canonical hpos hwrap fun x hle hlt => (hbytes x hle hlt).1,
      fun p hbehind hlast => ?_⟩)
    have hstart : ptr.toNat < startAddress p := (Nat.div_lt_iff_lt_mul (by decide)).mp hbehind
    have hend : startAddress p ≤ ptr.toNat + len.toNat - 1 :=
      (Nat.le_div_iff_mul_le (by decide)).mp hlast
    have hlt : startAddress p < ptr.toNat + len.toNat := by omega
    have huser := (hbytes (startAddress p) hstart.le hlt).2
    rwa [pageOf_startAddress] at huser
  · intro hcov
    refine ⟨?_, fun addr hle hlt => userByte_covered hptr hcov hle hlt⟩
    rcases hcov.resolve_left (by simp [hptr]) with rfl | ⟨hhalf, -⟩
    · exact ptr.toNat_lt
    · show ptr.toNat + len.toNat < 2 ^ 64
      omega

/-- What a system call can do with a slice that it passes on. -/
theorem contained_iff {buf : RawSlice} {fd : UInt8} :
    Contained T (fun access => (access fd buf).toUInt64) ↔ buf.UserBytes T := by
  classical
  constructor
  · intro h
    by_contra hbuf
    have hsame : Int64.toUInt64 0 = (if buf.UserBytes T then (0 : Int64) else 1).toUInt64 :=
      h (fun _ _ => 0) (fun _ s => if s.UserBytes T then 0 else 1) fun _ s hs => (if_pos hs).symm
    rw [if_neg hbuf] at hsame
    exact absurd hsame (by decide)
  · intro hbuf access access' hagree
    exact congrArg Int64.toUInt64 (hagree fd buf hbuf)

theorem asUserSlice_eq : asUserSlice T ptr len =
    if isUserAccessable T ptr then some ⟨ptr, len⟩ else none := ite_not _ _ _

theorem asUserSliceMut_eq : asUserSliceMut T ptr len = asUserSlice T ptr len := rfl

theorem sysWrite_eq {args : SyscallArgs} : sysWrite T args =
    if isUserAccessable T args.arg1 then
      fun write => (write args.arg0.toUInt8 ⟨args.arg1, args.arg2⟩).toUInt64
    else fun _ => 0xffffffffffffffff := by
  funext write
  rw [sysWrite, asUserSlice_eq]
  by_cases h : isUserAccessable T args.arg1
  · simp only [if_pos h]
  · simp only [if_neg h]

theorem sysRead_eq {args : SyscallArgs} : sysRead T args = sysWrite T args := rfl

/-- **User slices.**  `as_user_slice` and `as_user_slice_mut` return slices with bytes of the user
only, and `sys_write` and `sys_read` pass on such slices only, exactly when the pointer is refused
or the further pages of the slice are mapped for the user. -/
theorem userSlice_iff (T : PageTable) (ptr len : UInt64) :
    ((∀ s ∈ asUserSlice T ptr len, s.UserBytes T) ↔ Covered T ptr len) ∧
    ((∀ s ∈ asUserSliceMut T ptr len, s.UserBytes T) ↔ Covered T ptr len) ∧
    ∀ sysno fd : UInt64, (Contained T (sysWrite T ⟨sysno, fd, ptr, len⟩) ↔ Covered T ptr len) ∧
      (Contained T (sysRead T ⟨sysno, fd, ptr, len⟩) ↔ Covered T ptr len) := by
  simp only [asUserSliceMut_eq, sysRead_eq, sysWrite_eq, asUserSlice_eq]
  by_cases hptr : isUserAccessable T ptr
  · have hslice : (∀ s ∈ some (RawSlice.mk ptr len), s.UserBytes T) ↔ Covered T ptr len := by
      rw [← userBytes_iff hptr]
      exact ⟨fun h => h _ rfl, fun h s hs => Option.some.inj hs ▸ h⟩
    simp only [if_pos hptr, contained_iff, userBytes_iff hptr]
    exact ⟨hslice, hslice, fun _ _ => ⟨trivial, trivial⟩⟩
  · have hcov : Covered T ptr len := Or.inl (Bool.eq_false_iff.mpr hptr)
    simp only [if_neg hptr]
    exact ⟨iff_of_true nofun hcov, iff_of_true nofun hcov, fun _ _ =>
      ⟨iff_of_true (fun _ _ _ => rfl) hcov, iff_of_true (fun _ _ _ => rfl) hcov⟩⟩

/-- The page `0x400` is the user's, and the page behind it is the kernel's. -/
def onePageMapped : PageTable := fun p =>
  if p = 0x400 then some ⟨7, ⟨true, true, false⟩⟩
  else if p = 0x401 then some ⟨8, ⟨true, false, false⟩⟩ else none

/-- The second byte of the slice is on a page of the kernel. -/
theorem kernel_byte_read : ¬ ∀ (T : PageTable) (ptr len : UInt64), ∀ s ∈ asUserSlice T ptr len,
    s.UserBytes T := by
  intro hall
  have hslice : asUserSlice onePageMapped 0x400fff 2 = some ⟨0x400fff, 2⟩ := by decide
  obtain ⟨-, entry, hentry, huser⟩ :=
    (hall onePageMapped 0x400fff 2 _ hslice).2 0x401000 (by decide) (by decide)
  have hpage : onePageMapped (pageOf 0x401000) = some ⟨8, ⟨true, false, false⟩⟩ := by decide
  rw [hpage] at hentry
  cases hentry
  cases huser

end Ysos
