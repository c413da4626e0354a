import Ysos.FileSystem

/-! # Bytes of a string

A string is a list of characters here, but the code counts its bytes and cuts it at indices of bytes.

* `splitAtByte`: a string before and from an index.
* `splitAtByte_isSome`: an index can be cut at exactly when a character starts or the string ends there. -/

namespace Ysos.Text

open Fat16

/-- `trim`. -/
def trim (s : Str) : Str := Str.trimEnd (s.dropWhile isWhitespace)

/-- `String::len`. -/
def byteLen (s : Str) : ℕ := s.bytes.length

/-- A string before and from an index of bytes, if a character starts or the string ends there. -/
def splitAtByte : Str → ℕ → Option (Str × Str)
  | s, 0 => some ([], s)
  | [], _ + 1 => none
  | c :: s, i + 1 =>
      if c.utf8Size ≤ i + 1 then
        (splitAtByte s (i + 1 - c.utf8Size)).map fun (a, b) => (c :: a, b)
      else none

/-- A character starts at the index, or the string ends there. -/
def IsCharBoundary (s : Str) (i : ℕ) : Prop := ∃ a b, s = a ++ b ∧ byteLen a = i

variable {s t a b : Str} {c : Char} {i k : ℕ} {bytes : List UInt8}

theorem byteLen_append (a b : Str) : byteLen (a ++ b) = byteLen a + byteLen b := by
  rw [byteLen, bytes_append, List.length_append]
  rfl

theorem byteLen_singleton (c : Char) : byteLen [c] = c.utf8Size := by
  rw [byteLen, Str.bytes, List.flatMap_singleton, String.length_utf8EncodeChar]

theorem byteLen_cons (c : Char) (s : Str) : byteLen (c :: s) = c.utf8Size + byteLen s := by
  rw [← List.singleton_append, byteLen_append, byteLen_singleton]

theorem utf8Size_ascii : c.utf8Size = 1 ↔ c.toNat < 0x80 := by
  rw [Char.utf8Size_eq_one_iff, UInt32.le_iff_toNat_le]
  exact Nat.lt_succ_iff.symm

theorem splitAtByte_zero (s : Str) : splitAtByte s 0 = some ([], s) := by
  cases s <;> rfl

theorem splitAtByte_cons (c : Char) (s : Str) (i : ℕ) : splitAtByte (c :: s) (c.utf8Size + i) =
    (splitAtByte s i).map fun (a, b) => (c :: a, b) := by
  have hpos := c.utf8Size_pos
  obtain ⟨j, hj⟩ : ∃ j, c.utf8Size + i = j + 1 := ⟨c.utf8Size + i - 1, by omega⟩
  rw [hj, splitAtByte, if_pos (by omega), ← hj, Nat.add_sub_cancel_left]

theorem splitAtByte_append (a b : Str) : splitAtByte (a ++ b) (byteLen a) = some (a, b) := by
  induction a with
  | nil => exact splitAtByte_zero b
  | cons c a ih =>
      rw [List.cons_append, byteLen_cons, splitAtByte_cons, ih]
      rfl

theorem splitAtByte_inside (a b : Str) (h0 : 0 < k) (hk : k < c.utf8Size) :
    splitAtByte (a ++ c :: b) (byteLen a + k) = none := by
  induction a with
  | nil =>
      obtain ⟨k, rfl⟩ := Nat.exists_eq_add_of_lt h0
      rw [show byteLen [] + (0 + k + 1) = k + 1 from by simp [byteLen, Str.bytes]]
      exact if_neg (by omega)
  | cons d a ih =>
      rw [List.cons_append, byteLen_cons, Nat.add_assoc, splitAtByte_cons, ih]
      rfl

theorem isCharBoundary_append (a b : Str) : IsCharBoundary (a ++ b) (byteLen a) := ⟨a, b, rfl, rfl⟩

theorem not_isCharBoundary (a b : Str) (h0 : 0 < k) (hk : k < c.utf8Size) :
    ¬ IsCharBoundary (a ++ c :: b) (byteLen a + k) := by
  rintro ⟨a', b', hs, hlen⟩
  have hsplit := splitAtByte_inside a b h0 hk
  rw [hs, ← hlen, splitAtByte_append] at hsplit
  cases hsplit

theorem byteLen_eq_zero : byteLen s = 0 ↔ s = [] := by
  cases s with
  | nil => exact ⟨fun _ => rfl, fun _ => rfl⟩
  | cons c s =>
      have := c.utf8Size_pos
      rw [byteLen_cons]
      exact ⟨fun h => by omega, nofun⟩

/-- A boundary behind a part of a text is one of the rest. -/
theorem isCharBoundary_add :
    IsCharBoundary (s ++ t) (byteLen s + i) ↔ IsCharBoundary t i := by
  constructor
  · rintro ⟨a, b, hab, hlen⟩
    rcases List.append_eq_append_iff.mp hab with ⟨a', rfl, rfl⟩ | ⟨b', rfl, rfl⟩
    · rw [byteLen_append] at hlen
      exact ⟨a', b, rfl, Nat.add_left_cancel hlen⟩
    · rw [byteLen_append] at hlen
      obtain rfl := byteLen_eq_zero.mp (show byteLen b' = 0 by omega)
      exact ⟨[], t, rfl, by rw [byteLen_eq_zero.mpr rfl]; omega⟩
  · rintro ⟨a, b, rfl, rfl⟩
    exact ⟨s ++ a, b, (List.append_assoc _ _ _).symm, byteLen_append _ _⟩

theorem splitAtByte_isSome : (splitAtByte s i).isSome = true ↔ IsCharBoundary s i := by
  constructor
  · intro h
    induction s generalizing i with
    | nil =>
        cases i with
        | zero => exact ⟨[], [], rfl, rfl⟩
        | succ i => cases h
    | cons c s ih =>
        cases i with
        | zero => exact ⟨[], c :: s, rfl, rfl⟩
        | succ i =>
            rw [splitAtByte] at h
            split_ifs at h with hsize
            · rw [Option.isSome_map] at h
              obtain ⟨a, b, rfl, hlen⟩ := ih h
              exact ⟨c :: a, b, rfl, by rw [byteLen_cons, hlen]; omega⟩
            · cases h
  · rintro ⟨a, b, rfl, rfl⟩
    rw [splitAtByte_append]
    rfl

/-! ### Decoding -/

theorem bytes_of_fromUtf8 (h : fromUtf8 bytes = some s) : s.bytes = bytes := by
  have hsome : bytes.toByteArray.utf8Decode?.isSome := by
    rw [fromUtf8] at h
    obtain ⟨a, ha, -⟩ := Option.map_eq_some_iff.mp h
    exact Option.isSome_of_eq_some ha
  obtain ⟨t, ht⟩ := ByteArray.isSome_utf8Decode?_iff.mp hsome
  have hbytes : Str.bytes t = bytes := by
    have hdata := congrArg (fun a => a.data.toList) ht
    simpa [List.utf8Encode, Str.bytes] using hdata.symm
  rw [← hbytes, fromUtf8_bytes] at h
  rw [← Option.some.inj h, hbytes]

end Ysos.Text
