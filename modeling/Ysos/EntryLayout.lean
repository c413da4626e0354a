import Ysos.DirEntry

/-! # The layout of a directory entry

The 32 bytes of an entry, with its numbers in little endian and its stamps packed into bit fields.

* `Layout.bytes`: the bytes of the fields.
* `FsTime.Packed`: the date and the time of an instant, as they are packed.
* `parse_layout`: `parse` gives the fields back. -/

namespace Ysos.Fat16

/-! ### Stamps -/

/-- A date and a time hold an instant between 1980 and 2107, at an even second. -/
structure FsTime.Packed (t : FsTime) (date time : ℕ) : Prop where
  first : 1980 ≤ t.year
  last : t.year ≤ 2107
  even : 2 ∣ t.sec
  date : date = (t.year - 1980) * 512 + t.month * 32 + t.day
  time : time = t.hour * 2048 + t.min * 32 + t.sec / 2

variable {t : FsTime} {date time : ℕ}

theorem daysInMonth_le (year month : ℕ) : daysInMonth year month ≤ 31 := by
  unfold daysInMonth
  split
  · split_ifs <;> omega
  all_goals omega

theorem fields_eq (date time : ℕ) :
    ((date >>> 9) &&& 0x7F) = date / 512 % 128 ∧ ((date >>> 5) &&& 0x0F) = date / 32 % 16 ∧
      date &&& 0x1F = date % 32 ∧ ((time >>> 11) &&& 0x1F) = time / 2048 % 32 ∧
      ((time >>> 5) &&& 0x3F) = time / 32 % 64 ∧ time &&& 0x1F = time % 32 := by
  simp only [Nat.shiftRight_eq_div_pow]
  exact ⟨Nat.and_two_pow_sub_one_eq_mod _ 7, Nat.and_two_pow_sub_one_eq_mod _ 4,
    Nat.and_two_pow_sub_one_eq_mod _ 5, Nat.and_two_pow_sub_one_eq_mod _ 5,
    Nat.and_two_pow_sub_one_eq_mod _ 6, Nat.and_two_pow_sub_one_eq_mod _ 5⟩

theorem parseDatetime_packed (h : t.Packed date time) : parseDatetime date time = t := by
  obtain ⟨year, month, day, hour, min, sec, hvalid⟩ := t
  obtain ⟨hfirst, hlast, heven, hdate, htime⟩ := h
  obtain ⟨hm1, hm12, hd1, hd, hh, hmin, hsec⟩ := id hvalid
  have hday := hd.trans (daysInMonth_le year month)
  obtain ⟨f1, f2, f3, f4, f5, f6⟩ := fields_eq date time
  simp only at hfirst hlast heven hdate htime hm1 hm12 hd1 hd hday hh hmin hsec
  have e1 : date / 512 % 128 + 1980 = year := by omega
  have e2 : date / 32 % 16 = month := by omega
  have e3 : date % 32 = day := by omega
  have e4 : time / 2048 % 32 = hour := by omega
  have e5 : time / 32 % 64 = min := by omega
  have e6 : time % 32 * 2 = sec := by omega
  simp only [parseDatetime, f1, f2, f3, f4, f5, f6, e1, e2, e3, e4, e5, e6]
  rw [if_neg (by omega), withYmdAndHms, dif_pos hvalid]
  rfl

/-- What is no packed instant is parsed to the Unix epoch. -/
theorem parseDatetime_epoch (hdate : date < 2 ^ 16) (htime : time < 2 ^ 16)
    (h : ∀ t : FsTime, ¬ t.Packed date time) : parseDatetime date time = .epoch := by
  obtain ⟨f1, f2, f3, f4, f5, f6⟩ := fields_eq date time
  simp only [parseDatetime, f1, f2, f3, f4, f5, f6]
  split_ifs
  · rfl
  · rw [withYmdAndHms]
    split_ifs with hvalid
    · refine absurd ⟨?_, ?_, ?_, ?_, ?_⟩ (h ⟨_, _, _, _, _, _, hvalid⟩)
      · exact Nat.le_add_left _ _
      · simp only
        omega
      · exact Nat.dvd_mul_left _ _
      · simp only
        omega
      · simp only
        omega
    · rfl

/-- What a stamp is parsed to. -/
structure Stamp (date time : ℕ) (parsed : FsTime) : Prop where
  instant : ∀ t : FsTime, t.Packed date time → parsed = t
  other : (∀ t : FsTime, ¬ t.Packed date time) → parsed = .epoch

theorem stamp_parseDatetime (hdate : date < 2 ^ 16) (htime : time < 2 ^ 16) :
    Stamp date time (parseDatetime date time) :=
  ⟨fun _ => parseDatetime_packed, parseDatetime_epoch hdate htime⟩

theorem Stamp.midnight (h : Stamp date 0 t) : t.hour = 0 ∧ t.min = 0 ∧ t.sec = 0 := by
  by_cases hpacked : ∃ t : FsTime, t.Packed date 0
  · obtain ⟨t', ht'⟩ := hpacked
    obtain rfl := h.instant t' ht'
    have htime := ht'.time
    have heven := ht'.even
    omega
  · rw [h.other (not_exists.mp hpacked)]
    exact ⟨rfl, rfl, rfl⟩

/-! ### Entries -/

/-- The fields of the 32 bytes; there is an access date only, and two bytes are reserved. -/
structure Layout where
  name : Vector UInt8 11
  attributes : UInt8
  reserved : Vector UInt8 2
  createdTime : UInt16
  createdDate : UInt16
  accessedDate : UInt16
  modifiedTime : UInt16
  modifiedDate : UInt16
  cluster : UInt32
  size : UInt32

/-- The bytes of a number of 16 bits, the lower one first. -/
def lo (w : UInt16) : UInt8 := w.toUInt8

def hi (w : UInt16) : UInt8 := (w >>> 8).toUInt8

def Layout.bytes (f : Layout) : Slot :=
  let clusterHi := (f.cluster >>> 16).toUInt16
  let clusterLo := f.cluster.toUInt16
  let sizeHi := (f.size >>> 16).toUInt16
  let sizeLo := f.size.toUInt16
  #v[f.name[0], f.name[1], f.name[2], f.name[3], f.name[4], f.name[5], f.name[6], f.name[7],
    f.name[8], f.name[9], f.name[10], f.attributes, f.reserved[0], f.reserved[1],
    lo f.createdTime, hi f.createdTime, lo f.createdDate, hi f.createdDate,
    lo f.accessedDate, hi f.accessedDate, lo clusterHi, hi clusterHi,
    lo f.modifiedTime, hi f.modifiedTime, lo f.modifiedDate, hi f.modifiedDate,
    lo clusterLo, hi clusterLo, lo sizeLo, hi sizeLo, lo sizeHi, hi sizeHi]

theorem u16FromLeBytes_lo_hi (w : UInt16) : u16FromLeBytes (lo w) (hi w) = w.toNat := by
  have h := w.toNat_lt
  simp only [u16FromLeBytes, lo, hi, UInt16.toNat_toUInt8, UInt16.toNat_shiftRight,
    UInt16.reduceToNat, Nat.reduceMod, Nat.shiftRight_eq_div_pow]
  omega

theorem halves_toNat (x : UInt32) :
    x.toUInt16.toNat + 2 ^ 16 * (x >>> 16).toUInt16.toNat = x.toNat ∧
      (x >>> 16).toUInt16.toNat <<< 16 ||| x.toUInt16.toNat = x.toNat := by
  have h := x.toNat_lt
  have hsum : x.toUInt16.toNat + 2 ^ 16 * (x >>> 16).toUInt16.toNat = x.toNat := by
    simp only [UInt32.toNat_toUInt16, UInt32.toNat_shiftRight, UInt32.reduceToNat, Nat.reduceMod,
      Nat.shiftRight_eq_div_pow]
    omega
  refine ⟨hsum, ?_⟩
  rw [← Nat.shiftLeft_add_eq_or_of_lt x.toUInt16.toNat_lt, Nat.shiftLeft_eq, ← hsum, Nat.add_comm,
    Nat.mul_comm]

/-- **The layout of an entry.**  `parse` gives the name, the six attributes, the cluster and the size of the
fields; a stamp is the instant that it holds, or the Unix epoch, and the access is at midnight. -/
theorem parse_layout (f : Layout) : ∃ e, DirEntry.parse f.bytes = .ok e ∧
    e.filename.name.toList ++ e.filename.ext.toList = f.name.toList ∧
    e.attributes.bits = f.attributes &&& 0x3F ∧
    e.cluster.val = f.cluster.toNat ∧ e.size = f.size.toNat ∧
    Stamp f.createdDate.toNat f.createdTime.toNat e.createdTime ∧
    Stamp f.modifiedDate.toNat f.modifiedTime.toNat e.modifiedTime ∧
    Stamp f.accessedDate.toNat 0 e.accessedTime ∧
    e.accessedTime.hour = 0 ∧ e.accessedTime.min = 0 ∧ e.accessedTime.sec = 0 := by
  have hstamp : ∀ date time : UInt16, Stamp date.toNat time.toNat
      (parseDatetime (u16FromLeBytes (lo date) (hi date)) (u16FromLeBytes (lo time) (hi time))) := by
    intro date time
    rw [u16FromLeBytes_lo_hi, u16FromLeBytes_lo_hi]
    exact stamp_parseDatetime date.toNat_lt time.toNat_lt
  have haccessed : Stamp f.accessedDate.toNat 0
      (parseDatetime (u16FromLeBytes (lo f.accessedDate) (hi f.accessedDate)) 0) := by
    rw [u16FromLeBytes_lo_hi]
    exact stamp_parseDatetime f.accessedDate.toNat_lt (by decide)
  refine ⟨_, rfl, ?_, rfl, ?_, ?_, hstamp _ _, hstamp _ _, haccessed, haccessed.midnight⟩
  · refine List.ext_getElem (by simp [ShortFileName.new]) fun i hi hi' => ?_
    rw [Vector.length_toList] at hi'
    interval_cases i <;> rfl
  · change u16FromLeBytes (lo _) (hi _) <<< 16 ||| u16FromLeBytes (lo _) (hi _) = f.cluster.toNat
    rw [u16FromLeBytes_lo_hi, u16FromLeBytes_lo_hi, (halves_toNat f.cluster).2]
  · change u16FromLeBytes (lo _) (hi _) + 2 ^ 16 * u16FromLeBytes (lo _) (hi _) = f.size.toNat
    rw [u16FromLeBytes_lo_hi, u16FromLeBytes_lo_hi, (halves_toNat f.size).1]

end Ysos.Fat16
