import Ysos.Fat16

/-! # Directory entries

The 32 bytes of a directory entry, and short file names.

* `DirEntry.parse`: the entry in a slot of a directory.
* `ShortFileName.parse`: the short name of a component of a path; an extension of more than three
  bytes panics.
* `DirEntry.parse_isValid`, `DirEntry.parse_isLongName`: what the bytes of a slot say about the
  entry in it. -/

namespace Ysos.Fat16

/-! ### Times -/

def isLeapYear (year : ℕ) : Bool := year % 4 = 0 ∧ (year % 100 ≠ 0 ∨ year % 400 = 0)

def daysInMonth (year month : ℕ) : ℕ :=
  match month with
  | 2 => if isLeapYear year then 29 else 28
  | 4 | 6 | 9 | 11 => 30
  | _ => 31

/-- An instant of a valid day, in UTC and to the second. -/
structure FsTime where
  year : ℕ
  month : ℕ
  day : ℕ
  hour : ℕ
  min : ℕ
  sec : ℕ
  valid : 1 ≤ month ∧ month ≤ 12 ∧ 1 ≤ day ∧ day ≤ daysInMonth year month ∧
    hour < 24 ∧ min < 60 ∧ sec < 60
  deriving DecidableEq

/-- `from_timestamp_millis(0)`. -/
def FsTime.epoch : FsTime := ⟨1970, 1, 1, 0, 0, 0, by decide⟩

/-- `Utc.with_ymd_and_hms`, if there is a single such instant. -/
def withYmdAndHms (year month day hour min sec : ℕ) : Option FsTime :=
  if h : 1 ≤ month ∧ month ≤ 12 ∧ 1 ≤ day ∧ day ≤ daysInMonth year month ∧ hour < 24 ∧ min < 60 ∧
      sec < 60 then
    some ⟨year, month, day, hour, min, sec, h⟩
  else none

def parseDatetime (date time : ℕ) : FsTime :=
  let year := ((date >>> 9) &&& 0x7F) + 1980
  let month := (date >>> 5) &&& 0x0F
  let day := date &&& 0x1F
  let hour := (time >>> 11) &&& 0x1F
  let min := (time >>> 5) &&& 0x3F
  let sec := (time &&& 0x1F) * 2
  if month = 0 ∨ month > 12 ∨ day = 0 ∨ day > 31 ∨ hour > 23 ∨ min > 59 ∨ sec > 59 then .epoch
  else (withYmdAndHms year month day hour min sec).getD .epoch

/-! ### Short file names -/

structure ShortFileName where
  name : Vector UInt8 8
  ext : Vector UInt8 3
  deriving DecidableEq

/-- A string, by its characters. -/
abbrev Str := List Char

/-- `bytes`: the UTF-8 encoding. -/
def Str.bytes (s : Str) : List UInt8 := s.flatMap String.utf8EncodeChar

/-- `to_uppercase`, where `upper` gives the upper case of the characters outside ASCII. -/
def Str.toUppercase (upper : Char → Str) (s : Str) : Str :=
  s.flatMap fun c => if c.toNat < 128 then [c.toUpper] else upper c

/-- A slice of bytes in an array filled with spaces. -/
def padded (n : ℕ) (bytes : List UInt8) : Vector UInt8 n :=
  ⟨((bytes ++ List.replicate n 0x20).take n).toArray, by simp⟩

def INVALID_CHARS : List UInt8 :=
  (List.range 0x21).map UInt8.ofNat ++ [0x22, 0x2A, 0x2B, 0x2C, 0x2F, 0x3A, 0x3B, 0x3C, 0x3D,
    0x3E, 0x3F, 0x5B, 0x5C, 0x5D, 0x7C]

namespace ShortFileName

/-- The name in the first 11 bytes of an entry. -/
def new (data : Vector UInt8 ENTRY_LEN) : ShortFileName :=
  ⟨#v[data[0], data[1], data[2], data[3], data[4], data[5], data[6], data[7]],
    #v[data[8], data[9], data[10]]⟩

def isEod (f : ShortFileName) : Bool := f.name[0] = 0x00 ∧ f.ext[0] = 0x00

def isUnused (f : ShortFileName) : Bool := f.name[0] = 0xE5

/-- The test of `Display`, which then leaves the extension out. -/
abbrev Extensionless (f : ShortFileName) : Prop := f.ext[0] = 0x20

/-- `parse`; the bytes of the extension are copied to an array of three without a check. -/
def parse (upper : Char → Str) (name : Str) : Fs ShortFileName :=
  if name = [] then .error (.err (.fileNameError .filenameEmpty))
  else if name.bytes.any fun byte => byte ∈ INVALID_CHARS then
    .error (.err (.fileNameError .invalidCharacter))
  else
    let nameUpper := name.toUppercase upper
    if '.' ∈ nameUpper then
      let basename := Str.bytes (nameUpper.takeWhile (· ≠ '.'))
      let extension := Str.bytes (nameUpper.dropWhile (· ≠ '.')).tail
      let dotPos := basename.length
      if basename.length > 8 then .error (.err (.fileNameError .nameTooLong))
      else if dotPos > 8 then .error (.err (.fileNameError .misplacedPeriod))
      else if extension.length > 3 then .error .panic
      else .ok ⟨padded 8 basename, padded 3 extension⟩
    else if nameUpper.bytes.length > 8 then .error (.err (.fileNameError .nameTooLong))
    else .ok ⟨padded 8 nameUpper.bytes, padded 3 []⟩

end ShortFileName

/-! ### Entries -/

structure Attributes where
  bits : UInt8
  deriving DecidableEq

namespace Attributes

def VOLUME_ID : Attributes := ⟨0x08⟩
def DIRECTORY : Attributes := ⟨0x10⟩
def LFN : Attributes := ⟨0x0f⟩

/-- The bits of all flags. -/
def fromBitsTruncate (bits : UInt8) : Attributes := ⟨bits &&& 0x3F⟩

def contains (a flag : Attributes) : Bool := a.bits &&& flag.bits = flag.bits

end Attributes

structure DirEntry where
  filename : ShortFileName
  modifiedTime : FsTime
  createdTime : FsTime
  accessedTime : FsTime
  cluster : Cluster
  attributes : Attributes
  size : ℕ
  deriving DecidableEq

/-- The bytes of an entry. -/
abbrev Slot := Vector UInt8 ENTRY_LEN

namespace DirEntry

def isValid (e : DirEntry) : Bool := !e.filename.isUnused && !e.filename.isEod

def isDirectory (e : DirEntry) : Bool := e.attributes.contains .DIRECTORY

def isFile (e : DirEntry) : Bool := !e.isDirectory && !e.attributes.contains .VOLUME_ID

def isLongName (e : DirEntry) : Bool := e.attributes.contains .LFN

def parse (data : Slot) : FsResult DirEntry :=
  let createdTime := parseDatetime (u16FromLeBytes data[16] data[17])
    (u16FromLeBytes data[14] data[15])
  let accessedTime := parseDatetime (u16FromLeBytes data[18] data[19]) 0
  let clusterHi := u16FromLeBytes data[20] data[21]
  let clusterLo := u16FromLeBytes data[26] data[27]
  let modifiedTime := parseDatetime (u16FromLeBytes data[24] data[25])
    (u16FromLeBytes data[22] data[23])
  .ok
    { filename := ShortFileName.new data
      modifiedTime := modifiedTime
      createdTime := createdTime
      accessedTime := accessedTime
      cluster := ⟨(clusterHi <<< 16) ||| clusterLo⟩
      attributes := .fromBitsTruncate data[11]
      size := u32FromLeBytes data[28] data[29] data[30] data[31] }

end DirEntry

/-! ### Slots -/

/-- The end mark of a directory. -/
def isEnd (data : Slot) : Bool := data[0] = 0x00

def isDeleted (data : Slot) : Bool := data[0] = 0xE5

namespace DirEntry

/-- The slots of long file names. -/
def isLongNameSlot (data : Slot) : Bool := data[11] &&& 0x0F = 0x0F

variable {data : Slot} {e : DirEntry}

theorem parse_isValid (h : parse data = .ok e) (hend : isEnd data = false)
    (hdel : isDeleted data = false) : e.isValid = true := by
  cases h
  have hne : data[0] ≠ 0x00 := of_decide_eq_false hend
  have hne' : data[0] ≠ 0xE5 := of_decide_eq_false hdel
  simp [isValid, ShortFileName.isUnused, ShortFileName.isEod, ShortFileName.new, hne, hne']

/-- The attribute byte loses its upper two bits only. -/
theorem parse_isLongName (h : parse data = .ok e) : e.isLongName = isLongNameSlot data := by
  cases h
  have hmask : (0x3F : UInt8) &&& 0x0F = 0x0F := by decide
  simp [isLongName, isLongNameSlot, Attributes.contains, Attributes.fromBitsTruncate,
    Attributes.LFN, UInt8.and_assoc, hmask]

end DirEntry
end Ysos.Fat16
