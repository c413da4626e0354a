import Ysos.Path
import Ysos.File

/-! # The file system

The calls on paths, `readDir`, `openFile`, `metadata` and `pathExists`, and the text of a short
name.

* `ShortFileName.parse_display`: the text of a valid short name parses to it.
* `listing_lookup`: what `readDir` lists, `metadata` finds again under its name. -/

namespace Ysos.Fat16

open Runs

/-! ### The text of a short name -/

/-- `core::str::from_utf8`. -/
def fromUtf8 (bytes : List UInt8) : Option Str := bytes.toByteArray.utf8Decode?.map Array.toList

def isWhitespace (c : Char) : Bool :=
  c.toNat ∈ [0x09, 0x0A, 0x0B, 0x0C, 0x0D, 0x20, 0x85, 0xA0, 0x1680, 0x2000, 0x2001, 0x2002, 0x2003,
    0x2004, 0x2005, 0x2006, 0x2007, 0x2008, 0x2009, 0x200A, 0x2028, 0x2029, 0x202F, 0x205F, 0x3000]

def Str.trimEnd (s : Str) : Str := s.rdropWhile isWhitespace

/-- `unwrap`. -/
def unwrap {β : Type} : Option β → Fs β
  | some b => .ok b
  | none => .error .panic

namespace ShortFileName

def basename (f : ShortFileName) : Fs Str := unwrap (fromUtf8 f.name.toList)

def extension (f : ShortFileName) : Fs Str := unwrap (fromUtf8 f.ext.toList)

/-- The text of `Display`. -/
def display (f : ShortFileName) : Fs Str :=
  if f.Extensionless then do
    let basename ← f.basename
    return basename.trimEnd
  else do
    let basename ← f.basename
    let extension ← f.extension
    return basename.trimEnd ++ '.' :: extension.trimEnd

end ShortFileName

/-! ### Calls on paths -/

inductive FileType where
  | file | directory
  deriving DecidableEq

structure Metadata where
  name : Str
  entryType : FileType
  len : ℕ
  created : Option FsTime
  modified : Option FsTime
  accessed : Option FsTime
  deriving DecidableEq

/-- The metadata of an entry, with the type that the caller gives. -/
def DirEntry.toMetadata (e : DirEntry) (entryType : FileType) : Fs Metadata := do
  let name ← e.filename.display
  return ⟨name, entryType, e.size, some e.createdTime, some e.modifiedTime, some e.accessedTime⟩

/-- The type that `read_dir` and `metadata` give an entry. -/
def DirEntry.entryType (e : DirEntry) : FileType := if e.isDirectory then .directory else .file

namespace Fat16Impl

variable (v : Fat16Impl) (upper : Char → Str) (fuel : ℕ)

/-- The first part of `read_dir`: the cluster of the directory. -/
def dirCluster (path : Str) : Fs Cluster :=
  if path = ['/'] ∨ path = [] then .ok .ROOT_DIR
  else do
    match ← v.findPath upper fuel path with
    | some entry => if entry.isDirectory then return entry.cluster else .error (.err .notADirectory)
    | none => .error (.err .notADirectory)

def readDir (path : Str) : Fs (List Metadata) := do
  let cluster ← v.dirCluster upper fuel path
  let entries ← v.readDirEntries fuel cluster
  entries.mapM fun entry => entry.toMetadata entry.entryType

def openFile (path : Str) : Fs (Metadata × File) := do
  match ← v.findPath upper fuel path with
  | some entry =>
      if entry.isFile then
        let file := File.new v entry
        let metadata ← entry.toMetadata .file
        return (metadata, file)
      else .error (.err .notAFile)
  | none => .error (.err .fileNotFound)

def metadata (path : Str) : Fs Metadata :=
  if path = ['/'] ∨ path = [] then .ok ⟨['/'], .directory, 0, none, none, none⟩
  else do
    match ← v.findPath upper fuel path with
    | some entry => entry.toMetadata entry.entryType
    | none => .error (.err .fileNotFound)

def pathExists (path : Str) : Fs Bool :=
  if path = ['/'] ∨ path = [] then .ok true
  else do
    let entry ← v.findPath upper fuel path
    return entry.isSome

end Fat16Impl

/-! ### Valid names -/

/-- A character of ASCII that `ShortFileName::parse` allows. -/
def IsAllowed (c : Char) : Prop := c.toNat < 128 ∧ UInt8.ofNat c.toNat ∉ INVALID_CHARS

/-- An upper-case character of ASCII that `ShortFileName::parse` allows, and no period. -/
def IsNameChar (c : Char) : Prop :=
  c.toNat < 128 ∧ c.toUpper = c ∧ c ≠ '.' ∧ UInt8.ofNat c.toNat ∉ INVALID_CHARS

/-- A base that is not empty and an extension, both padded with spaces. -/
structure ShortFileName.Valid (f : ShortFileName) (base ext : Str) : Prop where
  name_eq : f.name = padded 8 base.bytes
  ext_eq : f.ext = padded 3 ext.bytes
  nonempty : base ≠ []
  base_length : base.length ≤ 8
  ext_length : ext.length ≤ 3
  base_chars : ∀ c ∈ base, IsNameChar c
  ext_chars : ∀ c ∈ ext, IsNameChar c

/-- The entries `.` and `..`. -/
def ShortFileName.IsDot (f : ShortFileName) : Prop :=
  f.ext = padded 3 [] ∧ (f.name = padded 8 [0x2E] ∨ f.name = padded 8 [0x2E, 0x2E])

variable {s t : Str} {c : Char} {upper : Char → Str}

theorem utf8EncodeChar_ascii (h : c.toNat < 128) :
    String.utf8EncodeChar c = [UInt8.ofNat c.toNat] := by
  have hle : c.val.toNat ≤ 0x7f := Nat.le_of_lt_succ h
  rw [String.utf8EncodeChar]
  exact if_pos hle

theorem bytes_ascii (h : ∀ c ∈ s, c.toNat < 128) :
    s.bytes = s.map fun c => UInt8.ofNat c.toNat := by
  induction s with
  | nil => rfl
  | cons c s ih =>
      rw [Str.bytes, List.flatMap_cons, utf8EncodeChar_ascii (h c List.mem_cons_self)]
      exact congrArg _ (ih fun c hc => h c (List.mem_cons_of_mem _ hc))

theorem bytes_append (s t : Str) : Str.bytes (s ++ t) = s.bytes ++ t.bytes := List.flatMap_append

theorem bytes_length (h : ∀ c ∈ s, c.toNat < 128) : s.bytes.length = s.length := by
  rw [bytes_ascii h, List.length_map]

theorem fromUtf8_bytes (s : Str) : fromUtf8 s.bytes = some s := by
  rw [fromUtf8, Str.bytes, show (List.flatMap String.utf8EncodeChar s).toByteArray =
    List.utf8Encode s from rfl, List.utf8Decode?_utf8Encode]
  rfl

theorem padded_toList {n : ℕ} (hlen : s.bytes.length ≤ n) :
    (padded n s.bytes).toList = Str.bytes (s ++ List.replicate (n - s.bytes.length) ' ') := by
  have hspace : ∀ m, Str.bytes (List.replicate m ' ') = List.replicate m 0x20 := fun m => by
    rw [bytes_ascii fun c hc => by rw [List.eq_of_mem_replicate hc]; decide, List.map_replicate]
    rfl
  show ((s.bytes ++ List.replicate n 0x20).take n) = _
  rw [bytes_append, hspace, List.take_append, List.take_of_length_le hlen, List.take_replicate,
    min_eq_left (Nat.sub_le _ _)]

theorem fromUtf8_padded {n : ℕ} (hlen : s.bytes.length ≤ n) :
    fromUtf8 (padded n s.bytes).toList =
      some (s ++ List.replicate (n - s.bytes.length) ' ') := by
  rw [padded_toList hlen, fromUtf8_bytes]

theorem IsNameChar.isAllowed (h : IsNameChar c) : IsAllowed c := ⟨h.1, h.2.2.2⟩

theorem IsAllowed.not_whitespace (h : IsAllowed c) : isWhitespace c = false := by
  obtain ⟨hlt, hvalid⟩ := h
  have hspace : ∀ n < 128, n ∈ [0x09, 0x0A, 0x0B, 0x0C, 0x0D, 0x20, 0x85, 0xA0, 0x1680, 0x2000,
      0x2001, 0x2002, 0x2003, 0x2004, 0x2005, 0x2006, 0x2007, 0x2008, 0x2009, 0x200A, 0x2028, 0x2029,
      0x202F, 0x205F, 0x3000] → UInt8.ofNat n ∈ INVALID_CHARS := by decide
  exact decide_eq_false fun hmem => hvalid (hspace _ hlt hmem)

theorem trimEnd_spaces (h : ∀ c ∈ s, isWhitespace c = false) (n : ℕ) :
    Str.trimEnd (s ++ List.replicate n ' ') = s := by
  unfold Str.trimEnd
  induction n with
  | zero =>
      rw [List.replicate_zero, List.append_nil, List.rdropWhile_eq_self_iff]
      intro hne
      rw [h _ (List.getLast_mem hne)]
      exact Bool.false_ne_true
  | succ n ih =>
      rw [List.replicate_succ', ← List.append_assoc, List.rdropWhile_concat_pos _ _ _ (by decide), ih]

theorem display_part {n : ℕ} (h : ∀ c ∈ s, IsAllowed c) (hlen : s.length ≤ n) :
    ∃ b, unwrap (fromUtf8 (padded n s.bytes).toList) = .ok b ∧ b.trimEnd = s := by
  rw [fromUtf8_padded (by rwa [bytes_length fun c hc => (h c hc).1])]
  exact ⟨_, rfl, trimEnd_spaces (fun c hc => (h c hc).not_whitespace) _⟩

theorem extensionless_padded (base : Vector UInt8 8) (h : ∀ c ∈ s, IsAllowed c) :
    (⟨base, padded 3 s.bytes⟩ : ShortFileName).Extensionless ↔ s = [] := by
  show (padded 3 s.bytes)[0] = 0x20 ↔ s = []
  cases s with
  | nil => exact iff_of_true (by decide) rfl
  | cons c s =>
      have hc := h c List.mem_cons_self
      have hbytes : Str.bytes (c :: s) = UInt8.ofNat c.toNat :: Str.bytes s := by
        rw [Str.bytes, List.flatMap_cons, utf8EncodeChar_ascii hc.1]
        rfl
      have hzero : (padded 3 (Str.bytes (c :: s)))[0] = UInt8.ofNat c.toNat := by
        simp [padded, hbytes]
      rw [hzero]
      refine iff_of_false (fun he => hc.2 ?_) (List.cons_ne_nil _ _)
      rw [he]
      decide

namespace ShortFileName

variable {f : ShortFileName} {base ext : Str}

/-- The text of a valid name. -/
def text (base ext : Str) : Str := if ext = [] then base else base ++ '.' :: ext

theorem display_padded (hbase : ∀ c ∈ base, IsAllowed c) (hext : ∀ c ∈ ext, IsAllowed c)
    (hblen : base.length ≤ 8) (helen : ext.length ≤ 3) :
    display ⟨padded 8 base.bytes, padded 3 ext.bytes⟩ = .ok (text base ext) := by
  obtain ⟨b, hb, hbtrim⟩ := display_part hbase hblen
  obtain ⟨e, he, hetrim⟩ := display_part hext helen
  have hspace := extensionless_padded (padded 8 base.bytes) hext
  unfold display text
  by_cases hempty : ext = []
  · rw [if_pos (hspace.mpr hempty), if_pos hempty, basename, hb, ← hbtrim]
    rfl
  · rw [if_neg fun h0 => hempty (hspace.mp h0), if_neg hempty, basename, hb, extension, he, ← hbtrim,
      ← hetrim]
    rfl

theorem Valid.display_eq (h : f.Valid base ext) : f.display = .ok (text base ext) := by
  have hf : f = ⟨padded 8 base.bytes, padded 3 ext.bytes⟩ := by
    rw [← h.name_eq, ← h.ext_eq]
  rw [hf]
  exact display_padded (fun c hc => (h.base_chars c hc).isAllowed)
    (fun c hc => (h.ext_chars c hc).isAllowed) h.base_length h.ext_length

theorem Valid.text_chars (h : f.Valid base ext) : ∀ c ∈ text base ext, IsNameChar c ∨ c = '.' := by
  intro c hc
  unfold text at hc
  split_ifs at hc
  · exact Or.inl (h.base_chars c hc)
  · rcases List.mem_append.mp hc with hc | hc
    · exact Or.inl (h.base_chars c hc)
    · rcases List.mem_cons.mp hc with rfl | hc
      · exact Or.inr rfl
      · exact Or.inl (h.ext_chars c hc)

theorem Valid.text_ne_nil (h : f.Valid base ext) : text base ext ≠ [] := by
  unfold text
  split_ifs
  · exact h.nonempty
  · exact List.append_ne_nil_of_left_ne_nil h.nonempty _

theorem toUppercase_text (hs : ∀ c ∈ s, IsNameChar c ∨ c = '.') : s.toUppercase upper = s := by
  induction s with
  | nil => rfl
  | cons c s ih =>
      have hc : c.toNat < 128 ∧ c.toUpper = c := by
        rcases hs c List.mem_cons_self with hc | rfl
        · exact ⟨hc.1, hc.2.1⟩
        · decide
      rw [Str.toUppercase, List.flatMap_cons, if_pos hc.1, hc.2]
      exact congrArg _ (ih fun c hc => hs c (List.mem_cons_of_mem _ hc))

/-- **Short names.**  The text of a valid short name parses to it. -/
theorem parse_display (h : f.Valid base ext) : parse upper (text base ext) = .ok f := by
  have hchars := h.text_chars
  have hascii : ∀ c ∈ text base ext, c.toNat < 128 := fun c hc => by
    rcases hchars c hc with hc | rfl
    · exact hc.1
    · decide
  have hvalid : ¬ ((text base ext).bytes.any fun byte => byte ∈ INVALID_CHARS) := by
    rw [bytes_ascii hascii]
    simp only [List.any_map, List.any_eq_true, not_exists, not_and]
    intro c hc hmem
    rcases hchars c hc with hc | rfl
    · exact hc.2.2.2 (of_decide_eq_true hmem)
    · exact absurd hmem (by decide)
  have hbase : ∀ c ∈ base, c.toNat < 128 := fun c hc => (h.base_chars c hc).1
  have hext : ∀ c ∈ ext, c.toNat < 128 := fun c hc => (h.ext_chars c hc).1
  have hnodot : '.' ∉ base := fun hdot => (h.base_chars _ hdot).2.2.1 rfl
  have hblen : ¬ base.bytes.length > 8 := by
    rw [bytes_length hbase]
    exact Nat.not_lt.mpr h.base_length
  have helen : ¬ ext.bytes.length > 3 := by
    rw [bytes_length hext]
    exact Nat.not_lt.mpr h.ext_length
  have hf : f = ⟨padded 8 base.bytes, padded 3 ext.bytes⟩ := by
    rw [← h.name_eq, ← h.ext_eq]
  rw [parse, if_neg h.text_ne_nil, if_neg hvalid, toUppercase_text hchars]
  by_cases hempty : ext = []
  · subst hempty
    simp only [text, if_true, if_neg hnodot, if_neg hblen]
    rw [hf]
    rfl
  · have hbefore : ∀ c ∈ base, (c ≠ '.' : Bool) = true := fun c hc =>
      decide_eq_true (h.base_chars c hc).2.2.1
    have htake : (base ++ '.' :: ext).takeWhile (· ≠ '.') = base := by
      rw [List.takeWhile_append_of_pos hbefore]
      simp
    have hdrop : (base ++ '.' :: ext).dropWhile (· ≠ '.') = '.' :: ext := by
      rw [List.dropWhile_append_of_pos hbefore]
      simp
    have hmem : '.' ∈ base ++ '.' :: ext := List.mem_append_right _ List.mem_cons_self
    simp only [text, if_neg hempty, if_pos hmem, htake, hdrop, List.tail_cons, if_neg hblen,
      if_neg helen]
    rw [hf]

theorem IsDot.display_eq (h : f.IsDot) : f.display = .ok ['.'] ∨ f.display = .ok ['.', '.'] := by
  have hspace : f.Extensionless := by
    rw [Extensionless, h.1]
    decide
  have hdots : ∀ s : Str, (∀ c ∈ s, c = '.') → s.length ≤ 8 → f.name = padded 8 s.bytes →
      f.display = .ok s := fun s hs hlen hname => by
    obtain ⟨b, hb, hbtrim⟩ := display_part (s := s) (n := 8)
      (fun c hc => by rw [hs c hc]; exact ⟨by decide, by decide⟩) hlen
    rw [← hname] at hb
    rw [display, if_pos hspace, basename, hb, ← hbtrim]
    rfl
  refine h.2.imp (fun hname => hdots _ (by simp) (by decide) (hname.trans ?_))
    fun hname => hdots _ (by simp) (by decide) (hname.trans ?_)
  · rfl
  · rfl

end ShortFileName

/-! ### Listing and look-up -/

variable {v : Fat16Impl} {n : ℕ} {dir : Cluster} {e : DirEntry} {es : List DirEntry}

theorem mem_of_mapM {α β ε : Type} {f : α → Except ε β} {xs : List α} {ys : List β} {y : β}
    (h : xs.mapM f = .ok ys) (hy : y ∈ ys) : ∃ x ∈ xs, f x = .ok y := by
  obtain ⟨i, hi, rfl⟩ := List.getElem_of_mem hy
  have hf := mapM_eq_ok.mp h
  have hi' : i < xs.length := hf.length_eq ▸ hi
  exact ⟨xs[i], List.getElem_mem hi', hf.get hi' hi⟩

/-- An entry with a name that only dot entries share. -/
theorem lookup_of_distinct
    (h : es.Pairwise fun a b => a.filename = b.filename → a.filename.IsDot) (he : e ∈ es)
    (hdot : ¬ e.filename.IsDot) : lookup es e.filename = some e := by
  induction h with
  | nil => cases he
  | @cons a es ha _ ih =>
      rw [lookup, List.find?_cons]
      rcases List.mem_cons.mp he with rfl | he
      · rw [decide_eq_true rfl]
      · have hne : a.filename ≠ e.filename := fun heq => hdot (heq ▸ ha e he heq)
        rw [decide_eq_false hne]
        exact ih he

namespace Fat16Impl

theorem findParts_last {x : Str} {i : ℕ} :
    v.findParts upper n (i + 1) i [x] dir = v.findEntry upper n dir x := by
  rw [findParts]
  cases v.findEntry upper n dir x with
  | error stop => rfl
  | ok found =>
      cases found with
      | none => rfl
      | some entry => exact if_pos rfl

/-- One more component after a path to a directory. -/
theorem findParts_append {x : Str} (hdir : e.isDirectory = true) :
    ∀ {parts : List Str} {i length : ℕ} {dir : Cluster}, i + parts.length = length →
      v.findParts upper n length i parts dir = .ok (some e) →
      v.findParts upper n (length + 1) i (parts ++ [x]) dir = v.findEntry upper n e.cluster x
  | [], i, length, dir, _, h => by cases h
  | part :: parts, i, length, dir, hlen, h => by
      rw [List.length_cons] at hlen
      rw [findParts, bind_eq_ok] at h
      obtain ⟨found, hfound, h⟩ := h
      cases found with
      | none => cases h
      | some entry =>
          have hmid : i ≠ length + 1 - 1 := by omega
          rw [List.cons_append, findParts, hfound]
          simp only [bind, Except.bind, if_neg hmid]
          by_cases hlast : i = length - 1
          · simp only [if_pos hlast] at h
            cases h
            obtain rfl : parts = [] := List.eq_nil_of_length_eq_zero (by omega)
            rw [if_pos hdir, List.nil_append, show length = i + 1 by simpa using hlen.symm]
            exact findParts_last
          · simp only [if_neg hlast] at h
            split_ifs at h with hentry
            rw [if_pos hentry]
            exact findParts_append hdir (by omega) h

theorem intercalate_concat {x : Str} : ∀ {cs : List Str}, cs ≠ [] →
    ['/'].intercalate (cs ++ [x]) = ['/'].intercalate cs ++ '/' :: x
  | [], h => absurd rfl h
  | [c], _ => by
      rw [List.singleton_append, List.intercalate_cons_cons, List.intercalate_singleton,
        List.intercalate_singleton, List.append_assoc, List.singleton_append]
  | c :: c' :: cs, _ => by
      rw [List.cons_append, List.cons_append, List.intercalate_cons_cons, List.intercalate_cons_cons,
        ← List.cons_append, intercalate_concat (List.cons_ne_nil c' cs)]
      simp only [List.append_assoc]

theorem findPath_child {slashes : ℕ} {components : List Str} {x : Str} {cluster : Cluster}
    (hok : ∀ c ∈ components, c ≠ [] ∧ '/' ∉ c) (hx : x ≠ [] ∧ '/' ∉ x)
    (hcluster : v.dirCluster upper n
      (List.replicate slashes '/' ++ ['/'].intercalate components) = .ok cluster) :
    v.findPath upper n (List.replicate slashes '/' ++ ['/'].intercalate components ++ '/' :: x) =
      v.findEntry upper n cluster x := by
  by_cases hroot : components = []
  · subst hroot
    have hslashes : (List.replicate slashes '/').dropWhile (· = '/') = [] :=
      List.dropWhile_eq_nil_iff.mpr fun c hc => decide_eq_true (List.eq_of_mem_replicate hc)
    have hpath : List.replicate slashes '/' ++ ['/'].intercalate [] ++ '/' :: x =
        List.replicate (slashes + 1) '/' ++ ['/'].intercalate [x] := by
      rw [List.replicate_succ', List.intercalate_nil, List.intercalate_singleton, List.append_nil,
        List.append_assoc, List.singleton_append]
    have hdir : cluster = .ROOT_DIR := by
      rw [List.intercalate_nil, List.append_nil, dirCluster] at hcluster
      split_ifs at hcluster with hpath
      · exact (Except.ok.inj hcluster).symm
      · simp only [findPath, hslashes, if_true] at hcluster
        cases hcluster
    rw [hpath, findPath_parts (List.cons_ne_nil _ _) fun c hc => List.mem_singleton.mp hc ▸ hx, hdir]
    exact findParts_last
  · have hok' : ∀ c ∈ components ++ [x], c ≠ [] ∧ '/' ∉ c := fun c hc => by
      rcases List.mem_append.mp hc with hc | hc
      · exact hok c hc
      · exact List.mem_singleton.mp hc ▸ hx
    have hnotroot : ¬ (List.replicate slashes '/' ++ ['/'].intercalate components = ['/'] ∨
        List.replicate slashes '/' ++ ['/'].intercalate components = []) := by
      obtain ⟨c, cs, hcs, hc⟩ := intercalate_first hroot hok
      have hmem : c ∈ List.replicate slashes '/' ++ ['/'].intercalate components := by
        rw [hcs]
        exact List.mem_append_right _ List.mem_cons_self
      rintro (he | he)
      · rw [he] at hmem
        exact hc (List.mem_singleton.mp hmem)
      · rw [he] at hmem
        cases hmem
    rw [dirCluster, if_neg hnotroot, findPath_parts hroot hok, bind_eq_ok] at hcluster
    obtain ⟨found, hfound, hcluster⟩ := hcluster
    cases found with
    | none => cases hcluster
    | some entry =>
        simp only at hcluster
        split_ifs at hcluster with hdir
        cases hcluster
        rw [List.append_assoc, ← intercalate_concat hroot, findPath_parts (by simp) hok',
          List.length_append]
        exact findParts_append hdir (Nat.zero_add _) hfound

/-- **Listing and look-up.**  A name that the listing of a directory yields is found again by its
path, with the same metadata. -/
theorem listing_lookup {slashes : ℕ} {components : List Str} {d : Str} {cluster : Cluster}
    {metas : List Metadata}
    (hd : d = List.replicate slashes '/' ++ ['/'].intercalate components)
    (hok : ∀ c ∈ components, c ≠ [] ∧ '/' ∉ c)
    (hcluster : v.dirCluster upper n d = .ok cluster)
    (hes : v.readDirEntries n cluster = .ok es)
    (hvalid : ∀ e ∈ es, ¬ e.filename.IsDot → ∃ base ext, e.filename.Valid base ext)
    (hdistinct : es.Pairwise fun a b => a.filename = b.filename → a.filename.IsDot)
    (hread : v.readDir upper n d = .ok metas) :
    ∀ m ∈ metas, m.name ≠ ['.'] → m.name ≠ ['.', '.'] →
      v.metadata upper n (d ++ '/' :: m.name) = .ok m ∧
        v.pathExists upper n (d ++ '/' :: m.name) = .ok true := by
  intro m hm hdot hdotdot
  rw [readDir, hcluster] at hread
  simp only [bind, Except.bind, hes] at hread
  obtain ⟨e, he, hmeta⟩ := mem_of_mapM hread hm
  have hmeta' := hmeta
  rw [DirEntry.toMetadata, bind_eq_ok] at hmeta'
  obtain ⟨name, hname, hm'⟩ := hmeta'
  obtain rfl : name = m.name := congrArg Metadata.name (Except.ok.inj hm')
  have hnotdot : ¬ e.filename.IsDot := fun h => by
    rcases h.display_eq with hdisplay | hdisplay
    · exact hdot (Except.ok.inj (hname.symm.trans hdisplay))
    · exact hdotdot (Except.ok.inj (hname.symm.trans hdisplay))
  obtain ⟨base, ext, hval⟩ := hvalid e he hnotdot
  have htext : m.name = ShortFileName.text base ext :=
    Except.ok.inj (hname.symm.trans hval.display_eq)
  have hparse : ShortFileName.parse upper m.name = .ok e.filename  :=
    htext ▸ ShortFileName.parse_display hval
  have hx := ShortFileName.parse_ok hparse
  have hfind : v.findPath upper n (d ++ '/' :: m.name) = .ok (some e) := by
    rw [hd] at hcluster ⊢
    rw [findPath_child hok hx hcluster]
    exact (findEntry_listed hes hparse).trans
      (congrArg Except.ok (lookup_of_distinct hdistinct he hnotdot))
  have hnotroot : ¬ (d ++ '/' :: m.name = ['/'] ∨ d ++ '/' :: m.name = []) := by
    obtain ⟨c, cs, hcs⟩ := List.exists_cons_of_ne_nil hx.1
    rw [hcs]
    rintro (h | h)
    · have hlen := congrArg List.length h
      rw [List.length_append, List.length_cons, List.length_cons, List.length_singleton] at hlen
      omega
    · exact absurd h (by simp)
  rw [metadata, pathExists, if_neg hnotroot, if_neg hnotroot, hfind]
  exact ⟨hmeta, rfl⟩

end Fat16Impl

theorem isNameChar_letters {cs : Str} (h : cs ⊆ ['A', 'D', 'T', 'X']) : ∀ c ∈ cs, IsNameChar c := by
  intro c hc
  have hmem := h hc
  simp only [List.mem_cons, List.not_mem_nil, or_false] at hmem
  unfold IsNameChar
  rcases hmem with rfl | rfl | rfl | rfl <;> decide

/-- The root directory of the small volume. -/
theorem listing_lookup_example : ∃ metas,
    smallVolume.readDir (fun c => [c]) 2 ['/'] = .ok metas ∧
      metas.map Metadata.name = [['A', '.', 'T', 'X', 'T'], ['D']] ∧
      ∀ m ∈ metas, smallVolume.metadata (fun c => [c]) 2 (['/'] ++ '/' :: m.name) = .ok m ∧
        smallVolume.pathExists (fun c => [c]) 2 (['/'] ++ '/' :: m.name) = .ok true := by
  have hread : (smallVolume.readDir (fun c => [c]) 2 ['/']).map (List.map Metadata.name) =
      .ok [['A', '.', 'T', 'X', 'T'], ['D']] := by decide +kernel
  have hes : smallVolume.readDirEntries 2 .ROOT_DIR = .ok (listed (slots smallRoot)) := by
    decide +kernel
  have hnames : (listed (slots smallRoot)).map DirEntry.filename =
      [⟨padded 8 (Str.bytes ['A']), padded 3 (Str.bytes ['T', 'X', 'T'])⟩,
        ⟨padded 8 (Str.bytes ['D']), padded 3 (Str.bytes [])⟩] := by decide +kernel
  have hvalid : ∀ f ∈ (listed (slots smallRoot)).map DirEntry.filename,
      ∃ base ext, f.Valid base ext := by
    rw [hnames]
    intro f hf
    rcases List.mem_cons.mp hf with rfl | hf
    · exact ⟨['A'], ['T', 'X', 'T'], rfl, rfl, by decide, by decide, by decide,
        isNameChar_letters (by simp), isNameChar_letters (by simp)⟩
    · obtain rfl := List.mem_singleton.mp hf
      exact ⟨['D'], [], rfl, rfl, by decide, by decide, by decide,
        isNameChar_letters (by simp), nofun⟩
  have hdistinct : ((listed (slots smallRoot)).map DirEntry.filename).Pairwise (· ≠ ·) := by
    rw [hnames]
    decide +kernel
  cases hmetas : smallVolume.readDir (fun c => [c]) 2 ['/'] with
  | error stop =>
      rw [hmetas] at hread
      cases hread
  | ok metas =>
      rw [hmetas] at hread
      have hmap := Except.ok.inj hread
      refine ⟨metas, rfl, hmap, fun m hm => ?_⟩
      have hname : m.name ∈ [['A', '.', 'T', 'X', 'T'], ['D']] := hmap ▸ List.mem_map_of_mem hm
      refine Fat16Impl.listing_lookup
        (show (['/'] : Str) = List.replicate 1 '/' ++ ['/'].intercalate [] from rfl) nofun rfl hes
        (fun e he _ => hvalid _ (List.mem_map_of_mem he))
        ((List.pairwise_map.mp hdistinct).imp fun hne he => absurd he hne) hmetas m hm ?_ ?_
      · rintro hdot
        rw [hdot] at hname
        exact absurd hname (by decide)
      · rintro hdot
        rw [hdot] at hname
        exact absurd hname (by decide)

end Ysos.Fat16
