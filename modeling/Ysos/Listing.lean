import Ysos.Classify

/-! # Listing any bytes

`read_dir` shows the name of every entry that it lists, and `as_meta` asks `DirEntry::filename` for
it.  Both go through `Display`, which unwraps the UTF-8 decoding of the bytes on the disk.

* `DirEntry.filenameText`: `DirEntry::filename`.
* `listable_iff`: a directory can be listed, and its entries have texts, exactly when the names in
  its live slots decode. -/

namespace Ysos.Fat16

open Runs

variable {v : Fat16Impl} {cluster : Cluster} {blocks : List Block512} {e : DirEntry}
  {upper : Char → Str} {path : Str} {s : Slot} {ss : List Slot}

namespace DirEntry

/-- The method `filename`. -/
def filenameText (e : DirEntry) : Fs Str :=
  if e.isValid && !e.isLongName then e.filename.display
  else .ok ['u', 'n', 'k', 'n', 'o', 'w', 'n']

def asMeta (e : DirEntry) : Fs Metadata := do
  let name ← e.filenameText
  return ⟨name, e.entryType, e.size, some e.createdTime, some e.modifiedTime, some e.accessedTime⟩

theorem filenameText_live (h : parse s = .ok e) (hend : isEnd s = false)
    (hdel : isDeleted s = false) (hlong : isLongNameSlot s = false) :
    e.filenameText = (ShortFileName.new s).display := by
  have hvalid := parse_isValid h hend hdel
  have hname := parse_isLongName h
  cases h
  rw [filenameText, hvalid, hname, hlong]
  rfl

theorem filenameText_dead (h : parse s = .ok e) (hdead : isDeleted s || isLongNameSlot s) :
    ∃ name, e.filenameText = .ok name := by
  have hname := parse_isLongName h
  refine ⟨_, if_neg ?_⟩
  rw [hname]
  cases h
  cases hdel : isDeleted s with
  | true =>
      have h0 : s[0] = 0xE5 := of_decide_eq_true hdel
      simp [isValid, ShortFileName.isUnused, ShortFileName.new, h0]
  | false =>
      rw [hdel, Bool.false_or] at hdead
      simp [hdead]

end DirEntry

/-- The slots before the end mark. -/
def beforeEnd (ss : List Slot) : List Slot := ss.takeWhile fun s => !isEnd s

theorem texts_iff : (∀ s ∈ beforeEnd ss, ∀ e, DirEntry.parse s = .ok e →
      (∃ name, e.filenameText = .ok name) ∧ ∃ m, e.asMeta = .ok m) ↔
    ∀ s ∈ live ss, (ShortFileName.new s).Decodes := by
  have hmeta : ∀ e : DirEntry, (∃ m, e.asMeta = .ok m) ↔ ∃ name, e.filenameText = .ok name :=
    fun e => by
      constructor
      · rintro ⟨m, h⟩
        obtain ⟨name, hname, -⟩ := bind_eq_ok.mp h
        exact ⟨name, hname⟩
      · rintro ⟨name, hname⟩
        rw [DirEntry.asMeta, hname]
        exact ⟨_, rfl⟩
  simp only [hmeta, and_self]
  constructor
  · intro h s hs
    obtain ⟨hmem, halive⟩ := List.mem_filter.mp hs
    rw [Bool.and_eq_true, Bool.not_eq_true', Bool.not_eq_true'] at halive
    have hend : isEnd s = false := by simpa using List.mem_takeWhile_imp hmem
    rw [← ShortFileName.display_ok_iff, ← DirEntry.filenameText_live rfl hend halive.1 halive.2]
    exact h s hmem _ rfl
  · intro h s hs e he
    by_cases hdead : isDeleted s || DirEntry.isLongNameSlot s
    · exact DirEntry.filenameText_dead he hdead
    · rw [Bool.not_eq_true, Bool.or_eq_false_iff] at hdead
      have hend : isEnd s = false := by simpa using List.mem_takeWhile_imp hs
      rw [DirEntry.filenameText_live he hend hdead.1 hdead.2, ShortFileName.display_ok_iff]
      exact h s (List.mem_filter.mpr ⟨hs, by simp [hdead]⟩)

theorem mem_listed : e ∈ listed ss ↔ ∃ s ∈ live ss, DirEntry.parse s = .ok e := by
  rw [listed, List.mem_filterMap]
  refine exists_congr fun s => and_congr_right fun _ => ?_
  cases DirEntry.parse s <;> simp [Except.toOption]

namespace Fat16Impl

/-- **Listing.**  A stored directory can be listed, and its entries have texts, exactly when the
names in its live slots decode. -/
theorem listable_iff (hbps : v.bpb.bytesPerSector = BLOCK_SIZE) (h : v.Stored cluster blocks)
    (hcluster : ∀ᶠ n in Filter.atTop, v.dirCluster upper n path = .ok cluster) :
    Succeeds (fun n => v.readDir upper n path) ∧
      (∀ s ∈ beforeEnd (blocks.flatMap slots), ∀ e, DirEntry.parse s = .ok e →
        (∃ name, e.filenameText = .ok name) ∧ ∃ m, e.asMeta = .ok m) ↔
    ∀ s ∈ live (blocks.flatMap slots), (ShortFileName.new s).Decodes := by
  have hrun : ∀ᶠ n in Filter.atTop, v.readDir upper n path =
      (listed (blocks.flatMap slots)).mapM fun e => e.toMetadata e.entryType := by
    filter_upwards [hcluster, scanClusters_stored hbps h []] with n hn hscan
    rw [readDir, hn]
    simp only [bind, Except.bind, readDirEntries, hscan, List.nil_append]
  have hlist : (∀ e ∈ listed (blocks.flatMap slots), e.filename.Decodes) ↔
      ∀ s ∈ live (blocks.flatMap slots), (ShortFileName.new s).Decodes := by
    constructor
    · intro hall s hs
      exact hall _ (mem_listed.mpr ⟨s, hs, rfl⟩)
    · intro hall e he
      obtain ⟨s, hs, hparse⟩ := mem_listed.mp he
      cases hparse
      exact hall s hs
  rw [succeeds_iff hrun, mapM_toMetadata_ok_iff, hlist, texts_iff, and_self_iff]

end Fat16Impl

/-- The root directory of the small volume. -/
theorem listable_iff_example : Succeeds fun n => smallVolume.readDir (fun c => [c]) n ['/'] := by
  have hcluster : ∀ᶠ n in Filter.atTop,
      smallVolume.dirCluster (fun c => [c]) n ['/'] = .ok .ROOT_DIR :=
    Filter.Eventually.of_forall fun n => rfl
  refine ((Fat16Impl.listable_iff smallVolume_sectors smallVolume_root hcluster).mpr ?_).1
  unfold ShortFileName.Decodes
  decide +kernel

/-- A name that begins with the byte `0xFF`. -/
theorem listing_panics : ¬ ∀ (v : Fat16Impl) (upper : Char → Str) (blocks : List Block512),
    v.bpb.bytesPerSector = BLOCK_SIZE → v.Stored .ROOT_DIR blocks →
      ∀ n, v.readDir upper n ['/'] ≠ .error .panic := by
  intro hall
  have hstored : labelVolume.Stored .ROOT_DIR [labelRoot] := by
    refine .ended (Or.inl ⟨rfl, ?_⟩) (fun i hi => ?_) ?_ ?_
    · unfold Fat16Impl.RootFits
      decide +kernel
    · obtain rfl : i = 0 := Nat.lt_one_iff.mp hi
      rfl
    · decide +kernel
    · decide +kernel
  exact hall labelVolume (fun c => [c]) [labelRoot] labelVolume_sectors hstored 1
    (by decide +kernel)

end Ysos.Fat16
