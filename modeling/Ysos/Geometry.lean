import Ysos.Acyclic

/-! # The geometry of a volume

`Fat16Bpb::new` checks the signature of the boot sector, and the bytes per sector are taken as they
are: `new` divides by them, `get_next_cluster` indexes a block of 512 bytes with a remainder of
them, and the scan of a directory cuts a block into as many slots as they have room for.

* `Fat16Impl.Tolerates`: the calls on a disk do not panic.
* `tolerates_iff`: they do not, on any disk with a boot sector, exactly when its sectors have between
  1 and 512 bytes. -/

namespace Ysos.Fat16

open Runs

variable {v : Fat16Impl} {data : Block512} {bpb : Fat16Bpb}

theorem Fat16Bpb.new_ok (h : (⟨data⟩ : Fat16Bpb).trail = 0xAA55) :
    Fat16Bpb.new data = .ok ⟨data⟩ := by
  simp [Fat16Bpb.new, h]

namespace Fat16Impl

/-- Mounting the disk, looking up any cluster in the FAT and scanning the root directory do not
panic. -/
structure Tolerates (inner : BlockDevice) : Prop where
  mounts : new inner ≠ .error .panic
  next : ∀ v, new inner = .ok v → ∀ c < 2 ^ 16, v.getNextCluster c ≠ .error .panic
  root : ∀ v, new inner = .ok v → ∀ fuel, v.readDirEntries fuel .ROOT_DIR ≠ .error .panic

theorem getNextCluster_ne_panic (hpos : 0 < v.bpb.bytesPerSector)
    (hle : v.bpb.bytesPerSector ≤ BLOCK_SIZE) (c : ℕ) : v.getNextCluster c ≠ .error .panic := by
  have hmod := Nat.mod_lt (c * 2) hpos
  -- sectors of 512 bytes hold whole entries of the FAT
  have heven : v.bpb.bytesPerSector = BLOCK_SIZE → c * 2 % v.bpb.bytesPerSector + 1 < BLOCK_SIZE :=
    fun h => by
      rw [h]
      simp only [BLOCK_SIZE]
      omega
  have hsnd : c * 2 % v.bpb.bytesPerSector + 1 < BLOCK_SIZE := by
    rcases hle.eq_or_lt with h | h
    · exact heven h
    · omega
  rw [getNextCluster]
  simp only [if_neg hpos.ne', bind, Except.bind]
  cases v.inner.readBlock (v.fatStart + c * 2 / v.bpb.bytesPerSector) with
  | error e => rintro ⟨⟩
  | ok block =>
      simp only [FsResult.lift, Vector.getElem?_eq_getElem hsnd,
        Vector.getElem?_eq_getElem (Nat.lt_of_succ_lt hsnd)]
      rintro ⟨⟩

theorem scanSectors_ne_panic (hle : v.bpb.bytesPerSector ≤ BLOCK_SIZE) (sector : ℕ) :
    ∀ (left i : ℕ) (entries : List DirEntry),
      v.scanSectors sector left i entries ≠ .error .panic
  | 0, _, _ => by rintro ⟨⟩
  | left + 1, i, entries => by
      have hfit : 0 + v.bpb.bytesPerSector / ENTRY_LEN ≤ BLOCK_SIZE / ENTRY_LEN := by
        rw [Nat.zero_add]
        exact Nat.div_le_div_right hle
      rw [scanSectors]
      cases v.inner.readBlock (sector + i) with
      | error e => rintro ⟨⟩
      | ok block =>
          simp only [FsResult.lift, scanSlots_eq _ 0 entries hfit _ rfl, bind, Except.bind]
          split_ifs
          · rintro ⟨⟩
          · exact scanSectors_ne_panic hle sector left (i + 1) _

theorem readDirEntries_root_ne_panic (hpos : 0 < v.bpb.bytesPerSector)
    (hle : v.bpb.bytesPerSector ≤ BLOCK_SIZE) (fuel : ℕ) :
    v.readDirEntries fuel .ROOT_DIR ≠ .error .panic := by
  cases fuel with
  | zero => rintro ⟨⟩
  | succ n =>
      have hscan := scanSectors_ne_panic hle (v.clusterToSector .ROOT_DIR) (rootDirSize v.bpb) 0 []
      rw [readDirEntries, scanClusters, scanCluster, dirSectors, if_pos rfl, if_neg hpos.ne']
      simp only [bind, Except.bind]
      cases hrun : v.scanSectors (v.clusterToSector .ROOT_DIR) (rootDirSize v.bpb) 0 [] with
      | error stop =>
          rw [hrun] at hscan
          exact fun he => hscan (congrArg Except.error (Except.error.inj he))
      | ok r =>
          obtain ⟨entries, ended⟩ := r
          simp only [or_true, if_true]
          rintro ⟨⟩

/-- The entry of cluster 256 begins at byte 512 of its sector. -/
theorem getNextCluster_large (hlarge : BLOCK_SIZE < v.bpb.bytesPerSector)
    (hread : v.inner.readBlock (v.fatStart + 256 * 2 / v.bpb.bytesPerSector) = .ok data) :
    v.getNextCluster 256 = .error .panic := by
  have hmod : 256 * 2 % v.bpb.bytesPerSector = BLOCK_SIZE := Nat.mod_eq_of_lt hlarge
  rw [getNextCluster]
  simp only [if_neg (Nat.zero_lt_of_lt hlarge).ne', hread, hmod, FsResult.lift, bind, Except.bind]
  rw [Vector.getElem?_eq_none le_rfl]

theorem new_eq (hboot : Fat16Bpb.new data = .ok bpb) (inner : BlockDevice)
    (hread : inner.readBlock 0 = .ok data) :
    (bpb.bytesPerSector = 0 ∧ new inner = .error .panic) ∨
      0 < bpb.bytesPerSector ∧ ∃ v, new inner = .ok v ∧ v.bpb = bpb ∧ v.inner = inner := by
  rw [new, hread]
  simp only [hboot]
  by_cases h0 : bpb.bytesPerSector = 0
  · exact Or.inl ⟨h0, if_pos h0⟩
  · exact Or.inr ⟨Nat.pos_of_ne_zero h0, _, if_neg h0, rfl, rfl⟩

/-- **Boot sectors.**  The calls on a disk with a boot sector that `Fat16Bpb::new` accepts do not
panic, whatever else is on the disk, exactly when its sectors have between 1 and 512 bytes. -/
theorem tolerates_iff (hboot : Fat16Bpb.new data = .ok bpb) :
    (∀ inner : BlockDevice, inner.readBlock 0 = .ok data → Tolerates inner) ↔
      1 ≤ bpb.bytesPerSector ∧ bpb.bytesPerSector ≤ BLOCK_SIZE := by
  constructor
  · intro h
    -- a disk that can be read everywhere
    have hdisk := h ⟨fun _ => .ok data⟩ rfl
    rcases new_eq hboot ⟨fun _ => .ok data⟩ rfl with
      ⟨-, hpanic⟩ | ⟨hpos, v, hv, hbpb, hinner⟩
    · exact absurd hpanic hdisk.mounts
    refine ⟨hpos, le_of_not_gt fun hlarge => hdisk.next v hv 256 (by decide) ?_⟩
    rw [← hbpb] at hlarge
    exact getNextCluster_large hlarge (by rw [hinner])
  · rintro ⟨hpos, hle⟩ inner hread
    rcases new_eq hboot inner hread with ⟨h0, -⟩ | ⟨-, v, hv, hbpb, -⟩
    · omega
    have hthis : ∀ v', new inner = .ok v' → v'.bpb = bpb := fun v' hv' => by
      rw [← Except.ok.inj (hv.symm.trans hv'), hbpb]
    refine ⟨fun he => ?_, fun v' hv' c _ => ?_, fun v' hv' fuel => ?_⟩
    · cases he.symm.trans hv
    · rw [← hthis v' hv'] at hpos hle
      exact getNextCluster_ne_panic hpos hle c
    · rw [← hthis v' hv'] at hpos hle
      exact readDirEntries_root_ne_panic hpos hle fuel

end Fat16Impl

/-- The boot sector of the small disk. -/
theorem tolerates_iff_example : Fat16Impl.Tolerates smallDisk := by
  have hboot : Fat16Bpb.new smallBoot = .ok ⟨smallBoot⟩ := Fat16Bpb.new_ok (by decide +kernel)
  refine (Fat16Impl.tolerates_iff hboot).mpr ⟨?_, ?_⟩ _ rfl
  · decide +kernel
  · decide +kernel

/-- A boot sector with sectors of 1024 bytes. -/
def largeBoot : Block512 := bootOf 4 1

/-- Cluster 256 of a volume with sectors of 1024 bytes. -/
theorem large_sectors_panic : ¬ ∀ (data : Block512) (bpb : Fat16Bpb) (inner : BlockDevice),
    Fat16Bpb.new data = .ok bpb → inner.readBlock 0 = .ok data → Fat16Impl.Tolerates inner := by
  intro hall
  have hboot : Fat16Bpb.new largeBoot = .ok ⟨largeBoot⟩ := Fat16Bpb.new_ok (by decide +kernel)
  have hlarge : BLOCK_SIZE < (⟨largeBoot⟩ : Fat16Bpb).bytesPerSector := by decide +kernel
  have hdisk := hall largeBoot ⟨largeBoot⟩ ⟨fun _ => .ok largeBoot⟩ hboot rfl
  rcases Fat16Impl.new_eq hboot ⟨fun _ => .ok largeBoot⟩ rfl with
    ⟨-, hpanic⟩ | ⟨-, v, hv, hbpb, hinner⟩
  · exact hdisk.mounts hpanic
  · rw [← hbpb] at hlarge
    exact hdisk.next v hv 256 (by decide)
      (Fat16Impl.getNextCluster_large hlarge (by rw [hinner]))

end Ysos.Fat16
