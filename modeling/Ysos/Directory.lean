import Ysos.DirEntry

/-! # Reading a directory

`readDirEntries` scans the slots of a directory, sector by sector and cluster by cluster, until it
finds the end mark or the chain of clusters ends.

* `Fat16Impl.Stored`: the blocks of a directory, as far as they are needed.
* `readDirEntries_exact`: the entries are those in the slots before the end mark that are neither
  deleted nor parts of long names. -/

namespace Ysos.Fat16

open Runs

/-! ### Slots -/

/-- `block[offset..offset + DirEntry::LEN]`, if it is within the block. -/
def slot? (block : Block512) (offset : ℕ) : Option Slot :=
  if h : offset + ENTRY_LEN ≤ BLOCK_SIZE then
    some ((block.extract offset (offset + ENTRY_LEN)).cast (by rw [min_eq_left h]; omega))
  else none

/-- The slots of a block. -/
def slots (block : Block512) : List Slot :=
  (List.range (BLOCK_SIZE / ENTRY_LEN)).filterMap fun j => slot? block (j * ENTRY_LEN)

namespace Fat16Impl

/-! ### The loops -/

/-- The loop over the slots of a sector.  The second result is whether it returns from the whole
function, at the end mark. -/
def scanSlots (block : Block512) :
    ℕ → ℕ → List DirEntry → Fs (List DirEntry × Bool)
  | 0, _, entries => .ok (entries, false)
  | left + 1, j, entries =>
      match slot? block (j * ENTRY_LEN) with
      | none => .error .panic
      | some data =>
          if isEnd data then .ok (entries, true)
          else if isDeleted data then scanSlots block left (j + 1) entries
          else
            match DirEntry.parse data with
            | .ok entry =>
                if entry.isValid && !entry.isLongName then
                  scanSlots block left (j + 1) (entries ++ [entry])
                else scanSlots block left (j + 1) entries
            | .error _ => scanSlots block left (j + 1) entries

variable (v : Fat16Impl)

/-- The loop over the sectors of a cluster, or of the root directory. -/
def scanSectors (sector : ℕ) : ℕ → ℕ → List DirEntry → Fs (List DirEntry × Bool)
  | 0, _, entries => .ok (entries, false)
  | left + 1, i, entries => do
      let block ← FsResult.lift (v.inner.readBlock (sector + i))
      let (entries, ended) ← scanSlots block (v.bpb.bytesPerSector / ENTRY_LEN) 0 entries
      if ended then return (entries, true) else scanSectors sector left (i + 1) entries

/-- The sectors of a directory that begins or goes on at a cluster. -/
def dirSectors (cluster : Cluster) : Fs ℕ :=
  if cluster = .ROOT_DIR then
    if v.bpb.bytesPerSector = 0 then .error .panic else .ok (rootDirSize v.bpb)
  else .ok v.bpb.sectorsPerCluster

/-- One round of the loop over the clusters: the entries so far, and the cluster to go on with.  An
error of the FAT ends the loop as the end of the chain does. -/
def scanCluster (cluster : Cluster) (entries : List DirEntry) :
    Fs (List DirEntry × Option Cluster) := do
  let n ← v.dirSectors cluster
  let (entries, ended) ← v.scanSectors (v.clusterToSector cluster) n 0 entries
  if ended ∨ cluster = .ROOT_DIR then return (entries, none)
  else
    match v.getNextCluster (cluster.val % 2 ^ 16) with
    | .ok next => return (entries, next.map Cluster.mk)
    | .error (.err _) => return (entries, none)
    | .error stop => .error stop

/-- The loop over the clusters, with fuel. -/
def scanClusters : ℕ → Cluster → List DirEntry → Fs (List DirEntry)
  | 0, _, _ => .error .outOfFuel
  | fuel + 1, cluster, entries => do
      let (entries, next) ← v.scanCluster cluster entries
      match next with
      | some next => scanClusters fuel next entries
      | none => return entries

def readDirEntries (fuel : ℕ) (cluster : Cluster) : Fs (List DirEntry) :=
  v.scanClusters fuel cluster []

end Fat16Impl

/-! ### What is listed -/

/-- The slots before the end mark that are neither deleted nor parts of long names. -/
def live (ss : List Slot) : List Slot :=
  (ss.takeWhile fun s => !isEnd s).filter fun s => !isDeleted s && !DirEntry.isLongNameSlot s

/-- The entries in the live slots. -/
def listed (ss : List Slot) : List DirEntry := (live ss).filterMap fun s => (DirEntry.parse s).toOption

variable {s : Slot} {ss ts : List Slot}

theorem listed_map (ss : List Slot) :
    (listed ss).map Except.ok = (live ss).map DirEntry.parse := by
  unfold listed
  induction live ss with
  | nil => rfl
  | cons s ss ih => exact congrArg (_ :: ·) ih

theorem listed_end (h : isEnd s = true) : listed (s :: ss) = [] := by
  simp [listed, live, h]

theorem listed_skip (h : isEnd s = false) (hdead : isDeleted s || DirEntry.isLongNameSlot s) :
    listed (s :: ss) = listed ss := by
  rw [Bool.or_eq_true] at hdead
  rcases hdead with hdead | hdead <;> simp [listed, live, h, hdead]

theorem listed_live {e : DirEntry} (h : isEnd s = false) (hdel : isDeleted s = false)
    (hlong : DirEntry.isLongNameSlot s = false) (he : DirEntry.parse s = .ok e) :
    listed (s :: ss) = e :: listed ss := by
  simp [listed, live, h, hdel, hlong, he, Except.toOption]

/-- Nothing after the end mark is listed. -/
theorem listed_append (ss ts : List Slot) :
    listed (ss ++ ts) = if ss.any isEnd then listed ss else listed ss ++ listed ts := by
  induction ss with
  | nil => rfl
  | cons s ss ih =>
      rw [List.cons_append, List.any_cons]
      by_cases hend : isEnd s
      · simp [listed_end hend, hend]
      · have hend : isEnd s = false := Bool.eq_false_iff.mpr hend
        rw [hend, Bool.false_or]
        by_cases hdead : isDeleted s || DirEntry.isLongNameSlot s
        · rw [listed_skip hend hdead, listed_skip hend hdead, ih]
        · rw [Bool.not_eq_true, Bool.or_eq_false_iff] at hdead
          rw [listed_live hend hdead.1 hdead.2 rfl, listed_live hend hdead.1 hdead.2 rfl, ih]
          split_ifs <;> rfl

/-! ### Directories -/

namespace Fat16Impl

variable {v : Fat16Impl} {block : Block512} {blocks : List Block512} {entries : List DirEntry}
  {cluster : Cluster}

theorem scanSlots_eq : ∀ (left j : ℕ) (entries : List DirEntry),
    j + left ≤ BLOCK_SIZE / ENTRY_LEN →
    ∀ ss, ss = (List.range' j left).filterMap (fun j => slot? block (j * ENTRY_LEN)) →
    scanSlots block left j entries = .ok (entries ++ listed ss, ss.any isEnd)
  | 0, _, entries, _, ss, hss => by
      subst hss
      simp [scanSlots, listed, live]
  | left + 1, j, entries, hj, ss, hss => by
      have hfit : j * ENTRY_LEN + ENTRY_LEN ≤ BLOCK_SIZE := by
        simp only [BLOCK_SIZE, ENTRY_LEN] at hj ⊢
        omega
      obtain ⟨data, hdata⟩ : ∃ data, slot? block (j * ENTRY_LEN) = some data := by
        rw [slot?, dif_pos hfit]
        exact ⟨_, rfl⟩
      rw [List.range'_succ, List.filterMap_cons, hdata] at hss
      have ih := fun entries => scanSlots_eq left (j + 1) entries (by omega) _ rfl
      subst hss
      simp only [scanSlots, hdata, ih, List.any_cons]
      cases hend : isEnd data with
      | true => rw [if_pos rfl, listed_end hend, List.append_nil, Bool.true_or]
      | false =>
          rw [if_neg Bool.false_ne_true, Bool.false_or]
          cases hdel : isDeleted data with
          | true => rw [if_pos rfl, listed_skip hend (by rw [hdel, Bool.true_or])]
          | false =>
              obtain ⟨e, he⟩ : ∃ e, DirEntry.parse data = .ok e := ⟨_, rfl⟩
              rw [if_neg Bool.false_ne_true, he]
              have hvalid := DirEntry.parse_isValid he hend hdel
              have hlong := DirEntry.parse_isLongName he
              cases hl : DirEntry.isLongNameSlot data with
              | true =>
                  rw [listed_skip hend (by rw [hl, Bool.or_true])]
                  simp [hvalid, hlong, hl]
              | false =>
                  rw [listed_live hend hdel hl he]
                  simp [hvalid, hlong, hl]

/-- The blocks are those of the sectors from `sector` on. -/
def Reads (v : Fat16Impl) (sector : ℕ) (blocks : List Block512) : Prop :=
  ∀ i (h : i < blocks.length), v.inner.readBlock (sector + i) = .ok blocks[i]

theorem scanSlots_block (block : Block512) (entries : List DirEntry) :
    scanSlots block (BLOCK_SIZE / ENTRY_LEN) 0 entries =
      .ok (entries ++ listed (slots block), (slots block).any isEnd) := by
  refine scanSlots_eq _ 0 entries (by simp) _ ?_
  rw [slots, List.range_eq_range']

theorem scanSectors_eq (hbps : v.bpb.bytesPerSector = BLOCK_SIZE) {sector : ℕ} :
    ∀ (blocks : List Block512) (left i : ℕ) (entries : List DirEntry),
    v.Reads (sector + i) blocks → blocks.length ≤ left →
    (blocks.length = left ∨ (blocks.flatMap slots).any isEnd) →
    v.scanSectors sector left i entries =
      .ok (entries ++ listed (blocks.flatMap slots), (blocks.flatMap slots).any isEnd)
  | [], left, i, entries, _, _, hstop => by
      have hleft : left = 0 := (hstop.resolve_right (by simp)).symm
      subst hleft
      simp [scanSectors, listed, live]
  | block :: blocks, 0, i, entries, _, hle, _ => absurd hle (Nat.not_succ_le_zero _)
  | block :: blocks, left + 1, i, entries, hread, hle, hstop => by
      have hblock : v.inner.readBlock (sector + i) = .ok block := hread 0 (Nat.zero_lt_succ _)
      have hscan := scanSlots_block block entries
      rw [← hbps] at hscan
      simp only [scanSectors, hblock, FsResult.lift, hscan, bind, Except.bind]
      rw [List.flatMap_cons, List.any_append, listed_append]
      by_cases hend : (slots block).any isEnd
      · simp only [hend, if_true, Bool.true_or]
        rfl
      · rw [Bool.not_eq_true] at hend
        simp only [hend, Bool.false_or]
        have hrest : v.Reads (sector + (i + 1)) blocks := fun j hj => by
          have h := hread (j + 1) (Nat.succ_lt_succ hj)
          rwa [show sector + i + (j + 1) = sector + (i + 1) + j by omega] at h
        rw [if_neg Bool.false_ne_true, if_neg Bool.false_ne_true, ← List.append_assoc]
        refine scanSectors_eq hbps blocks left (i + 1) _ hrest (Nat.le_of_succ_le_succ hle) ?_
        refine hstop.imp Nat.succ.inj fun h => ?_
        rwa [List.flatMap_cons, List.any_append, hend, Bool.false_or] at h

/-- The root directory fills whole sectors. -/
def RootFits (v : Fat16Impl) : Prop := BLOCK_SIZE / ENTRY_LEN ∣ v.bpb.rootEntriesCount

/-- The number of sectors that a cluster holds of a directory. -/
def regionLength (v : Fat16Impl) (cluster : Cluster) : ℕ :=
  if cluster = .ROOT_DIR then v.bpb.rootEntriesCount / (BLOCK_SIZE / ENTRY_LEN)
  else v.bpb.sectorsPerCluster

/-- The blocks of the directory from a cluster on, as far as they are needed: up to a block with
an end mark, or to the end of the root directory or of the chain of data clusters. -/
inductive Stored (v : Fat16Impl) : Cluster → List Block512 → Prop
  | ended {cluster : Cluster} {blocks : List Block512}
      (hcluster : cluster = .ROOT_DIR ∧ v.RootFits ∨ IsData cluster.val)
      (hread : v.Reads (v.clusterToSector cluster) blocks)
      (hle : blocks.length ≤ v.regionLength cluster) (hend : (blocks.flatMap slots).any isEnd) :
      Stored v cluster blocks
  | root {blocks : List Block512} (hroot : v.RootFits) (hread : v.Reads (v.clusterToSector .ROOT_DIR) blocks)
      (hall : blocks.length = v.regionLength .ROOT_DIR) : Stored v .ROOT_DIR blocks
  | last {c : ℕ} {blocks : List Block512} (hc : IsData c)
      (hread : v.Reads (v.clusterToSector ⟨c⟩) blocks) (hall : blocks.length = v.regionLength ⟨c⟩)
      (hlast : v.getNextCluster c = .ok none) : Stored v ⟨c⟩ blocks
  | link {c next : ℕ} {blocks rest : List Block512} (hc : IsData c)
      (hread : v.Reads (v.clusterToSector ⟨c⟩) blocks) (hall : blocks.length = v.regionLength ⟨c⟩)
      (hnext : v.getNextCluster c = .ok (some next)) (hrest : Stored v ⟨next⟩ rest) :
      Stored v ⟨c⟩ (blocks ++ rest)

theorem dirSectors_eq (hbps : v.bpb.bytesPerSector = BLOCK_SIZE)
    (hcluster : cluster = .ROOT_DIR ∧ v.RootFits ∨ IsData cluster.val) :
    v.dirSectors cluster = .ok (v.regionLength cluster) := by
  unfold dirSectors regionLength
  split_ifs with h h0
  · rw [hbps] at h0
    exact absurd h0 (by decide)
  · obtain ⟨n, hn⟩ := (hcluster.resolve_right fun hc => hc.ne_root h).2
    simp only [rootDirSize, hbps, hn, BLOCK_SIZE, ENTRY_LEN]
    congr 1
    omega
  · rfl

theorem scanCluster_ended (hbps : v.bpb.bytesPerSector = BLOCK_SIZE)
    (hcluster : cluster = .ROOT_DIR ∧ v.RootFits ∨ IsData cluster.val)
    (hread : v.Reads (v.clusterToSector cluster) blocks)
    (hle : blocks.length ≤ v.regionLength cluster)
    (hstop : (blocks.flatMap slots).any isEnd ∨
      cluster = .ROOT_DIR ∧ blocks.length = v.regionLength cluster) :
    v.scanCluster cluster entries = .ok (entries ++ listed (blocks.flatMap slots), none) := by
  have hscan : v.scanSectors (v.clusterToSector cluster) (v.regionLength cluster) 0 entries =
      .ok (entries ++ listed (blocks.flatMap slots), (blocks.flatMap slots).any isEnd) :=
    scanSectors_eq hbps blocks _ 0 entries hread hle (hstop.symm.imp_left And.right)
  have hreturn : (blocks.flatMap slots).any isEnd = true ∨ cluster = .ROOT_DIR :=
    hstop.imp_right And.left
  rw [scanCluster, dirSectors_eq hbps hcluster]
  simp only [bind, Except.bind, hscan, if_pos hreturn]
  rfl

theorem scanCluster_next (hbps : v.bpb.bytesPerSector = BLOCK_SIZE) {c : ℕ} (hc : IsData c)
    (hread : v.Reads (v.clusterToSector ⟨c⟩) blocks)
    (hall : blocks.length = v.regionLength ⟨c⟩) {next : Option ℕ}
    (hnext : v.getNextCluster c = .ok next) (hend : (blocks.flatMap slots).any isEnd = false) :
    v.scanCluster ⟨c⟩ entries =
      .ok (entries ++ listed (blocks.flatMap slots), next.map Cluster.mk) := by
  have hscan : v.scanSectors (v.clusterToSector ⟨c⟩) (v.regionLength ⟨c⟩) 0 entries =
      .ok (entries ++ listed (blocks.flatMap slots), false) := by
    rw [← hend]
    exact scanSectors_eq hbps blocks _ 0 entries hread hall.le (Or.inl hall)
  have hmod : c % 2 ^ 16 = c := Nat.mod_eq_of_lt hc.lt
  have hgoon : ¬ (false = true ∨ (⟨c⟩ : Cluster) = .ROOT_DIR) := not_or.mpr ⟨nofun, hc.ne_root⟩
  rw [scanCluster, dirSectors_eq hbps (Or.inr hc)]
  simp only [bind, Except.bind, hscan, if_neg hgoon, hmod, hnext]
  rfl

theorem scanClusters_return {es : List DirEntry}
    (h : v.scanCluster cluster entries = .ok (es, none)) :
    ∀ᶠ n in Filter.atTop, v.scanClusters n cluster entries = .ok es := by
  refine Filter.eventually_atTop.mpr ⟨1, fun n hn => ?_⟩
  obtain ⟨m, rfl⟩ := Nat.exists_eq_add_of_le' hn
  simp only [scanClusters, h, bind, Except.bind]
  rfl

theorem scanClusters_goOn {es : List DirEntry} {next : Cluster} {r : Fs (List DirEntry)}
    (h : v.scanCluster cluster entries = .ok (es, some next))
    (hr : ∀ᶠ n in Filter.atTop, v.scanClusters n next es = r) :
    ∀ᶠ n in Filter.atTop, v.scanClusters n cluster entries = r := by
  obtain ⟨N, hN⟩ := Filter.eventually_atTop.mp hr
  refine Filter.eventually_atTop.mpr ⟨N + 1, fun n hn => ?_⟩
  obtain ⟨m, rfl⟩ := Nat.exists_eq_add_of_le' (Nat.le_of_add_left_le hn)
  simp only [scanClusters, h, bind, Except.bind]
  exact hN m (Nat.le_of_succ_le_succ hn)

theorem scanClusters_stored (hbps : v.bpb.bytesPerSector = BLOCK_SIZE)
    (h : v.Stored cluster blocks) (entries : List DirEntry) : ∀ᶠ n in Filter.atTop,
      v.scanClusters n cluster entries = .ok (entries ++ listed (blocks.flatMap slots)) := by
  induction h generalizing entries with
  | ended hcluster hread hle hend =>
      exact scanClusters_return (scanCluster_ended hbps hcluster hread hle (Or.inl hend))
  | root hroot hread hall =>
      exact scanClusters_return
        (scanCluster_ended hbps (Or.inl ⟨rfl, hroot⟩) hread hall.le (Or.inr ⟨rfl, hall⟩))
  | @last c blocks hc hread hall hlast =>
      cases hend : (blocks.flatMap slots).any isEnd with
      | true =>
          exact scanClusters_return
            (scanCluster_ended hbps (Or.inr hc) hread hall.le (Or.inl hend))
      | false => exact scanClusters_return (scanCluster_next hbps hc hread hall hlast hend)
  | @link c next blocks rest hc hread hall hnext hrest ih =>
      rw [List.flatMap_append, listed_append]
      cases hend : (blocks.flatMap slots).any isEnd with
      | true =>
          exact scanClusters_return
            (scanCluster_ended hbps (Or.inr hc) hread hall.le (Or.inl hend))
      | false =>
          rw [if_neg Bool.false_ne_true, ← List.append_assoc]
          exact scanClusters_goOn (scanCluster_next hbps hc hread hall hnext hend) (ih _)

/-- **Directory enumeration.**  The entries that `read_dir_entries` returns, with enough fuel, are
those in the live slots of the directory, in order. -/
theorem readDirEntries_exact (hbps : v.bpb.bytesPerSector = BLOCK_SIZE)
    (h : v.Stored cluster blocks) :
    ∃ entries, (∀ᶠ n in Filter.atTop, v.readDirEntries n cluster = .ok entries) ∧
      entries.map Except.ok = (live (blocks.flatMap slots)).map DirEntry.parse :=
  ⟨listed (blocks.flatMap slots), scanClusters_stored hbps h [], listed_map _⟩

end Fat16Impl

/-! ### A small volume -/

/-- Some bytes, and then zeros. -/
def blockOf (bytes : List UInt8) : Block512 :=
  ⟨((bytes ++ List.replicate BLOCK_SIZE 0).take BLOCK_SIZE).toArray, by simp⟩

/-- The bytes of an entry with a small cluster number and size, and no times. -/
def slotBytes (name : List UInt8) (attributes cluster size : UInt8) : List UInt8 :=
  name ++ attributes :: (List.replicate 14 0 ++ [cluster, 0, size, 0, 0, 0])

/-- A boot sector, by the high byte of the size of a sector and the number of sectors a cluster. -/
def bootOf (sectorSize sectorsPerCluster : UInt8) : Block512 :=
  blockOf (List.replicate 12 0 ++ [sectorSize, sectorsPerCluster, 1, 0, 1, 16, 0, 0, 0, 0, 1] ++
    List.replicate 487 0 ++ [0x55, 0xAA])

def smallBoot : Block512 := bootOf 2 1

/-- A file `A.TXT`, a deleted entry and a directory `D`. -/
def smallRoot : Block512 :=
  blockOf (slotBytes [65, 32, 32, 32, 32, 32, 32, 32, 84, 88, 84] 0x20 2 3 ++
    (slotBytes [0xE5, 32, 32, 32, 32, 32, 32, 32, 32, 32, 32] 0x20 0 0 ++
      slotBytes [68, 32, 32, 32, 32, 32, 32, 32, 32, 32, 32] 0x10 4 0))

/-- A file `B`. -/
def smallDirectory : Block512 :=
  blockOf (slotBytes [66, 32, 32, 32, 32, 32, 32, 32, 32, 32, 32] 0x20 5 1)

/-- One sector a cluster, and a FAT that links cluster 2 to cluster 3.  The directory `D` is cluster
4. -/
def smallDisk : BlockDevice where
  readBlock
    | 0 => .ok smallBoot
    | 1 => .ok (blockOf [0, 0, 0, 0, 3, 0, 0xFF, 0xFF, 0xFF, 0xFF, 0xFF, 0xFF])
    | 2 => .ok smallRoot
    | 3 => .ok (blockOf [7, 8, 9])
    | 5 => .ok smallDirectory
    | _ => .ok (blockOf [])

/-- The layout of the small disk. -/
def smallVolume : Fat16Impl where
  bpb := ⟨smallBoot⟩
  inner := smallDisk
  fatStart := 1
  firstDataSector := 3
  firstRootDirSector := 2

theorem smallVolume_sectors : smallVolume.bpb.bytesPerSector = BLOCK_SIZE := by decide +kernel

theorem smallVolume_root : smallVolume.Stored .ROOT_DIR [smallRoot] := by
  refine .ended (Or.inl ⟨rfl, ?_⟩) (fun i hi => ?_) ?_ ?_
  · unfold Fat16Impl.RootFits
    decide +kernel
  · obtain rfl : i = 0 := Nat.lt_one_iff.mp hi
    rfl
  · decide +kernel
  · decide +kernel

theorem smallVolume_directory : smallVolume.Stored ⟨4⟩ [smallDirectory] := by
  refine .ended (Or.inr (by unfold Fat16Impl.IsData; decide)) (fun i hi => ?_) ?_ ?_
  · obtain rfl : i = 0 := Nat.lt_one_iff.mp hi
    rfl
  · decide +kernel
  · decide +kernel

/-- The file and the directory. -/
theorem readDirEntries_exact_example : ∃ entries,
    (∀ᶠ n in Filter.atTop, smallVolume.readDirEntries n .ROOT_DIR = .ok entries) ∧
      entries.map Except.ok = (live (slots smallRoot)).map DirEntry.parse ∧ entries.length = 2 := by
  obtain ⟨entries, hread, hparse⟩ :=
    Fat16Impl.readDirEntries_exact smallVolume_sectors smallVolume_root
  rw [List.flatMap_singleton] at hparse
  refine ⟨entries, hread, hparse, ?_⟩
  have hlive : (live (slots smallRoot)).length = 2 := by decide +kernel
  have hlength := congrArg List.length hparse
  rwa [List.length_map, List.length_map, hlive] at hlength

end Ysos.Fat16
