import Ysos.Logs
import Ysos.FileData
import Ysos.Acyclic

/-! # Blocks that cannot be read

The scan of a directory and `read_file_data` take an error of the FAT for the end of the chain.

* `readDirEntriesLog` and the calls that use it, with the sectors that they read; the theorems
  `readDirEntriesLog_result` and so on give the calls back.
* `DirReads`, `PathReads`, `FileDataReads`: the sectors of the FAT that a call comes to can be read.
* `faults_propagate_iff`: exactly then a call ends at a block that cannot be read, with its error. -/

namespace Ysos.Fat16

open Logs

/-- A computation that logs the sectors that it reads. -/
abbrev Reading := Logged ℕ Stop

/-! ### The calls, with the sectors that they read -/

def DataOutcome.log (o : DataOutcome) : Reading ℕ := ⟨o.result, o.sectors⟩

namespace Fat16Impl

section Calls
variable (v : Fat16Impl) (upper : Char → Str)

def readBlockLog (sector : ℕ) : Reading Block512 := ⟨FsResult.lift (v.inner.readBlock sector), [sector]⟩

def getNextClusterLog (cluster : ℕ) : Reading (Option ℕ) :=
  ⟨v.getNextCluster cluster, v.fatSectors cluster⟩

def scanSectorsLog (sector : ℕ) : ℕ → ℕ → List DirEntry → Reading (List DirEntry × Bool)
  | 0, _, entries => pure (entries, false)
  | left + 1, i, entries => do
      let block ← v.readBlockLog (sector + i)
      let (entries, ended) ← .lift (scanSlots block (v.bpb.bytesPerSector / ENTRY_LEN) 0 entries)
      if ended then return (entries, true) else scanSectorsLog sector left (i + 1) entries

/-- The end of a round of the loop over the clusters. -/
def followLog (cluster : Cluster) (entries : List DirEntry) :
    Reading (List DirEntry × Option Cluster) := do
  match ← (v.getNextClusterLog (cluster.val % 2 ^ 16)).attempt with
  | .ok next => return (entries, next.map Cluster.mk)
  | .error (.err _) => return (entries, none)
  | .error stop => .lift (.error stop)

def scanClusterLog (cluster : Cluster) (entries : List DirEntry) :
    Reading (List DirEntry × Option Cluster) := do
  let n ← .lift (v.dirSectors cluster)
  let (entries, ended) ← v.scanSectorsLog (v.clusterToSector cluster) n 0 entries
  if ended ∨ cluster = .ROOT_DIR then return (entries, none)
  else v.followLog cluster entries

def scanClustersLog : ℕ → Cluster → List DirEntry → Reading (List DirEntry)
  | 0, _, _ => .lift (.error .outOfFuel)
  | fuel + 1, cluster, entries => do
      let (entries, next) ← v.scanClusterLog cluster entries
      match next with
      | some next => scanClustersLog fuel next entries
      | none => return entries

def readDirEntriesLog (fuel : ℕ) (cluster : Cluster) : Reading (List DirEntry) :=
  v.scanClustersLog fuel cluster []

def findEntryLog (fuel : ℕ) (dirCluster : Cluster) (name : Str) : Reading (Option DirEntry) := do
  let entries ← v.readDirEntriesLog fuel dirCluster
  let targetName ← .lift (ShortFileName.parse upper name)
  if name = [] then return none
  else return entries.find? fun entry => entry.filename = targetName

def findPartsLog (fuel length : ℕ) : ℕ → List Str → Cluster → Reading (Option DirEntry)
  | _, [], _ => pure none
  | i, part :: parts, currentCluster => do
      match ← v.findEntryLog upper fuel currentCluster part with
      | some entry =>
          if i = length - 1 then return some entry
          else if entry.isDirectory then findPartsLog fuel length (i + 1) parts entry.cluster
          else .lift (.error (.err .notADirectory))
      | none => return none

def findPathLog (fuel : ℕ) (path : Str) : Reading (Option DirEntry) :=
  let path := path.dropWhile (· = '/')
  if path = [] then pure none
  else
    let parts := path.splitOn '/'
    v.findPartsLog upper fuel (parts.filter (· ≠ [])).length 0 parts .ROOT_DIR

def pathExistsLog (fuel : ℕ) (path : Str) : Reading Bool :=
  if path = ['/'] ∨ path = [] then pure true
  else do
    let entry ← v.findPathLog upper fuel path
    return entry.isSome

def readFileDataLog (B : Build) (fuel startCluster offset : ℕ) (buf : List UInt8) : Reading ℕ :=
  (v.readFileData B fuel startCluster offset buf).log

end Calls

/-! ### The results -/

variable {v : Fat16Impl} {upper : Char → Str} {fuel n : ℕ} {c : Cluster} {entries : List DirEntry}

@[simp]
theorem scanSectorsLog_result (sector : ℕ) : ∀ (left i : ℕ) (entries : List DirEntry),
    (v.scanSectorsLog sector left i entries).result = v.scanSectors sector left i entries
  | 0, _, _ => rfl
  | left + 1, i, entries => by
      rw [scanSectorsLog, scanSectors, Logged.bind_result]
      refine bind_congr fun block => ?_
      rw [Logged.bind_result]
      refine bind_congr fun r => ?_
      obtain ⟨entries', ended⟩ := r
      simp only
      split_ifs
      · rfl
      · exact scanSectorsLog_result sector left (i + 1) entries'

@[simp]
theorem scanClusterLog_result (cluster : Cluster) (entries : List DirEntry) :
    (v.scanClusterLog cluster entries).result = v.scanCluster cluster entries := by
  rw [scanClusterLog, scanCluster, Logged.bind_result]
  refine bind_congr fun n => ?_
  rw [Logged.bind_result, scanSectorsLog_result]
  refine bind_congr fun r => ?_
  obtain ⟨entries', ended⟩ := r
  simp only
  split_ifs
  · rfl
  · rw [followLog, Logged.bind_result]
    simp only [Logged.attempt_result, getNextClusterLog, bind, Except.bind]
    cases v.getNextCluster (cluster.val % 2 ^ 16) with
    | ok next => rfl
    | error stop => cases stop <;> rfl

@[simp]
theorem scanClustersLog_result : ∀ (fuel : ℕ) (cluster : Cluster) (entries : List DirEntry),
    (v.scanClustersLog fuel cluster entries).result = v.scanClusters fuel cluster entries
  | 0, _, _ => rfl
  | fuel + 1, cluster, entries => by
      rw [scanClustersLog, scanClusters, Logged.bind_result, scanClusterLog_result]
      refine bind_congr fun r => ?_
      obtain ⟨entries', next⟩ := r
      cases next with
      | none => rfl
      | some next => exact scanClustersLog_result fuel next entries'

theorem readDirEntriesLog_result (fuel : ℕ) (cluster : Cluster) :
    (v.readDirEntriesLog fuel cluster).result = v.readDirEntries fuel cluster :=
  scanClustersLog_result fuel cluster []

theorem findEntryLog_result (fuel : ℕ) (dir : Cluster) (name : Str) :
    (v.findEntryLog upper fuel dir name).result = v.findEntry upper fuel dir name := by
  rw [findEntryLog, findEntry, Logged.bind_result, readDirEntriesLog_result]
  refine bind_congr fun entries => ?_
  rw [Logged.bind_result]
  refine bind_congr fun name' => ?_
  split_ifs <;> rfl

theorem findPartsLog_result (length : ℕ) : ∀ (parts : List Str) (i : ℕ) (dir : Cluster),
    (v.findPartsLog upper fuel length i parts dir).result = v.findParts upper fuel length i parts dir
  | [], _, _ => rfl
  | part :: parts, i, dir => by
      rw [findPartsLog, findParts, Logged.bind_result, findEntryLog_result]
      refine bind_congr fun found => ?_
      cases found with
      | none => rfl
      | some entry =>
          simp only
          split_ifs
          · rfl
          · exact findPartsLog_result length parts (i + 1) entry.cluster
          · rfl

theorem findPathLog_result (fuel : ℕ) (path : Str) :
    (v.findPathLog upper fuel path).result = v.findPath upper fuel path := by
  rw [findPathLog, findPath]
  simp only
  split_ifs
  · rfl
  · exact findPartsLog_result _ _ _ _

theorem pathExistsLog_result (fuel : ℕ) (path : Str) :
    (v.pathExistsLog upper fuel path).result = v.pathExists upper fuel path := by
  rw [pathExistsLog, pathExists]
  split_ifs
  · rfl
  · rw [Logged.bind_result, findPathLog_result]
    rfl

/-- The log of the loop over the clusters before the offset. -/
def skipLog (v : Fat16Impl) (offset n cluster fileOffset : ℕ) : Reading (Option (ℕ × ℕ)) :=
  ⟨(v.skipClusters offset n cluster fileOffset).1, (v.skipClusters offset n cluster fileOffset).2⟩

/-! ### Where a call comes to -/

/-- The device cannot read the sector. -/
def Fails (v : Fat16Impl) (sector : ℕ) (stop : Stop) : Prop :=
  ∃ e, v.inner.readBlock sector = .error e ∧ stop = .err e

/-- The sector of the FAT with the entry of a cluster can be read. -/
def FatReadable (v : Fat16Impl) (cluster : ℕ) : Prop := ∀ s ∈ v.fatSectors cluster, v.Readable s

/-- No slot of a block is the end mark. -/
def Endless (v : Fat16Impl) (block : Block512) : Prop :=
  ∀ j < v.bpb.bytesPerSector / ENTRY_LEN, ∃ data, slot? block (j * ENTRY_LEN) = some data ∧
    isEnd data = false

/-- A cluster that the scan of a directory reads to its end and leaves for the next. -/
structure Unended (v : Fat16Impl) (c : Cluster) : Prop where
  ne_root : c ≠ .ROOT_DIR
  endless : ∃ blocks, v.Holds c blocks ∧ ∀ block ∈ blocks, v.Endless block

/-- The sectors of the FAT that the scan of a directory comes to can be read. -/
def DirReads (v : Fat16Impl) : ℕ → Cluster → Prop
  | 0, _ => True
  | n + 1, c => v.Unended c → v.FatReadable (c.val % 2 ^ 16) ∧
      ∀ next, v.getNextCluster (c.val % 2 ^ 16) = .ok (some next) → DirReads v n ⟨next⟩

/-- The same for the directories that the look-up of the parts of a path comes to. -/
def PartsRead (v : Fat16Impl) (upper : Char → Str) (n length : ℕ) : ℕ → List Str → Cluster → Prop
  | _, [], _ => True
  | i, part :: parts, dir => v.DirReads n dir ∧
      ∀ entry, v.findEntry upper n dir part = .ok (some entry) → i ≠ length - 1 →
        entry.isDirectory = true → PartsRead v upper n length (i + 1) parts entry.cluster

def PathReads (v : Fat16Impl) (upper : Char → Str) (n : ℕ) (path : Str) : Prop :=
  let parts := (path.dropWhile (· = '/')).splitOn '/'
  path.dropWhile (· = '/') ≠ [] →
    v.PartsRead upper n (parts.filter (· ≠ [])).length 0 parts .ROOT_DIR

/-- The sectors of the FAT that `read_file_data` comes to before the offset can be read. -/
def SkipReads (v : Fat16Impl) (offset : ℕ) : ℕ → ℕ → ℕ → Prop
  | 0, _, _ => True
  | n + 1, cluster, fileOffset => fileOffset + v.clusterSize ≤ offset →
      v.FatReadable cluster ∧ ∀ next, v.getNextCluster cluster = .ok (some next) →
        SkipReads v offset n next (fileOffset + v.clusterSize)

/-- The same behind the clusters whose sectors are read. -/
def DataReads (B : Build) (v : Fat16Impl) (offset : ℕ) : ℕ → ℕ → ℕ → ℕ → List UInt8 → Prop
  | 0, _, _, _, _ => True
  | n + 1, cluster, fileOffset, bytesRead, buf =>
      let o := v.dataSectors B (v.clusterToSector ⟨cluster⟩) fileOffset offset
        v.bpb.sectorsPerCluster 0 bytesRead buf
      bytesRead < buf.length → ∀ bytesRead', o.result = .ok bytesRead' →
        v.FatReadable cluster ∧ ∀ next, v.getNextCluster cluster = .ok (some next) →
          DataReads B v offset n next (fileOffset + v.clusterSize) bytesRead' o.buf

def FileDataReads (B : Build) (v : Fat16Impl) (n start offset : ℕ) (buf : List UInt8) : Prop :=
  v.SkipReads offset n start 0 ∧ ∀ cluster fileOffset,
    (v.skipClusters offset n start 0).1 = .ok (some (cluster, fileOffset)) →
      v.DataReads B offset n cluster fileOffset 0 buf

/-! ### Directories -/

variable {stop : Stop}

theorem fatReadable_iff {c : ℕ} :
    v.FatReadable c ↔ ∀ e, v.getNextCluster c ≠ .error (.err e) := by
  rw [FatReadable, fatSectors, getNextCluster]
  split_ifs with h0
  · exact iff_of_true (List.forall_mem_nil _) fun e => by rintro ⟨⟩
  · simp only [List.mem_singleton, forall_eq, bind, Except.bind]
    cases hblock : v.inner.readBlock (v.fatStart + c * 2 / v.bpb.bytesPerSector) with
    | error e =>
        refine iff_of_false ?_ fun h => h e rfl
        rintro ⟨block, h⟩
        cases hblock.symm.trans h
    | ok block =>
        refine iff_of_true ⟨block, hblock⟩ fun e => ?_
        simp only [FsResult.lift]
        split <;> rintro ⟨⟩

/-- A computation that reads the FAT and does not end with an error of the device. -/
theorem propagates_fat {α : Type} {x : Reading α} {c : ℕ} (hreads : x.reads = v.fatSectors c)
    (hresult : ∀ e, x.result ≠ .error (.err e)) : Propagates v.Fails x ↔ v.FatReadable c := by
  by_cases h0 : v.bpb.bytesPerSector = 0
  · rw [fatSectors, if_pos h0] at hreads
    refine iff_of_true (propagates_of_reads_nil hreads) fun s hs => ?_
    rw [fatSectors, if_pos h0] at hs
    cases hs
  · have hsector : v.fatSectors c = [v.fatStart + c * 2 / v.bpb.bytesPerSector] := if_neg h0
    rw [propagates_single (hreads.trans hsector), FatReadable, hsector]
    simp only [List.mem_singleton, forall_eq]
    constructor
    · intro h
      cases hblock : v.inner.readBlock (v.fatStart + c * 2 / v.bpb.bytesPerSector) with
      | ok block => exact ⟨block, hblock⟩
      | error e => exact absurd (h _ ⟨e, hblock, rfl⟩) (hresult e)
    · rintro ⟨block, hblock⟩ stop ⟨e, he, -⟩
      cases hblock.symm.trans he

theorem scanSlots_endless (block : Block512) : ∀ (left j : ℕ) (entries : List DirEntry),
    (∃ es, scanSlots block left j entries = .ok (es, false)) ↔
      ∀ i < left, ∃ data, slot? block ((j + i) * ENTRY_LEN) = some data ∧ isEnd data = false
  | 0, j, entries => iff_of_true ⟨entries, rfl⟩ fun i hi => absurd hi (Nat.not_lt_zero i)
  | left + 1, j, entries => by
      have hall : (∀ i < left + 1, ∃ data, slot? block ((j + i) * ENTRY_LEN) = some data ∧
            isEnd data = false) ↔ (∃ data, slot? block (j * ENTRY_LEN) = some data ∧
              isEnd data = false) ∧ ∀ i < left, ∃ data,
                slot? block ((j + 1 + i) * ENTRY_LEN) = some data ∧ isEnd data = false := by
        rw [Nat.forall_lt_succ_left']
        simp only [Nat.add_zero, Nat.add_assoc, Nat.add_comm 1]
      rw [hall, scanSlots]
      cases hslot : slot? block (j * ENTRY_LEN) with
      | none =>
          refine iff_of_false ?_ ?_
          · rintro ⟨es, ⟨⟩⟩
          · rintro ⟨⟨data, ⟨⟩, -⟩, -⟩
      | some data =>
          simp only [Option.some.injEq, exists_eq_left']
          cases hend : isEnd data with
          | true =>
              rw [if_pos rfl]
              refine iff_of_false ?_ ?_
              · rintro ⟨es, ⟨⟩⟩
              · rintro ⟨⟨⟩, -⟩
          | false =>
              rw [if_neg Bool.false_ne_true, and_iff_right rfl]
              split_ifs
              · exact scanSlots_endless block left (j + 1) entries
              · split
                · split_ifs
                  · exact scanSlots_endless block left (j + 1) _
                  · exact scanSlots_endless block left (j + 1) entries
                · exact scanSlots_endless block left (j + 1) entries

theorem scanSectors_endless (sector : ℕ) : ∀ (left i : ℕ) (entries : List DirEntry),
    (∃ es, v.scanSectors sector left i entries = .ok (es, false)) ↔
      ∃ blocks, v.Reads (sector + i) blocks ∧ blocks.length = left ∧
        ∀ block ∈ blocks, v.Endless block
  | 0, i, entries => iff_of_true ⟨entries, rfl⟩
      ⟨[], fun _ hi => absurd hi (Nat.not_lt_zero _), rfl, fun _ hb => nomatch hb⟩
  | left + 1, i, entries => by
      have hslots : ∀ block entries, (∃ es, scanSlots block (v.bpb.bytesPerSector / ENTRY_LEN) 0
          entries = .ok (es, false)) ↔ v.Endless block := fun block entries => by
        have h := scanSlots_endless block (v.bpb.bytesPerSector / ENTRY_LEN) 0 entries
        simp only [Nat.zero_add] at h
        exact h
      rw [scanSectors]
      constructor
      · rintro ⟨es, h⟩
        obtain ⟨block, hblock, h⟩ := Runs.bind_eq_ok.mp h
        obtain ⟨⟨es', ended⟩, hscan, h⟩ := Runs.bind_eq_ok.mp h
        cases ended with
        | true => cases h
        | false =>
            obtain ⟨blocks, hreads, hlen, hall⟩ :=
              (scanSectors_endless sector left (i + 1) es').mp ⟨es, h⟩
            refine ⟨block :: blocks, fun k hk => ?_, congrArg Nat.succ hlen, fun b hb => ?_⟩
            · cases k with
              | zero => exact FsResult.lift_eq_ok.mp hblock
              | succ k =>
                  rw [show sector + i + (k + 1) = sector + (i + 1) + k by omega]
                  exact hreads k (Nat.lt_of_succ_lt_succ hk)
            · rcases List.mem_cons.mp hb with rfl | hb
              · exact (hslots b entries).mp ⟨es', hscan⟩
              · exact hall b hb
      · rintro ⟨blocks, hreads, hlen, hall⟩
        obtain ⟨block, blocks, rfl⟩ := List.exists_cons_of_length_eq_add_one hlen
        have hblock : v.inner.readBlock (sector + i) = .ok block := hreads 0 (Nat.zero_lt_succ _)
        obtain ⟨es', hscan⟩ := (hslots block entries).mpr (hall block List.mem_cons_self)
        have hrest : v.Reads (sector + (i + 1)) blocks := fun k hk => by
          rw [show sector + (i + 1) + k = sector + i + (k + 1) by omega]
          exact hreads (k + 1) (Nat.succ_lt_succ hk)
        obtain ⟨es, hes⟩ := (scanSectors_endless sector left (i + 1) es').mpr
          ⟨blocks, hrest, Nat.succ.inj hlen, fun b hb => hall b (List.mem_cons_of_mem _ hb)⟩
        refine ⟨es, ?_⟩
        simp only [hblock, FsResult.lift, hscan, bind, Except.bind]
        rw [if_neg Bool.false_ne_true]
        exact hes

theorem scanSectorsLog_propagates (sector : ℕ) : ∀ (left i : ℕ) (entries : List DirEntry),
    Propagates v.Fails (v.scanSectorsLog sector left i entries)
  | 0, _, _ => propagates_pure _
  | left + 1, i, entries => by
      rw [scanSectorsLog]
      refine Propagates.bind ((propagates_single rfl).mpr ?_) fun block _ => ?_
      · rintro stop ⟨e, he, rfl⟩
        rw [readBlockLog, he]
        rfl
      · refine (propagates_lift _).bind fun ⟨es, ended⟩ _ => ?_
        simp only
        split_ifs
        · exact propagates_pure _
        · exact scanSectorsLog_propagates sector left (i + 1) es

theorem scanSectorsLog_quiet (sector left i : ℕ) (entries : List DirEntry) :
    Quiet v.Fails (v.scanSectorsLog sector left i entries) := by
  cases left with
  | zero => exact quiet_pure _
  | succ left => exact quiet_of_reads (Logged.reads_bind_ne_nil (List.cons_ne_nil _ _))

theorem quiet_stop {α : Type} (h : ∀ e, stop ≠ .err e) :
    Quiet v.Fails (.lift (.error stop) : Reading α) :=
  quiet_lift fun _ _ ⟨e, _, he⟩ heq => h e ((Except.error.inj heq).trans he)

theorem followLog_reads (c : Cluster) (entries : List DirEntry) :
    (v.followLog c entries).reads = v.fatSectors (c.val % 2 ^ 16) ∧
      ∀ e, (v.followLog c entries).result ≠ .error (.err e) := by
  rw [followLog, Logged.bind_ok (a := (v.getNextClusterLog (c.val % 2 ^ 16)).result) rfl]
  simp only [getNextClusterLog, Logged.attempt]
  cases v.getNextCluster (c.val % 2 ^ 16) with
  | ok next => exact ⟨List.append_nil _, fun e => nofun⟩
  | error stop => cases stop <;> exact ⟨List.append_nil _, fun e => nofun⟩

theorem followLog_quiet (c : Cluster) (entries : List DirEntry) :
    Quiet v.Fails (v.followLog c entries) :=
  fun _ _ _ ⟨e, _, he⟩ hresult => (followLog_reads c entries).2 e (he ▸ hresult)

theorem dirSectors_ne_root (h : c ≠ .ROOT_DIR) : v.dirSectors c = .ok v.bpb.sectorsPerCluster :=
  if_neg h

theorem scanLength_ne_root (h : c ≠ .ROOT_DIR) : v.scanLength c = v.bpb.sectorsPerCluster := if_neg h

/-- A cluster is left for the next after a scan of its sectors that meets no end mark. -/
theorem unended_iff (h : c ≠ .ROOT_DIR) (entries : List DirEntry) : v.Unended c ↔
    ∃ es, v.scanSectors (v.clusterToSector c) v.bpb.sectorsPerCluster 0 entries = .ok (es, false) := by
  rw [scanSectors_endless, Nat.add_zero]
  constructor
  · rintro ⟨-, blocks, ⟨hreads, hlen⟩, hall⟩
    exact ⟨blocks, hreads, hlen.trans (scanLength_ne_root h), hall⟩
  · rintro ⟨blocks, hreads, hlen, hall⟩
    exact ⟨h, blocks, ⟨hreads, hlen.trans (scanLength_ne_root h).symm⟩, hall⟩

theorem round_quiet (c : Cluster) (r : List DirEntry × Bool) : Quiet v.Fails
    (if r.2 ∨ c = .ROOT_DIR then pure (r.1, none) else v.followLog c r.1) := by
  split_ifs
  · exact quiet_pure _
  · exact followLog_quiet c r.1

theorem scanClusterLog_quiet (c : Cluster) (entries : List DirEntry) :
    Quiet v.Fails (v.scanClusterLog c entries) := by
  refine Quiet.bind (quiet_lift fun _ _ ⟨e, _, he⟩ => ?_) fun n _ =>
    (scanSectorsLog_quiet _ n 0 entries).bind fun r _ => round_quiet c r
  rw [dirSectors, he]
  split_ifs <;> exact nofun

theorem scanClusterLog_propagates_iff (c : Cluster) (entries : List DirEntry) :
    Propagates v.Fails (v.scanClusterLog c entries) ↔
      (v.Unended c → v.FatReadable (c.val % 2 ^ 16)) := by
  have hfollow : ∀ es, Propagates v.Fails (v.followLog c es) ↔ v.FatReadable (c.val % 2 ^ 16) :=
    fun es => propagates_fat (followLog_reads c es).1 (followLog_reads c es).2
  constructor
  · intro h hunended
    obtain ⟨es, hscan⟩ := (unended_iff hunended.ne_root entries).mp hunended
    have hrest := (h.of_bind (dirSectors_ne_root hunended.ne_root)).of_bind
      ((scanSectorsLog_result _ _ _ _).trans hscan)
    simp only at hrest
    rwa [if_neg (not_or.mpr ⟨Bool.false_ne_true, hunended.ne_root⟩), hfollow] at hrest
  · intro h
    refine (propagates_lift _).bind fun n hn => (scanSectorsLog_propagates _ n 0 entries).bind ?_
    rintro ⟨es, ended⟩ hscan
    simp only
    split_ifs with hstop
    · exact propagates_pure _
    · rw [not_or, Bool.not_eq_true] at hstop
      obtain ⟨rfl, hroot⟩ := hstop
      cases hn.symm.trans (dirSectors_ne_root hroot)
      rw [scanSectorsLog_result] at hscan
      exact (hfollow es).mpr (h ((unended_iff hroot entries).mpr ⟨es, hscan⟩))

theorem scanCluster_next_iff {next : Cluster} : (∃ es, v.scanCluster c entries = .ok (es, some next)) ↔
    v.Unended c ∧ v.getNextCluster (c.val % 2 ^ 16) = .ok (some next.val) := by
  rw [scanCluster]
  constructor
  · rintro ⟨es, hround⟩
    obtain ⟨n, hn, hrest⟩ := Runs.bind_eq_ok.mp hround
    obtain ⟨⟨es', ended⟩, hscan, h⟩ := Runs.bind_eq_ok.mp hrest
    simp only at h
    clear hround hrest
    split_ifs at h with hstop
    · cases h
    · rw [not_or, Bool.not_eq_true] at hstop
      obtain ⟨rfl, hroot⟩ := hstop
      cases hn.symm.trans (dirSectors_ne_root hroot)
      refine ⟨(unended_iff hroot entries).mpr ⟨es', hscan⟩, ?_⟩
      cases hnext : v.getNextCluster (c.val % 2 ^ 16) with
      | error stop =>
          rw [hnext] at h
          cases stop <;> cases h
      | ok found =>
          rw [hnext] at h
          cases found with
          | none => cases h
          | some d =>
              cases h
              rfl
  · rintro ⟨hunended, hnext⟩
    obtain ⟨es, hscan⟩ := (unended_iff hunended.ne_root entries).mp hunended
    refine ⟨es, ?_⟩
    simp only [dirSectors_ne_root hunended.ne_root, hscan, bind, Except.bind]
    rw [if_neg (not_or.mpr ⟨Bool.false_ne_true, hunended.ne_root⟩), hnext]
    rfl

theorem scanClustersLog_quiet : ∀ (n : ℕ) (c : Cluster) (entries : List DirEntry),
    Quiet v.Fails (v.scanClustersLog n c entries)
  | 0, _, _ => quiet_stop nofun
  | n + 1, c, entries => by
      rw [scanClustersLog]
      refine (scanClusterLog_quiet c entries).bind fun ⟨es, next⟩ _ => ?_
      cases next with
      | none => exact quiet_pure _
      | some next => exact scanClustersLog_quiet n next es

theorem scanClustersLog_propagates_iff : ∀ (n : ℕ) (c : Cluster) (entries : List DirEntry),
    Propagates v.Fails (v.scanClustersLog n c entries) ↔ v.DirReads n c
  | 0, _, _ => iff_of_true (propagates_lift _) trivial
  | n + 1, c, entries => by
      rw [scanClustersLog, propagates_bind_iff, scanClusterLog_propagates_iff, DirReads]
      · simp only [scanClusterLog_result, Prod.forall]
        constructor
        · rintro ⟨hfat, hrest⟩ hunended
          refine ⟨hfat hunended, fun next hnext => ?_⟩
          obtain ⟨es, hround⟩ := scanCluster_next_iff.mpr ⟨hunended, hnext⟩
          exact (scanClustersLog_propagates_iff n ⟨next⟩ es).mp (hrest es (some ⟨next⟩) hround)
        · intro h
          refine ⟨fun hunended => (h hunended).1, fun es next hround => ?_⟩
          cases next with
          | none => exact propagates_pure _
          | some next =>
              obtain ⟨hunended, hnext⟩ := scanCluster_next_iff.mp ⟨es, hround⟩
              exact (scanClustersLog_propagates_iff n next es).mpr ((h hunended).2 _ hnext)
      · rintro ⟨es, next⟩ -
        cases next with
        | none => exact quiet_pure _
        | some next => exact scanClustersLog_quiet n next es

/-! ### Paths -/

/-- The device gives its own errors only. -/
def DeviceErrors (v : Fat16Impl) : Prop :=
  ∀ s e, v.inner.readBlock s = .error e → ∃ d, e = .deviceError d

variable {dir : Cluster} {name path : Str}

theorem parse_ne_device {d : DeviceError} :
    ShortFileName.parse upper name ≠ .error (.err (.deviceError d)) := by
  rw [ShortFileName.parse]
  simp only
  split_ifs <;> rintro ⟨⟩

theorem readDirEntriesLog_propagates_iff (n : ℕ) (c : Cluster) :
    Propagates v.Fails (v.readDirEntriesLog n c) ↔ v.DirReads n c :=
  scanClustersLog_propagates_iff n c []

/-- The end of a look-up in a directory reads nothing. -/
theorem lookup_quiet (hdevice : v.DeviceErrors) (entries : List DirEntry) :
    Quiet v.Fails (do
      let targetName ← .lift (ShortFileName.parse upper name)
      if name = [] then return none
      else return entries.find? fun entry => entry.filename = targetName : Reading (Option DirEntry)) := by
  refine (quiet_lift ?_).bind fun target _ => ?_
  · rintro s stop ⟨e, he, rfl⟩
    obtain ⟨d, rfl⟩ := hdevice s e he
    exact parse_ne_device
  · split_ifs
    · exact quiet_pure _
    · exact quiet_pure _

theorem findEntryLog_quiet (hdevice : v.DeviceErrors) :
    Quiet v.Fails (v.findEntryLog upper n dir name) :=
  (scanClustersLog_quiet n dir []).bind fun entries _ => lookup_quiet hdevice entries

theorem findEntryLog_propagates (h : v.DirReads n dir) :
    Propagates v.Fails (v.findEntryLog upper n dir name) := by
  refine ((readDirEntriesLog_propagates_iff n dir).mpr h).bind fun entries _ =>
    (propagates_lift _).bind fun target _ => ?_
  split_ifs
  · exact propagates_pure _
  · exact propagates_pure _

theorem dirReads_of_findEntryLog (hdevice : v.DeviceErrors)
    (h : Propagates v.Fails (v.findEntryLog upper n dir name)) : v.DirReads n dir :=
  (readDirEntriesLog_propagates_iff n dir).mp
    (h.bind_left fun entries _ => lookup_quiet hdevice entries)

theorem notADirectory_quiet (hdevice : v.DeviceErrors) :
    Quiet v.Fails (.lift (.error (.err .notADirectory)) : Reading (Option DirEntry)) := by
  refine quiet_lift fun s stop ⟨e, he, hstop⟩ => ?_
  obtain ⟨d, rfl⟩ := hdevice s e he
  rw [hstop]
  exact nofun

theorem found_quiet (hdevice : v.DeviceErrors) {last : Prop} [Decidable last]
    {rest : DirEntry → Reading (Option DirEntry)} (hrest : ∀ entry, Quiet v.Fails (rest entry)) :
    ∀ found : Option DirEntry, Quiet v.Fails (match found with
      | some entry =>
          if last then pure (some entry)
          else if entry.isDirectory then rest entry else .lift (.error (.err .notADirectory))
      | none => pure none)
  | none => quiet_pure _
  | some entry => by
      simp only
      split_ifs
      · exact quiet_pure _
      · exact hrest entry
      · exact notADirectory_quiet hdevice

theorem findPartsLog_quiet (hdevice : v.DeviceErrors) (length : ℕ) :
    ∀ (parts : List Str) (i : ℕ) (dir : Cluster),
      Quiet v.Fails (v.findPartsLog upper n length i parts dir)
  | [], _, _ => quiet_pure _
  | part :: parts, i, dir => by
      rw [findPartsLog]
      refine (findEntryLog_quiet hdevice).bind fun found _ =>
        found_quiet hdevice (fun entry => ?_) found
      exact findPartsLog_quiet hdevice length parts (i + 1) entry.cluster

theorem findPartsLog_propagates (length : ℕ) : ∀ (parts : List Str) (i : ℕ) (dir : Cluster),
    v.PartsRead upper n length i parts dir →
      Propagates v.Fails (v.findPartsLog upper n length i parts dir)
  | [], _, _, _ => propagates_pure _
  | part :: parts, i, dir, h => by
      rw [findPartsLog]
      refine (findEntryLog_propagates h.1).bind fun found hfound => ?_
      rw [findEntryLog_result] at hfound
      cases found with
      | none => exact propagates_pure _
      | some entry =>
          simp only
          split_ifs with hlast hdir
          · exact propagates_pure _
          · exact findPartsLog_propagates length parts (i + 1) entry.cluster
              (h.2 entry hfound hlast hdir)
          · exact propagates_lift _

theorem partsRead_of_propagates (hdevice : v.DeviceErrors) (length : ℕ) :
    ∀ (parts : List Str) (i : ℕ) (dir : Cluster),
      Propagates v.Fails (v.findPartsLog upper n length i parts dir) →
        v.PartsRead upper n length i parts dir
  | [], _, _, _ => trivial
  | part :: parts, i, dir, h => by
      rw [findPartsLog] at h
      refine ⟨dirReads_of_findEntryLog hdevice (h.bind_left fun found _ => ?_),
        fun entry hfound hlast hdir => ?_⟩
      · refine found_quiet hdevice (fun entry => ?_) found
        exact findPartsLog_quiet hdevice length parts (i + 1) entry.cluster
      · have hrest := h.of_bind ((findEntryLog_result n dir part).trans hfound)
        simp only [if_neg hlast, hdir, if_true] at hrest
        exact partsRead_of_propagates hdevice length parts (i + 1) entry.cluster hrest

theorem findPathLog_propagates (h : v.PathReads upper n path) :
    Propagates v.Fails (v.findPathLog upper n path) := by
  rw [findPathLog]
  simp only
  split_ifs with hempty
  · exact propagates_pure _
  · exact findPartsLog_propagates _ _ _ _ (h hempty)

theorem pathReads_of_findPathLog (hdevice : v.DeviceErrors)
    (h : Propagates v.Fails (v.findPathLog upper n path)) : v.PathReads upper n path := by
  intro hempty
  rw [findPathLog] at h
  simp only [if_neg hempty] at h
  exact partsRead_of_propagates hdevice _ _ _ _ h

theorem pathExistsLog_propagates_iff (hroot : ¬ (path = ['/'] ∨ path = [])) :
    Propagates v.Fails (v.pathExistsLog upper n path) ↔
      Propagates v.Fails (v.findPathLog upper n path) := by
  rw [pathExistsLog, if_neg hroot, propagates_bind_iff fun _ _ => quiet_pure _]
  exact and_iff_left fun _ _ => propagates_pure _

/-! ### File data -/

variable {B : Build} {offset : ℕ}

theorem fatSectors_ne_nil {cluster next : ℕ} (h : v.getNextCluster cluster = .ok (some next)) :
    v.fatSectors cluster ≠ [] := by
  rw [fatSectors, if_neg]
  · exact List.cons_ne_nil _ _
  · intro h0
    rw [getNextCluster, if_pos h0] at h
    cases h

theorem fatReadable_of_ok {cluster : ℕ} {next : Option ℕ} (h : v.getNextCluster cluster = .ok next) :
    v.FatReadable cluster := by
  rw [fatReadable_iff, h]
  exact fun e => nofun

section Links
variable {α : Type} {cluster : ℕ} {P : ℕ → Prop} {found : Fs (Option ℕ)}

/-- A computation that ends behind a cluster. -/
theorem fat_ends {x : Reading α} (hreads : x.reads = v.fatSectors cluster)
    (hresult : ∀ e, x.result ≠ .error (.err e)) (hend : ∀ next, found ≠ .ok (some next)) :
    Quiet v.Fails x ∧ (Propagates v.Fails x ↔
      v.FatReadable cluster ∧ ∀ next, found = .ok (some next) → P next) :=
  ⟨fun _ _ _ ⟨e, _, he⟩ h => hresult e (he ▸ h),
    (propagates_fat hreads hresult).trans (and_iff_left fun next h => absurd h (hend next)).symm⟩

/-- A computation that goes on to the next cluster and to what is read there. -/
theorem fat_goes_on {next : ℕ} {y : Reading α} (h : v.getNextCluster cluster = .ok (some next))
    (hy : Propagates v.Fails y ↔ P next) :
    Quiet v.Fails (⟨y.result, v.fatSectors cluster ++ y.reads⟩ : Reading α) ∧
      (Propagates v.Fails (⟨y.result, v.fatSectors cluster ++ y.reads⟩ : Reading α) ↔
        v.FatReadable cluster ∧ ∀ next', (.ok (some next) : Fs (Option ℕ)) = .ok (some next') →
          P next') := by
  have hfat : Propagates v.Fails (v.getNextClusterLog cluster) :=
    (propagates_fat rfl fun e he => by cases h.symm.trans he).mpr (fatReadable_of_ok h)
  refine ⟨quiet_of_reads (List.append_ne_nil_of_left_ne_nil (fatSectors_ne_nil h) _),
    (hfat.append_iff h y).trans (hy.trans ?_)⟩
  constructor
  · refine fun hP => ⟨fatReadable_of_ok h, fun next' h' => ?_⟩
    cases h'
    exact hP
  · exact fun hall => hall.2 next rfl

end Links

theorem skipClusters_propagates_iff : ∀ (n cluster fileOffset : ℕ),
    Quiet v.Fails (v.skipLog offset n cluster fileOffset) ∧
      (Propagates v.Fails (v.skipLog offset n cluster fileOffset) ↔
        v.SkipReads offset n cluster fileOffset)
  | 0, _, _ => ⟨quiet_stop fun e => nofun, iff_of_true (propagates_of_reads_nil rfl) trivial⟩
  | n + 1, cluster, fileOffset => by
      rw [skipLog, skipClusters, SkipReads]
      by_cases hskip : fileOffset + v.clusterSize ≤ offset
      · rw [if_pos hskip, imp_iff_right hskip]
        cases hnext : v.getNextCluster cluster with
        | error stop =>
            cases stop <;>
              exact fat_ends rfl (fun e he => by cases he) fun next h => by cases h
        | ok found =>
            cases found with
            | none => exact fat_ends rfl (fun e he => by cases he) fun next h => by cases h
            | some next =>
                exact fat_goes_on (y := v.skipLog offset n next (fileOffset + v.clusterSize))
                  (P := fun next => v.SkipReads offset n next (fileOffset + v.clusterSize)) hnext
                  (skipClusters_propagates_iff n next (fileOffset + v.clusterSize)).2
      · rw [if_neg hskip]
        exact ⟨quiet_pure _, iff_of_true (propagates_of_reads_nil rfl) fun h => absurd h hskip⟩

theorem dataSectors_cases (sector fileOffset offset left i b : ℕ) (buf : List UInt8) :
    let o := v.dataSectors B sector fileOffset offset (left + 1) i b buf
    (o.result = .ok b ∧ o.sectors = []) ∨
      (∃ e, v.inner.readBlock (sector + i) = .error e ∧ o.result = .error (.err e) ∧
        o.sectors = [sector + i]) ∨
      v.Readable (sector + i) ∧ ((o.result = .error .panic ∧ o.sectors = [sector + i]) ∨
        ∃ b' buf', let rest := v.dataSectors B sector fileOffset offset left (i + 1) b' buf'
          o.result = rest.result ∧ o.sectors = (sector + i) :: rest.sectors) := by
  intro o
  obtain ⟨o', ho⟩ : ∃ o', o' = o := ⟨o, rfl⟩
  rw [← ho]
  unfold o at ho
  rw [dataSectors] at ho
  by_cases hdone : b ≥ buf.length
  · rw [if_pos hdone] at ho
    exact Or.inl (ho ▸ ⟨rfl, rfl⟩)
  · rw [if_neg hdone] at ho
    refine Or.inr ?_
    cases hblock : v.inner.readBlock (sector + i) with
    | error e =>
        rw [hblock] at ho
        exact Or.inl ⟨e, rfl, ho ▸ rfl, ho ▸ rfl⟩
    | ok block =>
        refine Or.inr ⟨⟨block, hblock⟩, ?_⟩
        rw [hblock] at ho
        simp only at ho
        generalize (if offset > fileOffset + i * v.bpb.bytesPerSector then
          offset - (fileOffset + i * v.bpb.bytesPerSector) else 0) = start at ho
        cases hsub : B.sub v.bpb.bytesPerSector start with
        | error e =>
            rw [hsub] at ho
            exact Or.inl (ho ▸ ⟨rfl, rfl⟩)
        | ok room =>
            rw [hsub] at ho
            simp only at ho
            split_ifs at ho
            · subst ho
              exact Or.inr ⟨_, _, rfl, rfl⟩
            · exact Or.inl (ho ▸ ⟨rfl, rfl⟩)
            · subst ho
              exact Or.inr ⟨_, _, rfl, rfl⟩

theorem dataSectors_propagates (sector fileOffset offset : ℕ) : ∀ (left i b : ℕ) (buf : List UInt8),
    Propagates v.Fails (v.dataSectors B sector fileOffset offset left i b buf).log ∧
      Quiet v.Fails (v.dataSectors B sector fileOffset offset left i b buf).log
  | 0, _, _, _ => ⟨propagates_of_reads_nil rfl, quiet_pure _⟩
  | left + 1, i, b, buf => by
      have hcases := dataSectors_cases (B := B) (v := v) sector fileOffset offset left i b buf
      simp only at hcases
      rw [DataOutcome.log]
      rcases hcases with ⟨hok, hnil⟩ | ⟨e, hblock, herror, hread⟩ | ⟨⟨block, hblock⟩, hcases⟩
      · rw [hok, hnil]
        exact ⟨propagates_of_reads_nil rfl, quiet_pure _⟩
      · rw [herror, hread]
        refine ⟨(propagates_single rfl).mpr ?_, quiet_of_reads (List.cons_ne_nil _ _)⟩
        rintro stop ⟨e', he', rfl⟩
        cases hblock.symm.trans he'
        rfl
      · have hsingle : ∀ {α : Type} (result : Fs α),
            Propagates v.Fails (⟨result, [sector + i]⟩ : Reading α) :=
          fun result => (propagates_single rfl).mpr fun stop ⟨e, he, _⟩ => by
            cases hblock.symm.trans he
        rcases hcases with ⟨hpanic, hread⟩ | ⟨b', buf', hresult, hreads⟩
        · rw [hpanic, hread]
          exact ⟨hsingle _, quiet_of_reads (List.cons_ne_nil _ _)⟩
        · rw [hresult, hreads]
          refine ⟨?_, quiet_of_reads (List.cons_ne_nil _ _)⟩
          exact (hsingle (.ok ())).bind fun _ _ =>
            (dataSectors_propagates sector fileOffset offset left (i + 1) b' buf').1

theorem dataClusters_propagates_iff : ∀ (n cluster fileOffset b : ℕ) (buf : List UInt8),
    Quiet v.Fails (v.dataClusters B offset n cluster fileOffset b buf).log ∧
      (Propagates v.Fails (v.dataClusters B offset n cluster fileOffset b buf).log ↔
        v.DataReads B offset n cluster fileOffset b buf)
  | 0, _, _, _, _ =>
      ⟨quiet_stop fun e => by rintro ⟨⟩, iff_of_true (propagates_of_reads_nil rfl) trivial⟩
  | n + 1, cluster, fileOffset, b, buf => by
      rw [dataClusters, DataReads]
      by_cases hmore : b < buf.length
      · obtain ⟨hprop, hquiet⟩ := dataSectors_propagates (v := v) (B := B)
          (v.clusterToSector ⟨cluster⟩) fileOffset offset v.bpb.sectorsPerCluster 0 b buf
        rw [if_pos hmore]
        simp only [imp_iff_right hmore]
        generalize v.dataSectors B (v.clusterToSector ⟨cluster⟩) fileOffset offset
          v.bpb.sectorsPerCluster 0 b buf = o at hprop hquiet ⊢
        cases hres : o.result with
        | error stop => exact ⟨hquiet, iff_of_true hprop fun b' h => by cases h⟩
        | ok b' =>
            -- what follows the sectors of the cluster
            have hcut : ∀ (y : Reading ℕ) {Q : Prop}, Quiet v.Fails y ∧ (Propagates v.Fails y ↔ Q) →
                Quiet v.Fails (⟨y.result, o.sectors ++ y.reads⟩ : Reading ℕ) ∧
                  (Propagates v.Fails (⟨y.result, o.sectors ++ y.reads⟩ : Reading ℕ) ↔ Q) :=
              fun y Q hy => ⟨hy.1.append _, (hprop.append_iff hres y).trans hy.2⟩
            simp only [Except.ok.injEq, forall_eq']
            cases hnext : v.getNextCluster cluster with
            | error stop =>
                cases stop <;> exact hcut ⟨_, v.fatSectors cluster⟩
                  (fat_ends rfl (fun e he => by cases he) fun next h => by cases h)
            | ok found =>
                cases found with
                | none =>
                    exact hcut ⟨_, v.fatSectors cluster⟩
                      (fat_ends rfl (fun e he => by cases he) fun next h => by cases h)
                | some next =>
                    have hrest := (dataClusters_propagates_iff n next (fileOffset + v.clusterSize) b'
                      o.buf).2
                    have hgo := hcut _ (fat_goes_on
                      (P := fun next =>
                        v.DataReads B offset n next (fileOffset + v.clusterSize) b' o.buf)
                      hnext hrest)
                    simp only [← List.append_assoc] at hgo
                    exact hgo
      · rw [if_neg hmore]
        exact ⟨quiet_pure _, iff_of_true (propagates_of_reads_nil rfl) fun h => absurd h hmore⟩

theorem readFileDataLog_eq (n start offset : ℕ) (buf : List UInt8) :
    v.readFileDataLog B n start offset buf = v.skipLog offset n start 0 >>= fun skipped =>
      match skipped with
      | none => pure 0
      | some (cluster, fileOffset) => (v.dataClusters B offset n cluster fileOffset 0 buf).log := by
  rw [readFileDataLog, DataOutcome.log, readFileData, skipLog]
  obtain ⟨skipped, sectors⟩ := v.skipClusters offset n start 0
  cases skipped with
  | error stop => rfl
  | ok skipped =>
      rw [Logged.bind_ok (a := skipped) rfl]
      cases skipped with
      | none => exact congrArg (Logged.mk _) (List.append_nil _).symm
      | some next => rfl

theorem readFileDataLog_propagates_iff (n start offset : ℕ) (buf : List UInt8) :
    Propagates v.Fails (v.readFileDataLog B n start offset buf) ↔
      v.FileDataReads B n start offset buf := by
  rw [readFileDataLog_eq, propagates_bind_iff, (skipClusters_propagates_iff n start 0).2,
    FileDataReads]
  · refine and_congr_right fun _ => ⟨fun h cluster fileOffset hskip => ?_, fun h skipped hskip => ?_⟩
    · exact (dataClusters_propagates_iff n cluster fileOffset 0 buf).2.mp
        (h (some (cluster, fileOffset)) hskip)
    · cases skipped with
      | none => exact propagates_pure _
      | some next =>
          obtain ⟨cluster, fileOffset⟩ := next
          exact (dataClusters_propagates_iff n cluster fileOffset 0 buf).2.mpr
            (h cluster fileOffset hskip)
  · intro skipped _
    cases skipped with
    | none => exact quiet_pure _
    | some next => exact (dataClusters_propagates_iff n next.1 next.2 0 buf).1

/-! ### All calls -/

/-- A block that a call cannot read is the last one, and its error is the result of the call. -/
def EndsAtFault {α : Type} (v : Fat16Impl) (call : Fs α) (log : Reading α) : Prop :=
  log.result = call ∧ Propagates v.Fails log

/-- **Failing blocks.**  A call ends at a block that cannot be read, with its error, if the sectors of
the FAT that it comes to can be read; and only then, for the look-ups on a device that gives its own
errors only. -/
theorem faults_propagate_iff (v : Fat16Impl) (upper : Char → Str) (B : Build) (n : ℕ) :
    (∀ c, v.EndsAtFault (v.readDirEntries n c) (v.readDirEntriesLog n c) ↔ v.DirReads n c) ∧
      (∀ start offset buf, v.EndsAtFault (v.readFileData B n start offset buf).result
        (v.readFileDataLog B n start offset buf) ↔ v.FileDataReads B n start offset buf) ∧
      (∀ c name, (v.DirReads n c →
          v.EndsAtFault (v.findEntry upper n c name) (v.findEntryLog upper n c name)) ∧
        (v.DeviceErrors → v.EndsAtFault (v.findEntry upper n c name) (v.findEntryLog upper n c name) →
          v.DirReads n c)) ∧
      ∀ path, (v.PathReads upper n path →
          v.EndsAtFault (v.findPath upper n path) (v.findPathLog upper n path)) ∧
        (v.DeviceErrors → v.EndsAtFault (v.findPath upper n path) (v.findPathLog upper n path) →
          v.PathReads upper n path) ∧
        (v.EndsAtFault (v.pathExists upper n path) (v.pathExistsLog upper n path) ↔
          v.EndsAtFault (v.findPath upper n path) (v.findPathLog upper n path)) := by
  refine ⟨fun c => ?_, fun start offset buf => ?_, fun c name => ⟨fun h => ?_, fun hdevice h => ?_⟩,
    fun path => ⟨fun h => ?_, fun hdevice h => ?_, ?_⟩⟩
  · exact (and_iff_right (readDirEntriesLog_result n c)).trans (readDirEntriesLog_propagates_iff n c)
  · exact (and_iff_right rfl).trans (readFileDataLog_propagates_iff n start offset buf)
  · exact ⟨findEntryLog_result n c name, findEntryLog_propagates h⟩
  · exact dirReads_of_findEntryLog hdevice h.2
  · exact ⟨findPathLog_result n path, findPathLog_propagates h⟩
  · exact pathReads_of_findPathLog hdevice h.2
  · rw [EndsAtFault, EndsAtFault, and_iff_right (pathExistsLog_result n path),
      and_iff_right (findPathLog_result n path)]
    by_cases hroot : path = ['/'] ∨ path = []
    · refine iff_of_true ?_ (findPathLog_propagates fun hempty => absurd ?_ hempty)
      · rw [pathExistsLog, if_pos hroot]
        exact propagates_pure _
      · rcases hroot with rfl | rfl <;> rfl
    · exact pathExistsLog_propagates_iff hroot

end Fat16Impl

/-- A disk whose FAT cannot be read, with an entry in every slot of the other sectors. -/
def noFatDisk : BlockDevice where
  readBlock s :=
    if s = 1 then .error (.deviceError .readError) else .ok (blockOf (List.replicate BLOCK_SIZE 65))

/-- The layout of the small volume. -/
def noFatVolume : Fat16Impl := { smallVolume with inner := noFatDisk }

/-- The root directory, which has no entry in the FAT. -/
theorem faults_propagate_iff_example : noFatVolume.EndsAtFault (noFatVolume.readDirEntries 1 .ROOT_DIR)
    (noFatVolume.readDirEntriesLog 1 .ROOT_DIR) :=
  ((Fat16Impl.faults_propagate_iff noFatVolume (fun c => [c]) .release 1).1 .ROOT_DIR).mpr
    fun h => absurd rfl h.ne_root

/-- The directory in cluster 2 is listed up to the end of its first cluster. -/
theorem fat_error_swallowed : ¬ ∀ (v : Fat16Impl) (n : ℕ) (c : Cluster),
    v.EndsAtFault (v.readDirEntries n c) (v.readDirEntriesLog n c) := by
  intro hall
  have hreads : (noFatVolume.readDirEntriesLog 1 ⟨2⟩).reads = [3] ++ 1 :: [] := by decide +kernel
  have hresult := ((hall noFatVolume 1 ⟨2⟩).2 [3] 1 [] (.err (.deviceError .readError)) hreads
    ⟨_, rfl, rfl⟩).2
  revert hresult
  decide +kernel

end Ysos.Fat16
