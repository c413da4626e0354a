import Ysos.File
import Ysos.Build

/-! # The other reader of file data

`read_file_data` skips the clusters before an offset, and subtracts the position of every sector from
the offset, where `read` divides.

* `readFileData`: the code.
* `readers_agree_iff`: on a chain of readable data clusters it gives what `read` gives, unless the
  offset lies behind the first sector of its cluster. -/

namespace Ysos.Fat16

open Windows

/-! ### The code -/

/-- What `read_file_data` leaves behind: the result, the buffer and the sectors that were read. -/
structure DataOutcome where
  result : Fs ℕ
  buf : List UInt8
  sectors : List ℕ

namespace Fat16Impl

variable (B : Build) (v : Fat16Impl)

/-- The sector of the FAT that `get_next_cluster` reads. -/
def fatSectors (cluster : ℕ) : List ℕ :=
  if v.bpb.bytesPerSector = 0 then [] else [v.fatStart + cluster * 2 / v.bpb.bytesPerSector]

/-- The loop over the clusters before the offset, with fuel: the cluster and its offset in the file,
or the end of the file. -/
def skipClusters (offset : ℕ) : ℕ → ℕ → ℕ → Fs (Option (ℕ × ℕ)) × List ℕ
  | 0, _, _ => (.error .outOfFuel, [])
  | fuel + 1, cluster, fileOffset =>
      if fileOffset + v.clusterSize ≤ offset then
        match v.getNextCluster cluster with
        | .ok (some next) =>
            let (result, sectors) := skipClusters offset fuel next (fileOffset + v.clusterSize)
            (result, v.fatSectors cluster ++ sectors)
        | .ok none => (.ok none, v.fatSectors cluster)
        -- an error of the FAT is the end of the file
        | .error (.err _) => (.ok none, v.fatSectors cluster)
        | .error stop => (.error stop, v.fatSectors cluster)
      else (.ok (some (cluster, fileOffset)), [])

/-- The loop over the sectors of a cluster from `i` on, with the number of bytes read so far. -/
def dataSectors (sector fileOffset offset : ℕ) : ℕ → ℕ → ℕ → List UInt8 → DataOutcome
  | 0, _, bytesRead, buf => ⟨.ok bytesRead, buf, []⟩
  | left + 1, i, bytesRead, buf =>
      if bytesRead ≥ buf.length then ⟨.ok bytesRead, buf, []⟩
      else
        match v.inner.readBlock (sector + i) with
        | .error e => ⟨.error (.err e), buf, [sector + i]⟩
        | .ok block =>
            let sectorOffsetInFile := fileOffset + i * v.bpb.bytesPerSector
            let startInSector :=
              if offset > sectorOffsetInFile then offset - sectorOffsetInFile else 0
            match B.sub v.bpb.bytesPerSector startInSector with
            | .error _ => ⟨.error .panic, buf, [sector + i]⟩
            | .ok room =>
                let bytesToRead := min room (buf.length - bytesRead)
                if bytesToRead > 0 then
                  if startInSector + bytesToRead ≤ BLOCK_SIZE then
                    let o := dataSectors sector fileOffset offset left (i + 1)
                      (bytesRead + bytesToRead) (copyAt buf bytesRead
                        ((block.toList.drop startInSector).take bytesToRead))
                    { o with sectors := (sector + i) :: o.sectors }
                  else ⟨.error .panic, buf, [sector + i]⟩
                else
                  let o := dataSectors sector fileOffset offset left (i + 1) bytesRead buf
                  { o with sectors := (sector + i) :: o.sectors }

/-- The loop over the clusters, with fuel. -/
def dataClusters (offset : ℕ) : ℕ → ℕ → ℕ → ℕ → List UInt8 → DataOutcome
  | 0, _, _, _, buf => ⟨.error .outOfFuel, buf, []⟩
  | fuel + 1, cluster, fileOffset, bytesRead, buf =>
      if bytesRead < buf.length then
        let o := v.dataSectors B (v.clusterToSector ⟨cluster⟩) fileOffset offset
          v.bpb.sectorsPerCluster 0 bytesRead buf
        match o.result with
        | .error _ => o
        | .ok bytesRead =>
            let sectors := o.sectors ++ v.fatSectors cluster
            match v.getNextCluster cluster with
            | .ok (some next) =>
                let rest := dataClusters offset fuel next (fileOffset + v.clusterSize) bytesRead o.buf
                { rest with sectors := sectors ++ rest.sectors }
            | .ok none => { o with sectors := sectors }
            -- an error of the FAT is the end of the file
            | .error (.err _) => { o with sectors := sectors }
            | .error stop => ⟨.error stop, o.buf, sectors⟩
      else ⟨.ok bytesRead, buf, []⟩

def readFileData (fuel startCluster offset : ℕ) (buf : List UInt8) : DataOutcome :=
  let (skipped, sectors) := v.skipClusters offset fuel startCluster 0
  match skipped with
  | .error stop => ⟨.error stop, buf, sectors⟩
  | .ok none => ⟨.ok 0, buf, sectors⟩
  | .ok (some (cluster, fileOffset)) =>
      let o := v.dataClusters B offset fuel cluster fileOffset 0 buf
      { o with sectors := sectors ++ o.sectors }

end Fat16Impl

/-! ### A chain to its end -/

/-- The whole chain of data clusters from a cluster on, all of them readable. -/
structure Fat16Impl.WholeChain (v : Fat16Impl) (start : ℕ) (clusters : List ℕ) : Prop where
  sectors : v.bpb.bytesPerSector = BLOCK_SIZE
  head : clusters.head? = some start
  chain : v.Chain ⟨start⟩ clusters
  last : ∀ c ∈ clusters.getLast?, v.getNextCluster c = .ok none
  readable : ∀ c ∈ clusters, ∀ s ∈ v.clusterSectors ⟨c⟩, v.Readable s

namespace Fat16Impl.WholeChain

variable {v : Fat16Impl} {start : ℕ} {clusters : List ℕ} {offset i : ℕ}

theorem next (h : v.WholeChain start clusters) (hi : i < clusters.length) :
    v.getNextCluster clusters[i] = .ok clusters[i + 1]? := by
  by_cases hnext : i + 1 < clusters.length
  · rw [h.chain.next hnext, List.getElem?_eq_getElem hnext]
  · have hlast : clusters.getLast? = some clusters[i] := by
      rw [List.getLast?_eq_getElem?, show clusters.length - 1 = i by omega,
        List.getElem?_eq_getElem hi]
    rw [h.last _ hlast, List.getElem?_eq_none (Nat.not_lt.mp hnext)]

theorem skipClusters_eq (h : v.WholeChain start clusters)
    (hoffset : offset ≤ clusters.length * v.clusterSize) :
    ∀ (fuel i : ℕ) (hi : i < clusters.length), clusters.length - i < fuel →
      i * v.clusterSize ≤ offset →
      ∃ sectors, v.skipClusters offset fuel clusters[i] (i * v.clusterSize) =
        (.ok (if offset = clusters.length * v.clusterSize then none
          else (clusters[offset / v.clusterSize]?).map
            fun c => (c, offset / v.clusterSize * v.clusterSize)), sectors) := by
  intro fuel
  induction fuel with
  | zero => exact fun _ _ hfuel => absurd hfuel (Nat.not_lt_zero _)
  | succ fuel ih =>
      intro i hi hfuel hle
      rw [skipClusters, ← Nat.succ_mul]
      by_cases hskip : (i + 1) * v.clusterSize ≤ offset
      · rw [if_pos hskip, h.next hi]
        by_cases hnext : i + 1 < clusters.length
        · obtain ⟨sectors, hrest⟩ := ih (i + 1) hnext (by omega) hskip
          rw [List.getElem?_eq_getElem hnext]
          simp only [hrest]
          exact ⟨_, rfl⟩
        · have hend : offset = clusters.length * v.clusterSize :=
            le_antisymm hoffset (by rwa [show clusters.length = i + 1 by omega])
          rw [List.getElem?_eq_none (Nat.not_lt.mp hnext), if_pos hend]
          exact ⟨_, rfl⟩
      · rw [if_neg hskip]
        have hdiv : offset / v.clusterSize = i :=
          Nat.div_eq_of_lt_le hle (Nat.lt_of_not_le hskip)
        have hend : offset ≠ clusters.length * v.clusterSize := fun he =>
          hskip (he ▸ Nat.mul_le_mul_right _ hi)
        rw [if_neg hend, hdiv, List.getElem?_eq_getElem hi]
        exact ⟨_, rfl⟩

end Fat16Impl.WholeChain

/-! ### The bytes -/

namespace Fat16Impl.Serves

variable {v : Fat16Impl} {entry : DirEntry} {clusters : List ℕ} {offset i : ℕ} {buf S : List UInt8}

theorem content_sector (h : v.Serves entry clusters)
    (hsize : entry.size = clusters.length * v.clusterSize) (hi : i < clusters.length) {j r n : ℕ}
    (hj : j < v.bpb.sectorsPerCluster) (hr : r + n ≤ BLOCK_SIZE) :
    ((v.content entry clusters).drop (i * v.clusterSize + (j * BLOCK_SIZE + r))).take n =
      ((v.sectorBytes (v.clusterToSector ⟨clusters[i]⟩ + j)).drop r).take n := by
  have hread := h.readable _ (List.getElem_mem hi)
  have hj' : j < (v.sectorList (v.clusterToSector ⟨clusters[i]⟩)).length := by
    rwa [sectorList_length]
  have hin : (j * BLOCK_SIZE + r) + n ≤ v.clusterSize := by
    rw [clusterSize, h.sectors]
    have := Nat.mul_le_mul_right BLOCK_SIZE hj
    rw [Nat.succ_mul] at this
    omega
  have hend : i * v.clusterSize + (j * BLOCK_SIZE + r) + n ≤ entry.size := by
    have := Nat.mul_le_mul_right v.clusterSize hi
    rw [Nat.succ_mul, ← hsize] at this
    omega
  rw [h.content_window hi hin hend, clusterBytes, clusterSectors, List.flatMap_def,
    ← sectorList, window_flatten (sectorList_size hread) hj' hr, sectorList_getElem hj']

/-- The loop over the sectors of a cluster copies the content from the offset on, if the offset is
not behind the first sector. -/
theorem dataSectors_eq (B : Build) (h : v.Serves entry clusters)
    (hsize : entry.size = clusters.length * v.clusterSize) (hi : i < clusters.length)
    (hS : S = (v.content entry clusters).drop offset)
    (hfirst : offset ≤ i * v.clusterSize + BLOCK_SIZE) (hoffset : offset ≤ (i + 1) * v.clusterSize) :
    ∀ left j b, j + left = v.bpb.sectorsPerCluster → b ≤ buf.length →
      offset + b ≤ max offset (i * v.clusterSize + j * BLOCK_SIZE) →
      (b < buf.length → offset + b = max offset (i * v.clusterSize + j * BLOCK_SIZE)) →
      ∃ b' sectors, v.dataSectors B (v.clusterToSector ⟨clusters[i]⟩) (i * v.clusterSize) offset
          left j b (filled S b buf) = ⟨.ok b', filled S b' buf, sectors⟩ ∧
        b' ≤ buf.length ∧ offset + b' ≤ (i + 1) * v.clusterSize ∧
          (b' < buf.length → offset + b' = (i + 1) * v.clusterSize) := by
  have hcs : v.clusterSize = v.bpb.sectorsPerCluster * BLOCK_SIZE := by rw [clusterSize, h.sectors]
  have hend : (i + 1) * v.clusterSize ≤ entry.size := hsize ▸ Nat.mul_le_mul_right _ hi
  have hsucc : (i + 1) * v.clusterSize = i * v.clusterSize + v.clusterSize := Nat.succ_mul _ _
  have hSlen : S.length = entry.size - offset := by
    rw [hS, List.length_drop, h.length_content]
  intro left
  induction left with
  | zero =>
      intro j b hj hb hle hpos
      have hmax : max offset (i * v.clusterSize + j * BLOCK_SIZE) = (i + 1) * v.clusterSize := by
        rw [hsucc, hcs, ← hj, Nat.add_zero] at hoffset ⊢
        exact max_eq_right hoffset
      rw [hmax] at hle hpos
      exact ⟨b, [], rfl, hb, hle, hpos⟩
  | succ left ih =>
      intro j b hj hb hle hpos
      have hj' : j < v.bpb.sectorsPerCluster := by omega
      have hfits := Nat.mul_le_mul_right BLOCK_SIZE hj'
      rw [Nat.succ_mul, ← hcs] at hfits
      have hstep : (j + 1) * BLOCK_SIZE = j * BLOCK_SIZE + BLOCK_SIZE := Nat.succ_mul _ _
      have hBpos : 0 < BLOCK_SIZE := Nat.zero_lt_succ _
      by_cases hmore : b < buf.length
      · replace hpos := hpos hmore
        have hlen : (filled S b buf).length = buf.length := length_filled (by omega) hb
        obtain ⟨block, hblock⟩ := h.readable _ (List.getElem_mem hi)
          (v.clusterToSector ⟨clusters[i]⟩ + j)
          (List.mem_range'_1.mpr ⟨Nat.le_add_right _ _, by omega⟩)
        obtain ⟨start, hstart⟩ : ∃ start, start =
            if offset > i * v.clusterSize + j * BLOCK_SIZE then
              offset - (i * v.clusterSize + j * BLOCK_SIZE) else 0 := ⟨_, rfl⟩
        have hstart_le : start ≤ BLOCK_SIZE := by
          rw [hstart]
          split_ifs <;> omega
        have hposition : offset + b = i * v.clusterSize + (j * BLOCK_SIZE + start) := by
          rw [hstart]
          split_ifs <;> omega
        obtain ⟨n, hn⟩ : ∃ n, n = min (BLOCK_SIZE - start) (buf.length - b) := ⟨_, rfl⟩
        have hsub : B.sub BLOCK_SIZE start = .ok (BLOCK_SIZE - start) := if_pos hstart_le
        obtain ⟨b', sectors, hrest, hb'⟩ := ih (j + 1) (b + n) (by omega) (by omega) (by omega)
          (by omega)
        rw [dataSectors, hlen, if_neg (Nat.not_le.mpr hmore)]
        simp only [hblock, h.sectors, ← hstart, hsub, ← hn]
        by_cases hn0 : 0 < n
        · have hcopy : (block.toList.drop start).take n = (S.drop b).take n := by
            have hbytes : v.sectorBytes (v.clusterToSector ⟨clusters[i]⟩ + j) = block.toList := by
              rw [sectorBytes, hblock]
            rw [hS, List.drop_drop, hposition, h.content_sector hsize hi hj' (by omega), hbytes]
          rw [if_pos hn0, if_pos (by omega), hcopy, copyAt_filled (by omega), hrest]
          exact ⟨b', _, rfl, hb'⟩
        · obtain rfl : n = 0 := by omega
          rw [if_neg hn0]
          simp only [Nat.add_zero] at hrest
          rw [hrest]
          exact ⟨b', _, rfl, hb'⟩
      · have hlen : (filled S b buf).length ≤ b := by
          rw [filled_self (by omega), List.length_take]
          exact min_le_left _ _
        rw [dataSectors, if_pos hlen]
        exact ⟨b, [], rfl, hb, by omega, fun hlt => absurd hlt hmore⟩

end Fat16Impl.Serves

namespace Fat16Impl.WholeChain

variable {v : Fat16Impl} {entry : DirEntry} {start : ℕ} {clusters : List ℕ} {offset i : ℕ}
  {buf S : List UInt8}

theorem serves (h : v.WholeChain start clusters) (hspc : 1 ≤ v.bpb.sectorsPerCluster)
    (hentry : entry.cluster = ⟨start⟩) (hsize : entry.size = clusters.length * v.clusterSize) :
    v.Serves entry clusters where
  sectors := h.sectors
  nonempty := hspc
  chain := hentry ▸ h.chain
  enough := hsize.le
  readable := h.readable

/-- The loop over the clusters copies the content from the offset on. -/
theorem dataClusters_eq (B : Build) (h : v.WholeChain start clusters) (hserves : v.Serves entry clusters)
    (hsize : entry.size = clusters.length * v.clusterSize)
    (hS : S = (v.content entry clusters).drop offset) :
    ∀ (fuel i b : ℕ) (hi : i < clusters.length), clusters.length - i < fuel → b ≤ buf.length →
      offset ≤ i * v.clusterSize + BLOCK_SIZE → offset < (i + 1) * v.clusterSize →
      offset + b ≤ max offset (i * v.clusterSize) →
      (b < buf.length → offset + b = max offset (i * v.clusterSize)) →
      ∃ sectors, v.dataClusters B offset fuel clusters[i] (i * v.clusterSize) b (filled S b buf) =
        ⟨.ok (min buf.length (entry.size - offset)),
          filled S (min buf.length (entry.size - offset)) buf, sectors⟩ := by
  have hSlen : S.length = entry.size - offset := by
    rw [hS, List.length_drop, hserves.length_content]
  intro fuel
  induction fuel with
  | zero => exact fun _ _ _ hfuel => absurd hfuel (Nat.not_lt_zero _)
  | succ fuel ih =>
      intro i b hi hfuel hb hfirst hoffset hle hpos
      have hend : (i + 1) * v.clusterSize ≤ entry.size := hsize ▸ Nat.mul_le_mul_right _ hi
      have hsucc : (i + 1) * v.clusterSize = i * v.clusterSize + v.clusterSize := Nat.succ_mul _ _
      have hbuf : (filled S b buf).length = buf.length := length_filled (by omega) hb
      rw [dataClusters, hbuf]
      by_cases hmore : b < buf.length
      · obtain ⟨b', sectors, hrun, hb', hle', hpos'⟩ := hserves.dataSectors_eq B hsize hi hS hfirst
          hoffset.le v.bpb.sectorsPerCluster 0 b (Nat.zero_add _) hb
          (by rwa [Nat.zero_mul, Nat.add_zero]) (by rwa [Nat.zero_mul, Nat.add_zero])
        rw [if_pos hmore]
        simp only [hrun, h.next hi]
        by_cases hnext : i + 1 < clusters.length
        · -- the first sector of the next cluster is not before the offset
          have hsucc' : (i + 1 + 1) * v.clusterSize = (i + 1) * v.clusterSize + v.clusterSize :=
            Nat.succ_mul _ _
          obtain ⟨sectors', hrest⟩ := ih (i + 1) b' hnext (by omega) hb' (by omega) (by omega)
            (by omega) (by omega)
          rw [List.getElem?_eq_getElem hnext, ← Nat.succ_mul]
          simp only [hrest]
          exact ⟨_, rfl⟩
        · have hlast : (i + 1) * v.clusterSize = entry.size := by
            rw [hsize, show clusters.length = i + 1 by omega]
          have hdone : b' = min buf.length (entry.size - offset) := by omega
          rw [List.getElem?_eq_none (Nat.not_lt.mp hnext), ← hdone]
          exact ⟨_, rfl⟩
      · have hdone : b = min buf.length (entry.size - offset) := by omega
        rw [if_neg hmore, ← hdone]
        exact ⟨[], rfl⟩

/-- What the loop over the skipped clusters leads to. -/
theorem readFileData_end (B : Build) (buf : List UInt8) (h : v.WholeChain start clusters)
    (hoffset : offset = clusters.length * v.clusterSize) {n : ℕ} (hn : clusters.length < n) :
    ∃ sectors, v.readFileData B n start offset buf = ⟨.ok 0, buf, sectors⟩ := by
  obtain ⟨hi, hstart⟩ := List.getElem?_eq_some_iff.mp (List.head?_eq_getElem? ▸ h.head)
  obtain ⟨sectors, hskip⟩ := h.skipClusters_eq hoffset.le n 0 hi hn (by simp)
  rw [hstart, Nat.zero_mul, if_pos hoffset] at hskip
  refine ⟨sectors, ?_⟩
  rw [readFileData, hskip]

theorem readFileData_skip (B : Build) (buf : List UInt8) (h : v.WholeChain start clusters)
    (hoffset : offset < clusters.length * v.clusterSize) {n : ℕ} (hn : clusters.length < n) :
    ∃ (hi : offset / v.clusterSize < clusters.length) (sectors : List ℕ),
      v.readFileData B n start offset buf =
        let o := v.dataClusters B offset n clusters[offset / v.clusterSize]
          (offset / v.clusterSize * v.clusterSize) 0 buf
        { o with sectors := sectors ++ o.sectors } := by
  have hi : offset / v.clusterSize < clusters.length :=
    Nat.div_lt_of_lt_mul (by rwa [Nat.mul_comm])
  obtain ⟨h0, hstart⟩ := List.getElem?_eq_some_iff.mp (List.head?_eq_getElem? ▸ h.head)
  obtain ⟨sectors, hskip⟩ := h.skipClusters_eq hoffset.le n 0 h0 hn (by simp)
  rw [hstart, Nat.zero_mul, if_neg hoffset.ne, List.getElem?_eq_getElem hi] at hskip
  refine ⟨hi, sectors, ?_⟩
  rw [readFileData, hskip]
  rfl

theorem dataClusters_panic (B : Build) (h : v.WholeChain start clusters) (hi : i < clusters.length)
    (hfirst : i * v.clusterSize + BLOCK_SIZE < offset) (hoffset : offset < (i + 1) * v.clusterSize)
    (hbuf : buf ≠ []) (n : ℕ) :
    (v.dataClusters B offset (n + 1) clusters[i] (i * v.clusterSize) 0 buf).result =
      .error .panic := by
  have hlen : 0 < buf.length := List.length_pos_of_ne_nil hbuf
  have hsucc : (i + 1) * v.clusterSize = i * v.clusterSize + v.clusterSize := Nat.succ_mul _ _
  have hcs : v.clusterSize = v.bpb.sectorsPerCluster * BLOCK_SIZE := by rw [clusterSize, h.sectors]
  have hbyte : v.bpb.sectorsPerCluster < 256 := v.bpb.data[0x0D].toNat_lt
  obtain ⟨m, hm⟩ := Nat.exists_eq_succ_of_ne_zero (n := v.bpb.sectorsPerCluster) (by
    rintro h0
    rw [h0, Nat.zero_mul] at hcs
    omega)
  obtain ⟨block, hblock⟩ := h.readable _ (List.getElem_mem hi) (v.clusterToSector ⟨clusters[i]⟩)
    (List.mem_range'_1.mpr ⟨le_rfl, by omega⟩)
  obtain ⟨start, hstart⟩ : ∃ start, start = offset - i * v.clusterSize := ⟨_, rfl⟩
  have hrun : (v.dataSectors B (v.clusterToSector ⟨clusters[i]⟩) (i * v.clusterSize) offset
      (m + 1) 0 0 buf).result = .error .panic := by
    rw [dataSectors, if_neg (Nat.not_le.mpr hlen)]
    simp only [Nat.add_zero, hblock, h.sectors, Nat.zero_mul]
    rw [if_pos (by omega), ← hstart, Build.sub, if_neg (by omega)]
    split_ifs with hdebug
    · rfl
    · -- the difference wraps, and the slice does not lie in the block
      have hwrap : (BLOCK_SIZE + (U64 - start)) % U64 = BLOCK_SIZE + (U64 - start) := by
        refine Nat.mod_eq_of_lt ?_
        simp only [U64, BLOCK_SIZE] at *
        omega
      have hroom : 0 < BLOCK_SIZE + (U64 - start) := Nat.add_pos_left (Nat.zero_lt_succ _) _
      simp only [hwrap]
      rw [if_pos (by omega), if_neg (by omega)]
  rw [dataClusters, if_pos hlen, hm]
  simp only [hrun]

end Fat16Impl.WholeChain

/-- `read_file_data` and `read` copy the content from the offset on, as far as the buffer has room. -/
def Agrees (B : Build) (f : File) (content : List UInt8) (start n : ℕ) (buf : List UInt8) : Prop :=
  let m := min buf.length (content.length - f.offset)
  let o := f.handle.readFileData B n start f.offset buf
  let o' := f.read buf
  (o.result = .ok m ∧ o.buf = filled (content.drop f.offset) m buf) ∧
    o'.result = .ok m ∧ o'.buf = filled (content.drop f.offset) m buf

variable {v : Fat16Impl} {entry : DirEntry} {start offset : ℕ} {clusters : List ℕ}

theorem content_length (h : v.WholeChain start clusters) (hentry : entry.cluster = ⟨start⟩)
    (hsize : entry.size = clusters.length * v.clusterSize) :
    (v.content entry clusters).length = entry.size := by
  by_cases hspc : 1 ≤ v.bpb.sectorsPerCluster
  · exact (h.serves hspc hentry hsize).length_content
  · have h0 : entry.size = 0 := by
      rw [hsize, Fat16Impl.clusterSize, Nat.lt_one_iff.mp (Nat.not_le.mp hspc), Nat.zero_mul,
        Nat.mul_zero]
    rw [Fat16Impl.content, h0]
    rfl

theorem read_whole (h : v.WholeChain start clusters) (hentry : entry.cluster = ⟨start⟩)
    (hsize : entry.size = clusters.length * v.clusterSize) (offset : ℕ) (cur : Cluster)
    (buf : List UInt8) :
    ((⟨offset, cur, entry, v⟩ : File).read buf).result =
        .ok (min buf.length (entry.size - offset)) ∧
      ((⟨offset, cur, entry, v⟩ : File).read buf).buf =
        filled ((v.content entry clusters).drop offset) (min buf.length (entry.size - offset)) buf := by
  by_cases hend : offset < entry.size
  · have hspc : 1 ≤ v.bpb.sectorsPerCluster := by
      refine Nat.one_le_iff_ne_zero.mpr fun h0 => ?_
      rw [hsize, Fat16Impl.clusterSize, h0, Nat.zero_mul, Nat.mul_zero] at hend
      exact absurd hend (Nat.not_lt_zero _)
    obtain ⟨_, _, n, hn, hread⟩ :=
      File.read_eq (f := ⟨offset, cur, entry, v⟩) (h.serves hspc hentry hsize) buf
    subst hn
    exact ⟨by rw [hread], by rw [hread]⟩
  · rw [File.read, if_pos (Nat.not_lt.mp hend), Nat.sub_eq_zero_of_le (Nat.not_lt.mp hend),
      Nat.min_zero, filled_zero]
    exact ⟨rfl, rfl⟩

/-- **Two readers.**  On a whole chain of readable data clusters, `read_file_data` returns, with
enough fuel, the count and the bytes that `read` returns, exactly when there is nothing to read or the
offset lies in the first sector of its cluster or at its end. -/
theorem readers_agree_iff (B : Build) (h : v.WholeChain start clusters)
    (hentry : entry.cluster = ⟨start⟩) (hsize : entry.size = clusters.length * v.clusterSize)
    (hoffset : offset ≤ entry.size) (cur : Cluster) (buf : List UInt8) :
    (∀ᶠ n in Filter.atTop,
      Agrees B ⟨offset, cur, entry, v⟩ (v.content entry clusters) start n buf) ↔
    buf = [] ∨ offset = entry.size ∨ offset % v.clusterSize ≤ BLOCK_SIZE := by
  have hread := read_whole h hentry hsize offset cur buf
  have hdiv : offset / v.clusterSize * v.clusterSize + offset % v.clusterSize = offset :=
    Nat.div_add_mod' _ _
  have hsucc : (offset / v.clusterSize + 1) * v.clusterSize =
      offset / v.clusterSize * v.clusterSize + v.clusterSize := Nat.succ_mul _ _
  have hpos : offset < entry.size → 0 < v.clusterSize := fun hlt => by
    refine Nat.pos_of_ne_zero fun h0 => ?_
    rw [hsize, h0] at hlt
    exact absurd hlt (Nat.not_lt_zero _)
  simp only [Agrees, content_length h hentry hsize, hread, and_true]
  constructor
  · intro hagree
    by_contra hnot
    rw [not_or, not_or] at hnot
    obtain ⟨hbuf, hne, hfirst⟩ := hnot
    have hlt : offset < entry.size := lt_of_le_of_ne hoffset hne
    have hr := Nat.mod_lt offset (hpos hlt)
    have hbehind : offset / v.clusterSize * v.clusterSize + BLOCK_SIZE < offset := by omega
    have hwithin : offset < (offset / v.clusterSize + 1) * v.clusterSize := by omega
    obtain ⟨n, hn, hlarge⟩ := (hagree.and (Filter.eventually_gt_atTop clusters.length)).exists
    obtain ⟨hi, sectors, hrun⟩ := h.readFileData_skip B buf (hsize ▸ hlt) hlarge
    obtain ⟨m, rfl⟩ := Nat.exists_eq_succ_of_ne_zero (Nat.ne_of_gt (Nat.zero_lt_of_lt hlarge))
    have hpanic := h.dataClusters_panic B hi hbehind hwithin hbuf m
    rw [hrun] at hn
    cases hpanic.symm.trans hn.1
  · intro hcond
    filter_upwards [Filter.eventually_gt_atTop clusters.length] with n hn
    by_cases hlt : offset < entry.size
    · obtain ⟨hi, sectors, hrun⟩ := h.readFileData_skip B buf (hsize ▸ hlt) hn
      rw [hrun]
      have hr := Nat.mod_lt offset (hpos hlt)
      have hwithin : offset < (offset / v.clusterSize + 1) * v.clusterSize := by omega
      have hmax : max offset (offset / v.clusterSize * v.clusterSize) = offset :=
        max_eq_left (Nat.div_mul_le_self _ _)
      by_cases hbuf : buf = []
      · obtain ⟨m, rfl⟩ := Nat.exists_eq_succ_of_ne_zero (Nat.ne_of_gt (Nat.zero_lt_of_lt hn))
        subst hbuf
        simp [Fat16Impl.dataClusters]
      · have hfirst := (hcond.resolve_left hbuf).resolve_left hlt.ne
        have hspc : 1 ≤ v.bpb.sectorsPerCluster := Nat.pos_of_mul_pos_right (hpos hlt)
        have hserves := h.serves hspc hentry hsize
        have hbefore : offset ≤ offset / v.clusterSize * v.clusterSize + BLOCK_SIZE := by omega
        obtain ⟨sectors', hdata⟩ := h.dataClusters_eq B hserves hsize rfl n
          (offset / v.clusterSize) 0 hi (Nat.lt_of_le_of_lt (Nat.sub_le _ _) hn) (Nat.zero_le _)
          hbefore hwithin hmax.ge
          fun _ => hmax.symm
        rw [filled_zero] at hdata
        rw [hdata]
        exact ⟨rfl, rfl⟩
    · obtain rfl : offset = entry.size := le_antisymm hoffset (Nat.not_lt.mp hlt)
      obtain ⟨sectors, hrun⟩ := h.readFileData_end B buf hsize hn
      rw [hrun, Nat.sub_self, Nat.min_zero, filled_zero]
      exact ⟨rfl, rfl⟩

/-- Two sectors a cluster, and a FAT that ends the chain behind cluster 2. -/
def wideVolume : Fat16Impl where
  bpb := ⟨bootOf 2 2⟩
  inner := { readBlock := fun s => .ok (blockOf (if s = 1 then [0, 0, 0, 0, 0xFF, 0xFF] else [7])) }
  fatStart := 1
  firstDataSector := 3
  firstRootDirSector := 2

theorem wideVolume_chain : wideVolume.WholeChain 2 [2] where
  sectors := by decide +kernel
  head := rfl
  chain := ⟨by simp, by simp [Fat16Impl.IsData], .singleton 2⟩
  last := by
    intro c hc
    cases hc
    decide +kernel
  readable := fun c _ s _ => ⟨_, rfl⟩

/-- A file that fills the cluster. -/
def wideFile : DirEntry := { smallFile with size := 1024 }

/-- From the start of its second sector on. -/
theorem readers_agree_example : ∀ᶠ n in Filter.atTop,
    Agrees .release ⟨512, ⟨2⟩, wideFile, wideVolume⟩ (wideVolume.content wideFile [2]) 2 n [0, 0] :=
  (readers_agree_iff .release wideVolume_chain rfl (by decide +kernel) (by decide) ⟨2⟩ [0, 0]).mpr
    (Or.inr (Or.inr (by decide +kernel)))

/-- From the second byte of its second sector on. -/
theorem second_sector_panics : ¬ ∀ (B : Build) (v : Fat16Impl) (entry : DirEntry) (start offset : ℕ)
    (clusters : List ℕ) (buf : List UInt8), v.WholeChain start clusters →
      entry.cluster = ⟨start⟩ → entry.size = clusters.length * v.clusterSize →
      offset ≤ entry.size → ∀ᶠ n in Filter.atTop,
        Agrees B ⟨offset, ⟨start⟩, entry, v⟩ (v.content entry clusters) start n buf := by
  intro hall
  have hagree := hall .release wideVolume wideFile 2 513 [2] [0] wideVolume_chain rfl
    (by decide +kernel) (by decide)
  obtain ⟨n, hn, hpos⟩ := (hagree.and (Filter.eventually_gt_atTop 1)).exists
  obtain ⟨hi, sectors, hrun⟩ := wideVolume_chain.readFileData_skip .release [0]
    (show 513 < 1 * wideVolume.clusterSize by decide +kernel) hpos
  obtain ⟨m, rfl⟩ := Nat.exists_eq_succ_of_ne_zero (Nat.ne_of_gt (Nat.zero_lt_of_lt hpos))
  have hpanic := wideVolume_chain.dataClusters_panic .release hi
    (show _ < 513 by decide +kernel) (by decide +kernel) (List.cons_ne_nil 0 []) m
  have hok := hn.1.1
  rw [hrun] at hok
  cases hpanic.symm.trans hok

end Ysos.Fat16
