import Ysos.Directory

/-! # Reading a file

`File.read` copies the file from its offset on into a buffer: it follows the FAT to the cluster of
the offset, and then goes from sector to sector and from cluster to cluster.

* `Windows.copyAt_filled`: copying the next elements of a stream fills a buffer further.
* `File.read_eq`: one call, at any offset.
* `sequential_reads`: calls with any buffers read the content of the file one after the other. -/

/-! ### Windows of a list

A reader copies a stream piece by piece into a buffer, at positions that need not be those where
the pieces of the stream begin. -/

namespace Windows

variable {β : Type*} {S T buf xs : List β} {b n m k : ℕ}

/-- `buf[b..b + xs.len()].copy_from_slice(xs)`. -/
def copyAt (buf : List β) (b : ℕ) (xs : List β) : List β :=
  buf.take b ++ (xs ++ buf.drop (b + xs.length))

theorem length_copyAt (h : b + xs.length ≤ buf.length) : (copyAt buf b xs).length = buf.length := by
  simp only [copyAt, List.length_append, List.length_take, List.length_drop]
  omega

/-- The buffer with its first `b` elements from the stream `S`. -/
def filled (S : List β) (b : ℕ) (buf : List β) : List β := S.take b ++ buf.drop b

@[simp]
theorem filled_zero (S buf : List β) : filled S 0 buf = buf := by simp [filled]

theorem length_filled (hS : b ≤ S.length) (hb : b ≤ buf.length) :
    (filled S b buf).length = buf.length := by
  simp only [filled, List.length_append, List.length_take, List.length_drop]
  omega

theorem take_filled (hS : b ≤ S.length) : (filled S b buf).take b = S.take b := by
  rw [filled, List.take_append_of_le_length (by rw [List.length_take]; omega), List.take_take,
    min_self]

theorem drop_filled (hS : b ≤ S.length) (n : ℕ) :
    (filled S b buf).drop (b + n) = buf.drop (b + n) := by
  have hlen : (S.take b).length = b := by
    rw [List.length_take]
    omega
  rw [filled, ← List.drop_drop, List.drop_left' hlen, List.drop_drop]

/-- The next `n` elements of the stream. -/
theorem copyAt_filled (hS : b + n ≤ S.length) :
    copyAt (filled S b buf) b ((S.drop b).take n) = filled S (b + n) buf := by
  have hb : b ≤ S.length := Nat.le_of_add_right_le hS
  have hlen : ((S.drop b).take n).length = n := by
    rw [List.length_take, List.length_drop]
    omega
  rw [copyAt, take_filled hb, hlen, drop_filled hb, filled, List.take_add, List.append_assoc]

theorem filled_self (hn : buf.length ≤ n) : filled S n buf = S.take n := by
  rw [filled, List.drop_eq_nil_of_le hn, List.append_nil]

/-! ### Pieces -/

variable {L : List (List β)}

theorem length_flatten (hL : ∀ x ∈ L, x.length = k) : L.flatten.length = L.length * k := by
  rw [List.length_flatten, List.map_congr_left hL, List.map_const', List.sum_replicate, smul_eq_mul]

theorem drop_flatten (hL : ∀ x ∈ L, x.length = k) {i : ℕ} (hi : i < L.length) {r : ℕ} (hr : r ≤ k) :
    L.flatten.drop (i * k + r) = L[i].drop r ++ (L.drop (i + 1)).flatten := by
  induction L generalizing i with
  | nil => exact absurd hi (Nat.not_lt_zero _)
  | cons x L ih =>
      have hx : x.length = k := hL x List.mem_cons_self
      cases i with
      | zero =>
          rw [Nat.zero_mul, Nat.zero_add, List.flatten_cons,
            List.drop_append_of_le_length (hx ▸ hr)]
          rfl
      | succ i =>
          have hlen : (i + 1) * k + r = x.length + (i * k + r) := by
            rw [hx]
            ring
          rw [List.flatten_cons, hlen, List.drop_append, List.drop_eq_nil_of_le (by omega),
            Nat.add_sub_cancel_left, List.nil_append]
          exact ih (fun y hy => hL y (List.mem_cons_of_mem _ hy)) (Nat.lt_of_succ_lt_succ hi)

theorem window_flatten (hL : ∀ x ∈ L, x.length = k) {i : ℕ} (hi : i < L.length) {r : ℕ}
    (hn : r + n ≤ k) : (L.flatten.drop (i * k + r)).take n = (L[i].drop r).take n := by
  have hlen : L[i].length = k := hL _ (List.getElem_mem hi)
  rw [drop_flatten hL hi (by omega), List.take_append_of_le_length]
  rw [List.length_drop]
  omega

theorem window_take (h : b + n ≤ m) : ((xs.take m).drop b).take n = (xs.drop b).take n := by
  rw [List.drop_take, List.take_take, min_eq_left (by omega)]

end Windows

namespace Ysos.Fat16

open Windows

/-! ### The code -/

structure File where
  offset : ℕ
  currentCluster : Cluster
  entry : DirEntry
  handle : Fat16Impl

/-- What a call of `read` leaves behind: the result, the file and the buffer.  `fetched` are the
sectors that were read as file data, with the clusters they were read for. -/
structure ReadOutcome where
  result : Fs ℕ
  file : File
  buf : List UInt8
  fetched : List (Cluster × ℕ)

namespace Fat16Impl

/-- The loop of `ensure_correct_cluster`. -/
def followClusters (v : Fat16Impl) : ℕ → Cluster → Fs Cluster
  | 0, cluster => .ok cluster
  | n + 1, cluster =>
      if cluster.val = 0 then .error (.err .invalidOperation)
      else do
        match ← v.getNextCluster (cluster.val % 2 ^ 16) with
        | some next => followClusters v n ⟨next⟩
        | none => .error (.err .invalidOperation)

/-- The loop of `read_from_current_cluster` over the sectors from `i` on, with the number of bytes
read so far: the result, the buffer and the sectors that were read. -/
def readSectors (v : Fat16Impl) (startSector sectorOffset byteOffset : ℕ) :
    ℕ → ℕ → ℕ → List UInt8 → Fs ℕ × List UInt8 × List ℕ
  | 0, _, bytesRead, buf => (.ok bytesRead, buf, [])
  | left + 1, i, bytesRead, buf =>
      if bytesRead < buf.length then
        match v.inner.readBlock (startSector + i) with
        | .error e => (.error (.err e), buf, [startSector + i])
        | .ok block =>
            let startInSector := if i = sectorOffset then byteOffset else 0
            let n := min (buf.length - bytesRead) (v.bpb.bytesPerSector - startInSector)
            if startInSector + n ≤ BLOCK_SIZE then
              let (result, buf, sectors) :=
                readSectors v startSector sectorOffset byteOffset left (i + 1) (bytesRead + n)
                  (copyAt buf bytesRead ((block.toList.drop startInSector).take n))
              (result, buf, (startSector + i) :: sectors)
            else (.error .panic, buf, [startSector + i])
      else (.ok bytesRead, buf, [])

end Fat16Impl

namespace File

def new (handle : Fat16Impl) (entry : DirEntry) : File := ⟨0, entry.cluster, entry, handle⟩

variable (f : File)

/-- On an error the file is as it was. -/
def ensureCorrectCluster : Fs File :=
  if f.handle.clusterSize = 0 then .error .panic
  else
    let targetClusterIndex := f.offset / f.handle.clusterSize
    if targetClusterIndex = 0 then .ok { f with currentCluster := f.entry.cluster }
    else do
      let cluster ← f.handle.followClusters targetClusterIndex f.entry.cluster
      return { f with currentCluster := cluster }

/-- On an error the file is as it was. -/
def moveToNextCluster : Fs (Bool × File) :=
  if f.currentCluster.val = 0 then .ok (false, f)
  else do
    match ← f.handle.getNextCluster (f.currentCluster.val % 2 ^ 16) with
    | some next => return (true, { f with currentCluster := ⟨next⟩ })
    | none => return (false, f)

def readFromCurrentCluster (offsetInCluster : ℕ) (buf : List UInt8) :
    Fs ℕ × List UInt8 × List ℕ :=
  let sectorSize := f.handle.bpb.bytesPerSector
  if sectorSize = 0 then (.error .panic, buf, [])
  else
    let sectorOffset := offsetInCluster / sectorSize
    f.handle.readSectors (f.handle.clusterToSector f.currentCluster) sectorOffset
      (offsetInCluster % sectorSize) (f.handle.bpb.sectorsPerCluster - sectorOffset) sectorOffset 0 buf

/-- The loop of `read`, with fuel: one round for every chunk. -/
def readLoop (bytesToRead : ℕ) : ℕ → ℕ → File → List UInt8 → ReadOutcome
  | 0, _, f, buf => ⟨.error .outOfFuel, f, buf, []⟩
  | fuel + 1, bytesRead, f, buf =>
      if bytesRead < bytesToRead then
        let clusterSize := f.handle.clusterSize
        let offsetInCluster := f.offset % clusterSize
        let chunkSize := min (bytesToRead - bytesRead) (clusterSize - offsetInCluster)
        let (result, part, sectors) :=
          f.readFromCurrentCluster offsetInCluster ((buf.drop bytesRead).take chunkSize)
        let fetched := sectors.map fun s => (f.currentCluster, s)
        let buf := copyAt buf bytesRead part
        match result with
        | .error e => ⟨.error e, f, buf, fetched⟩
        | .ok n =>
            let bytesRead := bytesRead + n
            let f := { f with offset := f.offset + n }
            if n < chunkSize then ⟨.ok bytesRead, f, buf, fetched⟩
            else if bytesRead < bytesToRead ∧ f.offset % clusterSize = 0 then
              match f.moveToNextCluster with
              | .error e => ⟨.error e, f, buf, fetched⟩
              | .ok (false, f) => ⟨.ok bytesRead, f, buf, fetched⟩
              | .ok (true, f) =>
                  let o := readLoop bytesToRead fuel bytesRead f buf
                  { o with fetched := fetched ++ o.fetched }
            else
              let o := readLoop bytesToRead fuel bytesRead f buf
              { o with fetched := fetched ++ o.fetched }
      else ⟨.ok bytesRead, f, buf, []⟩

/-- `read`; every round but the last reads a byte. -/
def read (buf : List UInt8) : ReadOutcome :=
  if f.offset ≥ f.entry.size then ⟨.ok 0, f, buf, []⟩
  else
    let bytesToRead := min buf.length (f.entry.size - f.offset)
    if bytesToRead = 0 then ⟨.ok 0, f, buf, []⟩
    else
      match f.ensureCorrectCluster with
      | .error e => ⟨.error e, f, buf, []⟩
      | .ok f => readLoop bytesToRead (bytesToRead + 1) 0 f buf

/-- Calls of `read` one after the other. -/
def reads : File → List (List UInt8) → List ReadOutcome
  | _, [] => []
  | f, buf :: bufs => f.read buf :: reads (f.read buf).file bufs

end File

/-! ### A cluster -/

namespace Fat16Impl

variable {v : Fat16Impl} {cluster : Cluster} {sector : ℕ}

/-- The sectors of a cluster, as lists of bytes. -/
def sectorList (v : Fat16Impl) (sector : ℕ) : List (List UInt8) :=
  (List.range' sector v.bpb.sectorsPerCluster).map v.sectorBytes

theorem sectorList_getElem {i : ℕ} (hi : i < (v.sectorList sector).length) :
    (v.sectorList sector)[i] = v.sectorBytes (sector + i) := by
  simp [sectorList]

theorem sectorList_length (v : Fat16Impl) (sector : ℕ) :
    (v.sectorList sector).length = v.bpb.sectorsPerCluster := by
  simp [sectorList]

theorem sectorList_size (h : ∀ s ∈ List.range' sector v.bpb.sectorsPerCluster, v.Readable s) :
    ∀ x ∈ v.sectorList sector, x.length = BLOCK_SIZE := by
  intro x hx
  obtain ⟨s, hs, rfl⟩ := List.mem_map.mp hx
  exact (h s hs).length

/-- The loop over the sectors is at the sector `i` with `b` bytes copied: the buffer is full, or the next
byte is the first one that is wanted from this sector. -/
def AtSector (size so bo len i b : ℕ) : Prop :=
  b = len ∨ so * size + bo + b = i * size + if i = so then bo else 0

namespace AtSector

variable {size so bo len i b n start : ℕ}

theorem first : AtSector size so bo len so 0 := Or.inr (by rw [if_pos rfl, Nat.add_zero])

/-- Behind the last sector nothing is left to copy. -/
theorem done (h : AtSector size so bo len i b) (hb : b ≤ len)
    (hfit : so * size + bo + len ≤ i * size) : b = len := by
  rcases h with hfull | hpos
  · exact hfull
  · omega

theorem next (hpos : so * size + bo + b = i * size + start) (hso : so ≤ i) (hb : b < len)
    (hstart : start < size) (hn : n = min (len - b) (size - start)) :
    AtSector size so bo len (i + 1) (b + n) := by
  rw [AtSector, if_neg (by omega), Nat.succ_mul]
  omega

theorem div_mod (hpos : so * size + bo + b = i * size + start) {y : ℕ} (hy : start + y < size) :
    (so * size + bo + (b + y)) / size = i ∧ (so * size + bo + (b + y)) % size = start + y := by
  have hsize : 0 < size := Nat.zero_lt_of_lt hy
  rw [← Nat.add_assoc, hpos, Nat.add_assoc, Nat.mul_comm, Nat.mul_add_div hsize, Nat.mul_add_mod,
    Nat.div_eq_of_lt hy, Nat.mod_eq_of_lt hy]
  exact ⟨rfl, rfl⟩

end AtSector

/-- The loop over the sectors copies the bytes from an offset on. -/
theorem readSectors_eq (hbps : v.bpb.bytesPerSector = BLOCK_SIZE)
    (hread : ∀ s ∈ List.range' sector v.bpb.sectorsPerCluster, v.Readable s) {so bo : ℕ}
    (hbo : bo < BLOCK_SIZE) {S buf : List UInt8}
    (hS : S = (v.sectorList sector).flatten.drop (so * BLOCK_SIZE + bo))
    (hfit : so * BLOCK_SIZE + bo + buf.length ≤ v.bpb.sectorsPerCluster * BLOCK_SIZE) :
    ∀ left i b, i + left = v.bpb.sectorsPerCluster → so ≤ i → b ≤ buf.length →
      AtSector BLOCK_SIZE so bo buf.length i b →
      ∃ sectors, v.readSectors sector so bo left i b (filled S b buf) =
        (.ok buf.length, S.take buf.length, sectors) ∧
        ∀ s ∈ sectors, s ∈ List.range' sector v.bpb.sectorsPerCluster := by
  have hsize := sectorList_size hread
  have hSlen : buf.length ≤ S.length := by
    rw [hS, List.length_drop, length_flatten hsize, sectorList_length]
    omega
  intro left
  induction left with
  | zero =>
      intro i b hi hso hb hpos
      obtain rfl : i = v.bpb.sectorsPerCluster := hi
      obtain rfl := hpos.done hb hfit
      exact ⟨[], by rw [readSectors, filled_self le_rfl], nofun⟩
  | succ left ih =>
      intro i b hi hso hb hpos
      have hlen : (filled S b buf).length = buf.length := length_filled (hb.trans hSlen) hb
      unfold readSectors
      rw [hlen]
      by_cases hmore : b < buf.length
      · rw [if_pos hmore]
        replace hpos := hpos.resolve_left hmore.ne
        have hi' : i < v.bpb.sectorsPerCluster := by omega
        have hmem : sector + i ∈ List.range' sector v.bpb.sectorsPerCluster :=
          List.mem_range'_1.mpr ⟨Nat.le_add_right _ _, Nat.add_lt_add_left hi' _⟩
        obtain ⟨block, hblock⟩ := hread _ hmem
        have hbytes : v.sectorBytes (sector + i) = block.toList := by rw [sectorBytes, hblock]
        have hstart : (if i = so then bo else 0) < BLOCK_SIZE := by
          split_ifs
          · exact hbo
          · exact Nat.zero_lt_succ _
        simp only [hblock, hbps]
        generalize (if i = so then bo else 0) = start at hpos hstart ⊢
        obtain ⟨n, hn⟩ : ∃ n, n = min (buf.length - b) (BLOCK_SIZE - start) := ⟨_, rfl⟩
        rw [← hn]
        have hn_le : start + n ≤ BLOCK_SIZE := by omega
        have hcopy : (block.toList.drop start).take n = (S.drop b).take n := by
          have hidx : i < (v.sectorList sector).length := by rwa [sectorList_length]
          rw [hS, List.drop_drop, hpos, window_flatten hsize hidx hn_le, sectorList_getElem hidx,
            hbytes]
        rw [if_pos hn_le, hcopy, copyAt_filled (by omega)]
        obtain ⟨sectors, hrest, hin⟩ := ih (i + 1) (b + n) (by omega) (by omega) (by omega)
          (.next hpos hso hmore hstart hn)
        refine ⟨(sector + i) :: sectors, by rw [hrest], fun s hs => ?_⟩
        rcases List.mem_cons.mp hs with rfl | hs
        · exact hmem
        · exact hin s hs
      · have hdone : b = buf.length := by omega
        subst hdone
        exact ⟨[], by rw [if_neg hmore, filled_self le_rfl], nofun⟩

theorem followClusters_eq {first : Cluster} : ∀ {clusters : List ℕ} {i : ℕ}
    (_ : v.Chain first clusters) (hi : i < clusters.length),
    v.followClusters i first = .ok ⟨clusters[i]⟩
  | [], i, _, hi => absurd hi (Nat.not_lt_zero i)
  | c :: cs, 0, h, _ => congrArg Except.ok (h.head c rfl)
  | c :: cs, i + 1, h, hi => by
      obtain rfl := h.head c rfl
      have hc := h.data c List.mem_cons_self
      have hi' : i < cs.length := Nat.lt_of_succ_lt_succ hi
      obtain ⟨next, hnext⟩ : ∃ next, cs.head? = some next :=
        ⟨_, List.head?_eq_some_head (List.ne_nil_of_length_pos (Nat.zero_lt_of_lt hi'))⟩
      obtain ⟨htail, hlink⟩ := h.tail next hnext
      have hne : c ≠ 0 := Nat.ne_of_gt (Nat.lt_of_lt_of_le Nat.two_pos hc.1)
      rw [followClusters, if_neg hne, Nat.mod_eq_of_lt hc.lt, hlink]
      exact followClusters_eq htail hi'

theorem Chain.next {first : Cluster} {clusters : List ℕ} (h : v.Chain first clusters) {i : ℕ}
    (hi : i + 1 < clusters.length) :
    v.getNextCluster clusters[i] = .ok (some clusters[i + 1]) :=
  List.isChain_iff_getElem.mp h.links i hi

end Fat16Impl

/-! ### A file -/

/-- The entry is that of a file whose content is in the readable data clusters of a chain. -/
structure Fat16Impl.Serves (v : Fat16Impl) (entry : DirEntry) (clusters : List ℕ) : Prop where
  sectors : v.bpb.bytesPerSector = BLOCK_SIZE
  nonempty : 1 ≤ v.bpb.sectorsPerCluster
  chain : v.Chain entry.cluster clusters
  enough : entry.size ≤ clusters.length * v.clusterSize
  readable : ∀ c ∈ clusters, ∀ s ∈ v.clusterSectors ⟨c⟩, v.Readable s

/-- The bytes of the clusters, cut to the size of the file. -/
def Fat16Impl.content (v : Fat16Impl) (entry : DirEntry) (clusters : List ℕ) : List UInt8 :=
  (clusters.map fun c => v.clusterBytes ⟨c⟩).flatten.take entry.size

namespace Fat16Impl.Serves

variable {v : Fat16Impl} {entry : DirEntry} {clusters : List ℕ} (h : v.Serves entry clusters)
include h

theorem clusterSize_pos : 0 < v.clusterSize := by
  rw [clusterSize, h.sectors]
  exact Nat.mul_pos h.nonempty (Nat.zero_lt_succ _)

theorem cluster_length {c : ℕ} (hc : c ∈ clusters) :
    (v.clusterBytes ⟨c⟩).length = v.clusterSize := by
  have hsize := sectorList_size (h.readable c hc)
  rw [clusterBytes, clusterSectors, List.flatMap_def]
  exact (length_flatten hsize).trans (by rw [sectorList_length, clusterSize, h.sectors])

theorem clusters_length : ∀ x ∈ clusters.map fun c => v.clusterBytes ⟨c⟩,
    x.length = v.clusterSize := by
  intro x hx
  obtain ⟨c, hc, rfl⟩ := List.mem_map.mp hx
  exact h.cluster_length hc

theorem length_content : (v.content entry clusters).length = entry.size := by
  rw [content, List.length_take, length_flatten h.clusters_length, List.length_map]
  exact min_eq_left h.enough

theorem content_window {i r n : ℕ} (hi : i < clusters.length) (hr : r + n ≤ v.clusterSize)
    (hsize : i * v.clusterSize + r + n ≤ entry.size) :
    ((v.content entry clusters).drop (i * v.clusterSize + r)).take n =
      ((v.clusterBytes ⟨clusters[i]⟩).drop r).take n := by
  have hi' : i < (clusters.map fun c => v.clusterBytes ⟨c⟩).length := by rwa [List.length_map]
  rw [content, window_take hsize, window_flatten h.clusters_length hi' hr, List.getElem_map]

end Fat16Impl.Serves

namespace File

variable {f : File} {clusters : List ℕ} {buf : List UInt8}

theorem readFromCurrentCluster_eq (h : f.handle.Serves f.entry clusters) (buf : List UInt8) {i r : ℕ}
    (hi : i < clusters.length) (hcur : f.currentCluster = ⟨clusters[i]⟩)
    (hr : r + buf.length ≤ f.handle.clusterSize) (hpos : r < f.handle.clusterSize) :
    ∃ sectors, f.readFromCurrentCluster r buf =
      (.ok buf.length, ((f.handle.clusterBytes ⟨clusters[i]⟩).drop r).take buf.length, sectors) ∧
      ∀ s ∈ sectors, s ∈ f.handle.clusterSectors f.currentCluster := by
  have hread := h.readable _ (List.getElem_mem hi)
  rw [← hcur] at hread ⊢
  have hB : 0 < BLOCK_SIZE := Nat.zero_lt_succ _
  have hne : f.handle.bpb.bytesPerSector ≠ 0 := by
    rw [h.sectors]
    exact hB.ne'
  rw [Fat16Impl.clusterSize, h.sectors] at hr hpos
  have hso : r / BLOCK_SIZE < f.handle.bpb.sectorsPerCluster := Nat.div_lt_of_lt_mul (by
    rwa [Nat.mul_comm])
  have hdiv : r / BLOCK_SIZE * BLOCK_SIZE + r % BLOCK_SIZE = r := Nat.div_add_mod' r BLOCK_SIZE
  have hbytes : f.handle.clusterBytes f.currentCluster =
      (f.handle.sectorList (f.handle.clusterToSector f.currentCluster)).flatten := List.flatMap_def ..
  obtain ⟨sectors, hsec, hin⟩ := Fat16Impl.readSectors_eq h.sectors hread
    (Nat.mod_lt r hB) rfl (by rwa [hdiv])
    (f.handle.bpb.sectorsPerCluster - r / BLOCK_SIZE) (r / BLOCK_SIZE) 0
    (Nat.add_sub_of_le hso.le) le_rfl (Nat.zero_le _) .first
  rw [filled_zero, hdiv, ← hbytes] at hsec
  refine ⟨sectors, ?_, hin⟩
  rw [readFromCurrentCluster, if_neg hne, h.sectors]
  exact hsec

variable {v : Fat16Impl} {entry : DirEntry}

/-- The file is at the cluster of the offset. -/
def AtOffset (f : File) (clusters : List ℕ) : Prop :=
  ∃ hi : f.offset / f.handle.clusterSize < clusters.length,
    f.currentCluster = ⟨clusters[f.offset / f.handle.clusterSize]⟩

theorem moveToNextCluster_eq (h : f.handle.Serves f.entry clusters) {i : ℕ}
    (hi : i + 1 < clusters.length) (hcur : f.currentCluster = ⟨clusters[i]⟩) :
    f.moveToNextCluster = .ok (true, { f with currentCluster := ⟨clusters[i + 1]⟩ }) := by
  have hdata := h.chain.data _ (List.getElem_mem (Nat.lt_of_succ_lt hi))
  have hne : f.currentCluster.val ≠ 0 := by
    rw [hcur]
    exact Nat.ne_of_gt (Nat.lt_of_lt_of_le Nat.two_pos hdata.1)
  rw [moveToNextCluster, if_neg hne, hcur]
  simp only
  rw [Nat.mod_eq_of_lt hdata.lt, h.chain.next hi]
  rfl

/-- The loop of `read` copies the content from an offset on. -/
theorem readLoop_eq (h : v.Serves entry clusters) {offset total : ℕ}
    (htotal : offset + total ≤ entry.size) (hbuf : total ≤ buf.length) {S : List UInt8}
    (hS : S = (v.content entry clusters).drop offset) :
    ∀ fuel b cur, b ≤ total → total - b < fuel →
      (b < total → AtOffset ⟨offset + b, cur, entry, v⟩ clusters) →
      ∃ cur' fetched, readLoop total fuel b ⟨offset + b, cur, entry, v⟩ (filled S b buf) =
        ⟨.ok total, ⟨offset + total, cur', entry, v⟩, filled S total buf, fetched⟩ := by
  have hcs := h.clusterSize_pos
  have hSlen : total ≤ S.length := by
    rw [hS, List.length_drop, h.length_content]
    omega
  intro fuel
  induction fuel with
  | zero => exact fun b _ _ hfuel => absurd hfuel (Nat.not_lt_zero _)
  | succ fuel ih =>
      intro b cur hb hfuel hat
      by_cases hmore : b < total
      · obtain ⟨hi, hcur⟩ := hat hmore
        simp only at hi hcur
        obtain ⟨n, hn⟩ : ∃ n, n = min (total - b)
          (v.clusterSize - (offset + b) % v.clusterSize) := ⟨_, rfl⟩
        have hr : (offset + b) % v.clusterSize < v.clusterSize := Nat.mod_lt _ hcs
        have hdiv : (offset + b) / v.clusterSize * v.clusterSize +
          (offset + b) % v.clusterSize = offset + b := Nat.div_add_mod' _ _
        have hpart : (((filled S b buf).drop b).take n).length = n := by
          rw [List.length_take, List.length_drop, length_filled (hb.trans hSlen) (hb.trans hbuf)]
          omega
        have hcopy : ((v.clusterBytes ⟨clusters[(offset + b) / v.clusterSize]⟩).drop
            ((offset + b) % v.clusterSize)).take n = (S.drop b).take n := by
          rw [hS, List.drop_drop, ← h.content_window hi (by omega) (by omega), hdiv]
        obtain ⟨sectors, hread, -⟩ := readFromCurrentCluster_eq
          (f := ⟨offset + b, cur, entry, v⟩) h (((filled S b buf).drop b).take n) hi hcur
          (by rw [hpart]; simp only; omega) hr
        rw [hpart, hcopy] at hread
        rw [readLoop, if_pos hmore]
        simp only [← hn, hread]
        rw [copyAt_filled (by omega), if_neg (lt_irrefl n), Nat.add_assoc]
        by_cases hlast : b + n < total
        · -- the cluster has been read to its end
          have hend : offset + (b + n) =
              ((offset + b) / v.clusterSize + 1) * v.clusterSize := by
            rw [Nat.succ_mul]
            omega
          have hi' : (offset + b) / v.clusterSize + 1 < clusters.length := by
            refine Nat.lt_of_mul_lt_mul_right (a := v.clusterSize) ?_
            rw [← hend]
            have := h.enough
            omega
          have hmove := moveToNextCluster_eq (f := ⟨offset + (b + n), cur, entry, v⟩) h hi' hcur
          have hat' : AtOffset ⟨offset + (b + n), ⟨clusters[(offset + b) / v.clusterSize + 1]⟩,
              entry, v⟩ clusters := by
            have hidx : (offset + (b + n)) / v.clusterSize =
                (offset + b) / v.clusterSize + 1 := by
              rw [hend, Nat.mul_div_cancel _ hcs]
            refine ⟨by simpa only [hidx] using hi', ?_⟩
            simp only [hidx]
          obtain ⟨cur', fetched, hrest⟩ := ih (b + n) _ hlast.le (by omega) fun _ => hat'
          have hmod : (offset + (b + n)) % v.clusterSize = 0 := by
            rw [hend, Nat.mul_mod_left]
          rw [if_pos ⟨hlast, hmod⟩, hmove]
          simp only [hrest]
          exact ⟨cur', _, rfl⟩
        · obtain ⟨cur', fetched, hrest⟩ := ih (b + n) cur (by omega) (by omega)
            fun hlt => absurd hlt hlast
          rw [if_neg fun hc => hlast hc.1, hrest]
          exact ⟨cur', _, rfl⟩
      · obtain rfl : b = total := by omega
        exact ⟨cur, [], by rw [readLoop, if_neg hmore]⟩

theorem ensureCorrectCluster_eq (h : f.handle.Serves f.entry clusters)
    (hoff : f.offset < f.entry.size) : ∃ cur, f.ensureCorrectCluster =
      .ok { f with currentCluster := cur } ∧ AtOffset { f with currentCluster := cur } clusters := by
  have hcs := h.clusterSize_pos
  have hi : f.offset / f.handle.clusterSize < clusters.length := by
    refine Nat.div_lt_of_lt_mul ?_
    rw [Nat.mul_comm]
    exact Nat.lt_of_lt_of_le hoff h.enough
  have hfollow := Fat16Impl.followClusters_eq h.chain hi
  refine ⟨⟨clusters[f.offset / f.handle.clusterSize]⟩, ?_, hi, rfl⟩
  rw [ensureCorrectCluster, if_neg hcs.ne']
  simp only
  split_ifs with h0
  · generalize clusters[f.offset / f.handle.clusterSize] = c at hfollow ⊢
    rw [h0] at hfollow
    rw [← Except.ok.inj hfollow]
  · rw [hfollow]
    rfl

/-- **A call of `read`** copies the content from the offset on, as far as there is some and the
buffer has room. -/
theorem read_eq (h : f.handle.Serves f.entry clusters) (buf : List UInt8) :
    ∃ cur fetched n, n = min buf.length (f.entry.size - f.offset) ∧ f.read buf =
      ⟨.ok n, { f with offset := f.offset + n, currentCluster := cur },
        filled ((f.handle.content f.entry clusters).drop f.offset) n buf, fetched⟩ := by
  by_cases hend : f.offset ≥ f.entry.size
  · refine ⟨f.currentCluster, [], 0, by omega, ?_⟩
    rw [read, if_pos hend, filled_zero]
    rfl
  · by_cases h0 : min buf.length (f.entry.size - f.offset) = 0
    · refine ⟨f.currentCluster, [], 0, h0.symm, ?_⟩
      rw [read, if_neg hend]
      simp only
      rw [if_pos h0, filled_zero]
      rfl
    · obtain ⟨cur, hensure, hat⟩ := ensureCorrectCluster_eq h (Nat.lt_of_not_le hend)
      have htotal : f.offset + min buf.length (f.entry.size - f.offset) ≤ f.entry.size := by omega
      obtain ⟨cur', fetched, hloop⟩ := readLoop_eq h htotal (min_le_left _ _) rfl _ 0 cur
        (Nat.zero_le _) (Nat.lt_succ_self _) fun _ => hat
      refine ⟨cur', fetched, _, rfl, ?_⟩
      rw [read, if_neg hend]
      simp only
      rw [if_neg h0, hensure]
      rw [filled_zero] at hloop
      exact hloop

end File

/-! ### Sequential reads -/

/-- Reading a list of bytes from an offset on, with some buffers: for each of them the number of
bytes read, the buffer and the next offset. -/
def contentReads (content : List UInt8) : ℕ → List (List UInt8) → List (Fs ℕ × List UInt8 × ℕ)
  | _, [] => []
  | offset, buf :: bufs =>
      let n := min buf.length (content.length - offset)
      (.ok n, (content.drop offset).take n ++ buf.drop n, offset + n) ::
        contentReads content (offset + n) bufs

theorem File.reads_eq {clusters : List ℕ} : ∀ (bufs : List (List UInt8)) {f : File}
    (_ : f.handle.Serves f.entry clusters),
    (f.reads bufs).map (fun o => (o.result, o.buf, o.file.offset)) =
      contentReads (f.handle.content f.entry clusters) f.offset bufs
  | [], _, _ => rfl
  | buf :: bufs, f, h => by
      obtain ⟨cur, fetched, n, hn, hread⟩ := File.read_eq h buf
      have hrest := File.reads_eq bufs
        (f := { f with offset := f.offset + n, currentCluster := cur }) h
      rw [File.reads, List.map_cons, hread, contentReads, h.length_content, ← hn]
      exact congrArg _ hrest

/-- **Sequential reads.**  Calls of `read` on a file that has just been opened read its content,
which has the size of the entry, one after the other. -/
theorem sequential_reads {v : Fat16Impl} {entry : DirEntry} {clusters : List ℕ}
    (h : v.Serves entry clusters) (bufs : List (List UInt8)) :
    (v.content entry clusters).length = entry.size ∧
      ((File.new v entry).reads bufs).map (fun o => (o.result, o.buf, o.file.offset)) =
        contentReads (v.content entry clusters) 0 bufs :=
  ⟨h.length_content, File.reads_eq bufs h⟩

/-- A file in the clusters 2 and 3 of the small volume. -/
def smallFile : DirEntry where
  filename := ⟨padded 8 [65], padded 3 []⟩
  modifiedTime := .epoch
  createdTime := .epoch
  accessedTime := .epoch
  cluster := ⟨2⟩
  attributes := ⟨0x20⟩
  size := 514

theorem smallVolume_serves : smallVolume.Serves smallFile [2, 3] := by
  refine ⟨smallVolume_sectors, ?_, ⟨fun c hc => ?_, fun c hc => ?_, ?_⟩, ?_, fun c hc s hs => ?_⟩
  · decide +kernel
  · cases hc
    rfl
  · unfold Fat16Impl.IsData
    rcases List.mem_pair.mp hc with rfl | rfl <;> decide
  · have hlink : smallVolume.getNextCluster 2 = .ok (some 3) := by decide +kernel
    exact List.isChain_pair.mpr hlink
  · decide +kernel
  · have hsector : smallVolume.clusterSectors ⟨2⟩ = [3] ∧ smallVolume.clusterSectors ⟨3⟩ = [4] := by
      decide +kernel
    rcases List.mem_pair.mp hc with rfl | rfl
    · rw [hsector.1, List.mem_singleton] at hs
      subst hs
      exact ⟨_, rfl⟩
    · rw [hsector.2, List.mem_singleton] at hs
      subst hs
      exact ⟨_, rfl⟩

/-- A read up to the end of the first cluster, and one that the end of the file cuts short. -/
theorem sequential_reads_example :
    ((File.new smallVolume smallFile).reads [List.replicate 512 1, [1, 1, 1]]).map
      (fun o => (o.result, o.buf.drop 509, o.file.offset)) =
      [(.ok 512, [0, 0, 0], 512), (.ok 2, [], 514)] := by
  have h := (sequential_reads smallVolume_serves [List.replicate 512 1, [1, 1, 1]]).2
  have hdrop := congrArg (List.map fun p : Fs ℕ × List UInt8 × ℕ => (p.1, p.2.1.drop 509, p.2.2)) h
  rw [List.map_map] at hdrop
  exact hdrop.trans (by decide +kernel)

end Ysos.Fat16
