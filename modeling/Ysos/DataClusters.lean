import Ysos.File

/-! # Clusters that are read as file data

`read` follows the values of the FAT, and tests some of the values that are no data clusters only.

* `Fat16Impl.clusterAt`: the chain of an entry, as the code follows it.
* `Fat16Impl.ByteReads`: a byte of a file that can be read.
* `fetched_data_iff`: only data clusters are read, by any calls of `read`, exactly when every value
  of the chain that the calls can come to is one. -/

namespace Ysos.Fat16

open Windows

variable {v : Fat16Impl} {entry : DirEntry} {c : Cluster}

namespace Fat16Impl

/-! ### The chain -/

/-- The cluster after one of a chain. -/
def nextCluster? (v : Fat16Impl) (c : Cluster) : Option Cluster :=
  if c.val = 0 then none
  else
    match v.getNextCluster (c.val % 2 ^ 16) with
    | .ok (some next) => some ⟨next⟩
    | _ => none

/-- The cluster with an index in the chain. -/
def clusterAt (v : Fat16Impl) : ℕ → Cluster → Option Cluster
  | 0, c => some c
  | n + 1, c => (v.nextCluster? c).bind (clusterAt v n)

theorem clusterAt_succ (v : Fat16Impl) (n : ℕ) (c : Cluster) :
    v.clusterAt (n + 1) c = (v.clusterAt n c).bind v.nextCluster? := by
  induction n generalizing c with
  | zero => cases h : v.nextCluster? c <;> simp [clusterAt, h]
  | succ n ih =>
      rw [clusterAt, clusterAt]
      cases v.nextCluster? c with
      | none => rfl
      | some next => exact ih next

theorem clusterAt_le {i j : ℕ} (hij : i ≤ j) (h : (v.clusterAt j c).isSome) :
    (v.clusterAt i c).isSome := by
  induction hij with
  | refl => exact h
  | @step j _ ih =>
      rw [clusterAt_succ] at h
      refine ih ?_
      cases hj : v.clusterAt j c with
      | none => rw [hj] at h; exact h
      | some c' => rfl

theorem followClusters_ok_iff {n : ℕ} {c' : Cluster} :
    v.followClusters n c = .ok c' ↔ v.clusterAt n c = some c' := by
  induction n generalizing c with
  | zero => exact ⟨fun h => congrArg some (Except.ok.inj h), fun h => congrArg _ (Option.some.inj h)⟩
  | succ n ih =>
      rw [followClusters, clusterAt, nextCluster?]
      split_ifs with h0
      · constructor <;> rintro ⟨⟩
      · cases v.getNextCluster (c.val % 2 ^ 16) with
        | error stop => constructor <;> rintro ⟨⟩
        | ok next =>
            cases next with
            | none => constructor <;> rintro ⟨⟩
            | some next => exact ih

/-! ### Bytes -/

/-- The byte of a cluster at an offset can be read. -/
structure SectorReads (v : Fat16Impl) (sector offset : ℕ) : Prop where
  readable : v.Readable (sector + offset / v.bpb.bytesPerSector)
  inside : offset % v.bpb.bytesPerSector < BLOCK_SIZE

/-- A byte of the file can be read. -/
def ByteReads (v : Fat16Impl) (entry : DirEntry) (q : ℕ) : Prop :=
  ∃ c, v.clusterAt (q / v.clusterSize) entry.cluster = some c ∧
    v.SectorReads (v.clusterToSector c) (q % v.clusterSize)

/-- What reading a byte of a cluster that cannot be read ends with. -/
def sectorStop (v : Fat16Impl) (sector offset : ℕ) : Stop :=
  match v.inner.readBlock (sector + offset / v.bpb.bytesPerSector) with
  | .error e => .err e
  | .ok _ => .panic

/-- What going on to the next cluster ends with, if not with the end of the chain. -/
def linkError (v : Fat16Impl) (c : Cluster) : Option Stop :=
  if c.val = 0 then none
  else
    match v.getNextCluster (c.val % 2 ^ 16) with
    | .error stop => some stop
    | .ok _ => none

end Fat16Impl

/-- What a loop over the positions from `b` to `n` ends with: it comes to `n`, with the value `m`, or
to the first position without `P`. -/
inductive Reaches (P : ℕ → Prop) (stop : ℕ → Stop) (b n m : ℕ) (result : Fs ℕ) : Prop
  | all (holds : ∀ x, b ≤ x → x < n → P x) (eq : result = .ok m)
  | first (x : ℕ) (le : b ≤ x) (lt : x < n) (before : ∀ y, b ≤ y → y < x → P y) (fails : ¬ P x)
      (eq : result = .error (stop x))

namespace Reaches

variable {P Q : ℕ → Prop} {stop stop' : ℕ → Stop} {b c k n m : ℕ} {result : Fs ℕ}

theorem after (h : Reaches P stop c n m result) (hbc : b ≤ c)
    (hP : ∀ y, b ≤ y → y < c → P y) : Reaches P stop b n m result := by
  have hall : ∀ z, (∀ y, c ≤ y → y < z → P y) → ∀ y, b ≤ y → y < z → P y := by
    intro z hz y hy hyz
    by_cases hyc : y < c
    · exact hP y hy hyc
    · exact hz y (Nat.not_lt.mp hyc) hyz
  cases h with
  | all holds eq => exact .all (hall n holds) eq
  | first x le lt before fails eq => exact .first x (hbc.trans le) lt (hall x before) fails eq

/-- The same positions, counted from `k` on. -/
theorem shift (h : Reaches P stop 0 n m result) (hP : ∀ x < n, Q (k + x) ↔ P x)
    (hstop : ∀ x < n, stop' (k + x) = stop x) : Reaches Q stop' k (k + n) m result := by
  have hall : ∀ z ≤ n, (∀ y, 0 ≤ y → y < z → P y) → ∀ y, k ≤ y → y < k + z → Q y := by
    intro z hz hbefore y hy hyz
    obtain ⟨x, rfl⟩ := Nat.exists_eq_add_of_le hy
    exact (hP x (by omega)).mpr (hbefore x (Nat.zero_le _) (by omega))
  cases h with
  | all holds eq => exact .all (hall n le_rfl holds) eq
  | first x le lt before fails eq =>
      exact .first (k + x) (Nat.le_add_right _ _) (Nat.add_lt_add_left lt _) (hall x lt.le before)
        (fun hQ => fails ((hP x lt).mp hQ)) (by rw [eq, hstop x lt])

end Reaches

namespace Fat16Impl

/-! ### The loop over the sectors -/

variable {sector off b i n y start : ℕ} {buf : List UInt8}

/-- The bytes of the sector `i` are those from `start` on. -/
theorem sectorReads_iff {so bo : ℕ}
    (hpos : so * v.bpb.bytesPerSector + bo + b = i * v.bpb.bytesPerSector + start)
    (hy : start + y < v.bpb.bytesPerSector) :
    v.SectorReads sector (so * v.bpb.bytesPerSector + bo + (b + y)) ↔
      v.Readable (sector + i) ∧ start + y < BLOCK_SIZE := by
  obtain ⟨hdiv, hmod⟩ := AtSector.div_mod hpos hy
  exact ⟨fun h => ⟨hdiv ▸ h.readable, hmod ▸ h.inside⟩,
    fun h => ⟨hdiv.symm ▸ h.1, hmod.symm ▸ h.2⟩⟩

/-- The bytes of the sector that a block has room for. -/
theorem sectorReads_of_block {so bo : ℕ} {block : Block512}
    (hpos : so * v.bpb.bytesPerSector + bo + b = i * v.bpb.bytesPerSector + start)
    (hblock : v.inner.readBlock (sector + i) = .ok block) (hy : b ≤ y)
    (hlt : start + (y - b) < v.bpb.bytesPerSector) (hin : start + (y - b) < BLOCK_SIZE) :
    v.SectorReads sector (so * v.bpb.bytesPerSector + bo + y) := by
  obtain ⟨z, rfl⟩ := Nat.exists_eq_add_of_le hy
  rw [Nat.add_sub_cancel_left] at hlt hin
  exact (sectorReads_iff hpos hlt).mpr ⟨⟨block, hblock⟩, hin⟩

theorem sectorStop_eq {so bo : ℕ}
    (hpos : so * v.bpb.bytesPerSector + bo + b = i * v.bpb.bytesPerSector + start)
    (hy : start + y < v.bpb.bytesPerSector) :
    v.sectorStop sector (so * v.bpb.bytesPerSector + bo + (b + y)) =
      match v.inner.readBlock (sector + i) with
      | .error e => .err e
      | .ok _ => .panic := by
  rw [sectorStop, (AtSector.div_mod hpos hy).1]

/-- What the loop over the sectors leaves behind, when `b` bytes of the buffer are filled and the
buffer begins at the offset `off` of the cluster. -/
structure ReadsSectors (v : Fat16Impl) (sector off b : ℕ) (buf : List UInt8)
    (o : Fs ℕ × List UInt8 × List ℕ) : Prop where
  length : o.2.1.length = buf.length
  nonempty : b < buf.length → o.2.2 ≠ []
  within : ∀ s ∈ o.2.2, s ∈ List.range' sector v.bpb.sectorsPerCluster
  reaches : Reaches (fun x => v.SectorReads sector (off + x))
    (fun x => v.sectorStop sector (off + x)) b buf.length buf.length o.1

namespace ReadsSectors

theorem full : v.ReadsSectors sector off buf.length buf (.ok buf.length, buf, []) :=
  ⟨rfl, fun h => absurd h (lt_irrefl _), nofun,
    .all (fun _ hx hx' => absurd hx' (Nat.not_lt.mpr hx)) rfl⟩

theorem mem_sectors (hi : i < v.bpb.sectorsPerCluster) :
    sector + i ∈ List.range' sector v.bpb.sectorsPerCluster :=
  List.mem_range'_1.mpr ⟨Nat.le_add_right _ _, Nat.add_lt_add_left hi _⟩

theorem stops (hi : i < v.bpb.sectorsPerCluster) {x : ℕ} (hx : b ≤ x) (hlt : x < buf.length)
    (hbefore : ∀ y, b ≤ y → y < x → v.SectorReads sector (off + y))
    (hnot : ¬ v.SectorReads sector (off + x)) {stop : Stop}
    (hstop : v.sectorStop sector (off + x) = stop) :
    v.ReadsSectors sector off b buf (.error stop, buf, [sector + i]) :=
  ⟨rfl, fun _ => List.cons_ne_nil _ _, fun _ hs => List.mem_singleton.mp hs ▸ mem_sectors hi,
    .first x hx hlt hbefore hnot (by rw [hstop])⟩

theorem unreadable {so bo : ℕ} {e : FsError} (hi : i < v.bpb.sectorsPerCluster)
    (hpos : so * v.bpb.bytesPerSector + bo + b = i * v.bpb.bytesPerSector + start)
    (hstart : start < v.bpb.bytesPerSector) (hb : b < buf.length)
    (hblock : v.inner.readBlock (sector + i) = .error e) :
    v.ReadsSectors sector (so * v.bpb.bytesPerSector + bo) b buf
      (.error (.err e), buf, [sector + i]) := by
  refine .stops hi le_rfl hb (fun y hy hyb => absurd hyb (Nat.not_lt.mpr hy)) (fun h => ?_)
    ((sectorStop_eq (y := 0) hpos hstart).trans (by rw [hblock]))
  obtain ⟨⟨block, hok⟩, -⟩ := (sectorReads_iff (y := 0) hpos hstart).mp h
  cases hblock.symm.trans hok

/-- The block ends before the bytes that are wanted from the sector. -/
theorem outside {so bo : ℕ} {block : Block512} (hi : i < v.bpb.sectorsPerCluster)
    (hpos : so * v.bpb.bytesPerSector + bo + b = i * v.bpb.bytesPerSector + start)
    (hstart : start < v.bpb.bytesPerSector) (hb : b < buf.length)
    (hn : n = min (buf.length - b) (v.bpb.bytesPerSector - start))
    (hblock : v.inner.readBlock (sector + i) = .ok block) (hout : ¬ start + n ≤ BLOCK_SIZE) :
    v.ReadsSectors sector (so * v.bpb.bytesPerSector + bo) b buf
      (.error .panic, buf, [sector + i]) := by
  have hlt : start + (BLOCK_SIZE - start) < v.bpb.bytesPerSector := by omega
  refine .stops hi (Nat.le_add_right b (BLOCK_SIZE - start)) (by omega)
    (fun y hy hyx => sectorReads_of_block hpos hblock hy (by omega) (by omega)) (fun h => ?_)
    ((sectorStop_eq hpos hlt).trans (by rw [hblock]))
  have hinside := ((sectorReads_iff hpos hlt).mp h).2
  omega

/-- The bytes of one more sector before. -/
theorem after {buf' : List UInt8} {o : Fs ℕ × List UInt8 × List ℕ}
    (h : v.ReadsSectors sector off (b + n) buf' o) (hlen : buf'.length = buf.length)
    (hi : i < v.bpb.sectorsPerCluster)
    (hreads : ∀ y, b ≤ y → y < b + n → v.SectorReads sector (off + y)) :
    v.ReadsSectors sector off b buf (o.1, o.2.1, (sector + i) :: o.2.2) := by
  refine ⟨h.length.trans hlen, fun _ => List.cons_ne_nil _ _, fun s hs => ?_, ?_⟩
  · rcases List.mem_cons.mp hs with rfl | hs
    · exact mem_sectors hi
    · exact h.within s hs
  · rw [← hlen]
    exact h.reaches.after (Nat.le_add_right _ _) hreads

end ReadsSectors

/-- The loop over the sectors reads all bytes that are wanted, or comes to the first one that it
cannot read. -/
theorem readSectors_reads (sector : ℕ) {so bo : ℕ} (hbps : 0 < v.bpb.bytesPerSector)
    (hbo : bo < v.bpb.bytesPerSector) :
    ∀ left i b (buf : List UInt8), i + left = v.bpb.sectorsPerCluster → so ≤ i → b ≤ buf.length →
      so * v.bpb.bytesPerSector + bo + buf.length ≤
        v.bpb.sectorsPerCluster * v.bpb.bytesPerSector →
      AtSector v.bpb.bytesPerSector so bo buf.length i b →
      v.ReadsSectors sector (so * v.bpb.bytesPerSector + bo) b buf
        (v.readSectors sector so bo left i b buf) := by
  intro left
  induction left with
  | zero =>
      intro i b buf hi hso hb hfit hpos
      obtain rfl : i = v.bpb.sectorsPerCluster := hi
      obtain rfl := hpos.done hb hfit
      exact .full
  | succ left ih =>
      intro i b buf hi hso hb hfit hpos
      rw [readSectors]
      by_cases hmore : b < buf.length
      · rw [if_pos hmore]
        replace hpos := hpos.resolve_left hmore.ne
        have hi' : i < v.bpb.sectorsPerCluster := by omega
        have hstart : (if i = so then bo else 0) < v.bpb.bytesPerSector := by
          split_ifs
          · exact hbo
          · exact hbps
        simp only
        generalize (if i = so then bo else 0) = start at hpos hstart ⊢
        obtain ⟨n, hn⟩ : ∃ n, n = min (buf.length - b) (v.bpb.bytesPerSector - start) := ⟨_, rfl⟩
        rw [← hn]
        cases hblock : v.inner.readBlock (sector + i) with
        | error e => exact .unreadable hi' hpos hstart hmore hblock
        | ok block =>
            simp only
            by_cases hin : start + n ≤ BLOCK_SIZE
            · rw [if_pos hin]
              have hlen : (copyAt buf b ((block.toList.drop start).take n)).length = buf.length := by
                refine length_copyAt ?_
                rw [List.length_take]
                omega
              have hrest := ih (i + 1) (b + n) (copyAt buf b ((block.toList.drop start).take n))
                (by omega) (by omega) (by omega) (by rwa [hlen])
                (by rw [hlen]; exact .next hpos hso hmore hstart hn)
              exact hrest.after hlen hi' fun y hy hyn =>
                sectorReads_of_block hpos hblock hy (by omega) (by omega)
            · rw [if_neg hin]
              exact .outside hi' hpos hstart hmore hn hblock hin
      · obtain rfl : b = buf.length := by omega
        rw [if_neg hmore]
        exact .full

end Fat16Impl

namespace File

variable {f : File} {buf : List UInt8} {cur : Cluster}

/-! ### One round -/

theorem readFromCurrentCluster_reads {r : ℕ} (hr : r < f.handle.clusterSize)
    (hfit : r + buf.length ≤ f.handle.clusterSize) :
    f.handle.ReadsSectors (f.handle.clusterToSector f.currentCluster) r 0 buf
      (f.readFromCurrentCluster r buf) := by
  rw [Fat16Impl.clusterSize] at hr hfit
  have hbps : 0 < f.handle.bpb.bytesPerSector := by
    refine Nat.pos_of_ne_zero fun h0 => ?_
    rw [h0, Nat.mul_zero] at hr
    exact absurd hr (Nat.not_lt_zero _)
  have hso : r / f.handle.bpb.bytesPerSector < f.handle.bpb.sectorsPerCluster :=
    Nat.div_lt_of_lt_mul (by rwa [Nat.mul_comm])
  have hdiv : r / f.handle.bpb.bytesPerSector * f.handle.bpb.bytesPerSector +
      r % f.handle.bpb.bytesPerSector = r := Nat.div_add_mod' _ _
  have hrun := Fat16Impl.readSectors_reads (f.handle.clusterToSector f.currentCluster) hbps
    (Nat.mod_lt r hbps) (f.handle.bpb.sectorsPerCluster - r / f.handle.bpb.bytesPerSector)
    (r / f.handle.bpb.bytesPerSector) 0 buf (Nat.add_sub_of_le hso.le) le_rfl (Nat.zero_le _)
    (by rwa [hdiv]) .first
  rw [hdiv] at hrun
  rw [readFromCurrentCluster]
  simp only
  rwa [if_neg hbps.ne']

theorem moveToNextCluster_some {next : Cluster}
    (h : f.handle.nextCluster? f.currentCluster = some next) :
    f.moveToNextCluster = .ok (true, { f with currentCluster := next }) := by
  rw [Fat16Impl.nextCluster?] at h
  rw [moveToNextCluster]
  split_ifs at h ⊢ with h0
  cases hnext : f.handle.getNextCluster (f.currentCluster.val % 2 ^ 16) with
  | error stop =>
      rw [hnext] at h
      cases h
  | ok found =>
      rw [hnext] at h
      cases found with
      | none => cases h
      | some next' =>
          cases h
          rfl

theorem moveToNextCluster_none (h : f.handle.nextCluster? f.currentCluster = none) :
    f.moveToNextCluster = match f.handle.linkError f.currentCluster with
      | some stop => .error stop
      | none => .ok (false, f) := by
  rw [Fat16Impl.nextCluster?] at h
  rw [moveToNextCluster, Fat16Impl.linkError]
  split_ifs at h ⊢
  · rfl
  · cases hnext : f.handle.getNextCluster (f.currentCluster.val % 2 ^ 16) with
    | error stop => rfl
    | ok found =>
        rw [hnext] at h
        cases found with
        | none => rfl
        | some next => cases h

theorem ensureCorrectCluster_ok_iff (hcs : 0 < f.handle.clusterSize) {f' : File} :
    f.ensureCorrectCluster = .ok f' ↔ ∃ c, f' = { f with currentCluster := c } ∧
      f.handle.clusterAt (f.offset / f.handle.clusterSize) f.entry.cluster = some c := by
  rw [ensureCorrectCluster, if_neg hcs.ne']
  simp only
  split_ifs with h0
  · rw [h0]
    constructor
    · rintro h
      exact ⟨_, (Except.ok.inj h).symm, rfl⟩
    · rintro ⟨c, rfl, hc⟩
      cases hc
      rfl
  · constructor
    · intro h
      obtain ⟨c, hc, h⟩ := Runs.bind_eq_ok.mp h
      exact ⟨c, (Except.ok.inj h).symm, Fat16Impl.followClusters_ok_iff.mp hc⟩
    · rintro ⟨c, rfl, hc⟩
      rw [Fat16Impl.followClusters_ok_iff.mpr hc]
      rfl

theorem div_within {m o x : ℕ} (hm : 0 < m) (hx : o % m + x < m) :
    (o + x) / m = o / m ∧ (o + x) % m = o % m + x := by
  have hsum : o + x = m * (o / m) + (o % m + x) := by
    have := Nat.div_add_mod o m
    omega
  rw [hsum, Nat.mul_add_div hm, Nat.mul_add_mod, Nat.div_eq_of_lt hx, Nat.mod_eq_of_lt hx]
  exact ⟨rfl, rfl⟩

theorem div_next {m o n : ℕ} (hm : 0 < m) (hn : n = m - o % m) :
    (o + n) / m = o / m + 1 ∧ (o + n) % m = 0 := by
  have hr := Nat.mod_lt o hm
  have hend : o + n = m * (o / m + 1) := by
    have := Nat.div_add_mod o m
    rw [Nat.mul_succ]
    omega
  rw [hend, Nat.mul_div_cancel_left _ hm, Nat.mul_mod_right]
  exact ⟨rfl, rfl⟩

theorem byteReads_iff {offset x : ℕ} (hcs : 0 < v.clusterSize)
    (hx : offset % v.clusterSize + x < v.clusterSize)
    (hcur : v.clusterAt (offset / v.clusterSize) entry.cluster = some cur) :
    v.ByteReads entry (offset + x) ↔
      v.SectorReads (v.clusterToSector cur) (offset % v.clusterSize + x) := by
  have hdiv := div_within hcs hx
  rw [Fat16Impl.ByteReads, hdiv.1, hdiv.2, hcur]
  exact ⟨fun ⟨c, hc, h⟩ => Option.some.inj hc ▸ h, fun h => ⟨cur, rfl, h⟩⟩

/-- What the loop of `read` does in a round for `n` bytes of the cluster `cur`. -/
inductive Round (v : Fat16Impl) (entry : DirEntry) (total fuel b offset n : ℕ) (cur : Cluster)
    (buf : List UInt8) (fetched : List (Cluster × ℕ)) (o : ReadOutcome) : Prop
  /-- The byte `q` cannot be read. -/
  | fails (q : ℕ) (le : offset ≤ q) (lt : q < offset + n)
      (before : ∀ p, offset ≤ p → p < q → v.ByteReads entry p) (fails : ¬ v.ByteReads entry q)
      (idx : q / v.clusterSize = offset / v.clusterSize)
      (eq : o = ⟨.error (v.sectorStop (v.clusterToSector cur) (q % v.clusterSize)),
        ⟨offset, cur, entry, v⟩, buf, fetched⟩)
  /-- The chain ends here. -/
  | ends (reads : ∀ p, offset ≤ p → p < offset + n → v.ByteReads entry p) (more : b + n < total)
      (last : v.nextCluster? cur = none)
      (eq : o = ⟨match v.linkError cur with
          | some stop => .error stop
          | none => .ok (b + n), ⟨offset + n, cur, entry, v⟩, buf, fetched⟩)
  /-- The loop goes on, in the next cluster if bytes are left to read. -/
  | goesOn (next : Cluster) (reads : ∀ p, offset ≤ p → p < offset + n → v.ByteReads entry p)
      (cluster : b + n < total →
        v.clusterAt ((offset + n) / v.clusterSize) entry.cluster = some next)
      (eq : o = { readLoop total fuel (b + n) ⟨offset + n, next, entry, v⟩ buf with
        fetched := fetched ++
          (readLoop total fuel (b + n) ⟨offset + n, next, entry, v⟩ buf).fetched })

theorem chunk_reaches {offset n : ℕ} (hcs : 0 < v.clusterSize)
    (hfit : offset % v.clusterSize + n ≤ v.clusterSize)
    (hcur : v.clusterAt (offset / v.clusterSize) entry.cluster = some cur) {result : Fs ℕ}
    (h : Reaches (fun x => v.SectorReads (v.clusterToSector cur) (offset % v.clusterSize + x))
      (fun x => v.sectorStop (v.clusterToSector cur) (offset % v.clusterSize + x)) 0 n n result) :
    Reaches (v.ByteReads entry) (fun q => v.sectorStop (v.clusterToSector cur) (q % v.clusterSize))
      offset (offset + n) n result := by
  refine h.shift (fun x hx => byteReads_iff hcs (by omega) hcur) fun x hx => ?_
  rw [(div_within hcs (by omega)).2]

/-- **A round.** -/
theorem readLoop_round (fuel : ℕ) {total b offset n : ℕ} (hcs : 0 < v.clusterSize)
    (hbuf : total ≤ buf.length) (hb : b < total)
    (hn : n = min (total - b) (v.clusterSize - offset % v.clusterSize))
    (hcur : v.clusterAt (offset / v.clusterSize) entry.cluster = some cur) :
    ∃ buf' fetched, buf'.length = buf.length ∧
      (∀ p ∈ fetched, p.1 = cur ∧ p.2 ∈ v.clusterSectors cur) ∧ (∃ s, (cur, s) ∈ fetched) ∧
      Round v entry total fuel b offset n cur buf' fetched
        (readLoop total (fuel + 1) b ⟨offset, cur, entry, v⟩ buf) := by
  have hr : offset % v.clusterSize < v.clusterSize := Nat.mod_lt _ hcs
  have hfit : offset % v.clusterSize + n ≤ v.clusterSize := by omega
  have hwindow : ((buf.drop b).take n).length = n := by
    rw [List.length_take, List.length_drop]
    omega
  have hfits : offset % v.clusterSize + ((buf.drop b).take n).length ≤ v.clusterSize := by
    rwa [hwindow]
  obtain ⟨hlen, hne, hin, hreaches⟩ :=
    readFromCurrentCluster_reads (f := ⟨offset, cur, entry, v⟩) hr hfits
  rw [hwindow] at hlen hne hreaches
  have hbytes := chunk_reaches hcs hfit hcur hreaches
  obtain ⟨⟨result, part, sectors⟩, hrun⟩ : ∃ r, readFromCurrentCluster ⟨offset, cur, entry, v⟩
    (offset % v.clusterSize) ((buf.drop b).take n) = r := ⟨_, rfl⟩
  rw [hrun] at hlen hne hin hbytes
  replace hlen : part.length = n := hlen
  refine ⟨copyAt buf b part, sectors.map fun s => (cur, s), length_copyAt (by omega),
    fun p hp => ?_, ?_, ?_⟩
  · obtain ⟨s, hs, rfl⟩ := List.mem_map.mp hp
    exact ⟨rfl, hin s hs⟩
  · obtain ⟨s, hs⟩ := List.exists_mem_of_ne_nil _ (hne (by omega))
    exact ⟨s, List.mem_map_of_mem hs⟩
  · rw [readLoop, if_pos hb]
    simp only [← hn, hrun]
    cases hbytes with
    | first q le lt before fails eq =>
        obtain rfl : result = _ := eq
        obtain ⟨x, rfl⟩ := Nat.exists_eq_add_of_le le
        exact .fails (offset + x) le lt before fails (div_within hcs (by omega)).1 rfl
    | all reads eq =>
        obtain rfl : result = _ := eq
        simp only [if_neg (lt_irrefl n)]
        by_cases hmove : b + n < total ∧ (offset + n) % v.clusterSize = 0
        · rw [if_pos hmove]
          cases hnext : v.nextCluster? cur with
          | none =>
              rw [moveToNextCluster_none (f := ⟨offset + n, cur, entry, v⟩) hnext]
              refine .ends reads hmove.1 hnext ?_
              cases v.linkError cur <;> rfl
          | some next =>
              rw [moveToNextCluster_some (f := ⟨offset + n, cur, entry, v⟩) hnext]
              refine .goesOn next reads (fun _ => ?_) rfl
              rw [(div_next hcs (by omega)).1, Fat16Impl.clusterAt_succ, hcur]
              exact hnext
        · rw [if_neg hmove]
          exact .goesOn cur reads
            (fun hlt => absurd ⟨hlt, (div_next hcs (by omega)).2⟩ hmove) rfl

/-! ### The loop -/

/-- A cluster that reading comes to. -/
def Fetchable (v : Fat16Impl) (entry : DirEntry) (c : Cluster) : Prop :=
  0 < v.clusterSize ∧ ∃ p < entry.size, (∀ q < p, v.ByteReads entry q) ∧
    v.clusterAt (p / v.clusterSize) entry.cluster = some c

/-- All bytes before the offset of the file can be read. -/
structure Upto (v : Fat16Impl) (entry : DirEntry) (f : File) : Prop where
  entry_eq : f.entry = entry
  handle_eq : f.handle = v
  offset_le : f.offset ≤ entry.size
  reads : ∀ q < f.offset, v.ByteReads entry q

/-- What a call leaves behind. -/
structure Kept (v : Fat16Impl) (entry : DirEntry) (o : ReadOutcome) : Prop where
  upto : Upto v entry o.file
  fetched : ∀ p ∈ o.fetched, Fetchable v entry p.1 ∧ p.2 ∈ v.clusterSectors p.1

theorem Kept.append {o : ReadOutcome} {l : List (Cluster × ℕ)}
    (hl : ∀ p ∈ l, Fetchable v entry p.1 ∧ p.2 ∈ v.clusterSectors p.1) (h : Kept v entry o) :
    Kept v entry { o with fetched := l ++ o.fetched } :=
  ⟨h.upto, fun p hp => (List.mem_append.mp hp).elim (hl p) (h.fetched p)⟩

theorem readLoop_kept {total : ℕ} (hcs : 0 < v.clusterSize) :
    ∀ fuel b offset cur (buf : List UInt8), total ≤ buf.length → b ≤ total →
      offset + (total - b) ≤ entry.size → (∀ q < offset, v.ByteReads entry q) →
      (b < total → v.clusterAt (offset / v.clusterSize) entry.cluster = some cur) →
      Kept v entry (readLoop total fuel b ⟨offset, cur, entry, v⟩ buf) := by
  intro fuel
  induction fuel with
  | zero =>
      intro b offset cur buf _ _ hsize hreads _
      exact ⟨⟨rfl, rfl, Nat.le_of_add_right_le hsize, hreads⟩, List.forall_mem_nil _⟩
  | succ fuel ih =>
      intro b offset cur buf hbuf hb hsize hreads hat
      by_cases hmore : b < total
      · obtain ⟨n, hn⟩ : ∃ n, n = min (total - b) (v.clusterSize - offset % v.clusterSize) := ⟨_, rfl⟩
        obtain ⟨buf', fetched, hlen, hsectors, -, hround⟩ :=
          readLoop_round fuel hcs hbuf hmore hn (hat hmore)
        have hfetched : ∀ p ∈ fetched, Fetchable v entry p.1 ∧ p.2 ∈ v.clusterSectors p.1 := by
          intro p hp
          obtain ⟨hcluster, hsector⟩ := hsectors p hp
          rw [hcluster]
          exact ⟨⟨hcs, offset, by omega, hreads, hat hmore⟩, hsector⟩
        have hreads' : (∀ p, offset ≤ p → p < offset + n → v.ByteReads entry p) →
            ∀ q < offset + n, v.ByteReads entry q := fun h q hq =>
          (Nat.lt_or_ge q offset).elim (hreads q) fun hle => h q hle hq
        cases hround with
        | fails q le lt before fails idx eq =>
            rw [eq]
            exact ⟨⟨rfl, rfl, Nat.le_of_add_right_le hsize, hreads⟩, hfetched⟩
        | ends reads more last eq =>
            rw [eq]
            exact ⟨⟨rfl, rfl, by simp only; omega, hreads' reads⟩, hfetched⟩
        | goesOn next reads cluster eq =>
            rw [eq]
            exact .append hfetched (ih (b + n) (offset + n) next buf' (by omega) (by omega) (by omega)
              (hreads' reads) cluster)
      · rw [readLoop, if_neg hmore]
        exact ⟨⟨rfl, rfl, Nat.le_of_add_right_le hsize, hreads⟩, List.forall_mem_nil _⟩

theorem read_kept {f : File} (h : Upto v entry f) (buf : List UInt8) :
    Kept v entry (f.read buf) := by
  obtain ⟨rfl, rfl, hle, hreads⟩ := h
  have hsame : Upto f.handle f.entry f := ⟨rfl, rfl, hle, hreads⟩
  rw [read]
  split_ifs with hend
  · exact ⟨hsame, List.forall_mem_nil _⟩
  · simp only
    split_ifs with h0
    · exact ⟨hsame, List.forall_mem_nil _⟩
    · cases hensure : f.ensureCorrectCluster with
      | error stop => exact ⟨hsame, List.forall_mem_nil _⟩
      | ok f' =>
          have hcs : 0 < f.handle.clusterSize := by
            refine Nat.pos_of_ne_zero fun h0 => ?_
            rw [ensureCorrectCluster, if_pos h0] at hensure
            cases hensure
          obtain ⟨c, rfl, hc⟩ := (ensureCorrectCluster_ok_iff hcs).mp hensure
          exact readLoop_kept hcs _ 0 f.offset c buf (min_le_left _ _) (Nat.zero_le _) (by omega)
            hreads fun _ => hc

theorem reads_kept : ∀ (bufs : List (List UInt8)) {f : File}, Upto v entry f →
    ∀ o ∈ f.reads bufs, Kept v entry o
  | [], _, _, _, ho => by cases ho
  | buf :: bufs, f, h, o, ho => by
      have hkept := read_kept h buf
      rcases List.mem_cons.mp ho with rfl | ho
      · exact hkept
      · exact reads_kept bufs hkept.upto o ho

/-- A loop that wants a byte reads the cluster of it, if all bytes before can be read. -/
theorem readLoop_fetches {total p : ℕ} (hcs : 0 < v.clusterSize)
    (hreads : ∀ q < p, v.ByteReads entry q)
    (hc : v.clusterAt (p / v.clusterSize) entry.cluster = some c) :
    ∀ fuel b offset cur (buf : List UInt8), total ≤ buf.length → total - b < fuel →
      offset ≤ p → p < offset + (total - b) →
      v.clusterAt (offset / v.clusterSize) entry.cluster = some cur →
      ∃ s, (c, s) ∈ (readLoop total fuel b ⟨offset, cur, entry, v⟩ buf).fetched := by
  intro fuel
  induction fuel with
  | zero => exact fun _ _ _ _ _ hfuel => absurd hfuel (Nat.not_lt_zero _)
  | succ fuel ih =>
      intro b offset cur buf hbuf hfuel hle hlt hcur
      have hr : offset % v.clusterSize < v.clusterSize := Nat.mod_lt _ hcs
      obtain ⟨n, hn⟩ : ∃ n, n = min (total - b) (v.clusterSize - offset % v.clusterSize) := ⟨_, rfl⟩
      obtain ⟨buf', fetched, hlen, -, ⟨s, hs⟩, hround⟩ :=
        readLoop_round fuel hcs hbuf (by omega) hn hcur
      by_cases hin : p < offset + n
      · -- the byte is in the cluster of this round
        obtain ⟨x, rfl⟩ := Nat.exists_eq_add_of_le hle
        have hidx := (div_within (x := x) hcs (by omega : offset % v.clusterSize + x < _)).1
        obtain rfl : cur = c := Option.some.inj (hcur.symm.trans (hidx ▸ hc))
        refine ⟨s, ?_⟩
        cases hround with
        | fails q le lt before fails idx eq => exact eq ▸ hs
        | ends reads more last eq => exact eq ▸ hs
        | goesOn next reads cluster eq => exact eq ▸ List.mem_append_left _ hs
      · cases hround with
        | fails q le lt before fails idx eq => exact absurd (hreads q (by omega)) fails
        | ends reads more last eq =>
            have hsome : (v.clusterAt ((offset + n) / v.clusterSize) entry.cluster).isSome :=
              Fat16Impl.clusterAt_le (Nat.div_le_div_right (Nat.not_lt.mp hin)) (by rw [hc]; rfl)
            rw [(div_next hcs (by omega)).1, Fat16Impl.clusterAt_succ, hcur, Option.bind_some,
              last] at hsome
            cases hsome
        | goesOn next reads cluster eq =>
            obtain ⟨s, hs⟩ := ih (b + n) (offset + n) next buf' (by omega) (by omega) (by omega)
              (by omega) (cluster (by omega))
            exact ⟨s, eq ▸ List.mem_append_right _ hs⟩

theorem new_upto (v : Fat16Impl) (entry : DirEntry) : Upto v entry (File.new v entry) :=
  ⟨rfl, rfl, Nat.zero_le _, fun _ hq => absurd hq (Nat.not_lt_zero _)⟩

theorem read_fetches (h : Fetchable v entry c) :
    ∃ s, (c, s) ∈ ((File.new v entry).read (List.replicate entry.size 0)).fetched := by
  obtain ⟨hcs, p, hp, hreads, hc⟩ := h
  have hensure : (File.new v entry).ensureCorrectCluster = .ok (File.new v entry) := by
    refine (ensureCorrectCluster_ok_iff hcs).mpr ⟨entry.cluster, rfl, ?_⟩
    rw [show (File.new v entry).offset = 0 from rfl, Nat.zero_div]
    rfl
  have hlen : min (List.replicate entry.size (0 : UInt8)).length
      ((File.new v entry).entry.size - (File.new v entry).offset) = entry.size := by
    rw [List.length_replicate]
    exact min_self _
  have hoffset : ¬ (File.new v entry).offset ≥ (File.new v entry).entry.size :=
    Nat.not_le.mpr (Nat.zero_lt_of_lt hp)
  rw [read, if_neg hoffset]
  simp only [hlen]
  rw [if_neg (Nat.ne_of_gt (Nat.zero_lt_of_lt hp)), hensure]
  refine readLoop_fetches hcs hreads hc _ 0 0 entry.cluster _ (List.length_replicate ..).ge
    (Nat.lt_succ_self _) (Nat.zero_le _) (by omega) ?_
  rw [Nat.zero_div]
  rfl

/-- **Data clusters.**  Calls of `read` on a file read data clusters only, exactly when the chain
has a data cluster for every byte of the file, as long as it goes on and the bytes before can be
read. -/
theorem fetched_data_iff :
    (∀ bufs, ∀ o ∈ (File.new v entry).reads bufs, ∀ p ∈ o.fetched,
      Fat16Impl.IsData p.1.val ∧ p.2 ∈ v.clusterSectors p.1) ↔
    (0 < v.clusterSize → ∀ p < entry.size, (∀ q < p, v.ByteReads entry q) →
      ∀ c, v.clusterAt (p / v.clusterSize) entry.cluster = some c → Fat16Impl.IsData c.val) := by
  constructor
  · intro h hcs p hp hreads c hc
    obtain ⟨s, hs⟩ := read_fetches ⟨hcs, p, hp, hreads, hc⟩
    exact (h [List.replicate entry.size 0] _ List.mem_cons_self _ hs).1
  · intro h bufs o ho p hp
    obtain ⟨⟨hcs, q, hq, hreads, hc⟩, hsector⟩ :=
      (reads_kept bufs (new_upto v entry) o ho).fetched p hp
    exact ⟨h hcs q hq hreads _ hc, hsector⟩

end File

/-- The FAT marks what follows cluster 2 as a bad cluster. -/
def badVolume : Fat16Impl where
  bpb := ⟨smallBoot⟩
  inner := { readBlock := fun s => .ok (blockOf (if s = 1 then [0, 0, 0, 0, 0xF7, 0xFF] else [])) }
  fatStart := 1
  firstDataSector := 3
  firstRootDirSector := 2

/-- The sectors of the bad cluster, and of the clusters 0 and 1 of two entries, are read as data. -/
theorem bad_cluster_read :
    let o := (File.new badVolume { smallFile with size := 513 }).read (List.replicate 513 1)
    o.result = .ok 513 ∧ (⟨0xFFF7⟩, 65528) ∈ o.fetched ∧ ¬ Fat16Impl.IsData 0xFFF7 ∧
      ((File.new badVolume { smallFile with cluster := ⟨0⟩ }).read [1]).fetched = [(⟨0⟩, 3)] ∧
      ((File.new badVolume { smallFile with cluster := ⟨1⟩ }).read [1]).fetched = [(⟨1⟩, 3)] := by
  refine ⟨by decide +kernel, by decide +kernel, ?_, by decide +kernel, by decide +kernel⟩
  unfold Fat16Impl.IsData
  decide

end Ysos.Fat16
