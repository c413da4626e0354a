import Ysos.Stops

/-! # Reading to the end

`read_all` calls `read` with a buffer of 1024 bytes until it reads nothing, and appends what it has
read.  On a volume with sectors of 512 bytes, every call but the last moves the offset.

* `readAll`: the code.
* `read_next`: what one call does.
* `read_all_bounded`: the loop ends on any disk, and appends what is left of the file at most. -/

namespace Ysos.Fat16

open Runs

/-- What a call of `read_all` leaves behind. -/
structure AllOutcome where
  result : Fs ℕ
  file : File
  buf : List UInt8

namespace File

/-- `temp_buf`. -/
def tempBuf : List UInt8 := List.replicate 1024 0

/-- The loop of `read_all`, with fuel and the number of bytes read so far. -/
def readAllLoop : ℕ → ℕ → File → List UInt8 → AllOutcome
  | 0, _, f, buf => ⟨.error .outOfFuel, f, buf⟩
  | fuel + 1, total, f, buf =>
      let o := f.read tempBuf
      match o.result with
      | .ok n =>
          if n = 0 then ⟨.ok total, o.file, buf⟩
          else if n ≤ o.buf.length then
            readAllLoop fuel (total + n) o.file (buf ++ o.buf.take n)
          else ⟨.error .panic, o.file, buf⟩
      | .error e => ⟨.error e, o.file, buf⟩

def readAll (f : File) (fuel : ℕ) (buf : List UInt8) : AllOutcome := readAllLoop fuel 0 f buf

end File

/-! ### Errors -/

namespace Fat16Impl

variable {v : Fat16Impl} {entry : DirEntry} {c : Cluster} {q : ℕ} {stop : Stop}

theorem getNextCluster_error (hbps : v.bpb.bytesPerSector = BLOCK_SIZE) {c : ℕ}
    (h : v.getNextCluster c = .error stop) : ∃ e, stop = .err e := by
  rcases getNextCluster_cases hbps c with ⟨e, he⟩ | hnone | ⟨next, -, hnext⟩
  · cases h.symm.trans he
    exact ⟨e, rfl⟩
  · cases h.symm.trans hnone
  · cases h.symm.trans hnext

theorem followClusters_error (hbps : v.bpb.bytesPerSector = BLOCK_SIZE) :
    ∀ {n : ℕ} {c : Cluster}, v.followClusters n c = .error stop → ∃ e, stop = .err e
  | 0, _, h => nomatch h
  | n + 1, c, h => by
      rw [followClusters] at h
      split_ifs at h
      · cases h
        exact ⟨_, rfl⟩
      · rcases bind_eq_error.mp h with h | ⟨next, -, h⟩
        · exact getNextCluster_error hbps h
        · cases next with
          | none =>
              cases h
              exact ⟨_, rfl⟩
          | some next => exact followClusters_error hbps h

/-- A byte that is not read fails with an error of the file system. -/
theorem stopAt_eq_err (hbps : v.bpb.bytesPerSector = BLOCK_SIZE) (hnot : ¬ v.ByteReads entry q)
    (h : v.stopAt entry q = some stop) : ∃ e, stop = .err e := by
  rw [stopAt] at h
  cases hat : v.clusterAt (q / v.clusterSize) entry.cluster with
  | none =>
      rw [hat] at h
      simp only at h
      cases hidx : q / v.clusterSize with
      | zero =>
          rw [hidx] at hat
          cases hat
      | succ i =>
          rw [hidx, linkStop] at h
          obtain ⟨c, -, hlink⟩ := Option.bind_eq_some_iff.mp h
          rw [linkError] at hlink
          split_ifs at hlink
          cases hnext : v.getNextCluster (c.val % 2 ^ 16) with
          | ok next =>
              rw [hnext] at hlink
              cases hlink
          | error stop' =>
              rw [hnext] at hlink
              cases hlink
              exact getNextCluster_error hbps hnext
  | some c =>
      rw [hat] at h
      cases Option.some.inj h
      rw [sectorStop]
      cases hblock : v.inner.readBlock
          (v.clusterToSector c + q % v.clusterSize / v.bpb.bytesPerSector) with
      | error e => exact ⟨e, rfl⟩
      | ok block =>
          refine absurd ⟨c, hat, ⟨block, hblock⟩, ?_⟩ hnot
          rw [hbps]
          exact Nat.mod_lt _ (Nat.zero_lt_succ _)

end Fat16Impl

namespace File

variable {f : File} {buf : List UInt8} {clusters : List ℕ} {stop : Stop}

theorem ensureCorrectCluster_error (hbps : f.handle.bpb.bytesPerSector = BLOCK_SIZE)
    (hcs : 0 < f.handle.clusterSize) (h : f.ensureCorrectCluster = .error stop) :
    ∃ e, stop = .err e := by
  rw [ensureCorrectCluster, if_neg hcs.ne'] at h
  simp only at h
  split_ifs at h
  rcases bind_eq_error.mp h with h | ⟨c, -, h⟩
  · exact Fat16Impl.followClusters_error hbps h
  · cases h

/-- The bytes from the offset on can be read. -/
def RestReads (f : File) : Prop :=
  ∀ q, f.offset ≤ q → q < f.entry.size → f.handle.ByteReads f.entry q

/-- A call ends with an error, or it moves the offset by what it has read; and if the rest of the file
can be read, it reads all that is wanted. -/
theorem read_next (hbps : f.handle.bpb.bytesPerSector = BLOCK_SIZE)
    (hspc : 1 ≤ f.handle.bpb.sectorsPerCluster) (buf : List UInt8) :
    ((∃ e, (f.read buf).result = .error (.err e)) ∧ ¬ f.RestReads) ∨
      ∃ n ≤ f.wanted buf, (f.read buf).result = .ok n ∧ (f.read buf).buf.length = buf.length ∧
        (f.read buf).file =
          { f with offset := f.offset + n, currentCluster := (f.read buf).file.currentCluster } ∧
        (f.RestReads → n = f.wanted buf) := by
  have hcs : 0 < f.handle.clusterSize := by
    rw [Fat16Impl.clusterSize, hbps]
    exact Nat.mul_pos hspc (Nat.zero_lt_succ _)
  have hwanted : f.offset + f.wanted buf ≤ f.entry.size ∨ f.wanted buf = 0 := by
    rw [wanted]
    omega
  rcases f.read_cases buf with ⟨h0, hread⟩ | ⟨hpos, ⟨stop, hensure, hread⟩ | ⟨-, q, hq⟩⟩
  · exact Or.inr ⟨0, Nat.zero_le _, by rw [hread], by rw [hread], by rw [hread]; rfl, fun _ => h0.symm⟩
  · obtain ⟨e, rfl⟩ := ensureCorrectCluster_error hbps hcs hensure
    refine Or.inl ⟨⟨e, by rw [hread]⟩, fun hrest => ?_⟩
    obtain ⟨c, hc, -⟩ := hrest f.offset le_rfl (by omega)
    cases hensure.symm.trans ((ensureCorrectCluster_ok_iff hcs).mpr ⟨c, rfl, hc⟩)
  · have hle := hq.le
    have hgoal := hq.le_goal
    obtain ⟨hok, hmoved, hend⟩ | ⟨hlt, hnot, -, stop, hstop, herror⟩ := hq.outcome
    · refine Or.inr ⟨q - f.offset, by omega, by rw [hok, Nat.zero_add], hq.length, ?_, fun hrest => ?_⟩
      · refine eq_of_fields (f := { f with offset := f.offset + (q - f.offset) }) ?_ hq.entry_eq
          hq.handle_eq
        rw [hmoved]
        simp only
        omega
      · rcases hend with rfl | hnone
        · omega
        · by_contra hne
          exact (hrest q hle (by omega)).stopAt_ne_none hnone
    · obtain ⟨e, rfl⟩ := Fat16Impl.stopAt_eq_err hbps hnot hstop
      exact Or.inl ⟨⟨e, herror⟩, fun hrest => hnot (hrest q hle (by omega))⟩

/-! ### The loop -/

theorem length_tempBuf : tempBuf.length = 1024 := List.length_replicate

/-- What `read_all` leaves behind, after `total` bytes. -/
structure ReadsAll (f : File) (total : ℕ) (buf : List UInt8) (o : AllOutcome) : Prop where
  before : buf <+: o.buf
  outcome : (∃ e, o.result = .error (.err e)) ∨
    ∃ n ≤ f.entry.size - f.offset, o.result = .ok (total + n) ∧ o.buf.length = buf.length + n
  rest : f.RestReads → o.result = .ok (total + (f.entry.size - f.offset))

/-- The loop ends after a round for every byte that is left of the file. -/
theorem readAllLoop_ends : ∀ (left total : ℕ) (f : File) (buf : List UInt8),
    f.handle.bpb.bytesPerSector = BLOCK_SIZE → 1 ≤ f.handle.bpb.sectorsPerCluster →
      f.entry.size - f.offset ≤ left →
      ∃ o, (∀ n, left < n → readAllLoop n total f buf = o) ∧ ReadsAll f total buf o := by
  intro left
  induction left with
  | zero =>
      intro total f buf _ _ hleft
      have hread : ∀ buf, f.read buf = ⟨.ok 0, f, buf, []⟩ := fun buf => if_pos (by omega)
      refine ⟨⟨.ok total, f, buf⟩, fun n hn => ?_, List.prefix_refl _,
        Or.inr ⟨0, Nat.zero_le _, rfl, rfl⟩, fun _ => ?_⟩
      · obtain ⟨m, rfl⟩ := Nat.exists_eq_succ_of_ne_zero hn.ne'
        rw [readAllLoop]
        simp only [hread, if_true]
      · rw [Nat.le_zero.mp hleft]
        rfl
  | succ left ih =>
      intro total f buf hbps hspc hleft
      have hnext := read_next hbps hspc tempBuf
      rw [wanted, length_tempBuf] at hnext
      generalize hr : f.read tempBuf = r at hnext
      rcases hnext with ⟨⟨e, herror⟩, hrest⟩ | ⟨k, hk, hok, hlen, hfile, hall⟩
      · refine ⟨⟨.error (.err e), r.file, buf⟩, fun n hn => ?_, List.prefix_refl _, Or.inl ⟨e, rfl⟩,
          fun h => absurd h hrest⟩
        obtain ⟨m, rfl⟩ := Nat.exists_eq_succ_of_ne_zero (Nat.ne_of_gt (Nat.zero_lt_of_lt hn))
        rw [readAllLoop]
        simp only [hr, herror]
      · by_cases hk0 : k = 0
        · -- nothing was read
          refine ⟨⟨.ok total, r.file, buf⟩, fun n hn => ?_, List.prefix_refl _,
            Or.inr ⟨0, Nat.zero_le _, rfl, rfl⟩, fun h => ?_⟩
          · obtain ⟨m, rfl⟩ := Nat.exists_eq_succ_of_ne_zero (Nat.ne_of_gt (Nat.zero_lt_of_lt hn))
            rw [readAllLoop]
            simp only [hr, hok, if_pos hk0]
          · have h0 := hall h
            rw [show f.entry.size - f.offset = 0 by omega, Nat.add_zero]
        · have hentry : r.file.entry = f.entry := by rw [hfile]
          have hhandle : r.file.handle = f.handle := by rw [hfile]
          have hoffset : r.file.offset = f.offset + k := by rw [hfile]
          obtain ⟨o, hloop, hprefix, hout, hrest⟩ := ih (total + k) r.file (buf ++ r.buf.take k)
            (by rwa [hhandle]) (by rwa [hhandle]) (by rw [hentry, hoffset]; omega)
          rw [hentry, hoffset] at hout hrest
          refine ⟨o, fun n hn => ?_, (List.prefix_append _ _).trans hprefix, hout.imp_right ?_,
            fun h => ?_⟩
          · obtain ⟨m, rfl⟩ := Nat.exists_eq_succ_of_ne_zero (Nat.ne_of_gt (Nat.zero_lt_of_lt hn))
            rw [readAllLoop]
            simp only [hr, hok, if_neg hk0]
            rw [if_pos (by omega)]
            exact hloop m (Nat.lt_of_succ_lt_succ hn)
          · rintro ⟨n, hn, hresult, hbuf⟩
            rw [List.length_append, List.length_take, hlen, min_eq_left (by omega)] at hbuf
            exact ⟨k + n, by omega, by rw [hresult, Nat.add_assoc], by omega⟩
          · have hreads : r.file.RestReads := fun q hq hlt => by
              rw [hentry] at hlt ⊢
              rw [hoffset] at hq
              rw [hhandle]
              exact h q (by omega) hlt
            rw [hrest hreads]
            congr 1
            omega

theorem readAllLoop_eq : ∀ (left total : ℕ) (f : File) (buf : List UInt8),
    f.handle.Serves f.entry clusters → f.entry.size - f.offset ≤ left →
      ∀ n, left < n → (readAllLoop n total f buf).result = .ok (total + (f.entry.size - f.offset)) ∧
        (readAllLoop n total f buf).buf =
          buf ++ (f.handle.content f.entry clusters).drop f.offset := by
  intro left
  induction left with
  | zero =>
      intro total f buf h hleft n hn
      obtain ⟨m, rfl⟩ := Nat.exists_eq_succ_of_ne_zero hn.ne'
      have hread : ∀ buf, f.read buf = ⟨.ok 0, f, buf, []⟩ := fun buf => if_pos (by omega)
      rw [readAllLoop, List.drop_eq_nil_of_le (by rw [h.length_content]; omega), List.append_nil,
        Nat.le_zero.mp hleft]
      simp only [hread, if_true, Nat.add_zero, and_self]
  | succ left ih =>
      intro total f buf h hleft n hn
      obtain ⟨m, rfl⟩ := Nat.exists_eq_succ_of_ne_zero (Nat.ne_of_gt (Nat.zero_lt_of_lt hn))
      obtain ⟨cur, fetched, k, hk, hread⟩ := read_eq h tempBuf
      rw [length_tempBuf] at hk
      rw [readAllLoop]
      simp only [hread]
      have hSlen : ((f.handle.content f.entry clusters).drop f.offset).length =
          f.entry.size - f.offset := by rw [List.length_drop, h.length_content]
      by_cases hk0 : k = 0
      · rw [if_pos hk0, List.drop_eq_nil_of_le (by rw [h.length_content]; omega), List.append_nil,
          show f.entry.size - f.offset = 0 by omega, Nat.add_zero]
        exact ⟨rfl, rfl⟩
      · have hlen : (Windows.filled ((f.handle.content f.entry clusters).drop f.offset) k
            tempBuf).length = 1024 := by
          rw [Windows.length_filled (by omega) (by rw [length_tempBuf]; omega), length_tempBuf]
        obtain ⟨hresult, hbuf⟩ := ih (total + k)
          { f with offset := f.offset + k, currentCluster := cur }
          (buf ++ (Windows.filled ((f.handle.content f.entry clusters).drop f.offset) k tempBuf).take k)
          h (by simp only; omega) m (Nat.lt_of_succ_lt_succ hn)
        rw [if_neg hk0, if_pos (by omega)]
        refine ⟨?_, ?_⟩
        · rw [hresult]
          congr 1
          simp only
          omega
        · rw [hbuf, Windows.take_filled (by omega), List.append_assoc]
          simp only
          rw [← List.drop_drop, List.take_append_drop]

/-- **Reading to the end.**  On a volume with sectors of 512 bytes, whatever the disk holds, the loop
ends, keeps what was in the vector, and returns an error or appends as many bytes as it returns, which
are no more than are left of the file.  It appends all of them if they can be read, and they are the
content of a file that is stored in a chain of data clusters. -/
theorem read_all_bounded (f : File) (hbps : f.handle.bpb.bytesPerSector = BLOCK_SIZE)
    (hspc : 1 ≤ f.handle.bpb.sectorsPerCluster) (buf : List UInt8) :
    ∃ o, (∀ᶠ n in Filter.atTop, f.readAll n buf = o) ∧ buf <+: o.buf ∧
      ((∃ e, o.result = .error (.err e)) ∨
        ∃ n ≤ f.entry.size - f.offset, o.result = .ok n ∧ o.buf.length = buf.length + n) ∧
      (f.RestReads → o.result = .ok (f.entry.size - f.offset)) ∧
      ∀ clusters, f.handle.Serves f.entry clusters → o.result = .ok (f.entry.size - f.offset) ∧
        o.buf = buf ++ (f.handle.content f.entry clusters).drop f.offset := by
  obtain ⟨o, hloop, hprefix, hout, hrest⟩ := readAllLoop_ends _ 0 f buf hbps hspc le_rfl
  simp only [Nat.zero_add] at hout hrest
  refine ⟨o, ?_, hprefix, hout, hrest, fun clusters h => ?_⟩
  · filter_upwards [Filter.eventually_gt_atTop (f.entry.size - f.offset)] with n hn
    exact hloop n hn
  · have hbuf := readAllLoop_eq _ 0 f buf h le_rfl _ (Nat.lt_succ_self _)
    rwa [hloop _ (Nat.lt_succ_self _), Nat.zero_add] at hbuf

end File

/-- The file of the small volume, behind a byte of the vector. -/
theorem read_all_bounded_example : ∃ o : AllOutcome,
    (∀ᶠ n in Filter.atTop, (File.new smallVolume smallFile).readAll n [9] = o) ∧
      [9] <+: o.buf ∧ o.result = .ok 514 := by
  obtain ⟨o, hloop, hprefix, -, -, hserves⟩ := File.read_all_bounded (File.new smallVolume smallFile)
    smallVolume_sectors (by decide +kernel) [9]
  exact ⟨o, hloop, hprefix, (hserves [2, 3] smallVolume_serves).1⟩

end Ysos.Fat16
