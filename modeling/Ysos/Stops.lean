import Ysos.DataClusters
import Ysos.Acyclic

/-! # Where a read stops

`read` goes on until it has the bytes that it wants, or comes to a byte that cannot be read or to the
end of the chain.  It moves the offset with every cluster, and an error leaves it there.

* `Fat16Impl.stopAt`: what a call ends with that comes to a byte.
* `File.Stops`, `File.read_cases`: the call goes on to the first byte that cannot be read.
* `recovers_iff`: an error leaves the offset, and a later call reads as this one would have, exactly
  when no byte in a later cluster is the first that fails. -/

namespace Ysos.Fat16

open Windows

variable {v : Fat16Impl} {entry : DirEntry} {c : Cluster}

namespace Fat16Impl

/-- What going on to the cluster with an index in the chain ends with, if not with its end. -/
def linkStop (v : Fat16Impl) (first : Cluster) : ℕ → Option Stop
  | 0 => none
  | i + 1 => (v.clusterAt i first).bind v.linkError

/-- What reading a byte of a file ends with that cannot be read, if not with the end of the chain. -/
def stopAt (v : Fat16Impl) (entry : DirEntry) (q : ℕ) : Option Stop :=
  match v.clusterAt (q / v.clusterSize) entry.cluster with
  | some c => some (v.sectorStop (v.clusterToSector c) (q % v.clusterSize))
  | none => v.linkStop entry.cluster (q / v.clusterSize)

variable {q : ℕ} {e : FsError}

theorem ByteReads.stopAt_ne_none (h : v.ByteReads entry q) : v.stopAt entry q ≠ none := by
  obtain ⟨c, hc, -⟩ := h
  rw [stopAt, hc]
  exact nofun

/-- A byte that the device cannot read, or that it cannot find. -/
theorem stopAt_err (h : v.stopAt entry q = some (.err e)) : ¬ v.ByteReads entry q := by
  rintro ⟨c, hc, ⟨block, hblock⟩, -⟩
  rw [stopAt, hc] at h
  simp only [sectorStop, hblock] at h
  cases Option.some.inj h

end Fat16Impl

namespace File

variable {f : File} {b offset goal q : ℕ} {buf : List UInt8} {o : ReadOutcome}

/-- Reading from the offset on, after `b` bytes, goes on to the byte `q`. -/
structure Stops (v : Fat16Impl) (entry : DirEntry) (buf : List UInt8) (b offset goal q : ℕ)
    (o : ReadOutcome) : Prop where
  entry_eq : o.file.entry = entry
  handle_eq : o.file.handle = v
  length : o.buf.length = buf.length
  le : offset ≤ q
  le_goal : q ≤ goal
  reads : ∀ p, offset ≤ p → p < q → v.ByteReads entry p
  outcome : (o.result = .ok (b + (q - offset)) ∧ o.file.offset = q ∧
      (q = goal ∨ v.stopAt entry q = none)) ∨
    q < goal ∧ ¬ v.ByteReads entry q ∧ o.file.offset = max offset (q / v.clusterSize * v.clusterSize) ∧
      ∃ stop, v.stopAt entry q = some stop ∧ o.result = .error stop

theorem Stops.before {n : ℕ} {buf' : List UInt8} {l : List (Cluster × ℕ)}
    (h : Stops v entry buf' (b + n) (offset + n) goal q o) (hlen : buf'.length = buf.length)
    {goal' : ℕ} (hgoal : goal = goal')
    (hreads : ∀ p, offset ≤ p → p < offset + n → v.ByteReads entry p)
    (hstart : q < goal → offset + n ≤ q / v.clusterSize * v.clusterSize) :
    Stops v entry buf b offset goal' q { o with fetched := l ++ o.fetched } := by
  subst hgoal
  have hle := h.le
  refine ⟨h.entry_eq, h.handle_eq, h.length.trans hlen, by omega, h.le_goal, fun p hp hpq => ?_, ?_⟩
  · by_cases hpn : p < offset + n
    · exact hreads p hp hpn
    · exact h.reads p (Nat.not_lt.mp hpn) hpq
  · refine h.outcome.imp (fun ⟨hok, hrest⟩ => ⟨?_, hrest⟩) fun ⟨hlt, hnot, hoffset, hrest⟩ =>
      ⟨hlt, hnot, ?_, hrest⟩
    · rw [hok, show b + n + (q - (offset + n)) = b + (q - offset) by omega]
    · have := hstart hlt
      rw [hoffset]
      omega

theorem Stops.ends {total n : ℕ} {cur : Cluster} {buf' : List UInt8} {l : List (Cluster × ℕ)}
    (hcs : 0 < v.clusterSize) (hlen : buf'.length = buf.length)
    (hreads : ∀ p, offset ≤ p → p < offset + n → v.ByteReads entry p)
    (hn : n = v.clusterSize - offset % v.clusterSize) (hmore : b + n < total)
    (hlast : v.nextCluster? cur = none)
    (hcur : v.clusterAt (offset / v.clusterSize) entry.cluster = some cur) :
    Stops v entry buf b offset (offset + (total - b)) (offset + n)
      ⟨match v.linkError cur with
        | some stop => .error stop
        | none => .ok (b + n), ⟨offset + n, cur, entry, v⟩, buf', l⟩ := by
  obtain ⟨hidx, hmod⟩ := div_next hcs hn
  have hnone : v.clusterAt ((offset + n) / v.clusterSize) entry.cluster = none := by
    rw [hidx, Fat16Impl.clusterAt_succ, hcur]
    exact hlast
  have hstop : v.stopAt entry (offset + n) = v.linkError cur := by
    rw [Fat16Impl.stopAt, hnone, hidx, Fat16Impl.linkStop, hcur]
    rfl
  refine ⟨rfl, rfl, hlen, Nat.le_add_right _ _, by omega, hreads, ?_⟩
  rw [hstop]
  cases v.linkError cur with
  | none => exact Or.inl ⟨by rw [Nat.add_sub_cancel_left], rfl, Or.inr rfl⟩
  | some stop =>
      refine Or.inr ⟨by omega, ?_, ?_, stop, rfl, rfl⟩
      · rintro ⟨c, hc, -⟩
        cases hnone.symm.trans hc
      · rw [Nat.div_mul_cancel (Nat.dvd_of_mod_eq_zero hmod)]
        exact (max_eq_right (Nat.le_add_right _ _)).symm

theorem readLoop_stops {total : ℕ} (hcs : 0 < v.clusterSize) :
    ∀ fuel b offset cur (buf : List UInt8), total ≤ buf.length → b ≤ total → total - b < fuel →
      (b < total → v.clusterAt (offset / v.clusterSize) entry.cluster = some cur) →
      ∃ q, Stops v entry buf b offset (offset + (total - b)) q
        (readLoop total fuel b ⟨offset, cur, entry, v⟩ buf) := by
  intro fuel
  induction fuel with
  | zero => exact fun _ _ _ _ _ _ hfuel => absurd hfuel (Nat.not_lt_zero _)
  | succ fuel ih =>
      intro b offset cur buf hbuf hb hfuel hat
      by_cases hmore : b < total
      · have hcur := hat hmore
        obtain ⟨n, hn⟩ : ∃ n, n = min (total - b) (v.clusterSize - offset % v.clusterSize) := ⟨_, rfl⟩
        have hr : offset % v.clusterSize < v.clusterSize := Nat.mod_lt _ hcs
        obtain ⟨buf', fetched, hlen, -, -, hround⟩ := readLoop_round fuel hcs hbuf hmore hn hcur
        cases hround with
        | fails q le lt before fails idx eq =>
            rw [eq]
            refine ⟨q, rfl, rfl, hlen, le, by omega, before,
              Or.inr ⟨by omega, fails, ?_, _, ?_, rfl⟩⟩
            · rw [idx]
              exact (max_eq_left (Nat.div_mul_le_self _ _)).symm
            · rw [Fat16Impl.stopAt, idx, hcur]
        | ends reads more last eq =>
            rw [eq]
            exact ⟨_, .ends hcs hlen reads (by omega) more last hcur⟩
        | goesOn next reads cluster eq =>
            obtain ⟨q, hq⟩ := ih (b + n) (offset + n) next buf' (by omega) (by omega) (by omega) cluster
            rw [eq]
            refine ⟨q, hq.before hlen (by omega) reads fun hlt => ?_⟩
            have hle := hq.le
            have hmod := (div_next (o := offset) (n := n) hcs (by omega)).2
            calc offset + n = (offset + n) / v.clusterSize * v.clusterSize :=
                  (Nat.div_mul_cancel (Nat.dvd_of_mod_eq_zero hmod)).symm
              _ ≤ q / v.clusterSize * v.clusterSize :=
                  Nat.mul_le_mul_right _ (Nat.div_le_div_right hle)
      · rw [readLoop, if_neg hmore]
        refine ⟨offset, rfl, rfl, rfl, le_rfl, Nat.le_add_right _ _,
          fun p hp hpo => absurd hpo (Nat.not_lt.mpr hp), Or.inl ⟨?_, rfl, Or.inl (by omega)⟩⟩
        rw [Nat.sub_self]
        rfl

/-- The number of bytes that a call wants. -/
def wanted (f : File) (buf : List UInt8) : ℕ := min buf.length (f.entry.size - f.offset)

/-- A call wants nothing, or cannot find its first cluster, or goes on to some byte. -/
theorem read_cases (f : File) (buf : List UInt8) :
    (f.wanted buf = 0 ∧ f.read buf = ⟨.ok 0, f, buf, []⟩) ∨
      0 < f.wanted buf ∧
        ((∃ stop, f.ensureCorrectCluster = .error stop ∧ f.read buf = ⟨.error stop, f, buf, []⟩) ∨
          (f.handle.clusterAt (f.offset / f.handle.clusterSize) f.entry.cluster).isSome ∧
            ∃ q, Stops f.handle f.entry buf 0 f.offset (f.offset + f.wanted buf) q (f.read buf)) := by
  rw [read, wanted]
  split_ifs with hend
  · exact Or.inl ⟨by omega, rfl⟩
  · simp only
    split_ifs with h0
    · exact Or.inl ⟨h0, rfl⟩
    · refine Or.inr ⟨Nat.pos_of_ne_zero h0, ?_⟩
      cases hensure : f.ensureCorrectCluster with
      | error stop => exact Or.inl ⟨stop, rfl, rfl⟩
      | ok f' =>
          have hcs : 0 < f.handle.clusterSize := by
            refine Nat.pos_of_ne_zero fun hcs => ?_
            rw [ensureCorrectCluster, if_pos hcs] at hensure
            cases hensure
          obtain ⟨c, rfl, hc⟩ := (ensureCorrectCluster_ok_iff hcs).mp hensure
          refine Or.inr ⟨by rw [hc]; rfl, ?_⟩
          exact readLoop_stops hcs _ 0 f.offset c buf (min_le_left _ _) (Nat.zero_le _)
            (Nat.lt_succ_self _) fun _ => hc

/-- The byte where a call stops is the first one that fails. -/
theorem Stops.unique {q' : ℕ} {e : FsError} (h : Stops v entry buf b offset goal q o)
    (hle : offset ≤ q') (hlt : q' < goal) (hreads : ∀ p, offset ≤ p → p < q' → v.ByteReads entry p)
    (hstop : v.stopAt entry q' = some (.err e)) : q' = q ∧ o.result = .error (.err e) ∧
      o.file.offset = max offset (q / v.clusterSize * v.clusterSize) := by
  rcases lt_trichotomy q q' with hq | rfl | hq
  · have hread := hreads q h.le hq
    rcases h.outcome with ⟨-, -, rfl | hnone⟩ | ⟨-, hnot, -⟩
    · exact absurd (hq.trans hlt) (lt_irrefl _)
    · exact absurd hnone hread.stopAt_ne_none
    · exact absurd hread hnot
  · rcases h.outcome with ⟨-, -, rfl | hnone⟩ | ⟨-, -, hoffset, stop, hstop', hresult⟩
    · exact absurd hlt (lt_irrefl _)
    · cases hnone.symm.trans hstop
    · cases hstop.symm.trans hstop'
      exact ⟨rfl, hresult, hoffset⟩
  · exact absurd (h.reads q' hle hq) (Fat16Impl.stopAt_err hstop)

/-! ### Calls after an error -/

theorem eq_of_fields {g : File} (hoffset : g.offset = f.offset)
    (hentry : g.entry = f.entry) (hhandle : g.handle = f.handle) :
    g = { f with currentCluster := g.currentCluster } := by
  cases g
  cases f
  cases hoffset
  cases hentry
  cases hhandle
  rfl

theorem read_congr (f : File) (cur : Cluster) (buf : List UInt8) :
    ({ f with currentCluster := cur }.read buf).result = (f.read buf).result ∧
      ({ f with currentCluster := cur }.read buf).buf = (f.read buf).buf := by
  have hensure : ensureCorrectCluster { f with currentCluster := cur } = f.ensureCorrectCluster := rfl
  rw [read, read, hensure]
  simp only
  split_ifs
  · exact ⟨rfl, rfl⟩
  · exact ⟨rfl, rfl⟩
  · cases f.ensureCorrectCluster with
    | error stop => exact ⟨rfl, rfl⟩
    | ok f' => exact ⟨rfl, rfl⟩

/-- If a call ends with an error, the offset is where it was, and a later call, with any state of the
device, gives what it would have given without this one. -/
def Recovers (f : File) (buf : List UInt8) : Prop :=
  ∀ e, (f.read buf).result = .error (.err e) → (f.read buf).file.offset = f.offset ∧
    ∀ (v : Fat16Impl) (buf' : List UInt8),
      ({ (f.read buf).file with handle := v }.read buf').result =
          ({ f with handle := v }.read buf').result ∧
        ({ (f.read buf).file with handle := v }.read buf').buf = ({ f with handle := v }.read buf').buf

/-- A byte in a later cluster is the first that cannot be read, and the call comes to it. -/
def FailsLater (f : File) (buf : List UInt8) : Prop :=
  ∃ q e, f.offset / f.handle.clusterSize < q / f.handle.clusterSize ∧
    q < f.offset + f.wanted buf ∧
    (∀ p, f.offset ≤ p → p < q → f.handle.ByteReads f.entry p) ∧
    f.handle.stopAt f.entry q = some (.err e)

/-- **Failing reads.**  A call of `read` that ends with an error leaves the offset of the file, so
that a later call reads what it would have read, exactly when the first byte that fails is not in a
later cluster. -/
theorem recovers_iff (f : File) (buf : List UInt8) : f.Recovers buf ↔ ¬ f.FailsLater buf := by
  constructor
  · rintro h ⟨q, e, hlater, hlt, hreads, hstop⟩
    have hcs : 0 < f.handle.clusterSize := by
      refine Nat.pos_of_ne_zero fun h0 => ?_
      rw [h0, Nat.div_zero, Nat.div_zero] at hlater
      exact absurd hlater (lt_irrefl _)
    have hoffset : f.offset < q := by
      by_contra hq
      exact absurd hlater (Nat.not_lt.mpr (Nat.div_le_div_right (Nat.not_lt.mp hq)))
    rcases f.read_cases buf with ⟨h0, -⟩ | ⟨-, ⟨stop, hensure, -⟩ | ⟨-, q', hq'⟩⟩
    · omega
    · obtain ⟨c, hc, -⟩ := hreads f.offset le_rfl hoffset
      cases hensure.symm.trans ((ensureCorrectCluster_ok_iff hcs).mpr ⟨c, rfl, hc⟩)
    · obtain ⟨rfl, hresult, hmoved⟩ := hq'.unique hoffset.le hlt hreads hstop
      have hstart : q / f.handle.clusterSize * f.handle.clusterSize ≤ f.offset := by
        rw [← (h e hresult).1, hmoved]
        exact le_max_right _ _
      exact absurd hlater (Nat.not_lt.mpr ((Nat.le_div_iff_mul_le hcs).mpr hstart))
  · intro h e hresult
    have hsame : (f.read buf).file =
        { f with currentCluster := (f.read buf).file.currentCluster } := by
      rcases f.read_cases buf with ⟨-, hread⟩ | ⟨-, ⟨stop, -, hread⟩ | ⟨-, q, hq⟩⟩
      · rw [hread]
      · rw [hread]
      · obtain ⟨hok, -⟩ | ⟨hlt, -, hmoved, stop, hstop, herror⟩ := hq.outcome
        · cases hok.symm.trans hresult
        · cases herror.symm.trans hresult
          have hstart : q / f.handle.clusterSize * f.handle.clusterSize ≤ f.offset := by
            by_contra hlater
            exact h ⟨q, e, Nat.div_lt_of_lt_mul (by rwa [Nat.mul_comm, ← Nat.not_le]), hlt,
              hq.reads, hstop⟩
          rw [max_eq_left hstart] at hmoved
          exact eq_of_fields hmoved hq.entry_eq hq.handle_eq
    rw [hsame]
    exact ⟨rfl, fun v buf' => read_congr { f with handle := v } _ buf'⟩

end File

/-- The small disk, with a sector that cannot be read. -/
def faultyDisk (sector : ℕ) : BlockDevice where
  readBlock s := if s = sector then .error (.deviceError .readError) else smallDisk.readBlock s

/-- The small volume, without the sector of cluster 3. -/
def faultyVolume : Fat16Impl := { smallVolume with inner := faultyDisk 4 }

/-- The call wants bytes of both clusters. -/
theorem failed_read_moves : ¬ ∀ (f : File) (buf : List UInt8), f.Recovers buf := by
  intro hall
  have hmoved := (hall (File.new faultyVolume smallFile) (List.replicate 513 0)
    (.deviceError .readError) (by decide +kernel)).1
  revert hmoved
  decide +kernel

end Ysos.Fat16
