import Ysos.FileSystem

/-! # Scans that end

The scan of a directory goes on from cluster to cluster until it meets an end mark, the end of the
chain or an error.  A FAT can link clusters in a circle.

* `Walks.ends_iff_acyclic`, `Walks.Fuelled.returns_iff`: a loop returns for some fuel exactly when
  no state that it leads to lies on a cycle.
* `Fat16Impl.Links`: a cluster that is scanned to its end, and the one that follows.
* `scans_return`: the scan from a cluster returns exactly when no cluster that it leads to lies on a
  cycle, and the calls on paths come to an end if all scans do. -/

/-! ### Loops with fuel

A loop goes from state to state by a relation `R`, and returns in a state without a successor. -/

namespace Walks

open Relation

variable {σ τ ρ : Type*} {R : σ → σ → Prop} {s : σ}

/-- Every walk from `s` ends. -/
abbrev Ends (R : σ → σ → Prop) (s : σ) : Prop := Acc (Function.swap R) s

theorem Ends.of_walk {t : σ} (h : Ends R s) (hst : ReflTransGen R s t) : Ends R t := by
  induction hst with
  | refl => exact h
  | tail _ hstep ih => exact ih.inv hstep

theorem not_ends_of_cycle (hcycle : TransGen R s s) : ¬ Ends R s := by
  intro h
  have hswap : TransGen (Function.swap R) s s := transGen_swap.mpr hcycle
  have htrans : Acc (TransGen (Function.swap R)) s := Acc.transGen h
  clear h hcycle
  induction htrans with
  | intro s _ ih => exact ih s hswap hswap

/-- **Acyclic walks.** -/
theorem ends_iff_acyclic (hfin : {t | ∃ s, R s t}.Finite) :
    Ends R s ↔ ∀ t, ReflTransGen R s t → ¬ TransGen R t t := by
  refine ⟨fun h t hst hcycle => not_ends_of_cycle hcycle (h.of_walk hst), fun h => ?_⟩
  by_contra hnot
  obtain ⟨f, rfl, hf⟩ := not_acc_iff_exists_descending_chain.mp hnot
  have hwalk : ∀ m n, m < n → TransGen R (f m) (f n) := by
    intro m n hmn
    induction hmn with
    | refl => exact .single (hf m)
    | step _ ih => exact ih.tail (hf _)
  have hmem : ∀ n, f (n + 1) ∈ {t | ∃ s, R s t} := fun n => ⟨f n, hf n⟩
  obtain ⟨m, n, hmn, heq⟩ := hfin.exists_lt_map_eq_of_forall_mem hmem
  refine h (f (m + 1)) ((hwalk 0 (m + 1) (Nat.succ_pos m)).to_reflTransGen) ?_
  have hcycle := hwalk (m + 1) (n + 1) (Nat.succ_lt_succ hmn)
  rwa [← heq] at hcycle

/-- Walks that a function follows. -/
theorem Ends.of_map {Q : τ → τ → Prop} {f : σ → τ} (h : Ends R s)
    (hf : ∀ s t', Q (f s) t' → ∃ t, R s t ∧ f t = t') : Ends Q (f s) := by
  induction h with
  | intro s _ ih =>
      refine ⟨_, fun t' ht' => ?_⟩
      obtain ⟨t, hst, rfl⟩ := hf s t' ht'
      exact ih t hst

/-! ### Fuel -/

/-- `run` follows `R` while there is fuel, and gives `out` when there is none. -/
structure Fuelled (R : σ → σ → Prop) (run : ℕ → σ → ρ) (out : ρ) : Prop where
  zero : ∀ s, run 0 s = out
  goOn : ∀ n s t, R s t → run (n + 1) s = run n t
  stop : ∀ s, (∀ t, ¬ R s t) → ∃ r, r ≠ out ∧ ∀ n, run (n + 1) s = r

variable {run : ℕ → σ → ρ} {out : ρ}

theorem Fuelled.eventually (h : Fuelled R run out) (hs : Ends R s) :
    ∃ r, r ≠ out ∧ ∀ᶠ n in Filter.atTop, run n s = r := by
  induction hs with
  | intro s _ ih =>
      have hsucc : ∀ {r : ρ}, (∀ᶠ n in Filter.atTop, run (n + 1) s = r) →
          ∀ᶠ n in Filter.atTop, run n s = r := fun {r} hr => by
        rw [← Filter.map_add_atTop_eq_nat 1]
        exact hr
      by_cases hgo : ∃ t, R s t
      · obtain ⟨t, hst⟩ := hgo
        obtain ⟨r, hr, hrun⟩ := ih t hst
        refine ⟨r, hr, hsucc ?_⟩
        filter_upwards [hrun] with n hn
        rw [h.goOn n s t hst, hn]
      · obtain ⟨r, hr, hrun⟩ := h.stop s (not_exists.mp hgo)
        exact ⟨r, hr, hsucc (Filter.Eventually.of_forall hrun)⟩

/-- **Enough fuel.** -/
theorem Fuelled.returns_iff (h : Fuelled R run out) : (∃ n, run n s ≠ out) ↔ Ends R s := by
  constructor
  · rintro ⟨n, hn⟩
    induction n generalizing s with
    | zero => exact absurd (h.zero s) hn
    | succ n ih =>
        refine ⟨_, fun t hst => ih ?_⟩
        rwa [← h.goOn n s t hst]
  · intro hs
    obtain ⟨r, hr, hrun⟩ := h.eventually hs
    obtain ⟨n, hn⟩ := hrun.exists
    exact ⟨n, hn ▸ hr⟩

end Walks

namespace Ysos.Fat16

open Runs Walks Relation

variable {v : Fat16Impl} {c d : Cluster} {entries : List DirEntry}

namespace Fat16Impl

/-! ### Links -/

/-- The number of sectors of a cluster, or of the root directory. -/
def scanLength (v : Fat16Impl) (c : Cluster) : ℕ :=
  if c = .ROOT_DIR then rootDirSize v.bpb else v.bpb.sectorsPerCluster

/-- The blocks of a cluster, or of the root directory. -/
structure Holds (v : Fat16Impl) (c : Cluster) (blocks : List Block512) : Prop where
  reads : v.Reads (v.clusterToSector c) blocks
  length : blocks.length = v.scanLength c

/-- A cluster without an end mark, and the one that the FAT links it to. -/
structure Links (v : Fat16Impl) (c next : Cluster) : Prop where
  ne_root : c ≠ .ROOT_DIR
  unended : ∃ blocks, v.Holds c blocks ∧ (blocks.flatMap slots).any isEnd = false
  link : v.getNextCluster (c.val % 2 ^ 16) = .ok (some next.val)

theorem dirSectors_ok (hbps : v.bpb.bytesPerSector = BLOCK_SIZE) (c : Cluster) :
    v.dirSectors c = .ok (v.scanLength c) := by
  unfold dirSectors scanLength
  split_ifs with h h0
  · rw [hbps] at h0
    exact absurd h0 (by decide)
  · rfl
  · rfl

theorem getNextCluster_cases (hbps : v.bpb.bytesPerSector = BLOCK_SIZE) (c : ℕ) :
    (∃ e, v.getNextCluster c = .error (.err e)) ∨ v.getNextCluster c = .ok none ∨
      ∃ next < 2 ^ 16, v.getNextCluster c = .ok (some next) := by
  have hne : ¬ BLOCK_SIZE = 0 := by decide
  have hfst : c * 2 % BLOCK_SIZE < BLOCK_SIZE := Nat.mod_lt _ (by decide)
  have hsnd : c * 2 % BLOCK_SIZE + 1 < BLOCK_SIZE := by
    simp only [BLOCK_SIZE]
    omega
  rw [getNextCluster]
  simp only [hbps, if_neg hne, bind, Except.bind]
  cases v.inner.readBlock (v.fatStart + c * 2 / BLOCK_SIZE) with
  | error e => exact Or.inl ⟨e, rfl⟩
  | ok block =>
      simp only [FsResult.lift, Vector.getElem?_eq_getElem hfst, Vector.getElem?_eq_getElem hsnd]
      split_ifs
      · exact Or.inr (Or.inl rfl)
      · exact Or.inr (Or.inr ⟨_, u16FromLeBytes_lt _ _, rfl⟩)

theorem scanCluster_link (hbps : v.bpb.bytesPerSector = BLOCK_SIZE) (h : v.Links c d) :
    ∃ es, v.scanCluster c entries = .ok (es, some d) := by
  obtain ⟨hne, ⟨blocks, hholds, hend⟩, hlink⟩ := h
  have hscan : v.scanSectors (v.clusterToSector c) (v.scanLength c) 0 entries =
      .ok (entries ++ listed (blocks.flatMap slots), false) := by
    rw [← hend]
    exact scanSectors_eq hbps blocks _ 0 entries hholds.reads hholds.length.le
      (Or.inl hholds.length)
  have hgoon : ¬ (false = true ∨ c = .ROOT_DIR) := not_or.mpr ⟨nofun, hne⟩
  rw [scanCluster, dirSectors_ok hbps]
  simp only [bind, Except.bind, hscan, if_neg hgoon, hlink]
  exact ⟨_, rfl⟩

/-- A scan of sectors comes to the last one without an end mark, or it returns. -/
theorem scanSectors_cases (hbps : v.bpb.bytesPerSector = BLOCK_SIZE) (sector : ℕ) :
    ∀ (left i : ℕ) (entries : List DirEntry),
    (∃ blocks es, v.Reads (sector + i) blocks ∧ blocks.length = left ∧
      (blocks.flatMap slots).any isEnd = false ∧
      v.scanSectors sector left i entries = .ok (es, false)) ∨
    (∃ es, v.scanSectors sector left i entries = .ok (es, true)) ∨
      ∃ e, v.scanSectors sector left i entries = .error (.err e)
  | 0, i, entries =>
      Or.inl ⟨[], entries, fun _ hi => absurd hi (Nat.not_lt_zero _), rfl, rfl, rfl⟩
  | left + 1, i, entries => by
      cases hblock : v.inner.readBlock (sector + i) with
      | error e =>
          refine Or.inr (Or.inr ⟨e, ?_⟩)
          rw [scanSectors, hblock]
          rfl
      | ok block =>
          have hscan := scanSlots_block block entries
          rw [← hbps] at hscan
          simp only [scanSectors, hblock, FsResult.lift, hscan, bind, Except.bind]
          cases hend : (slots block).any isEnd with
          | true => exact Or.inr (Or.inl ⟨_, rfl⟩)
          | false =>
              rw [if_neg Bool.false_ne_true]
              refine (scanSectors_cases hbps sector left (i + 1) _).imp_left ?_
              rintro ⟨blocks, es, hreads, hlen, hnone, hrun⟩
              refine ⟨block :: blocks, es, fun j hj => ?_, congrArg Nat.succ hlen, ?_, hrun⟩
              · cases j with
                | zero => exact hblock
                | succ j =>
                    rw [show sector + i + (j + 1) = sector + (i + 1) + j by omega]
                    exact hreads j (Nat.lt_of_succ_lt_succ hj)
              · rw [List.flatMap_cons, List.any_append, hend, Bool.false_or, hnone]

/-- One round follows a link, or the scan is over. -/
theorem scanCluster_cases (hbps : v.bpb.bytesPerSector = BLOCK_SIZE) (c : Cluster)
    (entries : List DirEntry) :
    (∃ es next, next.val < 2 ^ 16 ∧ v.Links c next ∧
      v.scanCluster c entries = .ok (es, some next)) ∨
    (∃ es, v.scanCluster c entries = .ok (es, none)) ∨
      ∃ e, v.scanCluster c entries = .error (.err e) := by
  rw [scanCluster, dirSectors_ok hbps]
  rcases scanSectors_cases hbps (v.clusterToSector c) (v.scanLength c) 0 entries with
    ⟨blocks, es, hreads, hlen, hend, hscan⟩ | ⟨es, hscan⟩ | ⟨e, hscan⟩
  · simp only [bind, Except.bind, hscan]
    by_cases hroot : c = .ROOT_DIR
    · rw [if_pos (Or.inr hroot)]
      exact Or.inr (Or.inl ⟨_, rfl⟩)
    · rw [if_neg (not_or.mpr ⟨Bool.false_ne_true, hroot⟩)]
      rcases getNextCluster_cases hbps (c.val % 2 ^ 16) with ⟨e, hnext⟩ | hnext | ⟨next, hlt, hnext⟩
      · rw [hnext]
        exact Or.inr (Or.inl ⟨_, rfl⟩)
      · rw [hnext]
        exact Or.inr (Or.inl ⟨_, rfl⟩)
      · rw [hnext]
        exact Or.inl ⟨es, ⟨next⟩, hlt, ⟨hroot, ⟨blocks, ⟨hreads, hlen⟩, hend⟩, hnext⟩, rfl⟩
  · simp only [bind, Except.bind, hscan]
    exact Or.inr (Or.inl ⟨_, rfl⟩)
  · simp only [bind, Except.bind, hscan]
    exact Or.inr (Or.inr ⟨_, rfl⟩)

/-! ### The loop -/

/-- A round of the loop that goes on. -/
def Round (v : Fat16Impl) (s t : Cluster × List DirEntry) : Prop :=
  v.scanCluster s.1 s.2 = .ok (t.2, some t.1)

theorem Round.links {s t : Cluster × List DirEntry} (h : v.Round s t)
    (hbps : v.bpb.bytesPerSector = BLOCK_SIZE) : v.Links s.1 t.1 ∧ t.1.val < 2 ^ 16 := by
  rcases scanCluster_cases hbps s.1 s.2 with ⟨es, next, hlt, hlinks, hscan⟩ | ⟨es, hscan⟩ | ⟨e, hscan⟩
  · cases h.symm.trans hscan
    exact ⟨hlinks, hlt⟩
  · cases h.symm.trans hscan
  · cases h.symm.trans hscan

theorem scanClusters_fuelled (hbps : v.bpb.bytesPerSector = BLOCK_SIZE) :
    Fuelled v.Round (fun n s => v.scanClusters n s.1 s.2) (.error .outOfFuel) where
  zero _ := rfl
  goOn n s t h := by
    simp only [scanClusters]
    rw [h]
    rfl
  stop s hs := by
    rcases scanCluster_cases hbps s.1 s.2 with ⟨es, next, -, -, hscan⟩ | ⟨es, hscan⟩ | ⟨e, hscan⟩
    · exact absurd hscan (hs (next, es))
    · refine ⟨.ok es, by rintro ⟨⟩, fun n => ?_⟩
      simp only [scanClusters, hscan]
      rfl
    · refine ⟨.error (.err e), by rintro ⟨⟩, fun n => ?_⟩
      simp only [scanClusters, hscan]
      rfl

theorem round_ends_iff (hbps : v.bpb.bytesPerSector = BLOCK_SIZE) :
    Ends v.Round (c, entries) ↔ ∀ d, ReflTransGen v.Links c d → ¬ TransGen v.Links d d := by
  have hfin : {d | ∃ c, v.Links c d}.Finite := by
    refine ((Set.finite_lt_nat (2 ^ 16)).image Cluster.mk).subset ?_
    rintro d ⟨c, hlink⟩
    obtain ⟨es, hscan⟩ : ∃ es, v.scanCluster c [] = .ok (es, some d) := scanCluster_link hbps hlink
    have hround : v.Round (c, []) (d, es) := hscan
    exact ⟨d.val, (hround.links hbps).2, rfl⟩
  rw [← ends_iff_acyclic hfin]
  constructor
  · intro h
    refine h.of_map (f := Prod.fst) fun s d hlink => ?_
    obtain ⟨es, hscan⟩ := scanCluster_link hbps hlink
    exact ⟨(d, es), hscan, rfl⟩
  · intro h
    have hinv : Acc (InvImage (Function.swap v.Links) Prod.fst) (c, entries) :=
      InvImage.accessible Prod.fst h
    exact Subrelation.accessible (fun hround => (hround.links hbps).1) hinv

end Fat16Impl

/-! ### Calls that end -/

/-- With enough fuel, the call always comes to the same end. -/
def Halts {β : Type} (run : ℕ → Fs β) : Prop :=
  ∃ r, r ≠ .error .outOfFuel ∧ ∀ᶠ n in Filter.atTop, run n = r

namespace Halts

variable {β γ : Type} {run : ℕ → Fs β} {k : β → ℕ → Fs γ}

theorem const {r : Fs β} (h : r ≠ .error .outOfFuel) : Halts fun _ => r :=
  ⟨r, h, Filter.Eventually.of_forall fun _ => rfl⟩

theorem bind (h : Halts run) (hk : ∀ b, Halts (k b)) : Halts fun n => run n >>= fun b => k b n := by
  obtain ⟨r, hr, hrun⟩ := h
  cases r with
  | error stop =>
      refine ⟨.error stop, fun he => hr (congrArg Except.error (Except.error.inj he)), ?_⟩
      filter_upwards [hrun] with n hn
      rw [hn]
      rfl
  | ok b =>
      obtain ⟨r, hr, hrun'⟩ := hk b
      refine ⟨r, hr, ?_⟩
      filter_upwards [hrun, hrun'] with n hn hn'
      rw [hn]
      exact hn'

end Halts

theorem ShortFileName.parse_fuel {upper : Char → Str} {name : Str} :
    ShortFileName.parse upper name ≠ .error .outOfFuel := by
  unfold ShortFileName.parse
  simp only
  split_ifs <;> exact nofun

theorem ShortFileName.display_fuel (f : ShortFileName) : f.display ≠ .error .outOfFuel := by
  unfold display basename extension unwrap
  split_ifs
  · cases fromUtf8 f.name.toList <;> exact nofun
  · cases fromUtf8 f.name.toList <;> cases fromUtf8 f.ext.toList <;> exact nofun

theorem DirEntry.toMetadata_fuel (e : DirEntry) (t : FileType) :
    e.toMetadata t ≠ .error .outOfFuel := by
  have h := e.filename.display_fuel
  unfold toMetadata
  cases hname : e.filename.display with
  | ok name => exact nofun
  | error stop =>
      rw [hname] at h
      exact fun he => h (congrArg Except.error (Except.error.inj he))

theorem mapM_toMetadata_fuel (es : List DirEntry) :
    (es.mapM fun e => e.toMetadata e.entryType) ≠ .error .outOfFuel := by
  induction es with
  | nil => exact nofun
  | cons e es ih =>
      rw [List.mapM_cons]
      have h := e.toMetadata_fuel e.entryType
      cases hm : e.toMetadata e.entryType with
      | error stop =>
          rw [hm] at h
          exact fun he => h (congrArg Except.error (Except.error.inj he))
      | ok m =>
          cases hms : es.mapM fun e => e.toMetadata e.entryType with
          | error stop =>
              rw [hms] at ih
              exact fun he => ih (congrArg Except.error (Except.error.inj he))
          | ok ms => exact nofun

namespace Fat16Impl

variable {upper : Char → Str}

theorem scanClusters_cases (hbps : v.bpb.bytesPerSector = BLOCK_SIZE) :
    ∀ (n : ℕ) (c : Cluster) (entries : List DirEntry),
      v.scanClusters n c entries = .error .outOfFuel ∨
        ∃ r, v.scanClusters n c entries = FsResult.lift r
  | 0, _, _ => Or.inl rfl
  | n + 1, c, entries => by
      rw [scanClusters]
      rcases scanCluster_cases hbps c entries with ⟨es, next, -, -, hscan⟩ | ⟨es, hscan⟩ | ⟨e, hscan⟩
      · rw [hscan]
        exact scanClusters_cases hbps n next es
      · rw [hscan]
        exact Or.inr ⟨.ok es, rfl⟩
      · rw [hscan]
        exact Or.inr ⟨.error e, rfl⟩

theorem readDirEntries_halts_iff (hbps : v.bpb.bytesPerSector = BLOCK_SIZE) :
    (∃ n r, v.readDirEntries n c = FsResult.lift r) ↔
      ∀ d, ReflTransGen v.Links c d → ¬ TransGen v.Links d d := by
  have hends : Ends v.Round (c, []) ↔ _ := round_ends_iff hbps
  rw [← hends, ← (scanClusters_fuelled hbps).returns_iff]
  refine exists_congr fun n => ⟨?_, fun h => (scanClusters_cases hbps n c []).resolve_left h⟩
  rintro ⟨r, hr⟩ hout
  cases r with
  | ok => cases hr.symm.trans hout
  | error => cases hr.symm.trans hout

theorem readDirEntries_halts (hbps : v.bpb.bytesPerSector = BLOCK_SIZE)
    (h : ∃ n r, v.readDirEntries n c = FsResult.lift r) : Halts fun n => v.readDirEntries n c :=
  (scanClusters_fuelled hbps).eventually
    ((round_ends_iff hbps).mpr ((readDirEntries_halts_iff hbps).mp h))

section Paths

variable (h : ∀ c, Halts fun n => v.readDirEntries n c)
include h

theorem findEntry_halts (name : Str) : Halts fun n => v.findEntry upper n c name := by
  refine (h c).bind fun entries => (Halts.const ShortFileName.parse_fuel).bind fun target => ?_
  split_ifs
  · exact Halts.const nofun
  · exact Halts.const nofun

theorem findParts_halts (length : ℕ) : ∀ (i : ℕ) (parts : List Str) (c : Cluster),
    Halts fun n => v.findParts upper n length i parts c
  | _, [], _ => Halts.const nofun
  | i, part :: parts, c => by
      refine (findEntry_halts h part).bind fun found => ?_
      cases found with
      | none => exact Halts.const nofun
      | some entry =>
          by_cases hlast : i = length - 1
          · simp only [if_pos hlast]
            exact Halts.const nofun
          · by_cases hdir : entry.isDirectory
            · simp only [if_neg hlast, if_pos hdir]
              exact findParts_halts length (i + 1) parts entry.cluster
            · simp only [if_neg hlast, if_neg hdir]
              exact Halts.const nofun

theorem findPath_halts (path : Str) : Halts fun n => v.findPath upper n path := by
  unfold findPath
  by_cases hempty : path.dropWhile (· = '/') = []
  · simp only [if_pos hempty]
    exact Halts.const nofun
  · simp only [if_neg hempty]
    exact findParts_halts h _ _ _ _

theorem readDir_halts (path : Str) : Halts fun n => v.readDir upper n path := by
  have hcluster : Halts fun n => v.dirCluster upper n path := by
    unfold dirCluster
    split_ifs
    · exact Halts.const nofun
    · refine (findPath_halts h path).bind fun found => ?_
      cases found with
      | none => exact Halts.const nofun
      | some entry =>
          by_cases hdir : entry.isDirectory
          · simp only [if_pos hdir]
            exact Halts.const nofun
          · simp only [if_neg hdir]
            exact Halts.const nofun
  exact hcluster.bind fun cluster => (h cluster).bind fun entries =>
    Halts.const (mapM_toMetadata_fuel entries)

theorem openFile_halts (path : Str) : Halts fun n => v.openFile upper n path := by
  refine (findPath_halts h path).bind fun found => ?_
  cases found with
  | none => exact Halts.const nofun
  | some entry =>
      by_cases hfile : entry.isFile
      · simp only [if_pos hfile]
        exact (Halts.const (entry.toMetadata_fuel .file)).bind fun _ => Halts.const nofun
      · simp only [if_neg hfile]
        exact Halts.const nofun

theorem pathExists_halts (path : Str) : Halts fun n => v.pathExists upper n path := by
  unfold pathExists
  split_ifs
  · exact Halts.const nofun
  · exact (findPath_halts h path).bind fun _ => Halts.const nofun

end Paths

/-- **Scans end without cycles.**  The scan from a cluster returns exactly when no cluster that it
leads to lies on a cycle, and the calls on paths come to an end if all scans do. -/
theorem scans_return (hbps : v.bpb.bytesPerSector = BLOCK_SIZE) :
    (∀ c, (∃ n r, v.readDirEntries n c = FsResult.lift r) ↔
      ∀ d, ReflTransGen v.Links c d → ¬ TransGen v.Links d d) ∧
    ((∀ c, ∃ n r, v.readDirEntries n c = FsResult.lift r) → ∀ upper path,
      Halts (fun n => v.findPath upper n path) ∧ Halts (fun n => v.readDir upper n path) ∧
        Halts (fun n => v.openFile upper n path) ∧ Halts fun n => v.pathExists upper n path) := by
  refine ⟨fun c => readDirEntries_halts_iff hbps, fun h upper path => ?_⟩
  have hscans := fun c => readDirEntries_halts hbps (h c)
  exact ⟨findPath_halts hscans path, readDir_halts hscans path, openFile_halts hscans path,
    pathExists_halts hscans path⟩

end Fat16Impl

/-! ### A cluster that is linked to itself -/

/-- A directory `D` in cluster 2. -/
def loopRoot : Block512 :=
  blockOf (slotBytes [68, 32, 32, 32, 32, 32, 32, 32, 32, 32, 32] 0x10 2 0)

/-- The FAT links cluster 2 to itself, and all its entries are deleted. -/
def loopVolume : Fat16Impl where
  bpb := ⟨smallBoot⟩
  inner :=
    { readBlock := fun
        | 1 => .ok (blockOf [0, 0, 0, 0, 2, 0])
        | 2 => .ok loopRoot
        | 3 => .ok (blockOf (List.replicate 512 0xE5))
        | _ => .ok (blockOf []) }
  fatStart := 1
  firstDataSector := 3
  firstRootDirSector := 2

theorem loopVolume_sectors : loopVolume.bpb.bytesPerSector = BLOCK_SIZE := by decide +kernel

theorem loopVolume_scan : ∀ n, loopVolume.scanClusters n ⟨2⟩ [] = .error .outOfFuel
  | 0 => rfl
  | n + 1 => by
      have hround : loopVolume.scanCluster ⟨2⟩ [] = .ok ([], some ⟨2⟩) := by decide +kernel
      rw [Fat16Impl.scanClusters, hround]
      exact loopVolume_scan n

/-- The scan of the directory `D` and the look-up of `D/X` run on forever. -/
theorem scan_forever : loopVolume.bpb.bytesPerSector = BLOCK_SIZE ∧
    1 ≤ loopVolume.bpb.sectorsPerCluster ∧
    (¬ ∃ n r, loopVolume.readDirEntries n ⟨2⟩ = FsResult.lift r) ∧
    ∀ n, loopVolume.findPath (fun c => [c]) n ['D', '/', 'X'] = .error .outOfFuel := by
  refine ⟨loopVolume_sectors, by decide +kernel, ?_, fun n => ?_⟩
  · rintro ⟨n, r, hr⟩
    have hout := (loopVolume_scan n).symm.trans hr
    cases r with
    | ok => cases hout
    | error => cases hout
  · have hpath : loopVolume.findPath (fun c => [c]) n ['D', '/', 'X'] =
        loopVolume.findParts (fun c => [c]) n 2 0 [['D'], ['X']] .ROOT_DIR := by
      have hok : ∀ c ∈ ([['D'], ['X']] : List Str), c ≠ [] ∧ '/' ∉ c := by simp
      have hparts : loopVolume.findPath (fun c => [c]) n
          (List.replicate 0 '/' ++ ['/'].intercalate [['D'], ['X']]) = _ :=
        Fat16Impl.findPath_parts (List.cons_ne_nil _ _) hok
      exact hparts
    have hD : (lookup (listed (slots loopRoot)) ⟨padded 8 [68], padded 3 []⟩).map
        (fun e => (e.isDirectory, e.cluster)) = some (true, ⟨2⟩) := by decide +kernel
    obtain ⟨d, hd, hval⟩ := Option.map_eq_some_iff.mp hD
    obtain ⟨hdir, hcluster⟩ := Prod.mk.inj hval
    rw [hpath]
    cases n with
    | zero => rfl
    | succ n =>
        have hround : loopVolume.scanCluster .ROOT_DIR [] =
            .ok (listed (slots loopRoot), none) := by decide +kernel
        have hroot : loopVolume.readDirEntries (n + 1) .ROOT_DIR =
            .ok (listed (slots loopRoot)) := by
          rw [Fat16Impl.readDirEntries, Fat16Impl.scanClusters, hround]
          rfl
        have hparse : ShortFileName.parse (fun c => [c]) ['D'] =
            .ok ⟨padded 8 [68], padded 3 []⟩ := by decide +kernel
        have hfound : loopVolume.findEntry (fun c => [c]) (n + 1) .ROOT_DIR ['D'] = .ok (some d) := by
          rw [← hd]
          exact Fat16Impl.findEntry_listed hroot hparse
        have hloop : loopVolume.findEntry (fun c => [c]) (n + 1) ⟨2⟩ ['X'] = .error .outOfFuel := by
          rw [Fat16Impl.findEntry, Fat16Impl.readDirEntries, loopVolume_scan]
          rfl
        rw [Fat16Impl.findParts, hfound]
        simp only [bind, Except.bind, hdir, if_true, hcluster]
        rw [if_neg (by decide), Fat16Impl.findParts, hloop]
        rfl

/-- The scan from cluster 2 meets cluster 2 again. -/
theorem scans_return_example : ¬ ∃ n r, loopVolume.readDirEntries n ⟨2⟩ = FsResult.lift r := by
  have hlinks : loopVolume.Links ⟨2⟩ ⟨2⟩ := by
    refine ⟨by decide, ⟨[blockOf (List.replicate 512 0xE5)], ⟨fun i hi => ?_, ?_⟩, ?_⟩, ?_⟩
    · obtain rfl : i = 0 := Nat.lt_one_iff.mp hi
      rfl
    · decide +kernel
    · decide +kernel
    · decide +kernel
  intro h
  exact ((Fat16Impl.scans_return loopVolume_sectors).1 ⟨2⟩).mp h ⟨2⟩ .refl (.single hlinks)

end Ysos.Fat16
