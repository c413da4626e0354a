import Ysos.Acyclic

/-! # What a path is

`metadata`, `openFile`, `readDir` and `pathExists` look a path up, and each decides by itself
whether it is a file or a directory.

* `Fat16Impl.Lists`: the entries that are stored in a directory.
* `readDirEntries_lists`: a scan that ends yields them.
* `classify_iff`: the calls agree on a path exactly when no volume label is found there and the
  names that would be listed are UTF-8. -/

namespace Ysos.Fat16

open Runs Walks Relation

variable {v : Fat16Impl} {c d : Cluster} {entries : List DirEntry} {e : DirEntry}
  {upper : Char → Str}

/-! ### Stored entries -/

namespace Fat16Impl

/-- An entry in a live slot of the directory from a cluster on. -/
inductive Lists (v : Fat16Impl) : Cluster → DirEntry → Prop
  | here {c : Cluster} {blocks : List Block512} {e : DirEntry} (hholds : v.Holds c blocks)
      (he : e ∈ listed (blocks.flatMap slots)) : Lists v c e
  | there {c next : Cluster} {e : DirEntry} (hlink : v.Links c next) (hrest : Lists v next e) :
      Lists v c e

theorem Holds.unique {blocks blocks' : List Block512} (h : v.Holds c blocks)
    (h' : v.Holds c blocks') : blocks = blocks' := by
  refine List.ext_getElem (h.length.trans h'.length.symm) fun i hi hi' => ?_
  exact Except.ok.inj ((h.reads i hi).symm.trans (h'.reads i hi'))

theorem exists_holds (hread : ∀ s, v.Readable s) (c : Cluster) : ∃ blocks, v.Holds c blocks := by
  choose block hblock using hread
  refine ⟨(List.range (v.scanLength c)).map fun i => block (v.clusterToSector c + i),
    fun i hi => ?_, by rw [List.length_map, List.length_range]⟩
  rw [hblock, List.getElem_map, List.getElem_range]

/-- What one more cluster adds to the stored entries. -/
theorem lists_iff {blocks : List Block512} (hholds : v.Holds c blocks) :
    v.Lists c e ↔ e ∈ listed (blocks.flatMap slots) ∨ ∃ d, v.Links c d ∧ v.Lists d e := by
  constructor
  · intro h
    cases h with
    | here hholds' he =>
        rw [hholds.unique hholds']
        exact Or.inl he
    | there hlink hrest => exact Or.inr ⟨_, hlink, hrest⟩
  · rintro (he | ⟨d, hlink, hrest⟩)
    · exact .here hholds he
    · exact .there hlink hrest

theorem scanCluster_readable (hbps : v.bpb.bytesPerSector = BLOCK_SIZE)
    (hread : ∀ s, v.Readable s) (c : Cluster) (entries : List DirEntry) :
    ∃ blocks next, v.Holds c blocks ∧ (∀ d, v.Links c d ↔ next = some d) ∧
      v.scanCluster c entries = .ok (entries ++ listed (blocks.flatMap slots), next) := by
  obtain ⟨blocks, hholds⟩ := exists_holds hread c
  have hscan : v.scanSectors (v.clusterToSector c) (v.scanLength c) 0 entries =
      .ok (entries ++ listed (blocks.flatMap slots), (blocks.flatMap slots).any isEnd) :=
    scanSectors_eq hbps blocks _ 0 entries hholds.reads hholds.length.le (Or.inl hholds.length)
  have hlink : ∀ {d}, v.Links c d → (blocks.flatMap slots).any isEnd = false := fun h => by
    obtain ⟨blocks', hholds', hend⟩ := h.unended
    rwa [hholds.unique hholds']
  rw [scanCluster, dirSectors_ok hbps]
  simp only [bind, Except.bind, hscan]
  by_cases hstop : (blocks.flatMap slots).any isEnd = true ∨ c = .ROOT_DIR
  · refine ⟨blocks, none, hholds, fun d => ⟨fun h => ?_, by rintro ⟨⟩⟩, if_pos hstop⟩
    rcases hstop with hend | hroot
    · cases hend.symm.trans (hlink h)
    · exact absurd hroot h.ne_root
  · rw [if_neg hstop]
    obtain ⟨hend, hroot⟩ := not_or.mp hstop
    rcases getNextCluster_cases hbps (c.val % 2 ^ 16) with ⟨err, hnext⟩ | hnext | ⟨next, -, hnext⟩
    · refine ⟨blocks, none, hholds, fun d => ⟨fun h => ?_, by rintro ⟨⟩⟩, by rw [hnext]; rfl⟩
      cases hnext.symm.trans h.link
    · refine ⟨blocks, none, hholds, fun d => ⟨fun h => ?_, by rintro ⟨⟩⟩, by rw [hnext]; rfl⟩
      cases hnext.symm.trans h.link
    · refine ⟨blocks, some ⟨next⟩, hholds, fun d => ⟨fun h => ?_, fun h => ?_⟩, by rw [hnext]; rfl⟩
      · cases hnext.symm.trans h.link
        rfl
      · cases h
        exact ⟨hroot, ⟨blocks, hholds, Bool.eq_false_iff.mpr hend⟩, hnext⟩

theorem scanClusters_lists (hbps : v.bpb.bytesPerSector = BLOCK_SIZE)
    (hread : ∀ s, v.Readable s) : ∀ (n : ℕ) (c : Cluster) (entries : List DirEntry),
    v.scanClusters n c entries = .error .outOfFuel ∨
      ∃ es, v.scanClusters n c entries = .ok (entries ++ es) ∧ ∀ e, e ∈ es ↔ v.Lists c e
  | 0, _, _ => Or.inl rfl
  | n + 1, c, entries => by
      obtain ⟨blocks, next, hholds, hlinks, hscan⟩ := scanCluster_readable hbps hread c entries
      rw [scanClusters, hscan]
      cases next with
      | none =>
          refine Or.inr ⟨_, rfl, fun e => ?_⟩
          rw [lists_iff hholds]
          refine ⟨Or.inl, fun h => h.resolve_right ?_⟩
          rintro ⟨d, hlink, -⟩
          cases (hlinks d).mp hlink
      | some d =>
          refine (scanClusters_lists hbps hread n d _).imp_right ?_
          rintro ⟨es, hes, hlists⟩
          refine ⟨listed (blocks.flatMap slots) ++ es, ?_, fun e => ?_⟩
          · rw [← List.append_assoc]
            exact hes
          · rw [lists_iff hholds, List.mem_append, hlists]
            refine or_congr_right ⟨fun h => ⟨d, (hlinks d).mpr rfl, h⟩, ?_⟩
            rintro ⟨d', hlink, h⟩
            cases (hlinks d').mp hlink
            exact h

theorem readDirEntries_lists (hbps : v.bpb.bytesPerSector = BLOCK_SIZE)
    (hread : ∀ s, v.Readable s) (hacyclic : ∀ d, ReflTransGen v.Links c d → ¬ TransGen v.Links d d) :
    ∃ es, (∀ᶠ n in Filter.atTop, v.readDirEntries n c = .ok es) ∧ ∀ e, e ∈ es ↔ v.Lists c e := by
  obtain ⟨r, hr, hrun⟩ := readDirEntries_halts hbps ((readDirEntries_halts_iff hbps).mpr hacyclic)
  obtain ⟨n, hn⟩ := hrun.exists
  rcases scanClusters_lists hbps hread n c [] with hout | ⟨es, hes, hlists⟩
  · exact absurd (hn.symm.trans hout) hr
  · refine ⟨es, ?_, hlists⟩
    filter_upwards [hrun] with m hm
    rw [hm, ← hn]
    exact hes

end Fat16Impl

/-! ### Names that decode -/

namespace ShortFileName

variable {f : ShortFileName}

/-- The parts of the name that are shown are UTF-8. -/
def Decodes (f : ShortFileName) : Prop :=
  (fromUtf8 f.name.toList).isSome ∧ (¬ f.Extensionless → (fromUtf8 f.ext.toList).isSome)

theorem display_ok_iff : (∃ name, f.display = .ok name) ↔ f.Decodes := by
  unfold display Decodes basename extension unwrap
  by_cases hspace : f.Extensionless
  · rw [if_pos hspace]
    cases fromUtf8 f.name.toList with
    | none => exact ⟨nofun, fun h => absurd h.1 nofun⟩
    | some name => exact ⟨fun _ => ⟨rfl, fun h => absurd hspace h⟩, fun _ => ⟨_, rfl⟩⟩
  · rw [if_neg hspace]
    cases fromUtf8 f.name.toList with
    | none => exact ⟨nofun, fun h => absurd h.1 nofun⟩
    | some name =>
        cases fromUtf8 f.ext.toList with
        | none => exact ⟨nofun, fun h => absurd (h.2 hspace) nofun⟩
        | some ext => exact ⟨fun _ => ⟨rfl, fun _ => rfl⟩, fun _ => ⟨_, rfl⟩⟩

/-- A name that was parsed is made of texts. -/
theorem parse_decodes {name : Str} (h : parse upper name = .ok f) : f.Decodes := by
  have hpadded : ∀ {n : ℕ} {s : Str}, s.bytes.length ≤ n →
      (fromUtf8 (padded n s.bytes).toList).isSome := fun hlen => by
    rw [fromUtf8_padded hlen]
    rfl
  unfold parse at h
  simp only at h
  split_ifs at h with _ _ _ hbase hext hname
  · cases h
    exact ⟨hpadded (Nat.not_lt.mp hbase), fun _ => hpadded (Nat.not_lt.mp hext)⟩
  · cases h
    have hempty : (fromUtf8 (padded 3 (Str.bytes [])).toList).isSome := hpadded (Nat.zero_le 3)
    exact ⟨hpadded (Nat.not_lt.mp hname), fun _ => hempty⟩

end ShortFileName

theorem DirEntry.toMetadata_ok_iff {t : FileType} :
    (∃ m, e.toMetadata t = .ok m) ↔ e.filename.Decodes := by
  rw [← ShortFileName.display_ok_iff, DirEntry.toMetadata]
  constructor
  · rintro ⟨m, h⟩
    obtain ⟨name, hname, -⟩ := bind_eq_ok.mp h
    exact ⟨name, hname⟩
  · rintro ⟨name, hname⟩
    rw [hname]
    exact ⟨_, rfl⟩

theorem DirEntry.toMetadata_type {t : FileType} {m : Metadata} (h : e.toMetadata t = .ok m) :
    m.entryType = t := by
  obtain ⟨name, -, hm⟩ := bind_eq_ok.mp h
  cases hm
  rfl

theorem mapM_toMetadata_ok_iff {es : List DirEntry} :
    (∃ ms, (es.mapM fun e => e.toMetadata e.entryType) = .ok ms) ↔
      ∀ e ∈ es, e.filename.Decodes := by
  induction es with
  | nil => exact ⟨fun _ => nofun, fun _ => ⟨[], rfl⟩⟩
  | cons e es ih =>
      rw [List.mapM_cons, List.forall_mem_cons, ← ih,
        ← DirEntry.toMetadata_ok_iff (t := e.entryType)]
      constructor
      · rintro ⟨ms, h⟩
        obtain ⟨m, hm, h⟩ := bind_eq_ok.mp h
        obtain ⟨ms, hms, -⟩ := bind_eq_ok.mp h
        exact ⟨⟨m, hm⟩, ⟨ms, hms⟩⟩
      · rintro ⟨⟨m, hm⟩, ⟨ms, hms⟩⟩
        rw [hm]
        simp only [bind, Except.bind, hms]
        exact ⟨_, rfl⟩

namespace Fat16Impl

variable {n : ℕ} {path : Str} {found : Option DirEntry}

theorem findEntry_decodes {name : Str} (h : v.findEntry upper n c name = .ok (some e)) :
    e.filename.Decodes := by
  obtain ⟨entries, -, h⟩ := bind_eq_ok.mp h
  obtain ⟨target, hparse, h⟩ := bind_eq_ok.mp h
  split_ifs at h
  · cases h
  · have hfind := Except.ok.inj h
    have hfilename := List.find?_some hfind
    rw [of_decide_eq_true hfilename]
    exact ShortFileName.parse_decodes hparse

theorem findParts_decodes {length : ℕ} : ∀ {parts : List Str} {i : ℕ} {c : Cluster},
    v.findParts upper n length i parts c = .ok (some e) → e.filename.Decodes
  | [], _, _, h => by cases h
  | part :: parts, i, c, h => by
      obtain ⟨found, hfound, h⟩ := bind_eq_ok.mp h
      cases found with
      | none => cases h
      | some entry =>
          simp only at h
          split_ifs at h with hlast hdir
          · cases h
            exact findEntry_decodes hfound
          · exact findParts_decodes h

/-- The name of an entry that is found can be shown. -/
theorem findPath_decodes (h : v.findPath upper n path = .ok (some e)) : e.filename.Decodes := by
  unfold findPath at h
  simp only at h
  split_ifs at h with hempty
  · cases h
  · exact findParts_decodes h

theorem findPath_root (hroot : path = ['/'] ∨ path = []) : v.findPath upper n path = .ok none := by
  rcases hroot with rfl | rfl <;> rfl

end Fat16Impl

/-! ### Calls that succeed -/

/-- With enough fuel, the call returns a value. -/
def Succeeds {β : Type} (run : ℕ → Fs β) : Prop := ∃ b, ∀ᶠ n in Filter.atTop, run n = .ok b

section

variable {β : Type} {run : ℕ → Fs β} {r : Fs β}

theorem eventually_ok_iff (h : ∀ᶠ n in Filter.atTop, run n = r) {b : β} :
    (∀ᶠ n in Filter.atTop, run n = .ok b) ↔ r = .ok b := by
  constructor
  · intro hok
    obtain ⟨n, hn, hn'⟩ := (h.and hok).exists
    exact hn.symm.trans hn'
  · rintro rfl
    exact h

theorem eventually_ok_and (h : ∀ᶠ n in Filter.atTop, run n = r) {p : β → Prop} :
    (∃ b, (∀ᶠ n in Filter.atTop, run n = .ok b) ∧ p b) ↔ ∃ b, r = .ok b ∧ p b :=
  exists_congr fun _ => and_congr_left' (eventually_ok_iff h)

theorem succeeds_iff (h : ∀ᶠ n in Filter.atTop, run n = r) : Succeeds run ↔ ∃ b, r = .ok b :=
  exists_congr fun _ => eventually_ok_iff h

end

namespace Fat16Impl

variable {path : Str} {found : Option DirEntry}

/-- The directory at a path where `found` was found. -/
def dirAt (path : Str) (found : Option DirEntry) : Option Cluster :=
  if path = ['/'] ∨ path = [] then some .ROOT_DIR
  else (found.filter DirEntry.isDirectory).map DirEntry.cluster

/-- The calls agree on what the path is. -/
@[mk_iff]
structure Classified (v : Fat16Impl) (upper : Char → Str) (path : Str) : Prop where
  file : Succeeds (fun n => v.openFile upper n path) ↔
    ∃ m, (∀ᶠ n in Filter.atTop, v.metadata upper n path = .ok m) ∧ m.entryType = .file
  directory : Succeeds (fun n => v.readDir upper n path) ↔
    ∃ m, (∀ᶠ n in Filter.atTop, v.metadata upper n path = .ok m) ∧ m.entryType = .directory
  presence : (∀ᶠ n in Filter.atTop, v.pathExists upper n path = .ok true) ↔
    Succeeds fun n => v.metadata upper n path

theorem readDir_succeeds_iff (hbps : v.bpb.bytesPerSector = BLOCK_SIZE)
    (hread : ∀ s, v.Readable s) (hacyclic : ∀ d, ReflTransGen v.Links c d → ¬ TransGen v.Links d d)
    (hcluster : ∀ᶠ n in Filter.atTop, v.dirCluster upper n path = .ok c) :
    Succeeds (fun n => v.readDir upper n path) ↔ ∀ e, v.Lists c e → e.filename.Decodes := by
  obtain ⟨es, hes, hlists⟩ := readDirEntries_lists hbps hread hacyclic
  have hrun : ∀ᶠ n in Filter.atTop, v.readDir upper n path =
      es.mapM fun e => e.toMetadata e.entryType := by
    filter_upwards [hcluster, hes] with n hn hn'
    rw [readDir, hn]
    simp only [bind, Except.bind, hn']
  rw [succeeds_iff hrun, mapM_toMetadata_ok_iff]
  exact forall_congr' fun e => imp_congr_left (hlists e)

theorem not_readDir_succeeds {stop : Stop}
    (hcluster : ∀ᶠ n in Filter.atTop, v.dirCluster upper n path = .error stop) :
    ¬ Succeeds fun n => v.readDir upper n path := by
  have hrun : ∀ᶠ n in Filter.atTop, v.readDir upper n path = .error stop := by
    filter_upwards [hcluster] with n hn
    rw [readDir, hn]
    rfl
  rw [succeeds_iff hrun]
  rintro ⟨r, ⟨⟩⟩

theorem classified_root (hbps : v.bpb.bytesPerSector = BLOCK_SIZE) (hread : ∀ s, v.Readable s)
    (hroot : path = ['/'] ∨ path = [])
    (hacyclic : ∀ d, ReflTransGen v.Links .ROOT_DIR d → ¬ TransGen v.Links d d) :
    v.Classified upper path ↔ ∀ e, v.Lists .ROOT_DIR e → e.filename.Decodes := by
  have hmeta : ∀ᶠ n in Filter.atTop, v.metadata upper n path =
      .ok ⟨['/'], .directory, 0, none, none, none⟩ :=
    Filter.Eventually.of_forall fun n => if_pos hroot
  have hopen : ∀ᶠ n in Filter.atTop, v.openFile upper n path = .error (.err .fileNotFound) := by
    refine Filter.Eventually.of_forall fun n => ?_
    rw [openFile, findPath_root hroot]
    rfl
  have hexists : ∀ᶠ n in Filter.atTop, v.pathExists upper n path = .ok true :=
    Filter.Eventually.of_forall fun n => if_pos hroot
  have hcluster : ∀ᶠ n in Filter.atTop, v.dirCluster upper n path = .ok .ROOT_DIR :=
    Filter.Eventually.of_forall fun n => if_pos hroot
  rw [classified_iff, succeeds_iff hopen, eventually_ok_and hmeta, eventually_ok_and hmeta,
    eventually_ok_iff hexists, succeeds_iff hmeta,
    readDir_succeeds_iff hbps hread hacyclic hcluster]
  simp

theorem classified_none (hroot : ¬ (path = ['/'] ∨ path = []))
    (hfind : ∀ᶠ n in Filter.atTop, v.findPath upper n path = .ok none) :
    v.Classified upper path := by
  have hmeta : ∀ᶠ n in Filter.atTop, v.metadata upper n path = .error (.err .fileNotFound) := by
    filter_upwards [hfind] with n hn
    rw [metadata, if_neg hroot, hn]
    rfl
  have hopen : ∀ᶠ n in Filter.atTop, v.openFile upper n path = .error (.err .fileNotFound) := by
    filter_upwards [hfind] with n hn
    rw [openFile, hn]
    rfl
  have hexists : ∀ᶠ n in Filter.atTop, v.pathExists upper n path = .ok false := by
    filter_upwards [hfind] with n hn
    rw [pathExists, if_neg hroot, hn]
    rfl
  have hcluster : ∀ᶠ n in Filter.atTop,
      v.dirCluster upper n path = .error (.err .notADirectory) := by
    filter_upwards [hfind] with n hn
    rw [dirCluster, if_neg hroot, hn]
    rfl
  rw [classified_iff, succeeds_iff hopen, eventually_ok_and hmeta, eventually_ok_and hmeta,
    eventually_ok_iff hexists, succeeds_iff hmeta]
  simp [not_readDir_succeeds hcluster]

theorem classified_some (hbps : v.bpb.bytesPerSector = BLOCK_SIZE) (hread : ∀ s, v.Readable s)
    (hroot : ¬ (path = ['/'] ∨ path = []))
    (hfind : ∀ᶠ n in Filter.atTop, v.findPath upper n path = .ok (some e))
    (hacyclic : e.isDirectory → ∀ d, ReflTransGen v.Links e.cluster d → ¬ TransGen v.Links d d) :
    v.Classified upper path ↔ (e.isDirectory ∨ ¬ e.attributes.contains .VOLUME_ID) ∧
      (e.isDirectory → ∀ e', v.Lists e.cluster e' → e'.filename.Decodes) := by
  obtain ⟨n, hn⟩ := hfind.exists
  have hdecodes := findPath_decodes hn
  obtain ⟨m, hm⟩ : ∃ m, e.toMetadata e.entryType = .ok m :=
    DirEntry.toMetadata_ok_iff.mpr hdecodes
  obtain ⟨m', hm'⟩ : ∃ m, e.toMetadata .file = .ok m := DirEntry.toMetadata_ok_iff.mpr hdecodes
  have hmeta : ∀ᶠ n in Filter.atTop, v.metadata upper n path = .ok m := by
    filter_upwards [hfind] with n hn
    rw [metadata, if_neg hroot, hn]
    exact hm
  have hexists : ∀ᶠ n in Filter.atTop, v.pathExists upper n path = .ok true := by
    filter_upwards [hfind] with n hn
    rw [pathExists, if_neg hroot, hn]
    rfl
  have hopen : ∀ᶠ n in Filter.atTop, v.openFile upper n path =
      if e.isFile then .ok (m', File.new v e) else .error (.err .notAFile) := by
    filter_upwards [hfind] with n hn
    rw [openFile, hn]
    simp only [bind, Except.bind, hm']
    rfl
  have hcluster : ∀ᶠ n in Filter.atTop, v.dirCluster upper n path =
      if e.isDirectory then .ok e.cluster else .error (.err .notADirectory) := by
    filter_upwards [hfind] with n hn
    rw [dirCluster, if_neg hroot, hn]
    rfl
  have htype : m.entryType = e.entryType := DirEntry.toMetadata_type hm
  rw [classified_iff, succeeds_iff hopen, eventually_ok_and hmeta, eventually_ok_and hmeta,
    eventually_ok_iff hexists, succeeds_iff hmeta]
  cases hdir : e.isDirectory with
  | true =>
      simp only [hdir, if_true] at hcluster
      rw [readDir_succeeds_iff hbps hread (hacyclic hdir) hcluster]
      simp [DirEntry.isFile, DirEntry.entryType, hdir, htype]
  | false =>
      simp only [hdir] at hcluster
      have hnot := not_readDir_succeeds hcluster
      cases hlabel : e.attributes.contains .VOLUME_ID <;>
        simp [DirEntry.isFile, DirEntry.entryType, hdir, htype, hnot, hlabel]

/-- **Classification.**  Where the look-up of a path succeeds, the calls agree exactly when it does
not find a volume label and, for a directory, the names in it decode. -/
theorem classify_iff (hbps : v.bpb.bytesPerSector = BLOCK_SIZE) (hread : ∀ s, v.Readable s)
    (hfind : ∀ᶠ n in Filter.atTop, v.findPath upper n path = .ok found)
    (hacyclic : ∀ c ∈ dirAt path found, ∀ d, ReflTransGen v.Links c d → ¬ TransGen v.Links d d) :
    v.Classified upper path ↔
      (∀ e ∈ found, e.isDirectory ∨ ¬ e.attributes.contains .VOLUME_ID) ∧
        ∀ c ∈ dirAt path found, ∀ e, v.Lists c e → e.filename.Decodes := by
  by_cases hroot : path = ['/'] ∨ path = []
  · obtain rfl : found = none := by
      obtain ⟨n, hn⟩ := hfind.exists
      exact Except.ok.inj (hn.symm.trans (findPath_root hroot))
    have hdir : dirAt path none = some .ROOT_DIR := if_pos hroot
    rw [classified_root hbps hread hroot (hacyclic .ROOT_DIR hdir), hdir]
    simp
  · cases found with
    | none =>
        have hdir : dirAt path none = none := if_neg hroot
        rw [hdir]
        exact iff_of_true (classified_none hroot hfind) ⟨nofun, nofun⟩
    | some e =>
        have hdir : ∀ c, c ∈ dirAt path (some e) ↔ e.isDirectory ∧ c = e.cluster := fun c => by
          rw [dirAt, if_neg hroot]
          cases hdir : e.isDirectory <;> simp [Option.filter, hdir, eq_comm]
        have hacyclic' : e.isDirectory →
            ∀ d, ReflTransGen v.Links e.cluster d → ¬ TransGen v.Links d d :=
          fun h => hacyclic _ ((hdir _).mpr ⟨h, rfl⟩)
        rw [classified_some hbps hread hroot hfind hacyclic']
        refine and_congr (by simp) ⟨fun h c hc => ?_, fun h hd => h _ ((hdir _).mpr ⟨hd, rfl⟩)⟩
        obtain ⟨hd, rfl⟩ := (hdir c).mp hc
        exact h hd

end Fat16Impl

/-! ### Examples -/

theorem smallVolume_readable (s : ℕ) : smallVolume.Readable s := by
  change ∃ block, smallDisk.readBlock s = .ok block
  unfold smallDisk
  simp only
  split <;> exact ⟨_, rfl⟩

theorem Fat16Impl.findPath_single {n : ℕ} {name : Str} (hname : name ≠ [] ∧ '/' ∉ name) :
    v.findPath upper n name = v.findEntry upper n .ROOT_DIR name := by
  have hok : ∀ c ∈ [name], c ≠ [] ∧ '/' ∉ c := fun c hc => List.mem_singleton.mp hc ▸ hname
  have hparts : v.findPath upper n (List.replicate 0 '/' ++ ['/'].intercalate [name]) =
      v.findParts upper n 1 0 [name] .ROOT_DIR := findPath_parts (List.cons_ne_nil _ _) hok
  rw [List.intercalate_singleton, List.replicate_zero, List.nil_append] at hparts
  rw [hparts]
  exact findParts_last

/-- The file `A.TXT`. -/
theorem classify_iff_example : smallVolume.Classified (fun c => [c]) ['A', '.', 'T', 'X', 'T'] := by
  have hparse : ShortFileName.parse (fun c => [c]) ['A', '.', 'T', 'X', 'T'] =
      .ok ⟨padded 8 [65], padded 3 [84, 88, 84]⟩ := by decide +kernel
  have hA : (lookup (smallList .ROOT_DIR) ⟨padded 8 [65], padded 3 [84, 88, 84]⟩).map
      (fun e => (e.isDirectory, e.attributes.contains .VOLUME_ID)) = some (false, false) := by
    decide +kernel
  obtain ⟨e, he, hval⟩ := Option.map_eq_some_iff.mp hA
  obtain ⟨hdir, hlabel⟩ := Prod.mk.inj hval
  have hfind : ∀ᶠ n in Filter.atTop,
      smallVolume.findPath (fun c => [c]) n ['A', '.', 'T', 'X', 'T'] = .ok (some e) := by
    filter_upwards [smallList_root] with n hn
    rw [Fat16Impl.findPath_single (by decide), Fat16Impl.findEntry_listed hn hparse, he]
  have hnone : Fat16Impl.dirAt ['A', '.', 'T', 'X', 'T'] (some e) = none := by
    rw [Fat16Impl.dirAt, if_neg (by decide)]
    simp [Option.filter, hdir]
  refine (Fat16Impl.classify_iff smallVolume_sectors smallVolume_readable hfind ?_).mpr ⟨?_, ?_⟩
  · rw [hnone]
    exact nofun
  · intro e' he'
    cases he'
    exact Or.inr (by rw [hlabel]; exact Bool.false_ne_true)
  · rw [hnone]
    exact nofun

/-- A volume label `V` and a file whose name is not UTF-8. -/
def labelRoot : Block512 :=
  blockOf (slotBytes [86, 32, 32, 32, 32, 32, 32, 32, 32, 32, 32] 0x08 0 0 ++
    slotBytes [0xFF, 32, 32, 32, 32, 32, 32, 32, 32, 32, 32] 0x20 0 0)

def labelVolume : Fat16Impl where
  bpb := ⟨smallBoot⟩
  inner := { readBlock := fun s => .ok (if s = 2 then labelRoot else blockOf []) }
  fatStart := 1
  firstDataSector := 3
  firstRootDirSector := 2

theorem labelVolume_sectors : labelVolume.bpb.bytesPerSector = BLOCK_SIZE := by decide +kernel

theorem labelVolume_readable (s : ℕ) : labelVolume.Readable s := ⟨_, rfl⟩

theorem labelVolume_links (c d : Cluster) : ¬ labelVolume.Links c d := by
  rintro ⟨hne, ⟨blocks, hholds, hend⟩, -⟩
  have hlength : blocks.length = 1 := by
    rw [hholds.length, Fat16Impl.scanLength, if_neg hne]
    decide +kernel
  obtain ⟨block, rfl⟩ := List.length_eq_one_iff.mp hlength
  have hsector : labelVolume.clusterToSector c ≠ 2 := by
    have hfirst : labelVolume.firstDataSector = 3 := rfl
    rw [Fat16Impl.clusterToSector, if_neg hne, hfirst]
    split_ifs <;> omega
  have hblock : block = blockOf [] := by
    have h := hholds.reads 0 (Nat.lt_succ_self 0)
    change Except.ok (if labelVolume.clusterToSector c = 2 then labelRoot else blockOf []) = _ at h
    rw [if_neg hsector] at h
    exact (Except.ok.inj h).symm
  rw [hblock] at hend
  exact absurd hend (by decide +kernel)

theorem labelVolume_acyclic (c d : Cluster) (_ : ReflTransGen labelVolume.Links c d) :
    ¬ TransGen labelVolume.Links d d := fun h => by
  obtain ⟨c', -, hlink⟩ := TransGen.tail'_iff.mp h
  exact labelVolume_links _ _ hlink

/-- The label is a file to `metadata` only, and the root directory cannot be listed. -/
theorem label_misread : (∀ s, labelVolume.Readable s) ∧
    (∀ c, ¬ TransGen labelVolume.Links c c) ∧
    (∃ e, ∀ᶠ n in Filter.atTop, labelVolume.findPath (fun c => [c]) n ['V'] = .ok (some e)) ∧
    ¬ labelVolume.Classified (fun c => [c]) ['V'] ∧
    ¬ labelVolume.Classified (fun c => [c]) ['/'] := by
  have hround : labelVolume.scanCluster .ROOT_DIR [] = .ok (listed (slots labelRoot), none) := by
    decide +kernel
  have hroot : ∀ᶠ n in Filter.atTop,
      labelVolume.readDirEntries n .ROOT_DIR = .ok (listed (slots labelRoot)) :=
    Fat16Impl.scanClusters_return hround
  have hparse : ShortFileName.parse (fun c => [c]) ['V'] =
      .ok ⟨padded 8 [86], padded 3 []⟩ := by decide +kernel
  have hV : (lookup (listed (slots labelRoot)) ⟨padded 8 [86], padded 3 []⟩).map
      (fun e => (e.isDirectory, e.attributes.contains .VOLUME_ID)) = some (false, true) := by
    decide +kernel
  obtain ⟨e, he, hval⟩ := Option.map_eq_some_iff.mp hV
  obtain ⟨hdir, hlabel⟩ := Prod.mk.inj hval
  have hfind : ∀ᶠ n in Filter.atTop,
      labelVolume.findPath (fun c => [c]) n ['V'] = .ok (some e) := by
    filter_upwards [hroot] with n hn
    rw [Fat16Impl.findPath_single (by decide), Fat16Impl.findEntry_listed hn hparse, he]
  refine ⟨labelVolume_readable, fun c => labelVolume_acyclic c c .refl, ⟨e, hfind⟩, ?_, ?_⟩
  · rw [Fat16Impl.classified_some labelVolume_sectors labelVolume_readable (by decide) hfind
      fun _ => labelVolume_acyclic _, hdir, hlabel]
    simp
  · have hholds : labelVolume.Holds .ROOT_DIR [labelRoot] := by
      refine ⟨fun i hi => ?_, by decide +kernel⟩
      obtain rfl : i = 0 := Nat.lt_one_iff.mp hi
      rfl
    have hsecond : ((listed (slots labelRoot)).map DirEntry.filename)[1]? =
        some ⟨padded 8 [0xFF], padded 3 []⟩ := by decide +kernel
    obtain ⟨e', he', hname⟩ : ∃ e' ∈ listed (slots labelRoot),
        e'.filename = ⟨padded 8 [0xFF], padded 3 []⟩ :=
      List.mem_map.mp (List.mem_of_getElem? hsecond)
    have hdecode : (fromUtf8 (padded 8 [0xFF]).toList).isSome = false := by decide +kernel
    rw [Fat16Impl.classified_root labelVolume_sectors labelVolume_readable (Or.inl rfl)
      (labelVolume_acyclic _)]
    intro h
    have hdecodes := (h e' (.here hholds (by rwa [List.flatMap_singleton]))).1
    rw [hname, hdecode] at hdecodes
    exact Bool.false_ne_true hdecodes

end Ysos.Fat16
