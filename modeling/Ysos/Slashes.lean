import Ysos.FileSystem

/-! # Slashes in a path

`find_path` drops the slashes at the start of a path, and counts the parts that are not empty; but
its loop visits all parts, and an empty one is no short name.  The other calls compare the path with
`/` before.

* `Str.normalize`: the path with single slashes, and none at the end.
* `Fat16Impl.Gap`: the look-up comes to an empty part.
* `slashes_iff`: the calls on a path and on the normalized path give the same results exactly when it
  does not, and the path is not two or more slashes only. -/

namespace Ysos.Fat16

open Runs

/-! ### Normalized paths -/

namespace Str

/-- A single slash in place of every run of slashes. -/
def squeeze : Str → Str
  | [] => []
  | c :: s => if c = '/' ∧ s.head? = some '/' then squeeze s else c :: squeeze s

def normalize (s : Str) : Str := s.squeeze.rdropWhile (· = '/')

/-- The parts behind the slashes at the start. -/
def parts (s : Str) : List Str := (s.dropWhile (· = '/')).splitOn '/'

/-- The parts that are not empty. -/
def components (s : Str) : List Str := (s.splitOn '/').filter (· ≠ [])

variable {p q s t : Str}

theorem components_nil : components [] = [] := rfl

theorem components_slash : components ('/' :: s) = s.components := by
  have h : ('/' :: s).splitOn '/' = [[]] ++ s.splitOn '/' := List.splitOn_append_cons_self [] s
  rw [components, h, List.filter_append]
  rfl

theorem components_part (hp : '/' ∉ p) (hne : p ≠ []) : components p = [p] := by
  rw [components, List.splitOn_eq_singleton hp]
  simp [hne]

theorem components_part_slash (hp : '/' ∉ p) (hne : p ≠ []) :
    components (p ++ '/' :: t) = p :: t.components := by
  rw [components, List.splitOn_append_cons_self_of_not_mem hp, List.filter_cons_of_pos (by simpa)]
  rfl

/-- A path is empty, starts with a slash, or with a part that ends before a slash. -/
theorem path_cases (s : Str) : s = [] ∨ (∃ t, s = '/' :: t) ∨
    ∃ p, p ≠ [] ∧ '/' ∉ p ∧ (p = s ∨ ∃ t, s = p ++ '/' :: t) := by
  rcases s with _ | ⟨c, s⟩
  · exact Or.inl rfl
  refine Or.inr ?_
  by_cases hc : c = '/'
  · exact Or.inl ⟨s, by rw [hc]⟩
  refine Or.inr ?_
  by_cases hmem : '/' ∈ s
  · obtain ⟨p, t, rfl, hp⟩ := List.eq_append_cons_of_mem hmem
    exact ⟨c :: p, List.cons_ne_nil _ _, by simp [hp, Ne.symm hc], Or.inr ⟨t, rfl⟩⟩
  · exact ⟨c :: s, List.cons_ne_nil _ _, by simp [hmem, Ne.symm hc], Or.inl rfl⟩

theorem squeeze_slash_slash : squeeze ('/' :: '/' :: s) = squeeze ('/' :: s) := by
  rw [squeeze, if_pos ⟨rfl, rfl⟩]

theorem squeeze_part (hp : '/' ∉ p) : squeeze (p ++ t) = p ++ t.squeeze := by
  induction p with
  | nil => rfl
  | cons c p ih =>
      rw [List.mem_cons, not_or] at hp
      rw [List.cons_append, squeeze, if_neg fun h => hp.1 h.1.symm, ih hp.2]
      rfl

theorem squeeze_slash_part (hp : '/' ∉ p) (hne : p ≠ []) :
    squeeze ('/' :: (p ++ t)) = '/' :: (p ++ t.squeeze) := by
  obtain ⟨c, p, rfl⟩ := List.exists_cons_of_ne_nil hne
  have hc : c ≠ '/' := fun h => hp (h ▸ List.mem_cons_self)
  rw [← squeeze_part hp, squeeze, if_neg]
  simpa using hc

/-- Slashes at the end do not reach into a part. -/
theorem rdropWhile_part (hp : '/' ∉ p) (hne : p ≠ []) :
    (q ++ p ++ t).rdropWhile (· = '/') = q ++ p ++ t.rdropWhile (· = '/') := by
  induction t using List.reverseRecOn with
  | nil =>
      rw [List.append_nil, List.rdropWhile_nil, List.append_nil, List.rdropWhile_eq_self_iff]
      intro h
      rw [List.getLast_append_of_ne_nil h hne]
      simpa using fun he : p.getLast hne = '/' => hp (he ▸ List.getLast_mem hne)
  | append_singleton t x ih =>
      rw [← List.append_assoc]
      by_cases hx : x = '/'
      · rw [List.rdropWhile_concat_pos _ _ _ (by simpa), ih,
          List.rdropWhile_concat_pos _ _ _ (by simpa)]
      · rw [List.rdropWhile_concat_neg _ _ _ (by simpa), List.rdropWhile_concat_neg _ _ _ (by simpa),
          List.append_assoc]

theorem normalize_slash (s : Str) :
    normalize ('/' :: s) = s.components.flatMap fun p => '/' :: p := by
  induction hn : s.length using Nat.strong_induction_on generalizing s with
  | _ n ih =>
      subst hn
      rcases path_cases s with rfl | ⟨t, rfl⟩ | ⟨p, hne, hp, rfl | ⟨t, rfl⟩⟩
      · rfl
      · rw [components_slash, ← ih t.length (Nat.lt_succ_self _) t rfl, normalize,
          squeeze_slash_slash]
        rfl
      · have hsqueeze : squeeze ('/' :: p) = ['/'] ++ p ++ [] := by
          have h := squeeze_slash_part (t := []) hp hne
          rwa [List.append_nil] at h
        rw [normalize, hsqueeze, rdropWhile_part hp hne, components_part hp hne]
        simp
      · have ht : t.length < (p ++ '/' :: t).length := by
          rw [List.length_append, List.length_cons]
          omega
        have hsqueeze : squeeze ('/' :: (p ++ '/' :: t)) = ['/'] ++ p ++ squeeze ('/' :: t) :=
          squeeze_slash_part hp hne
        have hrest := ih t.length ht t rfl
        rw [normalize] at hrest
        rw [normalize, hsqueeze, rdropWhile_part hp hne, hrest, components_part_slash hp hne,
          List.flatMap_cons]
        rfl

theorem intercalate_eq_flatMap (p : Str) (ps : List Str) :
    ['/'].intercalate (p :: ps) = p ++ ps.flatMap fun p => '/' :: p := by
  induction ps generalizing p with
  | nil => simp [List.intercalate_singleton]
  | cons q ps ih =>
      rw [List.intercalate_cons_cons, ih, List.flatMap_cons, List.append_assoc]
      rfl

/-- A normalized path consists of the components, and of a slash before them. -/
theorem normalize_eq (s : Str) : ∃ k,
    s.normalize = List.replicate k '/' ++ ['/'].intercalate s.components := by
  rcases path_cases s with rfl | ⟨t, rfl⟩ | ⟨p, hne, hp, rfl | ⟨t, rfl⟩⟩
  · exact ⟨0, rfl⟩
  · rw [normalize_slash, components_slash]
    cases components t with
    | nil => exact ⟨0, rfl⟩
    | cons q ps => exact ⟨1, by rw [intercalate_eq_flatMap, List.flatMap_cons]; rfl⟩
  · have hsqueeze : squeeze p = [] ++ p ++ [] := by
      have h := squeeze_part (t := []) hp
      rwa [List.append_nil] at h
    refine ⟨0, ?_⟩
    rw [normalize, hsqueeze, rdropWhile_part hp hne, components_part hp hne]
    simp [List.intercalate_singleton]
  · have hsqueeze : squeeze (p ++ '/' :: t) = [] ++ p ++ squeeze ('/' :: t) := squeeze_part hp
    have hrest := normalize_slash t
    rw [normalize] at hrest
    refine ⟨0, ?_⟩
    rw [normalize, hsqueeze, rdropWhile_part hp hne, hrest, components_part_slash hp hne,
      intercalate_eq_flatMap]
    rfl

theorem mem_components (h : p ∈ s.components) : p ≠ [] ∧ '/' ∉ p := by
  induction hn : s.length using Nat.strong_induction_on generalizing s with
  | _ n ih =>
      subst hn
      rcases path_cases s with rfl | ⟨t, rfl⟩ | ⟨q, hne, hq, rfl | ⟨t, rfl⟩⟩
      · cases h
      · rw [components_slash] at h
        exact ih t.length (Nat.lt_succ_self _) h rfl
      · rw [components_part hq hne, List.mem_singleton] at h
        exact h ▸ ⟨hne, hq⟩
      · rw [components_part_slash hq hne] at h
        rcases List.mem_cons.mp h with rfl | h
        · exact ⟨hne, hq⟩
        · refine ih t.length ?_ h rfl
          rw [List.length_append, List.length_cons]
          omega

theorem components_dropWhile (s : Str) :
    components (s.dropWhile (· = '/')) = s.components := by
  induction s with
  | nil => rfl
  | cons c s ih =>
      by_cases hc : c = '/'
      · rw [List.dropWhile_cons_of_pos (by simpa), ih, hc, components_slash]
      · rw [List.dropWhile_cons_of_neg (by simpa)]

theorem normalize_eq_nil (h : s.components = []) : s.normalize = [] := by
  rcases path_cases s with rfl | ⟨t, rfl⟩ | ⟨p, hne, hp, rfl | ⟨t, rfl⟩⟩
  · rfl
  · rw [normalize_slash, ← components_slash, h]
    rfl
  · rw [components_part hp hne] at h
    cases h
  · rw [components_part_slash hp hne] at h
    cases h

theorem components_eq_nil : s.components = [] ↔ s.dropWhile (· = '/') = [] := by
  rw [← components_dropWhile]
  refine ⟨fun h => ?_, fun h => by rw [h]; rfl⟩
  rcases path_cases (s.dropWhile (· = '/')) with ht | ⟨t, ht⟩ | ⟨p, hne, hp, ht | ⟨t, ht⟩⟩
  · exact ht
  · have hhead := List.head?_dropWhile_not (· = '/') s
    rw [ht] at hhead
    exact absurd hhead (by simp)
  · rw [← ht, components_part hp hne] at h
    cases h
  · rw [ht, components_part_slash hp hne] at h
    cases h

end Str

/-! ### Empty parts -/

namespace Fat16Impl

variable {v : Fat16Impl} {upper : Char → Str} {n : ℕ} {dir : Cluster} {parts : List Str} {s : Str}

/-- The look-up comes to an empty part, in a directory that can be listed, and a part after it is
not empty. -/
inductive Gap (v : Fat16Impl) (upper : Char → Str) (n : ℕ) : Cluster → List Str → Prop
  | here {dir : Cluster} {parts : List Str} {entries : List DirEntry}
      (hlist : v.readDirEntries n dir = .ok entries) (hmore : ∃ p ∈ parts, p ≠ []) :
      Gap v upper n dir ([] :: parts)
  | there {dir : Cluster} {part : Str} {parts : List Str} {entry : DirEntry}
      (hfound : v.findEntry upper n dir part = .ok (some entry)) (hdir : entry.isDirectory = true)
      (hrest : Gap v upper n entry.cluster parts) : Gap v upper n dir (part :: parts)

/-- The error of an empty name. -/
abbrev filenameEmpty : Stop := .err (.fileNameError .filenameEmpty)

theorem parse_nil : ShortFileName.parse upper [] = .error filenameEmpty := if_pos rfl

theorem findEntry_nil {entries : List DirEntry} (h : v.readDirEntries n dir = .ok entries) :
    v.findEntry upper n dir [] = .error filenameEmpty := by
  rw [findEntry, h, parse_nil]
  rfl

theorem findEntry_error {stop : Stop} (h : v.readDirEntries n dir = .error stop) (part : Str) :
    v.findEntry upper n dir part = .error stop := by
  rw [findEntry, h]
  rfl

theorem Gap.more (h : Gap v upper n dir parts) : ∃ p ∈ parts, p ≠ [] := by
  induction h with
  | here _ hmore => exact hmore.imp fun p hp => ⟨List.mem_cons_of_mem _ hp.1, hp.2⟩
  | there _ _ _ ih => exact ih.imp fun p hp => ⟨List.mem_cons_of_mem _ hp.1, hp.2⟩

theorem filter_length_pos (h : ∃ p ∈ parts, p ≠ []) : 0 < (parts.filter (· ≠ [])).length := by
  obtain ⟨p, hp, hne⟩ := h
  exact List.length_pos_of_mem (List.mem_filter.mpr ⟨hp, decide_eq_true hne⟩)

/-- The parts from an empty one on give its error. -/
theorem Gap.findParts (h : Gap v upper n dir parts) :
    ∀ {i length : ℕ}, i + (parts.filter (· ≠ [])).length = length →
      v.findParts upper n length i parts dir = .error filenameEmpty := by
  induction h with
  | here hlist =>
      intro i length _
      rw [Fat16Impl.findParts, findEntry_nil hlist]
      rfl
  | @there dir part parts entry hfound hdir hrest ih =>
      intro i length hlen
      have hpart : part ≠ [] := fun he => by
        subst he
        obtain ⟨entries, hlist, -⟩ := bind_eq_ok.mp hfound
        cases (findEntry_nil hlist).symm.trans hfound
      have hpos := filter_length_pos hrest.more
      rw [List.filter_cons_of_pos (by simpa), List.length_cons] at hlen
      rw [Fat16Impl.findParts, hfound]
      simp only [bind, Except.bind, if_neg (show i ≠ length - 1 by omega), hdir, if_true]
      exact ih (by omega)

/-- Without such a part, the empty parts are passed over. -/
theorem findParts_filter : ∀ {parts : List Str} {dir : Cluster} {i length : ℕ},
    ¬ Gap v upper n dir parts → (∃ p ∈ parts, p ≠ []) →
      i + (parts.filter (· ≠ [])).length = length →
      v.findParts upper n length i parts dir =
        v.findParts upper n length i (parts.filter (· ≠ [])) dir
  | [], _, _, _, _, ⟨_, hp, _⟩, _ => nomatch hp
  | part :: parts, dir, i, length, hgap, hmore, hlen => by
      by_cases hpart : part = []
      · subst hpart
        obtain ⟨q, hq, hne⟩ := hmore
        replace hq : q ∈ parts := (List.mem_cons.mp hq).resolve_left hne
        cases hlist : v.readDirEntries n dir with
        | ok entries => exact absurd (.here hlist ⟨q, hq, hne⟩) hgap
        | error stop =>
            rw [List.filter_cons_of_neg (by simp)]
            obtain ⟨part', parts', hfilter⟩ :=
              List.exists_cons_of_length_pos (filter_length_pos ⟨q, hq, hne⟩)
            rw [hfilter, findParts, findParts, findEntry_error hlist, findEntry_error hlist]
            rfl
      · rw [List.filter_cons_of_pos (by simpa)] at hlen ⊢
        rw [List.length_cons] at hlen
        rw [findParts, findParts]
        cases hfound : v.findEntry upper n dir part with
        | error stop => rfl
        | ok found =>
            cases found with
            | none => rfl
            | some entry =>
                simp only [bind, Except.bind]
                by_cases hlast : i = length - 1
                · rw [if_pos hlast, if_pos hlast]
                rw [if_neg hlast, if_neg hlast]
                cases hdir : entry.isDirectory with
                | false => rfl
                | true =>
                    have hpos : 0 < (parts.filter (· ≠ [])).length := by omega
                    obtain ⟨q, hq⟩ := List.exists_mem_of_length_pos hpos
                    obtain ⟨hmem, hne⟩ := List.mem_filter.mp hq
                    exact findParts_filter (fun hrest => hgap (.there hfound hdir hrest))
                      ⟨q, hmem, of_decide_eq_true hne⟩ (by omega)

theorem findPath_eq (hne : s.components ≠ []) :
    v.findPath upper n s = v.findParts upper n s.components.length 0 s.parts .ROOT_DIR := by
  rw [findPath, if_neg fun h => hne (Str.components_eq_nil.mpr h), ← Str.components_dropWhile]
  rfl

theorem findPath_normalize (hne : s.components ≠ []) :
    v.findPath upper n s.normalize =
      v.findParts upper n s.components.length 0 s.components .ROOT_DIR := by
  obtain ⟨k, hk⟩ := Str.normalize_eq s
  rw [hk, findPath_parts hne fun p hp => Str.mem_components hp]

/-! ### The error of an empty name -/

/-- The device does not give it. -/
def NamelessErrors (v : Fat16Impl) : Prop :=
  ∀ s, v.inner.readBlock s ≠ .error (.fileNameError .filenameEmpty)

theorem parse_raises {part : Str} (hpart : part ≠ []) :
    Raises (· ≠ filenameEmpty) (ShortFileName.parse upper part) := by
  rw [ShortFileName.parse, if_neg hpart]
  intro stop h
  simp only at h
  split_ifs at h <;> cases h <;> rintro ⟨⟩

theorem scanSlots_raises {block : Block512} : ∀ {left j : ℕ} {entries : List DirEntry},
    Raises (· ≠ filenameEmpty) (scanSlots block left j entries)
  | 0, _, _ => .ok _
  | left + 1, j, entries => by
      rw [scanSlots]
      split
      · exact .error (by rintro ⟨⟩)
      · split_ifs
        · exact .ok _
        · exact scanSlots_raises
        · split
          · split_ifs
            · exact scanSlots_raises
            · exact scanSlots_raises
          · exact scanSlots_raises

theorem readBlock_raises (h : v.NamelessErrors) (sector : ℕ) :
    Raises (· ≠ filenameEmpty) (FsResult.lift (v.inner.readBlock sector)) := by
  cases hread : v.inner.readBlock sector with
  | ok block => exact .ok _
  | error e =>
      refine .error fun he => h sector ?_
      rw [hread, Stop.err.inj he]

theorem scanSectors_raises (h : v.NamelessErrors) {sector : ℕ} :
    ∀ {left i : ℕ} {entries : List DirEntry},
      Raises (· ≠ filenameEmpty) (v.scanSectors sector left i entries)
  | 0, _, _ => .ok _
  | left + 1, i, entries => by
      rw [scanSectors]
      refine (readBlock_raises h _).bind fun block _ => scanSlots_raises.bind fun r _ => ?_
      obtain ⟨_, ended⟩ := r
      simp only
      split_ifs
      · exact .pure _
      · exact scanSectors_raises h

theorem scanCluster_raises (h : v.NamelessErrors) {cluster : Cluster} {entries : List DirEntry} :
    Raises (· ≠ filenameEmpty) (v.scanCluster cluster entries) := by
  have hsize : Raises (· ≠ filenameEmpty) (v.dirSectors cluster) := by
    rw [dirSectors]
    split_ifs
    · exact .error (by rintro ⟨⟩)
    · exact .ok _
    · exact .ok _
  rw [scanCluster]
  refine hsize.bind fun size _ => (scanSectors_raises h).bind fun r _ => ?_
  obtain ⟨_, ended⟩ := r
  simp only
  split_ifs
  · exact .pure _
  · split
    · exact .pure _
    · exact .pure _
    · rename_i stop hstop _
      exact .error fun he => hstop _ he

theorem readDirEntries_raises (h : v.NamelessErrors) {cluster : Cluster} :
    Raises (· ≠ filenameEmpty) (v.readDirEntries n cluster) := by
  have hscan : ∀ {n cluster entries},
      Raises (· ≠ filenameEmpty) (v.scanClusters n cluster entries) := by
    intro n
    induction n with
    | zero => exact .error (by rintro ⟨⟩)
    | succ n ih =>
        intro cluster entries
        rw [scanClusters]
        refine (scanCluster_raises h).bind fun r _ => ?_
        obtain ⟨_, next⟩ := r
        simp only
        split
        · exact ih
        · exact .pure _
  exact hscan

theorem findParts_raises (h : v.NamelessErrors) {length : ℕ} : ∀ {parts : List Str} {i : ℕ}
    {dir : Cluster}, (∀ p ∈ parts, p ≠ []) →
      Raises (· ≠ filenameEmpty) (v.findParts upper n length i parts dir)
  | [], _, _, _ => .ok _
  | part :: parts, i, dir, hne => by
      have hentry : Raises (· ≠ filenameEmpty) (v.findEntry upper n dir part) := by
        rw [findEntry]
        refine (readDirEntries_raises h).bind fun entries _ =>
          (parse_raises (hne part List.mem_cons_self)).bind fun name _ => ?_
        split_ifs
        · exact .pure _
        · exact .pure _
      rw [findParts]
      refine hentry.bind fun found _ => ?_
      split
      · split_ifs
        · exact .pure _
        · exact findParts_raises h fun p hp => hne p (List.mem_cons_of_mem _ hp)
        · exact .error (by rintro ⟨⟩)
      · exact .pure _

/-! ### The calls -/

/-- The calls give the same results on two paths. -/
structure SameResults (v : Fat16Impl) (upper : Char → Str) (n : ℕ) (s t : Str) : Prop where
  findPath : v.findPath upper n s = v.findPath upper n t
  pathExists : v.pathExists upper n s = v.pathExists upper n t
  metadata : v.metadata upper n s = v.metadata upper n t
  openFile : v.openFile upper n s = v.openFile upper n t

/-- A path that is compared with `/` is one, or empty, or is looked up. -/
theorem not_root (hne : s.components ≠ []) : ¬ (s = ['/'] ∨ s = []) := by
  rintro (rfl | rfl)
  · exact hne rfl
  · exact hne rfl

theorem sameResults_of_findPath {t : Str} (hs : ¬ (s = ['/'] ∨ s = []))
    (ht : ¬ (t = ['/'] ∨ t = [])) (h : v.findPath upper n s = v.findPath upper n t) :
    SameResults v upper n s t where
  findPath := h
  pathExists := by rw [pathExists, pathExists, if_neg hs, if_neg ht, h]
  metadata := by rw [metadata, metadata, if_neg hs, if_neg ht, h]
  openFile := by rw [openFile, openFile, h]

theorem not_gap_single (p : Str) : ¬ Gap v upper n dir [p] := by
  intro h
  cases h with
  | here _ hmore => obtain ⟨_, hp, _⟩ := hmore; cases hp
  | there _ _ hrest => cases hrest

/-- A path of two or more slashes only is not compared with the root directory, and the look-up
comes to no empty part. -/
structure Tidy (v : Fat16Impl) (upper : Char → Str) (n : ℕ) (s : Str) : Prop where
  slashes : s.components = [] → s.length ≤ 1
  gap : ¬ Gap v upper n .ROOT_DIR s.parts

/-- A path of slashes only is the root directory for the calls that compare it. -/
theorem slashes_only (hnil : s.components = []) :
    SameResults v upper n s s.normalize ↔ Tidy v upper n s := by
  have hdrop := Str.components_eq_nil.mp hnil
  have hnone : v.findPath upper n s = .ok none := if_pos hdrop
  have hparts : s.parts = [[]] := by
    rw [Str.parts, hdrop]
    rfl
  rw [Str.normalize_eq_nil hnil]
  constructor
  · intro h
    refine ⟨fun _ => ?_, hparts ▸ not_gap_single []⟩
    by_contra hlen
    have hroot : ¬ (s = ['/'] ∨ s = []) := by
      rintro (rfl | rfl) <;> exact hlen (by decide)
    have hexists := h.pathExists
    rw [pathExists, if_neg hroot, hnone] at hexists
    cases hexists
  · intro h
    cases s with
    | nil => exact ⟨rfl, rfl, rfl, rfl⟩
    | cons c t =>
        obtain rfl : t = [] := List.eq_nil_of_length_eq_zero (by
          have := h.slashes hnil
          rw [List.length_cons] at this
          omega)
        have hc : c = '/' := by
          by_contra hne
          rw [List.dropWhile_cons_of_neg (by simpa)] at hdrop
          cases hdrop
        subst hc
        exact ⟨rfl, rfl, rfl, rfl⟩

/-- **Redundant slashes.**  The calls give the same results on a path and on the normalized path,
if the look-up comes to no empty part and the path is not two or more slashes only; and only then,
if the device does not give the error of an empty name. -/
theorem slashes_iff (v : Fat16Impl) (upper : Char → Str) (n : ℕ) (s : Str) :
    (Tidy v upper n s → SameResults v upper n s s.normalize) ∧
      (v.NamelessErrors → SameResults v upper n s s.normalize → Tidy v upper n s) := by
  by_cases hnil : s.components = []
  · exact ⟨(slashes_only hnil).mpr, fun _ => (slashes_only hnil).mp⟩
  have hfilter : s.parts.filter (· ≠ []) = s.components := Str.components_dropWhile s
  have hmore : ∃ p ∈ s.parts, p ≠ [] := by
    obtain ⟨p, hp⟩ := List.exists_mem_of_ne_nil _ hnil
    rw [← hfilter] at hp
    exact ⟨p, (List.mem_filter.mp hp).1, (Str.mem_components (hfilter ▸ hp)).1⟩
  have hlen : 0 + (s.parts.filter (· ≠ [])).length = s.components.length := by
    rw [hfilter, Nat.zero_add]
  have hnorm : s.normalize.components ≠ [] := by
    obtain ⟨k, hk⟩ := Str.normalize_eq s
    obtain ⟨c, cs, hcs, hc⟩ := intercalate_first hnil fun p hp => Str.mem_components hp
    intro h
    have hdrop := Str.components_eq_nil.mp h
    rw [hk, hcs, dropWhile_slashes k hc] at hdrop
    cases hdrop
  constructor
  · intro h
    refine sameResults_of_findPath (not_root hnil) (not_root hnorm) ?_
    rw [findPath_eq hnil, findPath_normalize hnil, findParts_filter h.gap hmore hlen, hfilter]
  · intro hdevice h
    refine ⟨fun he => absurd he hnil, fun hgap => ?_⟩
    have hpath := h.findPath
    rw [findPath_eq hnil, findPath_normalize hnil, hgap.findParts hlen] at hpath
    exact findParts_raises hdevice (fun p hp => (Str.mem_components hp).1) _ hpath.symm rfl

end Fat16Impl

/-- A slash at the end of a path. -/
theorem slashes_iff_example : Fat16Impl.SameResults smallVolume (fun c => [c]) 1
    ['/', 'D', '/'] ['/', 'D'] := by
  refine (Fat16Impl.slashes_iff smallVolume (fun c => [c]) 1 ['/', 'D', '/']).1 ⟨nofun, fun h => ?_⟩
  cases h with
  | there _ _ hrest => exact Fat16Impl.not_gap_single [] hrest

/-- The paths `D//B` and `//`. -/
theorem double_slash : ¬ Fat16Impl.SameResults smallVolume (fun c => [c]) 1
      ['D', '/', '/', 'B'] (Str.normalize ['D', '/', '/', 'B']) ∧
    ¬ Fat16Impl.SameResults smallVolume (fun c => [c]) 1 ['/', '/'] (Str.normalize ['/', '/']) := by
  constructor
  · intro h
    have hfound := h.pathExists
    revert hfound
    decide +kernel
  · intro h
    have hfound := h.pathExists
    revert hfound
    decide +kernel

end Ysos.Fat16
