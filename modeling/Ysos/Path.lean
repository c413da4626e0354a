import Ysos.Directory

/-! # Paths

`findPath` splits a path at its slashes and looks its components up one by one, from the root
directory on.

* `resolve`: the look-up of short names in directories that are given by their entries.
* `findPath_resolve`: a path of components that are valid short names resolves to what `resolve`
  finds. -/

namespace Ysos.Fat16

open Runs

variable (upper : Char → Str)

/-! ### The code -/

namespace Fat16Impl

variable (v : Fat16Impl) (fuel : ℕ)

def findEntry (dirCluster : Cluster) (name : Str) : Fs (Option DirEntry) := do
  let entries ← v.readDirEntries fuel dirCluster
  let targetName ← ShortFileName.parse upper name
  if name = [] then return none
  else return entries.find? fun entry => entry.filename = targetName

/-- The loop of `find_path` over the parts from the one with index `i` on. -/
def findParts (length : ℕ) : ℕ → List Str → Cluster → Fs (Option DirEntry)
  | _, [], _ => .ok none
  | i, part :: parts, currentCluster => do
      match ← v.findEntry upper fuel currentCluster part with
      | some entry =>
          if i = length - 1 then return some entry
          else if entry.isDirectory then findParts length (i + 1) parts entry.cluster
          else .error (.err .notADirectory)
      | none => return none

def findPath (path : Str) : Fs (Option DirEntry) :=
  let path := path.dropWhile (· = '/')
  if path = [] then .ok none
  else
    let parts := path.splitOn '/'
    let length := (parts.filter (· ≠ [])).length
    v.findParts upper fuel length 0 parts .ROOT_DIR

end Fat16Impl

/-! ### Resolution -/

/-- The first entry with a name. -/
def lookup (entries : List DirEntry) (name : ShortFileName) : Option DirEntry :=
  entries.find? fun entry => entry.filename = name

/-- What the short names lead to from a directory, where `list` gives the entries of the
directories. -/
def resolve (list : Cluster → List DirEntry) : Cluster → List ShortFileName → FsResult (Option DirEntry)
  | _, [] => .ok none
  | dir, [name] => .ok (lookup (list dir) name)
  | dir, name :: name' :: names =>
      match lookup (list dir) name with
      | none => .ok none
      | some entry =>
          if entry.isDirectory then resolve list entry.cluster (name' :: names)
          else .error .notADirectory

/-- The directories that the names are looked up in. -/
inductive Met (list : Cluster → List DirEntry) : Cluster → List ShortFileName → Cluster → Prop
  | here {dir : Cluster} {name : ShortFileName} {names : List ShortFileName} :
      Met list dir (name :: names) dir
  | there {dir dir' : Cluster} {name name' : ShortFileName} {names : List ShortFileName}
      {entry : DirEntry} (hfound : lookup (list dir) name = some entry)
      (hdir : entry.isDirectory = true) (hmet : Met list entry.cluster (name' :: names) dir') :
      Met list dir (name :: name' :: names) dir'

variable {upper} {v : Fat16Impl} {list : Cluster → List DirEntry}

/-! ### Components -/

theorem ShortFileName.parse_ok {name : Str} {f : ShortFileName}
    (h : ShortFileName.parse upper name = .ok f) : name ≠ [] ∧ '/' ∉ name := by
  unfold ShortFileName.parse at h
  split_ifs at h with hempty hinvalid
  all_goals
    refine ⟨hempty, fun hslash => hinvalid ?_⟩
    refine List.any_eq_true.mpr ⟨0x2F, List.mem_flatMap.mpr ⟨'/', hslash, by decide⟩, by decide⟩

theorem dropWhile_slashes (n : ℕ) {c : Char} (hc : c ≠ '/') (cs : Str) :
    (List.replicate n '/' ++ c :: cs).dropWhile (· = '/') = c :: cs := by
  induction n with
  | zero => simp [hc]
  | succ n ih => simpa [List.replicate_succ] using ih

/-- Components that are not empty start with a character that is not a slash. -/
theorem intercalate_first {components : List Str} (hne : components ≠ [])
    (hok : ∀ c ∈ components, c ≠ [] ∧ '/' ∉ c) :
    ∃ c cs, ['/'].intercalate components = c :: cs ∧ c ≠ '/' := by
  obtain ⟨part, parts, rfl⟩ := List.exists_cons_of_ne_nil hne
  obtain ⟨hpart, hslash⟩ := hok part List.mem_cons_self
  obtain ⟨c, cs, rfl⟩ := List.exists_cons_of_ne_nil hpart
  have hc : c ≠ '/' := fun he => hslash (he ▸ List.mem_cons_self)
  cases parts with
  | nil => exact ⟨c, cs, List.intercalate_singleton, hc⟩
  | cons part' parts => exact ⟨c, _, List.intercalate_cons_cons, hc⟩

namespace Fat16Impl

theorem findEntry_listed {n : ℕ} {dir : Cluster} {name : Str} {f : ShortFileName}
    {entries : List DirEntry} (hlist : v.readDirEntries n dir = .ok entries)
    (hparse : ShortFileName.parse upper name = .ok f) :
    v.findEntry upper n dir name = .ok (lookup entries f) := by
  rw [findEntry, hlist, hparse]
  simp only [bind, Except.bind, if_neg (ShortFileName.parse_ok hparse).1]
  rfl

theorem findParts_eq {parts : List Str} {names : List ShortFileName}
    (hparse : List.Forall₂ (fun part name => ShortFileName.parse upper part = .ok name) parts names)
    {dir : Cluster} {i length : ℕ} (hne : parts ≠ []) (hlen : i + parts.length = length)
    (hlist : ∀ dir', Met list dir names dir' →
      ∀ᶠ n in Filter.atTop, v.readDirEntries n dir' = .ok (list dir')) :
    ∀ᶠ n in Filter.atTop,
      v.findParts upper n length i parts dir = FsResult.lift (resolve list dir names) := by
  induction hparse generalizing dir i with
  | nil => exact absurd rfl hne
  | @cons part name parts names hpart hrest ih =>
      rw [List.length_cons] at hlen
      cases hrest with
      | nil =>
          have hlast : i = length - 1 := by
            simp only [List.length_nil] at hlen
            omega
          filter_upwards [hlist dir .here] with n hn
          rw [findParts, findEntry_listed hn hpart]
          simp only [bind, Except.bind, if_pos hlast, resolve, FsResult.lift]
          cases lookup (list dir) name with
          | none => rfl
          | some entry => rfl
      | @cons part' name' parts names hpart' hrest =>
          have hnot : i ≠ length - 1 := by
            rw [List.length_cons] at hlen
            omega
          cases hfound : lookup (list dir) name with
          | none =>
              filter_upwards [hlist dir .here] with n hn
              rw [findParts, findEntry_listed hn hpart]
              simp only [bind, Except.bind, resolve, hfound]
              rfl
          | some entry =>
              cases hdir : entry.isDirectory with
              | false =>
                  filter_upwards [hlist dir .here] with n hn
                  rw [findParts, findEntry_listed hn hpart]
                  simp only [bind, Except.bind, resolve, hfound, if_neg hnot, hdir]
                  rfl
              | true =>
                  have ih := ih (i := i + 1) (List.cons_ne_nil _ _) (by omega)
                    fun dir' hmet => hlist dir' (.there hfound hdir hmet)
                  filter_upwards [hlist dir .here, ih] with n hn hih
                  rw [findParts, findEntry_listed hn hpart]
                  simp only [bind, Except.bind, resolve, hfound, if_neg hnot, hdir, if_true]
                  exact hih

theorem findPath_parts {n slashes : ℕ} {components : List Str} (hne : components ≠ [])
    (hok : ∀ c ∈ components, c ≠ [] ∧ '/' ∉ c) :
    v.findPath upper n (List.replicate slashes '/' ++ ['/'].intercalate components) =
      v.findParts upper n components.length 0 components .ROOT_DIR := by
  have hsplit : (['/'].intercalate components).splitOn '/' = components :=
    List.splitOn_intercalate '/' (fun c hc => (hok c hc).2) hne
  have hfilter : components.filter (fun c => c ≠ []) = components :=
    List.filter_eq_self.mpr fun c hc => decide_eq_true (hok c hc).1
  obtain ⟨c, cs, hcs, hc⟩ := intercalate_first hne hok
  rw [findPath, hcs, dropWhile_slashes slashes hc, ← hcs]
  simp only [hsplit]
  rw [if_neg (by rw [hcs]; exact List.cons_ne_nil _ _)]
  simp only [hfilter]

/-- **Path look-up.**  A path of leading slashes and components that are valid short names resolves
component by component, if the directories that are met can be listed. -/
theorem findPath_resolve {slashes : ℕ} {components : List Str} {names : List ShortFileName}
    (hparse : List.Forall₂ (fun part name => ShortFileName.parse upper part = .ok name)
      components names) (hne : components ≠ [])
    (hlist : ∀ dir, Met list .ROOT_DIR names dir →
      ∀ᶠ n in Filter.atTop, v.readDirEntries n dir = .ok (list dir)) :
    ∀ᶠ n in Filter.atTop,
      v.findPath upper n (List.replicate slashes '/' ++ ['/'].intercalate components) =
        FsResult.lift (resolve list .ROOT_DIR names) := by
  have hok : ∀ c ∈ components, c ≠ [] ∧ '/' ∉ c := fun c hc => by
    obtain ⟨i, hi, rfl⟩ := List.getElem_of_mem hc
    exact ShortFileName.parse_ok (hparse.get hi (hparse.length_eq ▸ hi))
  filter_upwards [findParts_eq hparse hne (Nat.zero_add _) hlist] with n hn
  rw [findPath_parts hne hok, hn]

end Fat16Impl

/-! ### The small volume -/

/-- The entries of the two directories of the small volume. -/
def smallList (dir : Cluster) : List DirEntry :=
  listed (slots (if dir = .ROOT_DIR then smallRoot else smallDirectory))

theorem smallList_root :
    ∀ᶠ n in Filter.atTop, smallVolume.readDirEntries n .ROOT_DIR = .ok (smallList .ROOT_DIR) := by
  filter_upwards [Fat16Impl.scanClusters_stored smallVolume_sectors smallVolume_root []] with n hn
  rw [Fat16Impl.readDirEntries, hn, List.flatMap_singleton, List.nil_append, smallList, if_pos rfl]

theorem smallList_directory :
    ∀ᶠ n in Filter.atTop, smallVolume.readDirEntries n ⟨4⟩ = .ok (smallList ⟨4⟩) := by
  filter_upwards [Fat16Impl.scanClusters_stored smallVolume_sectors smallVolume_directory []]
    with n hn
  rw [Fat16Impl.readDirEntries, hn, List.flatMap_singleton, List.nil_append, smallList,
    if_neg (by decide)]

/-- The names of the directory `D` and of the file in it. -/
def smallNames : List ShortFileName := [⟨padded 8 [68], padded 3 []⟩, ⟨padded 8 [66], padded 3 []⟩]

/-- The path `//D/B`. -/
theorem findPath_resolve_example : ∃ entry : DirEntry, entry.size = 1 ∧
    ∀ᶠ n in Filter.atTop, smallVolume.findPath (fun c => [c]) n
      (List.replicate 2 '/' ++ ['/'].intercalate [['D'], ['B']]) = .ok (some entry) := by
  have hD : (lookup (smallList .ROOT_DIR) smallNames[0]).map
      (fun e => (e.isDirectory, e.cluster)) = some (true, ⟨4⟩) := by decide +kernel
  have hB : (lookup (smallList ⟨4⟩) smallNames[1]).map DirEntry.size = some 1 := by
    decide +kernel
  obtain ⟨d, hd, hval⟩ := Option.map_eq_some_iff.mp hD
  obtain ⟨hdir, hcluster⟩ := Prod.mk.inj hval
  obtain ⟨b, hb, hsize⟩ := Option.map_eq_some_iff.mp hB
  have hresolve : resolve smallList .ROOT_DIR smallNames = .ok (some b) := by
    rw [show smallNames = [smallNames[0], smallNames[1]] from rfl, resolve, hd]
    simp only [hdir, if_true, hcluster, resolve, hb]
  have hparse : List.Forall₂ (fun part name => ShortFileName.parse (fun c => [c]) part = .ok name)
      [['D'], ['B']] smallNames := .cons (by decide +kernel) (.cons (by decide +kernel) .nil)
  refine ⟨b, hsize, ?_⟩
  rw [show (Except.ok (some b) : Fs (Option DirEntry)) = FsResult.lift (.ok (some b)) from rfl,
    ← hresolve]
  refine Fat16Impl.findPath_resolve hparse (List.cons_ne_nil _ _) fun dir hmet => ?_
  cases hmet with
  | here => exact smallList_root
  | there hfound _ hmet =>
      cases hd.symm.trans hfound
      rw [hcluster] at hmet
      cases hmet with
      | here => exact smallList_directory

end Ysos.Fat16
