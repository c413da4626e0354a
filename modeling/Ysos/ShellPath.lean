import Ysos.Slashes

/-! # Paths in the shell

`normalize_path` resolves a path against the current directory of the shell, with a stack of
components.

* `Sh.Canonical`: a slash, and names joined by single slashes behind it.
* `Sh.normalizePath_canonical`: the result is canonical, is its own normal form, and normalizing
  composes. -/

namespace Ysos.Sh

open Fat16 (Str)
open Fat16.Str

/-! ### `normalize_path` -/

/-- `trim_matches('/')`. -/
def trimSlashes (s : Str) : Str := (s.dropWhile (· = '/')).rdropWhile (· = '/')

/-- One part of the target path; `..` above the root directory stays there. -/
def pushPart (components : List Str) (part : Str) : List Str :=
  if part = ['.'] then components
  else if part = ['.', '.'] then components.dropLast
  else components ++ [part]

/-- `normalize_path`; `components` takes the parts that are not empty from `split('/')`. -/
def normalizePath (currentDir targetPath : Str) : Str :=
  let isAbsolute := if targetPath.head? = some '/' then true else currentDir.head? = some '/'
  let base := if targetPath.head? = some '/' then [] else (trimSlashes currentDir).components
  let components := targetPath.components.foldl pushPart base
  if isAbsolute then
    if components = [] then ['/'] else '/' :: ['/'].intercalate components
  else if components = [] then ['.']
  else ['/'].intercalate components

/-- The `cd` command, with the words of its line. -/
def cd (currentWorkingDirectory : Str) (line : List Str) : Str :=
  match line with
  | _ :: targetDirArg :: _ => normalizePath currentWorkingDirectory targetDirArg
  | _ => ['/']

/-! ### Canonical paths -/

/-- A component of a canonical path. -/
def Name (p : Str) : Prop := (p ≠ [] ∧ '/' ∉ p) ∧ p ≠ ['.'] ∧ p ≠ ['.', '.']

/-- The absolute path with these components. -/
def render (ps : List Str) : Str := '/' :: ['/'].intercalate ps

def Canonical (c : Str) : Prop := ∃ ps, (∀ p ∈ ps, Name p) ∧ c = render ps

variable {a b c p : Str} {ps qs : List Str}

theorem components_append_slash (a b : Str) :
    components (a ++ '/' :: b) = a.components ++ b.components := by
  rw [components, List.splitOn_append_cons_self, List.filter_append]
  rfl

theorem components_render (hps : ∀ p ∈ ps, Name p) : (render ps).components = ps := by
  rw [render, components_slash]
  induction ps with
  | nil => rfl
  | cons p ps ih =>
      obtain ⟨⟨hne, hp⟩, -⟩ := hps p List.mem_cons_self
      have hrest := ih fun q hq => hps q (List.mem_cons_of_mem _ hq)
      cases ps with
      | nil => rw [List.intercalate_singleton, components_part hp hne]
      | cons q ps =>
          rw [List.intercalate_cons_cons, List.append_assoc]
          exact (components_part_slash hp hne).trans (congrArg (p :: ·) hrest)

theorem components_trimSlashes (s : Str) : (trimSlashes s).components = s.components := by
  have hend : ∀ t : Str, components (t.rdropWhile (· = '/')) = t.components := by
    intro t
    induction t using List.reverseRecOn with
    | nil => rfl
    | append_singleton t x ih =>
        by_cases hx : x = '/'
        · rw [List.rdropWhile_concat_pos _ _ _ (by simpa), ih, hx, components_append_slash,
            components_nil, List.append_nil]
        · rw [List.rdropWhile_concat_neg _ _ _ (by simpa)]
  rw [trimSlashes, hend, components_dropWhile]

/-! ### The stack of components -/

/-- The components before the parts of the target path. -/
def base (ps : List Str) (a : Str) : List Str := if a.head? = some '/' then [] else ps

theorem pushPart_name (hp : Name p) : pushPart ps p = ps ++ [p] := by
  rw [pushPart, if_neg hp.2.1, if_neg hp.2.2]

theorem foldl_pushPart (hqs : ∀ q ∈ qs, Name q) : qs.foldl pushPart ps = ps ++ qs := by
  induction qs generalizing ps with
  | nil => exact (List.append_nil ps).symm
  | cons q qs ih =>
      rw [List.foldl_cons, pushPart_name (hqs q List.mem_cons_self),
        ih fun p hp => hqs p (List.mem_cons_of_mem _ hp), List.append_assoc]
      rfl

theorem pushPart_names (hps : ∀ q ∈ ps, Name q) (hp : p ≠ [] ∧ '/' ∉ p) :
    ∀ q ∈ pushPart ps p, Name q := by
  intro q hq
  rw [pushPart] at hq
  split_ifs at hq with hdot hdots
  · exact hps q hq
  · exact hps q (List.dropLast_subset _ hq)
  · rcases List.mem_append.mp hq with hq | hq
    · exact hps q hq
    · rw [List.mem_singleton.mp hq]
      exact ⟨hp, hdot, hdots⟩

theorem foldl_names (hps : ∀ p ∈ ps, Name p) (hqs : ∀ q ∈ qs, q ≠ [] ∧ '/' ∉ q) :
    ∀ p ∈ qs.foldl pushPart ps, Name p := by
  induction qs generalizing ps with
  | nil => exact hps
  | cons q qs ih =>
      exact ih (pushPart_names hps (hqs q List.mem_cons_self)) fun p hp =>
        hqs p (List.mem_cons_of_mem _ hp)

/-- The path, and the stack at the end, from a canonical directory. -/
theorem normalizePath_render (hps : ∀ p ∈ ps, Name p) (a : Str) :
    normalizePath (render ps) a = render (a.components.foldl pushPart (base ps a)) := by
  have habs : (render ps).head? = some '/' := rfl
  have hjoin : ∀ qs : List Str,
      (if qs = [] then ['/'] else '/' :: ['/'].intercalate qs) = render qs := by
    intro qs
    cases qs with
    | nil => rfl
    | cons q qs => rfl
  simp only [normalizePath, components_trimSlashes, components_render hps, habs, decide_true,
    ite_self, if_true, hjoin, base]

theorem stack_names (hps : ∀ p ∈ ps, Name p) (a : Str) :
    ∀ p ∈ a.components.foldl pushPart (base ps a), Name p := by
  refine foldl_names (fun p hp => ?_) fun q hq => mem_components hq
  rw [base] at hp
  split_ifs at hp
  · cases hp
  · exact hps p hp

theorem Canonical.normalizePath (hc : Canonical c) (a : Str) : Canonical (normalizePath c a) := by
  obtain ⟨ps, hps, rfl⟩ := hc
  exact ⟨_, stack_names hps a, normalizePath_render hps a⟩

/-- A canonical path is its own normal form, in every canonical directory. -/
theorem normalizePath_idem (hc : Canonical c) (ha : Canonical a) : Sh.normalizePath c a = a := by
  obtain ⟨ps, hps, rfl⟩ := hc
  obtain ⟨qs, hqs, rfl⟩ := ha
  rw [normalizePath_render hps, components_render hqs, foldl_pushPart hqs]
  rfl

theorem normalizePath_absolute (ha : a.head? = some '/') (c c' : Str) :
    normalizePath c a = normalizePath c' a := by
  simp only [normalizePath, if_pos ha]

/-- The parts of `b` come onto the stack that `a` leaves. -/
theorem normalizePath_append (hc : Canonical c) (ha : a ≠ []) (hb : b.head? ≠ some '/') :
    normalizePath (normalizePath c a) b = normalizePath c (a ++ '/' :: b) := by
  obtain ⟨ps, hps, rfl⟩ := hc
  have hbase : base ps (a ++ '/' :: b) = base ps a := by
    rw [base, List.head?_append_of_ne_nil _ ha, base]
  rw [normalizePath_render hps a, normalizePath_render (stack_names hps a), base, if_neg hb,
    normalizePath_render hps, hbase, components_append_slash, List.foldl_append]

theorem Canonical.cd (hc : Canonical c) (line : List Str) : Canonical (cd c line) := by
  match line with
  | [] | [_] => exact ⟨[], nofun, rfl⟩
  | _ :: targetDirArg :: _ => exact hc.normalizePath targetDirArg

theorem Canonical.cds (hc : Canonical c) (lines : List (List Str)) :
    Canonical (lines.foldl Sh.cd c) := by
  induction lines generalizing c with
  | nil => exact hc
  | cons line lines ih => exact ih (hc.cd line)

/-- **Normalized paths.**  From a canonical directory the result is canonical, so `cd` commands keep
the working directory canonical; it is its own normal form, an absolute path gives it in every
directory, and a relative path behind another one is resolved against the other's result. -/
theorem normalizePath_canonical (hc : Canonical c) (a b : Str) :
    Canonical (normalizePath c a) ∧
    (∀ lines : List (List Str), Canonical (lines.foldl cd c)) ∧
    normalizePath c (normalizePath c a) = normalizePath c a ∧
    (a.head? = some '/' → ∀ c', normalizePath c' a = normalizePath c a) ∧
    (a ≠ [] → b.head? ≠ some '/' →
      normalizePath (normalizePath c a) b = normalizePath c (a ++ '/' :: b)) :=
  ⟨hc.normalizePath a, hc.cds, normalizePath_idem hc (hc.normalizePath a),
    fun ha c' => normalizePath_absolute ha c' c, normalizePath_append hc⟩

/-- The paths `a/../b` and `/a` in the root directory. -/
theorem normalizePath_canonical_example :
    normalizePath (normalizePath ['/'] ['a', '/', '.', '.']) ['b'] = ['/', 'b'] ∧
      normalizePath ['.'] ['/', 'a'] = ['/', 'a'] := by
  have hroot : Canonical ['/'] := ⟨[], nofun, rfl⟩
  constructor
  · rw [(normalizePath_canonical hroot ['a', '/', '.', '.'] ['b']).2.2.2.2 nofun (by decide)]
    decide
  · rw [(normalizePath_canonical hroot ['/', 'a'] []).2.2.2.1 rfl]
    decide

end Ysos.Sh
