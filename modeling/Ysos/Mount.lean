import Ysos.FileSystem
import Ysos.Logs

/-! # Mount points

A `Mount` removes its mount point from a path and passes the rest to the file system that is mounted.
It does so with `trim_start_matches`, which removes a prefix as often as it is there.

* `trimStartMatches_spec`: what `trim_start_matches` leaves of a path.
* `mount_strips_iff`: the file system that is mounted is called with the path inside of it exactly
  when this path does not begin with the mount point as well. -/

namespace Ysos.Storage

open Fat16 Logs

/-! ### The trait -/

/-- The functions of the trait `FileSystem` that are implemented; `H` is the type of open files and
`M` gives the effects of a call, its errors among them. -/
structure FileSystem (M : Type → Type) (H : Type) where
  readDir : Str → M (List Metadata)
  openFile : Str → M (Metadata × H)
  metadata : Str → M Metadata
  pathExists : Str → M Bool

inductive Operation where
  | readDir | openFile | metadata | pathExists
  deriving DecidableEq

/-- A call of a file system. -/
abbrev Request := Operation × Str

namespace FileSystem

variable {H : Type}

/-- A file system that logs its calls. -/
def logged (fs : FileSystem Fs H) : FileSystem (Logged Request Stop) H where
  readDir path := ⟨fs.readDir path, [(.readDir, path)]⟩
  openFile path := ⟨fs.openFile path, [(.openFile, path)]⟩
  metadata path := ⟨fs.metadata path, [(.metadata, path)]⟩
  pathExists path := ⟨fs.pathExists path, [(.pathExists, path)]⟩

/-- The calls that an operation logs. -/
def requests (fs : FileSystem (Logged Request Stop) H) (path : Str) : Operation → List Request
  | .readDir => (fs.readDir path).reads
  | .openFile => (fs.openFile path).reads
  | .metadata => (fs.metadata path).reads
  | .pathExists => (fs.pathExists path).reads

end FileSystem

/-- A FAT16 volume as a file system. -/
def fat16 (v : Fat16Impl) (upper : Char → Str) (fuel : ℕ) : FileSystem Fs File where
  readDir := v.readDir upper fuel
  openFile := v.openFile upper fuel
  metadata := v.metadata upper fuel
  pathExists := v.pathExists upper fuel

/-! ### Mounting -/

/-- `trim_start_matches`: the prefix is removed again and again; an empty one is not. -/
def trimStartMatches (pattern path : Str) : Str :=
  if pattern ≠ [] ∧ pattern <+: path then
    trimStartMatches pattern (path.drop pattern.length)
  else path
termination_by path.length
decreasing_by
  rename_i h
  have hpos := List.length_pos_iff.mpr h.1
  have hle := h.2.length_le
  rw [List.length_drop]
  omega

structure Mount (M : Type → Type) (H : Type) where
  fs : FileSystem M H
  mountPoint : Str

namespace Mount

variable {M : Type → Type} {H : Type} (mount : Mount M H)

def trimMountPoint (path : Str) : Str := trimStartMatches mount.mountPoint path

/-- `impl FileSystem for Mount`. -/
def fileSystem : FileSystem M H where
  readDir path := mount.fs.readDir (mount.trimMountPoint path)
  openFile path := mount.fs.openFile (mount.trimMountPoint path)
  metadata path := mount.fs.metadata (mount.trimMountPoint path)
  pathExists path := mount.fs.pathExists (mount.trimMountPoint path)

end Mount

/-! ### What is left of a path -/

variable {m p : Str}

theorem trimStartMatches_append (h : m ≠ []) :
    trimStartMatches m (m ++ p) = trimStartMatches m p := by
  rw [trimStartMatches, if_pos ⟨h, List.prefix_append m p⟩, List.drop_left]

theorem trimStartMatches_of_other (h : ¬ m <+: p) : trimStartMatches m p = p := by
  rw [trimStartMatches, if_neg fun hp => h hp.2]

/-- The pattern is removed until the rest does not begin with it. -/
theorem trimStartMatches_spec (h : m ≠ []) (p : Str) :
    ¬ m <+: trimStartMatches m p ∧
      ∃ k, p = (List.replicate k m).flatten ++ trimStartMatches m p := by
  induction hn : p.length using Nat.strong_induction_on generalizing p with
  | _ n ih =>
      by_cases hp : m <+: p
      · obtain ⟨rest, rfl⟩ := hp
        have hlt : rest.length < n := by
          have hpos := List.length_pos_iff.mpr h
          rw [List.length_append] at hn
          omega
        obtain ⟨hnot, k, hk⟩ := ih rest.length hlt rest rfl
        rw [trimStartMatches_append h]
        refine ⟨hnot, k + 1, ?_⟩
        rw [List.replicate_succ, List.flatten_cons, List.append_assoc, ← hk]
      · rw [trimStartMatches_of_other hp]
        exact ⟨hp, 0, rfl⟩

/-- The mount point is removed from a path, and nothing else, exactly when it is there once. -/
theorem trimStartMatches_once_iff (h : m ≠ []) : trimStartMatches m (m ++ p) = p ↔ ¬ m <+: p := by
  rw [trimStartMatches_append h]
  constructor
  · intro hp
    exact hp ▸ (trimStartMatches_spec h p).1
  · exact trimStartMatches_of_other

/-! ### The calls of the mounted file system -/

variable {H : Type}

theorem requests_mount (fs : FileSystem Fs H) (path : Str) (op : Operation) :
    (Mount.mk fs.logged m).fileSystem.requests path op = [(op, trimStartMatches m path)] := by
  cases op <;> rfl

/-- **Mount points.**  On the path of a mount point followed by an inner path, each operation calls
the mounted file system once and with the inner path exactly when the inner path does not itself begin
with the mount point. -/
theorem mount_strips_iff (h : m ≠ []) (fs : FileSystem Fs H) (op : Operation) :
    (Mount.mk fs.logged m).fileSystem.requests (m ++ p) op = [(op, p)] ↔ ¬ m <+: p := by
  rw [requests_mount, ← trimStartMatches_once_iff h]
  simp only [List.cons.injEq, Prod.mk.injEq, true_and, and_true]

/-- The path `/b` of a volume that is mounted at `/a`. -/
theorem mount_strips_iff_example :
    (Mount.mk (fat16 smallVolume (fun c => [c]) 2).logged ['/', 'a']).fileSystem.requests
      (['/', 'a'] ++ ['/', 'b']) .metadata = [(.metadata, ['/', 'b'])] :=
  (mount_strips_iff (by decide) _ _).mpr (by decide)

/-- The path `/a` of a volume that is mounted at `/a`. -/
theorem mount_point_stripped_twice : ¬ ∀ (fs : FileSystem Fs File) (op : Operation) (m p : Str),
    m ≠ [] → m.getLast? ≠ some '/' → (p = [] ∨ p.head? = some '/') →
      (Mount.mk fs.logged m).fileSystem.requests (m ++ p) op = [(op, p)] := by
  intro hall
  have hcall := hall (fat16 smallVolume (fun c => [c]) 2) .readDir ['/', 'a'] ['/', 'a']
    (by decide) (by decide) (Or.inr rfl)
  rw [requests_mount, trimStartMatches_append (List.cons_ne_nil _ _)] at hcall
  have hrest : trimStartMatches ['/', 'a'] ['/', 'a'] = ['/', 'a'] := by simpa using hcall
  exact (trimStartMatches_spec (m := ['/', 'a']) (List.cons_ne_nil _ _) _).1 (by rw [hrest])

end Ysos.Storage
