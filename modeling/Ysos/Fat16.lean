import Ysos.Runs

/-! # A FAT16 volume

The boot sector gives the layout of the volume: the first copy of the FAT at `fatStart`, the root
directory at `firstRootDirSector` and the clusters from `firstDataSector` on.  `getNextCluster`
reads the FAT, and `clusterToSector` finds the sectors of a cluster.

Functions that can fail return an `Fs`: an error of the file system, a panic, or no answer of a
loop whose fuel has run out.

* `Fat16Impl.Chain`: data clusters linked by the FAT.
* `Fat16Impl.clusterBytes`: the bytes of a cluster. -/

namespace Ysos.Fat16

/-! ### Errors -/

inductive DeviceError where
  | busy | unknownDevice | unknown | invalidOperation | readError | writeError
  | withStatus (status : ℕ)
  deriving DecidableEq

inductive FilenameError where
  | invalidCharacter | filenameEmpty | nameTooLong | misplacedPeriod | utf8Error | unableToParse
  deriving DecidableEq

inductive FsError where
  | fileNotFound | notInSector | endOfFile | writeZero | notADirectory | notAFile | readOnly
  | invalidOperation | notSupported | badCluster | invalidOffset
  | fileNameError (e : FilenameError)
  | deviceError (e : DeviceError)
  | invalidPath (path : String)
  deriving DecidableEq

abbrev FsResult := Except FsError

/-- Why a call does not return a value. -/
inductive Stop where
  | err (e : FsError)
  | panic
  | outOfFuel
  deriving DecidableEq

abbrev Fs := Except Stop

/-- The `?` of a call that cannot panic. -/
def FsResult.lift {β : Type} : FsResult β → Fs β
  | .ok b => .ok b
  | .error e => .error (.err e)

@[simp]
theorem FsResult.lift_eq_ok {β : Type} {x : FsResult β} {b : β} :
    FsResult.lift x = .ok b ↔ x = .ok b := by
  cases x with
  | ok => exact ⟨congrArg _ ∘ Except.ok.inj, congrArg _ ∘ Except.ok.inj⟩
  | error => exact ⟨nofun, nofun⟩

/-! ### Blocks -/

def BLOCK_SIZE : ℕ := 512

abbrev Block512 := Vector UInt8 BLOCK_SIZE

/-- A block device; `readBlock` gives the block that a successful read fills. -/
structure BlockDevice where
  readBlock : ℕ → FsResult Block512

def u16FromLeBytes (a b : UInt8) : ℕ := a.toNat + 2 ^ 8 * b.toNat

def u32FromLeBytes (a b c d : UInt8) : ℕ := u16FromLeBytes a b + 2 ^ 16 * u16FromLeBytes c d

theorem u16FromLeBytes_lt (a b : UInt8) : u16FromLeBytes a b < 2 ^ 16 := by
  have ha := a.toNat_lt
  have hb := b.toNat_lt
  unfold u16FromLeBytes
  omega

/-! ### The boot sector -/

structure Fat16Bpb where
  data : Block512

namespace Fat16Bpb

def trail (b : Fat16Bpb) : ℕ := u16FromLeBytes b.data[0x1FE] b.data[0x1FF]

def new (data : Block512) : FsResult Fat16Bpb :=
  let bpb : Fat16Bpb := ⟨data⟩
  if bpb.trail ≠ 0xAA55 then .error .invalidOperation else .ok bpb

def bytesPerSector (b : Fat16Bpb) : ℕ := u16FromLeBytes b.data[0x0B] b.data[0x0C]

def sectorsPerCluster (b : Fat16Bpb) : ℕ := b.data[0x0D].toNat

def reservedSectorCount (b : Fat16Bpb) : ℕ := u16FromLeBytes b.data[0x0E] b.data[0x0F]

def fatCount (b : Fat16Bpb) : ℕ := b.data[0x10].toNat

def rootEntriesCount (b : Fat16Bpb) : ℕ := u16FromLeBytes b.data[0x11] b.data[0x12]

def sectorsPerFat (b : Fat16Bpb) : ℕ := u16FromLeBytes b.data[0x16] b.data[0x17]

end Fat16Bpb

/-! ### Clusters -/

/-- The number of a cluster, a `u32`. -/
structure Cluster where
  val : ℕ
  deriving DecidableEq

/-- The root directory has no number; its sectors follow the FATs. -/
def Cluster.ROOT_DIR : Cluster := ⟨0xFFFFFFFC⟩

structure Fat16Impl where
  bpb : Fat16Bpb
  inner : BlockDevice
  fatStart : ℕ
  firstDataSector : ℕ
  firstRootDirSector : ℕ

/-- The number of bytes of a directory entry. -/
def ENTRY_LEN : ℕ := 0x20

namespace Fat16Impl

/-- The sectors of the root directory. -/
def rootDirSize (bpb : Fat16Bpb) : ℕ :=
  (bpb.rootEntriesCount * ENTRY_LEN + (bpb.bytesPerSector - 1)) / bpb.bytesPerSector

def new (inner : BlockDevice) : Fs Fat16Impl :=
  match inner.readBlock 0 with
  | .error _ => .error .panic
  | .ok block =>
      match Fat16Bpb.new block with
      | .error _ => .error .panic
      | .ok bpb =>
          if bpb.bytesPerSector = 0 then .error .panic
          else
            let fatStart := bpb.reservedSectorCount
            let firstRootDirSector := fatStart + bpb.fatCount * bpb.sectorsPerFat
            .ok ⟨bpb, inner, fatStart, firstRootDirSector + rootDirSize bpb, firstRootDirSector⟩

variable (v : Fat16Impl)

def clusterToSector (cluster : Cluster) : ℕ :=
  if cluster = .ROOT_DIR then v.firstRootDirSector
  else if cluster.val < 2 then v.firstDataSector
  else (cluster.val - 2) * v.bpb.sectorsPerCluster + v.firstDataSector

/-- The entry of a cluster in the FAT, if it is not an end mark. -/
def getNextCluster (cluster : ℕ) : Fs (Option ℕ) :=
  let fatOffset := cluster * 2
  if v.bpb.bytesPerSector = 0 then .error .panic
  else do
    let sectorOffset := fatOffset / v.bpb.bytesPerSector
    let byteOffset := fatOffset % v.bpb.bytesPerSector
    let block ← FsResult.lift (v.inner.readBlock (v.fatStart + sectorOffset))
    match block[byteOffset]?, block[byteOffset + 1]? with
    | some a, some b =>
        let fatEntry := u16FromLeBytes a b
        return if fatEntry = 0 ∨ 0xFFF8 ≤ fatEntry then none else some fatEntry
    | _, _ => .error .panic

/-! ### Chains -/

def clusterSize : ℕ := v.bpb.sectorsPerCluster * v.bpb.bytesPerSector

/-- The numbers of data clusters. -/
def IsData (c : ℕ) : Prop := 2 ≤ c ∧ c ≤ 0xFFEF

/-- The FAT leads from the cluster `first` through the data clusters of a list. -/
structure Chain (first : Cluster) (clusters : List ℕ) : Prop where
  head : ∀ c ∈ clusters.head?, first = ⟨c⟩
  data : ∀ c ∈ clusters, IsData c
  links : clusters.IsChain fun c next => v.getNextCluster c = .ok (some next)

/-- The bytes of a sector. -/
def sectorBytes (s : ℕ) : List UInt8 :=
  match v.inner.readBlock s with
  | .ok block => block.toList
  | .error _ => []

/-- The sectors of a cluster. -/
def clusterSectors (cluster : Cluster) : List ℕ :=
  List.range' (v.clusterToSector cluster) v.bpb.sectorsPerCluster

/-- The bytes of a cluster. -/
def clusterBytes (cluster : Cluster) : List UInt8 :=
  (v.clusterSectors cluster).flatMap v.sectorBytes

/-- The device can read the sector. -/
def Readable (s : ℕ) : Prop := ∃ block, v.inner.readBlock s = .ok block

variable {v} {s : ℕ}

theorem Readable.length (h : v.Readable s) : (v.sectorBytes s).length = BLOCK_SIZE := by
  obtain ⟨block, hblock⟩ := h
  simp [sectorBytes, hblock]

theorem IsData.lt {c : ℕ} (h : IsData c) : c < 2 ^ 16 := by
  have := h.2
  omega

theorem IsData.ne_root {c : ℕ} (h : IsData c) : (⟨c⟩ : Cluster) ≠ .ROOT_DIR := by
  intro he
  have hlt := h.lt
  rw [show c = 0xFFFFFFFC from congrArg Cluster.val he] at hlt
  exact absurd hlt (by decide)

namespace Chain
variable {first : Cluster} {c : ℕ} {cs : List ℕ}

theorem tail (h : v.Chain first (c :: cs)) : ∀ next ∈ cs.head?, v.Chain ⟨next⟩ cs ∧
    v.getNextCluster c = .ok (some next) := by
  intro next hnext
  obtain ⟨-, hdata, hlinks⟩ := h
  cases cs with
  | nil => cases hnext
  | cons n cs =>
      cases hnext
      rw [List.isChain_cons_cons] at hlinks
      exact ⟨⟨fun c hc => by cases hc; rfl, fun c hc => hdata c (List.mem_cons_of_mem _ hc),
        hlinks.2⟩, hlinks.1⟩

end Chain

end Fat16Impl
end Ysos.Fat16
