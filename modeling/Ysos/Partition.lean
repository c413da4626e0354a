import Ysos.Fat16

/-! # Partitions

`MbrTable.parse` decodes the four entries of the boot record, and a `Partition` translates the block
numbers of an active entry to those of the inner device, which all partitions share.

* `Partition.read_call`: what one call through a partition does to what another one reads.
* `partitions_isolated`: if the ranges of the active entries are disjoint, each partition behaves as
  a device of its own, in any interleaving of calls. -/

namespace Ysos.Storage

open Fat16 Runs

/-! ### The inner device -/

/-- A device that is an array of blocks.  `beyond` is its error for a block behind the last one. -/
structure ArrayDevice (B : Type) where
  blocks : List B
  beyond : FsError

variable {B : Type}

namespace ArrayDevice

variable (d : ArrayDevice B)

def readBlock (offset : ℕ) : FsResult B :=
  match d.blocks[offset]? with
  | some block => .ok block
  | none => .error d.beyond

/-- The device after the write. -/
def writeBlock (offset : ℕ) (block : B) : FsResult (ArrayDevice B) :=
  if offset < d.blocks.length then .ok { d with blocks := d.blocks.set offset block }
  else .error d.beyond

end ArrayDevice

/-! ### Partitions -/

/-- The part of a device from `offset` on; the device itself is passed to the calls. -/
structure Partition where
  offset : ℕ
  size : ℕ
  deriving DecidableEq

namespace Partition

variable (p : Partition) (d : ArrayDevice B)

def readBlock (offset : ℕ) : FsResult B :=
  if offset ≥ p.size then .error .invalidOffset
  else
    let actualOffset := p.offset + offset
    d.readBlock actualOffset

def writeBlock (offset : ℕ) (block : B) : FsResult (ArrayDevice B) :=
  if offset ≥ p.size then .error .invalidOffset
  else
    let actualOffset := p.offset + offset
    d.writeBlock actualOffset block

/-- The blocks of the inner device. -/
def range : Set ℕ := Set.Ico p.offset (p.offset + p.size)

end Partition

/-! ### The boot record -/

structure MbrPartition where
  data : Vector UInt8 16
  deriving DecidableEq

namespace MbrPartition

def parse (data : Vector UInt8 16) : MbrPartition := ⟨data⟩

variable (e : MbrPartition)

def status : UInt8 := e.data[0]

def beginLba : ℕ := u32FromLeBytes e.data[8] e.data[9] e.data[10] e.data[11]

def totalLba : ℕ := u32FromLeBytes e.data[12] e.data[13] e.data[14] e.data[15]

def isActive : Bool := e.status = 0x80

end MbrPartition

structure MbrTable where
  partitions : List MbrPartition
  deriving DecidableEq

namespace MbrTable

/-- `buffer[offset..offset + 16].try_into().unwrap()`. -/
def entryData (buffer : List UInt8) (offset : ℕ) : Fs (Vector UInt8 16) :=
  if h : offset + 16 ≤ buffer.length then
    .ok ⟨((buffer.drop offset).take 16).toArray, by
      rw [List.size_toArray, List.length_take, List.length_drop]
      omega⟩
  else .error .panic

/-- `parse`, where `asRef` gives the bytes of a block. -/
def parse (asRef : B → List UInt8) (inner : ArrayDevice B) : Fs MbrTable := do
  let block ← FsResult.lift (inner.readBlock 0)
  let buffer := asRef block
  let partitions ← (List.range 4).mapM fun i => do
    let partData ← entryData buffer (0x1BE + i * 16)
    return MbrPartition.parse partData
  return ⟨partitions⟩

/-- `partitions`. -/
def parts (t : MbrTable) : List Partition :=
  (t.partitions.filter MbrPartition.isActive).map fun part => ⟨part.beginLba, part.totalLba⟩

/-- No two active entries have a block in common. -/
def DisjointRanges (t : MbrTable) : Prop :=
  t.partitions.Pairwise fun a b => a.isActive → b.isActive →
    Disjoint (Set.Ico a.beginLba (a.beginLba + a.totalLba))
      (Set.Ico b.beginLba (b.beginLba + b.totalLba))

end MbrTable

/-! ### Calls -/

/-- A call through one of `n` partitions. -/
inductive Call (n : ℕ) (B : Type) where
  | readBlock (k : Fin n) (offset : ℕ)
  | writeBlock (k : Fin n) (offset : ℕ) (block : B)

namespace Call

variable {n : ℕ}

/-- The partition of the call. -/
def part : Call n B → Fin n
  | readBlock k _ => k
  | writeBlock k _ _ => k

/-- What the call writes to a block of a partition. -/
def written (k : Fin n) (offset : ℕ) : Call n B → Option B
  | readBlock _ _ => none
  | writeBlock j o block => if j = k ∧ o = offset then some block else none

end Call

section

variable (parts : List Partition)

/-- The device after a call. -/
def after (d : ArrayDevice B) : Call parts.length B → ArrayDevice B
  | .readBlock _ _ => d
  | .writeBlock k offset block =>
      match parts[k].writeBlock d offset block with
      | .ok d' => d'
      | .error _ => d

/-- The device after some calls. -/
def afterAll (d : ArrayDevice B) (calls : List (Call parts.length B)) : ArrayDevice B :=
  calls.foldl (after parts) d

/-- The last value that the calls write to a block of a partition. -/
def lastWritten (k : Fin parts.length) (offset : ℕ) (calls : List (Call parts.length B)) : Option B :=
  calls.foldl (fun last c => (c.written k offset).or last) none

end

/-! ### One call -/

namespace ArrayDevice

variable {d d' : ArrayDevice B} {i j : ℕ} {b : B}

theorem readBlock_writeBlock (h : d.writeBlock i b = .ok d') :
    d'.readBlock j = (d.readBlock j).map fun old => if i = j then b else old := by
  unfold writeBlock at h
  split_ifs at h with hi
  cases h
  unfold readBlock
  by_cases hij : i = j
  · subst hij
    simp [hi, Except.map]
  · simp only [List.getElem?_set_ne hij, if_neg hij]
    cases d.blocks[j]? <;> rfl

theorem readBlock_of_writeBlock_error {e : FsError} (h : d.writeBlock i b = .error e) :
    d.readBlock i = .error e := by
  unfold writeBlock at h
  split_ifs at h with hi
  cases h
  rw [readBlock, List.getElem?_eq_none (Nat.not_lt.mp hi)]

end ArrayDevice

theorem except_map_self {β ε : Type} (x : Except ε β) : (x.map fun b => b) = x := by
  cases x <;> rfl

namespace Partition

variable {p q : Partition} {d d' : ArrayDevice B} {offset : ℕ} {b : B}

theorem readBlock_beyond (h : p.size ≤ offset) : p.readBlock d offset = .error .invalidOffset :=
  if_pos h

theorem writeBlock_beyond (h : p.size ≤ offset) :
    p.writeBlock d offset b = .error .invalidOffset :=
  if_pos h

theorem writeBlock_ok (h : p.writeBlock d offset b = .ok d') :
    offset < p.size ∧ d.writeBlock (p.offset + offset) b = .ok d' := by
  unfold writeBlock at h
  split_ifs at h with ho
  exact ⟨Nat.lt_of_not_le ho, h⟩

theorem readBlock_writeBlock_self (h : p.writeBlock d offset b = .ok d') (o : ℕ) :
    p.readBlock d' o = (p.readBlock d o).map fun old => if offset = o then b else old := by
  have hread := ArrayDevice.readBlock_writeBlock (j := p.offset + o) (writeBlock_ok h).2
  unfold readBlock
  by_cases ho : o ≥ p.size
  · rw [if_pos ho, if_pos ho]
    rfl
  · rw [if_neg ho, if_neg ho]
    simp only [hread, Nat.add_left_cancel_iff]

/-- A block that cannot be written cannot be read. -/
theorem readBlock_of_writeBlock_error {e : FsError} (h : p.writeBlock d offset b = .error e) :
    p.readBlock d offset = .error e := by
  unfold writeBlock at h
  unfold readBlock
  by_cases ho : offset ≥ p.size
  · rw [if_pos ho] at h ⊢
    cases h
    rfl
  · rw [if_neg ho] at h ⊢
    exact ArrayDevice.readBlock_of_writeBlock_error h

/-- A write changes no block outside the range of the partition. -/
theorem readBlock_writeBlock_out (h : p.writeBlock d offset b = .ok d') {i : ℕ} (hi : i ∉ p.range) :
    d'.readBlock i = d.readBlock i := by
  obtain ⟨ho, hwrite⟩ := writeBlock_ok h
  have hne : p.offset + offset ≠ i := by
    rintro rfl
    exact hi ⟨Nat.le_add_right _ _, Nat.add_lt_add_left ho _⟩
  rw [ArrayDevice.readBlock_writeBlock hwrite]
  simp only [if_neg hne]
  exact except_map_self _

theorem readBlock_writeBlock_other (h : p.writeBlock d offset b = .ok d')
    (hdisjoint : Disjoint p.range q.range) (o : ℕ) : q.readBlock d' o = q.readBlock d o := by
  unfold readBlock
  split_ifs with ho
  · rfl
  · refine readBlock_writeBlock_out h fun hmem => ?_
    exact Set.disjoint_left.mp hdisjoint hmem
      ⟨Nat.le_add_right _ _, Nat.add_lt_add_left (Nat.lt_of_not_le ho) _⟩

end Partition

section

variable {parts : List Partition} {d : ArrayDevice B} {c : Call parts.length B}

theorem after_write_ok {k : Fin parts.length} {offset : ℕ} {b : B} {d' : ArrayDevice B}
    (h : parts[k].writeBlock d offset b = .ok d') : after parts d (.writeBlock k offset b) = d' := by
  rw [after, h]

theorem readBlock_after_other (hdisjoint : parts.Pairwise fun p q => Disjoint p.range q.range)
    {k : Fin parts.length} (hk : k ≠ c.part) (o : ℕ) :
    parts[k].readBlock (after parts d c) o = parts[k].readBlock d o := by
  cases c with
  | readBlock j offset => rfl
  | writeBlock j offset b =>
      cases hwrite : parts[j].writeBlock d offset b with
      | error e => rw [after, hwrite]
      | ok d' =>
          rw [after_write_ok hwrite]
          refine Partition.readBlock_writeBlock_other hwrite ?_ o
          rcases Nat.lt_or_gt_of_ne fun he : j.val = k.val => hk (Fin.ext he.symm) with hlt | hlt
          · exact List.pairwise_iff_getElem.mp hdisjoint j k j.isLt k.isLt hlt
          · exact (List.pairwise_iff_getElem.mp hdisjoint k j k.isLt j.isLt hlt).symm

theorem readBlock_after (hdisjoint : parts.Pairwise fun p q => Disjoint p.range q.range)
    (k : Fin parts.length) (o : ℕ) :
    parts[k].readBlock (after parts d c) o =
      (parts[k].readBlock d o).map fun old => (c.written k o).getD old := by
  by_cases hk : k = c.part
  · subst hk
    cases c with
    | readBlock j offset => exact (except_map_self _).symm
    | writeBlock j offset b =>
        have hwritten : ∀ old, ((Call.writeBlock j offset b).written j o).getD old =
            if offset = o then b else old := fun old => by
          by_cases ho : offset = o <;> simp [Call.written, ho]
        simp only [Call.part, hwritten]
        cases hwrite : parts[j].writeBlock d offset b with
        | ok d' =>
            rw [after_write_ok hwrite]
            exact Partition.readBlock_writeBlock_self hwrite o
        | error e =>
            rw [after, hwrite]
            by_cases ho : offset = o
            · -- the write fails where the read does
              subst ho
              rw [Partition.readBlock_of_writeBlock_error hwrite]
              rfl
            · simp only [if_neg ho]
              exact (except_map_self _).symm
  · rw [readBlock_after_other hdisjoint hk]
    have hwritten : c.written k o = none := by
      cases c with
      | readBlock j offset => rfl
      | writeBlock j offset b => exact if_neg fun h => hk h.1.symm
    rw [hwritten]
    exact (except_map_self _).symm

/-! ### Runs -/

theorem afterAll_concat (parts : List Partition) (d : ArrayDevice B)
    (calls : List (Call parts.length B)) (c : Call parts.length B) :
    afterAll parts d (calls ++ [c]) = after parts (afterAll parts d calls) c :=
  List.foldl_concat ..

theorem lastWritten_concat (k : Fin parts.length) (o : ℕ) (calls : List (Call parts.length B))
    (c : Call parts.length B) :
    lastWritten parts k o (calls ++ [c]) = (c.written k o).or (lastWritten parts k o calls) :=
  List.foldl_concat ..

/-- A partition reads what was written through it last. -/
theorem readBlock_afterAll (hdisjoint : parts.Pairwise fun p q => Disjoint p.range q.range)
    (calls : List (Call parts.length B)) (k : Fin parts.length) (o : ℕ) :
    parts[k].readBlock (afterAll parts d calls) o =
      (parts[k].readBlock d o).map fun b => (lastWritten parts k o calls).getD b := by
  induction calls using List.reverseRecOn with
  | nil => exact (except_map_self _).symm
  | append_singleton calls c ih =>
      rw [afterAll_concat, lastWritten_concat, readBlock_after hdisjoint, ih]
      cases parts[k].readBlock d o with
      | error e => rfl
      | ok b => cases c.written k o <;> rfl

end

/-! ### The partitions of a table -/

namespace MbrTable

theorem parts_disjoint {t : MbrTable} (h : t.DisjointRanges) :
    t.parts.Pairwise fun p q => Disjoint p.range q.range := by
  rw [parts, List.pairwise_map]
  refine (List.Pairwise.filter _ h).imp_of_mem fun ha hb hab => ?_
  exact hab (List.mem_filter.mp ha).2 (List.mem_filter.mp hb).2

theorem entryData_toList {buffer : List UInt8} {offset : ℕ} {data : Vector UInt8 16}
    (h : entryData buffer offset = .ok data) : data.toList = (buffer.drop offset).take 16 := by
  unfold entryData at h
  split_ifs at h with hlen
  cases h
  rfl

theorem parse_partitions {asRef : B → List UInt8} {inner : ArrayDevice B} {t : MbrTable}
    (h : parse asRef inner = .ok t) : ∃ block, inner.readBlock 0 = .ok block ∧
      List.Forall₂ (fun i e => e.data.toList = ((asRef block).drop (0x1BE + i * 16)).take 16)
        (List.range 4) t.partitions := by
  obtain ⟨block, hblock, h⟩ := bind_eq_ok.mp h
  obtain ⟨partitions, hpartitions, h⟩ := bind_eq_ok.mp h
  obtain rfl := pure_eq_ok.mp h
  refine ⟨block, FsResult.lift_eq_ok.mp hblock, (mapM_eq_ok.mp hpartitions).imp fun i e he => ?_⟩
  obtain ⟨data, hdata, hparse⟩ := bind_eq_ok.mp he
  obtain rfl := pure_eq_ok.mp hparse
  exact entryData_toList hdata

end MbrTable

/-- **Isolation.**  In any interleaving of calls, each partition of a boot record with disjoint active
entries is a device of its own. -/
theorem partitions_isolated {asRef : B → List UInt8} {inner : ArrayDevice B} {t : MbrTable}
    (hparse : MbrTable.parse asRef inner = .ok t) (hdisjoint : t.DisjointRanges)
    (calls : List (Call t.parts.length B)) {d : ArrayDevice B}
    (hd : d = afterAll t.parts inner calls) :
    (∃ block, inner.readBlock 0 = .ok block ∧
      List.Forall₂ (fun i e => e.data.toList = ((asRef block).drop (0x1BE + i * 16)).take 16)
        (List.range 4) t.partitions) ∧
    (∀ (k : Fin t.parts.length) o, o < t.parts[k].size → t.parts[k].readBlock d o =
      (inner.readBlock (t.parts[k].offset + o)).map fun b => (lastWritten t.parts k o calls).getD b) ∧
    (∀ c : Call t.parts.length B,
      (∀ k ≠ c.part, ∀ o,
        t.parts[k].readBlock (after t.parts d c) o = t.parts[k].readBlock d o) ∧
      ∀ i ∉ t.parts[c.part].range, (after t.parts d c).readBlock i = d.readBlock i) ∧
    ∀ (k : Fin t.parts.length) o, t.parts[k].size ≤ o →
      t.parts[k].readBlock d o = .error .invalidOffset ∧
        ∀ b, t.parts[k].writeBlock d o b = .error .invalidOffset ∧
          after t.parts d (.writeBlock k o b) = d := by
  subst hd
  have hparts := MbrTable.parts_disjoint hdisjoint
  refine ⟨MbrTable.parse_partitions hparse, fun k o ho => ?_,
    fun c => ⟨fun k hk o => readBlock_after_other hparts hk o, ?_⟩,
    fun k o ho => ⟨Partition.readBlock_beyond ho, fun b => ?_⟩⟩
  · rw [readBlock_afterAll hparts, Partition.readBlock, if_neg (Nat.not_le.mpr ho)]
  · intro i hi
    cases c with
    | readBlock k o => rfl
    | writeBlock k o b =>
        cases hwrite : t.parts[k].writeBlock (afterAll t.parts inner calls) o b with
        | ok d' =>
            rw [after_write_ok hwrite]
            exact Partition.readBlock_writeBlock_out hwrite hi
        | error e => rw [after, hwrite]
  · have hwrite := Partition.writeBlock_beyond (d := afterAll t.parts inner calls) (b := b) ho
    exact ⟨hwrite, by rw [after, hwrite]⟩

/-! ### A small disk -/

/-- An active entry with small numbers. -/
def activeEntry (begin total : UInt8) : MbrPartition :=
  ⟨#v[0x80, 0, 0, 0, 6, 0, 0, 0, begin, 0, 0, 0, total, 0, 0, 0]⟩

/-- An empty entry between two active ones. -/
def smallTable : MbrTable :=
  ⟨[activeEntry 1 2, ⟨Vector.replicate 16 0⟩, activeEntry 3 1, ⟨Vector.replicate 16 0⟩]⟩

def smallInner : ArrayDevice (List UInt8) where
  blocks := [List.replicate 0x1BE 0 ++ smallTable.partitions.flatMap fun e => e.data.toList,
    [1], [2], [3]]
  beyond := .invalidOperation

theorem smallTable_disjoint : smallTable.DisjointRanges := by
  have hfirst : (activeEntry 1 2).beginLba = 1 ∧ (activeEntry 1 2).totalLba = 2 := by decide
  have hsecond : (activeEntry 3 1).beginLba = 3 := by decide
  have hempty : (⟨Vector.replicate 16 0⟩ : MbrPartition).isActive = false := by decide
  unfold MbrTable.DisjointRanges smallTable
  simp only [List.pairwise_cons, List.mem_cons, List.not_mem_nil, or_false, forall_eq_or_imp,
    forall_eq, hempty, hfirst, hsecond]
  simp

/-- The second partition is not touched by a write through the first one. -/
theorem partitions_isolated_example :
    smallTable.parts[1].readBlock (afterAll smallTable.parts smallInner
      [.writeBlock (0 : Fin 2) 1 [9], .writeBlock (1 : Fin 2) 0 [8], .writeBlock (0 : Fin 2) 0 [7]]) 0 =
      .ok [8] := by
  have hparse : MbrTable.parse id smallInner = .ok smallTable := by decide +kernel
  exact (partitions_isolated hparse smallTable_disjoint _ rfl).2.1 (1 : Fin 2) 0 (by decide)

end Ysos.Storage
