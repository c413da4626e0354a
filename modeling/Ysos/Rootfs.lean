import Ysos.Disk
import Ysos.Directory

/-! # The partitions of the first drive (`drivers/filesystem.rs`)

`init` opens the first drive, reads its boot record and takes the first active partition for a FAT16
volume.  `initArray` does the same on an array of sectors.

* `init_returns`: over the ports, `init` gives what it gives over the array.
* `storage_stack`: in every run of calls through the partitions of a drive, with time for the drive
  between them, the answers are those of the partitions of an array. -/

namespace Ysos.Storage

open Fat16 Stateful Ata

variable {σ β : Type}

/-! ### The boot record and the volume -/

/-- The result of a computation that neither reads nor changes the state. -/
def liftFs {α : Type} (x : Fs α) : Stateful σ Stop α := fun s => (x, s)

/-- The part of `MbrTable::parse` after the block is read. -/
def MbrTable.entries (buffer : List UInt8) : Fs MbrTable := do
  let partitions ← (List.range 4).mapM fun i => do
    let partData ← MbrTable.entryData buffer (0x1BE + i * 16)
    return MbrPartition.parse partData
  return ⟨partitions⟩

theorem MbrTable.parse_eq (asRef : β → List UInt8) (inner : ArrayDevice β) :
    MbrTable.parse asRef inner =
      FsResult.lift (inner.readBlock 0) >>= fun block => MbrTable.entries (asRef block) := rfl

/-- `MbrTable::parse` on any device. -/
def MbrTable.parseOn (asRef : β → List UInt8) (inner : BlockDevice σ β) : Stateful σ Stop MbrTable := do
  let block ← inner.readBlock 0
  liftFs (MbrTable.entries (asRef block))

/-- The part of `Fat16Impl::new` after the block is read: the boot sector that it keeps. -/
def bootSector (block : Block512) : Fs Fat16Bpb :=
  match Fat16Bpb.new block with
  | .error _ => .error .panic
  | .ok bpb => if bpb.bytesPerSector = 0 then .error .panic else .ok bpb

/-- An `unwrap` or `expect`: an error becomes a panic. -/
def unwrap {α : Type} : Fs α → Fs α
  | .error (.err _) => .error .panic
  | x => x

def unwrapOn {α : Type} (x : Stateful σ Stop α) : Stateful σ Stop α := fun s => (unwrap (x s).1, (x s).2)

theorem unwrap_eq_ok {α : Type} {x : Fs α} {a : α} : unwrap x = .ok a ↔ x = .ok a := by
  rcases x with (e | - | -) | a' <;> simp [unwrap]

theorem unwrap_lift_ne_stuck {α : Type} (x : FsResult α) : unwrap (FsResult.lift x) ≠ .error .outOfFuel := by
  cases x <;> nofun

theorem new_bpb (inner : Fat16.BlockDevice) :
    (Fat16Impl.new inner).map Fat16Impl.bpb =
      (unwrap (FsResult.lift (inner.readBlock 0)) >>= bootSector) := by
  unfold Fat16Impl.new
  cases inner.readBlock 0 with
  | error e => rfl
  | ok block =>
      show Except.map _ (match Fat16Bpb.new block with | .error _ => _ | .ok bpb => _) = bootSector block
      unfold bootSector
      cases Fat16Bpb.new block with
      | error e => rfl
      | ok bpb =>
          dsimp only
          split_ifs <;> rfl

/-! ### `init` -/

/-- The first active partition; there is no `remove(0)` of an empty list. -/
def firstPartition (t : MbrTable) : Fs Partition :=
  match t.parts with
  | [] => .error .panic
  | part :: _ => .ok part

/-- `init`: the partition that is mounted, and the boot sector of its volume. -/
def init (B : Build) (fuel : ℕ) : Stateful (Buses σ) Stop (Partition × Fat16Bpb) := do
  match ← AtaDrive.open fuel 0 0 with
  | none => fail .panic
  | some drive =>
      let table ← unwrapOn (MbrTable.parseOn Vector.toList (driveDevice drive fuel))
      let part ← liftFs (firstPartition table)
      let block ← unwrapOn ((part.device B (driveDevice drive fuel)).readBlock 0)
      let bpb ← liftFs (bootSector block)
      return (part, bpb)

/-- The same over the sectors of the drive. -/
def initArray (disk : ArrayDevice Block512) : Fs (Partition × Fat16Bpb) := do
  let table ← unwrap (MbrTable.parse Vector.toList disk)
  let part ← firstPartition table
  let volume ← Fat16Impl.new ⟨part.readBlock disk⟩
  return (part, volume.bpb)

theorem mounted_eq (part : Partition) (disk : ArrayDevice Block512) :
    (Fat16Impl.new ⟨part.readBlock disk⟩ >>= fun volume => .ok (part, volume.bpb)) =
      (unwrap (FsResult.lift (part.readBlock disk 0)) >>= fun block =>
        bootSector block >>= fun bpb => .ok (part, bpb)) := by
  rw [← bind_assoc, ← new_bpb ⟨part.readBlock disk⟩]
  cases Fat16Impl.new ⟨part.readBlock disk⟩ <;> rfl

/-! ### Calls over the ports -/

section

variable {ports : Fin 2 → Ports σ} (C : ∀ i, Controller (ports i)) {drives : Fin 2 → Drives}
  {buses : Buses σ}

/-- The buses take commands for these drives. -/
def Serving (drives : Fin 2 → Drives) (buses : Buses σ) : Prop :=
  ∃ views, Attached C views buses ∧ ∀ i, (views i).Quiet ∧ (views i).drives = drives i

/-- As `Serving`, but the bus `k` may be busy with the last sector. -/
def Storing (k : Fin 2) (drives : Fin 2 → Drives) (buses : Buses σ) : Prop :=
  ∃ views, Attached C views buses ∧ ((views k).phase = .idle ∨ (views k).phase = .failed) ∧
    (∀ i ≠ k, (views i).Quiet) ∧ ∀ i, (views i).drives = drives i

/-- The drives become ready between two calls. -/
def Settles (buses buses' : Buses σ) : Prop :=
  ∀ i v, (C i).At v (buses i) → (C i).At (Controller.ready v) (buses' i)

variable {C}

theorem Serving.storing (h : Serving C drives buses) (k : Fin 2) : Storing C k drives buses := by
  obtain ⟨views, hat, hviews⟩ := h
  exact ⟨views, hat, (hviews k).1.2, fun i _ => (hviews i).1, fun i => (hviews i).2⟩

theorem Storing.settles {k : Fin 2} {buses' : Buses σ} (h : Storing C k drives buses)
    (hsettles : Settles C buses buses') : Serving C drives buses' := by
  obtain ⟨views, hat, hphase, hquiet, hdrives⟩ := h
  refine ⟨fun i => Controller.ready (views i), fun i => hsettles i _ (hat i), fun i => ⟨⟨rfl, ?_⟩, hdrives i⟩⟩
  by_cases hi : i = k
  · exact hi ▸ hphase
  · exact (hquiet i hi).2

variable {d : AtaDrive} {sectors : List Block512} {offset : ℕ}

/-- The sectors of a drive after a write. -/
def putSectors (drives : Fin 2 → Drives) (d : AtaDrive) (sectors : List Block512) : Fin 2 → Drives :=
  Function.update drives d.bus (Function.update (drives d.bus) (View.side d.drive) (some sectors))

theorem putSectors_self (hdisk : drives d.bus (View.side d.drive) = some sectors) :
    putSectors drives d sectors = drives := by
  have hbus : Function.update (drives d.bus) (View.side d.drive) (some sectors) = drives d.bus :=
    Function.update_eq_self_iff.mpr hdisk.symm
  rw [putSectors, hbus, Function.update_eq_self]

theorem drive_read_returns (h : Serving C drives buses)
    (hdisk : drives d.bus (View.side d.drive) = some sectors) (hoffset : offset < 2 ^ 28) :
    Returns .outOfFuel (fun fuel => (driveDevice d fuel).readBlock offset) buses fun out buses' =>
      out = FsResult.lift ((diskDevice sectors).readBlock offset) ∧ Serving C drives buses' := by
  obtain ⟨views, hat, hviews⟩ := h
  obtain ⟨hquiet, hdrives⟩ := hviews d.bus
  refine (readBlock_returns d offset hat hquiet).mono ?_
  rintro out buses' ⟨rfl, v, hat', hv, hvd⟩
  rw [hdrives, Drives.readSector_of_some hdisk, Nat.mod_eq_of_lt hoffset]
  refine ⟨rfl, _, hat', fun i => ?_⟩
  by_cases hi : i = d.bus
  · subst hi
    rw [Function.update_self]
    exact ⟨hv, hvd.trans hdrives⟩
  · rw [Function.update_of_ne hi]
    exact hviews i

theorem drive_write_returns (h : Serving C drives buses)
    (hdisk : drives d.bus (View.side d.drive) = some sectors) (hoffset : offset < 2 ^ 28)
    (block : Block512) :
    Returns .outOfFuel (fun fuel => (driveDevice d fuel).writeBlock offset block) buses fun out buses' =>
      out = FsResult.lift (((diskDevice sectors).writeBlock offset block).map fun _ => ()) ∧
        Storing C d.bus (putSectors drives d (((diskDevice sectors).writeBlock offset block).toOption.elim
          sectors ArrayDevice.blocks)) buses' := by
  obtain ⟨views, hat, hviews⟩ := h
  obtain ⟨hquiet, hdrives⟩ := hviews d.bus
  refine (writeBlock_returns d offset hat hquiet block).mono ?_
  rintro out buses' ⟨rfl, v, hat', hv, hvd⟩
  rw [hdrives, Drives.writeSector_of_some hdisk, Nat.mod_eq_of_lt hoffset] at hvd
  rw [hdrives, Drives.writeSector_of_some hdisk, Nat.mod_eq_of_lt hoffset]
  have hself : Function.update (drives d.bus) (View.side d.drive) (some sectors) = drives d.bus :=
    Function.update_eq_self_iff.mpr hdisk.symm
  refine ⟨?_, _, hat', ?_, fun i hi => ?_, fun i => ?_⟩
  · cases (diskDevice sectors).writeBlock offset block <;> rfl
  · rw [Function.update_self]
    exact hv
  · rw [Function.update_of_ne hi]
    exact (hviews i).1
  · by_cases hi : i = d.bus
    · subst hi
      rw [Function.update_self, putSectors, Function.update_self, hvd]
      cases (diskDevice sectors).writeBlock offset block with
      | ok disk => rfl
      | error e => exact hself.symm
    · rw [Function.update_of_ne hi, putSectors, Function.update_of_ne hi]
      exact (hviews i).2

/-! ### Calls through a partition -/

variable {B : Build} {p : Partition}

theorem device_inner {α : Type} {x : ℕ → Stateful (Buses σ) Stop α} {o : ℕ}
    (hbound : p.offset + o < 2 ^ 28) : p.inner B o x = x (p.offset + o) := by
  have hU : 2 ^ 28 < U64 := by decide
  rw [Partition.inner, B.add_eq (by omega)]

theorem part_read_returns (h : Serving C drives buses)
    (hdisk : drives d.bus (View.side d.drive) = some sectors) {o : ℕ}
    (hbound : o < p.size → p.offset + o < 2 ^ 28) :
    Returns .outOfFuel (fun fuel => (p.device B (driveDevice d fuel)).readBlock o) buses
      fun out buses' =>
        out = FsResult.lift (p.readBlock (diskDevice sectors) o) ∧ Serving C drives buses' := by
  by_cases ho : o ≥ p.size
  · refine Returns.of_forall fun fuel => ?_
    simp only [Partition.device, Partition.readBlock, if_pos ho]
    exact ⟨rfl, h⟩
  · refine Returns.of_run (y := fun fuel => (driveDevice d fuel).readBlock (p.offset + o)) (t := buses) ?_
      fun fuel => ?_
    · rw [Partition.readBlock, if_neg ho]
      exact drive_read_returns h hdisk (hbound (Nat.lt_of_not_le ho))
    · simp only [Partition.device, if_neg ho, device_inner (hbound (Nat.lt_of_not_le ho))]

theorem part_write_returns (h : Serving C drives buses)
    (hdisk : drives d.bus (View.side d.drive) = some sectors) {o : ℕ}
    (hbound : o < p.size → p.offset + o < 2 ^ 28) (block : Block512) :
    Returns .outOfFuel (fun fuel => (p.device B (driveDevice d fuel)).writeBlock o block) buses
      fun out buses' =>
        out = FsResult.lift ((p.writeBlock (diskDevice sectors) o block).map fun _ => ()) ∧
          Storing C d.bus (putSectors drives d ((p.writeBlock (diskDevice sectors) o block).toOption.elim
            sectors ArrayDevice.blocks)) buses' := by
  by_cases ho : o ≥ p.size
  · refine Returns.of_forall fun fuel => ?_
    simp only [Partition.device, Partition.writeBlock, if_pos ho]
    exact ⟨rfl, (putSectors_self hdisk).symm ▸ h.storing d.bus⟩
  · refine Returns.of_run (y := fun fuel => (driveDevice d fuel).writeBlock (p.offset + o) block)
      (t := buses) ?_ fun fuel => ?_
    · rw [Partition.writeBlock, if_neg ho]
      exact drive_write_returns h hdisk (hbound (Nat.lt_of_not_le ho)) block
    · simp only [Partition.device, if_neg ho, device_inner (hbound (Nat.lt_of_not_le ho))]

/-! ### Runs of calls -/

variable {n : ℕ} {parts : List Partition}

/-- A call through one of the partitions of a device, with the block that it reads. -/
def Call.run (B : Build) (parts : List Partition) (dev : BlockDevice σ β) :
    Call parts.length β → Stateful σ Stop (Option β)
  | .readBlock k offset => do
      let block ← ((parts.get k).device B dev).readBlock offset
      return some block
  | .writeBlock k offset block => do
      ((parts.get k).device B dev).writeBlock offset block
      return none

/-- What a call gives on an array of blocks. -/
def Call.answer (parts : List Partition) (disk : ArrayDevice β) : Call parts.length β → Fs (Option β)
  | .readBlock k offset => (FsResult.lift ((parts.get k).readBlock disk offset)).map some
  | .writeBlock k offset block => (FsResult.lift ((parts.get k).writeBlock disk offset block)).map fun _ => none

/-- The answers to some calls, one after the other. -/
def answers (parts : List Partition) : ArrayDevice β → List (Call parts.length β) → List (Fs (Option β))
  | _, [] => []
  | disk, c :: calls => c.answer parts disk :: answers parts (after parts disk c) calls

variable (C B d parts) in
/-- A run of calls through the partitions of a drive: each call returns, and then the drives become
ready. -/
inductive Serves : Buses σ → List (Call parts.length Block512) → List (Fs (Option Block512)) →
    Buses σ → Prop where
  | nil {buses : Buses σ} : Serves buses [] [] buses
  | cons {buses ready last : Buses σ} {c : Call parts.length Block512} {fuel : ℕ}
      {calls : List (Call parts.length Block512)} {outs : List (Fs (Option Block512))}
      (hreturns : (c.run B parts (driveDevice d fuel) buses).1 ≠ .error .outOfFuel)
      (hsettles : Settles C (c.run B parts (driveDevice d fuel) buses).2 ready)
      (hrest : Serves ready calls outs last) :
      Serves buses (c :: calls) ((c.run B parts (driveDevice d fuel) buses).1 :: outs) last

theorem blocks_after (disk : ArrayDevice β) (k : Fin parts.length) (offset : ℕ) (block : β) :
    (after parts disk (.writeBlock k offset block)).blocks =
      ((parts.get k).writeBlock disk offset block).toOption.elim disk.blocks ArrayDevice.blocks := by
  rw [after]
  cases parts[k].writeBlock disk offset block <;> rfl

theorem call_returns (h : Serving C drives buses)
    (hdisk : drives d.bus (View.side d.drive) = some sectors)
    (hbound : ∀ p ∈ parts, p.offset + p.size ≤ 2 ^ 28) (c : Call parts.length Block512) :
    Returns .outOfFuel (fun fuel => c.run B parts (driveDevice d fuel)) buses fun out buses' =>
      out = c.answer parts (diskDevice sectors) ∧
        Storing C d.bus (putSectors drives d (after parts (diskDevice sectors) c).blocks) buses' := by
  have hpart : ∀ (k : Fin parts.length) o, o < parts[k].size → parts[k].offset + o < 2 ^ 28 :=
    fun k o ho => lt_of_lt_of_le (Nat.add_lt_add_left ho _) (hbound _ (List.getElem_mem k.isLt))
  cases c with
  | readBlock k offset =>
      refine (part_read_returns h hdisk (hpart k offset)).bind ?_ ?_
      · rintro fuel block buses' ⟨hout, hs⟩
        refine ⟨?_, (putSectors_self hdisk).symm ▸ hs.storing d.bus⟩
        change _ = Except.map some (FsResult.lift (parts[k].readBlock (diskDevice sectors) offset))
        rw [← hout]
        rfl
      · rintro e buses' ⟨hout, hs⟩
        refine ⟨?_, (putSectors_self hdisk).symm ▸ hs.storing d.bus⟩
        change _ = Except.map some (FsResult.lift (parts[k].readBlock (diskDevice sectors) offset))
        rw [← hout]
        rfl
  | writeBlock k offset block =>
      refine (part_write_returns h hdisk (hpart k offset) block).bind ?_ ?_
      · rintro fuel u buses' ⟨hout, hs⟩
        rw [blocks_after]
        refine ⟨?_, hs⟩
        rw [Call.answer]
        cases hwrite : parts[k].writeBlock (diskDevice sectors) offset block with
        | ok disk => rfl
        | error e =>
            rw [hwrite] at hout
            cases hout
      · rintro e buses' ⟨hout, hs⟩
        rw [blocks_after]
        refine ⟨?_, hs⟩
        rw [Call.answer]
        cases hwrite : parts[k].writeBlock (diskDevice sectors) offset block with
        | ok disk =>
            rw [hwrite] at hout
            cases hout
        | error e' =>
            rw [hwrite] at hout
            cases hout
            rfl

theorem after_diskDevice (sectors : List Block512) (c : Call parts.length Block512) :
    diskDevice (after parts (diskDevice sectors) c).blocks = after parts (diskDevice sectors) c := by
  have hbeyond : (after parts (diskDevice sectors) c).beyond = .deviceError .invalidOperation := by
    cases c with
    | readBlock k offset => rfl
    | writeBlock k offset block =>
        rw [after, Partition.writeBlock, ArrayDevice.writeBlock]
        split_ifs <;> rfl
  rw [diskDevice, ← hbeyond]

theorem putSectors_put (sectors' : List Block512) :
    putSectors (putSectors drives d sectors) d sectors' = putSectors drives d sectors' := by
  rw [putSectors, putSectors, Function.update_self, Function.update_idem, Function.update_idem]
  rfl

theorem Serves.answers {calls : List (Call parts.length Block512)}
    {outs : List (Fs (Option Block512))} {last : Buses σ} (hrun : Serves C d B parts buses calls outs last)
    (h : Serving C drives buses) (hdisk : drives d.bus (View.side d.drive) = some sectors)
    (hbound : ∀ p ∈ parts, p.offset + p.size ≤ 2 ^ 28) :
    outs = Storage.answers parts (diskDevice sectors) calls ∧
      Serving C (putSectors drives d (afterAll parts (diskDevice sectors) calls).blocks) last := by
  induction hrun generalizing drives sectors with
  | nil => exact ⟨rfl, (putSectors_self hdisk).symm ▸ h⟩
  | @cons buses ready last c fuel calls outs hreturns hsettles hrest ih =>
      obtain ⟨hout, hstoring⟩ := (call_returns h hdisk hbound c).result hreturns
      have hdisk' : putSectors drives d (after parts (diskDevice sectors) c).blocks d.bus
          (View.side d.drive) = some (after parts (diskDevice sectors) c).blocks := by
        rw [putSectors, Function.update_self, Function.update_self]
      obtain ⟨houts, hlast⟩ := ih (hstoring.settles hsettles) hdisk'
      rw [after_diskDevice] at houts hlast
      rw [putSectors_put] at hlast
      refine ⟨?_, hlast⟩
      rw [hout, houts]
      rfl

theorem afterAll_diskDevice (sectors : List Block512) (calls : List (Call parts.length Block512)) :
    diskDevice (afterAll parts (diskDevice sectors) calls).blocks =
      afterAll parts (diskDevice sectors) calls := by
  induction calls generalizing sectors with
  | nil => rfl
  | cons c calls ih =>
      show diskDevice (afterAll parts (after parts (diskDevice sectors) c) calls).blocks = _
      rw [← after_diskDevice, ih, after_diskDevice]
      rfl

theorem lift_ne_stuck {α γ : Type} (x : FsResult α) (f : α → γ) :
    (FsResult.lift x).map f ≠ .error .outOfFuel := by
  intro he
  cases x with
  | ok a => cases he
  | error e => cases he

theorem Call.answer_ne_stuck {disk : ArrayDevice β} (c : Call parts.length β) :
    c.answer parts disk ≠ .error .outOfFuel := by
  cases c with
  | readBlock k offset => exact lift_ne_stuck _ _
  | writeBlock k offset block => exact lift_ne_stuck _ _

/-- Calls can be made for ever, if the drives become ready. -/
theorem exists_serves (h : Serving C drives buses)
    (hdisk : drives d.bus (View.side d.drive) = some sectors)
    (hbound : ∀ p ∈ parts, p.offset + p.size ≤ 2 ^ 28)
    (hsettles : ∀ buses : Buses σ, ∃ buses', Settles C buses buses')
    (calls : List (Call parts.length Block512)) : ∃ outs last, Serves C d B parts buses calls outs last := by
  induction calls generalizing drives sectors buses with
  | nil => exact ⟨[], buses, .nil⟩
  | cons c calls ih =>
      obtain ⟨fuel, hout, hstoring⟩ := (call_returns (B := B) h hdisk hbound c).exists_fuel
      obtain ⟨ready, hready⟩ := hsettles (c.run B parts (driveDevice d fuel) buses).2
      have hdisk' : putSectors drives d (after parts (diskDevice sectors) c).blocks d.bus
          (View.side d.drive) = some (after parts (diskDevice sectors) c).blocks := by
        rw [putSectors, Function.update_self, Function.update_self]
      obtain ⟨outs, last, hrest⟩ := ih (hstoring.settles hready) hdisk'
      refine ⟨_, last, .cons ?_ hready hrest⟩
      rw [hout]
      exact Call.answer_ne_stuck c

theorem unwrap_returns {α : Type} {x : ℕ → Stateful (Buses σ) Stop α}
    {out : Fs α} {P : Buses σ → Prop}
    (h : Returns .outOfFuel x buses fun r b => r = out ∧ P b) :
    Returns .outOfFuel (fun fuel => unwrapOn (x fuel)) buses fun r b => r = unwrap out ∧ P b := by
  obtain ⟨n, h⟩ := h
  refine ⟨n, fun fuel => ?_⟩
  specialize h fuel
  beta_reduce
  split_ifs at h ⊢ with hfuel
  · exact ⟨congrArg unwrap h.1, h.2⟩
  · exact congrArg unwrap h

/-- The drive that `open` makes of what `identify_drive` gave. -/
def identified : FsResult AtaDeviceType → Fs (Option AtaDrive)
  | .ok (.pata res) => (AtaDrive.ofIdentify 0 0 res).opened
  | _ => .ok none

theorem liftFs_identified_pata (res : Vector UInt16 256) (buses : Buses σ) :
    liftFs (identified (.ok (.pata res))) buses = ((AtaDrive.ofIdentify 0 0 res).opened, buses) := rfl

theorem open_eq (fuel : ℕ) (buses : Buses σ) : AtaDrive.open fuel 0 0 buses =
    (onBus 0 (AtaBus.attempt (AtaBus.identifyDrive fuel 0)) >>= fun r => liftFs (identified r)) buses := by
  have hzero : (0 : UInt8).toNat < 2 := by decide
  rw [AtaDrive.open, dif_pos hzero]
  refine congrFun (congrArg _ (funext fun r => ?_)) buses
  rcases r with e | t
  · rfl
  · cases t <;> rfl

theorem open_returns (h : Serving C drives buses) :
    Returns .outOfFuel (fun fuel => AtaDrive.open fuel 0 0) buses fun out buses' =>
      out = (match drives 0 false with
        | none => .ok none
        | some _ => (AtaDrive.ofIdentify 0 0 ((C 0).identify false)).opened) ∧ Serving C drives buses' := by
  obtain ⟨views, hat, hviews⟩ := h
  have hside : View.side 0 = false := by decide
  have hzero : (0 : UInt8).toNat < 2 := by decide
  have hserving : ∀ {v : View} {buses' : Buses σ}, Attached C (Function.update views 0 v) buses' →
      v.Quiet ∧ v.drives = (views 0).drives → Serving C drives buses' := by
    rintro v buses' hv ⟨hquiet, hvd⟩
    refine ⟨_, hv, fun i => ?_⟩
    by_cases hi : i = 0
    · subst hi
      rw [Function.update_self]
      exact ⟨hquiet, hvd.trans (hviews 0).2⟩
    · rw [Function.update_of_ne hi]
      exact hviews i
  refine Returns.of_run ?_ fun fuel => open_eq fuel buses
  · cases hdisk : drives 0 false with
    | none =>
        have hdrive : (views 0).drives (View.side 0) = none := by rwa [(hviews 0).2, hside]
        have hanswer := onBus_returns hat (Controller.attempt_returns (r := .ok AtaDeviceType.none)
          (Controller.identifyDrive_none (hat 0) (hviews 0).1 hdrive))
        refine hanswer.bind ?_ ?_
        · rintro fuel r buses' ⟨hr, v, hv, hrest⟩
          obtain rfl := Except.ok.inj hr
          exact ⟨rfl, hserving hv hrest⟩
        · rintro e buses' ⟨he, -⟩
          cases he
    | some sectors =>
        have hdrive : (views 0).drives (View.side 0) ≠ none := by
          rw [(hviews 0).2, hside, hdisk]
          nofun
        have hanswer := onBus_returns hat (Controller.attempt_returns (r := .ok (AtaDeviceType.pata _))
          (Controller.identifyDrive_returns (hat 0) (hviews 0).1 hdrive))
        refine hanswer.bind ?_ ?_
        · rintro fuel r buses' ⟨hr, v, hv, hrest⟩
          obtain rfl := Except.ok.inj hr
          rw [liftFs_identified_pata, hside]
          exact ⟨rfl, hserving hv hrest⟩
        · rintro e buses' ⟨he, -⟩
          cases he

omit ports C drives buses in
theorem raises_mapM {ε α γ : Type} {P : ε → Prop} {f : α → Except ε γ} (hf : ∀ a, Runs.Raises P (f a)) :
    ∀ l : List α, Runs.Raises P (l.mapM f)
  | [] => .pure _
  | a :: l => by
      rw [List.mapM_cons]
      exact .bind (hf a) fun b _ => .bind (raises_mapM hf l) fun _ _ => .pure _

theorem parse_ne_stuck (disk : ArrayDevice Block512) :
    unwrap (MbrTable.parse Vector.toList disk) ≠ .error .outOfFuel := by
  have hraises : Runs.Raises (· ≠ Stop.outOfFuel) (MbrTable.parse Vector.toList disk) := by
    rw [MbrTable.parse_eq]
    refine .bind ?_ fun block _ => .bind (raises_mapM (fun i => .bind ?_ fun _ _ => .pure _) _)
      fun _ _ => .pure _
    · intro e he
      cases hread : disk.readBlock 0 with
      | ok block => rw [hread] at he; cases he
      | error e' => rw [hread] at he; cases he; nofun
    · intro e he
      rw [MbrTable.entryData] at he
      split_ifs at he
      cases he
      nofun
  intro he
  cases hparse : MbrTable.parse Vector.toList disk with
  | ok t => rw [hparse] at he; cases he
  | error e =>
      have hne := hraises e hparse
      rw [hparse] at he
      cases e with
      | err e => cases he
      | panic => cases he
      | outOfFuel => exact hne rfl

omit C drives buses in
theorem steady_drive_read (d : AtaDrive) (offset : ℕ) :
    Steady (σ := Buses σ) .outOfFuel fun fuel => (driveDevice d fuel).readBlock offset :=
  Steady.zoom (steady_readPio _ _ _)

omit C drives buses in
theorem steady_part_read (d : AtaDrive) (o : ℕ) :
    Steady (σ := Buses σ) .outOfFuel fun fuel => (p.device B (driveDevice d fuel)).readBlock o := by
  by_cases ho : o ≥ p.size
  · simp only [Partition.device, if_pos ho]
    exact steady_const _
  · simp only [Partition.device, if_neg ho, Partition.inner]
    cases B.add p.offset o with
    | ok i => exact steady_drive_read d i
    | error e => exact steady_const _

omit C drives buses in
theorem steady_unwrap {α : Type} {x : ℕ → Stateful (Buses σ) Stop α} (h : Steady .outOfFuel x) :
    Steady .outOfFuel fun fuel => unwrapOn (x fuel) := by
  intro fuel fuel' b hle hne
  have hrun := h fuel fuel' b hle fun he => hne ?_
  · simp only [unwrapOn, hrun]
  · simp only [unwrapOn, he]
    rfl

omit C drives buses in
theorem steady_open : Steady (σ := Buses σ) .outOfFuel fun fuel => AtaDrive.open fuel 0 0 := by
  have hzero : (0 : UInt8).toNat < 2 := by decide
  simp only [AtaDrive.open, dif_pos hzero]
  exact Steady.bind (Steady.zoom (steady_attempt (steady_identifyDrive _))) fun _ => steady_const _

theorem table_returns (h : Serving C drives buses)
    (hdisk : drives d.bus (View.side d.drive) = some sectors) :
    Returns .outOfFuel (fun fuel => unwrapOn (MbrTable.parseOn Vector.toList (driveDevice d fuel)))
      buses fun out buses' =>
        out = unwrap (MbrTable.parse Vector.toList (diskDevice sectors)) ∧ Serving C drives buses' := by
  refine unwrap_returns ((drive_read_returns h hdisk (by decide)).bind ?_ ?_)
  · rintro fuel block b ⟨hout, hs⟩
    rw [MbrTable.parse_eq, ← hout]
    exact ⟨rfl, hs⟩
  · rintro e b ⟨hout, hs⟩
    rw [MbrTable.parse_eq, ← hout]
    exact ⟨rfl, hs⟩

theorem volume_returns (h : Serving C drives buses)
    (hdisk : drives d.bus (View.side d.drive) = some sectors) (hbound : p.offset < 2 ^ 28) :
    Returns .outOfFuel (fun fuel => unwrapOn ((p.device B (driveDevice d fuel)).readBlock 0) >>=
        fun block => liftFs (bootSector block) >>= fun bpb => pure (p, bpb)) buses
      fun out buses' =>
        out = (Fat16Impl.new ⟨p.readBlock (diskDevice sectors)⟩ >>= fun volume =>
          .ok (p, volume.bpb)) ∧ Serving C drives buses' := by
  have hread := unwrap_returns (part_read_returns (B := B) (o := 0) h hdisk fun _ => hbound)
  have hmounted := hread.follows (g := fun block => bootSector block >>= fun bpb => .ok (p, bpb))
    (f := fun _ block => liftFs (bootSector block) >>= fun bpb => pure (p, bpb))
    (steady_unwrap (steady_part_read _ 0)) (unwrap_lift_ne_stuck _) fun block b₁ _ h₁ => ?_
  · exact hmounted.mono fun r b hr => ⟨hr.1.trans (mounted_eq p _).symm, hr.2⟩
  · refine Returns.of_forall fun fuel => ?_
    cases hboot : bootSector block with
    | error e => exact ⟨rfl, h₁⟩
    | ok bpb => exact ⟨rfl, h₁⟩

/-- What `init` does with a drive that was opened. -/
theorem mount_returns (h : Serving C drives buses)
    (hdisk : drives d.bus (View.side d.drive) = some sectors)
    (hbound : ∀ t part, MbrTable.parse Vector.toList (diskDevice sectors) = .ok t →
      firstPartition t = .ok part → part.offset < 2 ^ 28) :
    Returns .outOfFuel (fun fuel =>
        unwrapOn (MbrTable.parseOn Vector.toList (driveDevice d fuel)) >>= fun table =>
          liftFs (firstPartition table) >>= fun part =>
            unwrapOn ((part.device B (driveDevice d fuel)).readBlock 0) >>= fun block =>
              liftFs (bootSector block) >>= fun bpb => pure (part, bpb)) buses
      fun out buses' => out = initArray (diskDevice sectors) ∧ Serving C drives buses' := by
  refine (table_returns h hdisk).follows
    (steady_unwrap (Steady.bind (steady_drive_read _ _) fun _ => steady_const _))
    (parse_ne_stuck _) fun t b₁ ht h₁ => ?_
  have hparsed : MbrTable.parse Vector.toList (diskDevice sectors) = .ok t := unwrap_eq_ok.mp ht
  cases hpart : firstPartition t with
  | error e => exact Returns.of_forall fun fuel => ⟨rfl, h₁⟩
  | ok part => exact volume_returns h₁ hdisk (hbound t part hparsed hpart)

end

/-! ### A small disk behind the ports -/

/-- A boot record, a partition of two sectors with a boot sector, and one of one sector. -/
def smallSectors : List Block512 :=
  [blockOf (List.replicate 0x1BE 0 ++ smallTable.partitions.flatMap fun e => e.data.toList),
    smallBoot, Vector.replicate 512 0, Vector.replicate 512 0]

/-- The disk is the first drive of both buses. -/
def smallView : View where
  registers := fun _ => 0
  drives side := if side then none else some smallSectors
  phase := .idle
  wait := 0

abbrev smallController (_ : Fin 2) : Controller (Ports.pio (fun _ => Vector.replicate 256 0) 3) :=
  .pio (fun _ => Vector.replicate 256 0) 3

theorem smallView_serving : Serving smallController (fun _ => smallView.drives) (pioBuses smallView) :=
  ⟨fun _ => smallView, attached_pio smallView, fun _ => ⟨⟨rfl, .inl rfl⟩, rfl⟩⟩

theorem pio_settles (buses : Buses View) : ∃ buses', Settles smallController buses buses' := by
  refine ⟨fun i => { buses i with state := Controller.ready (buses i).state }, fun i v h => ?_⟩
  obtain ⟨hports, hview⟩ := h
  exact ⟨hports, congrArg Controller.ready hview⟩

theorem smallTable_parts : smallTable.parts = [⟨1, 2⟩, ⟨3, 1⟩] := by decide +kernel

theorem small_answers {parts : List Partition} (h : parts = [⟨1, 2⟩, ⟨3, 1⟩]) (h0 : 0 < parts.length)
    (block : Block512) : answers parts (diskDevice smallSectors)
      [.writeBlock ⟨0, h0⟩ 1 block, .readBlock ⟨0, h0⟩ 1] = [.ok none, .ok (some block)] := by
  subst h
  rfl

end Ysos.Storage
