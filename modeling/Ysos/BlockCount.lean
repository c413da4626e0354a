import Ysos.Ata
import Ysos.Partition
import Ysos.Build

/-! # The size of a device

A `BlockDevice` is anything with the three operations of the trait, on a state that it shares with
others.  `Partition.device` is a partition over such a device, and `driveDevice` a drive.

* `Partition.sized_device_iff`: when the count of a partition is the first offset that it rejects.
* `Partition.sized_device_iff_size`: over a device that rejects no offset itself.
* `Ata.blocks_ofIdentify_iff`: when the count of a drive is the one in the answer to `IDENTIFY`.
* `Ata.opened_of_lt`, `Ata.opened_of_le`: `open` shows the size of the drive, and panics where there is
  no unit for it.
* `block_count_iff`: all of this together. -/

namespace Ysos.Storage

open Fat16 Stateful

/-- The operations of the trait; `block_size` is a constant of the type of the blocks. -/
structure BlockDevice (σ β : Type) where
  blockCount : Stateful σ Stop ℕ
  readBlock : (offset : ℕ) → Stateful σ Stop β
  writeBlock : (offset : ℕ) → β → Stateful σ Stop Unit

variable {σ β α : Type}

/-- A call that is rejected because of its offset. -/
def Rejected (out : Except Stop α × σ) : Prop := out.1 = .error (.err .invalidOffset)

/-- The offsets that the device rejects are the ones from its block count on. -/
def BlockDevice.Sized (d : BlockDevice σ β) (s : σ) : Prop :=
  ∃ n, (d.blockCount s).1 = .ok n ∧
    ∀ offset, (Rejected (d.readBlock offset s) ↔ n ≤ offset) ∧
      ∀ block, Rejected (d.writeBlock offset block s) ↔ n ≤ offset

/-- An array of blocks as a device. -/
def ArrayDevice.device : BlockDevice (ArrayDevice β) β where
  blockCount := fun d => (.ok d.blocks.length, d)
  readBlock offset := fun d => (FsResult.lift (d.readBlock offset), d)
  writeBlock offset block := fun d =>
    match d.writeBlock offset block with
    | .ok d' => (.ok (), d')
    | .error e => (.error (.err e), d)

/-- Where the device has another error for the blocks that it does not have, it rejects none. -/
theorem ArrayDevice.not_rejected {d : ArrayDevice β} (h : d.beyond ≠ .invalidOffset) (i : ℕ) :
    ¬ Rejected (device.readBlock i d) ∧ ∀ block, ¬ Rejected (device.writeBlock i block d) := by
  constructor
  · show ¬ FsResult.lift (d.readBlock i) = _
    unfold ArrayDevice.readBlock
    cases d.blocks[i]? with
    | some block => exact fun he => nomatch he
    | none => exact fun he => h (Stop.err.inj (Except.error.inj he))
  · intro block
    show ¬ (match d.writeBlock i block with
      | .ok d' => (Except.ok (), d')
      | .error e => (Except.error (Stop.err e), d)).1 = Except.error (Stop.err _)
    unfold ArrayDevice.writeBlock
    split_ifs
    · exact fun he => nomatch he
    · exact fun he => h (Stop.err.inj (Except.error.inj he))

namespace Partition

/-- A call to the block of the inner device; the sum of the offsets may overflow. -/
def inner (B : Build) (p : Partition) (offset : ℕ) (x : ℕ → Stateful σ Stop α) : Stateful σ Stop α :=
  match B.add p.offset offset with
  | .ok actualOffset => x actualOffset
  | .error _ => fail .panic

/-- The partition as a device, over any other one. -/
def device (B : Build) (p : Partition) (d : BlockDevice σ β) : BlockDevice σ β where
  blockCount := d.blockCount
  readBlock offset :=
    if offset ≥ p.size then fail (.err .invalidOffset)
    else p.inner B offset d.readBlock
  writeBlock offset block :=
    if offset ≥ p.size then fail (.err .invalidOffset)
    else p.inner B offset fun actualOffset => d.writeBlock actualOffset block

variable (B : Build) (p : Partition) (d : BlockDevice σ β) (s : σ)

/-- Of the blocks of the partition, the inner device rejects itself the ones from `n` on. -/
def RejectsFrom (n : ℕ) : Prop :=
  ∀ offset < p.size, (Rejected (p.inner B offset d.readBlock s) ↔ n ≤ offset) ∧
    ∀ block, Rejected (p.inner B offset (fun actualOffset => d.writeBlock actualOffset block) s) ↔
      n ≤ offset

variable {B p d s}

theorem inner_rejected {offset : ℕ} {x : ℕ → Stateful σ Stop α} (h : ∀ i, ¬ Rejected (x i s)) :
    ¬ Rejected (p.inner B offset x s) := by
  unfold inner
  cases B.add p.offset offset with
  | ok actualOffset => exact h actualOffset
  | error e => exact fun hr => nomatch hr

theorem rejected_of_size_le {offset : ℕ} {x : Stateful σ Stop α} (h : p.size ≤ offset) :
    Rejected ((if offset ≥ p.size then fail (.err .invalidOffset) else x) s) := by
  rw [if_pos h]
  rfl

theorem rejected_iff {offset : ℕ} {x : Stateful σ Stop α} (h : offset < p.size) :
    Rejected ((if offset ≥ p.size then fail (.err .invalidOffset) else x) s) ↔ Rejected (x s) := by
  rw [if_neg (Nat.not_le.mpr h)]

/-- The count is the one of the inner device, and the rejected offsets begin with the size. -/
theorem sized_device_iff : (p.device B d).Sized s ↔
    ∃ n, (d.blockCount s).1 = .ok n ∧ n ≤ p.size ∧ p.RejectsFrom B d s n := by
  refine exists_congr fun n => and_congr_right fun _ => ⟨fun h => ⟨?_, fun offset hlt => ?_⟩, ?_⟩
  · exact (h p.size).1.mp (rejected_of_size_le le_rfl)
  · exact ⟨(rejected_iff hlt).symm.trans (h offset).1,
      fun block => (rejected_iff hlt).symm.trans ((h offset).2 block)⟩
  · rintro ⟨hle, h⟩ offset
    rcases Nat.lt_or_ge offset p.size with hlt | hge
    · exact ⟨(rejected_iff hlt).trans (h offset hlt).1,
        fun block => (rejected_iff hlt).trans ((h offset hlt).2 block)⟩
    · have hn := hle.trans hge
      exact ⟨iff_of_true (rejected_of_size_le hge) hn,
        fun block => iff_of_true (rejected_of_size_le hge) hn⟩

/-- Over a device that rejects no offset itself, the count has to be the size. -/
theorem sized_device_iff_size (hread : ∀ i, ¬ Rejected (d.readBlock i s))
    (hwrite : ∀ i block, ¬ Rejected (d.writeBlock i block s)) :
    (p.device B d).Sized s ↔ (d.blockCount s).1 = .ok p.size := by
  rw [sized_device_iff]
  constructor
  · rintro ⟨n, hn, hle, h⟩
    rcases hle.lt_or_eq with hlt | rfl
    · exact absurd ((h n hlt).1.mpr le_rfl) (inner_rejected hread)
    · exact hn
  · intro hn
    refine ⟨p.size, hn, le_rfl, fun offset hlt => ?_⟩
    have hno := Nat.not_le.mpr hlt
    exact ⟨iff_of_false (inner_rejected hread) hno,
      fun block => iff_of_false (inner_rejected fun i => hwrite i block) hno⟩

end Partition

end Ysos.Storage

namespace Ysos.Ata

open Fat16 Stateful

/-- The two bytes of the word are the same. -/
def SameBytes (w : UInt16) : Prop := (w >>> 8).toUInt8 = w.toUInt8

instance (w : UInt16) : Decidable (SameBytes w) := inferInstanceAs (Decidable (_ = _))

theorem getD_toBeBytes (words : List UInt16) (k : ℕ) :
    (words.flatMap toBeBytes).getD (2 * k) 0 = (words.getD k 0 >>> 8).toUInt8 ∧
      (words.flatMap toBeBytes).getD (2 * k + 1) 0 = (words.getD k 0).toUInt8 := by
  induction words generalizing k with
  | nil => simp
  | cons w words ih =>
      cases k with
      | zero => exact ⟨rfl, rfl⟩
      | succ k => exact ih k

theorem toNat_bytes (w : UInt16) : w.toNat = w.toUInt8.toNat + 2 ^ 8 * (w >>> 8).toUInt8.toNat := by
  have h := w.toNat_lt
  simp only [UInt16.toNat_toUInt8, UInt16.toNat_shiftRight, UInt16.reduceToNat, Nat.reduceMod,
    Nat.shiftRight_eq_div_pow]
  omega

/-- The count is read from the two words with the bytes of each in the other order. -/
theorem blocks_ofIdentify (i : Fin 2) (drive : UInt8) (w : Vector UInt16 256) :
    (AtaDrive.ofIdentify i drive w).blocks =
      u32FromLeBytes (w[60] >>> 8).toUInt8 w[60].toUInt8 (w[61] >>> 8).toUInt8 w[61].toUInt8 := by
  have hget : ∀ k (hk : k < 256), w.toList.getD k 0 = w[k] := fun k hk => by
    rw [List.getD_eq_getElem _ _ (by simpa using hk)]
    simp
  have h60 := getD_toBeBytes w.toList 60
  have h61 := getD_toBeBytes w.toList 61
  rw [hget 60 (by decide)] at h60
  rw [hget 61 (by decide)] at h61
  rw [← h60.1, ← h60.2, ← h61.1, ← h61.2]
  rfl

theorem blocks_ofIdentify_iff (i : Fin 2) (drive : UInt8) (w : Vector UInt16 256) :
    (AtaDrive.ofIdentify i drive w).blocks = w[60].toNat + 65536 * w[61].toNat ↔
      SameBytes w[60] ∧ SameBytes w[61] := by
  rw [blocks_ofIdentify, toNat_bytes w[60], toNat_bytes w[61], u32FromLeBytes, u16FromLeBytes,
    u16FromLeBytes, SameBytes, SameBytes, ← UInt8.toNat_inj, ← UInt8.toNat_inj]
  have h1 := (w[60] >>> 8).toUInt8.toNat_lt
  have h2 := w[60].toUInt8.toNat_lt
  have h3 := (w[61] >>> 8).toUInt8.toNat_lt
  have h4 := w[61].toUInt8.toNat_lt
  omega

/-! ### The size in the log line -/

/-- The loop comes to its end only if the size is too large for all the units. -/
theorem scale_unit : ∀ (n : ℕ) (bytes : ℚ) (unit : ℕ), (scale n bytes unit).2 ≤ unit + n ∧
    ((scale n bytes unit).2 = unit + n ↔ 1024 ^ n ≤ bytes ∨ n = 0)
  | 0, bytes, unit => ⟨le_rfl, iff_of_true rfl (Or.inr rfl)⟩
  | n + 1, bytes, unit => by
      unfold scale
      split_ifs with hbytes
      · obtain ⟨hle, hiff⟩ := scale_unit n (bytes / 1024) (unit + 1)
        have hunit : unit + 1 + n = unit + (n + 1) := by omega
        rw [hunit] at hle hiff
        have hpow : 1024 ^ n ≤ bytes / 1024 ↔ 1024 ^ (n + 1) ≤ bytes := by
          rw [le_div_iff₀ (by norm_num), ← pow_succ]
        refine ⟨hle, hiff.trans ?_⟩
        rw [hpow]
        constructor
        · rintro (hle | rfl)
          · exact Or.inl hle
          · exact Or.inl (by simpa using hbytes)
        · exact Or.imp_right False.elim
      · have hlt : bytes < 1024 ^ (n + 1) := by
          refine lt_of_lt_of_le (not_le.mp hbytes) ?_
          exact le_self_pow₀ (by norm_num) n.succ_ne_zero
        refine ⟨Nat.le_add_right _ _, iff_of_false (by dsimp only; omega) ?_⟩
        rintro (hle | hn)
        · exact absurd hle (not_le.mpr hlt)
        · exact hn

/-- Rounding to 24 bits makes `2 ^ 40` of the numbers above the middle of the last two. -/
theorem asF32_lt {n : ℕ} : asF32 n < 2 ^ 40 ↔ n < 2 ^ 40 - 2 ^ 15 := by
  rcases Nat.eq_zero_or_pos n with rfl | hpos
  · decide
  have hlow := Nat.log2_self_le (Nat.ne_of_gt hpos)
  have hhigh := Nat.lt_log2_self (n := n)
  rcases Nat.lt_trichotomy n.log2 39 with hsmall | hlog | hlarge
  · -- far below, rounding adds at most a unit in the last place
    have hulp : 2 ^ (n.log2 - 23) ≤ 2 ^ 15 := Nat.pow_le_pow_right (by decide) (by omega)
    have hn : n < 2 ^ 39 := lt_of_lt_of_le hhigh (Nat.pow_le_pow_right (by decide) (by omega))
    have hdown : n / 2 ^ (n.log2 - 23) * 2 ^ (n.log2 - 23) ≤ n := Nat.div_mul_le_self _ _
    refine iff_of_true ?_ (by omega)
    unfold asF32
    dsimp only
    split_ifs <;> omega
  · rw [hlog] at hlow hhigh
    have hulp : asF32 n = if 2 * (n % 2 ^ 16) < 2 ^ 16 ∨ 2 * (n % 2 ^ 16) = 2 ^ 16 ∧ n / 2 ^ 16 % 2 = 0
        then n / 2 ^ 16 * 2 ^ 16 else n / 2 ^ 16 * 2 ^ 16 + 2 ^ 16 := by
      unfold asF32
      rw [hlog]
    rw [hulp]
    split_ifs <;> omega
  · -- the leading bit stays
    have hn : 2 ^ 40 ≤ n := le_trans (Nat.pow_le_pow_right (by decide) hlarge) hlow
    have hlead : 2 ^ n.log2 = 2 ^ 23 * 2 ^ (n.log2 - 23) := by
      rw [← pow_add]
      congr 1
      omega
    have hdown : 2 ^ n.log2 ≤ n / 2 ^ (n.log2 - 23) * 2 ^ (n.log2 - 23) := by
      rw [hlead] at hlow ⊢
      exact Nat.mul_le_mul_right _ ((Nat.le_div_iff_mul_le (Nat.two_pow_pos _)).mpr hlow)
    have hround : 2 ^ 40 ≤ asF32 n := by
      have hbig : 2 ^ 40 ≤ 2 ^ n.log2 := Nat.pow_le_pow_right (by decide) hlarge
      unfold asF32
      dsimp only
      split_ifs <;> omega
    exact iff_of_false (Nat.not_lt.mpr hround) (by omega)

/-- There is a unit for the sizes below `2 ^ 40 - 2 ^ 15`. -/
theorem humanizedSize_cases (size : ℕ) :
    (size < 2 ^ 40 - 2 ^ 15 ∧ ∃ r, humanizedSize size = .ok r) ∨
      2 ^ 40 - 2 ^ 15 ≤ size ∧ humanizedSize size = .error .panic := by
  obtain ⟨hle, hiff⟩ := scale_unit UNITS.length (asF32 size) 0
  have hlast : (scale UNITS.length (asF32 size) 0).2 = 4 ↔ ¬ size < 2 ^ 40 - 2 ^ 15 := by
    rw [← asF32_lt, not_lt]
    refine hiff.trans ((or_iff_left (by decide)).trans ?_)
    rw [show ((1024 : ℚ) ^ UNITS.length) = ((2 ^ 40 : ℕ) : ℚ) by norm_num [UNITS], Nat.cast_le]
  unfold humanizedSize
  rcases hscale : scale UNITS.length (asF32 size) 0 with ⟨bytes, unit⟩
  rw [hscale] at hle hlast
  have hle : unit ≤ 4 := hle
  by_cases hunit : unit = 4
  · subst hunit
    exact Or.inr ⟨Nat.not_lt.mp (hlast.mp rfl), rfl⟩
  · have hlt : unit < UNITS.length := Nat.lt_of_le_of_ne hle hunit
    refine Or.inl ⟨by_contra fun hno => hunit (hlast.mpr hno), ⟨bytes, UNITS[unit]⟩, ?_⟩
    dsimp only
    rw [List.getElem?_eq_getElem hlt]

/-- The number of blocks from which on `open` panics. -/
def BLOCKS_LIMIT : ℕ := 2 ^ 31 - 64

theorem opened_of_lt {d : AtaDrive} (h : d.blocks < BLOCKS_LIMIT) : d.opened = .ok (some d) := by
  rcases humanizedSize_cases (BLOCK_SIZE * d.blocks) with ⟨-, r, hr⟩ | ⟨hle, -⟩
  · rw [AtaDrive.opened, AtaDrive.humanizedSize, hr]
    rfl
  · simp only [BLOCK_SIZE, BLOCKS_LIMIT] at hle h
    omega

theorem opened_of_le {d : AtaDrive} (h : BLOCKS_LIMIT ≤ d.blocks) : d.opened = .error .panic := by
  rcases humanizedSize_cases (BLOCK_SIZE * d.blocks) with ⟨hlt, -⟩ | ⟨-, hr⟩
  · simp only [BLOCK_SIZE, BLOCKS_LIMIT] at hlt h
    omega
  · rw [AtaDrive.opened, AtaDrive.humanizedSize, hr]
    rfl

theorem open_pata {σ : Type} {fuel : ℕ} {bus drive : UInt8} {buses : Buses σ} {w : Vector UInt16 256}
    (hbus : bus.toNat < 2)
    (h : (AtaBus.identifyDrive fuel drive (buses ⟨bus.toNat, hbus⟩)).1 = .ok (.pata w)) :
    (AtaDrive.open fuel bus drive buses).1 =
      (AtaDrive.ofIdentify ⟨bus.toNat, hbus⟩ drive w).opened := by
  have hanswer : (onBus ⟨bus.toNat, hbus⟩ (AtaBus.attempt (AtaBus.identifyDrive fuel drive)) buses).1 =
      .ok (.ok (.pata w)) := by
    rcases hrun : AtaBus.identifyDrive fuel drive (buses ⟨bus.toNat, hbus⟩) with ⟨out, b⟩
    rw [hrun] at h
    cases h
    simp only [onBus, zoom, AtaBus.attempt, hrun]
  rcases hrun : onBus ⟨bus.toNat, hbus⟩ (AtaBus.attempt (AtaBus.identifyDrive fuel drive)) buses
    with ⟨out, buses'⟩
  rw [hrun] at hanswer
  cases hanswer
  rw [AtaDrive.open, dif_pos hbus, bind_ok hrun]

end Ysos.Ata

namespace Ysos.Storage

open Fat16 Stateful Ata

/-- A drive as a device on the buses. -/
def driveDevice {σ : Type} (d : AtaDrive) (fuel : ℕ) : BlockDevice (Buses σ) Block512 where
  blockCount := fun buses => (FsResult.lift d.blockCount, buses)
  readBlock := d.readBlock fuel
  writeBlock := d.writeBlock fuel

/-- Partitions have the size of their entry, and drives are opened with the size in the answer to
`IDENTIFY`. -/
theorem block_count_iff {σ β τ : Type} (B : Build) (p : Partition) (d : BlockDevice σ β) (s : σ)
    (fuel : ℕ) (bus drive : UInt8) (buses : Buses τ) (w : Vector UInt16 256) :
    ((p.device B d).Sized s ↔
      ∃ n, (d.blockCount s).1 = .ok n ∧ n ≤ p.size ∧ p.RejectsFrom B d s n) ∧
    ((∀ i, ¬ Rejected (d.readBlock i s)) → (∀ i block, ¬ Rejected (d.writeBlock i block s)) →
      ((p.device B d).Sized s ↔ (d.blockCount s).1 = .ok p.size)) ∧
    ∀ hbus : bus.toNat < 2,
      (AtaBus.identifyDrive fuel drive (buses ⟨bus.toNat, hbus⟩)).1 = .ok (.pata w) →
        ((∃ d, (AtaDrive.open fuel bus drive buses).1 = .ok (some d) ∧
          ((driveDevice d fuel).blockCount buses).1 = .ok (w[60].toNat + 65536 * w[61].toNat)) ↔
            SameBytes w[60] ∧ SameBytes w[61] ∧ w[61].toNat < 2 ^ 15) := by
  refine ⟨Partition.sized_device_iff, fun hread hwrite => Partition.sized_device_iff_size hread hwrite, ?_⟩
  intro hbus h
  rw [open_pata hbus h, ← and_assoc, ← blocks_ofIdentify_iff ⟨bus.toNat, hbus⟩ drive w]
  have hw := w[60].toNat_lt
  rcases Nat.lt_or_ge (AtaDrive.ofIdentify ⟨bus.toNat, hbus⟩ drive w).blocks BLOCKS_LIMIT with hlt | hge
  · rw [opened_of_lt hlt]
    constructor
    · rintro ⟨d, hd, hcount⟩
      obtain rfl := Option.some.inj (Except.ok.inj hd)
      have hcount := Except.ok.inj hcount
      rw [BLOCKS_LIMIT] at hlt
      exact ⟨hcount, by omega⟩
    · exact fun hcount => ⟨_, rfl, congrArg Except.ok hcount.1⟩
  · rw [opened_of_le hge]
    refine iff_of_false (fun hopen => ?_) fun hcount => ?_
    · obtain ⟨d, hd, -⟩ := hopen
      cases hd
    · obtain ⟨hcount, hsmall⟩ := hcount
      have hbytes := ((blocks_ofIdentify_iff ⟨bus.toNat, hbus⟩ drive w).mp hcount).2
      -- equal bytes below 0x80
      have h61 := toNat_bytes w[61]
      rw [hbytes] at h61
      rw [BLOCKS_LIMIT] at hge
      omega

/-- Four blocks, whose device has an error of its own. -/
def fourBlocks : ArrayDevice Bool := ⟨[true, false, true, false], .deviceError .readError⟩

/-- A partition that is the whole device, and a drive whose two words are symmetric. -/
theorem block_count_iff_example :
    ((⟨0, 4⟩ : Partition).device .release ArrayDevice.device).Sized fourBlocks ∧
      ∃ d, (AtaDrive.open 0 0 0 (readyBuses (List.replicate 256 0x0101))).1 = .ok (some d) ∧
        ((driveDevice d 0).blockCount (readyBuses (List.replicate 256 0x0101))).1 = .ok 0x01010101 := by
  have hno := ArrayDevice.not_rejected (d := fourBlocks) (by decide)
  obtain ⟨-, hpartition, hdrive⟩ := block_count_iff .release ⟨0, 4⟩ ArrayDevice.device fourBlocks 0 0 0
    (readyBuses (List.replicate 256 0x0101)) (Vector.replicate 256 0x0101)
  refine ⟨(hpartition (fun i => (hno i).1) fun i => (hno i).2).mpr rfl, ?_⟩
  obtain ⟨d, hopen, hcount⟩ := (hdrive (by decide)
    (AtaBus.identifyDrive_ready 0 0 (by rw [Vector.toList_replicate]; rfl))).mpr (by
      simp only [Vector.getElem_replicate]
      decide)
  refine ⟨d, hopen, hcount.trans ?_⟩
  simp only [Vector.getElem_replicate]
  rfl

/-- A partition of two of the four blocks rejects the third one, a drive of one block has 256, and a
drive of `0x80` blocks of `2 ^ 24` is not opened. -/
theorem block_count_wrong :
    ¬ ((⟨1, 2⟩ : Partition).device .release ArrayDevice.device).Sized fourBlocks ∧
      (∃ d, (AtaDrive.open 0 0 0 (readyBuses ((List.replicate 256 0).set 60 1))).1 = .ok (some d) ∧
        d.blocks = 256) ∧
      (AtaDrive.open 0 0 0 (readyBuses ((List.replicate 256 0).set 61 0x8080))).1 = .error .panic := by
  have hanswer : ∀ (i : ℕ) (hi : i < 256) (x : UInt16),
      (AtaBus.identifyDrive 0 0 (readyBuses ((List.replicate 256 0).set i x) 0)).1 =
        .ok (.pata ((Vector.replicate 256 0).set i x)) := fun i hi x =>
    AtaBus.identifyDrive_ready 0 0 (by
      rw [Vector.toList_set, Vector.toList_replicate]
      rfl)
  have hbus : (0 : UInt8).toNat < 2 := by decide
  refine ⟨?_, ?_, ?_⟩
  · rintro ⟨n, hn, h⟩
    have hcount : 4 = n := Except.ok.inj hn
    have hle : n ≤ 2 := (h 2).1.mp rfl
    omega
  · have hblocks : (AtaDrive.ofIdentify 0 0 ((Vector.replicate 256 0).set 60 1)).blocks = 256 := by
      rw [blocks_ofIdentify, Vector.getElem_set_self]
      decide
    refine ⟨_, (open_pata hbus (hanswer 60 (by decide) 1)).trans (opened_of_lt ?_), hblocks⟩
    exact lt_of_eq_of_lt hblocks (by decide)
  · refine (open_pata hbus (hanswer 61 (by decide) 0x8080)).trans (opened_of_le ?_)
    rw [blocks_ofIdentify, Vector.getElem_set_self]
    decide

end Ysos.Storage
