import Ysos.Stateful
import Ysos.Text

/-! # ATA drives (`drivers/ata`)

`AtaBus` is a bus with the devices on it, which are anything that answers to reads and writes of the
ports (`Ports`); `registers` has what was written last to each of the registers of a command.  The loop
of `poll` has no bound and is given fuel.

* `AtaBus.writeCommand`: the command registers are written, then the status is polled.
* `AtaDrive.open`: a drive from the answer to `IDENTIFY`; its log line shows the size (`humanizedSize`).
* `AtaBus.address_readPio`, `AtaBus.address_writePio`: the sector that the registers hold after a
  transfer, whatever its result.
* `sector_addresses_iff`: it is the sector of the offset exactly below `2 ^ 28`.
* `first_sector_overwritten`: the offset `2 ^ 28` is accepted, as the sector 0. -/

namespace Ysos.Ata

open Fat16 Stateful
open Text (trim)

/-! ### Ports -/

inductive InPort where
  | error | lbaMid | lbaHigh | status | alternateStatus
  deriving DecidableEq

inductive OutPort where
  | sectorCount | lbaLow | lbaMid | lbaHigh | drive | command
  deriving DecidableEq

/-- The devices of a bus; a read may change them. -/
structure Ports (σ : Type) where
  readByte : InPort → σ → UInt8 × σ
  writeByte : OutPort → UInt8 → σ → σ
  readData : σ → UInt16 × σ
  writeData : UInt16 → σ → σ

/-- The value that was written last to each register. -/
abbrev Registers := OutPort → UInt8

/-- The number of the sector in the registers, with its upper four bits in the one of the drive. -/
def Registers.address (r : Registers) : ℕ :=
  (r .lbaLow).toNat + 2 ^ 8 * (r .lbaMid).toNat + 2 ^ 16 * (r .lbaHigh).toNat +
    2 ^ 24 * (r .drive &&& 0x0F).toNat

structure AtaBus (σ : Type) where
  ports : Ports σ
  state : σ
  registers : Registers

/-- The bits of the status that are used. -/
def BUSY : UInt8 := 0x80
def DATA_REQUEST_READY : UInt8 := 0x08
def ERROR : UInt8 := 0x01

/-- The commands that are used, by their numbers. -/
inductive AtaCommand where
  | readPio | writePio | identifyDevice
  deriving DecidableEq

def AtaCommand.toByte : AtaCommand → UInt8
  | .readPio => 0x20
  | .writePio => 0x30
  | .identifyDevice => 0xEC

inductive AtaDeviceType where
  | pata (res : Vector UInt16 256)
  | pataPi | sata | sataPi | none
  deriving DecidableEq

/-! ### The bus -/

namespace AtaBus

variable {σ : Type}

/-- A computation on a bus. -/
abbrev Run (σ : Type) := Stateful (AtaBus σ) Stop

def readByte (p : InPort) : Run σ UInt8 := modifyGet fun b =>
  ((b.ports.readByte p b.state).1, { b with state := (b.ports.readByte p b.state).2 })

def writeByte (p : OutPort) (v : UInt8) : Run σ Unit := modifyGet fun b =>
  ((), { b with
    state := b.ports.writeByte p v b.state
    registers := Function.update b.registers p v })

def readData : Run σ UInt16 := modifyGet fun b =>
  ((b.ports.readData b.state).1, { b with state := (b.ports.readData b.state).2 })

def writeData (v : UInt16) : Run σ Unit := modifyGet fun b =>
  ((), { b with state := b.ports.writeData v b.state })

def status : Run σ UInt8 := do
  let _ ← readByte .alternateStatus
  let _ ← readByte .alternateStatus
  let _ ← readByte .alternateStatus
  let _ ← readByte .alternateStatus
  readByte .status

def isError : Run σ Bool := do
  let s ← status
  return s &&& ERROR = ERROR

/-- The registers that `debug` reads for the log. -/
def debug : Run σ Unit := do
  let _ ← readByte .error
  let _ ← status

/-- The loop of `poll`, with the status read before. -/
def pollLoop (bit : UInt8) (val : Bool) : ℕ → UInt8 → Run σ Unit
  | fuel, s =>
      if decide (s &&& bit ≠ 0) = val then pure ()
      else
        match fuel with
        | 0 => fail .outOfFuel
        | fuel + 1 => do
            if s &&& ERROR = ERROR then debug else pure ()
            let s ← status
            pollLoop bit val fuel s

def poll (fuel : ℕ) (bit : UInt8) (val : Bool) : Run σ Unit := do
  let s ← status
  pollLoop bit val fuel s

/-- The second part of `write_command`, when the registers are written. -/
def awaitCommand (fuel : ℕ) : Run σ Unit := do
  let s ← status
  if s = 0 then fail (.err (.deviceError .unknownDevice))
  else do
    poll fuel BUSY false
    if ← isError then do
      debug
      fail (.err (.deviceError .invalidOperation))
    else do
      poll fuel BUSY false
      poll fuel DATA_REQUEST_READY true

def writeCommand (fuel : ℕ) (drive : UInt8) (block : UInt32) (cmd : AtaCommand) : Run σ Unit := do
  writeByte .sectorCount 1
  writeByte .lbaLow block.toUInt8
  writeByte .lbaMid (block >>> 8).toUInt8
  writeByte .lbaHigh (block >>> 16).toUInt8
  writeByte .drive ((0xE0 : UInt8) ||| ((drive &&& 1) <<< 4) ||| ((block >>> 24).toUInt8 &&& 0x0F))
  writeByte .command cmd.toByte
  awaitCommand fuel

/-- The words that `identify_drive` reads, in their order. -/
def readWords : (n : ℕ) → Run σ (Vector UInt16 n)
  | 0 => return #v[]
  | n + 1 => do
      let words ← readWords n
      let word ← readData
      return words.push word

/-- The result of a computation as a value, unless it ran out of fuel. -/
def attempt {β : Type} (x : Run σ β) : Run σ (FsResult β) := fun b =>
  match x b with
  | (.ok v, b) => (.ok (.ok v), b)
  | (.error (.err e), b) => (.ok (.error e), b)
  | (.error stop, b) => (.error stop, b)

def identifyDrive (fuel : ℕ) (drive : UInt8) : Run σ AtaDeviceType := do
  match ← attempt (writeCommand fuel drive 0 .identifyDevice) with
  | .error _ =>
      let s ← status
      if s = 0 then return .none else fail (.err (.deviceError .unknownDevice))
  | .ok () =>
      poll fuel BUSY false
      let low ← readByte .lbaMid
      let high ← readByte .lbaHigh
      if low = 0x00 ∧ high = 0x00 then
        let words ← readWords 256
        return .pata words
      else if low = 0x14 ∧ high = 0xEB then return .pataPi
      else if low = 0x3C ∧ high = 0xC3 then return .sata
      else if low = 0x69 ∧ high = 0x96 then return .sataPi
      else return .none

/-- The loop of `read_pio` over the chunks of two bytes. -/
def readChunks : (len : ℕ) → Run σ (Vector UInt8 len)
  | 0 => return #v[]
  | 1 => do
      let data ← readData
      return #v[data.toUInt8]
  | len + 2 => do
      let data ← readData
      let rest ← readChunks len
      return (#v[data.toUInt8, (data >>> 8).toUInt8] ++ rest).cast (Nat.add_comm 2 len)

/-- `read_pio`, with the contents of the buffer as its result. -/
def readPio (fuel : ℕ) (drive : UInt8) (block : UInt32) (len : ℕ) : Run σ (Vector UInt8 len) := do
  writeCommand fuel drive block .readPio
  let buf ← readChunks len
  if ← isError then do
    debug
    fail (.err (.deviceError .readError))
  else return buf

/-- The loop of `write_pio`. -/
def writeChunks : List UInt8 → Run σ Unit
  | [] => return
  | [a] => writeData (UInt16.ofNat (u16FromLeBytes a 0))
  | a :: b :: rest => do
      writeData (UInt16.ofNat (u16FromLeBytes a b))
      writeChunks rest

def writePio (fuel : ℕ) (drive : UInt8) (block : UInt32) (buf : List UInt8) : Run σ Unit := do
  writeCommand fuel drive block .writePio
  writeChunks buf
  if ← isError then do
    debug
    fail (.err (.deviceError .writeError))
  else return

end AtaBus

/-! ### Drives -/

/-- The bytes that may follow the first byte of a character, and how many characters they are. -/
def followers (first : UInt8) : List (UInt8 × UInt8) :=
  let any := (0x80, 0xBF)
  if 0xC2 ≤ first ∧ first ≤ 0xDF then [any]
  else if first = 0xE0 then [(0xA0, 0xBF), any]
  else if first = 0xED then [(0x80, 0x9F), any]
  else if 0xE1 ≤ first ∧ first ≤ 0xEF then [any, any]
  else if first = 0xF0 then [(0x90, 0xBF), any, any]
  else if 0xF1 ≤ first ∧ first ≤ 0xF3 then [any, any, any]
  else if first = 0xF4 then [(0x80, 0x8F), any, any]
  else []

/-- How many of the bytes follow as they should. -/
def following : List (UInt8 × UInt8) → List UInt8 → ℕ
  | (lo, hi) :: ranges, b :: bytes => if lo ≤ b ∧ b ≤ hi then following ranges bytes + 1 else 0
  | _, _ => 0

/-- `String::from_utf8_lossy`: each longest start of a character that is not whole is replaced. -/
def fromUtf8Lossy : List UInt8 → Str
  | [] => []
  | b :: bytes =>
      let n := following (followers b) bytes
      (fromUtf8 (b :: bytes.take n)).getD [Char.ofNat 0xFFFD] ++ fromUtf8Lossy (bytes.drop n)
termination_by bytes => bytes.length
decreasing_by
  rw [List.length_drop, List.length_cons]
  omega

/-- `n as f32`: the nearest number with 24 significant bits, and of two of them the even one. -/
def asF32 (n : ℕ) : ℕ :=
  let ulp := 2 ^ (Nat.log2 n - 23)
  let down := n / ulp * ulp
  if 2 * (n % ulp) < ulp ∨ 2 * (n % ulp) = ulp ∧ n / ulp % 2 = 0 then down else down + ulp

def UNITS : List String := ["B", "KiB", "MiB", "GiB"]

/-- The loop of `humanized_size_impl` with this many units left.  Dividing by 1024 is exact. -/
def scale : ℕ → ℚ → ℕ → ℚ × ℕ
  | 0, bytes, unit => (bytes, unit)
  | n + 1, bytes, unit => if 1024 ≤ bytes then scale n (bytes / 1024) (unit + 1) else (bytes, unit)

/-- `humanized_size`; there is no unit behind the last one. -/
def humanizedSize (size : ℕ) : Fs (ℚ × String) :=
  let (bytes, unit) := scale UNITS.length (asF32 size) 0
  match UNITS[unit]? with
  | some name => .ok (bytes, name)
  | none => .error .panic

structure AtaDrive where
  bus : Fin 2
  drive : UInt8
  blocks : ℕ
  model : Str
  serial : Str
  deriving DecidableEq

/-- The two buses, `BUSES`. -/
abbrev Buses (σ : Type) := Fin 2 → AtaBus σ

/-- A computation on one of the buses. -/
def onBus {σ β : Type} (i : Fin 2) (x : AtaBus.Run σ β) : Stateful (Buses σ) Stop β :=
  zoom (fun buses => buses i) (fun b buses => Function.update buses i b) x

/-- `u16::to_be_bytes`. -/
def toBeBytes (w : UInt16) : List UInt8 := [(w >>> 8).toUInt8, w.toUInt8]

namespace AtaDrive

variable {σ : Type}

/-- The drive that `open` makes of the answer to `IDENTIFY`. -/
def ofIdentify (bus : Fin 2) (drive : UInt8) (res : Vector UInt16 256) : AtaDrive :=
  let buf := res.toList.flatMap toBeBytes
  { bus := bus
    drive := drive
    blocks := u32FromLeBytes (buf.getD 120 0) (buf.getD 121 0) (buf.getD 122 0) (buf.getD 123 0)
    model := trim (fromUtf8Lossy ((buf.drop 54).take 40))
    serial := trim (fromUtf8Lossy ((buf.drop 20).take 20)) }

variable (d : AtaDrive)

def blockCount : FsResult ℕ := .ok d.blocks

/-- `humanized_size`, which the log line of `open` shows. -/
def humanizedSize : Fs (ℚ × String) := Ata.humanizedSize (BLOCK_SIZE * d.blocks)

/-- The drive, if there is a unit for its size. -/
def opened : Fs (Option AtaDrive) := d.humanizedSize.map fun _ => some d

/-- `open`; a bus that does not exist is out of the range of `BUSES`. -/
def «open» (fuel : ℕ) (bus drive : UInt8) : Stateful (Buses σ) Stop (Option AtaDrive) :=
  if h : bus.toNat < 2 then do
    match ← onBus ⟨bus.toNat, h⟩ (AtaBus.attempt (AtaBus.identifyDrive fuel drive)) with
    | .ok (.pata res) => fun buses => ((ofIdentify ⟨bus.toNat, h⟩ drive res).opened, buses)
    | _ => return none
  else fail .panic

/-- `read_block`; `offset as u32` drops the upper bits. -/
def readBlock (fuel offset : ℕ) : Stateful (Buses σ) Stop Block512 :=
  onBus d.bus (AtaBus.readPio fuel d.drive (UInt32.ofNat offset) BLOCK_SIZE)

def writeBlock (fuel offset : ℕ) (block : Block512) : Stateful (Buses σ) Stop Unit :=
  onBus d.bus (AtaBus.writePio fuel d.drive (UInt32.ofNat offset) block.toList)

end AtaDrive

/-! ### The number in the registers -/

/-- The lower half of the register of the drive has the last four bits of the number. -/
theorem low_bits (drive x : UInt8) :
    (((0xE0 : UInt8) ||| ((drive &&& 1) <<< 4) ||| (x &&& 0x0F)) &&& 0x0F).toNat = x.toNat % 2 ^ 4 := by
  have hdrive : ((drive &&& 1) <<< 4).toNat % 2 ^ 4 = 0 := by
    have hall : ∀ n < 256, ((UInt8.ofNat n &&& 1) <<< 4).toNat % 2 ^ 4 = 0 := by decide +kernel
    have hd := hall drive.toNat drive.toNat_lt
    rwa [UInt8.ofNat_toNat] at hd
  have hmask : ∀ y : UInt8, (y &&& 0x0F).toNat = y.toNat % 2 ^ 4 := fun y => by
    rw [UInt8.toNat_and]
    exact Nat.and_two_pow_sub_one_eq_mod y.toNat 4
  rw [hmask, UInt8.toNat_or, UInt8.toNat_or, Nat.or_mod_two_pow, Nat.or_mod_two_pow, hdrive, hmask,
    Nat.mod_mod]
  exact Nat.zero_or _

/-- The four registers together have the last 28 bits of the number. -/
theorem address_bytes (block : UInt32) : block.toUInt8.toNat + 2 ^ 8 * (block >>> 8).toUInt8.toNat +
    2 ^ 16 * (block >>> 16).toUInt8.toNat + 2 ^ 24 * ((block >>> 24).toUInt8.toNat % 2 ^ 4) =
      block.toNat % 2 ^ 28 := by
  have h := block.toNat_lt
  simp only [UInt32.toNat_toUInt8, UInt32.toNat_shiftRight, UInt32.reduceToNat, Nat.reduceMod,
    Nat.shiftRight_eq_div_pow]
  omega

/-! ### The registers after a command -/

namespace AtaBus

variable {σ : Type} {β : Type} {b : AtaBus σ}

/-- A computation that writes none of the registers. -/
abbrev Reads (x : Run σ β) : Prop := Keeps AtaBus.registers x

theorem reads_readData : Reads (readData : Run σ UInt16) := fun _ => rfl

theorem reads_writeData (v : UInt16) : Reads (writeData v : Run σ Unit) := fun _ => rfl

theorem reads_status : Reads (status : Run σ UInt8) := fun _ => rfl

theorem reads_isError : Reads (isError : Run σ Bool) := fun _ => rfl

theorem reads_debug : Reads (debug : Run σ Unit) := fun _ => rfl

theorem reads_pollLoop (bit : UInt8) (val : Bool) : ∀ (fuel : ℕ) (s : UInt8),
    Reads (pollLoop bit val fuel s : Run σ Unit)
  | 0, s => by
      unfold pollLoop
      exact keeps_ite (keeps_pure _) (keeps_fail _)
  | fuel + 1, s => by
      unfold pollLoop
      have hnext : Reads (do let s ← status; pollLoop bit val fuel s : Run σ Unit) :=
        keeps_bind reads_status fun s => reads_pollLoop bit val fuel s
      refine keeps_ite (keeps_pure _) (keeps_ite ?_ ?_)
      · exact keeps_bind reads_debug fun _ => hnext
      · exact hnext

theorem reads_poll (fuel : ℕ) (bit : UInt8) (val : Bool) : Reads (poll fuel bit val : Run σ Unit) :=
  keeps_bind reads_status fun s => reads_pollLoop bit val fuel s

theorem reads_readChunks : ∀ len : ℕ, Reads (readChunks len : Run σ (Vector UInt8 len))
  | 0 => keeps_pure _
  | 1 => keeps_bind reads_readData fun _ => keeps_pure _
  | len + 2 => keeps_bind reads_readData fun _ => keeps_bind (reads_readChunks len) fun _ => keeps_pure _

theorem reads_writeChunks : ∀ buf : List UInt8, Reads (writeChunks buf : Run σ Unit)
  | [] => keeps_pure _
  | [_] => reads_writeData _
  | _ :: _ :: rest => keeps_bind (reads_writeData _) fun _ => reads_writeChunks rest

theorem reads_awaitCommand (fuel : ℕ) : Reads (awaitCommand fuel : Run σ Unit) := by
  refine keeps_bind reads_status fun s => keeps_ite (keeps_fail _) ?_
  refine keeps_bind (reads_poll _ _ _) fun _ => keeps_bind reads_isError fun e => keeps_ite ?_ ?_
  · exact keeps_bind reads_debug fun _ => keeps_fail _
  · exact keeps_bind (reads_poll _ _ _) fun _ => reads_poll _ _ _

/-- Six registers are written, and then only read. -/
theorem address_writeCommand (fuel : ℕ) (drive : UInt8) (block : UInt32) (cmd : AtaCommand)
    (b : AtaBus σ) :
    (writeCommand fuel drive block cmd b).2.registers.address = block.toNat % 2 ^ 28 := by
  refine (congrArg Registers.address (reads_awaitCommand fuel _)).trans ?_
  rw [← address_bytes block, ← low_bits drive (block >>> 24).toUInt8]
  rfl

theorem address_readPio (fuel : ℕ) (drive : UInt8) (block : UInt32) (len : ℕ) (b : AtaBus σ) :
    (readPio fuel drive block len b).2.registers.address = block.toNat % 2 ^ 28 := by
  rw [← address_writeCommand fuel drive block .readPio b]
  refine congrArg Registers.address (after_bind b fun _ => ?_)
  refine keeps_bind (reads_readChunks len) fun _ => keeps_bind reads_isError fun _ => ?_
  exact keeps_ite (keeps_bind reads_debug fun _ => keeps_fail _) (keeps_pure _)

theorem address_writePio (fuel : ℕ) (drive : UInt8) (block : UInt32) (buf : List UInt8) (b : AtaBus σ) :
    (writePio fuel drive block buf b).2.registers.address = block.toNat % 2 ^ 28 := by
  rw [← address_writeCommand fuel drive block .writePio b]
  refine congrArg Registers.address (after_bind b fun _ => ?_)
  refine keeps_bind (reads_writeChunks buf) fun _ => keeps_bind reads_isError fun _ => ?_
  exact keeps_ite (keeps_bind reads_debug fun _ => keeps_fail _) (keeps_pure _)

end AtaBus

/-! ### A disk that takes every command -/

/-- The devices of a bus with a disk that is always ready and gives the same words after each command;
the state is the number of those that were read. -/
def Ports.disk (words : List UInt16) : Ports ℕ where
  readByte p i := (if p = .status ∨ p = .alternateStatus then 0x48 else 0, i)
  writeByte p _ i := if p = .command then 0 else i
  readData i := (words.getD i 0, i + 1)
  writeData _ i := i

namespace AtaBus

variable {words : List UInt16}

/-- The disk of the bus is always ready. -/
abbrev Ready (words : List UInt16) (b : AtaBus ℕ) : Prop := b.ports = .disk words

theorem ready_readData : Triple (Ready words) (readData : Run ℕ UInt16) fun _ b => Ready words b :=
  triple_modifyGet fun _ h => h

theorem ready_writeData (v : UInt16) :
    Triple (Ready words) (writeData v : Run ℕ Unit) fun _ b => Ready words b :=
  triple_modifyGet fun _ h => h

section

variable {b : AtaBus ℕ}

theorem status_ready (h : Ready words b) : status b = (.ok 0x48, b) := by
  obtain ⟨ports, state, registers⟩ := b
  cases h
  rfl

theorem isError_ready (h : Ready words b) : isError b = (.ok false, b) := by
  rw [isError, bind_ok (status_ready h)]
  rfl

/-- The loop ends at once. -/
theorem poll_ready (fuel : ℕ) {bit : UInt8} {val : Bool} (h : Ready words b)
    (hbit : decide ((0x48 : UInt8) &&& bit ≠ 0) = val) : poll fuel bit val b = (.ok (), b) := by
  have hloop : (pollLoop bit val fuel 0x48 : Run ℕ Unit) = pure () := by
    unfold pollLoop
    exact if_pos hbit
  rw [poll, bind_ok (status_ready h), hloop]
  rfl

theorem awaitCommand_ready (fuel : ℕ) (h : Ready words b) : awaitCommand fuel b = (.ok (), b) := by
  have hbusy : poll fuel BUSY false b = (.ok (), b) := poll_ready fuel h (by decide)
  rw [awaitCommand, bind_ok (status_ready h), if_neg (by decide), bind_ok hbusy,
    bind_ok (isError_ready h), if_neg Bool.false_ne_true, bind_ok hbusy]
  exact poll_ready fuel h (by decide)

theorem writeByte_bind {β : Type} (p : OutPort) (v : UInt8) (f : Unit → Run ℕ β) :
    (writeByte p v >>= f) b = f () { b with
      state := b.ports.writeByte p v b.state
      registers := Function.update b.registers p v } := rfl

theorem writeCommand_ready (fuel : ℕ) (drive : UInt8) (block : UInt32) (cmd : AtaCommand)
    (h : Ready words b) :
    ∃ c, writeCommand fuel drive block cmd b = (.ok (), c) ∧ Ready words c ∧ c.state = 0 := by
  obtain ⟨ports, state, registers⟩ := b
  cases h
  simp only [writeCommand, writeByte_bind]
  exact ⟨_, awaitCommand_ready fuel rfl, rfl, rfl⟩

end

theorem ready_readChunks : ∀ len : ℕ,
    Triple (Ready words) (readChunks len : Run ℕ (Vector UInt8 len)) fun _ b => Ready words b
  | 0 => triple_pure fun _ h => h
  | 1 => triple_bind ready_readData fun _ => triple_pure fun _ h => h
  | len + 2 => triple_bind ready_readData fun _ => triple_bind (ready_readChunks len) fun _ =>
      triple_pure fun _ h => h

theorem ready_writeChunks : ∀ buf : List UInt8,
    Triple (Ready words) (writeChunks buf : Run ℕ Unit) fun _ b => Ready words b
  | [] => triple_pure fun _ h => h
  | [_] => ready_writeData _
  | _ :: _ :: rest => triple_bind (ready_writeData _) fun _ => ready_writeChunks rest

theorem ready_readPio (fuel : ℕ) (drive : UInt8) (block : UInt32) (len : ℕ) :
    Triple (Ready words) (readPio fuel drive block len) fun _ b => Ready words b := by
  intro b h
  obtain ⟨c, hrun, hc, -⟩ := writeCommand_ready fuel drive block .readPio h
  obtain ⟨buf, d, hread, hd⟩ := ready_readChunks len c hc
  refine ⟨buf, d, ?_, hd⟩
  rw [readPio, bind_ok hrun, bind_ok hread, bind_ok (isError_ready hd)]
  rfl

theorem ready_writePio (fuel : ℕ) (drive : UInt8) (block : UInt32) (buf : List UInt8) :
    Triple (Ready words) (writePio fuel drive block buf) fun _ b => Ready words b := by
  intro b h
  obtain ⟨c, hrun, hc, -⟩ := writeCommand_ready fuel drive block .writePio h
  obtain ⟨u, d, hwrite, hd⟩ := ready_writeChunks buf c hc
  refine ⟨u, d, ?_, hd⟩
  rw [writePio, bind_ok hrun, bind_ok hwrite, bind_ok (isError_ready hd)]
  rfl

theorem ready_readWords {n : ℕ} (hn : n ≤ words.length) :
    Triple (fun b => Ready words b ∧ b.state = 0) (readWords n : Run ℕ (Vector UInt16 n)) fun ws b =>
      ws.toList = words.take n ∧ Ready words b ∧ b.state = n := by
  induction n with
  | zero => exact triple_pure fun b h => ⟨rfl, h⟩
  | succ n ih =>
      refine triple_bind (ih (Nat.le_of_succ_le hn)) fun ws => ?_
      rintro ⟨ports, state, registers⟩ ⟨hws, rfl, rfl⟩
      refine ⟨ws.push (words.getD state 0), _, rfl, ?_, rfl, rfl⟩
      rw [Vector.toList_push, hws, List.take_add_one, List.getD_eq_getElem?_getD,
        List.getElem?_eq_getElem hn]
      rfl

theorem identifyDrive_ready (fuel : ℕ) (drive : UInt8) {w : Vector UInt16 256} {b : AtaBus ℕ}
    (h : Ready w.toList b) : (identifyDrive fuel drive b).1 = .ok (.pata w) := by
  obtain ⟨c, hrun, hc, hstate⟩ := writeCommand_ready fuel drive 0 .identifyDevice h
  obtain ⟨ws, d, hread, hws, -⟩ := ready_readWords (n := 256) (by simp) c ⟨hc, hstate⟩
  have hw : ws = w := Vector.toList_inj.mp (hws.trans (by simp))
  have hattempt : attempt (writeCommand fuel drive 0 .identifyDevice) b = (.ok (.ok ()), c) := by
    rw [attempt, hrun]
  have hpoll : poll fuel BUSY false c = (.ok (), c) := poll_ready fuel hc (by decide)
  have hmid : ∀ p, p = .lbaMid ∨ p = .lbaHigh → readByte p c = (.ok 0, c) := by
    obtain ⟨ports, state, registers⟩ := c
    cases hc
    rintro p (rfl | rfl) <;> rfl
  rw [identifyDrive, bind_ok hattempt]
  show ((poll fuel BUSY false >>= _) c).1 = _
  rw [bind_ok hpoll, bind_ok (hmid _ (.inl rfl)), bind_ok (hmid _ (.inr rfl)), if_pos ⟨rfl, rfl⟩,
    bind_ok hread, hw]
  rfl

end AtaBus

/-! ### Transfers of a drive -/

/-- The call ended with an error, or the registers have the offset. -/
def Addressed {σ β : Type} (d : AtaDrive) (offset : ℕ) (out : Except Stop β × Buses σ) : Prop :=
  (∃ e, out.1 = .error (.err e)) ∨ (out.2 d.bus).registers.address = offset

/-- No transfer of the drive at this offset goes to another sector. -/
def AddressesSector (d : AtaDrive) (offset : ℕ) : Prop :=
  ∀ (σ : Type) (buses : Buses σ) (fuel : ℕ),
    Addressed d offset (d.readBlock fuel offset buses) ∧
      ∀ block, Addressed d offset (d.writeBlock fuel offset block buses)

section

variable {σ : Type} (d : AtaDrive) (fuel offset : ℕ) (buses : Buses σ)

theorem toNat_ofNat_mod : (UInt32.ofNat offset).toNat % 2 ^ 28 = offset % 2 ^ 28 := by
  rw [UInt32.toNat_ofNat']
  exact Nat.mod_mod_of_dvd offset ⟨2 ^ 4, rfl⟩

theorem address_readBlock :
    ((d.readBlock fuel offset buses).2 d.bus).registers.address = offset % 2 ^ 28 := by
  rw [← toNat_ofNat_mod, ← AtaBus.address_readPio fuel d.drive _ BLOCK_SIZE (buses d.bus)]
  exact congrArg (fun b : AtaBus σ => b.registers.address) (Function.update_self ..)

theorem address_writeBlock (block : Block512) :
    ((d.writeBlock fuel offset block buses).2 d.bus).registers.address = offset % 2 ^ 28 := by
  rw [← toNat_ofNat_mod, ← AtaBus.address_writePio fuel d.drive _ block.toList (buses d.bus)]
  exact congrArg (fun b : AtaBus σ => b.registers.address) (Function.update_self ..)

end

/-- Two buses whose disks are always ready. -/
def readyBuses (words : List UInt16) : Buses ℕ := fun _ => ⟨.disk words, 0, fun _ => 0⟩

theorem readBlock_ready (d : AtaDrive) (fuel offset : ℕ) :
    ∃ block, (d.readBlock fuel offset (readyBuses [])).1 = .ok block := by
  obtain ⟨block, b, hrun, -⟩ := AtaBus.ready_readPio fuel d.drive (UInt32.ofNat offset) BLOCK_SIZE
    (readyBuses [] d.bus) rfl
  exact ⟨block, congrArg Prod.fst hrun⟩

theorem writeBlock_ready (d : AtaDrive) (fuel offset : ℕ) (block : Block512) :
    (d.writeBlock fuel offset block (readyBuses [])).1 = .ok () := by
  obtain ⟨_, b, hrun, -⟩ := AtaBus.ready_writePio fuel d.drive (UInt32.ofNat offset) block.toList
    (readyBuses [] d.bus) rfl
  exact congrArg Prod.fst hrun

/-- The registers have 28 bits for the number of the sector, and nothing checks the offset. -/
theorem sector_addresses_iff (d : AtaDrive) (offset : ℕ) : AddressesSector d offset ↔ offset < 2 ^ 28 := by
  constructor
  · intro h
    obtain ⟨⟨e, he⟩ | haddress, -⟩ := h ℕ (readyBuses []) 0
    · obtain ⟨block, hok⟩ := readBlock_ready d 0 offset
      cases hok.symm.trans he
    · rw [address_readBlock] at haddress
      exact haddress ▸ Nat.mod_lt offset (by decide)
  · intro h σ buses fuel
    refine ⟨.inr ?_, fun block => .inr ?_⟩
    · rw [address_readBlock, Nat.mod_eq_of_lt h]
    · rw [address_writeBlock, Nat.mod_eq_of_lt h]

/-- The write behind the last sector that can be addressed succeeds, and the sector is the first one. -/
theorem first_sector_overwritten :
    let disk : AtaDrive := ⟨0, 0, 2 ^ 28, [], []⟩
    let out := disk.writeBlock 0 (2 ^ 28) (Vector.replicate 512 0) (readyBuses [])
    out.1 = .ok () ∧ (out.2 disk.bus).registers.address = 0 ∧ ¬ AddressesSector disk (2 ^ 28) := by
  refine ⟨writeBlock_ready _ _ _ _, address_writeBlock _ _ _ _ _, fun h => ?_⟩
  rcases (h ℕ (readyBuses []) 0).2 (Vector.replicate 512 0) with ⟨e, he⟩ | haddress
  · cases (writeBlock_ready _ _ _ _).symm.trans he
  · exact absurd ((address_writeBlock _ _ _ _ _).symm.trans haddress) (by decide)

end Ysos.Ata

