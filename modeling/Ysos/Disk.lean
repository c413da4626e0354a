import Ysos.BlockCount
import Ysos.Bounded

/-! # A disk behind the ports

What the driver relies on of the disks of a bus is in `Controller`: how the status, the registers and
the data port behave while a command is carried out.  A `View` is what a bus with its disks is doing.

* `Controller`: the laws of the ports.
* `drive_refines`: a drive that is not busy is an array of sectors, whose offsets count modulo
  `2 ^ 28`; a transfer that finds it busy does not return. -/

namespace Ysos.Ata

open Fat16 Stateful

/-! ### What a disk does -/

/-- The words of some bytes, the lower byte first. -/
def words : List UInt8 → List UInt16
  | a :: b :: rest => UInt16.ofNat (u16FromLeBytes a b) :: words rest
  | _ => []

/-- Whether a disk waits for a command, has words to be read, takes the words of a sector, or has
rejected the last command. -/
inductive Phase where
  | idle
  | sending (ws : List UInt16)
  | receiving (ws : List UInt16)
  | failed
  deriving DecidableEq

/-- The sectors of the two drives of a bus. -/
abbrev Drives := Bool → Option (List Block512)

/-- The registers of a bus, the sectors of its two drives, what the drive of the last command is
doing, and how many times the status will still be busy. -/
structure View where
  registers : Registers
  drives : Drives
  phase : Phase
  wait : ℕ

/-- The drive that the registers select. -/
def Registers.selected (r : Registers) : Bool := r .drive &&& 0x10 ≠ 0

/-- The registers have the number of a sector, and ask for one sector. -/
def Registers.OneSector (r : Registers) : Prop := r .sectorCount = 1 ∧ r .drive &&& 0x40 ≠ 0

namespace View

variable (v : View)

/-- The selected drive, if there is one. -/
def disk : Option (List Block512) := v.drives v.registers.selected

/-- The bus takes a command. -/
def Quiet : Prop := v.wait = 0 ∧ (v.phase = .idle ∨ v.phase = .failed)

/-- There is a word to be read or room for one. -/
def transfers : Bool :=
  match v.phase with
  | .sending ws => ws ≠ []
  | .receiving _ => true
  | _ => false

/-- What the status says; its other bits mean nothing while the drive is busy. -/
def Shows (s : UInt8) : Prop :=
  if v.disk = none then s = 0
  else s ≠ 0 ∧ (s &&& BUSY ≠ 0 ↔ 0 < v.wait) ∧ (s &&& ERROR = ERROR ↔ v.wait = 0 ∧ v.phase = .failed) ∧
    (v.wait = 0 → (s &&& DATA_REQUEST_READY ≠ 0 ↔ v.transfers = true))

/-- The status was read. -/
def polled : View := { v with wait := v.wait - 1 }

/-- A register is written. -/
def latch (p : OutPort) (byte : UInt8) : View :=
  { v with registers := Function.update v.registers p byte }

/-- What the selected drive does with a command. -/
def answer (identify : Bool → Vector UInt16 256) (sectors : List Block512) : AtaCommand → Phase
  | .readPio =>
      match sectors[v.registers.address]? with
      | some block => .sending (words block.toList)
      | none => .failed
  | .writePio => if v.registers.address < sectors.length then .receiving [] else .failed
  | .identifyDevice => .sending (identify v.registers.selected).toList

/-- A command is given, and the drive is busy for a while; without a drive nothing happens. -/
def start (identify : Bool → Vector UInt16 256) (cmd : AtaCommand) (wait : ℕ) : View :=
  let v := v.latch .command cmd.toByte
  match v.disk with
  | none => { v with phase := .idle }
  | some sectors => { v with phase := v.answer identify sectors cmd, wait := wait }

/-- The word is read. -/
def sent (ws : List UInt16) : View := { v with phase := if ws = [] then .idle else .sending ws }

/-- The last word of the sector has come, and the drive is busy for a while. -/
def stored (sectors : List Block512) (block : Block512) (wait : ℕ) : View :=
  { v with
    drives := Function.update v.drives v.registers.selected
      (some (sectors.set v.registers.address block))
    phase := .idle
    wait := wait }

end View

/-- The laws of the ports of a bus with PIO drives. -/
structure Controller {σ : Type} (ports : Ports σ) where
  view : σ → View
  identify : Bool → Vector UInt16 256
  status : ∀ s, (view s).Shows (ports.readByte .status s).1 ∧
    view (ports.readByte .status s).2 = (view s).polled
  readByte : ∀ s p, p ≠ .status → view (ports.readByte p s).2 = view s
  readBack : ∀ s, (ports.readByte .lbaMid s).1 = (view s).registers .lbaMid ∧
    (ports.readByte .lbaHigh s).1 = (view s).registers .lbaHigh
  latch : ∀ s p v, p ≠ .command → (view s).Quiet → view (ports.writeByte p v s) = (view s).latch p v
  busy : ∀ s p v, 0 < (view s).wait → view (ports.writeByte p v s) = view s
  command : ∀ s cmd, (view s).Quiet → (view s).registers.OneSector →
    ∃ wait, view (ports.writeByte .command cmd.toByte s) = (view s).start identify cmd wait
  readData : ∀ s w ws, (view s).wait = 0 → (view s).phase = .sending (w :: ws) →
    (ports.readData s).1 = w ∧ view (ports.readData s).2 = (view s).sent ws
  writeData : ∀ s w ws, (view s).wait = 0 → (view s).phase = .receiving ws → ws.length + 1 < 256 →
    view (ports.writeData w s) = { view s with phase := .receiving (ws ++ [w]) }
  store : ∀ s w ws sectors block, (view s).wait = 0 → (view s).phase = .receiving ws →
    (view s).disk = some sectors → words block.toList = ws ++ [w] →
      ∃ wait, view (ports.writeData w s) = (view s).stored sectors block wait

/-! ### The registers of a command -/

/-- Its upper half selects the drive and the numbering of the sectors. -/
theorem high_bits (drive x : UInt8) :
    (((0xE0 : UInt8) ||| ((drive &&& 1) <<< 4) ||| (x &&& 0x0F)) &&& 0x10 ≠ 0 ↔ drive &&& 1 ≠ 0) ∧
      ((0xE0 : UInt8) ||| ((drive &&& 1) <<< 4) ||| (x &&& 0x0F)) &&& 0x40 ≠ 0 := by
  have hmask : ∀ n < 256, (UInt8.ofNat n &&& 1 = 0 ∨ UInt8.ofNat n &&& 1 = 1) ∧
      (UInt8.ofNat n &&& 0x0F).toNat < 16 := by decide +kernel
  have hall : ∀ n < 16, ∀ d ∈ [(0 : UInt8), 1],
      (((0xE0 : UInt8) ||| (d <<< 4) ||| UInt8.ofNat n) &&& 0x10 ≠ 0 ↔ d ≠ 0) ∧
        ((0xE0 : UInt8) ||| (d <<< 4) ||| UInt8.ofNat n) &&& 0x40 ≠ 0 := by decide +kernel
  have hd := (hmask drive.toNat drive.toNat_lt).1
  have hx := (hmask x.toNat x.toNat_lt).2
  rw [UInt8.ofNat_toNat] at hd hx
  have h := hall _ hx (drive &&& 1) (by simpa using hd)
  rwa [UInt8.ofNat_toNat] at h

namespace View

/-- The registers of a command are written. -/
def programmed (v : View) (drive : UInt8) (block : UInt32) : View :=
  ((((v.latch .sectorCount 1).latch .lbaLow block.toUInt8).latch .lbaMid
    (block >>> 8).toUInt8).latch .lbaHigh (block >>> 16).toUInt8).latch .drive
      ((0xE0 : UInt8) ||| ((drive &&& 1) <<< 4) ||| ((block >>> 24).toUInt8 &&& 0x0F))

/-- The command was given, and the drive is not busy any more. -/
def commanded (v : View) (identify : Bool → Vector UInt16 256) (drive : UInt8) (block : UInt32)
    (cmd : AtaCommand) : View :=
  (v.programmed drive block).start identify cmd 0

/-- The drive of a number. -/
def side (drive : UInt8) : Bool := drive &&& 1 ≠ 0

variable (v : View) (drive : UInt8) (block : UInt32)

theorem address_programmed : (v.programmed drive block).registers.address = block.toNat % 2 ^ 28 := by
  rw [← address_bytes block, ← low_bits drive (block >>> 24).toUInt8]
  rfl

theorem selected_programmed : (v.programmed drive block).registers.selected = side drive :=
  decide_eq_decide.mpr (high_bits drive (block >>> 24).toUInt8).1

theorem oneSector_programmed : (v.programmed drive block).registers.OneSector :=
  ⟨rfl, (high_bits drive (block >>> 24).toUInt8).2⟩

theorem disk_programmed : (v.programmed drive block).disk = v.drives (side drive) :=
  congrArg v.drives (selected_programmed v drive block)

theorem stored_disk (sectors : List Block512) (block : Block512) (wait : ℕ) :
    (v.stored sectors block wait).disk = some (sectors.set v.registers.address block) :=
  Function.update_self ..

variable {v} {drive} {identify : Bool → Vector UInt16 256} {cmd : AtaCommand}

theorem start_none (h : v.drives (side drive) = none) (wait : ℕ) :
    (v.programmed drive block).start identify cmd wait =
      { (v.programmed drive block).latch .command cmd.toByte with phase := .idle } := by
  have hdisk : ((v.programmed drive block).latch .command cmd.toByte).disk = none :=
    (disk_programmed v drive block).trans h
  rw [start, hdisk]

theorem start_some {sectors : List Block512} (h : v.drives (side drive) = some sectors) (wait : ℕ) :
    (v.programmed drive block).start identify cmd wait =
      { (v.programmed drive block).latch .command cmd.toByte with
        phase := (v.programmed drive block).answer identify sectors cmd
        wait := wait } := by
  have hdisk : ((v.programmed drive block).latch .command cmd.toByte).disk = some sectors :=
    (disk_programmed v drive block).trans h
  rw [start, hdisk]
  rfl

/-- How a command ends. -/
def outcome (v : View) : Except Stop Unit :=
  if v.disk = none then .error (.err (.deviceError .unknownDevice))
  else if v.phase = .failed then .error (.err (.deviceError .invalidOperation))
  else .ok ()

theorem length_words (bytes : List UInt8) : (words bytes).length = bytes.length / 2 := by
  fun_induction words bytes with
  | case1 a b rest ih =>
      simp only [List.length_cons, ih]
      omega
  | case2 bytes h =>
      rcases bytes with _ | ⟨a, _ | ⟨b, rest⟩⟩
      · rfl
      · simp
      · exact absurd rfl (h a b rest)

theorem transfers_answer {sectors : List Block512} (h : v.answer identify sectors cmd ≠ .failed) :
    ({ v with phase := v.answer identify sectors cmd } : View).transfers = true := by
  cases cmd with
  | readPio =>
      unfold answer at h ⊢
      cases hblock : sectors[v.registers.address]? with
      | none =>
          rw [hblock] at h
          exact absurd rfl h
      | some block =>
          have hlength := length_words block.toList
          rw [Vector.length_toList] at hlength
          have hne : words block.toList ≠ [] := List.ne_nil_of_length_pos (hlength ▸ by decide)
          simpa [transfers] using hne
  | writePio =>
      unfold answer at h ⊢
      split_ifs at h ⊢ with hlt
      · rfl
      · exact absurd rfl h
  | identifyDevice =>
      simp [transfers, answer]

end View

namespace Controller

variable {σ : Type} {ports : Ports σ} (C : Controller ports) {b : AtaBus σ} {v : View}

/-- The bus has these ports, and is in this view. -/
def At (v : View) (b : AtaBus σ) : Prop := b.ports = ports ∧ C.view b.state = v

variable {C}

/-! ### The status -/

theorem status_at (h : C.At v b) : ∃ s c, AtaBus.status b = (.ok s, c) ∧ v.Shows s ∧ C.At v.polled c := by
  obtain ⟨p, s, r⟩ := b
  obtain ⟨rfl, rfl⟩ := h
  have hkeep : ∀ s, C.view (p.readByte .alternateStatus s).2 = C.view s := fun s => C.readByte s _ nofun
  obtain ⟨hshows, hview⟩ := C.status (p.readByte .alternateStatus (p.readByte .alternateStatus
    (p.readByte .alternateStatus (p.readByte .alternateStatus s).2).2).2).2
  simp only [hkeep] at hshows hview
  exact ⟨_, _, rfl, hshows, rfl, hview⟩

theorem writeByte_at (h : C.At v b) (hq : v.Quiet) {p : OutPort} (hp : p ≠ .command) (byte : UInt8) :
    ∃ c, AtaBus.writeByte p byte b = (.ok (), c) ∧ C.At (v.latch p byte) c := by
  obtain ⟨ports, s, r⟩ := b
  obtain ⟨rfl, rfl⟩ := h
  exact ⟨_, rfl, rfl, C.latch s p byte hp hq⟩

theorem polled_of_wait (h : v.wait = 0) : v.polled = v := by
  obtain ⟨r, d, p, w⟩ := v
  cases h
  rfl

theorem readByte_at (h : C.At v b) {p : InPort} (hp : p ≠ .status) :
    ∃ x c, AtaBus.readByte p b = (.ok x, c) ∧ C.At v c := by
  obtain ⟨ports, s, r⟩ := b
  obtain ⟨rfl, rfl⟩ := h
  exact ⟨_, _, rfl, rfl, C.readByte s p hp⟩

theorem debug_at (h : C.At v b) (hwait : v.wait = 0) : ∃ c, AtaBus.debug b = (.ok (), c) ∧ C.At v c := by
  obtain ⟨x, c, hread, hc⟩ := readByte_at (p := .error) h nofun
  obtain ⟨s, d, hstatus, -, hd⟩ := status_at hc
  refine ⟨d, ?_, polled_of_wait hwait ▸ hd⟩
  rw [AtaBus.debug, bind_ok hread, bind_ok hstatus]
  rfl

theorem isError_at (h : C.At v b) (hdisk : v.disk ≠ none) :
    ∃ c, AtaBus.isError b = (.ok (decide (v.wait = 0 ∧ v.phase = .failed)), c) ∧ C.At v.polled c := by
  obtain ⟨s, c, hstatus, hshows, hc⟩ := status_at h
  refine ⟨c, ?_, hc⟩
  rw [View.Shows, if_neg hdisk] at hshows
  rw [AtaBus.isError, bind_ok hstatus]
  show (Except.ok (decide _), c) = _
  rw [decide_eq_decide.mpr hshows.2.2.1]

theorem isError_false (h : C.At v b) (hdisk : v.disk ≠ none) (hphase : v.phase ≠ .failed) :
    ∃ c, AtaBus.isError b = (.ok false, c) ∧ C.At v.polled c := by
  obtain ⟨c, herror, hc⟩ := isError_at h hdisk
  rw [decide_eq_false fun hf => hphase hf.2] at herror
  exact ⟨c, herror, hc⟩

/-! ### Polling -/

/-- The drive becomes ready. -/
def ready (v : View) : View := { v with wait := 0 }

theorem ready_of_wait (h : v.wait = 0) : ready v = v := by
  obtain ⟨r, d, p, w⟩ := v
  cases h
  rfl

/-- The loop waits until the drive is not busy any more. -/
theorem pollLoop_busy {fuel : ℕ} {v₀ : View} {s : UInt8} (hshows : v₀.Shows s) (hdisk : v₀.disk ≠ none)
    (hfuel : v₀.wait ≤ fuel) (h : C.At v₀.polled b) :
    ∃ c, AtaBus.pollLoop BUSY false fuel s b = (.ok (), c) ∧ C.At (ready v₀) c := by
  induction fuel generalizing v₀ s b with
  | zero =>
      rw [View.Shows, if_neg hdisk] at hshows
      have hwait : v₀.wait = 0 := Nat.le_zero.mp hfuel
      have hfree : decide (s &&& BUSY ≠ 0) = false := decide_eq_false fun hb => by
        have := hshows.2.1.mp hb
        omega
      refine ⟨b, ?_, ?_⟩
      · unfold AtaBus.pollLoop
        rw [if_pos hfree]
        rfl
      · rwa [View.polled, hwait] at h
  | succ fuel ih =>
      have hs := hshows
      rw [View.Shows, if_neg hdisk] at hs
      unfold AtaBus.pollLoop
      by_cases hwait : v₀.wait = 0
      · have hfree : decide (s &&& BUSY ≠ 0) = false := decide_eq_false fun hb => by
          have := hs.2.1.mp hb
          omega
        refine ⟨b, ?_, ?_⟩
        · rw [if_pos hfree]
          rfl
        · rwa [View.polled, hwait] at h
      · have hbusy : ¬ decide (s &&& BUSY ≠ 0) = false := by
          have hb := hs.2.1.mpr (Nat.pos_of_ne_zero hwait)
          simpa using hb
        have herror : ¬ s &&& ERROR = ERROR := fun he => hwait (hs.2.2.1.mp he).1
        obtain ⟨s', c, hstatus, hshows', hc⟩ := status_at h
        obtain ⟨d, hloop, hd⟩ := ih hshows' hdisk (by simp only [View.polled]; omega) hc
        refine ⟨d, ?_, hd⟩
        rw [if_neg hbusy]
        dsimp only
        rw [if_neg herror]
        exact (bind_ok hstatus).trans hloop

/-- The loop gives up when the drive is busy for longer than there is fuel. -/
theorem pollLoop_short {fuel : ℕ} {s : UInt8} (hshows : v.Shows s) (hdisk : v.disk ≠ none)
    (hfuel : fuel < v.wait) (h : C.At v.polled b) :
    (AtaBus.pollLoop BUSY false fuel s b).1 = .error .outOfFuel := by
  induction fuel generalizing v s b with
  | zero =>
      rw [View.Shows, if_neg hdisk] at hshows
      unfold AtaBus.pollLoop
      rw [if_neg (by simpa using hshows.2.1.mpr hfuel)]
      rfl
  | succ fuel ih =>
      rw [View.Shows, if_neg hdisk] at hshows
      obtain ⟨s', c, hstatus, hshows', hc⟩ := status_at h
      have herror : ¬ s &&& ERROR = ERROR := fun he => by
        have := (hshows.2.2.1.mp he).1
        omega
      unfold AtaBus.pollLoop
      rw [if_neg (by simpa using hshows.2.1.mpr (by omega))]
      dsimp only
      rw [if_neg herror]
      refine (congrArg Prod.fst (bind_ok hstatus)).trans (ih hshows' hdisk ?_ hc)
      simp only [View.polled]
      omega

theorem poll_short {fuel : ℕ} (h : C.At v b) (hdisk : v.disk ≠ none) (hfuel : fuel < v.wait) :
    ∃ c, AtaBus.poll fuel BUSY false b = (.error .outOfFuel, c) := by
  obtain ⟨s, c, hstatus, hshows, hc⟩ := status_at h
  have hshort := pollLoop_short hshows hdisk hfuel hc
  exact ⟨_, (bind_ok hstatus).trans (Prod.ext hshort rfl)⟩

theorem poll_busy (fuel : ℕ) (h : C.At v b) (hdisk : v.disk ≠ none) (hfuel : v.wait ≤ fuel) :
    ∃ c, AtaBus.poll fuel BUSY false b = (.ok (), c) ∧ C.At (ready v) c := by
  obtain ⟨s, c, hstatus, hshows, hc⟩ := status_at h
  obtain ⟨d, hloop, hd⟩ := pollLoop_busy hshows hdisk hfuel hc
  exact ⟨d, (bind_ok hstatus).trans hloop, hd⟩

theorem poll_transfers (fuel : ℕ) (h : C.At v b) (hdisk : v.disk ≠ none) (hwait : v.wait = 0)
    (htransfers : v.transfers = true) :
    ∃ c, AtaBus.poll fuel DATA_REQUEST_READY true b = (.ok (), c) ∧ C.At v c := by
  obtain ⟨s, c, hstatus, hshows, hc⟩ := status_at h
  rw [View.Shows, if_neg hdisk] at hshows
  have hready : decide (s &&& DATA_REQUEST_READY ≠ 0) = true :=
    decide_eq_true ((hshows.2.2.2 hwait).mpr htransfers)
  refine ⟨c, (bind_ok hstatus).trans ?_, polled_of_wait hwait ▸ hc⟩
  unfold AtaBus.pollLoop
  rw [if_pos hready]
  rfl

theorem pollLoop_idle {fuel : ℕ} {s : UInt8} (hshows : v.Shows s) (hdisk : v.disk ≠ none)
    (hwait : v.wait = 0) (hphase : v.phase = .idle) (h : C.At v b) :
    (AtaBus.pollLoop DATA_REQUEST_READY true fuel s b).1 = .error .outOfFuel := by
  have hnot : ∀ {s}, v.Shows s → ¬ decide (s &&& DATA_REQUEST_READY ≠ 0) = true ∧ ¬ s &&& ERROR = ERROR := by
    intro s hs
    rw [View.Shows, if_neg hdisk] at hs
    refine ⟨fun hd => ?_, fun he => ?_⟩
    · have ht := (hs.2.2.2 hwait).mp (of_decide_eq_true hd)
      rw [View.transfers, hphase] at ht
      cases ht
    · have hf := (hs.2.2.1.mp he).2
      rw [hphase] at hf
      cases hf
  induction fuel generalizing s b with
  | zero =>
      unfold AtaBus.pollLoop
      rw [if_neg (hnot hshows).1]
      rfl
  | succ fuel ih =>
      obtain ⟨s', c, hstatus, hshows', hc⟩ := status_at h
      rw [polled_of_wait hwait] at hc
      unfold AtaBus.pollLoop
      rw [if_neg (hnot hshows).1]
      dsimp only
      rw [if_neg (hnot hshows).2]
      exact (congrArg Prod.fst (bind_ok hstatus)).trans (ih hshows' hc)

/-! ### Commands -/

/-- The second part of `write_command`. -/
theorem awaitCommand_at {fuel : ℕ} (h : C.At v b) (hfuel : v.wait - 1 ≤ fuel)
    (hready : v.disk ≠ none → v.phase ≠ .failed → v.transfers = true) (hnone : v.disk = none → v.wait = 0) :
    ∃ c, AtaBus.awaitCommand fuel b = (v.outcome, c) ∧ C.At (ready v) c := by
  obtain ⟨s, c, hstatus, hshows, hc⟩ := status_at h
  by_cases hdisk : v.disk = none
  · have hwait := hnone hdisk
    rw [View.Shows, if_pos hdisk] at hshows
    refine ⟨c, ?_, ?_⟩
    · rw [AtaBus.awaitCommand, bind_ok hstatus, if_pos hshows, View.outcome, if_pos hdisk]
      rfl
    · rwa [View.polled, hwait] at hc
  · rw [View.Shows, if_neg hdisk] at hshows
    obtain ⟨d, hpoll, hd⟩ := poll_busy fuel hc hdisk hfuel
    obtain ⟨e, herror, he⟩ := isError_at (v := ready v) hd hdisk
    rw [AtaBus.awaitCommand, bind_ok hstatus, if_neg hshows.1, bind_ok hpoll, bind_ok herror,
      View.outcome, if_neg hdisk]
    by_cases hfailed : v.phase = .failed
    · obtain ⟨x, hdebug, hx⟩ := debug_at he rfl
      refine ⟨x, ?_, hx⟩
      rw [if_pos (decide_eq_true ⟨rfl, hfailed⟩), if_pos hfailed, bind_ok hdebug]
      rfl
    · obtain ⟨x, hbusy, hx⟩ := poll_busy fuel he hdisk (Nat.zero_le _)
      obtain ⟨y, hdrq, hy⟩ := poll_transfers (v := ready v) fuel hx hdisk rfl (hready hdisk hfailed)
      refine ⟨y, ?_, hy⟩
      rw [if_neg (by simp [ready, hfailed]), if_neg hfailed, bind_ok hbusy]
      exact hdrq

theorem awaitCommand_short {fuel : ℕ} (h : C.At v b) (hfuel : fuel < v.wait - 1) (hdisk : v.disk ≠ none) :
    ∃ c, AtaBus.awaitCommand fuel b = (.error .outOfFuel, c) := by
  obtain ⟨s, c, hstatus, hshows, hc⟩ := status_at h
  rw [View.Shows, if_neg hdisk] at hshows
  obtain ⟨d, hpoll⟩ := poll_short hc hdisk hfuel
  refine ⟨d, ?_⟩
  rw [AtaBus.awaitCommand, bind_ok hstatus, if_neg hshows.1, bind_error hpoll]

theorem awaitCommand_returns (h : C.At v b)
    (hready : v.disk ≠ none → v.phase ≠ .failed → v.transfers = true) (hnone : v.disk = none → v.wait = 0) :
    Returns .outOfFuel (fun fuel => AtaBus.awaitCommand fuel) b fun out c =>
      out = v.outcome ∧ C.At (ready v) c := by
  refine ⟨v.wait - 1, fun fuel => ?_⟩
  beta_reduce
  split_ifs with hfuel
  · obtain ⟨c, hrun, hc⟩ := awaitCommand_at h hfuel hready hnone
    rw [hrun]
    exact ⟨rfl, hc⟩
  · obtain ⟨c, hrun⟩ := awaitCommand_short h (Nat.not_le.mp hfuel) fun hd => by
      have hwait := hnone hd
      omega
    rw [hrun]

theorem writeCommand_returns (h : C.At v b) (hq : v.Quiet) (drive : UInt8) (block : UInt32)
    (cmd : AtaCommand) :
    Returns .outOfFuel (fun fuel => AtaBus.writeCommand fuel drive block cmd) b fun out c =>
      out = (v.commanded C.identify drive block cmd).outcome ∧
        C.At (v.commanded C.identify drive block cmd) c := by
  obtain ⟨b₁, h₁, hb₁⟩ := writeByte_at h hq (p := .sectorCount) nofun 1
  obtain ⟨b₂, h₂, hb₂⟩ := writeByte_at hb₁ hq (p := .lbaLow) nofun block.toUInt8
  obtain ⟨b₃, h₃, hb₃⟩ := writeByte_at hb₂ hq (p := .lbaMid) nofun (block >>> 8).toUInt8
  obtain ⟨b₄, h₄, hb₄⟩ := writeByte_at hb₃ hq (p := .lbaHigh) nofun (block >>> 16).toUInt8
  obtain ⟨b₅, h₅, hb₅⟩ := writeByte_at hb₄ hq (p := .drive) nofun
    ((0xE0 : UInt8) ||| ((drive &&& 1) <<< 4) ||| ((block >>> 24).toUInt8 &&& 0x0F))
  change C.At (v.programmed drive block) b₅ at hb₅
  have hsector := View.oneSector_programmed v drive block
  obtain ⟨ports, s, r⟩ := b₅
  obtain ⟨rfl, hview⟩ := hb₅
  obtain ⟨wait, hcmd⟩ := C.command s cmd (hview ▸ hq) (hview ▸ hsector)
  rw [hview] at hcmd
  have hat : C.At ((v.programmed drive block).start C.identify cmd wait)
      ⟨ports, ports.writeByte .command cmd.toByte s, Function.update r .command cmd.toByte⟩ := ⟨rfl, hcmd⟩
  have hrun : ∀ fuel, AtaBus.writeCommand fuel drive block cmd b = AtaBus.awaitCommand fuel
      ⟨ports, ports.writeByte .command cmd.toByte s, Function.update r .command cmd.toByte⟩ := by
    intro fuel
    rw [AtaBus.writeCommand, bind_ok h₁, bind_ok h₂, bind_ok h₃, bind_ok h₄, bind_ok h₅]
    rfl
  refine Returns.of_run ?_ hrun
  have hdisk := View.disk_programmed v drive block
  rw [View.commanded]
  cases hdrive : v.drives (View.side drive) with
  | none =>
      rw [hdrive] at hdisk
      rw [View.start_none block hdrive] at hat ⊢
      have hself := ready_of_wait
        (v := { (v.programmed drive block).latch .command cmd.toByte with phase := .idle }) hq.1
      have hreturns := awaitCommand_returns hat (fun hsome => absurd hdisk hsome) fun _ => hq.1
      rw [hself] at hreturns
      exact hreturns
  | some sectors =>
      rw [hdrive] at hdisk
      rw [View.start_some block hdrive] at hat ⊢
      have hreturns := awaitCommand_returns hat (fun _ => View.transfers_answer)
        fun hnone => absurd (hnone.symm.trans hdisk) (Option.some_ne_none _).symm
      exact hreturns

/-! ### Transfers -/

theorem toUInt8_word (x y : UInt8) : (UInt16.ofNat (u16FromLeBytes x y)).toUInt8 = x ∧
    (UInt16.ofNat (u16FromLeBytes x y) >>> 8).toUInt8 = y := by
  have hx := x.toNat_lt
  have hy := y.toNat_lt
  have hlt := u16FromLeBytes_lt x y
  have hword : (UInt16.ofNat (u16FromLeBytes x y)).toNat = u16FromLeBytes x y :=
    UInt16.toNat_ofNat_of_lt' hlt
  constructor
  · rw [← UInt8.toNat_inj, UInt16.toNat_toUInt8, hword, u16FromLeBytes]
    omega
  · rw [← UInt8.toNat_inj, UInt16.toNat_toUInt8, UInt16.toNat_shiftRight, hword, u16FromLeBytes,
      Nat.shiftRight_eq_div_pow]
    simp only [UInt16.reduceToNat, Nat.reduceMod]
    omega

theorem readData_at {w : UInt16} {ws : List UInt16} (hwait : v.wait = 0)
    (h : C.At (v.sent (w :: ws)) b) : ∃ c, AtaBus.readData b = (.ok w, c) ∧ C.At (v.sent ws) c := by
  obtain ⟨ports, s, r⟩ := b
  obtain ⟨rfl, hview⟩ := h
  obtain ⟨hword, hnext⟩ := C.readData s w ws (hview ▸ hwait) (by rw [hview]; rfl)
  rw [hview] at hnext
  refine ⟨⟨ports, (ports.readData s).2, r⟩, ?_, rfl, hnext⟩
  rw [← hword]
  rfl

/-- The words of a sector are read as its bytes. -/
theorem readChunks_at (hwait : v.wait = 0) {l : List UInt8} {n : ℕ} (hn : l.length = n)
    (heven : n % 2 = 0) (h : C.At (v.sent (words l)) b) :
    ∃ buf c, AtaBus.readChunks n b = (.ok buf, c) ∧ buf.toList = l ∧ C.At (v.sent []) c := by
  induction l using words.induct generalizing b n with
  | case1 x y rest ih =>
      subst hn
      obtain ⟨c, hread, hc⟩ := readData_at hwait h
      obtain ⟨buf, d, hrest, hbuf, hd⟩ := ih rfl (by simp only [List.length_cons] at heven; omega) hc
      refine ⟨(#v[(UInt16.ofNat (u16FromLeBytes x y)).toUInt8,
        (UInt16.ofNat (u16FromLeBytes x y) >>> 8).toUInt8] ++ buf).cast (Nat.add_comm 2 rest.length),
        d, ?_, ?_, hd⟩
      · show ((AtaBus.readData >>= _) b) = _
        rw [bind_ok hread, bind_ok hrest]
        rfl
      · obtain ⟨hx, hy⟩ := toUInt8_word x y
        rw [Vector.toList_cast, Vector.toList_append, hbuf, hx, hy]
        rfl
  | case2 l hl =>
      subst hn
      rcases l with _ | ⟨x, _ | ⟨y, rest⟩⟩
      · exact ⟨#v[], b, rfl, rfl, h⟩
      · cases heven
      · exact absurd rfl (hl x y rest)

theorem writeData_at {w : UInt16} {ws : List UInt16} (hwait : v.wait = 0)
    (hlt : ws.length + 1 < 256) (h : C.At { v with phase := .receiving ws } b) :
    ∃ c, AtaBus.writeData w b = (.ok (), c) ∧ C.At { v with phase := .receiving (ws ++ [w]) } c := by
  obtain ⟨ports, s, r⟩ := b
  obtain ⟨rfl, hview⟩ := h
  have hnext := C.writeData s w ws (hview ▸ hwait) (by rw [hview]) hlt
  rw [hview] at hnext
  exact ⟨⟨ports, ports.writeData w s, r⟩, rfl, rfl, hnext⟩

theorem store_at {w : UInt16} {ws : List UInt16} {sectors : List Block512} {block : Block512}
    (hwait : v.wait = 0) (hdisk : v.disk = some sectors) (hblock : words block.toList = ws ++ [w])
    (h : C.At { v with phase := .receiving ws } b) :
    ∃ wait c, AtaBus.writeData w b = (.ok (), c) ∧ C.At (v.stored sectors block wait) c := by
  obtain ⟨ports, s, r⟩ := b
  obtain ⟨rfl, hview⟩ := h
  obtain ⟨wait, hnext⟩ := C.store s w ws sectors block (hview ▸ hwait) (by rw [hview])
    (by rw [hview]; exact hdisk) hblock
  rw [hview] at hnext
  exact ⟨wait, ⟨ports, ports.writeData w s, r⟩, rfl, rfl, hnext⟩

theorem writeChunks_at {sectors : List Block512} {block : Block512} (hwait : v.wait = 0)
    (hdisk : v.disk = some sectors) (ws : List UInt16) {l : List UInt8} (hl : words l ≠ [])
    (heven : l.length % 2 = 0) (hblock : words block.toList = ws ++ words l)
    (h : C.At { v with phase := .receiving ws } b) :
    ∃ wait c, AtaBus.writeChunks l b = (.ok (), c) ∧ C.At (v.stored sectors block wait) c := by
  induction l using words.induct generalizing b ws with
  | case1 x y rest ih =>
      have hlength := congrArg List.length hblock
      rw [View.length_words, Vector.length_toList] at hlength
      by_cases hrest : words rest = []
      · obtain ⟨wait, c, hwrite, hc⟩ := store_at (w := UInt16.ofNat (u16FromLeBytes x y)) hwait hdisk
          (by rw [hblock, words, hrest]) h
        have hnil : rest = [] := by
          rcases rest with _ | ⟨a, _ | ⟨c, rest⟩⟩
          · rfl
          · exact absurd heven (by simp)
          · cases hrest
        subst hnil
        exact ⟨wait, c, (bind_ok hwrite).trans rfl, hc⟩
      · obtain ⟨c, hwrite, hc⟩ := writeData_at (w := UInt16.ofNat (u16FromLeBytes x y)) hwait
          (by
            have hpos := List.length_pos_of_ne_nil hrest
            simp only [words, List.length_append, List.length_cons, BLOCK_SIZE] at hlength
            omega) h
        obtain ⟨wait, d, hchunks, hd⟩ := ih _ hrest (by simp only [List.length_cons] at heven; omega)
          (by rw [hblock, words, List.append_assoc, List.singleton_append]) hc
        exact ⟨wait, d, (bind_ok hwrite).trans hchunks, hd⟩
  | case2 l hnot =>
      rcases l with _ | ⟨x, _ | ⟨y, rest⟩⟩
      · exact absurd rfl hl
      · exact absurd rfl hl
      · exact absurd rfl (hnot x y rest)

end Controller

/-! ### The sectors of a bus -/

/-- The sectors of a drive as an array, with the error of the driver behind the last one. -/
def diskDevice (sectors : List Block512) : Storage.ArrayDevice Block512 :=
  ⟨sectors, .deviceError .invalidOperation⟩

namespace Drives

def readSector (d : Drives) (drive : UInt8) (sector : ℕ) : FsResult Block512 :=
  match d (View.side drive) with
  | none => .error (.deviceError .unknownDevice)
  | some sectors => (diskDevice sectors).readBlock sector

/-- The drives after the write. -/
def writeSector (d : Drives) (drive : UInt8) (sector : ℕ) (block : Block512) : FsResult Drives :=
  match d (View.side drive) with
  | none => .error (.deviceError .unknownDevice)
  | some sectors => do
      let disk ← (diskDevice sectors).writeBlock sector block
      return Function.update d (View.side drive) (some disk.blocks)

variable {d : Drives} {drive : UInt8} {sectors : List Block512}

theorem readSector_of_some (h : d (View.side drive) = some sectors) (sector : ℕ) :
    d.readSector drive sector = (diskDevice sectors).readBlock sector := by
  rw [readSector, h]

theorem writeSector_of_some (h : d (View.side drive) = some sectors) (sector : ℕ) (block : Block512) :
    d.writeSector drive sector block = ((diskDevice sectors).writeBlock sector block).map
      fun disk => Function.update d (View.side drive) (some disk.blocks) := by
  rw [writeSector, h]
  dsimp only
  cases (diskDevice sectors).writeBlock sector block <;> rfl

end Drives

namespace Controller

variable {σ : Type} {ports : Ports σ} {C : Controller ports} {b : AtaBus σ} {v : View}

theorem sent_of_phase {ws : List UInt16} (h : v.phase = .sending ws) (hne : ws ≠ []) : v = v.sent ws := by
  rw [View.sent, if_neg hne, ← h]

theorem commanded_quiet (hq : v.Quiet) (drive : UInt8) (block : UInt32) (cmd : AtaCommand) :
    (v.commanded C.identify drive block cmd).wait = 0 ∧
      (v.commanded C.identify drive block cmd).drives = v.drives := by
  unfold View.commanded View.start
  dsimp only
  split
  · exact ⟨hq.1, rfl⟩
  · exact ⟨rfl, rfl⟩

theorem outcome_none {drive : UInt8} (block : UInt32) (cmd : AtaCommand)
    (h : v.drives (View.side drive) = none) :
    (v.commanded C.identify drive block cmd).outcome = .error (.err (.deviceError .unknownDevice)) ∧
      (v.commanded C.identify drive block cmd).phase = .idle := by
  have hdisk := (View.disk_programmed v drive block).trans h
  rw [View.commanded, View.start_none block h, View.outcome]
  exact ⟨if_pos hdisk, rfl⟩

theorem commanded_some {drive : UInt8} (block : UInt32) (cmd : AtaCommand) {sectors : List Block512}
    (h : v.drives (View.side drive) = some sectors) :
    (v.commanded C.identify drive block cmd).disk = some sectors ∧
      (v.commanded C.identify drive block cmd).phase =
        (v.programmed drive block).answer C.identify sectors cmd ∧
      (v.commanded C.identify drive block cmd).registers.selected = View.side drive ∧
      (v.commanded C.identify drive block cmd).registers.address = block.toNat % 2 ^ 28 := by
  rw [View.commanded, View.start_some block h]
  exact ⟨(View.disk_programmed v drive block).trans h, rfl, View.selected_programmed v drive block,
    View.address_programmed v drive block⟩

theorem outcome_failed (hdisk : v.disk ≠ none) (hphase : v.phase = .failed) :
    v.outcome = .error (.err (.deviceError .invalidOperation)) := by
  rw [View.outcome, if_neg hdisk, if_pos hphase]

theorem outcome_ok (hdisk : v.disk ≠ none) (hphase : v.phase ≠ .failed) : v.outcome = .ok () := by
  rw [View.outcome, if_neg hdisk, if_neg hphase]

/-- A sector is read, or the driver has an error for it. -/
theorem readPio_returns (h : C.At v b) (hq : v.Quiet) (drive : UInt8) (block : UInt32) :
    Returns .outOfFuel (fun fuel => AtaBus.readPio fuel drive block BLOCK_SIZE) b fun out c =>
      out = FsResult.lift (Drives.readSector v.drives drive (block.toNat % 2 ^ 28)) ∧
        ∃ v', C.At v' c ∧ v'.Quiet ∧ v'.drives = v.drives := by
  obtain ⟨hwait, hdrives⟩ := commanded_quiet (C := C) hq drive block .readPio
  rw [Drives.readSector]
  cases hdrive : v.drives (View.side drive) with
  | none =>
      obtain ⟨hout, hphase⟩ := outcome_none (C := C) block .readPio hdrive
      refine (writeCommand_returns h hq drive block .readPio).bind ?_ ?_
      · rintro fuel a c ⟨hok, -⟩
        cases hok.trans hout
      · rintro e c ⟨he, hc⟩
        exact ⟨congrArg _ (Except.error.inj (he.trans hout)), _, hc, ⟨hwait, .inl hphase⟩, hdrives⟩
  | some sectors =>
      obtain ⟨hdisk, hphase, -, -⟩ := commanded_some (C := C) block .readPio hdrive
      rw [View.answer, View.address_programmed] at hphase
      dsimp only [Storage.ArrayDevice.readBlock, diskDevice]
      cases hsector : sectors[block.toNat % 2 ^ 28]? with
      | none =>
          rw [hsector] at hphase
          have hout := outcome_failed (by rw [hdisk]; nofun) hphase
          refine (writeCommand_returns h hq drive block .readPio).bind ?_ ?_
          · rintro fuel a c ⟨hok, -⟩
            cases hok.trans hout
          · rintro e c ⟨he, hc⟩
            exact ⟨congrArg _ (Except.error.inj (he.trans hout)), _, hc, ⟨hwait, .inr hphase⟩, hdrives⟩
      | some sector =>
          rw [hsector] at hphase
          have hout := outcome_ok (by rw [hdisk]; nofun) (by rw [hphase]; nofun)
          have hlength : sector.toList.length = BLOCK_SIZE := Vector.length_toList
          have hwords : words sector.toList ≠ [] :=
            List.ne_nil_of_length_pos (by rw [View.length_words, hlength]; decide)
          refine (writeCommand_returns h hq drive block .readPio).bind ?_ ?_
          · rintro fuel a c ⟨-, hc⟩
            rw [sent_of_phase hphase hwords] at hc
            obtain ⟨buf, d, hread, hbuf, hd⟩ := readChunks_at hwait hlength (by decide) hc
            obtain ⟨e, herror, he⟩ := isError_false hd (fun hnone => nomatch hnone.symm.trans hdisk) nofun
            rw [polled_of_wait (v := (v.commanded C.identify drive block .readPio).sent []) hwait] at he
            obtain rfl := Vector.toList_inj.mp hbuf
            rw [bind_ok hread, bind_ok herror]
            exact ⟨rfl, _, he, ⟨hwait, .inl rfl⟩, hdrives⟩
          · rintro e c ⟨he, -⟩
            cases he.trans hout

/-- A sector is written, or the driver has an error for it; the drive may be busy afterwards. -/
theorem writePio_returns (h : C.At v b) (hq : v.Quiet) (drive : UInt8) (block : UInt32)
    (data : Block512) :
    Returns .outOfFuel (fun fuel => AtaBus.writePio fuel drive block data.toList) b fun out c =>
      out = FsResult.lift
          ((Drives.writeSector v.drives drive (block.toNat % 2 ^ 28) data).map fun _ => ()) ∧
        ∃ v', C.At v' c ∧ (v'.phase = .idle ∨ v'.phase = .failed) ∧ v'.drives =
          (Drives.writeSector v.drives drive (block.toNat % 2 ^ 28) data).toOption.getD v.drives := by
  obtain ⟨hwait, hdrives⟩ := commanded_quiet (C := C) hq drive block .writePio
  rw [Drives.writeSector]
  cases hdrive : v.drives (View.side drive) with
  | none =>
      obtain ⟨hout, hphase⟩ := outcome_none (C := C) block .writePio hdrive
      refine (writeCommand_returns h hq drive block .writePio).bind ?_ ?_
      · rintro fuel a c ⟨hok, -⟩
        cases hok.trans hout
      · rintro e c ⟨he, hc⟩
        exact ⟨congrArg _ (Except.error.inj (he.trans hout)), _, hc, .inl hphase, hdrives⟩
  | some sectors =>
      obtain ⟨hdisk, hphase, hselected, haddress⟩ :=
        commanded_some (C := C) block .writePio hdrive
      rw [View.answer, View.address_programmed] at hphase
      dsimp only [Storage.ArrayDevice.writeBlock, diskDevice]
      by_cases hlt : block.toNat % 2 ^ 28 < sectors.length
      · rw [if_pos hlt] at hphase ⊢
        have hout := outcome_ok (by rw [hdisk]; nofun) (by rw [hphase]; nofun)
        have hlength : data.toList.length = BLOCK_SIZE := Vector.length_toList
        have hwords : words data.toList ≠ [] :=
          List.ne_nil_of_length_pos (by rw [View.length_words, hlength]; decide)
        refine (writeCommand_returns h hq drive block .writePio).bind ?_ ?_
        · rintro fuel a c ⟨-, hc⟩
          obtain ⟨wait, d, hwrite, hd⟩ := writeChunks_at hwait hdisk [] hwords
            (by rw [hlength]; decide) (List.nil_append _).symm
            (by rw [← hphase]; exact hc)
          obtain ⟨e, herror, he⟩ := isError_false hd (by rw [View.stored_disk]; nofun) nofun
          rw [bind_ok hwrite, bind_ok herror]
          refine ⟨rfl, _, he, .inl rfl, ?_⟩
          show Function.update _ _ _ = _
          rw [hselected, haddress, hdrives]
          rfl
        · rintro e c ⟨he, -⟩
          cases he.trans hout
      · rw [if_neg hlt] at hphase ⊢
        have hout := outcome_failed (by rw [hdisk]; nofun) hphase
        refine (writeCommand_returns h hq drive block .writePio).bind ?_ ?_
        · rintro fuel a c ⟨hok, -⟩
          cases hok.trans hout
        · rintro e c ⟨he, hc⟩
          exact ⟨congrArg _ (Except.error.inj (he.trans hout)), _, hc, .inr hphase, hdrives⟩

/-! ### A drive that is still busy -/

theorem writeByte_busy (h : C.At v b) (hbusy : 0 < v.wait) (p : OutPort) (byte : UInt8) :
    ∃ c, AtaBus.writeByte p byte b = (.ok (), c) ∧ C.At v c := by
  obtain ⟨ports, s, r⟩ := b
  obtain ⟨rfl, rfl⟩ := h
  exact ⟨_, rfl, rfl, C.busy s p byte hbusy⟩

/-- A command that the drive does not see is awaited for ever. -/
theorem writeCommand_busy (h : C.At v b) (hbusy : 0 < v.wait) (hidle : v.phase = .idle)
    (hdisk : v.disk ≠ none) (fuel : ℕ) (drive : UInt8) (block : UInt32) (cmd : AtaCommand) :
    ∃ c, AtaBus.writeCommand fuel drive block cmd b = (.error .outOfFuel, c) := by
  suffices hout : (AtaBus.writeCommand fuel drive block cmd b).1 = .error .outOfFuel from
    ⟨_, Prod.ext hout rfl⟩
  obtain ⟨b₁, h₁, hb₁⟩ := writeByte_busy h hbusy .sectorCount 1
  obtain ⟨b₂, h₂, hb₂⟩ := writeByte_busy hb₁ hbusy .lbaLow block.toUInt8
  obtain ⟨b₃, h₃, hb₃⟩ := writeByte_busy hb₂ hbusy .lbaMid (block >>> 8).toUInt8
  obtain ⟨b₄, h₄, hb₄⟩ := writeByte_busy hb₃ hbusy .lbaHigh (block >>> 16).toUInt8
  obtain ⟨b₅, h₅, hb₅⟩ := writeByte_busy hb₄ hbusy .drive
    ((0xE0 : UInt8) ||| ((drive &&& 1) <<< 4) ||| ((block >>> 24).toUInt8 &&& 0x0F))
  obtain ⟨b₆, h₆, hb₆⟩ := writeByte_busy hb₅ hbusy .command cmd.toByte
  rw [AtaBus.writeCommand, bind_ok h₁, bind_ok h₂, bind_ok h₃, bind_ok h₄, bind_ok h₅, bind_ok h₆]
  obtain ⟨s, c, hstatus, hshows, hc⟩ := status_at hb₆
  rw [View.Shows, if_neg hdisk] at hshows
  rw [AtaBus.awaitCommand, bind_ok hstatus, if_neg hshows.1]
  obtain ⟨s', d, hstatus', hshows', hd⟩ := status_at hc
  by_cases hfuel : v.polled.wait ≤ fuel
  · obtain ⟨d, hpoll, hd⟩ := poll_busy fuel hc hdisk hfuel
    obtain ⟨e, herror, he⟩ := isError_false (v := ready v) hd hdisk (by simp [ready, hidle])
    obtain ⟨x, hpoll', hx⟩ := poll_busy fuel he hdisk (Nat.zero_le _)
    obtain ⟨t, y, hlast, hshows'', hy⟩ := status_at hx
    rw [bind_ok hpoll, bind_ok herror, if_neg Bool.false_ne_true, bind_ok hpoll', AtaBus.poll,
      bind_ok hlast]
    exact pollLoop_idle (v := ready v) hshows'' hdisk rfl hidle hy
  · have hshort := pollLoop_short hshows' hdisk (Nat.not_le.mp hfuel) hd
    have hpoll : AtaBus.poll fuel BUSY false c = (.error .outOfFuel, (AtaBus.poll fuel BUSY false c).2) :=
      Prod.ext ((congrArg Prod.fst (bind_ok hstatus')).trans hshort) rfl
    rw [bind_error hpoll]

/-! ### `IDENTIFY` -/

theorem readWords_at {ws : List UInt16} (hwait : v.wait = 0) {n : ℕ} (hn : n ≤ ws.length)
    (h : C.At (v.sent ws) b) : ∃ buf c, AtaBus.readWords n b = (.ok buf, c) ∧
      buf.toList = ws.take n ∧ C.At (v.sent (ws.drop n)) c := by
  induction n with
  | zero => exact ⟨#v[], b, rfl, rfl, h⟩
  | succ n ih =>
      obtain ⟨buf, c, hread, hbuf, hc⟩ := ih (Nat.le_of_succ_le hn)
      rw [List.drop_eq_getElem_cons hn] at hc
      obtain ⟨d, hword, hd⟩ := readData_at hwait hc
      refine ⟨buf.push ws[n], d, ?_, ?_, hd⟩
      · show ((AtaBus.readWords n >>= _) b) = _
        rw [bind_ok hread, bind_ok hword]
        rfl
      · rw [Vector.toList_push, hbuf, List.take_succ_eq_append_getElem hn]

theorem readBack_at (h : C.At v b) :
    (∃ c, AtaBus.readByte .lbaMid b = (.ok (v.registers .lbaMid), c) ∧ C.At v c) ∧
      ∃ c, AtaBus.readByte .lbaHigh b = (.ok (v.registers .lbaHigh), c) ∧ C.At v c := by
  obtain ⟨ports, s, r⟩ := b
  obtain ⟨rfl, rfl⟩ := h
  obtain ⟨hmid, hhigh⟩ := C.readBack s
  refine ⟨⟨⟨ports, (ports.readByte .lbaMid s).2, r⟩, ?_, rfl, C.readByte s _ nofun⟩,
    ⟨ports, (ports.readByte .lbaHigh s).2, r⟩, ?_, rfl, C.readByte s _ nofun⟩
  · rw [← hmid]
    rfl
  · rw [← hhigh]
    rfl

theorem attempt_returns {α : Type} {x : ℕ → AtaBus.Run σ α} {r : FsResult α} {P : AtaBus σ → Prop}
    (h : Returns .outOfFuel x b fun out c => out = FsResult.lift r ∧ P c) :
    Returns .outOfFuel (fun fuel => AtaBus.attempt (x fuel)) b fun out c => out = .ok r ∧ P c := by
  obtain ⟨n, h⟩ := h
  refine ⟨n, fun fuel => ?_⟩
  specialize h fuel
  rcases hrun : x fuel b with ⟨out, c⟩
  rw [hrun] at h
  beta_reduce
  rw [AtaBus.attempt, hrun]
  split_ifs at h ⊢ with hfuel
  · obtain ⟨rfl, hP⟩ := h
    cases r <;> exact ⟨rfl, hP⟩
  · obtain rfl : out = _ := h
    rfl

theorem identifyDrive_none (h : C.At v b) (hq : v.Quiet) {drive : UInt8}
    (hdrive : v.drives (View.side drive) = none) :
    Returns .outOfFuel (fun fuel => AtaBus.identifyDrive fuel drive) b fun out c =>
      out = .ok .none ∧ ∃ v', C.At v' c ∧ v'.Quiet ∧ v'.drives = v.drives := by
  obtain ⟨hwait, hdrives⟩ := commanded_quiet (C := C) hq drive 0 .identifyDevice
  obtain ⟨hout, hphase⟩ := outcome_none (C := C) 0 .identifyDevice hdrive
  have hdisk : (v.commanded C.identify drive 0 .identifyDevice).disk = none := by
    rw [View.commanded, View.start_none 0 hdrive]
    exact (View.disk_programmed v drive 0).trans hdrive
  have hcommand := writeCommand_returns h hq drive 0 .identifyDevice
  rw [hout] at hcommand
  refine (attempt_returns (r := .error (.deviceError .unknownDevice)) hcommand).bind ?_ ?_
  · rintro fuel a c ⟨ha, hc⟩
    obtain rfl := Except.ok.inj ha
    obtain ⟨s, d, hstatus, hshows, hd⟩ := status_at hc
    rw [View.Shows, if_pos hdisk] at hshows
    rw [polled_of_wait hwait] at hd
    dsimp only
    rw [bind_ok hstatus, if_pos hshows]
    exact ⟨rfl, _, hd, ⟨hwait, .inl hphase⟩, hdrives⟩
  · rintro e c ⟨he, -⟩
    cases he

theorem identifyDrive_returns (h : C.At v b) (hq : v.Quiet) {drive : UInt8}
    (hdrive : v.drives (View.side drive) ≠ none) :
    Returns .outOfFuel (fun fuel => AtaBus.identifyDrive fuel drive) b fun out c =>
      out = .ok (.pata (C.identify (View.side drive))) ∧
        ∃ v', C.At v' c ∧ v'.Quiet ∧ v'.drives = v.drives := by
  obtain ⟨sectors, hsome⟩ := Option.ne_none_iff_exists'.mp hdrive
  obtain ⟨hwait, hdrives⟩ := commanded_quiet (C := C) hq drive 0 .identifyDevice
  obtain ⟨hdisk, hphase, -, -⟩ :=
    commanded_some (C := C) 0 .identifyDevice hsome
  have hregisters : (v.commanded C.identify drive 0 .identifyDevice).registers .lbaMid = 0 ∧
      (v.commanded C.identify drive 0 .identifyDevice).registers .lbaHigh = 0 := by
    rw [View.commanded, View.start_some 0 hsome]
    exact ⟨rfl, rfl⟩
  have hcommand := writeCommand_returns h hq drive 0 .identifyDevice
  generalize v.commanded C.identify drive 0 .identifyDevice = w at *
  rw [View.answer, View.selected_programmed] at hphase
  have hout := outcome_ok (by rw [hdisk]; nofun) (by rw [hphase]; nofun)
  rw [hout] at hcommand
  refine (attempt_returns (r := .ok ()) hcommand).bind ?_ ?_
  · rintro fuel a c ⟨ha, hc⟩
    obtain rfl := Except.ok.inj ha
    obtain ⟨d, hpoll, hd⟩ := poll_busy fuel hc (by rw [hdisk]; nofun) (hwait ▸ Nat.zero_le _)
    rw [ready_of_wait hwait] at hd
    obtain ⟨e, hmid, he⟩ := (readBack_at hd).1
    obtain ⟨x, hhigh, hx⟩ := (readBack_at he).2
    rw [hregisters.1] at hmid
    rw [hregisters.2] at hhigh
    have hlength : (C.identify (View.side drive)).toList.length = 256 := Vector.length_toList
    rw [sent_of_phase hphase (List.ne_nil_of_length_pos (by rw [hlength]; decide))] at hx
    obtain ⟨buf, y, hwords, hbuf, hy⟩ := readWords_at (n := 256) hwait hlength.ge hx
    rw [List.take_of_length_le hlength.le] at hbuf
    rw [List.drop_of_length_le hlength.le] at hy
    obtain rfl := Vector.toList_inj.mp hbuf
    dsimp only
    rw [bind_ok hpoll, bind_ok hmid, bind_ok hhigh, if_pos ⟨rfl, rfl⟩, bind_ok hwords]
    exact ⟨rfl, _, hy, ⟨hwait, .inl rfl⟩, hdrives⟩
  · rintro e c ⟨he, -⟩
    cases he

end Controller

/-! ### Results and fuel -/

section

variable {σ : Type}

theorem steady_pollLoop (bit : UInt8) (val : Bool) (s : UInt8) :
    Steady (σ := AtaBus σ) .outOfFuel fun fuel => AtaBus.pollLoop bit val fuel s := by
  intro fuel
  induction fuel generalizing s with
  | zero =>
      intro fuel' b _ hne
      beta_reduce at hne ⊢
      unfold AtaBus.pollLoop at hne ⊢
      by_cases hbit : decide (s &&& bit ≠ 0) = val
      · rw [if_pos hbit, if_pos hbit]
      · rw [if_neg hbit] at hne
        exact absurd rfl hne
  | succ fuel ih =>
      intro fuel' b hle hne
      cases fuel' with
      | zero => exact absurd hle (Nat.not_succ_le_zero fuel)
      | succ fuel' =>
          beta_reduce at hne ⊢
          unfold AtaBus.pollLoop at hne ⊢
          by_cases hbit : decide (s &&& bit ≠ 0) = val
          · rw [if_pos hbit, if_pos hbit]
          · rw [if_neg hbit] at hne
            rw [if_neg hbit, if_neg hbit]
            dsimp only at hne ⊢
            -- the status is read again, after `debug` when it had an error
            have hnext : ∀ c : AtaBus σ,
                ((AtaBus.status >>= fun s => AtaBus.pollLoop bit val fuel s) c).1 ≠ .error .outOfFuel →
                  (AtaBus.status >>= fun s => AtaBus.pollLoop bit val fuel' s) c =
                    (AtaBus.status >>= fun s => AtaBus.pollLoop bit val fuel s) c := by
              intro c hc
              rcases hstatus : AtaBus.status c with ⟨e | s', d⟩
              · cases hstatus
              · rw [bind_ok hstatus] at hc ⊢
                rw [bind_ok hstatus]
                exact ih s' fuel' d (Nat.le_of_succ_le_succ hle) hc
            split_ifs at hne ⊢ with herror
            · rcases hdebug : AtaBus.debug b with ⟨e | u, c⟩
              · cases hdebug
              · rw [bind_ok hdebug] at hne ⊢
                rw [bind_ok hdebug]
                exact hnext c hne
            · exact hnext b hne

theorem steady_poll (bit : UInt8) (val : Bool) :
    Steady (σ := AtaBus σ) .outOfFuel fun fuel => AtaBus.poll fuel bit val :=
  Steady.bind (steady_const _) fun s => steady_pollLoop bit val s

theorem steady_awaitCommand : Steady (σ := AtaBus σ) .outOfFuel fun fuel => AtaBus.awaitCommand fuel := by
  refine Steady.bind (steady_const _) fun s => Steady.ite (steady_const _) ?_
  refine Steady.bind (steady_poll _ _) fun _ => Steady.bind (steady_const _) fun e => ?_
  refine Steady.ite (steady_const _) ?_
  exact Steady.bind (steady_poll _ _) fun _ => steady_poll _ _

theorem steady_writeCommand (drive : UInt8) (block : UInt32) (cmd : AtaCommand) :
    Steady (σ := AtaBus σ) .outOfFuel fun fuel => AtaBus.writeCommand fuel drive block cmd :=
  Steady.bind (steady_const _) fun _ => Steady.bind (steady_const _) fun _ =>
    Steady.bind (steady_const _) fun _ => Steady.bind (steady_const _) fun _ =>
      Steady.bind (steady_const _) fun _ => Steady.bind (steady_const _) fun _ => steady_awaitCommand

theorem steady_readPio (drive : UInt8) (block : UInt32) (len : ℕ) :
    Steady (σ := AtaBus σ) .outOfFuel fun fuel => AtaBus.readPio fuel drive block len :=
  Steady.bind (steady_writeCommand _ _ _) fun _ => steady_const _

theorem steady_attempt {α : Type} {x : ℕ → AtaBus.Run σ α} (h : Steady .outOfFuel x) :
    Steady .outOfFuel fun fuel => AtaBus.attempt (x fuel) := by
  intro fuel fuel' b hle hne
  have hrun := h fuel fuel' b hle fun he => hne ?_
  · simp only [AtaBus.attempt, hrun]
  · rcases hx : x fuel b with ⟨out, c⟩
    rw [hx] at he
    obtain rfl : out = _ := he
    simp only [AtaBus.attempt, hx]

theorem steady_identifyDrive (drive : UInt8) :
    Steady (σ := AtaBus σ) .outOfFuel fun fuel => AtaBus.identifyDrive fuel drive := by
  refine Steady.bind (steady_attempt (steady_writeCommand _ _ _)) fun r => ?_
  cases r with
  | error e => exact steady_const _
  | ok u => exact Steady.bind (steady_poll _ _) fun _ => steady_const _

end

/-! ### Drives -/

section

variable {σ : Type} {ports : Fin 2 → Ports σ} (C : ∀ i, Controller (ports i)) {views : Fin 2 → View}
  {buses : Buses σ}

/-- The buses are in these views. -/
def Attached (views : Fin 2 → View) (buses : Buses σ) : Prop := ∀ i, (C i).At (views i) (buses i)

variable {C}

theorem Attached.update {i : Fin 2} {w : View} {c : AtaBus σ} (h : Attached C views buses)
    (hc : (C i).At w c) : Attached C (Function.update views i w) (Function.update buses i c) := by
  intro j
  by_cases hj : j = i
  · subst hj
    rw [Function.update_self, Function.update_self]
    exact hc
  · rw [Function.update_of_ne hj, Function.update_of_ne hj]
    exact h j

theorem onBus_returns {α : Type} {i : Fin 2} {x : ℕ → AtaBus.Run σ α} {P : Except Stop α → Prop}
    {Q : View → Prop} (h : Attached C views buses)
    (hx : Returns .outOfFuel x (buses i) fun out c => P out ∧ ∃ v, (C i).At v c ∧ Q v) :
    Returns .outOfFuel (fun fuel => onBus i (x fuel)) buses fun out buses' =>
      P out ∧ ∃ v, Attached C (Function.update views i v) buses' ∧ Q v := by
  refine Returns.zoom (fun buses : Buses σ => buses i) _ hx ?_
  rintro out c ⟨hout, v, hat, hv⟩
  exact ⟨hout, v, h.update hat, hv⟩

/-- A drive that takes commands reads the sector of the lower bits of the offset. -/
theorem readBlock_returns (d : AtaDrive) (offset : ℕ) (h : Attached C views buses)
    (hq : (views d.bus).Quiet) :
    Returns .outOfFuel (fun fuel => d.readBlock fuel offset) buses fun out buses' =>
      out = FsResult.lift ((views d.bus).drives.readSector d.drive (offset % 2 ^ 28)) ∧
        ∃ v, Attached C (Function.update views d.bus v) buses' ∧
          v.Quiet ∧ v.drives = (views d.bus).drives := by
  rw [← toNat_ofNat_mod]
  exact onBus_returns h (Controller.readPio_returns (h d.bus) hq d.drive _)

theorem writeBlock_returns (d : AtaDrive) (offset : ℕ) (h : Attached C views buses)
    (hq : (views d.bus).Quiet) (block : Block512) :
    Returns .outOfFuel (fun fuel => d.writeBlock fuel offset block) buses fun out buses' =>
      out = FsResult.lift (((views d.bus).drives.writeSector d.drive (offset % 2 ^ 28) block).map
        fun _ => ()) ∧
        ∃ v, Attached C (Function.update views d.bus v) buses' ∧
          (v.phase = .idle ∨ v.phase = .failed) ∧ v.drives = ((views d.bus).drives.writeSector d.drive
            (offset % 2 ^ 28) block).toOption.getD (views d.bus).drives := by
  rw [← toNat_ofNat_mod]
  exact onBus_returns h (Controller.writePio_returns (h d.bus) hq d.drive _ block)

end

/-! ### A disk of this kind -/

namespace View

variable (v : View)

/-- A status that says what it has to. -/
def statusByte : UInt8 :=
  if v.disk = none then 0
  else if 0 < v.wait then 0xD0
  else if v.phase = .failed then 0x51
  else if v.transfers then 0x58
  else 0x50

theorem statusByte_shows : v.Shows v.statusByte := by
  unfold Shows statusByte
  by_cases hdisk : v.disk = none
  · rw [if_pos hdisk, if_pos hdisk]
  · rw [if_neg hdisk, if_neg hdisk]
    by_cases hwait : 0 < v.wait
    · rw [if_pos hwait]
      exact ⟨by decide, iff_of_true (by decide) hwait, iff_of_false (by decide) fun h => by omega,
        fun h => by omega⟩
    · have h0 : v.wait = 0 := Nat.eq_zero_of_not_pos hwait
      rw [if_neg hwait]
      by_cases hfailed : v.phase = .failed
      · rw [if_pos hfailed]
        exact ⟨by decide, iff_of_false (by decide) hwait, iff_of_true (by decide) ⟨h0, hfailed⟩,
          fun _ => iff_of_false (by decide) (by simp [transfers, hfailed])⟩
      · rw [if_neg hfailed]
        by_cases htransfers : v.transfers = true
        · rw [if_pos htransfers]
          exact ⟨by decide, iff_of_false (by decide) hwait, iff_of_false (by decide) fun h => hfailed h.2,
            fun _ => iff_of_true (by decide) htransfers⟩
        · rw [if_neg htransfers]
          exact ⟨by decide, iff_of_false (by decide) hwait, iff_of_false (by decide) fun h => hfailed h.2,
            fun _ => iff_of_false (by decide) htransfers⟩

end View

/-- The bytes of a word, the lower one first. -/
def toLeBytes (w : UInt16) : List UInt8 := [w.toUInt8, (w >>> 8).toUInt8]

/-- The sector of its words. -/
def sectorOf (ws : List UInt16) : Block512 := Vector.ofFn fun i => (ws.flatMap toLeBytes).getD i 0

theorem flatMap_words : ∀ {l : List UInt8}, l.length % 2 = 0 → (words l).flatMap toLeBytes = l
  | [], _ => rfl
  | [_], h => absurd h (by simp)
  | x :: y :: rest, h => by
      obtain ⟨hx, hy⟩ := Controller.toUInt8_word x y
      rw [words, List.flatMap_cons, flatMap_words (by simp only [List.length_cons] at h; omega),
        toLeBytes, hx, hy]
      rfl

theorem sectorOf_words (block : Block512) : sectorOf (words block.toList) = block := by
  have hlength : block.toList.length = BLOCK_SIZE := Vector.length_toList
  refine Vector.ext fun i hi => ?_
  rw [sectorOf, flatMap_words (by rw [hlength]; decide), Vector.getElem_ofFn,
    List.getD_eq_getElem _ _ (by rw [hlength]; exact hi)]
  exact Vector.getElem_toList _

/-- Ports whose drives are busy for the same time after each command. -/
def Ports.pio (identify : Bool → Vector UInt16 256) (delay : ℕ) : Ports View where
  readByte p v :=
    match p with
    | .status => (v.statusByte, v.polled)
    | .lbaMid => (v.registers .lbaMid, v)
    | .lbaHigh => (v.registers .lbaHigh, v)
    | _ => (0, v)
  writeByte p byte v :=
    if 0 < v.wait then v
    else if p = .command then
      if byte = 0x20 then v.start identify .readPio delay
      else if byte = 0x30 then v.start identify .writePio delay
      else v.start identify .identifyDevice delay
    else v.latch p byte
  readData v :=
    match v.phase with
    | .sending (w :: ws) => (w, v.sent ws)
    | _ => (0, v)
  writeData w v :=
    match v.phase with
    | .receiving ws =>
        if ws.length + 1 < 256 then { v with phase := .receiving (ws ++ [w]) }
        else v.stored (v.disk.getD []) (sectorOf (ws ++ [w])) delay
    | _ => v

/-- They keep the laws. -/
def Controller.pio (identify : Bool → Vector UInt16 256) (delay : ℕ) :
    Controller (Ports.pio identify delay) where
  view := id
  identify := identify
  status v := ⟨v.statusByte_shows, rfl⟩
  readByte v p hp := by
    cases p <;> first | rfl | exact absurd rfl hp
  readBack v := ⟨rfl, rfl⟩
  latch v p byte hp hq := by
    show (if 0 < v.wait then v else _) = _
    rw [if_neg (by have := hq.1; simp_all), if_neg hp]
    rfl
  busy v p byte h := if_pos h
  command v cmd hq _ := by
    refine ⟨delay, ?_⟩
    show (if 0 < v.wait then v else _) = _
    rw [if_neg (by have := hq.1; simp_all), if_pos rfl]
    cases cmd <;> rfl
  readData v w ws _ h := by
    have h : v.phase = .sending (w :: ws) := h
    simp [Ports.pio, h]
  writeData v w ws _ h hlt := by
    have h : v.phase = .receiving ws := h
    simp [Ports.pio, h, hlt]
  store v w ws sectors block _ h hdisk hblock := by
    have h : v.phase = .receiving ws := h
    have hdisk : v.disk = some sectors := hdisk
    have hlength := congrArg List.length hblock
    rw [View.length_words, Vector.length_toList, List.length_append, List.length_singleton] at hlength
    have hnlt : ¬ ws.length + 1 < 256 := by rw [← hlength]; decide
    refine ⟨delay, ?_⟩
    rw [← sectorOf_words block, hblock]
    simp [Ports.pio, h, hnlt, hdisk]

/-- A drive with two sectors, which is busy for `wait` more polls. -/
def twoSectors (wait : ℕ) : View where
  registers := fun _ => 0
  drives side := if side then none else some [Vector.replicate 512 1, Vector.replicate 512 2]
  phase := .idle
  wait := wait

def pioBuses (v : View) : Buses View := fun _ =>
  ⟨.pio (fun _ => Vector.replicate 256 0) 3, v, fun _ => 0⟩

theorem attached_pio (v : View) : Attached (fun _ => Controller.pio (fun _ => Vector.replicate 256 0) 3)
    (fun _ => v) (pioBuses v) := fun _ => ⟨rfl, rfl⟩

end Ysos.Ata
