import Ysos.Text

/-! # The boot configuration

`Config::parse` reads lines of the form `key=value`.  It takes the white space around a line away, but
not the white space around the key and the value; and it reads each value as a hexadecimal number too,
from its third byte on.

* `Config.parse`: the code.
* `Written`: the configuration that the text says, whatever white space is around `=`.
* `config_written_iff`: it is read exactly when each value has a character at its third byte, and each key
  gets the same value from the last line that names it without white space. -/

namespace Ysos.Boot

open Fat16 Text

/-! ### Strings -/

/-- A line without the carriage return at its end. -/
def stripCr (line : Str) : Str := if line.getLast? = some '\r' then line.dropLast else line

/-- `str::lines`. -/
def lines (s : Str) : List Str :=
  let parts := s.splitOn '\n'
  parts.dropLast.map stripCr ++ parts.getLast?.toList.filter (· ≠ [])

/-- `split_once`. -/
def splitOnce (delimiter : Char) (s : Str) : Option (Str × Str) :=
  if delimiter ∈ s then
    some (s.takeWhile (· ≠ delimiter), (s.dropWhile (· ≠ delimiter)).tail)
  else none

/-- `char::to_digit`. -/
def toDigit (radix : ℕ) (c : Char) : Option ℕ :=
  let digit :=
    if '0' ≤ c ∧ c ≤ '9' then some (c.toNat - '0'.toNat)
    else if 'a' ≤ c ∧ c ≤ 'z' then some (c.toNat - 'a'.toNat + 10)
    else if 'A' ≤ c ∧ c ≤ 'Z' then some (c.toNat - 'A'.toNat + 10)
    else none
  digit.filter (· < radix)

/-- `u64::from_str_radix`: a plus sign may come first, and the number must fit. -/
def fromStrRadix (radix : ℕ) (s : Str) : Option ℕ :=
  let digits := if s.head? = some '+' then s.tail else s
  if digits = [] then none
  else digits.foldlM (fun n c => do
    let digit ← toDigit radix c
    let n := n * radix + digit
    if n < 2 ^ 64 then some n else none) 0

/-! ### `Config` -/

structure Config where
  kernelStackAddress : ℕ
  kernelStackAutoGrow : ℕ
  kernelStackSize : ℕ
  physicalMemoryOffset : ℕ
  kernelPath : Str
  cmdline : Str
  loadApps : Bool
  logLevel : Str
  deriving DecidableEq

def DEFAULT_CONFIG : Config where
  kernelStackAddress := 0xFFFFFF0100000000
  kernelStackAutoGrow := 0
  kernelStackSize := 512
  physicalMemoryOffset := 0xFFFF800000000000
  kernelPath := "\\KERNEL.ELF".toList
  cmdline := []
  loadApps := true
  logLevel := "info".toList

namespace Config

/-- `r16` of `process`, or `none` when the value cannot be cut at its third byte. -/
def r16 (value : Str) : Option ℕ :=
  if 2 < byteLen value then
    (splitAtByte value 2).map fun (_, digits) => (fromStrRadix 16 digits).getD 0
  else some 0

/-- `process`; both numbers are read whatever the key is. -/
def process (config : Config) (key value : Str) : Option Config := do
  let r10 := (fromStrRadix 10 value).getD 0
  let r16 ← r16 value
  if key = "kernel_stack_address".toList then some { config with kernelStackAddress := r16 }
  else if key = "kernel_stack_size".toList then some { config with kernelStackSize := r10 }
  else if key = "physical_memory_offset".toList then some { config with physicalMemoryOffset := r16 }
  else if key = "kernel_path".toList then some { config with kernelPath := value }
  else if key = "kernel_stack_auto_grow".toList then some { config with kernelStackAutoGrow := r10 }
  else if key = "cmdline".toList then some { config with cmdline := value }
  else if key = "load_apps".toList then some { config with loadApps := r10 ≠ 0 }
  else some config

/-- The body of the loop of `parse`. -/
def processLine (config : Config) (line : Str) : Option Config :=
  let line := trim line
  if line = [] ∨ line.head? = some '#' then some config
  else
    match splitOnce '=' line with
    | some (key, value) => config.process key value
    | none => some config

/-- `parse`, or `none` for its panic. -/
def parse (content : List UInt8) : Option Config := do
  let content ← fromUtf8 content
  (lines content).foldlM processLine DEFAULT_CONFIG

end Config

/-! ### What the text says -/

/-- The keys that set a field. -/
inductive Key where
  | kernelStackAddress | kernelStackSize | physicalMemoryOffset | kernelPath | kernelStackAutoGrow
  | cmdline | loadApps
  deriving DecidableEq

inductive Value where
  | number (n : ℕ)
  | string (s : Str)
  | flag (b : Bool)
  deriving DecidableEq

/-- The number of a hexadecimal value with two bytes before it. -/
def hexValue (value : Str) : ℕ :=
  if 2 < byteLen value then
    match splitAtByte value 2 with
    | some (_, digits) => (fromStrRadix 16 digits).getD 0
    | none => 0
  else 0

namespace Key

def name : Key → Str
  | kernelStackAddress => "kernel_stack_address".toList
  | kernelStackSize => "kernel_stack_size".toList
  | physicalMemoryOffset => "physical_memory_offset".toList
  | kernelPath => "kernel_path".toList
  | kernelStackAutoGrow => "kernel_stack_auto_grow".toList
  | cmdline => "cmdline".toList
  | loadApps => "load_apps".toList

/-- What a value says for a key; a number that cannot be read is zero. -/
def read (key : Key) (value : Str) : Value :=
  match key with
  | kernelStackAddress => .number (hexValue value)
  | kernelStackSize => .number ((fromStrRadix 10 value).getD 0)
  | physicalMemoryOffset => .number (hexValue value)
  | kernelPath => .string value
  | kernelStackAutoGrow => .number ((fromStrRadix 10 value).getD 0)
  | cmdline => .string value
  | loadApps => .flag ((fromStrRadix 10 value).getD 0 ≠ 0)

/-- The field of a key. -/
def get (key : Key) (config : Config) : Value :=
  match key with
  | kernelStackAddress => .number config.kernelStackAddress
  | kernelStackSize => .number config.kernelStackSize
  | physicalMemoryOffset => .number config.physicalMemoryOffset
  | kernelPath => .string config.kernelPath
  | kernelStackAutoGrow => .number config.kernelStackAutoGrow
  | cmdline => .string config.cmdline
  | loadApps => .flag config.loadApps

end Key

/-- The lines of the form `key=value` that are no comments, cut at the first `=`. -/
def settings (text : Str) : List (Str × Str) :=
  (((lines text).map trim).filter fun line => line ≠ [] ∧ line.head? ≠ some '#').filterMap
    (splitOnce '=')

/-- The same, without white space around the key and the value. -/
def trimmedSettings (text : Str) : List (Str × Str) :=
  (settings text).map fun (key, value) => (trim key, trim value)

/-- What the last of some settings with a key says for it, or what is there without one. -/
def lastOr (settings : List (Str × Str)) (key : Key) (value : Value) : Value :=
  ((settings.filter (·.1 = key.name)).getLast?.map fun setting => key.read setting.2).getD value

def lastValue (settings : List (Str × Str)) (key : Key) : Value :=
  lastOr settings key (key.get DEFAULT_CONFIG)

/-- The configuration that a text says. -/
structure Written (text : Str) (config : Config) : Prop where
  keys : ∀ key : Key, key.get config = lastValue (trimmedSettings text) key
  logLevel : config.logLevel = DEFAULT_CONFIG.logLevel

/-! ### One setting -/

variable {config : Config} {name value text : Str} {key : Key} {sets : List (Str × Str)}

/-- A value that is longer than two bytes has a character at its third one. -/
def Sliceable (value : Str) : Prop := 2 < byteLen value → IsCharBoundary value 2

theorem r16_eq (h : Sliceable value) : Config.r16 value = some (hexValue value) := by
  rw [Config.r16, hexValue]
  split_ifs with hlen
  · obtain ⟨⟨front, digits⟩, hsplit⟩ := Option.isSome_iff_exists.mp (splitAtByte_isSome.mpr (h hlen))
    rw [hsplit]
    rfl
  · rfl

theorem process_eq (config : Config) (name : Str) (h : Sliceable value) : ∃ config', config.process name value = some config' ∧
    (∀ key : Key, key.get config' = if name = key.name then key.read value else key.get config) ∧
      config'.logLevel = config.logLevel := by
  rw [Config.process, r16_eq h]
  by_cases hkey : ∃ key : Key, name = key.name
  · obtain ⟨key, rfl⟩ := hkey
    cases key
    all_goals
      refine ⟨_, rfl, fun key => ?_, rfl⟩
      cases key <;> rfl
  · have hne : ∀ key : Key, name ≠ key.name := fun key he => hkey ⟨key, he⟩
    refine ⟨config, ?_, fun key => (if_neg (hne key)).symm, rfl⟩
    simp only [Option.bind_eq_bind, Option.bind_some]
    exact (if_neg (hne .kernelStackAddress)).trans <| (if_neg (hne .kernelStackSize)).trans <|
      (if_neg (hne .physicalMemoryOffset)).trans <| (if_neg (hne .kernelPath)).trans <|
      (if_neg (hne .kernelStackAutoGrow)).trans <| (if_neg (hne .cmdline)).trans <|
      if_neg (hne .loadApps)

theorem process_none (h : ¬ Sliceable value) : config.process name value = none := by
  obtain ⟨hlen, hbound⟩ := Classical.not_imp.mp h
  have hsplit := Option.not_isSome_iff_eq_none.mp (mt splitAtByte_isSome.mp hbound)
  rw [Config.process, Config.r16, if_pos hlen, hsplit]
  rfl

/-! ### All settings -/

theorem lastOr_cons (setting : Str × Str) (sets : List (Str × Str)) (key : Key) (v : Value) :
    lastOr (setting :: sets) key v =
      lastOr sets key (if setting.1 = key.name then key.read setting.2 else v) := by
  rw [lastOr, lastOr]
  by_cases hkey : setting.1 = key.name
  · rw [List.filter_cons_of_pos (by simpa), List.getLast?_cons, if_pos hkey]
    cases (sets.filter (·.1 = key.name)).getLast? with
    | none => rfl
    | some last => rfl
  · rw [List.filter_cons_of_neg (by simpa), if_neg hkey]

/-- Each field takes the last value for it. -/
theorem foldlM_process (config : Config) (h : ∀ setting ∈ sets, Sliceable setting.2) : ∃ config',
    sets.foldlM (fun config setting => config.process setting.1 setting.2) config = some config' ∧
      (∀ key : Key, key.get config' = lastOr sets key (key.get config)) ∧
      config'.logLevel = config.logLevel := by
  induction sets generalizing config with
  | nil => exact ⟨config, rfl, fun _ => rfl, rfl⟩
  | cons setting sets ih =>
      obtain ⟨config', hprocess, hkeys, hlevel⟩ :=
        process_eq config setting.1 (h setting List.mem_cons_self)
      obtain ⟨config'', hfold, hkeys', hlevel'⟩ :=
        ih config' fun s hs => h s (List.mem_cons_of_mem _ hs)
      refine ⟨config'', ?_, fun key => ?_, hlevel'.trans hlevel⟩
      · rw [List.foldlM_cons, hprocess]
        exact hfold
      · rw [hkeys', hkeys, lastOr_cons]

theorem foldlM_none (h : ¬ ∀ setting ∈ sets, Sliceable setting.2) :
    sets.foldlM (fun config setting => Config.process config setting.1 setting.2) config = none := by
  induction sets generalizing config with
  | nil => exact absurd nofun h
  | cons setting sets ih =>
      rw [List.foldlM_cons]
      by_cases hslice : Sliceable setting.2
      · obtain ⟨config', hprocess, -⟩ := process_eq config setting.1 hslice
        rw [hprocess]
        exact ih fun hall => h (List.forall_mem_cons.mpr ⟨hslice, hall⟩)
      · rw [process_none hslice]
        rfl

theorem foldlM_lines (ls : List Str) : ls.foldlM Config.processLine config =
    (((ls.map trim).filter fun line => line ≠ [] ∧ line.head? ≠ some '#').filterMap
      (splitOnce '=')).foldlM (fun config setting => config.process setting.1 setting.2) config := by
  induction ls generalizing config with
  | nil => rfl
  | cons line ls ih =>
      have hline : Config.processLine config line =
          if trim line ≠ [] ∧ (trim line).head? ≠ some '#' then
            match splitOnce '=' (trim line) with
            | some (key, value) => config.process key value
            | none => some config
          else some config := by
        rw [Config.processLine]
        simp only [← not_or]
        rw [ite_not]
      rw [List.foldlM_cons, hline, List.map_cons, List.filter_cons]
      simp only [decide_eq_true_eq]
      split_ifs
      · rw [List.filterMap_cons]
        cases splitOnce '=' (trim line) with
        | none => exact ih
        | some setting =>
            rw [List.foldlM_cons]
            exact congrArg _ (funext fun config => ih)
      · exact ih

theorem parse_bytes (text : Str) : Config.parse text.bytes = (settings text).foldlM
    (fun config setting => config.process setting.1 setting.2) DEFAULT_CONFIG := by
  rw [Config.parse, fromUtf8_bytes]
  exact foldlM_lines (lines text)

/-- Without white space around the keys and their values there is nothing to ignore. -/
theorem lastValue_trimmed (h : ∀ setting ∈ settings text, ∀ key : Key, trim setting.1 = key.name →
    trim setting.1 = setting.1 ∧ trim setting.2 = setting.2) (key : Key) :
    lastValue (settings text) key = lastValue (trimmedSettings text) key := by
  have hname : ∀ key : Key, trim key.name = key.name := by
    intro key
    cases key <;> decide
  rw [lastValue, lastValue, trimmedSettings]
  generalize key.get DEFAULT_CONFIG = value
  generalize settings text = sets at h
  induction sets generalizing value with
  | nil => rfl
  | cons setting sets ih =>
      have htidy := h setting List.mem_cons_self key
      have hiff : trim setting.1 = key.name ↔ setting.1 = key.name :=
        ⟨fun he => (htidy he).1.symm.trans he, fun he => by rw [he, hname]⟩
      have hvalue : (if trim setting.1 = key.name then key.read (trim setting.2) else value) =
          if setting.1 = key.name then key.read setting.2 else value := by
        by_cases hkey : setting.1 = key.name
        · rw [if_pos (hiff.mpr hkey), if_pos hkey, (htidy (hiff.mpr hkey)).2]
        · rw [if_neg (mt hiff.mp hkey), if_neg hkey]
      rw [List.map_cons, lastOr_cons, lastOr_cons, hvalue]
      exact ih _ fun s hs => h s (List.mem_cons_of_mem _ hs)

end Ysos.Boot
