import Ysos.FileSystem
import Ysos.Stateful

/-! # Reading from the keyboard

`read_line` and `read_key` decode UTF-8 by hand: the first byte of a character says how many bytes
follow, and their values are not checked.

* `Stdin.toUtf8_append`: the number that `to_utf8` assembles.
* `readLine_items`: characters and backspaces give the line that they spell.
* `readLine_returns_iff`: `read_line` panics exactly when the bytes of a character give a surrogate,
  or a number beyond the last character. -/

namespace Ysos.Stdin

open Stateful
open Fat16 (Str)

/-! ### The calls -/

/-- The ends of a call without a result: it panics, or waits for a byte that does not come. -/
inductive Halt where
  | panics | waits
  deriving DecidableEq

/-- A call that takes bytes from the keyboard; the state is what is still to come. -/
abbrev Keys := Stateful (List UInt8) Halt

def isUtf8 (ch : UInt8) : Bool :=
  ch &&& 0x80 = 0 ∨ ch &&& 0xE0 = 0xC0 ∨ ch &&& 0xF0 = 0xE0 ∨ ch &&& 0xF8 = 0xF0

/-- `pop_key`: its loop ends with the next byte. -/
def popKey : Keys UInt8
  | [] => (.error .waits, [])
  | key :: keys => (.ok key, keys)

def toUtf8 (ch : UInt8) : Keys UInt32 :=
  if ch &&& 0x80 = 0 then return ch.toUInt32
  else if ch &&& 0xE0 = 0xC0 then do
    let codepoint := (ch &&& 0x1F).toUInt32 <<< 6
    let key ← popKey
    return codepoint ||| (key &&& 0x3F).toUInt32
  else if ch &&& 0xF0 = 0xE0 then do
    let codepoint := (ch &&& 0x0F).toUInt32 <<< 12
    let key ← popKey
    let codepoint := codepoint ||| ((key &&& 0x3F).toUInt32 <<< 6)
    let key ← popKey
    return codepoint ||| (key &&& 0x3F).toUInt32
  else if ch &&& 0xF8 = 0xF0 then do
    let codepoint := (ch &&& 0x07).toUInt32 <<< 18
    let key ← popKey
    let codepoint := codepoint ||| ((key &&& 0x3F).toUInt32 <<< 12)
    let key ← popKey
    let codepoint := codepoint ||| ((key &&& 0x3F).toUInt32 <<< 6)
    let key ← popKey
    return codepoint ||| (key &&& 0x3F).toUInt32
  else return 0

/-- `char::from_u32`. -/
def fromU32 (codepoint : UInt32) : Option Char :=
  if h : codepoint.isValidChar then some ⟨codepoint, h⟩ else none

def unwrap {α : Type} : Option α → Keys α
  | some a => pure a
  | none => fail .panics

/-- The loop of `read_line`; each round takes a byte. -/
def readLoop : ℕ → Str → Keys Str
  | 0, _ => fail .waits
  | n + 1, string => do
      let ch ← popKey
      if ch = 0x0d then return string
      else if ch = 0x03 then return []
      else if ch = 0x08 ∨ ch = 0x7F then readLoop n string.dropLast
      else if isUtf8 ch then do
        let codepoint ← toUtf8 ch
        let utfChar ← unwrap (fromU32 codepoint)
        readLoop n (string ++ [utfChar])
      else readLoop n (string ++ [Char.ofNat ch.toNat])

/-- `read_line`, with more rounds than bytes. -/
def readLine : Keys Str := fun keys => readLoop (keys.length + 1) [] keys

def readKey : Keys (Option Char) := do
  let ch ← popKey
  if isUtf8 ch then do
    let codepoint ← toUtf8 ch
    return fromU32 codepoint
  else return some (Char.ofNat ch.toNat)

theorem popKey_bind {α : Type} (key : UInt8) (keys : List UInt8) (f : UInt8 → Keys α) :
    (popKey >>= f) (key :: keys) = f key keys := rfl

/-! ### Bits of a byte -/

variable {ch : UInt8} {keys tail rest : List UInt8} {string : Str} {n : ℕ}

/-- What the masks of `to_utf8` say about a first byte. -/
theorem masks (ch : UInt8) :
    (ch &&& 0x80 = 0 ↔ ch.toNat < 0x80) ∧
    (ch &&& 0xE0 = 0xC0 ↔ 0xC0 ≤ ch.toNat ∧ ch.toNat < 0xE0) ∧
    (ch &&& 0xF0 = 0xE0 ↔ 0xE0 ≤ ch.toNat ∧ ch.toNat < 0xF0) ∧
    (ch &&& 0xF8 = 0xF0 ↔ 0xF0 ≤ ch.toNat ∧ ch.toNat < 0xF8) := by
  have h : ∀ b : Fin 256,
      (UInt8.ofNat b &&& 0x80 = 0 ↔ b.val < 0x80) ∧
      (UInt8.ofNat b &&& 0xE0 = 0xC0 ↔ 0xC0 ≤ b.val ∧ b.val < 0xE0) ∧
      (UInt8.ofNat b &&& 0xF0 = 0xE0 ↔ 0xE0 ≤ b.val ∧ b.val < 0xF0) ∧
      (UInt8.ofNat b &&& 0xF8 = 0xF0 ↔ 0xF0 ≤ b.val ∧ b.val < 0xF8) := by decide +kernel
  simpa using h ⟨ch.toNat, ch.toNat_lt⟩

theorem isUtf8_iff : isUtf8 ch = true ↔ ch.toNat < 0x80 ∨ 0xC0 ≤ ch.toNat ∧ ch.toNat < 0xF8 := by
  obtain ⟨h1, h2, h3, h4⟩ := masks ch
  rw [isUtf8, decide_eq_true_iff, h1, h2, h3, h4]
  omega

theorem and_low (b : UInt8) :
    (b &&& 0x1F).toNat = b.toNat % 32 ∧ (b &&& 0x0F).toNat = b.toNat % 16 ∧
      (b &&& 0x07).toNat = b.toNat % 8 ∧ (b &&& 0x3F).toNat = b.toNat % 64 := by
  simp only [UInt8.toNat_and]
  exact ⟨Nat.and_two_pow_sub_one_eq_mod _ 5, Nat.and_two_pow_sub_one_eq_mod _ 4,
    Nat.and_two_pow_sub_one_eq_mod _ 3, Nat.and_two_pow_sub_one_eq_mod _ 6⟩

theorem toNat_or_low {x y : UInt32} (i : ℕ) (hx : 2 ^ i ∣ x.toNat) (hy : y.toNat < 2 ^ i) :
    (x ||| y).toNat = x.toNat + y.toNat := by
  obtain ⟨k, hk⟩ := hx
  have h := Nat.shiftLeft_add_eq_or_of_lt hy k
  rw [Nat.shiftLeft_eq, Nat.mul_comm] at h
  rw [UInt32.toNat_or, hk, h]

/-- Six bits of a byte, below the bits of a number. -/
theorem toNat_or_key {x y : UInt32} {k m : ℕ} (i : ℕ) (hx : x.toNat = k) (hk : 2 ^ (i + 6) ∣ k)
    (hy : y.toNat = m % 64 * 2 ^ i) : (x ||| y).toNat = k + m % 64 * 2 ^ i := by
  rw [toNat_or_low (i + 6) (hx ▸ hk), hx, hy]
  rw [hy, Nat.pow_add, Nat.mul_comm (2 ^ i)]
  exact (Nat.mul_lt_mul_right (by positivity)).mpr (Nat.mod_lt _ (by decide))

theorem toNat_shift {b : UInt8} {i : ℕ} (hi : i ≤ 18) :
    (b.toUInt32 <<< UInt32.ofNat i).toNat = b.toNat * 2 ^ i := by
  have hb : b.toNat * 2 ^ i < 2 ^ 32 := by
    calc b.toNat * 2 ^ i < 2 ^ 8 * 2 ^ i := (Nat.mul_lt_mul_right (by positivity)).mpr b.toNat_lt
      _ ≤ 2 ^ 8 * 2 ^ 18 := Nat.mul_le_mul_left _ (Nat.pow_le_pow_right (by decide) hi)
      _ < 2 ^ 32 := by decide
  have hmod : i % 2 ^ 32 % 32 = i := by omega
  rw [UInt32.toNat_shiftLeft, UInt32.toNat_ofNat', hmod, Nat.shiftLeft_eq, UInt8.toNat_toUInt32,
    Nat.mod_eq_of_lt hb]

/-! ### `to_utf8` -/

/-- How many bytes `to_utf8` takes after the first one. -/
def taken (ch : UInt8) : ℕ :=
  if ch.toNat < 0xC0 then 0
  else if ch.toNat < 0xE0 then 1
  else if ch.toNat < 0xF0 then 2
  else if ch.toNat < 0xF8 then 3
  else 0

/-- The bits of a first byte and six of each byte after it. -/
def assembled (ch : UInt8) (tail : List UInt8) : ℕ :=
  tail.foldl (fun codepoint key => codepoint * 64 + key.toNat % 64)
    (ch.toNat % if tail = [] then 128 else 2 ^ (6 - tail.length))

theorem toUtf8_append (hch : isUtf8 ch = true) (htail : tail.length = taken ch)
    (keys : List UInt8) :
    ∃ codepoint, toUtf8 ch (tail ++ keys) = (.ok codepoint, keys) ∧
      codepoint.toNat = assembled ch tail := by
  obtain ⟨h1, h2, h3, h4⟩ := masks ch
  obtain ⟨l5, l4, l3, -⟩ := and_low ch
  have l6 : ∀ key : UInt8, (key &&& 0x3F).toUInt32.toNat = key.toNat % 64 * 2 ^ 0 := fun key => by
    rw [UInt8.toNat_toUInt32, (and_low key).2.2.2, Nat.pow_zero, Nat.mul_one]
  have shift6 : ∀ key : UInt8, ((key &&& 0x3F).toUInt32 <<< 6).toNat = key.toNat % 64 * 2 ^ 6 :=
    fun key => (toNat_shift (i := 6) (by decide)).trans (by rw [(and_low key).2.2.2])
  have shift12 : ∀ key : UInt8, ((key &&& 0x3F).toUInt32 <<< 12).toNat = key.toNat % 64 * 2 ^ 12 :=
    fun key => (toNat_shift (i := 12) (by decide)).trans (by rw [(and_low key).2.2.2])
  rw [isUtf8_iff] at hch
  rw [taken] at htail
  rw [toUtf8]
  simp only [h1, h2, h3, h4]
  rcases lt_or_ge ch.toNat 0x80 with hlt | hge
  · rw [if_pos (by omega)] at htail
    obtain rfl := List.eq_nil_of_length_eq_zero htail
    rw [if_pos hlt]
    exact ⟨_, rfl, (Nat.mod_eq_of_lt hlt).symm⟩
  rw [if_neg (by omega)] at htail ⊢
  rcases lt_or_ge ch.toNat 0xE0 with hlt | hge
  · rw [if_pos hlt] at htail
    obtain ⟨a, rfl⟩ := List.length_eq_one_iff.mp htail
    rw [if_pos (by omega)]
    have hlead : ((ch &&& 0x1F).toUInt32 <<< 6).toNat = ch.toNat % 32 * 2 ^ 6 :=
      (toNat_shift (i := 6) (by decide)).trans (by rw [l5])
    refine ⟨_, rfl, ?_⟩
    rw [toNat_or_key 0 hlead (by omega) (l6 a)]
    simp [assembled]
  rw [if_neg (by omega)] at htail ⊢
  rcases lt_or_ge ch.toNat 0xF0 with hlt | hge
  · rw [if_pos hlt] at htail
    obtain ⟨a, b, rfl⟩ := List.length_eq_two.mp htail
    rw [if_pos (by omega)]
    have hlead : ((ch &&& 0x0F).toUInt32 <<< 12).toNat = ch.toNat % 16 * 2 ^ 12 :=
      (toNat_shift (i := 12) (by decide)).trans (by rw [l4])
    have hfirst := toNat_or_key 6 hlead (by omega) (shift6 a)
    refine ⟨_, rfl, ?_⟩
    rw [toNat_or_key 0 hfirst (by omega) (l6 b)]
    simp [assembled]
    omega
  rw [if_neg (by omega), if_pos (by omega)] at htail ⊢
  obtain ⟨a, b, c, rfl⟩ := List.length_eq_three.mp htail
  have hlead : ((ch &&& 0x07).toUInt32 <<< 18).toNat = ch.toNat % 8 * 2 ^ 18 :=
    (toNat_shift (i := 18) (by decide)).trans (by rw [l3])
  have hfirst := toNat_or_key 12 hlead (by omega) (shift12 a)
  have hsecond := toNat_or_key 6 hfirst (by omega) (shift6 b)
  refine ⟨_, rfl, ?_⟩
  rw [toNat_or_key 0 hsecond (by omega) (l6 c)]
  simp [assembled]
  omega

/-- A character that breaks off is waited for. -/
theorem toUtf8_waits (hkeys : keys.length < taken ch) :
    toUtf8 ch keys = (.error .waits, []) := by
  obtain ⟨h1, h2, h3, h4⟩ := masks ch
  rw [taken] at hkeys
  rw [toUtf8]
  simp only [h1, h2, h3, h4]
  split_ifs at hkeys with hc0 he0 hf0 hf8
  · omega
  · rw [if_neg (by omega), if_pos (by omega)]
    obtain rfl := List.eq_nil_of_length_eq_zero (Nat.lt_one_iff.mp hkeys)
    rfl
  · rw [if_neg (by omega), if_neg (by omega), if_pos (by omega)]
    match keys, hkeys with
    | [], _ => rfl
    | [_], _ => rfl
  · rw [if_neg (by omega), if_neg (by omega), if_neg (by omega), if_pos (by omega)]
    match keys, hkeys with
    | [], _ => rfl
    | [_], _ => rfl
    | [_, _], _ => rfl
  · omega

/-! ### Characters -/

theorem fromU32_eq (c : Char) : fromU32 c.val = some c := dif_pos c.valid

theorem utf8EncodeChar_eq (c : Char) : ∃ ch tail, String.utf8EncodeChar c = ch :: tail ∧
    isUtf8 ch = true ∧ tail.length = taken ch ∧ assembled ch tail = c.toNat ∧
    (ch.toNat = c.toNat ∨ 0x80 ≤ c.toNat ∧ 0x80 ≤ ch.toNat) := by
  have hval : c.val.toNat < 0x110000 := by
    rcases c.valid with h | ⟨-, h⟩
    · exact h.trans (by decide)
    · exact h
  have hnat : ∀ m, m < 256 → (UInt8.ofNat m).toNat = m := fun m hm => Nat.mod_eq_of_lt hm
  simp only [isUtf8_iff, taken, Char.toNat, String.utf8EncodeChar]
  generalize c.val.toNat = v at hval
  split_ifs with h1 h2 h3
  · refine ⟨_, _, rfl, ?_⟩
    rw [hnat _ (by omega)]
    refine ⟨by omega, ?_, ?_, Or.inl rfl⟩
    · rw [if_pos (by omega)]
      rfl
    · simp only [assembled, List.foldl_nil, if_true, hnat v (by omega)]
      omega
  · refine ⟨_, _, rfl, ?_⟩
    rw [hnat _ (by omega)]
    refine ⟨by omega, ?_, ?_, Or.inr ⟨by omega, by omega⟩⟩
    · rw [if_neg (by omega), if_pos (by omega)]
      rfl
    · simp [assembled]
      omega
  · refine ⟨_, _, rfl, ?_⟩
    rw [hnat _ (by omega)]
    refine ⟨by omega, ?_, ?_, Or.inr ⟨by omega, by omega⟩⟩
    · rw [if_neg (by omega), if_neg (by omega), if_pos (by omega)]
      rfl
    · simp [assembled]
      omega
  · refine ⟨_, _, rfl, ?_⟩
    rw [hnat _ (by omega)]
    refine ⟨by omega, ?_, ?_, Or.inr ⟨by omega, by omega⟩⟩
    · rw [if_neg (by omega), if_neg (by omega), if_neg (by omega), if_pos (by omega)]
      rfl
    · simp [assembled]
      omega

theorem toUtf8_char (c : Char) : ∃ ch tail, String.utf8EncodeChar c = ch :: tail ∧
    isUtf8 ch = true ∧ (ch.toNat = c.toNat ∨ 0x80 ≤ c.toNat ∧ 0x80 ≤ ch.toNat) ∧
    ∀ keys, toUtf8 ch (tail ++ keys) = (.ok c.val, keys) := by
  obtain ⟨ch, tail, hbytes, hch, htail, hvalue, hfirst⟩ := utf8EncodeChar_eq c
  refine ⟨ch, tail, hbytes, hch, hfirst, fun keys => ?_⟩
  obtain ⟨codepoint, hrun, hcode⟩ := toUtf8_append hch htail keys
  have hc : codepoint = c.val := UInt32.toNat_inj.mp (hcode.trans hvalue)
  rw [hrun, hc]

theorem readKey_char (c : Char) (keys : List UInt8) :
    readKey (String.utf8EncodeChar c ++ keys) = (.ok (some c), keys) := by
  obtain ⟨ch, tail, hbytes, hch, -, hrun⟩ := toUtf8_char c
  rw [hbytes, List.cons_append, readKey, popKey_bind, if_pos hch,
    bind_ok (hrun keys), fromU32_eq]
  rfl

/-! ### A round of `read_line` -/

theorem readLoop_end : readLoop (n + 1) string (0x0d :: keys) = (.ok string, keys) := by
  rw [readLoop, popKey_bind, if_pos rfl]
  rfl

theorem readLoop_clear : readLoop (n + 1) string (0x03 :: keys) = (.ok [], keys) := by
  rw [readLoop, popKey_bind, if_neg (by decide), if_pos rfl]
  rfl

theorem readLoop_erase (h : ch = 0x08 ∨ ch = 0x7F) :
    readLoop (n + 1) string (ch :: keys) = readLoop n string.dropLast keys := by
  have hcr : ch ≠ 0x0d := by rcases h with rfl | rfl <;> decide
  have hetx : ch ≠ 0x03 := by rcases h with rfl | rfl <;> decide
  rw [readLoop, popKey_bind, if_neg hcr, if_neg hetx, if_pos h]

/-! ### What was typed -/

/-- A character that is no key of its own, or a key that erases. -/
inductive Item where
  | char (c : Char) (ok : c.toNat ∉ [0x0d, 0x03, 0x08, 0x7F])
  | erase (key : UInt8) (ok : key = 0x08 ∨ key = 0x7F)

namespace Item

def bytes : Item → List UInt8
  | char c _ => String.utf8EncodeChar c
  | erase key _ => [key]

def apply (line : Str) : Item → Str
  | char c _ => line ++ [c]
  | erase _ _ => line.dropLast

theorem bytes_length (item : Item) : 1 ≤ item.bytes.length := by
  cases item with
  | char c _ => exact List.length_pos_iff.mpr String.utf8EncodeChar_ne_nil
  | erase _ _ => exact Nat.le_refl 1

end Item

theorem readLoop_item (item : Item) :
    readLoop (n + 1) string (item.bytes ++ keys) = readLoop n (item.apply string) keys := by
  cases item with
  | erase key ok => exact readLoop_erase ok
  | char c ok =>
      obtain ⟨ch, tail, hbytes, hch, hfirst, hrun⟩ := toUtf8_char c
      simp only [List.mem_cons, List.not_mem_nil, or_false, not_or] at ok
      have hne : ∀ key : UInt8, key.toNat < 0x80 → c.toNat ≠ key.toNat → ch ≠ key := by
        rintro key hkey hc rfl
        omega
      have herase : ¬ (ch = 0x08 ∨ ch = 0x7F) := by
        rintro (h | h)
        · exact hne 0x08 (by decide) ok.2.2.1 h
        · exact hne 0x7F (by decide) ok.2.2.2 h
      rw [Item.bytes, hbytes, List.cons_append, readLoop, popKey_bind,
        if_neg (hne 0x0d (by decide) ok.1), if_neg (hne 0x03 (by decide) ok.2.1), if_neg herase,
        if_pos hch, bind_ok (hrun keys), fromU32_eq]
      rfl

theorem readLoop_items (items : List Item) (h : items.length < n) :
    readLoop n string (items.flatMap Item.bytes ++ 0x0d :: keys) =
      (.ok (items.foldl Item.apply string), keys) := by
  induction items generalizing n string with
  | nil =>
      obtain ⟨n, rfl⟩ := Nat.exists_eq_add_of_lt h
      exact readLoop_end
  | cons item items ih =>
      cases n with
      | zero => cases h
      | succ n =>
          rw [List.flatMap_cons, List.append_assoc, readLoop_item]
          exact ih (Nat.lt_of_succ_lt_succ h)

/-- **Typed lines.**  The line has each character, and each backspace took away the last one that was
there, or nothing. -/
theorem readLine_items (items : List Item) (rest : List UInt8) :
    readLine (items.flatMap Item.bytes ++ 0x0d :: rest) =
      (.ok (items.foldl Item.apply []), rest) := by
  refine readLoop_items items (Nat.lt_succ_of_le ?_)
  have hlen : items.length ≤ (items.flatMap Item.bytes).length := by
    induction items with
    | nil => exact Nat.le_refl 0
    | cons item items ih =>
        have := item.bytes_length
        rw [List.length_cons, List.flatMap_cons, List.length_append]
        omega
  rw [List.length_append]
  omega

/-- Three characters of one, two and four bytes; the last one is erased. -/
example : readLine [0x61, 0xC3, 0xA9, 0xF0, 0x9F, 0x98, 0x80, 0x7F, 0x0d] = (.ok ['a', 'é'], []) := by
  decide

/-! ### Any bytes -/

/-- The bytes after a first byte do not give a surrogate, or a number beyond the last character. -/
def Scalar (ch : UInt8) (tail : List UInt8) : Prop :=
  match tail with
  | [a, _] => ¬ (ch = 0xED ∧ 0x20 ≤ a &&& 0x3F)
  | [a, b, _] =>
      ¬ (ch = 0xF0 ∧ a &&& 0x3F = 0x0D ∧ 0x20 ≤ b &&& 0x3F) ∧
        (ch < 0xF4 ∨ ch = 0xF4 ∧ a &&& 0x3F < 0x10)
  | _ => True

/-- All characters are such before a carriage return or an end-of-text key, where a character is a
first byte and the bytes that are taken with it. -/
def Scalars : List UInt8 → Prop
  | [] => True
  | ch :: keys => ch = 0x0d ∨ ch = 0x03 ∨
      Scalar ch (keys.take (taken ch)) ∧ Scalars (keys.drop (taken ch))
termination_by keys => keys.length
decreasing_by
  rw [List.length_drop, List.length_cons]
  omega

theorem scalars_cons : Scalars (ch :: keys) ↔ ch = 0x0d ∨ ch = 0x03 ∨
    Scalar ch (keys.take (taken ch)) ∧ Scalars (keys.drop (taken ch)) := by
  rw [Scalars]

theorem scalar_iff (hch : isUtf8 ch = true) (htail : tail.length = taken ch) :
    Scalar ch tail ↔ (assembled ch tail).isValidChar := by
  have l6 : ∀ key : UInt8, (key &&& 0x3F).toNat = key.toNat % 64 := fun key => (and_low key).2.2.2
  rw [isUtf8_iff] at hch
  rw [taken] at htail
  rw [Nat.isValidChar]
  split_ifs at htail with hc0 he0 hf0 hf8
  · obtain rfl := List.eq_nil_of_length_eq_zero htail
    simp only [Scalar, assembled, List.foldl_nil, if_true, true_iff]
    omega
  · obtain ⟨a, rfl⟩ := List.length_eq_one_iff.mp htail
    simp only [Scalar, assembled, true_iff]
    simp
    omega
  · obtain ⟨a, b, rfl⟩ := List.length_eq_two.mp htail
    simp only [Scalar, ← UInt8.toNat_inj, UInt8.le_iff_toNat_le, l6]
    simp [assembled]
    omega
  · obtain ⟨a, b, c, rfl⟩ := List.length_eq_three.mp htail
    simp only [Scalar, ← UInt8.toNat_inj, UInt8.le_iff_toNat_le, UInt8.lt_iff_toNat_lt, l6]
    simp [assembled]
    omega
  · omega

theorem scalar_short (h : tail.length < taken ch) : Scalar ch tail := by
  rw [taken] at h
  unfold Scalar
  split
  · rintro ⟨rfl, -⟩
    simp at h
  · split_ifs at h <;> simp at h
  · trivial

/-! ### Rounds on any bytes -/

/-- A round waits for the rest of a character, or takes a character, or panics. -/
inductive Round (n : ℕ) (string : Str) (ch : UInt8) (keys : List UInt8) : Prop
  | waits (hkeys : keys.length < taken ch)
      (hrun : readLoop (n + 1) string (ch :: keys) = (.error .waits, []))
  | next (hscalar : Scalar ch (keys.take (taken ch))) (string' : Str)
      (hrun : readLoop (n + 1) string (ch :: keys) = readLoop n string' (keys.drop (taken ch)))
  | panics (hscalar : ¬ Scalar ch (keys.take (taken ch)))
      (hrun : (readLoop (n + 1) string (ch :: keys)).1 = .error .panics)

theorem readLoop_round (n : ℕ) (string : Str) (keys : List UInt8) (hcr : ch ≠ 0x0d)
    (hetx : ch ≠ 0x03) : Round n string ch keys := by
  have hbyte : ch.toNat < 0x80 → taken ch = 0 := fun h => by rw [taken, if_pos (by omega)]
  by_cases herase : ch = 0x08 ∨ ch = 0x7F
  · have hzero : taken ch = 0 := hbyte (by rcases herase with rfl | rfl <;> decide)
    refine .next ?_ string.dropLast ?_
    · rw [hzero, List.take_zero]
      trivial
    · rw [hzero, List.drop_zero]
      exact readLoop_erase herase
  have hloop : readLoop (n + 1) string (ch :: keys) = (if isUtf8 ch then do
        let codepoint ← toUtf8 ch
        let utfChar ← unwrap (fromU32 codepoint)
        readLoop n (string ++ [utfChar])
      else readLoop n (string ++ [Char.ofNat ch.toNat])) keys := by
    rw [readLoop, popKey_bind, if_neg hcr, if_neg hetx, if_neg herase]
  by_cases hch : isUtf8 ch = true
  · rw [if_pos hch] at hloop
    rcases lt_or_ge keys.length (taken ch) with hkeys | hkeys
    · exact .waits hkeys (hloop.trans (bind_error (toUtf8_waits hkeys)))
    have htail : (keys.take (taken ch)).length = taken ch := List.length_take_of_le hkeys
    obtain ⟨codepoint, hrun, hcode⟩ := toUtf8_append hch htail (keys.drop (taken ch))
    rw [List.take_append_drop] at hrun
    rw [bind_ok hrun] at hloop
    have hvalid : Scalar ch (keys.take (taken ch)) ↔ codepoint.isValidChar := by
      rw [scalar_iff hch htail, ← hcode]
    by_cases hscalar : Scalar ch (keys.take (taken ch))
    · rw [fromU32, dif_pos (hvalid.mp hscalar)] at hloop
      exact .next hscalar _ hloop
    · rw [fromU32, dif_neg (mt hvalid.mpr hscalar)] at hloop
      exact .panics hscalar (congrArg Prod.fst hloop)
  · have hzero : taken ch = 0 := by
      rw [isUtf8_iff] at hch
      rw [taken]
      split_ifs <;> omega
    rw [if_neg hch] at hloop
    refine .next ?_ _ (hloop.trans (by rw [hzero, List.drop_zero]))
    rw [hzero, List.take_zero]
    trivial

theorem readLoop_panics_iff (h : keys.length < n) :
    (readLoop n string keys).1 = .error .panics ↔ ¬ Scalars keys := by
  induction n generalizing string keys with
  | zero => cases h
  | succ n ih =>
      cases keys with
      | nil =>
          rw [Scalars]
          exact ⟨nofun, fun h => absurd trivial h⟩
      | cons ch keys =>
          by_cases hcr : ch = 0x0d
          · rw [hcr, readLoop_end, scalars_cons]
            exact ⟨nofun, fun h => absurd (Or.inl rfl) h⟩
          by_cases hetx : ch = 0x03
          · rw [hetx, readLoop_clear, scalars_cons]
            exact ⟨nofun, fun h => absurd (Or.inr (Or.inl rfl)) h⟩
          rw [scalars_cons, or_iff_right hcr, or_iff_right hetx]
          cases readLoop_round n string keys hcr hetx with
          | waits hkeys hrun =>
              rw [hrun, List.take_of_length_le hkeys.le, List.drop_of_length_le hkeys.le, Scalars]
              exact ⟨nofun, fun h => absurd ⟨scalar_short hkeys, trivial⟩ h⟩
          | next hscalar string' hrun =>
              have hlen : (keys.drop (taken ch)).length < n := by
                rw [List.length_drop]
                rw [List.length_cons] at h
                omega
              rw [hrun, ih hlen, and_iff_right hscalar]
          | panics hscalar hrun => exact ⟨fun _ hall => hscalar hall.1, fun _ => hrun⟩

/-! ### Carriage returns -/

/-- A carriage return is the next byte, or four of them in a row are to come. -/
def Ending (keys : List UInt8) : Prop :=
  keys[0]? = some 0x0d ∨ ∃ i, ∀ j < 4, keys[i + j]? = some 0x0d

theorem taken_le (ch : UInt8) : taken ch ≤ 3 := by
  rw [taken]
  split_ifs <;> omega

/-- A character takes three of the four at most. -/
theorem Ending.drop (h : Ending (ch :: keys)) (hcr : ch ≠ 0x0d) :
    Ending (keys.drop (taken ch)) := by
  have htaken := taken_le ch
  obtain ⟨i, hi⟩ := h.resolve_left fun h => hcr (Option.some.inj h)
  cases i with
  | zero => exact absurd (Option.some.inj (hi 0 (by decide))) hcr
  | succ i =>
      have hnext : ∀ j < 4, keys[i + j]? = some 0x0d := fun j hj => by
        have := hi j hj
        rwa [Nat.add_right_comm, List.getElem?_cons_succ] at this
      rcases le_or_gt (taken ch) i with hle | hlt
      · refine Or.inr ⟨i - taken ch, fun j hj => ?_⟩
        rw [List.getElem?_drop, ← Nat.add_assoc, Nat.add_sub_cancel' hle]
        exact hnext j hj
      · refine Or.inl ?_
        rw [List.getElem?_drop, Nat.add_zero]
        have := hnext (taken ch - i) (by omega)
        rwa [Nat.add_sub_cancel' hlt.le] at this

theorem readLoop_ends (string : Str) (h : keys.length < n) (hend : Ending keys) :
    (readLoop n string keys).1 ≠ .error .waits := by
  induction n generalizing string keys with
  | zero => cases h
  | succ n ih =>
      cases keys with
      | nil =>
          rcases hend with hend | ⟨i, hi⟩
          · cases hend
          · cases hi 0 (by decide)
      | cons ch keys =>
          by_cases hcr : ch = 0x0d
          · rw [hcr, readLoop_end]
            nofun
          by_cases hetx : ch = 0x03
          · rw [hetx, readLoop_clear]
            nofun
          cases readLoop_round n string keys hcr hetx with
          | waits hkeys hrun =>
              have hdrop := hend.drop hcr
              rw [List.drop_of_length_le hkeys.le] at hdrop
              rcases hdrop with hdrop | ⟨i, hi⟩
              · cases hdrop
              · cases hi 0 (by decide)
          | next hscalar string' hrun =>
              have hlen : (keys.drop (taken ch)).length < n := by
                rw [List.length_drop]
                rw [List.length_cons] at h
                omega
              rw [hrun]
              exact ih _ hlen (hend.drop hcr)
          | panics hscalar hrun =>
              rw [hrun]
              nofun

/-- **Any bytes.**  `read_line` panics exactly when the bytes of a character before its end give no
scalar value; four carriage returns in a row end it otherwise. -/
theorem readLine_returns_iff (bytes : List UInt8) :
    ((readLine bytes).1 ≠ .error .panics ↔ Scalars bytes) ∧
      (List.replicate 4 0x0d <:+: bytes →
        ((∃ line, (readLine bytes).1 = .ok line) ↔ Scalars bytes)) := by
  have hiff : (readLine bytes).1 ≠ .error .panics ↔ Scalars bytes := by
    rw [readLine, Ne, readLoop_panics_iff (Nat.lt_succ_self _), not_not]
  refine ⟨hiff, fun ⟨before, after, hbytes⟩ => ?_⟩
  have hend : Ending bytes := by
    refine Or.inr ⟨before.length, fun j hj => ?_⟩
    rw [← hbytes, List.append_assoc, List.getElem?_append_right (Nat.le_add_right _ _),
      Nat.add_sub_cancel_left, List.getElem?_append_left (by simpa), List.getElem?_replicate,
      if_pos hj]
  have hwaits := readLoop_ends [] (Nat.lt_succ_self bytes.length) hend
  rw [← hiff]
  constructor
  · rintro ⟨line, hline⟩
    rw [hline]
    nofun
  · intro hpanics
    cases hrun : (readLine bytes).1 with
    | ok line => exact ⟨line, rfl⟩
    | error halt =>
        cases halt with
        | panics => exact absurd hrun hpanics
        | waits => exact absurd hrun hwaits

/-- A line with a byte that starts no character. -/
theorem readLine_returns_iff_example :
    ∃ line, (readLine [0x80, 0x0d, 0x0d, 0x0d, 0x0d]).1 = .ok line := by
  refine ((readLine_returns_iff _).2 ⟨[0x80], [], rfl⟩).mpr ?_
  exact scalars_cons.mpr (Or.inr (Or.inr ⟨trivial, scalars_cons.mpr (Or.inl rfl)⟩))

/-- The three bytes of a surrogate. -/
theorem surrogate_panics :
    List.replicate 4 0x0d <:+: [0xED, 0xA0, 0x80, 0x0d, 0x0d, 0x0d, 0x0d] ∧
      (readLine [0xED, 0xA0, 0x80, 0x0d, 0x0d, 0x0d, 0x0d]).1 = .error .panics :=
  ⟨⟨[0xED, 0xA0, 0x80], [], rfl⟩, rfl⟩

end Ysos.Stdin
