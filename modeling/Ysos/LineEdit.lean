import Ysos.Stdin
import Ysos.Text

/-! # The line editor of the shell

`read_line_history` keeps its line in a string and the cursor as an index of bytes, but each key moves
the cursor by one.

* `Editor.round`: the body of its loop.
* `Reference`: an editor whose cursor is between two characters.
* `edits_iff`: the two edit a line alike, with the cursor between characters, exactly when each
  character that a key inserts, erases or passes is of one byte. -/

namespace Ysos.Sh

open Stateful Stdin Text
open Fat16 (Str)

/-! ### Characters of a string -/

/-- `String::insert`, or `none` for its panic. -/
def insert (s : Str) (i : ℕ) (c : Char) : Option Str :=
  (splitAtByte s i).map fun (a, b) => a ++ c :: b

/-- `String::remove`, or `none` for its panic. -/
def remove (s : Str) (i : ℕ) : Option Str :=
  match splitAtByte s i with
  | some (a, _ :: b) => some (a ++ b)
  | _ => none

/-- `char::is_control`. -/
def isControl (c : Char) : Bool := c.toNat < 0x20 ∨ 0x7F ≤ c.toNat ∧ c.toNat < 0xA0

/-! ### `read_line_history` -/

/-- The local variables, with the place in the history. -/
structure Editor where
  buffer : Str
  cursor : ℕ
  historyIndex : Option ℕ
  deriving DecidableEq

namespace Editor

/-- The keys for backspace and delete. -/
def backspace (e : Editor) : Keys Editor :=
  if 0 < e.cursor then do
    let buffer ← unwrap (remove e.buffer (e.cursor - 1))
    return { e with buffer, cursor := e.cursor - 1 }
  else return e

/-- The last character of an escape sequence. -/
def arrow (history : List Str) (e : Editor) (code : Char) : Editor :=
  if code = 'A' then
    if history = [] then e
    else
      let idx := match e.historyIndex with
        | some i => if 0 < i then i - 1 else 0
        | none => history.length - 1
      match history[idx]? with
      | some cmd => { buffer := cmd, cursor := byteLen cmd, historyIndex := some idx }
      | none => { e with historyIndex := some idx }
  else if code = 'B' then
    if history = [] then e
    else
      match e.historyIndex with
      | none => e
      | some i =>
          if i < history.length - 1 then
            match history[i + 1]? with
            | some cmd => { buffer := cmd, cursor := byteLen cmd, historyIndex := some (i + 1) }
            | none => { e with historyIndex := some (i + 1) }
          else { buffer := [], cursor := 0, historyIndex := some history.length }
  else if code = 'C' then
    if e.cursor < byteLen e.buffer then { e with cursor := e.cursor + 1 } else e
  else if code = 'D' then
    if 0 < e.cursor then { e with cursor := e.cursor - 1 } else e
  else e

def character (e : Editor) (c : Char) : Keys Editor :=
  if !isControl c ∨ c = ' ' ∨ c = '\t' then do
    let buffer ← unwrap (insert e.buffer e.cursor c)
    return { e with buffer, cursor := e.cursor + 1 }
  else return e

/-- The body of the loop: the line and the place in the history at its end, or the variables. -/
def round (history : List Str) (e : Editor) : Keys (Sum (Str × Option ℕ) Editor) := do
  match ← readKey with
  | none => return .inr e
  | some c =>
      if c = '\n' ∨ c = '\r' then return .inl (e.buffer, e.historyIndex)
      else if c = '\x08' ∨ c = '\x7F' then do
        let e ← e.backspace
        return .inr e
      else if c = '\x1b' then do
        let first ← readKey
        if first = some '[' then do
          match ← readKey with
          | some code => return .inr (e.arrow history code)
          | none => return .inr e
        else return .inr e
      else do
        let e ← e.character c
        return .inr e

def loop (history : List Str) : ℕ → Editor → Keys (Str × Option ℕ)
  | 0, _ => fail .waits
  | n + 1, e => do
      match ← e.round history with
      | .inl line => return line
      | .inr e => loop history n e

end Editor

/-- `read_line_history`, with more rounds than bytes. -/
def readLineHistory (history : List Str) (historyIndex : Option ℕ) : Keys (Str × Option ℕ) :=
  fun keys => Editor.loop history (keys.length + 1) ⟨[], 0, historyIndex⟩ keys

/-! ### Keys -/

inductive Direction where
  | up | down | right | left
  deriving DecidableEq

def Direction.code : Direction → Char
  | up => 'A'
  | down => 'B'
  | right => 'C'
  | left => 'D'

/-- A key before the end of a line; `escape` is a sequence that is no arrow. -/
inductive Key where
  | char (c : Char) (ok : c ∉ ['\n', '\r', '\x08', '\x7F', '\x1b'])
  | erase (c : Char) (ok : c = '\x08' ∨ c = '\x7F')
  | arrow (d : Direction)
  | escape (cs : Str)
      (ok : (∃ c, c ≠ '[' ∧ cs = [c]) ∨ ∃ c, c ∉ ['A', 'B', 'C', 'D'] ∧ cs = ['[', c])

/-- The characters that come from a key. -/
def Key.chars : Key → Str
  | char c _ => [c]
  | erase c _ => [c]
  | arrow d => ['\x1b', '[', d.code]
  | escape cs _ => '\x1b' :: cs

/-- The key at the end of a line. -/
abbrev Enter := {c : Char // c = '\n' ∨ c = '\r'}

/-- The bytes of keys and of the end of the line. -/
def typed (keys : List Key) (enter : Enter) : List UInt8 :=
  Str.bytes (keys.flatMap Key.chars ++ [enter.val])

/-! ### The reference editor -/

/-- A line, by its characters before and behind the cursor, and a place in the history; the place
behind the last entry is for the new line. -/
structure Reference where
  before : Str
  behind : Str
  index : Option ℕ

namespace Reference

def line (r : Reference) : Str := r.before ++ r.behind

/-- The entry before the place. -/
def up (history : List Str) (r : Reference) : Reference :=
  if history = [] then r
  else
    let i := r.index.getD history.length - 1
    match history[i]? with
    | some cmd => ⟨cmd, [], some i⟩
    | none => { r with index := some i }

/-- The entry behind the place, or a new line. -/
def down (history : List Str) (r : Reference) : Reference :=
  if history = [] then r
  else
    match r.index with
    | none => r
    | some i =>
        match history[i + 1]? with
        | some cmd => ⟨cmd, [], some (i + 1)⟩
        | none => ⟨[], [], some history.length⟩

def right (r : Reference) : Reference :=
  match r.behind with
  | c :: behind => { r with before := r.before ++ [c], behind }
  | [] => r

def left (r : Reference) : Reference :=
  match r.before.getLast? with
  | some c => { r with before := r.before.dropLast, behind := c :: r.behind }
  | none => r

/-- A control character, other than a tab, is not inserted. -/
def key (history : List Str) (r : Reference) : Key → Reference
  | .char c _ => if isControl c ∧ c ≠ '\t' then r else { r with before := r.before ++ [c] }
  | .erase _ _ => { r with before := r.before.dropLast }
  | .arrow .up => r.up history
  | .arrow .down => r.down history
  | .arrow .right => r.right
  | .arrow .left => r.left
  | .escape _ _ => r

def keys (history : List Str) (r : Reference) (ks : List Key) : Reference :=
  ks.foldl (key history) r

/-- The character that a key inserts, erases or passes. -/
def touched (r : Reference) : Key → Option Char
  | .char c _ => if isControl c ∧ c ≠ '\t' then none else some c
  | .erase _ _ => r.before.getLast?
  | .arrow .right => r.behind.head?
  | .arrow .left => r.before.getLast?
  | _ => none

/-- All these characters are of one byte. -/
def Plain (history : List Str) (r : Reference) : List Key → Prop
  | [] => True
  | k :: ks => (∀ c ∈ r.touched k, c.toNat < 0x80) ∧ Plain history (r.key history k) ks

end Reference

/-! ### Runs of the loop -/

/-- The loop comes from variables, with some bytes to come, to others. -/
inductive Reached (history : List Str) : Editor → List UInt8 → Editor → List UInt8 → Prop
  | refl (e : Editor) (keys : List UInt8) : Reached history e keys e keys
  | step {e e' e'' : Editor} {keys keys' keys'' : List UInt8}
      (hround : e.round history keys = (.ok (.inr e'), keys'))
      (hrest : Reached history e' keys' e'' keys'') : Reached history e keys e'' keys''

/-- The call gives the line of the reference editor, and its cursor is always between characters. -/
structure Edits (history : List Str) (index : Option ℕ) (keys : List Key) (enter : Enter) : Prop where
  line : readLineHistory history index (typed keys enter) =
    (.ok (((Reference.mk [] [] index).keys history keys).line,
      ((Reference.mk [] [] index).keys history keys).index), [])
  cursor : ∀ e rest, Reached history ⟨[], 0, index⟩ (typed keys enter) e rest →
    IsCharBoundary e.buffer e.cursor

/-! ### One round -/

variable {a b : Str} {c : Char} {history : List Str} {r : Reference} {e : Editor}
  {rest : List UInt8} {ks : List Key} {n : ℕ}

theorem bytes_cons (c : Char) (s : Str) (rest : List UInt8) :
    Str.bytes (c :: s) ++ rest = String.utf8EncodeChar c ++ (s.bytes ++ rest) := by
  rw [Str.bytes, List.flatMap_cons, List.append_assoc]
  rfl

namespace Editor

theorem round_char (ok : c ∉ ['\n', '\r', '\x08', '\x7F', '\x1b']) :
    e.round history (Str.bytes [c] ++ rest) =
      (e.character c >>= fun e => (return .inr e : Keys (Sum (Str × Option ℕ) Editor))) rest := by
  simp only [List.mem_cons, List.not_mem_nil, or_false, not_or] at ok
  have hend : ¬ (c = '\n' ∨ c = '\r') := not_or.mpr ⟨ok.1, ok.2.1⟩
  have herase : ¬ (c = '\x08' ∨ c = '\x7F') := not_or.mpr ⟨ok.2.2.1, ok.2.2.2.1⟩
  rw [bytes_cons, round, bind_ok (readKey_char c _)]
  simp only [if_neg hend, if_neg herase, if_neg ok.2.2.2.2]
  rfl

theorem round_erase (ok : c = '\x08' ∨ c = '\x7F') :
    e.round history (Str.bytes [c] ++ rest) =
      (e.backspace >>= fun e => (return .inr e : Keys (Sum (Str × Option ℕ) Editor))) rest := by
  have hend : ¬ (c = '\n' ∨ c = '\r') := by
    rcases ok with rfl | rfl <;> decide
  rw [bytes_cons, round, bind_ok (readKey_char c _)]
  simp only [if_neg hend, if_pos ok]
  rfl

theorem round_escape {cs : Str} :
    e.round history (Str.bytes ('\x1b' :: cs) ++ rest) = (do
      let first ← readKey
      if first = some '[' then do
        match ← readKey with
        | some code => return .inr (e.arrow history code)
        | none => return .inr e
      else return .inr e : Keys (Sum (Str × Option ℕ) Editor)) (cs.bytes ++ rest) := by
  rw [bytes_cons, round, bind_ok (readKey_char _ _)]
  rfl

theorem round_sequence (code : Char) :
    e.round history (Str.bytes ['\x1b', '[', code] ++ rest) =
      (.ok (.inr (e.arrow history code)), rest) := by
  rw [round_escape, bytes_cons, bind_ok (readKey_char _ _), if_pos rfl, bytes_cons,
    bind_ok (readKey_char _ _)]
  rfl

theorem round_other {cs : Str}
    (ok : (∃ c, c ≠ '[' ∧ cs = [c]) ∨ ∃ c, c ∉ ['A', 'B', 'C', 'D'] ∧ cs = ['[', c]) :
    e.round history (Str.bytes ('\x1b' :: cs) ++ rest) = (.ok (.inr e), rest) := by
  rcases ok with ⟨c, hc, rfl⟩ | ⟨c, hc, rfl⟩
  · rw [round_escape, bytes_cons, bind_ok (readKey_char _ _),
      if_neg fun h => hc (Option.some.inj h)]
    rfl
  · simp only [List.mem_cons, List.not_mem_nil, or_false, not_or] at hc
    rw [round_sequence, arrow, if_neg hc.1, if_neg hc.2.1, if_neg hc.2.2.1, if_neg hc.2.2.2]

end Editor

/-! ### The editors side by side -/

namespace Reference

/-- The variables that belong to the line and the cursor. -/
def editor (r : Reference) : Editor := ⟨r.line, byteLen r.before, r.index⟩

/-- A round panics, or the cursor is inside a character after it. -/
def Astray (history : List Str) (r : Reference) (keys rest : List UInt8) : Prop :=
  (r.editor.round history keys).1 = .error .panics ∨
    ∃ e, r.editor.round history keys = (.ok (.inr e), rest) ∧ ¬ IsCharBoundary e.buffer e.cursor

theorem getLast?_eq (h : r.before.getLast? = some c) : r.before = r.before.dropLast ++ [c] :=
  (List.dropLast_append_getLast? c h).symm

theorem before_nil (h : r.before.getLast? = none) : r.before = [] := List.getLast?_eq_none_iff.mp h

theorem character_eq (h : ¬ (isControl c ∧ c ≠ '\t')) :
    (r.editor.character c >>= fun e => (return .inr e : Keys (Sum (Str × Option ℕ) Editor))) rest =
      (.ok (.inr ⟨r.before ++ c :: r.behind, byteLen r.before + 1, r.index⟩), rest) := by
  have hprint : !isControl c ∨ c = ' ' ∨ c = '\t' := by
    by_cases hc : isControl c
    · exact Or.inr (Or.inr (by_contra fun ht => h ⟨hc, ht⟩))
    · exact Or.inl (by simpa using hc)
  rw [Editor.character, if_pos hprint, insert]
  simp only [editor, line, splitAtByte_append]
  rfl

theorem character_ignored (h : isControl c ∧ c ≠ '\t') :
    (r.editor.character c >>= fun e => (return .inr e : Keys (Sum (Str × Option ℕ) Editor))) rest =
      (.ok (.inr r.editor), rest) := by
  have hprint : ¬ (!isControl c ∨ c = ' ' ∨ c = '\t') := by
    rintro (hc | rfl | rfl)
    · simp [h.1] at hc
    · exact absurd h.1 (by decide)
    · exact h.2 rfl
  rw [Editor.character, if_neg hprint]
  rfl

theorem line_concat (hbefore : r.before = a ++ [c]) : r.line = a ++ c :: r.behind := by
  rw [line, hbefore, List.append_assoc]
  rfl

theorem cursor_concat (hbefore : r.before = a ++ [c]) :
    0 < r.editor.cursor ∧ r.editor.cursor - 1 = byteLen a + (c.utf8Size - 1) := by
  have hpos := c.utf8Size_pos
  have hlen : byteLen r.before = byteLen a + c.utf8Size := by
    rw [hbefore, byteLen_append, byteLen_singleton]
  simp only [editor, hlen]
  omega

theorem cursor_nil (hbefore : r.before = []) : ¬ 0 < r.editor.cursor := by
  rw [editor, hbefore]
  exact Nat.lt_irrefl 0

theorem backspace_eq (hbefore : r.before = a ++ [c]) : r.editor.backspace = (do
    let buffer ← unwrap (remove (a ++ c :: r.behind) (byteLen a + (c.utf8Size - 1)))
    return { r.editor with buffer, cursor := byteLen a + (c.utf8Size - 1) } : Keys Editor) := by
  obtain ⟨hpos, hsub⟩ := cursor_concat hbefore
  rw [Editor.backspace, if_pos hpos, hsub, ← line_concat hbefore]
  rfl

theorem backspace_nil (hbefore : r.before = []) : r.editor.backspace = pure r.editor :=
  if_neg (cursor_nil hbefore)

theorem remove_eq (hc : c.toNat < 0x80) (a b : Str) :
    remove (a ++ c :: b) (byteLen a + (c.utf8Size - 1)) = some (a ++ b) := by
  rw [utf8Size_ascii.mpr hc, remove, Nat.sub_self, Nat.add_zero, splitAtByte_append]

theorem remove_inside (hc : 0x80 ≤ c.toNat) (a b : Str) :
    remove (a ++ c :: b) (byteLen a + (c.utf8Size - 1)) = none := by
  have hsize : c.utf8Size ≠ 1 := fun h => absurd (utf8Size_ascii.mp h) (by omega)
  have hpos := c.utf8Size_pos
  rw [remove, splitAtByte_inside a b (by omega) (by omega)]

theorem arrow_up : r.editor.arrow history 'A' = (r.up history).editor := by
  rw [Editor.arrow, if_pos rfl, up]
  split_ifs with hnil
  · rfl
  have hidx : (match r.editor.historyIndex with
      | some i => if 0 < i then i - 1 else 0
      | none => history.length - 1) = r.index.getD history.length - 1 := by
    simp only [editor]
    cases r.index with
    | none => rfl
    | some i =>
        simp only [Option.getD_some]
        split_ifs
        · rfl
        · omega
  simp only [hidx]
  cases hcmd : history[r.index.getD history.length - 1]? with
  | none => rfl
  | some cmd => simp [editor, line]

theorem arrow_down : r.editor.arrow history 'B' = (r.down history).editor := by
  rw [Editor.arrow, if_neg (by decide), if_pos rfl, down]
  split_ifs with hnil
  · rfl
  have hlen : 0 < history.length := List.length_pos_iff.mpr hnil
  simp only [editor]
  cases hindex : r.index with
  | none => simp [line, hindex]
  | some i =>
      simp only
      cases hcmd : history[i + 1]? with
      | some cmd =>
          obtain ⟨hi, -⟩ := List.getElem?_eq_some_iff.mp hcmd
          rw [if_pos (by omega)]
          simp [line]
      | none =>
          have hi := List.getElem?_eq_none_iff.mp hcmd
          rw [if_neg (by omega)]
          rfl

/-- The cursor goes one byte to the right, before a character. -/
theorem arrow_right (hbehind : r.behind = c :: b) :
    r.editor.arrow history 'C' = ⟨r.before ++ c :: b, byteLen r.before + 1, r.index⟩ := by
  have hpos := c.utf8Size_pos
  have hlen : byteLen r.before < byteLen r.line := by
    rw [line, hbehind, byteLen_append, byteLen_cons]
    omega
  rw [Editor.arrow, if_neg (by decide), if_neg (by decide), if_pos rfl]
  exact (if_pos hlen).trans (by rw [editor, line, hbehind])

theorem arrow_right_nil (hbehind : r.behind = []) : r.editor.arrow history 'C' = r.editor := by
  rw [Editor.arrow, if_neg (by decide), if_neg (by decide), if_pos rfl]
  refine if_neg ?_
  simp only [editor, line, hbehind, List.append_nil]
  exact Nat.lt_irrefl _

theorem arrow_left (hbefore : r.before = a ++ [c]) : r.editor.arrow history 'D' =
    ⟨a ++ c :: r.behind, byteLen a + (c.utf8Size - 1), r.index⟩ := by
  obtain ⟨hpos, hsub⟩ := cursor_concat hbefore
  rw [Editor.arrow, if_neg (by decide), if_neg (by decide), if_neg (by decide), if_pos rfl,
    if_pos hpos, hsub, ← line_concat hbefore]
  rfl

theorem arrow_left_nil (hbefore : r.before = []) : r.editor.arrow history 'D' = r.editor := by
  rw [Editor.arrow, if_neg (by decide), if_neg (by decide), if_neg (by decide), if_pos rfl,
    if_neg (cursor_nil hbefore)]

/-- A key that touches a character of one byte, or none. -/
theorem round_key (history : List Str) (key : Key) (h : ∀ c ∈ r.touched key, c.toNat < 0x80) (rest : List UInt8) :
    r.editor.round history (key.chars.bytes ++ rest) =
      (.ok (.inr (r.key history key).editor), rest) := by
  cases key with
  | char c ok =>
      rw [Key.chars, Editor.round_char ok, Reference.key]
      by_cases hignored : isControl c ∧ c ≠ '\t'
      · rw [character_ignored hignored, if_pos hignored]
      · rw [touched, if_neg hignored] at h
        rw [character_eq hignored, if_neg hignored, editor, line, byteLen_append,
          byteLen_singleton, utf8Size_ascii.mpr (h c rfl), List.append_assoc]
        rfl
  | erase c ok =>
      rw [Key.chars, Editor.round_erase ok, Reference.key]
      cases hlast : r.before.getLast? with
      | none =>
          have hnil := before_nil hlast
          rw [backspace_nil hnil, bind_ok pure_run]
          simp only [editor, line, hnil, List.dropLast_nil]
          rfl
      | some d =>
          have hd := h d hlast
          rw [backspace_eq (getLast?_eq hlast), remove_eq hd, utf8Size_ascii.mpr hd]
          rfl
  | arrow d =>
      cases d with
      | up => exact (Editor.round_sequence 'A').trans (by rw [arrow_up]; rfl)
      | down => exact (Editor.round_sequence 'B').trans (by rw [arrow_down]; rfl)
      | right =>
          refine (Editor.round_sequence 'C').trans ?_
          cases hbehind : r.behind with
          | nil =>
              rw [arrow_right_nil hbehind, Reference.key, right, hbehind]
          | cons d b =>
              have hd := h d (by rw [touched, hbehind]; rfl)
              rw [arrow_right hbehind, Reference.key, right, hbehind]
              simp only [editor, line, byteLen_append, byteLen_singleton, utf8Size_ascii.mpr hd,
                List.append_assoc]
              rfl
      | left =>
          refine (Editor.round_sequence 'D').trans ?_
          cases hlast : r.before.getLast? with
          | none => rw [arrow_left_nil (before_nil hlast), Reference.key, left, hlast]
          | some d =>
              have hd := h d hlast
              rw [arrow_left (getLast?_eq hlast), Reference.key, left, hlast, utf8Size_ascii.mpr hd]
              rfl
  | escape cs ok => exact Editor.round_other ok

theorem round_astray (history : List Str) (key : Key) (hc : c ∈ r.touched key) (hwide : 0x80 ≤ c.toNat)
    (rest : List UInt8) : r.Astray history (key.chars.bytes ++ rest) rest := by
  have hsize : c.utf8Size ≠ 1 := fun h => absurd (utf8Size_ascii.mp h) (by omega)
  have hpos := c.utf8Size_pos
  cases key with
  | char d ok =>
      rw [touched] at hc
      split_ifs at hc with hignored
      · cases hc
      obtain rfl : d = c := Option.some.inj hc
      refine Or.inr ⟨_, (Editor.round_char ok).trans (character_eq hignored), ?_⟩
      exact not_isCharBoundary _ _ (by decide) (by omega)
  | erase d ok =>
      left
      rw [Key.chars, Editor.round_erase ok, backspace_eq (getLast?_eq hc), remove_inside hwide]
      rfl
  | arrow d =>
      cases d with
      | up => cases hc
      | down => cases hc
      | right =>
          obtain ⟨b, hbehind⟩ := List.head?_eq_some_iff.mp hc
          refine Or.inr ⟨_, (Editor.round_sequence 'C').trans (by rw [arrow_right hbehind]), ?_⟩
          exact not_isCharBoundary _ _ (by decide) (by omega)
      | left =>
          refine Or.inr ⟨_, (Editor.round_sequence 'D').trans (by rw [arrow_left (getLast?_eq hc)]), ?_⟩
          exact not_isCharBoundary _ _ (by omega) (by omega)
  | escape cs ok => cases hc

end Reference

/-! ### Whole lines -/

theorem typed_cons (key : Key) (ks : List Key) (enter : Enter) :
    typed (key :: ks) enter = key.chars.bytes ++ typed ks enter := by
  rw [typed, List.flatMap_cons, List.append_assoc, Fat16.bytes_append]
  rfl

theorem typed_length (ks : List Key) (enter : Enter) : ks.length < (typed ks enter).length := by
  have hchar : ∀ (c : Char) (s : Str), 0 < (Str.bytes (c :: s)).length := fun c s => by
    have := c.utf8Size_pos
    change 0 < byteLen (c :: s)
    rw [byteLen_cons]
    omega
  induction ks with
  | nil => exact hchar _ _
  | cons key ks ih =>
      have hkey : 0 < key.chars.bytes.length := by
        cases key with
        | char c _ => exact hchar _ _
        | erase c _ => exact hchar _ _
        | arrow d => exact hchar _ _
        | escape cs _ => exact hchar _ _
      rw [typed_cons, List.length_append, List.length_cons]
      omega

theorem round_enter (enter : Enter) :
    e.round history (typed [] enter) = (.ok (.inl (e.buffer, e.historyIndex)), []) := by
  have hbytes : typed [] enter = String.utf8EncodeChar enter.val ++ [] := by
    rw [typed, List.flatMap_nil, List.nil_append, Str.bytes, List.flatMap_singleton, List.append_nil]
  rw [hbytes, Editor.round, bind_ok (readKey_char _ _)]
  simp only [if_pos enter.property]
  rfl

namespace Reference

theorem loop_plain {enter : Enter} (hplain : r.Plain history ks) (hn : ks.length < n) :
    Editor.loop history n r.editor (typed ks enter) =
      (.ok ((r.keys history ks).line, (r.keys history ks).index), []) := by
  induction ks generalizing r n with
  | nil =>
      obtain ⟨n, rfl⟩ := Nat.exists_eq_add_of_lt hn
      rw [Editor.loop, bind_ok (round_enter enter)]
      rfl
  | cons key ks ih =>
      cases n with
      | zero => cases hn
      | succ n =>
          rw [typed_cons, Editor.loop, bind_ok (round_key history key hplain.1 _)]
          exact ih hplain.2 (Nat.lt_of_succ_lt_succ hn)

/-- All variables that the loop comes to belong to a line of the reference editor. -/
theorem reached_plain {enter : Enter} (hplain : r.Plain history ks)
    (h : Reached history r.editor (typed ks enter) e rest) : ∃ r' : Reference, e = r'.editor := by
  induction ks generalizing r with
  | nil =>
      cases h with
      | refl => exact ⟨r, rfl⟩
      | step hround hrest => cases (round_enter enter).symm.trans hround
  | cons key ks ih =>
      rw [typed_cons] at h
      cases h with
      | refl => exact ⟨r, rfl⟩
      | step hround hrest =>
          cases (round_key history key hplain.1 _).symm.trans hround
          exact ih hplain.2 hrest

theorem loop_astray {enter : Enter} (hplain : ¬ r.Plain history ks) (hn : ks.length < n) :
    (Editor.loop history n r.editor (typed ks enter)).1 = .error .panics ∨
      ∃ e rest, Reached history r.editor (typed ks enter) e rest ∧
        ¬ IsCharBoundary e.buffer e.cursor := by
  induction ks generalizing r n with
  | nil => exact absurd trivial hplain
  | cons key ks ih =>
      cases n with
      | zero => cases hn
      | succ n =>
          rw [typed_cons]
          by_cases hkey : ∀ c ∈ r.touched key, c.toNat < 0x80
          · have hround := round_key history key hkey (typed ks enter)
            rw [Editor.loop, bind_ok hround]
            rcases ih (fun h => hplain ⟨hkey, h⟩) (Nat.lt_of_succ_lt_succ hn) with h | ⟨e, rest, h, hc⟩
            · exact Or.inl h
            · exact Or.inr ⟨e, rest, .step hround h, hc⟩
          · push Not at hkey
            obtain ⟨c, hc, hwide⟩ := hkey
            rcases round_astray history key hc hwide (typed ks enter) with
              hpanics | ⟨e, hround, hcursor⟩
            · left
              rcases hrun : r.editor.round history (key.chars.bytes ++ typed ks enter) with ⟨out, left⟩
              rw [hrun] at hpanics
              rw [Editor.loop, bind_error (hrun.trans (Prod.ext hpanics rfl))]
            · exact Or.inr ⟨e, _, .step hround (.refl _ _), hcursor⟩

end Reference

/-- **The line editor.**  It edits a line as the reference editor does, with its cursor between
characters, exactly when no key inserts, erases or passes a character of more than one byte. -/
theorem edits_iff (history : List Str) (index : Option ℕ) (keys : List Key) (enter : Enter) :
    Edits history index keys enter ↔ (Reference.mk [] [] index).Plain history keys := by
  have hstart : (⟨[], 0, index⟩ : Editor) = (Reference.mk [] [] index).editor := rfl
  have hn := Nat.lt_succ_of_lt (typed_length keys enter)
  constructor
  · intro h
    by_contra hplain
    rcases Reference.loop_astray hplain hn with hpanics | ⟨e, rest, hreached, hcursor⟩
    · have hline := congrArg Prod.fst h.line
      rw [readLineHistory, hstart] at hline
      cases hpanics.symm.trans hline
    · exact hcursor (h.cursor e rest hreached)
  · intro hplain
    refine ⟨Reference.loop_plain hplain hn, fun e rest hreached => ?_⟩
    obtain ⟨r', rfl⟩ := Reference.reached_plain hplain hreached
    exact isCharBoundary_append r'.before r'.behind

/-- A plain letter behind an accented one. -/
theorem accent_panics : ¬ Edits [] none [.char 'é' (by decide), .char 'a' (by decide)]
      ⟨'\r', Or.inr rfl⟩ ∧
    (readLineHistory [] none (typed [.char 'é' (by decide), .char 'a' (by decide)]
      ⟨'\r', Or.inr rfl⟩)).1 = .error .panics := by
  have hpanics : (readLineHistory [] none (typed [.char 'é' (by decide), .char 'a' (by decide)]
      ⟨'\r', Or.inr rfl⟩)).1 = .error .panics := by decide
  refine ⟨fun h => ?_, hpanics⟩
  cases hpanics.symm.trans (congrArg Prod.fst h.line)

end Ysos.Sh
