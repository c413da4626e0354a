import Ysos.FileSystem

/-! # Names of eight and three characters

`ShortFileName::parse` upper-cases the part before the first period and the part after it and pads
them with spaces.

* `IsShort`: the names that fit.
* `parse_ascii`: what `parse` returns on a name without an invalid character.
* `short_names_iff`: it accepts exactly the names that fit, and rejects every other name with an
  error, unless only the part after the period is too long.
* `short_names_round_trip`: the text of what it returns is the name in upper case, and parses to the
  same short name. -/

namespace Ysos.Fat16

/-! ### The parts of a name -/

namespace Str

def beforePeriod (s : Str) : Str := s.takeWhile (· ≠ '.')

/-- Nothing, if there is no period. -/
def afterPeriod (s : Str) : Str := (s.dropWhile (· ≠ '.')).tail

def Ascii (s : Str) : Prop := ∀ c ∈ s, c.toNat < 128

/-- No byte of the name is in the list of `parse`. -/
def Allowed (s : Str) : Prop := ∀ byte ∈ s.bytes, byte ∉ INVALID_CHARS

end Str

/-- The names of eight and three characters. -/
structure IsShort (s : Str) : Prop where
  nonempty : s ≠ []
  allowed : s.Allowed
  before : s.beforePeriod.length ≤ 8
  after : s.afterPeriod.length ≤ 3

/-- The short name of a name that fits. -/
def shortName (s : Str) : ShortFileName :=
  ⟨padded 8 (Str.bytes (s.beforePeriod.map Char.toUpper)),
    padded 3 (Str.bytes (s.afterPeriod.map Char.toUpper))⟩

variable {s : Str} {upper : Char → Str} {c : Char}

/-! ### Upper case -/

theorem toUpper_ascii (h : c.toNat < 128) :
    c.toUpper.toNat < 128 ∧ (c.toUpper = '.' ↔ c = '.') := by
  have hall : ∀ n < 128, (Char.ofNat n).toUpper.toNat < 128 ∧
      ((Char.ofNat n).toUpper = '.' ↔ Char.ofNat n = '.') := by decide
  have hc := hall c.toNat h
  rwa [Char.ofNat_toNat] at hc

namespace Str.Ascii

theorem toUppercase_eq (h : s.Ascii) : s.toUppercase upper = s.map Char.toUpper := by
  induction s with
  | nil => rfl
  | cons c s ih =>
      rw [Str.toUppercase, List.flatMap_cons, if_pos (h c List.mem_cons_self)]
      exact congrArg _ (ih fun c hc => h c (List.mem_cons_of_mem _ hc))

theorem bytes_upper (h : s.Ascii) : (Str.bytes (s.map Char.toUpper)).length = s.length := by
  rw [bytes_length, List.length_map]
  intro c hc
  obtain ⟨c, hmem, rfl⟩ := List.mem_map.mp hc
  exact (toUpper_ascii (h c hmem)).1

theorem beforePeriod (h : s.Ascii) : s.beforePeriod.Ascii := fun c hc =>
  h c ((List.takeWhile_prefix _).subset hc)

theorem afterPeriod (h : s.Ascii) : s.afterPeriod.Ascii := fun c hc =>
  h c ((List.dropWhile_suffix _).subset (List.mem_of_mem_tail hc))

theorem upper_period (h : s.Ascii) :
    ('.' ∈ s.map Char.toUpper ↔ '.' ∈ s) ∧
      (s.map Char.toUpper).takeWhile (· ≠ '.') = s.beforePeriod.map Char.toUpper ∧
      ((s.map Char.toUpper).dropWhile (· ≠ '.')).tail = s.afterPeriod.map Char.toUpper := by
  induction s with
  | nil => exact ⟨Iff.rfl, rfl, rfl⟩
  | cons c s ih =>
      obtain ⟨hmem, htake, hdrop⟩ := ih fun c hc => h c (List.mem_cons_of_mem _ hc)
      have hc := (toUpper_ascii (h c List.mem_cons_self)).2
      by_cases hdot : c = '.'
      · simp [Str.beforePeriod, Str.afterPeriod, hdot]
      · have hup : c.toUpper ≠ '.' := mt hc.mp hdot
        refine ⟨?_, ?_, ?_⟩
        · rw [List.map_cons, List.mem_cons, List.mem_cons, hmem]
          exact or_congr_left (iff_of_false hup.symm (Ne.symm hdot))
        · rw [List.map_cons, List.takeWhile_cons_of_pos (by simpa using hup), htake,
            Str.beforePeriod, Str.beforePeriod, List.takeWhile_cons_of_pos (by simpa using hdot)]
          rfl
        · rw [List.map_cons, List.dropWhile_cons_of_pos (by simpa using hup), hdrop,
            Str.afterPeriod, Str.afterPeriod, List.dropWhile_cons_of_pos (by simpa using hdot)]

end Str.Ascii

theorem Str.no_period (h : '.' ∉ s) : s.beforePeriod = s ∧ s.afterPeriod = [] := by
  have hne : ∀ c ∈ s, (c ≠ '.' : Bool) = true := fun c hc =>
    decide_eq_true fun he => h (he ▸ hc)
  constructor
  · exact List.takeWhile_eq_self_iff.mpr hne
  · rw [Str.afterPeriod, List.dropWhile_eq_nil_iff.mpr hne]
    rfl

/-! ### Parsing -/

namespace ShortFileName

/-- What `parse` returns on a name without an invalid character. -/
theorem parse_ascii (h : s.Ascii) (hne : s ≠ []) (hallowed : s.Allowed) : parse upper s =
    if s.beforePeriod.length > 8 then .error (.err (.fileNameError .nameTooLong))
    else if s.afterPeriod.length > 3 then .error .panic
    else .ok (shortName s) := by
  have hany : ¬ (s.bytes.any fun byte => byte ∈ INVALID_CHARS) := by
    simpa [Str.Allowed] using hallowed
  obtain ⟨hmem, hbefore, hafter⟩ := h.upper_period
  rw [parse, if_neg hne, if_neg hany]
  simp only [h.toUppercase_eq, hmem, hbefore, hafter, h.beforePeriod.bytes_upper,
    h.afterPeriod.bytes_upper, h.bytes_upper]
  by_cases hdot : '.' ∈ s
  · rw [if_pos hdot]
    split_ifs <;> rfl
  · obtain ⟨hb, ha⟩ := Str.no_period hdot
    rw [if_neg hdot, shortName, hb, ha]
    rfl

/-- Every other name is rejected before. -/
theorem parse_rejects (h : s = [] ∨ ¬ s.Allowed) :
    ∃ e, parse upper s = .error (.err (.fileNameError e)) := by
  rw [parse]
  by_cases hne : s = []
  · exact ⟨_, if_pos hne⟩
  · have hany : s.bytes.any (fun byte => byte ∈ INVALID_CHARS) := by
      simpa [Str.Allowed] using h.resolve_left hne
    rw [if_neg hne, if_pos hany]
    exact ⟨_, rfl⟩

end ShortFileName

/-- **Short names.**  Of the names of ASCII characters, `parse` accepts those that fit, with both
parts in upper case and padded, and rejects all others with an error, exactly when the part after
the period is not too long in a name without another fault. -/
theorem short_names_iff (h : s.Ascii) :
    ((IsShort s → ShortFileName.parse upper s = .ok (shortName s)) ∧
      (¬ IsShort s → ∃ e, ShortFileName.parse upper s = .error (.err (.fileNameError e)))) ↔
    ¬ (s ≠ [] ∧ s.Allowed ∧ s.beforePeriod.length ≤ 8 ∧ 3 < s.afterPeriod.length) := by
  by_cases hok : s ≠ [] ∧ s.Allowed
  · obtain ⟨hne, hallowed⟩ := hok
    have hshort : IsShort s ↔ ¬ 8 < s.beforePeriod.length ∧ ¬ 3 < s.afterPeriod.length :=
      ⟨fun h => ⟨Nat.not_lt.mpr h.before, Nat.not_lt.mpr h.after⟩,
        fun h => ⟨hne, hallowed, Nat.not_lt.mp h.1, Nat.not_lt.mp h.2⟩⟩
    rw [ShortFileName.parse_ascii h hne hallowed, hshort]
    by_cases hb : 8 < s.beforePeriod.length
    · simp [hb]
    · by_cases ha : 3 < s.afterPeriod.length
      · simp [hb, ha, hne, hallowed, Nat.not_lt.mp hb]
      · simp [hb, ha]
  · have hbad : s = [] ∨ ¬ s.Allowed := by
      by_cases hne : s = []
      · exact Or.inl hne
      · exact Or.inr fun hallowed => hok ⟨hne, hallowed⟩
    refine iff_of_true ⟨fun hs => absurd ⟨hs.nonempty, hs.allowed⟩ hok, fun _ => ?_⟩
      fun hs => hok ⟨hs.1, hs.2.1⟩
    exact ShortFileName.parse_rejects hbad

/-- `A.TXT` fits. -/
theorem short_names_iff_example : ShortFileName.parse (fun c => [c]) ['a', '.', 'T', 'x', 't'] =
    .ok ⟨padded 8 [65], padded 3 [84, 88, 84]⟩ := by
  have hshort : IsShort ['a', '.', 'T', 'x', 't'] :=
    ⟨by decide, by unfold Str.Allowed; decide +kernel, by decide +kernel, by decide +kernel⟩
  exact ((short_names_iff (by simp [Str.Ascii])).mpr fun h =>
    absurd h.2.2.2 (by decide +kernel)).1 hshort

/-- The extension of `a.html` is too long. -/
theorem long_extension_panics : ¬ ∀ (upper : Char → Str) (s : Str), s.Ascii → ¬ IsShort s →
    ∃ e, ShortFileName.parse upper s = .error (.err (.fileNameError e)) := by
  intro hall
  have hascii : Str.Ascii ['a', '.', 'h', 't', 'm', 'l'] := by
    simp [Str.Ascii]
  have hlong : ¬ IsShort ['a', '.', 'h', 't', 'm', 'l'] := fun h =>
    absurd h.after (by decide +kernel)
  obtain ⟨e, he⟩ := hall (fun c => [c]) _ hascii hlong
  have hpanic : ShortFileName.parse (fun c => [c]) ['a', '.', 'h', 't', 'm', 'l'] =
      .error .panic := by decide +kernel
  cases hpanic.symm.trans he

/-! ### Printing what was parsed -/

variable {f : ShortFileName}

/-- The upper case of a name, without the period if nothing follows it. -/
def Str.printed (s : Str) : Str :=
  if s.afterPeriod = [] then s.beforePeriod.map Char.toUpper else s.map Char.toUpper

/-- A name with a part before its first period that parses to a short name. -/
structure ParsesTo (upper : Char → Str) (s : Str) (f : ShortFileName) : Prop where
  ascii : s.Ascii
  base : s.beforePeriod ≠ []
  parse : ShortFileName.parse upper s = .ok f

/-- Upper case keeps an allowed character allowed, and changes nothing the second time. -/
theorem IsAllowed.toUpper (h : IsAllowed c) : IsAllowed c.toUpper ∧ c.toUpper.toUpper = c.toUpper := by
  have hall : ∀ n < 128, UInt8.ofNat n ∉ INVALID_CHARS →
      UInt8.ofNat (Char.ofNat n).toUpper.toNat ∉ INVALID_CHARS ∧
        (Char.ofNat n).toUpper.toUpper = (Char.ofNat n).toUpper := by decide +kernel
  have hc := hall c.toNat h.1 h.2
  rw [Char.ofNat_toNat] at hc
  exact ⟨⟨(toUpper_ascii h.1).1, hc.1⟩, hc.2⟩

theorem isAllowed_map (h : ∀ c ∈ s, IsAllowed c) : ∀ c ∈ s.map Char.toUpper, IsAllowed c := by
  intro c hc
  obtain ⟨c₀, hc₀, rfl⟩ := List.mem_map.mp hc
  exact (h c₀ hc₀).toUpper.1

theorem toUpper_twice (h : ∀ c ∈ s, IsAllowed c) :
    (s.map Char.toUpper).map Char.toUpper = s.map Char.toUpper := by
  rw [List.map_map]
  exact List.map_congr_left fun c hc => (h c hc).toUpper.2

namespace Str

theorem Allowed.isAllowed (h : s.Allowed) (hs : s.Ascii) : ∀ c ∈ s, IsAllowed c := fun c hc => by
  refine ⟨hs c hc, h _ ?_⟩
  rw [bytes_ascii hs]
  exact List.mem_map_of_mem hc

theorem allowed_of_isAllowed (h : ∀ c ∈ s, IsAllowed c) : s.Allowed := by
  intro byte hbyte
  rw [bytes_ascii fun c hc => (h c hc).1] at hbyte
  obtain ⟨c, hc, rfl⟩ := List.mem_map.mp hbyte
  exact (h c hc).2

/-- A name is what stands before its first period, and the period with what follows. -/
theorem eq_parts (s : Str) : s = s.beforePeriod ∧ s.afterPeriod = [] ∨
    s = s.beforePeriod ++ '.' :: s.afterPeriod := by
  have happend := List.takeWhile_append_dropWhile (p := (· ≠ '.')) (l := s)
  unfold beforePeriod afterPeriod
  cases hdrop : s.dropWhile (· ≠ '.') with
  | nil =>
      rw [hdrop, List.append_nil] at happend
      exact Or.inl ⟨happend.symm, rfl⟩
  | cons c rest =>
      have hc : c = '.' := by
        have hhead := List.head?_dropWhile_not (fun c => (c ≠ '.' : Bool)) s
        rw [hdrop] at hhead
        simpa using hhead
      rw [hdrop, hc] at happend
      exact Or.inr happend.symm

theorem printed_eq (s : Str) : s.printed =
    ShortFileName.text (s.beforePeriod.map Char.toUpper) (s.afterPeriod.map Char.toUpper) := by
  rw [printed, ShortFileName.text]
  by_cases hafter : s.afterPeriod = []
  · rw [if_pos hafter, hafter, List.map_nil, if_pos rfl]
  · rw [if_neg hafter, if_neg fun h => hafter (List.map_eq_nil_iff.mp h)]
    conv_lhs => rw [s.eq_parts.resolve_left fun h => hafter h.2]
    rw [List.map_append, List.map_cons]
    rfl

theorem parts_text {base : Str} (ext : Str) (h : '.' ∉ base) :
    (ShortFileName.text base ext).beforePeriod = base ∧
      (ShortFileName.text base ext).afterPeriod = ext := by
  have hbefore : ∀ c ∈ base, (c ≠ '.' : Bool) = true := fun c hc =>
    decide_eq_true fun he => h (he ▸ hc)
  rw [ShortFileName.text]
  by_cases hext : ext = []
  · rw [if_pos hext, hext]
    exact no_period h
  · rw [if_neg hext, beforePeriod, afterPeriod, List.takeWhile_append_of_pos hbefore,
      List.dropWhile_append_of_pos hbefore]
    simp

end Str

namespace ParsesTo

/-- What `parse` has checked, and the short name that it made. -/
theorem accepted (h : ParsesTo upper s f) : s.Allowed ∧ s.beforePeriod.length ≤ 8 ∧
    s.afterPeriod.length ≤ 3 ∧ f = shortName s := by
  have hne : s ≠ [] := fun he => h.base (by rw [he]; rfl)
  have hallowed : s.Allowed := by
    by_contra hnot
    obtain ⟨e, he⟩ : ∃ e, ShortFileName.parse upper s = .error (.err (.fileNameError e)) :=
      ShortFileName.parse_rejects (.inr hnot)
    cases he.symm.trans h.parse
  have hparse := h.parse
  rw [ShortFileName.parse_ascii h.ascii hne hallowed] at hparse
  split_ifs at hparse with hb ha
  exact ⟨hallowed, Nat.not_lt.mp hb, Nat.not_lt.mp ha, (Except.ok.inj hparse).symm⟩

theorem parts_isAllowed (h : ParsesTo upper s f) :
    (∀ c ∈ s.beforePeriod, IsAllowed c) ∧ ∀ c ∈ s.afterPeriod, IsAllowed c := by
  have hall := h.accepted.1.isAllowed h.ascii
  exact ⟨fun c hc => hall c ((List.takeWhile_prefix _).subset hc),
    fun c hc => hall c ((List.dropWhile_suffix _).subset (List.mem_of_mem_tail hc))⟩

theorem display_eq (h : ParsesTo upper s f) : f.display = .ok s.printed := by
  obtain ⟨-, hb, ha, rfl⟩ := h.accepted
  obtain ⟨hbase, hext⟩ := h.parts_isAllowed
  rw [Str.printed_eq, shortName]
  exact ShortFileName.display_padded (isAllowed_map hbase) (isAllowed_map hext)
    (by rwa [List.length_map]) (by rwa [List.length_map])

/-- The text is a name that parses to the same short name. -/
theorem printed (h : ParsesTo upper s f) : ParsesTo upper s.printed f := by
  obtain ⟨-, hb, ha, rfl⟩ := h.accepted
  obtain ⟨hbase, hext⟩ := h.parts_isAllowed
  have hperiod : '.' ∉ s.beforePeriod.map Char.toUpper := by
    intro hmem
    obtain ⟨c, hc, hup⟩ := List.mem_map.mp hmem
    have hdot := (toUpper_ascii (hbase c hc).1).2.mp hup
    simpa [hdot] using List.mem_takeWhile_imp hc
  obtain ⟨hbefore, hafter⟩ := Str.parts_text (s.afterPeriod.map Char.toUpper) hperiod
  rw [← Str.printed_eq] at hbefore hafter
  have hchars : ∀ c ∈ s.printed, IsAllowed c := by
    intro c hc
    rw [Str.printed_eq, ShortFileName.text] at hc
    split_ifs at hc
    · exact isAllowed_map hbase c hc
    · rcases List.mem_append.mp hc with hc | hc
      · exact isAllowed_map hbase c hc
      · rcases List.mem_cons.mp hc with rfl | hc
        · exact ⟨by decide, by decide⟩
        · exact isAllowed_map hext c hc
  have hne : s.printed.beforePeriod ≠ [] := by
    rw [hbefore]
    exact fun he => h.base (List.map_eq_nil_iff.mp he)
  have hascii : s.printed.Ascii := fun c hc => (hchars c hc).1
  have hshort : shortName s.printed = shortName s := by
    rw [shortName, shortName, hbefore, hafter, toUpper_twice hbase, toUpper_twice hext]
  refine ⟨hascii, hne, ?_⟩
  rw [ShortFileName.parse_ascii hascii (fun he => hne (by rw [he]; rfl))
    (Str.allowed_of_isAllowed hchars), hbefore, hafter, List.length_map, List.length_map,
    if_neg (Nat.not_lt.mpr hb), if_neg (Nat.not_lt.mpr ha), hshort]

end ParsesTo

/-- **Printing and parsing.**  The text of a short name that was parsed from a name is the upper case
of the name, and it parses to the short name again; two such short names are equal exactly if
their texts are. -/
theorem short_names_round_trip (h : ParsesTo upper s f) :
    f.display = .ok s.printed ∧ ShortFileName.parse upper s.printed = .ok f ∧
      ∀ t g, ParsesTo upper t g → (f = g ↔ f.display = g.display) := by
  refine ⟨h.display_eq, h.printed.parse, fun t g hg => ⟨congrArg _, fun htext => ?_⟩⟩
  rw [h.display_eq, hg.display_eq] at htext
  have hparse := h.printed.parse
  rw [Except.ok.inj htext, hg.printed.parse] at hparse
  exact (Except.ok.inj hparse).symm

/-- The second period of `a.b.` belongs to the extension. -/
theorem short_names_round_trip_example :
    (shortName ['a', '.', 'b', '.']).display = .ok ['A', '.', 'B', '.'] := by
  have h : ParsesTo (fun c => [c]) ['a', '.', 'b', '.'] (shortName ['a', '.', 'b', '.']) :=
    ⟨by simp [Str.Ascii], by decide +kernel, by decide +kernel⟩
  exact (short_names_round_trip h).1

end Ysos.Fat16
