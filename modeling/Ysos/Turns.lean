import Ysos.Fish

/-! # The turns of the fish

What the children know of the static variables and of each other, as a property of the points, the
permits and the variables (`Fish.View`).

* `Fish.At.access`: in its turn a child finds the variables as it left them, and prints the next
  character of the patterns.
* `Fish.View.access` to `Fish.View.pass`: what a step does to the points and the permits keeps the
  property. -/

namespace Ysos

open Runs Threads

namespace Fish

variable {B : Build} {i j k : Sem}

/-! ### The turns -/

/-- The pattern that is printed again and again. -/
def PATTERNS : List Sem := [.lt, .gt, .lt, .us, .gt, .lt, .gt, .us]

/-- Whose turn it is when `n` characters were printed. -/
def turn (n : ℕ) : Sem := PATTERNS.getD (n % 8) .us

/-- The first `n` characters. -/
def word (n : ℕ) : List Char := (List.range n).map fun i => (turn i).char

theorem word_succ (n : ℕ) : word (n + 1) = word n ++ [(turn n).char] := by
  rw [word, List.range_succ, List.map_append]
  rfl

/-- The static variables between two turns. -/
def settled (n : ℕ) : Shared := ⟨n % 4, n / 4 % 2, n, word n⟩

/-- The static variables in the turn after `n` characters, when the character is printed. -/
def printed (n count step pattern : ℕ) : Shared := ⟨step, pattern, count, word (n + 1)⟩

theorem nextSem_turn (n : ℕ) : nextSem (n / 4 % 2) (n % 4) = .ok (turn n) := by
  have hstep : n % 4 = n % 8 % 4 := by omega
  have hpattern : n / 4 % 2 = n % 8 / 4 := by omega
  have hlt : n % 8 < 8 := Nat.mod_lt _ (by decide)
  rw [turn, hstep, hpattern]
  interval_cases n % 8 <;> rfl

/-- What a child that holds the mutex knows of the static variables, after `n` turns. -/
def At (n : ℕ) (m : Shared) : Pc → Prop
  | .waitSem | .waitMutex | .exited => True
  | .check | .signalMutex => m = settled n
  | .signalGt | .signalLt | .signalUs | .leave => m = settled n
  | .print => m = settled n ∧ n < TOTAL_PRINTS
  | .readCount => m = printed n n (n % 4) (n / 4 % 2) ∧ n < TOTAL_PRINTS
  | .writeCount count => (m = printed n n (n % 4) (n / 4 % 2) ∧ n < TOTAL_PRINTS) ∧ count = n
  | .readStep => m = printed n (n + 1) (n % 4) (n / 4 % 2) ∧ n < TOTAL_PRINTS
  | .writeStep step =>
      (m = printed n (n + 1) (n % 4) (n / 4 % 2) ∧ n < TOTAL_PRINTS) ∧ step = n % 4
  | .testStep => m = printed n (n + 1) (n % 4 + 1) (n / 4 % 2) ∧ n < TOTAL_PRINTS
  | .clearStep => (m = printed n (n + 1) (n % 4 + 1) (n / 4 % 2) ∧ n < TOTAL_PRINTS) ∧ n % 4 = 3
  | .readPattern => (m = printed n (n + 1) 0 (n / 4 % 2) ∧ n < TOTAL_PRINTS) ∧ n % 4 = 3
  | .writePattern pattern =>
      ((m = printed n (n + 1) 0 (n / 4 % 2) ∧ n < TOTAL_PRINTS) ∧ n % 4 = 3) ∧ pattern = n / 4 % 2
  | .nextPattern => m = settled (n + 1) ∧ n < TOTAL_PRINTS
  | .nextStep pattern => (m = settled (n + 1) ∧ n < TOTAL_PRINTS) ∧ pattern = (n + 1) / 4 % 2
  | .wake sem => (m = settled (n + 1) ∧ n < TOTAL_PRINTS) ∧ sem = turn (n + 1)

/-- Between two steps of a block the pattern stays. -/
theorem settled_step {n : ℕ} (h : n % 4 + 1 < 4) :
    printed n (n + 1) (n % 4 + 1) (n / 4 % 2) = settled (n + 1) := by
  have hstep : (n + 1) % 4 = n % 4 + 1 := by omega
  have hpattern : (n + 1) / 4 % 2 = n / 4 % 2 := by omega
  rw [settled, hstep, hpattern]
  rfl

/-- After a block the other pattern begins. -/
theorem settled_block {n : ℕ} (h : n % 4 = 3) :
    printed n (n + 1) 0 ((n / 4 % 2 + 1) % 2) = settled (n + 1) := by
  have hstep : (n + 1) % 4 = 0 := by omega
  have hpattern : (n + 1) / 4 % 2 = (n / 4 % 2 + 1) % 2 := by omega
  rw [settled, hstep, hpattern]
  rfl

/-- An access leads from `l` to `l'`: from the check to the print or to the broadcast, or on in the
turn. -/
inductive Leads (n : ℕ) : Pc → Pc → Prop where
  | print (h : n < TOTAL_PRINTS) : Leads n .check .print
  | broadcast (h : TOTAL_PRINTS ≤ n) : Leads n .check .signalGt
  | turn {l l' : Pc} (h : l.printing = true) (h' : l'.printing = true) (he : l'.early = false) :
      Leads n l l'

/-- **A turn.**  An access of the child whose turn it is does not panic, and leads on. -/
theorem At.access {n : ℕ} {m : Shared} {l : Pc} {f : Shared → Except Panic (Shared × Pc)}
    (h : At n m l) (hturn : l = .print → k = turn n) (hc : loop B k k.char l = .access f) :
    ∃ m' l', f m = .ok (m', l') ∧ At n m' l' ∧ Leads n l l' := by
  have hT : TOTAL_PRINTS = 400 := rfl
  have hU : 401 < U64 := by decide
  cases l <;> cases hc
  case check =>
    obtain rfl := h
    by_cases hn : TOTAL_PRINTS ≤ n
    · refine ⟨_, .signalGt, ?_, rfl, .broadcast hn⟩
      exact congrArg (fun l => Except.ok (settled n, l)) (if_pos hn)
    · refine ⟨_, .print, ?_, ⟨rfl, not_le.mp hn⟩, .print (not_le.mp hn)⟩
      exact congrArg (fun l => Except.ok (settled n, l)) (if_neg hn)
  case print =>
    obtain ⟨rfl, hn⟩ := h
    obtain rfl := hturn rfl
    refine ⟨_, _, rfl, ⟨?_, hn⟩, .turn rfl rfl rfl⟩
    rw [printed, word_succ]
    rfl
  case readCount =>
    obtain ⟨rfl, hn⟩ := h
    exact ⟨_, _, rfl, ⟨⟨rfl, hn⟩, rfl⟩, .turn rfl rfl rfl⟩
  case writeCount count =>
    obtain ⟨⟨rfl, hn⟩, rfl⟩ := h
    refine ⟨_, .readStep, ?_, ⟨rfl, hn⟩, .turn rfl rfl rfl⟩
    rw [B.add_eq (show count + 1 < U64 by omega)]
    rfl
  case readStep =>
    obtain ⟨rfl, hn⟩ := h
    exact ⟨_, _, rfl, ⟨⟨rfl, hn⟩, rfl⟩, .turn rfl rfl rfl⟩
  case writeStep step =>
    obtain ⟨⟨rfl, hn⟩, rfl⟩ := h
    refine ⟨_, .testStep, ?_, ⟨rfl, hn⟩, .turn rfl rfl rfl⟩
    rw [B.add_eq (show n % 4 + 1 < U64 by omega)]
    rfl
  case testStep =>
    obtain ⟨rfl, hn⟩ := h
    by_cases hstep : n % 4 + 1 < 4
    · refine ⟨_, .nextPattern, ?_, ⟨settled_step hstep, hn⟩, .turn rfl rfl rfl⟩
      exact congrArg (fun l => Except.ok (_, l)) (if_pos hstep)
    · have hlast : n % 4 = 3 := by omega
      refine ⟨_, .clearStep, ?_, ⟨⟨rfl, hn⟩, hlast⟩, .turn rfl rfl rfl⟩
      exact congrArg (fun l => Except.ok (_, l)) (if_neg hstep)
  case clearStep =>
    obtain ⟨⟨rfl, hn⟩, hlast⟩ := h
    exact ⟨_, _, rfl, ⟨⟨rfl, hn⟩, hlast⟩, .turn rfl rfl rfl⟩
  case readPattern =>
    obtain ⟨⟨rfl, hn⟩, hlast⟩ := h
    exact ⟨_, _, rfl, ⟨⟨⟨rfl, hn⟩, hlast⟩, rfl⟩, .turn rfl rfl rfl⟩
  case writePattern pattern =>
    obtain ⟨⟨⟨rfl, hn⟩, hlast⟩, rfl⟩ := h
    refine ⟨_, .nextPattern, ?_, ⟨settled_block hlast, hn⟩, .turn rfl rfl rfl⟩
    rw [addU8, if_pos (show n / 4 % 2 + 1 < 2 ^ 8 by omega)]
    rfl
  case nextPattern =>
    obtain ⟨rfl, hn⟩ := h
    exact ⟨_, _, rfl, ⟨⟨rfl, hn⟩, rfl⟩, .turn rfl rfl rfl⟩
  case nextStep pattern =>
    obtain ⟨⟨rfl, hn⟩, rfl⟩ := h
    refine ⟨_, .wake (turn (n + 1)), ?_, ⟨⟨rfl, hn⟩, rfl⟩, .turn rfl rfl rfl⟩
    show (nextSem ((n + 1) / 4 % 2) ((n + 1) % 4) >>= fun sem => _) = _
    rw [nextSem_turn]
    rfl

/-! ### The points, the permits and the static variables -/

theorem Pc.late_of_told {l : Pc} (h : l.told k = true) : l.late = true := by
  cases l <;> first | rfl | cases h

theorem Pc.inside_of_printing {l : Pc} (h : l.printing = true) : l.inside = 1 := by
  cases l <;> first | rfl | cases h

theorem Pc.late_of_printing {l : Pc} (h : l.printing = true) : l.late = false := by
  cases l <;> first | rfl | cases h

theorem Pc.owed_of_early {l : Pc} (h : l.early = true) : l.owed = 1 := by
  cases l <;> first | rfl | cases h

theorem Pc.owed_nonneg {l : Pc} (h : l.late = false) : 0 ≤ l.owed := by
  cases l <;> first | exact le_rfl | exact zero_le_one | cases h

theorem Pc.le_owed (l : Pc) : -2 ≤ l.owed := by
  cases l <;> simp [Pc.owed]

theorem Pc.inside_cases (l : Pc) : l.inside = 0 ∨ l.inside = 1 := by
  cases l <;> first | exact Or.inl rfl | exact Or.inr rfl

/-- The child of `k` has a permit that it has not used, or will find one. -/
def Told (pc : Sem → Pc) (permits : Sem → ℕ) (k : Sem) : Prop :=
  0 < permits k ∨ (pc k).early = true

/-- At most one child holds the mutex. -/
def Exclusive (pc : Sem → Pc) : Prop := ∀ i j, (pc i).inside = 1 → (pc j).inside = 1 → i = j

/-- The invariant after `n` turns. -/
structure View (n : ℕ) (pc : Sem → Pc) (permits : Sem → ℕ) (m : Shared) : Prop where
  le : n ≤ TOTAL_PRINTS
  holder : ∀ k, (pc k).inside = 1 → At n m (pc k)
  between : (∀ k, (pc k).inside = 0) → m = settled n
  late : ∀ k, (pc k).late = true → n = TOTAL_PRINTS ∧ ∀ j, (pc j).printing = false
  turn : (∀ k, (pc k).late = false) → ∀ k, Told pc permits k → k = turn n
  told : ∀ j k, (pc j).told k = true → Told pc permits k ∨ (pc k).late = true

/-- Who accesses the variables holds the mutex, and has not found that all is printed. -/
theorem Leads.inside {l l' : Pc} (h : Leads n l l') :
    l.inside = 1 ∧ l'.inside = 1 ∧ l.late = false ∧ ∀ k, l'.told k = false := by
  cases h with
  | print => exact ⟨rfl, rfl, rfl, fun _ => rfl⟩
  | broadcast => exact ⟨rfl, rfl, rfl, fun _ => rfl⟩
  | turn h h' =>
      refine ⟨l.inside_of_printing h, l'.inside_of_printing h', l.late_of_printing h, fun k => ?_⟩
      by_contra htold
      have hlate := Pc.late_of_told (Bool.not_eq_false _ ▸ htold)
      exact Bool.false_ne_true ((Pc.late_of_printing h').symm.trans hlate)

/-- Points with the same part in the printing and in the broadcast. -/
structure Alike (l l' : Pc) : Prop where
  late : l'.late = l.late
  printing : l'.printing = l.printing
  told : ∀ k, l'.told k = l.told k

namespace View

variable {n : ℕ} {m : Shared} {pc pc' : Sem → Pc} {permits permits' : Sem → ℕ} {l : Pc}

theorem nobody_late (h : View n pc permits m) (hk : (pc k).printing = true) :
    ∀ j, (pc j).late = false := fun j => by
  by_contra hlate
  have hnot := (h.late j (Bool.not_eq_false _ ▸ hlate)).2 k
  exact Bool.false_ne_true (hnot.symm.trans hk)

theorem print_turn (h : View n pc permits m) (hk : pc k = .print) : k = Fish.turn n :=
  h.turn (h.nobody_late (by rw [hk]; rfl)) k (Or.inr (by rw [hk]; rfl))

theorem access (h : View n pc permits m) (hex : Exclusive pc) {m' : Shared} {l₀ : Pc}
    (hl : pc k = l₀) (hleads : Leads n l₀ l) (hknows : At n m' l) (hk : pc' k = l)
    (hother : ∀ j, j ≠ k → pc' j = pc j) : View n pc' permits m' := by
  obtain ⟨hin, hin', hgoing, hsilent⟩ := hleads.inside
  have hout : ∀ j, j ≠ k → (pc' j).inside ≠ 1 := fun j hj hjin =>
    hj (hex j k (hother j hj ▸ hjin) (hl ▸ hin))
  refine ⟨h.le, fun j hj => ?_, fun hall => ?_, fun j hj => ?_, fun hlate j hj => ?_,
    fun i j hi => ?_⟩
  · by_cases hjk : j = k
    · subst hjk
      rwa [hk]
    · exact absurd hj (hout j hjk)
  · have := hall k
    rw [hk, hin'] at this
    cases this
  · cases hleads with
    | print hn =>
        have hjk : j ≠ k := fun he => by
          rw [he, hk] at hj
          cases hj
        exact absurd (h.late j (hother j hjk ▸ hj)).1 hn.ne
    | broadcast hn =>
        refine ⟨le_antisymm h.le hn, fun i => ?_⟩
        by_cases hik : i = k
        · rw [hik, hk]
          rfl
        · by_contra hp
          exact hout i hik (Pc.inside_of_printing (Bool.not_eq_false _ ▸ hp))
    | turn hp hp' =>
        have hjk : j ≠ k := fun he => by
          rw [he, hk, Pc.late_of_printing hp'] at hj
          cases hj
        have hnot := h.nobody_late (hl ▸ hp) j
        rw [← hother j hjk, hj] at hnot
        cases hnot
  · have hlate' : ∀ i, (pc i).late = false := fun i => by
      by_cases hik : i = k
      · rw [hik, hl, hgoing]
      · rw [← hother i hik, hlate]
    refine h.turn hlate' j (hj.imp_right fun he => ?_)
    by_cases hjk : j = k
    · rw [hjk, hk] at he
      rw [hjk, hl]
      cases hleads with
      | print => rfl
      | broadcast => cases he
      | turn hp hp' hearly =>
          rw [hearly] at he
          cases he
    · rwa [← hother j hjk]
  · have hik : i ≠ k := fun he => by
      rw [he, hk, hsilent] at hi
      cases hi
    rw [hother i hik] at hi
    obtain ⟨hn, hnobody⟩ := h.late i (Pc.late_of_told hi)
    by_cases hjk : j = k
    · -- all is printed, so that the child leaves
      subst hjk
      cases hleads with
      | print hlt => exact absurd hn hlt.ne
      | broadcast => exact Or.inr (by rw [hk]; rfl)
      | turn hp => exact absurd (hnobody j) (by rw [hl, hp]; decide)
    · unfold Told
      rw [hother j hjk]
      exact h.told i j hi

/-- A child goes on with the same part in the printing and in the broadcast. -/
theorem alike (h : View n pc permits m) (hl : Alike (pc k) l) (hk : pc' k = l)
    (hother : ∀ j, j ≠ k → pc' j = pc j) (htold : ∀ j, Told pc' permits' j ↔ Told pc permits j)
    (hholder : ∀ j, (pc' j).inside = 1 → At n m (pc' j))
    (hbetween : (∀ j, (pc' j).inside = 0) → m = settled n) : View n pc' permits' m := by
  have hsame : ∀ j, Alike (pc j) (pc' j) := fun j => by
    by_cases hjk : j = k
    · rw [hjk, hk]
      exact hl
    · rw [hother j hjk]
      exact ⟨rfl, rfl, fun _ => rfl⟩
  refine ⟨h.le, hholder, hbetween, fun j hj => ?_, fun hlate j hj => ?_, fun i j hi => ?_⟩
  · rw [(hsame j).late] at hj
    exact ⟨(h.late j hj).1, fun i => (hsame i).printing.trans ((h.late j hj).2 i)⟩
  · exact h.turn (fun i => (hsame i).late ▸ hlate i) j ((htold j).mp hj)
  · rw [(hsame i).told] at hi
    exact (h.told i j hi).imp (htold j).mpr ((hsame j).late.trans ·)

theorem passSem (h : View n pc permits m) (hat : pc k = .waitSem) (hpos : 0 < permits k)
    (hk : pc' k = .waitMutex) (hother : ∀ j, j ≠ k → pc' j = pc j)
    (hpermits : ∀ j, j ≠ k → permits' j = permits j) : View n pc' permits' m := by
  refine h.alike (hat ▸ ⟨rfl, rfl, fun _ => rfl⟩) hk hother (fun j => ?_) (fun j hj => ?_)
    fun hall => h.between fun j => ?_
  · unfold Told
    by_cases hjk : j = k
    · rw [hjk, hk]
      exact iff_of_true (Or.inr rfl) (Or.inl hpos)
    · rw [hother j hjk, hpermits j hjk]
  · have hjk : j ≠ k := fun he => by
      rw [he, hk] at hj
      cases hj
    rw [hother j hjk] at hj ⊢
    exact h.holder j hj
  · by_cases hjk : j = k
    · rw [hjk, hat]
      rfl
    · exact hother j hjk ▸ hall j

theorem passMutex (h : View n pc permits m) (hat : pc k = .waitMutex)
    (hfree : ∀ j, (pc j).inside = 0) (hk : pc' k = .check)
    (hother : ∀ j, j ≠ k → pc' j = pc j) : View n pc' permits m := by
  refine h.alike (hat ▸ ⟨rfl, rfl, fun _ => rfl⟩) hk hother (fun j => ?_) (fun j hj => ?_)
    fun hall => h.between hfree
  · unfold Told
    by_cases hjk : j = k
    · rw [hjk, hk, hat]
      exact Iff.rfl
    · rw [hother j hjk]
  · by_cases hjk : j = k
    · rw [hjk, hk]
      exact h.between hfree
    · rw [hother j hjk, hfree j] at hj
      cases hj

theorem release (h : View n pc permits m) (hex : Exclusive pc) {l₀ : Pc} (hl : pc k = l₀)
    (hr : l₀.Releases l) (hk : pc' k = l) (hother : ∀ j, j ≠ k → pc' j = pc j) :
    View n pc' permits m ∧ ∀ j, (pc' j).inside = 0 := by
  obtain ⟨hin, hm, halike, hout, hearly⟩ : l₀.inside = 1 ∧ (At n m l₀ → m = settled n) ∧
      Alike l₀ l ∧ l.inside = 0 ∧ l.early = l₀.early := by
    cases hr with
    | leave => exact ⟨rfl, id, ⟨rfl, rfl, fun _ => rfl⟩, rfl, rfl⟩
    | again => exact ⟨rfl, id, ⟨rfl, rfl, fun _ => rfl⟩, rfl, rfl⟩
  have hfree : ∀ j, (pc' j).inside = 0 := fun j => by
    by_cases hjk : j = k
    · rw [hjk, hk, hout]
    · rw [hother j hjk]
      exact (pc j).inside_cases.resolve_right fun hj => hjk (hex j k hj (hl ▸ hin))
  refine ⟨h.alike (hl ▸ halike) hk hother (fun j => ?_) (fun j hj => ?_) fun _ => ?_, hfree⟩
  · unfold Told
    by_cases hjk : j = k
    · rw [hjk, hk, hl, hearly]
    · rw [hother j hjk]
  · rw [hfree j] at hj
    cases hj
  · exact hm (hl ▸ h.holder k (hl ▸ hin))

/-- A child that leaves tells another one. -/
theorem broadcast (h : View n pc permits m) (hex : Exclusive pc) {l₀ : Pc} (hl : pc k = l₀)
    (hs : l₀.Signals i l) (hlate : l₀.late = true) (hk : pc' k = l)
    (hother : ∀ j, j ≠ k → pc' j = pc j) (hi : permits' i = permits i + 1)
    (hpermits : ∀ j, j ≠ i → permits' j = permits j) : View n pc' permits' m := by
  obtain ⟨hin, hin', hknows, hlate', htold⟩ : l₀.inside = 1 ∧ l.inside = 1 ∧
      (At n m l₀ → At n m l) ∧ l.late = true ∧ ∀ j, l.told j = true → j = i ∨ l₀.told j = true := by
    cases hs with
    | gt hi => exact ⟨rfl, rfl, id, rfl, fun j hj => Or.inl (hi ▸ of_decide_eq_true hj)⟩
    | lt hi =>
        refine ⟨rfl, rfl, id, rfl, fun j hj => ?_⟩
        cases j <;> first | exact Or.inl hi.symm | exact Or.inr rfl | cases hj
    | us hi =>
        refine ⟨rfl, rfl, id, rfl, fun j hj => ?_⟩
        cases j <;> first | exact Or.inl hi.symm | exact Or.inr rfl
    | wake => cases hlate
  have hn := h.late k (hl ▸ hlate)
  have hout : ∀ j, j ≠ k → (pc j).inside = 0 := fun j hjk =>
    (pc j).inside_cases.resolve_right fun hj => hjk (hex j k hj (hl ▸ hin))
  have hgains : ∀ j, Told pc permits j ∨ (pc j).late = true →
      Told pc' permits' j ∨ (pc' j).late = true := fun j hj => by
    by_cases hjk : j = k
    · rw [hjk, hk]
      exact Or.inr hlate'
    · unfold Told at hj ⊢
      rw [hother j hjk]
      by_cases hji : j = i
      · subst hji
        exact Or.inl (Or.inl (by omega))
      · rwa [hpermits j hji]
  refine ⟨h.le, fun j hj => ?_, fun hall => ?_, fun _ _ => ⟨hn.1, fun j => ?_⟩,
    fun hnone => ?_, fun j j' hj => ?_⟩
  · by_cases hjk : j = k
    · subst hjk
      rw [hk]
      exact hknows (hl ▸ h.holder j (hl ▸ hin))
    · rw [hother j hjk, hout j hjk] at hj
      cases hj
  · have := hall k
    rw [hk, hin'] at this
    cases this
  · by_cases hjk : j = k
    · rw [hjk, hk]
      by_contra hp
      have := Pc.late_of_printing (Bool.not_eq_false _ ▸ hp)
      rw [hlate'] at this
      cases this
    · rw [hother j hjk]
      exact hn.2 j
  · have := hnone k
    rw [hk, hlate'] at this
    cases this
  · by_cases hjk : j = k
    · rw [hjk, hk] at hj
      rcases htold j' hj with rfl | hj
      · exact Or.inl (Or.inl (by omega))
      · exact hgains j' (h.told k j' (hl ▸ hj))
    · rw [hother j hjk] at hj
      exact hgains j' (h.told j j' hj)

/-- A child that has printed passes on the turn. -/
theorem pass (h : View n pc permits m) (hex : Exclusive pc) (hl : pc k = .wake i)
    (halone : ∀ j, ¬ Told pc permits j) (hk : pc' k = .signalMutex)
    (hother : ∀ j, j ≠ k → pc' j = pc j) (hpermits : ∀ j, j ≠ i → permits' j = permits j) :
    View (n + 1) pc' permits' m := by
  have hin : (pc k).inside = 1 := by
    rw [hl]
    rfl
  obtain ⟨⟨hm, hlt⟩, hi⟩ : (m = settled (n + 1) ∧ n < TOTAL_PRINTS) ∧ i = Fish.turn (n + 1) := by
    have := h.holder k hin
    rwa [hl] at this
  have hlate : ∀ j, (pc' j).late = false := fun j => by
    by_cases hjk : j = k
    · rw [hjk, hk]
      rfl
    · rw [hother j hjk]
      exact h.nobody_late (k := k) (by rw [hl]; rfl) j
  refine ⟨hlt, fun j hj => ?_, fun hall => hm, fun j hj => ?_, fun _ j hj => ?_, fun j j' hj => ?_⟩
  · by_cases hjk : j = k
    · rw [hjk, hk]
      exact hm
    · rw [hother j hjk] at hj
      exact absurd (hex j k hj hin) hjk
  · rw [hlate j] at hj
    cases hj
  · by_contra hne
    have hji : j ≠ i := hi ▸ hne
    refine halone j (hj.imp (fun hpos => hpermits j hji ▸ hpos) fun he => ?_)
    by_cases hjk : j = k
    · rw [hjk, hk] at he
      cases he
    · rwa [← hother j hjk]
  · have := Pc.late_of_told hj
    rw [hlate j] at this
    cases this

end View

end Fish

end Ysos
