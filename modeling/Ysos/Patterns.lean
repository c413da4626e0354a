import Ysos.Turns

/-! # Whole patterns

* `Fish.Inv`: the mutex, the one permit that goes round, and what the children know.
* `Fish.Inv.progress`, `Fish.Inv.measure_lt`: nobody waits for ever, and every step does something.
* `Fish.whole_patterns`: in every interleaving the output is a beginning of whole patterns, and all
  three children leave. -/

namespace Ysos

open Runs Threads

namespace Fish

variable {B : Build} {s t : FishState} {i j k : Sem} {p : ProcessId}

/-! ### The invariant -/

theorem loop_access {c : Char} {l l' : Pc} {f : Shared → Except Panic (Shared × Pc)} {m m' : Shared}
    (hc : loop B k c l = .access f) (hf : f m = .ok (m', l')) :
    l.inside = 1 ∧ l'.inside = 1 ∧ l.owed = 1 ∧ l'.owed = 1 := by
  cases l <;> cases hc
  case check =>
    cases hf
    refine ⟨rfl, ?_, rfl, ?_⟩ <;> split_ifs <;> rfl
  case testStep =>
    cases hf
    refine ⟨rfl, ?_, rfl, ?_⟩ <;> split_ifs <;> rfl
  case writeCount | writeStep | writePattern | nextStep =>
    simp only [bind_eq_ok, pure_eq_ok] at hf
    obtain ⟨_, -, hf⟩ := hf
    cases hf
    exact ⟨rfl, rfl, rfl, rfl⟩
  all_goals
    cases hf
    exact ⟨rfl, rfl, rfl, rfl⟩

theorem loop_inside {c : Char} {l : Pc} {f : Shared → Except Panic (Shared × Pc)}
    (hc : loop B k c l = .access f) : l.inside = 1 := by
  cases l <;> first | rfl | cases hc

theorem balanced_mutex : Balanced (program B) MUTEX fun _ => Pc.inside := by
  refine ⟨fun p l key l' h => ?_, fun p l key l' h => ?_, fun p l f m m' l' h hf => ?_⟩ <;>
    obtain ⟨k, rfl, hloop⟩ := exists_child h nofun
  · obtain ⟨rfl, rfl, rfl⟩ | ⟨rfl, rfl, rfl⟩ := loop_wait hloop
    · rw [if_neg Sem.key_ne_mutex]
      rfl
    · rfl
  · obtain ⟨i, rfl, hs⟩ | ⟨rfl, hr⟩ := loop_signal hloop
    · rw [if_neg Sem.key_ne_mutex]
      cases hs <;> rfl
    · cases hr <;> rfl
  · obtain ⟨hin, hin', -⟩ := loop_access hloop hf
    rw [hin, hin']

theorem balanced_keys : BalancedOn (program B) keys fun _ => Pc.owed := by
  refine ⟨fun p l key l' h => ?_, fun p l key l' h => ?_, fun p l f m m' l' h hf => ?_⟩ <;>
    obtain ⟨k, rfl, hloop⟩ := exists_child h nofun
  · obtain ⟨rfl, rfl, rfl⟩ | ⟨rfl, rfl, rfl⟩ := loop_wait hloop
    · rw [if_pos key_mem]
      rfl
    · rfl
  · obtain ⟨i, rfl, hs⟩ | ⟨rfl, hr⟩ := loop_signal hloop
    · rw [if_pos key_mem]
      cases hs <;> rfl
    · cases hr <;> rfl
  · obtain ⟨-, -, howed, howed'⟩ := loop_access hloop hf
    rw [howed, howed']

/-- The mutex, the permits that go round, and what the children know. -/
structure Inv (B : Build) (n : ℕ) (s : FishState) : Prop where
  wf : Wf (program B) children s
  mutex : Pool children MUTEX (fun _ => Pc.inside) 1 s
  total : total children keys (fun _ => Pc.owed) s = 1
  sems : ∀ k : Sem, s.sems k.key ≠ none
  view : View n (pc s) (permits s) s.shared

namespace Inv

variable {n : ℕ}

theorem inside_sum (h : Inv B n s) :
    (s.count MUTEX : ℤ) + ((pc s .gt).inside + (pc s .lt).inside + (pc s .us).inside) = 1 := by
  obtain ⟨sem, hsem, hsum⟩ := h.mutex
  rwa [sum_children, ← count_of hsem] at hsum

theorem permits_sum (h : Inv B n s) :
    ((permits s .gt : ℤ) + permits s .lt + permits s .us) +
      ((pc s .gt).owed + (pc s .lt).owed + (pc s .us).owed) = 1 := by
  have hsum := h.total
  rwa [Threads.total, sum_children, sum_keys] at hsum

theorem exclusive (h : Inv B n s) : Exclusive (pc s) := fun i j hi hj => by
  have hsum := h.inside_sum
  have hgt := (pc s .gt).inside_cases
  have hlt := (pc s .lt).inside_cases
  have hus := (pc s .us).inside_cases
  cases i <;> cases j <;> first | rfl | omega

theorem free (h : Inv B n s) (hpos : 0 < s.count MUTEX) : ∀ j, (pc s j).inside = 0 := fun j => by
  have hsum := h.inside_sum
  have hgt := (pc s .gt).inside_cases
  have hlt := (pc s .lt).inside_cases
  have hus := (pc s .us).inside_cases
  cases j <;> omega

/-- While nobody leaves, the child that passes on the turn has the only permit. -/
theorem alone (h : Inv B n s) (hk : pc s k = .wake i) : ∀ j, ¬ Told (pc s) (permits s) j := by
  have hlate := h.view.nobody_late (k := k) (by rw [hk]; rfl)
  have hsum := h.permits_sum
  have hone : (pc s k).owed = 1 := by rw [hk]; rfl
  have hgt := Pc.owed_nonneg (hlate .gt)
  have hlt := Pc.owed_nonneg (hlate .lt)
  have hus := Pc.owed_nonneg (hlate .us)
  rintro j (hpos | hearly)
  · cases j <;> cases k <;> omega
  · have hjk : j ≠ k := fun he => by
      rw [he, hk] at hearly
      cases hearly
    have hj := Pc.owed_of_early hearly
    cases j <;> cases k <;> first | exact absurd rfl hjk | omega

theorem served (h : Inv B n s) (p : ProcessId) : Served (program B) s p := by
  have hU : 10 < U64 := by decide
  obtain ⟨mutex, hmutex, -⟩ := h.mutex
  refine ⟨fun key l hc => ?_, fun key l hc => ?_⟩
  · obtain ⟨k, rfl, hloop⟩ := exists_child hc nofun
    obtain ⟨-, rfl, -⟩ | ⟨-, rfl, -⟩ := loop_wait hloop
    · exact h.sems k
    · simp [hmutex]
  · obtain ⟨k, rfl, hloop⟩ := exists_child hc nofun
    obtain ⟨i, rfl, -⟩ | ⟨rfl, -⟩ := loop_signal hloop
    · obtain ⟨sem, hsem⟩ := Option.ne_none_iff_exists'.mp (h.sems i)
      refine ⟨sem, hsem, ?_⟩
      have hsum := h.permits_sum
      have hgt := (pc s .gt).le_owed
      have hlt := (pc s .lt).le_owed
      have hus := (pc s .us).le_owed
      have hcount : permits s i = sem.count := count_of hsem
      cases i <;> omega
    · refine ⟨mutex, hmutex, ?_⟩
      have hsum := h.inside_sum
      have hgt := (pc s .gt).inside_cases
      have hlt := (pc s .lt).inside_cases
      have hus := (pc s .us).inside_cases
      have hcount : s.count MUTEX = mutex.count := count_of hmutex
      omega

theorem signal (h : Inv B n s) {l : Pc} (hs : (pc s k).Signals i l) :
    ∃ n', View n' (Function.update (pc s) k l)
      (Function.update (permits s) i (permits s i + 1)) s.shared := by
  have hk : Function.update (pc s) k l k = l := Function.update_self _ _ _
  have hother : ∀ j, j ≠ k → Function.update (pc s) k l j = pc s j := fun j hj =>
    Function.update_of_ne hj _ _
  have hpermits : ∀ j, j ≠ i → Function.update (permits s) i (permits s i + 1) j = permits s j :=
    fun j hj => Function.update_of_ne hj _ _
  by_cases hlate : (pc s k).late = true
  · exact ⟨n, h.view.broadcast h.exclusive rfl hs hlate hk hother (Function.update_self _ _ _)
      hpermits⟩
  · obtain ⟨hwake, rfl⟩ : pc s k = .wake i ∧ l = .signalMutex := by
      generalize pc s k = l₀ at hs hlate
      cases hs with
      | wake => exact ⟨rfl, rfl⟩
      | _ => exact absurd rfl hlate
    exact ⟨n + 1, h.view.pass h.exclusive hwake (h.alone hwake) hk hother hpermits⟩

/-- What the children know stays true. -/
theorem effect (h : Inv B n s) (he : Effect B s t k) :
    ∃ n', View n' (pc t) (permits t) t.shared := by
  have hview := h.view
  have hex := h.exclusive
  cases he with
  | @access f m l hc hf hshared hpc hpermits =>
      have hat := hview.holder k (loop_access hc hf).1
      obtain ⟨m', l', hf', hknows, hleads⟩ := hat.access hview.print_turn hc
      rw [hf] at hf'
      cases hf'
      rw [hpc, hpermits, hshared]
      exact ⟨n, hview.access hex rfl hleads hknows (Function.update_self _ _ _)
        fun j hj => Function.update_of_ne hj _ _⟩
  | block hshared hpc hpermits =>
      rw [hpc, hpermits, hshared]
      exact ⟨n, hview⟩
  | passSem hat hpos hshared hpc hpermits =>
      rw [hpc, hpermits, hshared]
      exact ⟨n, hview.passSem hat hpos (Function.update_self _ _ _)
        (fun j hj => Function.update_of_ne hj _ _) fun j hj => Function.update_of_ne hj _ _⟩
  | passMutex hat hfree hshared hpc hpermits =>
      rw [hpc, hpermits, hshared]
      exact ⟨n, hview.passMutex hat (h.free hfree) (Function.update_self _ _ _)
        fun j hj => Function.update_of_ne hj _ _⟩
  | signal hs hshared hpc hpermits =>
      rw [hpc, hpermits, hshared]
      exact h.signal hs
  | @wake i l hs hne hat hshared hpc hpermits =>
      -- the permit is given and taken at once
      rw [hpc, hpermits, hshared]
      obtain ⟨n', hview'⟩ := h.signal hs
      refine ⟨n', hview'.passSem (k := i) ?_ ?_ (Function.update_self _ _ _)
        (fun j hj => Function.update_of_ne hj _ _) fun j hj => (Function.update_of_ne hj _ _).symm⟩
      · rw [Function.update_of_ne hne, hat]
      · rw [Function.update_self]
        exact Nat.succ_pos _
  | release hr hshared hpc hpermits =>
      rw [hpc, hpermits, hshared]
      exact ⟨n, (hview.release hex rfl hr (Function.update_self _ _ _)
        fun j hj => Function.update_of_ne hj _ _).1⟩
  | @handOver i l hr hne hat hshared hpc hpermits =>
      rw [hpc, hpermits, hshared]
      obtain ⟨hview', hfree⟩ := hview.release hex rfl hr (Function.update_self k l (pc s))
        fun j hj => Function.update_of_ne hj _ _
      refine ⟨n, hview'.passMutex (k := i) ?_ hfree (Function.update_self _ _ _)
        fun j hj => Function.update_of_ne hj _ _⟩
      rw [Function.update_of_ne hne, hat]

/-- **A step keeps the invariant.** -/
theorem step (h : Inv B n s) {u : Unit} (hstep : Threads.step B (program B) s p = .ok (t, u)) :
    ∃ n', Inv B n' t := by
  obtain ⟨hb, hp, hm⟩ := step_move h.wf (h.served p) hstep
  obtain ⟨k, rfl⟩ := mem_children.mp hp
  obtain ⟨n', hview⟩ := h.effect (Fish.effect hm)
  exact ⟨n', h.wf.move hb hp hm, h.mutex.move balanced_mutex h.wf hp hm,
    (hm.total balanced_keys h.wf hp).trans h.total, fun j => hm.sems (h.sems j), hview⟩

end Inv

/-- The semaphores that `main` makes. -/
def initSems : SemaphoreSet :=
  ((((SemaphoreSet.empty.insert Sem.gt.key 0).2.insert Sem.lt.key 0).2.insert Sem.us.key 0).2.insert
    MUTEX 1).2

theorem main_sems : initSems.signal B Sem.lt.key = .ok (.ok, (initSems.insert Sem.lt.key 1).2) := by
  have hsem : initSems Sem.lt.key = some (Semaphore.new 0) := rfl
  have hone : B.add (Semaphore.new 0).count 1 = .ok 1 := B.add_eq (by decide)
  rw [SemaphoreSet.signal, hsem]
  simp only [Semaphore.signal, hone]
  rfl

/-- The state when `main` has made the children. -/
def init : FishState where
  sems := (initSems.insert Sem.lt.key 1).2
  shared := ⟨0, 0, 0, []⟩
  loc p := if p ∈ children then .waitSem else .exited
  blocked := fun _ => false

theorem main_eq : main B = .ok init := by
  show (initSems.signal B Sem.lt.key >>= _) = _
  rw [main_sems]
  rfl

theorem pc_init (k : Sem) : pc init k = .waitSem := if_pos Sem.child_mem

theorem init_inv : Inv B 0 init := by
  refine ⟨.of_fresh (fun p hp => ?_) (fun _ => rfl) ?_, ⟨⟨1, []⟩, rfl, ?_⟩, ?_, fun k => ?_, ?_⟩
  · exact program_outside hp _
  · exact (((Fresh.empty.insert).insert).insert).insert.insert
  · rw [sum_children]
    rfl
  · rw [Threads.total, sum_children, sum_keys]
    rfl
  · cases k <;> nofun
  · refine ⟨Nat.zero_le _, fun k hk => ?_, fun _ => rfl, fun k hk => ?_, fun _ k hk => ?_,
      fun j k hk => ?_⟩
    · rw [pc_init] at hk
      cases hk
    · rw [pc_init] at hk
      cases hk
    · rcases hk with hpos | hearly
      · cases k <;> first | rfl | exact absurd hpos (by decide)
      · rw [pc_init] at hearly
        cases hearly
    · rw [pc_init] at hk
      cases hk

theorem run_inv {s₀ : FishState} (h₀ : main B = .ok s₀)
    (h : Run (Threads.step B (program B)) Any s₀ s) : ∃ n, Inv B n s := by
  rw [main_eq] at h₀
  cases h₀
  exact h.invariant (P := fun s => ∃ n, Inv B n s) ⟨0, init_inv⟩
    fun _ _ _ _ ⟨_, hs⟩ hstep _ => hs.step hstep

/-! ### Nobody waits for ever -/

namespace Inv

variable {n : ℕ}

/-- A blocked child is at one of its two waits, and finds no permit there. -/
theorem blocked_cases (h : Inv B n s) (hb : s.blocked k.child = true) :
    pc s k = .waitSem ∧ permits s k = 0 ∨ pc s k = .waitMutex ∧ s.count MUTEX = 0 := by
  obtain ⟨key, l, hc⟩ := h.wf.waits k.child hb
  have hzero := h.wf.count_of_blocked hb ⟨l, hc⟩
  rw [program_child] at hc
  obtain ⟨hpc, rfl, -⟩ | ⟨hpc, rfl, -⟩ := loop_wait hc
  · exact Or.inl ⟨hpc, hzero⟩
  · exact Or.inr ⟨hpc, hzero⟩

/-- If all children that have not left are blocked, they wait for their semaphores. -/
theorem idle_of_stuck (h : Inv B n s) (hstuck : ∀ j, pc s j ≠ .exited → s.blocked j.child = true) :
    ∀ j, pc s j = .exited ∨ pc s j = .waitSem ∧ permits s j = 0 := by
  have hout : ∀ j, (pc s j).inside = 0 := fun j => by
    by_cases hj : pc s j = .exited
    · rw [hj]
      rfl
    · rcases h.blocked_cases (hstuck j hj) with ⟨hpc, -⟩ | ⟨hpc, -⟩ <;> rw [hpc] <;> rfl
  intro j
  by_cases hj : pc s j = .exited
  · exact Or.inl hj
  · refine Or.inr ((h.blocked_cases (hstuck j hj)).resolve_right ?_)
    rintro ⟨-, hzero⟩
    have hsum := h.inside_sum
    rw [hout .gt, hout .lt, hout .us, hzero] at hsum
    cases hsum

theorem progress (h : Inv B n s) (hk : pc s k ≠ .exited) :
    ∃ j, pc s j ≠ .exited ∧ s.blocked j.child = false := by
  by_contra hno
  have hstuck : ∀ j, pc s j ≠ .exited → s.blocked j.child = true := fun j hj => by
    by_contra hb
    exact hno ⟨j, hj, Bool.eq_false_iff.mpr hb⟩
  have hidle := h.idle_of_stuck hstuck
  obtain ⟨hat, hzero⟩ := (hidle k).resolve_left hk
  by_cases hleft : ∃ j, pc s j = .exited
  · -- who has left has told everybody
    obtain ⟨j, hj⟩ := hleft
    rcases h.view.told j k (by rw [hj]; rfl) with (hpos | hearly) | hlate
    · exact absurd hzero hpos.ne'
    · rw [hat] at hearly
      cases hearly
    · rw [hat] at hlate
      cases hlate
  · have hall : ∀ j, pc s j = .waitSem ∧ permits s j = 0 := fun j =>
      (hidle j).resolve_left fun hj => hleft ⟨j, hj⟩
    have hsum := h.permits_sum
    rw [(hall .gt).1, (hall .lt).1, (hall .us).1, (hall .gt).2, (hall .lt).2, (hall .us).2] at hsum
    cases hsum

theorem access_ok (h : Inv B n s) {f : Shared → Except Panic (Shared × Pc)}
    (hc : program B p (s.loc p) = .access f) : ∃ r, f s.shared = .ok r := by
  obtain ⟨k, rfl, hloop⟩ := exists_child hc nofun
  have hin := loop_inside hloop
  obtain ⟨m, l, hf, -⟩ := (h.view.holder k hin).access h.view.print_turn hloop
  exact ⟨(m, l), hf⟩

theorem step_ok (h : Inv B n s) (hk : pc s k ≠ .exited) (hb : s.blocked k.child = false) :
    ∃ t, Threads.step B (program B) s k.child = .ok t := by
  refine Threads.step_ok (h.served _) hb (fun hc => hk ?_) fun f hc => h.access_ok hc
  rw [program_child] at hc
  exact loop_exited.mp hc

end Inv

/-! ### The end -/

/-- The characters that are not yet printed. -/
def rest (m : Shared) : ℕ := 100 * (TOTAL_PRINTS + 1 - m.output.length)

theorem length_word (n : ℕ) : (word n).length = n := by
  rw [word, List.length_map, List.length_range]

theorem word_prefix {n n' : ℕ} (h : n ≤ n') : word n <+: word n' := by
  have hrange : List.range n = (List.range n').take n := by
    rw [List.take_range, min_eq_left h]
  rw [word, hrange]
  exact (List.take_prefix n _).map _

/-- What was printed, in the turn after `n` characters. -/
theorem At.output {n : ℕ} {m : Shared} {l : Pc} (h : At n m l) (hin : l.inside = 1) :
    m.output = word n ∨ m.output = word (n + 1) ∧ n < TOTAL_PRINTS := by
  cases l with
  | waitSem | waitMutex | exited => cases hin
  | check | signalMutex | signalGt | signalLt | signalUs | leave => exact Or.inl (by rw [h]; rfl)
  | print => exact Or.inl (by rw [h.1]; rfl)
  | readCount | readStep | testStep | nextPattern => exact Or.inr ⟨by rw [h.1]; rfl, h.2⟩
  | writeCount | writeStep | clearStep | readPattern | nextStep | wake =>
      exact Or.inr ⟨by rw [h.1.1]; rfl, h.1.2⟩
  | writePattern => exact Or.inr ⟨by rw [h.1.1.1]; rfl, h.1.1.2⟩

/-- Along calls the children get to the end of their rounds. -/
theorem rank_call {l l' : Pc} (h : CallEdge (program B) p l l') : l'.rank < l.rank := by
  obtain ⟨key, hc | hc⟩ := h
  · obtain ⟨k, rfl, hloop⟩ := exists_child hc nofun
    obtain ⟨rfl, -, rfl⟩ | ⟨rfl, -, rfl⟩ := loop_wait hloop <;> decide
  · obtain ⟨k, rfl, hloop⟩ := exists_child hc nofun
    obtain ⟨i, -, hs⟩ | ⟨-, hr⟩ := loop_signal hloop
    · cases hs <;> simp [Pc.rank]
    · cases hr <;> decide

/-- An access prints or gets to the end of the round. -/
theorem rank_access {n : ℕ} {c : Char} {l l' : Pc} {m m' : Shared}
    {f : Shared → Except Panic (Shared × Pc)} (h : At n m l) (hc : loop B k c l = .access f)
    (hf : f m = .ok (m', l')) : rest m' + 2 * l'.rank < rest m + 2 * l.rank := by
  cases l <;> cases hc
  case print =>
    obtain ⟨rfl, hn⟩ := h
    cases hf
    have hlength := length_word n
    simp only [rest, settled, List.length_append, List.length_singleton, Pc.rank, hlength]
    omega
  case check =>
    cases hf
    split_ifs <;> simp [Pc.rank]
  case testStep =>
    cases hf
    split_ifs <;> simp [Pc.rank]
  case writeCount | writeStep | writePattern | nextStep =>
    simp only [bind_eq_ok, pure_eq_ok] at hf
    obtain ⟨_, -, hf⟩ := hf
    cases hf
    simp [Pc.rank, rest]
  all_goals
    cases hf
    simp [Pc.rank, rest]

theorem Inv.measure_lt {n : ℕ} (h : Inv B n s) {u : Unit}
    (hstep : Threads.step B (program B) s p = .ok (t, u)) :
    Threads.measure children rest (fun _ => Pc.rank) t <
      Threads.measure children rest (fun _ => Pc.rank) s := by
  obtain ⟨hb, hp, hm⟩ := step_move h.wf (h.served p) hstep
  refine hm.measure_lt hb hp (fun q l l' hc => rank_call hc) fun f m l hc hf => ?_
  obtain ⟨k, rfl, hloop⟩ := exists_child hc nofun
  exact rank_access (h.view.holder k (loop_inside hloop)) hloop hf

/-- From every state of a run the children can all leave. -/
theorem Inv.finishes {n : ℕ} (h : Inv B n s) :
    ∃ t, Run (Threads.step B (program B)) Any s t ∧ ∀ k, pc t k = .exited := by
  induction hN : Threads.measure children rest (fun _ => Pc.rank) s using Nat.strong_induction_on
    generalizing s n with
  | _ N ih =>
      by_cases hall : ∀ k, pc s k = .exited
      · exact ⟨s, .refl, hall⟩
      · obtain ⟨k, hk⟩ := not_forall.mp hall
        obtain ⟨j, hj, hb⟩ := h.progress hk
        obtain ⟨⟨t, u⟩, hstep⟩ := h.step_ok hj hb
        obtain ⟨n', ht⟩ := h.step hstep
        obtain ⟨t', hrun, hleft⟩ := ih _ (hN ▸ h.measure_lt hstep) ht rfl
        exact ⟨t', .head ⟨_, _, hstep, trivial⟩ hrun, hleft⟩

theorem Inv.ends {n : ℕ} {f : ℕ → FishState} (h : Inv B n (f 0)) :
    ¬ ∀ i, Runs.Step (Threads.step B (program B)) Any (f i) (f (i + 1)) := by
  intro hsteps
  have hfuel : ∀ i, (∃ n, Inv B n (f i)) ∧ Threads.measure children rest (fun _ => Pc.rank) (f i) + i ≤
      Threads.measure children rest (fun _ => Pc.rank) (f 0) := fun i => by
    induction i with
    | zero => exact ⟨⟨n, h⟩, le_rfl⟩
    | succ i ih =>
        obtain ⟨⟨n', hi⟩, hle⟩ := ih
        obtain ⟨p, u, hstep, -⟩ := hsteps i
        have hlt := hi.measure_lt hstep
        exact ⟨hi.step hstep, by omega⟩
  have hle := (hfuel (Threads.measure children rest (fun _ => Pc.rank) (f 0) + 1)).2
  omega

/-- The characters of the two patterns. -/
def FISHES : List Char := ['<', '>', '<', '_', '>', '<', '>', '_']

theorem Inv.output_prefix {n : ℕ} (h : Inv B n s) : s.shared.output <+: word TOTAL_PRINTS := by
  have hword : s.shared.output = word n ∨ s.shared.output = word (n + 1) ∧ n < TOTAL_PRINTS := by
    by_cases hin : ∃ k, (pc s k).inside = 1
    · obtain ⟨k, hk⟩ := hin
      exact (h.view.holder k hk).output hk
    · refine Or.inl ?_
      rw [h.view.between fun k => (pc s k).inside_cases.resolve_right fun hk => hin ⟨k, hk⟩]
      rfl
  rcases hword with ho | ⟨ho, hlt⟩
  · rw [ho]
    exact word_prefix h.view.le
  · rw [ho]
    exact word_prefix hlt

theorem Inv.output_all {n : ℕ} (h : Inv B n s) (hall : ∀ k, pc s k = .exited) :
    s.shared.output = word TOTAL_PRINTS := by
  have hn := (h.view.late .gt (by rw [hall]; rfl)).1
  rw [h.view.between fun k => by rw [hall]; rfl, ← hn]
  rfl

/-- **Whole patterns.**  In every interleaving of the three children: the output is a beginning of
fifty times the two patterns; as long as a child has not left, one that has not is not blocked; no
step panics; the children can all leave, no run goes on for ever, and when all have left, all is
printed. -/
theorem whole_patterns {s₀ : FishState} (h₀ : main B = .ok s₀)
    (h : Run (Threads.step B (program B)) Any s₀ s) :
    s.shared.output <+: (List.replicate 50 FISHES).flatten ∧
    ((∃ p ∈ children, s.loc p ≠ .exited) →
      ∃ p ∈ children, s.loc p ≠ .exited ∧ s.blocked p = false ∧
        ∃ t, Threads.step B (program B) s p = .ok t) ∧
    (∀ p e, Threads.step B (program B) s p ≠ .error (.panic e)) ∧
    (∃ t, Run (Threads.step B (program B)) Any s t ∧ ∀ p ∈ children, t.loc p = .exited) ∧
    (∀ f : ℕ → FishState, f 0 = s →
      ¬ ∀ i, Runs.Step (Threads.step B (program B)) Any (f i) (f (i + 1))) ∧
    ((∀ p ∈ children, s.loc p = .exited) →
      s.shared.output = (List.replicate 50 FISHES).flatten) := by
  obtain ⟨n, hs⟩ := run_inv h₀ h
  have hword : word TOTAL_PRINTS = (List.replicate 50 FISHES).flatten := by decide +kernel
  refine ⟨hword ▸ hs.output_prefix, ?_, fun p => step_ne_panic (hs.served p) fun f => hs.access_ok, ?_,
    fun f hf => ?_, fun hall => ?_⟩
  · rintro ⟨p, hp, hlive⟩
    obtain ⟨k, rfl⟩ := mem_children.mp hp
    obtain ⟨j, hj, hb⟩ := hs.progress hlive
    exact ⟨j.child, Sem.child_mem, hj, hb, hs.step_ok hj hb⟩
  · obtain ⟨t, hrun, hall⟩ := hs.finishes
    refine ⟨t, hrun, fun p hp => ?_⟩
    obtain ⟨k, rfl⟩ := mem_children.mp hp
    exact hall k
  · subst hf
    exact hs.ends
  · rw [← hword]
    exact hs.output_all fun k => hall k.child Sem.child_mem

/-- The child of `<` prints the first character. -/
theorem whole_patterns_example : ∃ s : FishState,
    s.shared.output = ['<'] ∧ s.shared.output <+: (List.replicate 50 FISHES).flatten := by
  have hs : ((main Build.release).toOption.bind fun s₀ =>
      (exec (Threads.step Build.release (program Build.release)) Any s₀ [1, 2, 2, 2, 3, 2]).map
        fun s => s.shared.output) = some ['<'] := by
    decide +kernel
  obtain ⟨s₀, h₀, hs⟩ := Option.bind_eq_some_iff.mp hs
  obtain ⟨s, hs, hout⟩ := Option.map_eq_some_iff.mp hs
  exact ⟨s, hout, (whole_patterns (ok_of_toOption h₀) (run_of_exec hs)).1⟩

end Fish

end Ysos
