import Ysos.Threads

/-! # The fish (`app/fish`)

Three children print one character each, and tell each other whose turn it is.  Every access to
`STEP`, `PATTERN` and `PRINT_COUNT` is a step of its own.

* `Fish.program`: the children, point by point.
* `Fish.Effect`, `Fish.effect`: what a step of a child does to the points, the permits of the
  semaphores and the static variables. -/

namespace Ysos

open Runs Threads

namespace Fish

/-! ### The program -/

/-- `SEM_GT`, `SEM_LT` and `SEM_US`, which wake the children that print their character. -/
inductive Sem where
  | gt
  | lt
  | us
deriving DecidableEq, Repr

def Sem.key : Sem → SemaphoreId
  | gt => 0x3001
  | lt => 0x3002
  | us => 0x3003

def MUTEX : SemaphoreId := 0x3004

/-- The static variables, and what was printed. -/
structure Shared where
  step : ℕ
  pattern : ℕ
  printCount : ℕ
  output : List Char
deriving DecidableEq, Repr

def TOTAL_PRINTS : ℕ := 400

def nextSem (pattern step : ℕ) : Except Panic Sem :=
  if pattern = 0 then
    match step with
    | 0 => .ok .lt
    | 1 => .ok .gt
    | 2 => .ok .lt
    | 3 => .ok .us
    | _ => .error .unreachable
  else
    match step with
    | 0 => .ok .gt
    | 1 => .ok .lt
    | 2 => .ok .gt
    | 3 => .ok .us
    | _ => .error .unreachable

/-- The points of the loop, by what comes next; `writeCount`, `writeStep`, `writePattern` and
`nextStep` have read the value of a variable. -/
inductive Pc where
  | waitSem
  | waitMutex
  | check
  | signalGt
  | signalLt
  | signalUs
  | leave
  | exited
  | print
  | readCount
  | writeCount (count : ℕ)
  | readStep
  | writeStep (step : ℕ)
  | testStep
  | clearStep
  | readPattern
  | writePattern (pattern : ℕ)
  | nextPattern
  | nextStep (pattern : ℕ)
  | wake (sem : Sem)
  | signalMutex
deriving DecidableEq, Repr

variable (B : Build)

/-- Addition of `u8` values. -/
def addU8 (a b : ℕ) : Except Panic ℕ :=
  if a + b < 2 ^ 8 then .ok (a + b) else if B.debug then .error .overflow else .ok ((a + b) % 2 ^ 8)

/-- The loop of a child that waits for `sem` and prints `c`. -/
def loop (sem : Sem) (c : Char) : Pc → Action Shared Pc
  | .waitSem => .wait sem.key .waitMutex
  | .waitMutex => .wait MUTEX .check
  | .check => .access fun m => .ok (m, if TOTAL_PRINTS ≤ m.printCount then .signalGt else .print)
  -- `broadcast_exit`
  | .signalGt => .signal Sem.gt.key .signalLt
  | .signalLt => .signal Sem.lt.key .signalUs
  | .signalUs => .signal Sem.us.key .leave
  | .leave => .signal MUTEX .exited
  | .exited => .exited
  | .print => .access fun m => .ok ({ m with output := m.output ++ [c] }, .readCount)
  | .readCount => .access fun m => .ok (m, .writeCount m.printCount)
  | .writeCount count => .access fun m => do
      return ({ m with printCount := ← B.add count 1 }, .readStep)
  | .readStep => .access fun m => .ok (m, .writeStep m.step)
  | .writeStep step => .access fun m => do return ({ m with step := ← B.add step 1 }, .testStep)
  | .testStep => .access fun m => .ok (m, if m.step < 4 then .nextPattern else .clearStep)
  | .clearStep => .access fun m => .ok ({ m with step := 0 }, .readPattern)
  | .readPattern => .access fun m => .ok (m, .writePattern m.pattern)
  | .writePattern pattern => .access fun m => do
      return ({ m with pattern := (← addU8 B pattern 1) % 2 }, .nextPattern)
  | .nextPattern => .access fun m => .ok (m, .nextStep m.pattern)
  | .nextStep pattern => .access fun m => do return (m, .wake (← nextSem pattern m.step))
  | .wake sem => .signal sem.key .signalMutex
  | .signalMutex => .signal MUTEX .waitSem

def fishGt : Pc → Action Shared Pc := loop B .gt '>'

def fishLt : Pc → Action Shared Pc := loop B .lt '<'

def fishUs : Pc → Action Shared Pc := loop B .us '_'

/-- The children `pid1`, `pid2` and `pid3` of `main`. -/
def program : Code Shared Pc
  | 1 => fishGt B
  | 2 => fishLt B
  | 3 => fishUs B
  | _ => fun _ => .exited

def children : Finset ProcessId := {1, 2, 3}

/-- The state when `main` has made the semaphores and the children.  A child that is forked later is
one whose first step comes later, as `main` does not touch the semaphores any more. -/
def main : Except Panic (State Shared Pc) := do
  let sems := (SemaphoreSet.empty.insert Sem.gt.key 0).2
  let sems := (sems.insert Sem.lt.key 0).2
  let sems := (sems.insert Sem.us.key 0).2
  let sems := (sems.insert MUTEX 1).2
  let (_, sems) ← sems.signal B Sem.lt.key
  return {
    sems := sems
    shared := ⟨0, 0, 0, []⟩
    loc := fun i => if i ∈ children then .waitSem else .exited
    blocked := fun _ => false }

/-! ### The children by their semaphores -/

/-- The child that waits for the semaphore. -/
def Sem.child : Sem → ProcessId
  | gt => 1
  | lt => 2
  | us => 3

def Sem.char : Sem → Char
  | gt => '>'
  | lt => '<'
  | us => '_'

abbrev FishState := State Shared Pc

/-- The point at which the child of the semaphore is. -/
abbrev pc (s : FishState) (k : Sem) : Pc := s.loc k.child

/-- The permits of the semaphore. -/
abbrev permits (s : FishState) (k : Sem) : ℕ := s.count k.key

variable {B} {s t : FishState} {i j k : Sem} {p : ProcessId}

theorem Sem.child_inj : i.child = j.child ↔ i = j := by
  cases i <;> cases j <;> decide

theorem Sem.key_inj : i.key = j.key ↔ i = j := by
  cases i <;> cases j <;> decide

theorem Sem.key_ne_mutex : k.key ≠ MUTEX := by
  cases k <;> decide

theorem mem_children : p ∈ children ↔ ∃ k : Sem, p = k.child := by
  constructor
  · intro h
    simp only [children, Finset.mem_insert, Finset.mem_singleton] at h
    rcases h with rfl | rfl | rfl
    · exact ⟨.gt, rfl⟩
    · exact ⟨.lt, rfl⟩
    · exact ⟨.us, rfl⟩
  · rintro ⟨k, rfl⟩
    cases k <;> decide

theorem Sem.child_mem : k.child ∈ children := mem_children.mpr ⟨k, rfl⟩

theorem program_child : program B k.child = loop B k k.char := by
  cases k <;> rfl

theorem program_outside (h : p ∉ children) (l : Pc) : program B p l = .exited := by
  unfold program
  split
  · exact absurd (by decide) h
  · exact absurd (by decide) h
  · exact absurd (by decide) h
  · rfl

theorem exists_child {l : Pc} {a : Action Shared Pc} (h : program B p l = a) (ha : a ≠ .exited) :
    ∃ k : Sem, p = k.child ∧ loop B k k.char l = a := by
  by_cases hp : p ∈ children
  · obtain ⟨k, rfl⟩ := mem_children.mp hp
    exact ⟨k, rfl, program_child ▸ h⟩
  · exact absurd (h.symm.trans (program_outside hp l)) ha

theorem sum_children {f : ProcessId → ℤ} :
    ∑ p ∈ children, f p = f Sem.gt.child + f Sem.lt.child + f Sem.us.child := by
  simp [children, Sem.child, add_assoc]

/-- The keys of the three semaphores. -/
def keys : Finset SemaphoreId := {Sem.gt.key, Sem.lt.key, Sem.us.key}

theorem key_mem : k.key ∈ keys := by
  cases k <;> decide

theorem sum_keys {f : SemaphoreId → ℤ} :
    ∑ key ∈ keys, f key = f Sem.gt.key + f Sem.lt.key + f Sem.us.key := by
  simp [keys, Sem.key, add_assoc]

/-! ### The points of the loop -/

namespace Pc

/-- Whether the mutex is held. -/
def inside : Pc → ℤ
  | waitSem | waitMutex | exited => 0
  | _ => 1

/-- The child has a permit of its semaphore and has not printed. -/
def early : Pc → Bool
  | waitMutex | check | print => true
  | _ => false

/-- The child has found that there is something to print, and has not passed on the permit. -/
def printing : Pc → Bool
  | print | readCount | writeCount _ | readStep | writeStep _ | testStep | clearStep | readPattern
  | writePattern _ | nextPattern | nextStep _ | wake _ => true
  | _ => false

/-- The child has found that all is printed. -/
def late : Pc → Bool
  | signalGt | signalLt | signalUs | leave | exited => true
  | _ => false

/-- The child has told the child of `k` to leave. -/
def told (k : Sem) : Pc → Bool
  | signalLt => k = .gt
  | signalUs => k ≠ .us
  | leave | exited => true
  | _ => false

/-- The permits that the child has taken and not given back, where `broadcast_exit` gives back
more than it took. -/
def owed : Pc → ℤ
  | waitSem | signalMutex | signalLt => 0
  | signalUs => -1
  | leave | exited => -2
  | _ => 1

/-- How far the child is from the end of its round. -/
def rank : Pc → ℕ
  | waitSem => 9
  | waitMutex => 8
  | check => 7
  | print => 6
  | signalGt => 6
  | signalLt => 5
  | signalUs => 4
  | leave => 3
  | exited => 0
  | readCount => 25
  | writeCount _ => 24
  | readStep => 23
  | writeStep _ => 22
  | testStep => 21
  | clearStep => 20
  | readPattern => 19
  | writePattern _ => 18
  | nextPattern => 17
  | nextStep _ => 16
  | wake _ => 15
  | signalMutex => 14

/-- The call that signals `k`, and what comes after it. -/
inductive Signals (k : Sem) : Pc → Pc → Prop where
  | gt (h : k = .gt) : Signals k signalGt signalLt
  | lt (h : k = .lt) : Signals k signalLt signalUs
  | us (h : k = .us) : Signals k signalUs leave
  | wake : Signals k (wake k) signalMutex

/-- The call that gives back the mutex, and what comes after it. -/
inductive Releases : Pc → Pc → Prop where
  | leave : Releases leave exited
  | again : Releases signalMutex waitSem

end Pc

section Loop
variable {c : Char} {l l' : Pc} {key : SemaphoreId}

theorem loop_wait (h : loop B k c l = .wait key l') :
    l = .waitSem ∧ key = k.key ∧ l' = .waitMutex ∨ l = .waitMutex ∧ key = MUTEX ∧ l' = .check := by
  cases l <;> cases h
  · exact Or.inl ⟨rfl, rfl, rfl⟩
  · exact Or.inr ⟨rfl, rfl, rfl⟩

theorem loop_signal (h : loop B k c l = .signal key l') :
    (∃ i : Sem, key = i.key ∧ l.Signals i l') ∨ key = MUTEX ∧ l.Releases l' := by
  cases l <;> cases h
  · exact Or.inl ⟨.gt, rfl, .gt rfl⟩
  · exact Or.inl ⟨.lt, rfl, .lt rfl⟩
  · exact Or.inl ⟨.us, rfl, .us rfl⟩
  · exact Or.inr ⟨rfl, .leave⟩
  · exact Or.inl ⟨_, rfl, .wake⟩
  · exact Or.inr ⟨rfl, .again⟩

theorem loop_exited : loop B k c l = .exited ↔ l = .exited := by
  cases l <;> simp [loop]

end Loop

/-! ### What a step does -/

/-- What a step of the child of `k` does to the points of the children, the permits and the static
variables. -/
inductive Effect (B : Build) (s t : FishState) (k : Sem) : Prop where
  | access {f : Shared → Except Panic (Shared × Pc)} {m : Shared} {l : Pc}
      (hc : loop B k k.char (pc s k) = .access f) (hf : f s.shared = .ok (m, l))
      (hshared : t.shared = m) (hpc : pc t = Function.update (pc s) k l)
      (hpermits : permits t = permits s)
  | block (hshared : t.shared = s.shared) (hpc : pc t = pc s) (hpermits : permits t = permits s)
  | passSem (hat : pc s k = .waitSem) (hpos : 0 < permits s k) (hshared : t.shared = s.shared)
      (hpc : pc t = Function.update (pc s) k .waitMutex)
      (hpermits : permits t = Function.update (permits s) k (permits s k - 1))
  | passMutex (hat : pc s k = .waitMutex) (hfree : 0 < s.count MUTEX)
      (hshared : t.shared = s.shared) (hpc : pc t = Function.update (pc s) k .check)
      (hpermits : permits t = permits s)
  | signal {i : Sem} {l : Pc} (hs : (pc s k).Signals i l) (hshared : t.shared = s.shared)
      (hpc : pc t = Function.update (pc s) k l)
      (hpermits : permits t = Function.update (permits s) i (permits s i + 1))
  | wake {i : Sem} {l : Pc} (hs : (pc s k).Signals i l) (hne : i ≠ k) (hat : pc s i = .waitSem)
      (hshared : t.shared = s.shared)
      (hpc : pc t = Function.update (Function.update (pc s) k l) i .waitMutex)
      (hpermits : permits t = permits s)
  | release {l : Pc} (hr : (pc s k).Releases l) (hshared : t.shared = s.shared)
      (hpc : pc t = Function.update (pc s) k l) (hpermits : permits t = permits s)
  | handOver {i : Sem} {l : Pc} (hr : (pc s k).Releases l) (hne : i ≠ k)
      (hat : pc s i = .waitMutex) (hshared : t.shared = s.shared)
      (hpc : pc t = Function.update (Function.update (pc s) k l) i .check)
      (hpermits : permits t = permits s)

theorem update_child {f : ProcessId → Pc} {l : Pc} :
    (fun j : Sem => Function.update f k.child l j.child) =
      Function.update (fun j : Sem => f j.child) k l := by
  funext j
  by_cases hj : j = k
  · subst hj
    rw [Function.update_self, Function.update_self]
  · rw [Function.update_of_ne hj, Function.update_of_ne fun he => hj (Sem.child_inj.mp he)]

theorem permits_setSem {sem : Semaphore} :
    permits (s.setSem k.key sem) = Function.update (permits s) k sem.count := by
  funext j
  show (s.setSem k.key sem).count j.key = _
  rw [count_setSem]
  by_cases hj : j = k
  · subst hj
    rw [if_pos rfl, Function.update_self]
  · rw [if_neg fun he => hj (Sem.key_inj.mp he), Function.update_of_ne hj]

theorem permits_setMutex {sem : Semaphore} : permits (s.setSem MUTEX sem) = permits s := by
  funext j
  show (s.setSem MUTEX sem).count j.key = _
  rw [count_setSem, if_neg Sem.key_ne_mutex]

theorem permits_same {key : SemaphoreId} {sem : Semaphore} {w : List ProcessId}
    (h : s.sems key = some sem) : permits (s.setSem key ⟨sem.count, w⟩) = permits s := by
  funext j
  show (s.setSem key _).count j.key = _
  rw [count_setSem]
  split_ifs with hj
  · rw [← hj] at h
    exact (count_of h).symm
  · rfl

theorem effect (h : Move (program B) s k.child t) : Effect B s t k := by
  have hprogram : ∀ j : Sem, program B j.child = loop B j j.char := fun j => program_child
  cases h with
  | @access f m l hc hf =>
      rw [hprogram] at hc
      exact .access hc hf rfl update_child rfl
  | @pass key l sem hc hsem hpos =>
      rw [hprogram] at hc
      obtain ⟨hat, rfl, rfl⟩ | ⟨hat, rfl, rfl⟩ := loop_wait hc
      · have hcount : permits s k = sem.count := count_of hsem
        refine .passSem hat (hcount ▸ hpos) rfl update_child ?_
        rw [hcount]
        exact permits_setSem
      · exact .passMutex hat (count_of hsem ▸ hpos) rfl update_child permits_setMutex
  | @block key l sem hc hsem h0 => exact .block rfl rfl (permits_same hsem)
  | @post key l sem hc hsem hq =>
      rw [hprogram] at hc
      obtain ⟨i, rfl, hs⟩ | ⟨rfl, hr⟩ := loop_signal hc
      · have hcount : permits s i = sem.count := count_of hsem
        refine .signal hs rfl update_child ?_
        rw [hcount]
        exact permits_setSem
      · exact .release hr rfl update_child permits_setMutex
  | @handOver key l l' sem q rest hc hsem hq hne hblocked hc' =>
      obtain ⟨j, rfl, hloop⟩ := exists_child hc' nofun
      have hjk : j ≠ k := fun he => hne (congrArg Sem.child he)
      have hpc : pc (((s.setSem key { sem with waitQueue := rest }).goto k.child l).wake j.child l') =
          Function.update (Function.update (pc s) k l) j l' :=
        update_child.trans (congrArg (fun f : Sem → Pc => Function.update f j l') update_child)
      rw [hprogram] at hc
      obtain ⟨hat, hkey, rfl⟩ | ⟨hat, hkey, rfl⟩ := loop_wait hloop
      · obtain ⟨i, hi, hs⟩ | ⟨hmutex, -⟩ := loop_signal hc
        · obtain rfl := Sem.key_inj.mp (hi.symm.trans hkey)
          exact .wake hs hjk hat rfl hpc (permits_same hsem)
        · exact absurd (hkey.symm.trans hmutex) Sem.key_ne_mutex
      · obtain ⟨i, hi, -⟩ | ⟨-, hr⟩ := loop_signal hc
        · exact absurd (hi.symm.trans hkey) Sem.key_ne_mutex
        · exact .handOver hr hjk hat rfl hpc (permits_same hsem)

end Fish

end Ysos
