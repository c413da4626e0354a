import Ysos.Threads

/-! # The coffee shop (`app/mq`)

One coffee maker and `N` customers share the counter `COFFEE_CUPS`.  The coffee maker produces
`N * K` cups, every customer drinks `K` of them, and the shelf has room for `C`.  The three
semaphores are those of the kernel; reading the counter and writing it back are two steps.

* `Mq.Inv`: the permits of the three semaphores, the counter and the rounds agree.
* `Mq.bounded_buffer`: in every interleaving the counter stays between `0` and `C`, no change of it
  is lost, nothing panics, and until all have exited somebody can go on. -/

namespace Ysos

open Runs Threads

namespace Mq

/-! ### The program -/

def FULL_CAPACITY : SemaphoreId := 0x1000
def NON_EMPTY : SemaphoreId := 0x2000
def MUTEX : SemaphoreId := 0x6666

/-- The points of a round; `write cups` has read the value `cups`. -/
inductive Pc where
  | waitFirst
  | waitMutex
  | read
  | write (cups : ℕ)
  | signalMutex
  | signalSecond
  | exited
deriving DecidableEq, Repr

structure Local where
  round : ℕ
  pc : Pc
deriving DecidableEq, Repr

/-- The head of the loop over the rounds. -/
def start (rounds i : ℕ) : Local := if i < rounds then ⟨i, .waitFirst⟩ else ⟨i, .exited⟩

/-- A loop that waits for `first`, changes the counter behind the mutex and signals `second`. -/
def loop (rounds : ℕ) (first second : SemaphoreId) (change : ℕ → Except Panic ℕ) :
    Local → Action ℕ Local
  | ⟨i, .waitFirst⟩ => .wait first ⟨i, .waitMutex⟩
  | ⟨i, .waitMutex⟩ => .wait MUTEX ⟨i, .read⟩
  | ⟨i, .read⟩ => .access fun cups => .ok (cups, ⟨i, .write cups⟩)
  | ⟨i, .write cups⟩ => .access fun _ => do return (← change cups, ⟨i, .signalMutex⟩)
  | ⟨i, .signalMutex⟩ => .signal MUTEX ⟨i, .signalSecond⟩
  | ⟨i, .signalSecond⟩ => .signal second (start rounds (i + 1))
  | ⟨_, .exited⟩ => .exited

variable (B : Build) (N K C : ℕ)

def coffeeMaker : Local → Action ℕ Local :=
  loop (N * K) FULL_CAPACITY NON_EMPTY fun cups => B.add cups 1

def customer : Local → Action ℕ Local :=
  loop K NON_EMPTY FULL_CAPACITY fun cups => B.sub cups 1

/-- The first child of `main` is the coffee maker, the others are customers. -/
def program : Code ℕ Local := fun i => if i = 0 then coffeeMaker B N K else customer B K

/-- How often a process goes through its loop. -/
def rounds (i : ProcessId) : ℕ := if i = 0 then N * K else K

/-- The state when `main` has made the semaphores and the children. -/
def init : State ℕ Local where
  sems :=
    let sems := (SemaphoreSet.empty.insert NON_EMPTY 0).2
    let sems := (sems.insert FULL_CAPACITY C).2
    (sems.insert MUTEX 1).2
  shared := 0
  loc i := if i ≤ N then start (rounds N K i) 0 else ⟨0, .exited⟩
  blocked := fun _ => false

/-! ### What the processes hold -/

/-- The processes. -/
def children : Finset ProcessId := Finset.range (N + 1)

/-- Whether the first semaphore of the round was taken and the second one not yet given. -/
def Pc.started : Pc → ℤ
  | .waitFirst | .exited => 0
  | _ => 1

/-- Whether the mutex is held. -/
def Pc.inside : Pc → ℤ
  | .read | .write _ | .signalMutex => 1
  | _ => 0

/-- Whether the counter was changed in this round. -/
def Pc.changed : Pc → ℤ
  | .signalMutex | .signalSecond => 1
  | _ => 0

def heldMutex (_ : ProcessId) (l : Local) : ℤ := l.pc.inside

def heldFull (i : ProcessId) (l : Local) : ℤ :=
  if i = 0 then l.round + l.pc.started else -l.round

def heldNonEmpty (i : ProcessId) (l : Local) : ℤ :=
  if i = 0 then -l.round else l.round + l.pc.started

/-- The number of changes of the counter that a process has completed. -/
def writes (l : Local) : ℤ := l.round + l.pc.changed

/-- What a process has added to the counter. -/
def made (i : ProcessId) (l : Local) : ℤ := if i = 0 then writes l else -writes l

variable {B N K C}

/-! ### The points of a round -/

section Loop
variable {rounds : ℕ} {first second key : SemaphoreId} {change : ℕ → Except Panic ℕ} {l l' : Local}

theorem loop_wait (h : loop rounds first second change l = .wait key l') :
    l.pc = .waitFirst ∧ key = first ∧ l' = ⟨l.round, .waitMutex⟩ ∨
      l.pc = .waitMutex ∧ key = MUTEX ∧ l' = ⟨l.round, .read⟩ := by
  obtain ⟨i, pc⟩ := l
  cases pc <;> cases h
  · exact Or.inl ⟨rfl, rfl, rfl⟩
  · exact Or.inr ⟨rfl, rfl, rfl⟩

theorem loop_signal (h : loop rounds first second change l = .signal key l') :
    l.pc = .signalMutex ∧ key = MUTEX ∧ l' = ⟨l.round, .signalSecond⟩ ∨
      l.pc = .signalSecond ∧ key = second ∧ l' = start rounds (l.round + 1) := by
  obtain ⟨i, pc⟩ := l
  cases pc <;> cases h
  · exact Or.inl ⟨rfl, rfl, rfl⟩
  · exact Or.inr ⟨rfl, rfl, rfl⟩

theorem loop_access {f : ℕ → Except Panic (ℕ × Local)}
    (h : loop rounds first second change l = .access f) :
    l.pc = .read ∧ (f = fun cups => .ok (cups, ⟨l.round, .write cups⟩)) ∨
      ∃ cups, l.pc = .write cups ∧
        f = fun _ => do return (← change cups, ⟨l.round, .signalMutex⟩) := by
  obtain ⟨i, pc⟩ := l
  cases pc <;> cases h
  · exact Or.inl ⟨rfl, rfl⟩
  · exact Or.inr ⟨_, rfl, rfl⟩

theorem loop_exited : loop rounds first second change l = .exited ↔ l.pc = .exited := by
  obtain ⟨i, pc⟩ := l
  cases pc <;> simp [loop]

end Loop

/-- The semaphore that a process waits for at the head of a round. -/
def first (i : ProcessId) : SemaphoreId := if i = 0 then FULL_CAPACITY else NON_EMPTY

/-- The semaphore that a process signals at the end of a round. -/
def second (i : ProcessId) : SemaphoreId := if i = 0 then NON_EMPTY else FULL_CAPACITY

/-- What a process does to the counter. -/
def change (B : Build) (i : ProcessId) (cups : ℕ) : Except Panic ℕ :=
  if i = 0 then B.add cups 1 else B.sub cups 1

theorem program_eq (i : ProcessId) :
    program B N K i = loop (rounds N K i) (first i) (second i) (change B i) := by
  by_cases h0 : i = 0
  · subst h0
    rfl
  · have hchange : (fun cups => B.sub cups 1) = change B i := by
      funext cups
      rw [change, if_neg h0]
    simp only [program, rounds, first, second, if_neg h0, customer, hchange]

@[simp] theorem start_round {n i : ℕ} : (start n i).round = i := by
  unfold start
  split_ifs <;> rfl

@[simp] theorem started_start {n i : ℕ} : (start n i).pc.started = 0 := by
  unfold start
  split_ifs <;> rfl

@[simp] theorem inside_start {n i : ℕ} : (start n i).pc.inside = 0 := by
  unfold start
  split_ifs <;> rfl

@[simp] theorem changed_start {n i : ℕ} : (start n i).pc.changed = 0 := by
  unfold start
  split_ifs <;> rfl

/-! ### The three semaphores -/

/-- What is held of a semaphore, point by point. -/
theorem balanced_of {key : SemaphoreId} {held : ProcessId → Local → ℤ}
    (hfirst : ∀ i n, held i ⟨n, .waitMutex⟩ =
      held i ⟨n, .waitFirst⟩ + if first i = key then 1 else 0)
    (hmutex : ∀ i n, held i ⟨n, .read⟩ =
      held i ⟨n, .waitMutex⟩ + if MUTEX = key then 1 else 0)
    (hread : ∀ i n cups, held i ⟨n, .write cups⟩ = held i ⟨n, .read⟩)
    (hwrite : ∀ i n cups, held i ⟨n, .signalMutex⟩ = held i ⟨n, .write cups⟩)
    (hmutex' : ∀ i n, held i ⟨n, .signalSecond⟩ =
      held i ⟨n, .signalMutex⟩ - if MUTEX = key then 1 else 0)
    (hsecond : ∀ i n, held i (start (rounds N K i) (n + 1)) =
      held i ⟨n, .signalSecond⟩ - if second i = key then 1 else 0) :
    Balanced (program B N K) key held := by
  refine ⟨fun i l key l' h => ?_, fun i l key l' h => ?_, fun i l f m m' l' h hf => ?_⟩ <;>
    obtain ⟨n, pc⟩ := l <;> rw [program_eq] at h
  · obtain ⟨hpc, rfl, rfl⟩ | ⟨hpc, rfl, rfl⟩ := loop_wait h <;> cases hpc
    · exact hfirst i n
    · exact hmutex i n
  · obtain ⟨hpc, rfl, rfl⟩ | ⟨hpc, rfl, rfl⟩ := loop_signal h <;> cases hpc
    · exact hmutex' i n
    · exact hsecond i n
  · obtain ⟨hpc, rfl⟩ | ⟨cups, hpc, rfl⟩ := loop_access h <;> cases hpc
    · cases hf
      exact hread i n m
    · simp only [bind_eq_ok, pure_eq_ok] at hf
      obtain ⟨y, -, hf⟩ := hf
      cases hf
      exact hwrite i n cups

theorem balanced_mutex : Balanced (program B N K) MUTEX heldMutex := by
  have hfirst : ∀ i, first i ≠ MUTEX := fun i => by
    unfold first
    split_ifs <;> decide
  have hsecond : ∀ i, second i ≠ MUTEX := fun i => by
    unfold second
    split_ifs <;> decide
  refine balanced_of (fun i n => ?_) (fun _ _ => rfl) (fun _ _ _ => rfl) (fun _ _ _ => rfl)
    (fun _ _ => rfl) fun i n => ?_
  · rw [if_neg (hfirst i)]
    rfl
  · rw [if_neg (hsecond i), heldMutex, inside_start]
    rfl

theorem balanced_full : Balanced (program B N K) FULL_CAPACITY heldFull := by
  refine balanced_of (fun i n => ?_) (fun _ _ => (add_zero _).symm) (fun _ _ _ => rfl)
    (fun _ _ _ => rfl) (fun _ _ => (sub_zero _).symm) fun i n => ?_
  · by_cases h0 : i = 0 <;> simp [heldFull, first, h0, Pc.started, FULL_CAPACITY, NON_EMPTY]
  · simp only [heldFull, start_round, started_start]
    by_cases h0 : i = 0 <;> simp [second, h0, Pc.started, FULL_CAPACITY, NON_EMPTY]
    all_goals ring

theorem balanced_nonEmpty : Balanced (program B N K) NON_EMPTY heldNonEmpty := by
  refine balanced_of (fun i n => ?_) (fun _ _ => (add_zero _).symm) (fun _ _ _ => rfl)
    (fun _ _ _ => rfl) (fun _ _ => (sub_zero _).symm) fun i n => ?_
  · by_cases h0 : i = 0 <;> simp [heldNonEmpty, first, h0, Pc.started, FULL_CAPACITY, NON_EMPTY]
  · simp only [heldNonEmpty, start_round, started_start]
    by_cases h0 : i = 0 <;> simp [second, h0, Pc.started, FULL_CAPACITY, NON_EMPTY]
    all_goals ring

/-! ### The invariant -/

/-- The permits, the counter and the rounds. -/
structure Inv (B : Build) (N K C : ℕ) (s : State ℕ Local) : Prop where
  wf : Wf (program B N K) (children N) s
  mutex : Pool (children N) MUTEX heldMutex 1 s
  full : Pool (children N) FULL_CAPACITY heldFull C s
  nonEmpty : Pool (children N) NON_EMPTY heldNonEmpty 0 s
  counter : (s.shared : ℤ) = ∑ i ∈ children N, made i (s.loc i)
  current : ∀ i cups, (s.loc i).pc = .write cups → cups = s.shared
  going : ∀ i ∈ children N, (s.loc i).pc ≠ .exited → (s.loc i).round < rounds N K i
  done : ∀ i ∈ children N, (s.loc i).pc = .exited → (s.loc i).round = rounds N K i

variable {s t : State ℕ Local} {i j : ProcessId}

theorem Pc.inside_nonneg (pc : Pc) : 0 ≤ pc.inside := by
  cases pc <;> simp [Pc.inside]

theorem Pc.changed_le_started (pc : Pc) : 0 ≤ pc.changed ∧ pc.changed ≤ pc.started := by
  cases pc <;> simp [Pc.changed, Pc.started]

/-- Every process has taken the slots that it filled and filled at most the cups that it counted. -/
theorem made_bounds (i : ProcessId) (l : Local) :
    -heldNonEmpty i l ≤ made i l ∧ made i l ≤ heldFull i l := by
  have := l.pc.changed_le_started
  by_cases h0 : i = 0
  · simp only [heldNonEmpty, heldFull, made, writes, if_pos h0]
    omega
  · simp only [heldNonEmpty, heldFull, made, writes, if_neg h0]
    omega

/-- Between the two other semaphores of a round, a cup and its slot are not both counted. -/
theorem sum_spread (hi : i ∈ children N) (hpc : (s.loc i).pc.started = 1) :
    ∑ i ∈ children N, -heldNonEmpty i (s.loc i) < ∑ i ∈ children N, heldFull i (s.loc i) := by
  refine Finset.sum_lt_sum (fun j _ => (made_bounds j _).1.trans (made_bounds j _).2) ⟨i, hi, ?_⟩
  by_cases h0 : i = 0
  · simp only [heldNonEmpty, heldFull, if_pos h0]
    omega
  · simp only [heldNonEmpty, heldFull, if_neg h0]
    omega

namespace Inv

theorem counter_le (h : Inv B N K C s) : s.shared ≤ C := by
  obtain ⟨sem, -, hfull⟩ := h.full
  have hsum : ∑ i ∈ children N, made i (s.loc i) ≤ ∑ i ∈ children N, heldFull i (s.loc i) :=
    Finset.sum_le_sum fun i _ => (made_bounds i _).2
  rw [← h.counter] at hsum
  omega

theorem counter_pos (h : Inv B N K C s) (hi : i ∈ children N) (h0 : i ≠ 0)
    (hpc : (s.loc i).pc.changed < (s.loc i).pc.started) : 0 < s.shared := by
  obtain ⟨sem, -, hempty⟩ := h.nonEmpty
  have hsum : ∑ i ∈ children N, -heldNonEmpty i (s.loc i) < ∑ i ∈ children N, made i (s.loc i) := by
    refine Finset.sum_lt_sum (fun j _ => (made_bounds j _).1) ⟨i, hi, ?_⟩
    simp only [heldNonEmpty, made, writes, if_neg h0]
    omega
  rw [Finset.sum_neg_distrib, ← h.counter] at hsum
  omega

theorem counter_lt (h : Inv B N K C s) (hi : 0 ∈ children N)
    (hpc : (s.loc 0).pc.changed < (s.loc 0).pc.started) : s.shared < C := by
  obtain ⟨sem, -, hfull⟩ := h.full
  have hsum : ∑ i ∈ children N, made i (s.loc i) < ∑ i ∈ children N, heldFull i (s.loc i) := by
    refine Finset.sum_lt_sum (fun j _ => (made_bounds j _).2) ⟨0, hi, ?_⟩
    simp only [heldFull, made, writes, if_pos]
    omega
  rw [← h.counter] at hsum
  omega

theorem exclusive (h : Inv B N K C s) (hi : i ∈ children N) (hj : j ∈ children N)
    (hpi : (s.loc i).pc.inside = 1) (hpj : (s.loc j).pc.inside = 1) : i = j := by
  by_contra hne
  obtain ⟨sem, -, hmutex⟩ := h.mutex
  have hpair : ∑ k ∈ {i, j}, heldMutex k (s.loc k) ≤ ∑ k ∈ children N, heldMutex k (s.loc k) := by
    refine Finset.sum_le_sum_of_subset_of_nonneg (fun k hk => ?_) fun k _ _ => Pc.inside_nonneg _
    rcases Finset.mem_insert.mp hk with rfl | hk
    · exact hi
    · exact Finset.mem_singleton.mp hk ▸ hj
  rw [Finset.sum_pair hne, heldMutex, heldMutex, hpi, hpj] at hpair
  omega

theorem served (h : Inv B N K C s) (hC : C < U64) (i : ProcessId) :
    Served (program B N K) s i := by
  obtain ⟨mutex, hmutex, hm⟩ := h.mutex
  obtain ⟨full, hfull, hf⟩ := h.full
  obtain ⟨nonEmpty, hnonEmpty, he⟩ := h.nonEmpty
  refine ⟨fun key l hc => ?_, fun key l hc => ?_⟩
  · rw [program_eq] at hc
    obtain ⟨-, rfl, -⟩ | ⟨-, rfl, -⟩ := loop_wait hc
    · unfold first
      split_ifs
      · simp [hfull]
      · simp [hnonEmpty]
    · simp [hmutex]
  · have hi : i ∈ children N := by
      by_contra hout
      rw [h.wf.outside i hout] at hc
      cases hc
    rw [program_eq] at hc
    obtain ⟨hpc, rfl, -⟩ | ⟨hpc, rfl, -⟩ := loop_signal hc
    · refine ⟨mutex, hmutex, ?_⟩
      -- the mutex is held, so that its count is zero
      have hone : heldMutex i (s.loc i) ≤ ∑ j ∈ children N, heldMutex j (s.loc j) :=
        Finset.single_le_sum (f := fun j => heldMutex j (s.loc j))
          (fun j _ => Pc.inside_nonneg _) hi
      rw [heldMutex, hpc, show Pc.signalMutex.inside = 1 from rfl] at hone
      have hU : 1 < U64 := by decide
      omega
    · have hspread := sum_spread hi (by rw [hpc]; rfl)
      rw [Finset.sum_neg_distrib] at hspread
      unfold second
      split_ifs
      · exact ⟨nonEmpty, hnonEmpty, by omega⟩
      · exact ⟨full, hfull, by omega⟩

theorem access (h : Inv B N K C s) (hC : C < U64) (hi : i ∈ children N)
    {f : ℕ → Except Panic (ℕ × Local)} (hc : program B N K i (s.loc i) = .access f) :
    ∃ m l, f s.shared = .ok (m, l) ∧ (m : ℤ) - s.shared = made i l - made i (s.loc i) ∧
      (s.loc i).pc.inside = 1 ∧ l.round = (s.loc i).round ∧ l.pc ≠ .exited ∧
      ((m = s.shared ∧ l.pc = .write m) ∨ l.pc = .signalMutex) := by
  rw [program_eq] at hc
  obtain ⟨hpc, rfl⟩ | ⟨cups, hpc, rfl⟩ := loop_access hc
  · refine ⟨s.shared, _, rfl, ?_, by rw [hpc]; rfl, rfl, nofun, Or.inl ⟨rfl, rfl⟩⟩
    simp [made, writes, hpc, Pc.changed]
  · obtain rfl := h.current i cups hpc
    have hround : (s.loc i).pc.changed < (s.loc i).pc.started := by
      rw [hpc]
      exact zero_lt_one
    by_cases h0 : i = 0
    · subst h0
      have hlt := h.counter_lt hi hround
      refine ⟨s.shared + 1, ⟨(s.loc 0).round, .signalMutex⟩, ?_, ?_, by rw [hpc]; rfl, rfl, nofun,
        Or.inr rfl⟩
      · have hadd : change B 0 s.shared = .ok (s.shared + 1) := B.add_eq (by omega)
        rw [hadd]
        rfl
      · simp [made, writes, hpc, Pc.changed]
    · have hpos := h.counter_pos hi h0 hround
      refine ⟨s.shared - 1, ⟨(s.loc i).round, .signalMutex⟩, ?_, ?_, by rw [hpc]; rfl, rfl, nofun,
        Or.inr rfl⟩
      · have hsub : change B i s.shared = .ok (s.shared - 1) := by
          rw [change, if_neg h0, Build.sub, if_pos (show 1 ≤ s.shared from hpos)]
        rw [hsub]
        rfl
      · simp only [made, writes, if_neg h0, hpc, Pc.changed]
        omega

/-- Along a call a process makes nothing, reads nothing, and stays in its rounds. -/
theorem callEdge {l l' : Local} (hc : CallEdge (program B N K) i l l') :
    made i l' = made i l ∧ (∀ cups, l'.pc ≠ .write cups) ∧
      (l.round < rounds N K i → (l'.pc ≠ .exited → l'.round < rounds N K i) ∧
        (l'.pc = .exited → l'.round = rounds N K i)) ∧ l.pc ≠ .exited := by
  obtain ⟨key, hc⟩ := hc
  rw [program_eq] at hc
  obtain ⟨n, pc⟩ := l
  rcases hc with hc | hc
  · obtain ⟨hpc, -, rfl⟩ | ⟨hpc, -, rfl⟩ := loop_wait hc <;> cases hpc
    · exact ⟨rfl, nofun, fun hlt => ⟨fun _ => hlt, nofun⟩, nofun⟩
    · exact ⟨rfl, nofun, fun hlt => ⟨fun _ => hlt, nofun⟩, nofun⟩
  · obtain ⟨hpc, -, rfl⟩ | ⟨hpc, -, rfl⟩ := loop_signal hc <;> cases hpc
    · exact ⟨rfl, nofun, fun hlt => ⟨fun _ => hlt, nofun⟩, nofun⟩
    · refine ⟨?_, fun cups => ?_, fun hlt => ?_, nofun⟩
      · simp [made, writes, show Pc.signalSecond.changed = 1 from rfl]
      · unfold start
        split_ifs <;> exact nofun
      · unfold start
        by_cases hn : n + 1 < rounds N K i
        · rw [if_pos hn]
          exact ⟨fun _ => hn, nofun⟩
        · rw [if_neg hn]
          exact ⟨fun hne => absurd rfl hne, fun _ => Nat.le_antisymm hlt (Nat.le_of_not_lt hn)⟩

/-- The clauses of the invariant about the counter and the rounds. -/
structure Tally (N K : ℕ) (s : State ℕ Local) : Prop where
  counter : (s.shared : ℤ) = ∑ i ∈ children N, made i (s.loc i)
  current : ∀ i cups, (s.loc i).pc = .write cups → cups = s.shared
  going : ∀ i ∈ children N, (s.loc i).pc ≠ .exited → (s.loc i).round < rounds N K i
  done : ∀ i ∈ children N, (s.loc i).pc = .exited → (s.loc i).round = rounds N K i

theorem tally_access (h : Inv B N K C s) (hC : C < U64) (hi : i ∈ children N)
    {f : ℕ → Except Panic (ℕ × Local)} {m : ℕ} {l : Local}
    (hc : program B N K i (s.loc i) = .access f) (hf : f s.shared = .ok (m, l))
    (hshared : t.shared = m) (hloc : t.loc = (s.goto i l).loc) : Tally N K t := by
  obtain ⟨m', l', hf', hmade, hin, hround, hne, hcase⟩ := h.access hC hi hc
  rw [hf'] at hf
  cases hf
  have hself : t.loc i = l := by
    rw [hloc]
    exact Function.update_self _ _ _
  have hother : ∀ j, j ≠ i → t.loc j = s.loc j := fun j hj => by
    rw [hloc]
    exact Function.update_of_ne hj _ _
  have hgoing : (s.loc i).pc ≠ .exited := fun he => by
    rw [he] at hin
    cases hin
  refine ⟨?_, fun j cups hj => ?_, fun j hj hpc => ?_, fun j hj hpc => ?_⟩
  · rw [hshared, hloc, sum_goto hi, ← h.counter]
    omega
  · by_cases hji : j = i
    · subst hji
      rw [hself] at hj
      rcases hcase with ⟨-, hw⟩ | hw
      · rw [hw] at hj
        cases hj
        exact hshared.symm
      · rw [hw] at hj
        cases hj
    · rw [hother j hji] at hj
      -- somebody else has read the counter, and holds the mutex
      have hjP : j ∈ children N := by
        by_contra hout
        have hcode := h.wf.outside j hout
        rw [program_eq, loop_exited, hj] at hcode
        cases hcode
      exact absurd (h.exclusive hjP hi (by rw [hj]; rfl) hin) hji
  · by_cases hji : j = i
    · subst hji
      rw [hself, hround]
      exact h.going j hj hgoing
    · rw [hother j hji] at hpc ⊢
      exact h.going j hj hpc
  · by_cases hji : j = i
    · subst hji
      rw [hself] at hpc
      exact absurd hpc hne
    · rw [hother j hji] at hpc ⊢
      exact h.done j hj hpc

theorem tally_call (h : Inv B N K C s) (hshared : t.shared = s.shared)
    (hloc : ∀ j, t.loc j = s.loc j ∨ CallEdge (program B N K) j (s.loc j) (t.loc j)) :
    Tally N K t := by
  refine ⟨?_, fun j cups hj => ?_, fun j hj hpc => ?_, fun j hj hpc => ?_⟩
  · rw [hshared, h.counter]
    refine Finset.sum_congr rfl fun j _ => ?_
    rcases hloc j with he | he
    · rw [he]
    · exact (callEdge he).1.symm
  · rcases hloc j with he | he
    · rw [he] at hj
      rw [hshared]
      exact h.current j cups hj
    · exact absurd hj ((callEdge he).2.1 cups)
  · rcases hloc j with he | he
    · rw [he] at hpc ⊢
      exact h.going j hj hpc
    · obtain ⟨-, -, hr, hne⟩ := callEdge he
      exact (hr (h.going j hj hne)).1 hpc
  · rcases hloc j with he | he
    · rw [he] at hpc ⊢
      exact h.done j hj hpc
    · obtain ⟨-, -, hr, hne⟩ := callEdge he
      exact (hr (h.going j hj hne)).2 hpc

/-- **A step keeps the invariant.** -/
theorem step (h : Inv B N K C s) (hC : C < U64) {u : Unit}
    (hstep : Threads.step B (program B N K) s i = .ok (t, u)) : Inv B N K C t := by
  obtain ⟨hb, hi, hm⟩ := step_move h.wf (h.served hC i) hstep
  have htally : Tally N K t := by
    rcases hm.calls with ⟨f, m, l, hc, hf, hshared, hloc⟩ | ⟨hshared, hloc⟩
    · exact h.tally_access hC hi hc hf hshared hloc
    · exact h.tally_call hshared hloc
  exact ⟨h.wf.move hb hi hm, h.mutex.move balanced_mutex h.wf hi hm,
    h.full.move balanced_full h.wf hi hm, h.nonEmpty.move balanced_nonEmpty h.wf hi hm,
    htally.counter, htally.current, htally.going, htally.done⟩

end Inv

theorem init_loc (hi : i ∈ children N) : (init N K C).loc i = start (rounds N K i) 0 :=
  if_pos (Nat.le_of_lt_succ (Finset.mem_range.mp hi))

theorem init_inv : Inv B N K C (init N K C) := by
  have hzero : ∀ held : ProcessId → Local → ℤ, (∀ i n, held i (start n 0) = 0) →
      ∑ i ∈ children N, held i ((init N K C).loc i) = 0 := fun held hheld =>
    Finset.sum_eq_zero fun i hi => by rw [init_loc hi, hheld]
  have hout : ∀ i, i ∉ children N → (init N K C).loc i = ⟨0, .exited⟩ := fun i hi =>
    if_neg fun hle => hi (Finset.mem_range.mpr (Nat.lt_succ_of_le hle))
  have hstart : ∀ i, ((init N K C).loc i).round = 0 ∧
      (((init N K C).loc i).pc = .waitFirst ∨ ((init N K C).loc i).pc = .exited) := by
    intro i
    by_cases hi : i ∈ children N
    · rw [init_loc hi]
      refine ⟨start_round, ?_⟩
      unfold start
      split_ifs
      · exact Or.inl rfl
      · exact Or.inr rfl
    · rw [hout i hi]
      exact ⟨rfl, Or.inr rfl⟩
  refine ⟨.of_fresh (fun i hi => ?_) (fun _ => rfl) ?_, ⟨_, rfl, ?_⟩, ⟨_, rfl, ?_⟩, ⟨_, rfl, ?_⟩,
    ?_, fun i cups hi => ?_, fun i hi hpc => ?_, fun i hi hpc => ?_⟩
  · rw [hout i hi, program_eq]
    rfl
  · exact ((Fresh.empty.insert).insert).insert
  · rw [hzero heldMutex fun _ _ => inside_start]
    rfl
  · rw [hzero heldFull fun i n => by simp [heldFull]]
    exact add_zero _
  · rw [hzero heldNonEmpty fun i n => by simp [heldNonEmpty]]
    rfl
  · rw [hzero made fun i n => by simp [made, writes]]
    rfl
  · rcases (hstart i).2 with h | h <;> rw [h] at hi <;> cases hi
  · rw [init_loc hi] at hpc ⊢
    unfold start at hpc ⊢
    split_ifs at hpc ⊢ with hlt
    · exact hlt
    · exact absurd rfl hpc
  · rw [init_loc hi] at hpc ⊢
    unfold start at hpc ⊢
    split_ifs at hpc ⊢ with hlt
    exact (Nat.eq_zero_of_not_pos hlt).symm

theorem run_inv (hC : C < U64) (h : Run (Threads.step B (program B N K)) Any (init N K C) s) :
    Inv B N K C s :=
  h.invariant init_inv fun _ _ _ _ hs hstep _ => hs.step hC hstep

/-! ### Nobody waits forever -/

/-- The customers. -/
def customers (N : ℕ) : Finset ProcessId := (children N).erase 0

theorem zero_mem_children : 0 ∈ children N := Finset.mem_range.mpr (Nat.succ_pos N)

theorem mem_customers : i ∈ customers N ↔ i ≠ 0 ∧ i ∈ children N := Finset.mem_erase

theorem sum_rounds : ∑ i ∈ customers N, rounds N K i = N * K := by
  have hK : ∀ i ∈ customers N, rounds N K i = K := fun i hi => if_neg (mem_customers.mp hi).1
  rw [Finset.sum_congr rfl hK, Finset.sum_const, customers, Finset.card_erase_of_mem zero_mem_children,
    children, Finset.card_range]
  rfl

/-- The balance of the semaphore `NON_EMPTY` between the coffee maker and the customers. -/
theorem sum_heldNonEmpty : ∑ i ∈ children N, heldNonEmpty i (s.loc i) =
    -(s.loc 0).round + ∑ i ∈ customers N, ((s.loc i).round + (s.loc i).pc.started) := by
  rw [← Finset.add_sum_erase _ _ zero_mem_children]
  congr 1
  refine Finset.sum_congr rfl fun i hi => ?_
  exact if_neg (mem_customers.mp hi).1

namespace Inv

theorem round_le (h : Inv B N K C s) (hi : i ∈ children N) : (s.loc i).round ≤ rounds N K i := by
  by_cases hpc : (s.loc i).pc = .exited
  · exact Nat.le_of_eq (h.done i hi hpc)
  · exact Nat.le_of_lt (h.going i hi hpc)

/-- A blocked process is at one of its two waits, and finds the count zero there. -/
theorem blocked_cases (h : Inv B N K C s) (hb : s.blocked i = true) :
    (s.loc i).pc = .waitFirst ∧ (∀ sem, s.sems (first i) = some sem → sem.count = 0) ∨
      (s.loc i).pc = .waitMutex ∧ ∀ sem, s.sems MUTEX = some sem → sem.count = 0 := by
  have hzero : ∀ key, WaitsOn (program B N K) i (s.loc i) key →
      ∀ sem, s.sems key = some sem → sem.count = 0 := fun key hw sem hsem => by
    rw [← count_of hsem]
    exact h.wf.count_of_blocked hb hw
  obtain ⟨key, l, hc⟩ := h.wf.waits i hb
  have hw : WaitsOn (program B N K) i (s.loc i) key := ⟨l, hc⟩
  rw [program_eq] at hc
  obtain ⟨hpc, rfl, -⟩ | ⟨hpc, rfl, -⟩ := loop_wait hc
  · exact Or.inl ⟨hpc, hzero _ hw⟩
  · exact Or.inr ⟨hpc, hzero _ hw⟩

/-- If all processes that have not exited are blocked, they are at the head of a round. -/
theorem idle_of_stuck (h : Inv B N K C s)
    (hstuck : ∀ j ∈ children N, (s.loc j).pc ≠ .exited → s.blocked j = true) :
    ∀ j ∈ children N, (s.loc j).pc = .exited ∨ (s.loc j).pc = .waitFirst ∧
      ∀ sem, s.sems (first j) = some sem → sem.count = 0 := by
  have hwait : ∀ j ∈ children N, heldMutex j (s.loc j) = 0 := by
    intro j hj
    show (s.loc j).pc.inside = 0
    by_cases hpc : (s.loc j).pc = .exited
    · rw [hpc]
      rfl
    · rcases h.blocked_cases (hstuck j hj hpc) with ⟨hpc, -⟩ | ⟨hpc, -⟩ <;> rw [hpc] <;> rfl
  intro j hj
  by_cases hpc : (s.loc j).pc = .exited
  · exact Or.inl hpc
  · refine Or.inr ((h.blocked_cases (hstuck j hj hpc)).resolve_right ?_)
    rintro ⟨-, hzero⟩
    obtain ⟨sem, hsem, hmutex⟩ := h.mutex
    rw [Finset.sum_eq_zero hwait, hzero sem hsem] at hmutex
    cases hmutex

theorem progress (h : Inv B N K C s) (hC : 1 ≤ C) (hi : i ∈ children N)
    (hpc : (s.loc i).pc ≠ .exited) :
    ∃ j ∈ children N, (s.loc j).pc ≠ .exited ∧ s.blocked j = false := by
  by_contra hno
  have hstuck : ∀ j ∈ children N, (s.loc j).pc ≠ .exited → s.blocked j = true := by
    intro j hj hpcj
    by_contra hb
    exact hno ⟨j, hj, hpcj, Bool.eq_false_iff.mpr hb⟩
  have hidle := h.idle_of_stuck hstuck
  have hstarted : ∀ j ∈ children N, (s.loc j).pc.started = 0 := by
    intro j hj
    rcases hidle j hj with hpc | ⟨hpc, -⟩ <;> rw [hpc] <;> rfl
  obtain ⟨full, hfull, hf⟩ := h.full
  obtain ⟨nonEmpty, hnonEmpty, he⟩ := h.nonEmpty
  have hopposite : ∑ j ∈ children N, heldFull j (s.loc j) =
      -∑ j ∈ children N, heldNonEmpty j (s.loc j) := by
    rw [← Finset.sum_neg_distrib]
    refine Finset.sum_congr rfl fun j hj => ?_
    by_cases h0 : j = 0
    · simp [heldFull, heldNonEmpty, h0, hstarted 0 (h0 ▸ hj)]
    · simp [heldFull, heldNonEmpty, h0, hstarted j hj]
  have hcustomers : ∑ j ∈ children N, heldNonEmpty j (s.loc j) =
      -(s.loc 0).round + ((∑ j ∈ customers N, (s.loc j).round : ℕ) : ℤ) := by
    rw [sum_heldNonEmpty]
    push_cast
    congr 1
    refine Finset.sum_congr rfl fun j hj => ?_
    rw [hstarted j (mem_customers.mp hj).2, add_zero]
  have hle : ∀ j ∈ customers N, (s.loc j).round ≤ rounds N K j :=
    fun j hj => h.round_le (mem_customers.mp hj).2
  by_cases hall : ∀ j ∈ customers N, (s.loc j).pc = .exited
  · -- the customers have drunk all cups, so that the coffee maker has made them
    have hsum : ∑ j ∈ customers N, (s.loc j).round = N * K := by
      rw [← sum_rounds (N := N) (K := K)]
      exact Finset.sum_congr rfl fun j hj => h.done j (mem_customers.mp hj).2 (hall j hj)
    have hi0 : i = 0 := by
      by_contra h0
      exact hpc (hall i (mem_customers.mpr ⟨h0, hi⟩))
    subst hi0
    have hlt : (s.loc 0).round < N * K := h.going 0 hi hpc
    omega
  · -- a customer waits for a cup, although some that were made have not been drunk
    obtain ⟨j, hj⟩ := not_forall.mp hall
    obtain ⟨hj, hpcj⟩ := Classical.not_imp.mp hj
    obtain ⟨hj0, hjP⟩ := mem_customers.mp hj
    obtain ⟨-, hzero⟩ := (hidle j hjP).resolve_left hpcj
    rw [first, if_neg hj0] at hzero
    have hcount := hzero nonEmpty hnonEmpty
    have hmaker : (s.loc 0).pc = .exited := by
      refine (hidle 0 zero_mem_children).resolve_right ?_
      rintro ⟨-, hzero⟩
      have := hzero full hfull
      omega
    have hmade : (s.loc 0).round = N * K := h.done 0 zero_mem_children hmaker
    have hlt : ∑ j ∈ customers N, (s.loc j).round < ∑ j ∈ customers N, rounds N K j :=
      Finset.sum_lt_sum hle ⟨j, hj, h.going j hjP hpcj⟩
    rw [sum_rounds] at hlt
    omega

end Inv

/-- **The bounded buffer.**  In every interleaving of the coffee maker and the customers:
the counter is at most `C`; a process that writes the counter back has read its present value, and
a customer that does so has read a positive one; the counter and the cups drunk are the cups made;
no step panics; until all have exited, somebody can make a step; and then the counter is `0`. -/
theorem bounded_buffer (hC : 1 ≤ C) (hC' : C < U64)
    (h : Run (Threads.step B (program B N K)) Any (init N K C) s) :
    s.shared ≤ C ∧
    (∀ i cups, (s.loc i).pc = .write cups → cups = s.shared ∧ (i ≠ 0 → 0 < cups)) ∧
    (s.shared : ℤ) + ∑ i ∈ customers N, writes (s.loc i) = writes (s.loc 0) ∧
    (∀ i e, Threads.step B (program B N K) s i ≠ .error (.panic e)) ∧
    ((∃ i ∈ children N, (s.loc i).pc ≠ .exited) →
      ∃ i t, Threads.step B (program B N K) s i = .ok t) ∧
    ((∀ i ∈ children N, (s.loc i).pc = .exited) → s.shared = 0) := by
  have hs := run_inv hC' h
  have hmade : (s.shared : ℤ) = writes (s.loc 0) - ∑ i ∈ customers N, writes (s.loc i) := by
    rw [hs.counter, ← Finset.add_sum_erase _ _ zero_mem_children, sub_eq_add_neg,
      ← Finset.sum_neg_distrib]
    congr 1
    exact Finset.sum_congr rfl fun i hi => if_neg (mem_customers.mp hi).1
  have haccess : ∀ i ∈ children N, ∀ f, program B N K i (s.loc i) = .access f →
      ∃ r, f s.shared = .ok r := fun i hi f hc => by
    obtain ⟨m, l, hf, -⟩ := hs.access hC' hi hc
    exact ⟨(m, l), hf⟩
  refine ⟨hs.counter_le, fun i cups hpc => ⟨hs.current i cups hpc, fun h0 => ?_⟩, ?_,
    fun i e he => ?_, ?_, fun hall => ?_⟩
  · have hi : i ∈ children N := by
      by_contra hout
      have := hs.wf.outside i hout
      rw [program_eq, loop_exited, hpc] at this
      cases this
    rw [hs.current i cups hpc]
    exact hs.counter_pos hi h0 (by rw [hpc]; exact zero_lt_one)
  · omega
  · by_cases hi : i ∈ children N
    · exact step_ne_panic (hs.served hC' i) (haccess i hi) e he
    · rw [Threads.step, hs.wf.outside i hi] at he
      split_ifs at he <;> cases he
  · rintro ⟨i, hi, hpc⟩
    obtain ⟨j, hj, hpcj, hb⟩ := hs.progress hC hi hpc
    have hne : program B N K j (s.loc j) ≠ .exited := by
      rw [program_eq]
      exact fun he => hpcj (loop_exited.mp he)
    exact ⟨j, step_ok (hs.served hC' j) hb hne (haccess j hj)⟩
  · have hwrites : ∀ i ∈ children N, writes (s.loc i) = (rounds N K i : ℕ) := fun i hi => by
      rw [writes, hall i hi, hs.done i hi (hall i hi)]
      exact add_zero _
    have hsum : ∑ i ∈ customers N, writes (s.loc i) = ((N * K : ℕ) : ℤ) := by
      rw [← sum_rounds (N := N) (K := K), Nat.cast_sum]
      exact Finset.sum_congr rfl fun i hi => hwrites i (mem_customers.mp hi).2
    have hmaker : writes (s.loc 0) = ((N * K : ℕ) : ℤ) := hwrites 0 zero_mem_children
    omega

/-- Two customers, a shelf for one cup: the coffee maker has put the first cup on it. -/
theorem bounded_buffer_example : ∃ s : State ℕ Local, s.shared = 1 ∧ s.shared ≤ 1 := by
  have hs : (exec (Threads.step Build.release (program Build.release 2 1)) Any (init 2 1 1)
      [1, 0, 2, 0, 0, 0, 0]).map State.shared = some 1 := by
    decide +kernel
  obtain ⟨s, hs, hshared⟩ := Option.map_eq_some_iff.mp hs
  exact ⟨s, hshared, (bounded_buffer le_rfl (by decide) (run_of_exec hs)).1⟩

end Mq

end Ysos
