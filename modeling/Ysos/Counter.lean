import Ysos.Programs
import Ysos.Locks

/-! # The counter (`app/counter`)

`main` makes a semaphore with one permit and forks `N` children.  Each of them adds `K` times one to
`COUNTER`, and takes the semaphore for it; reading the counter and writing it back are two steps.  Then
`main` waits for its children and prints the counter.

* `Correct`: the counter is the number of additions that are done.
* `counter_on_kernel`: on the kernel, while others leave it alone, no addition is lost, and when the
  children are dead the counter is `N * K`. -/

namespace Ysos

open Runs Threads

namespace Counter

/-! ### The program -/

def MUTEX : SemaphoreId := 0xdeadbeef

/-- The points of a round; `write val` has read the value `val`. -/
inductive Pc where
  | wait
  | read
  | write (val : Int64)
  | signal
  | exited
deriving DecidableEq, Repr

structure Local where
  round : ℕ
  pc : Pc
deriving DecidableEq, Repr

/-- The head of the loop over the rounds. -/
def start (rounds i : ℕ) : Local := if i < rounds then ⟨i, .wait⟩ else ⟨i, .exited⟩

variable (B : Build) (N K : ℕ)

/-- `val += 1` -/
def addOne (val : Int64) : Except Panic Int64 :=
  if B.debug && val == Int64.maxValue then .error .overflow else .ok (val + 1)

def doCounterInc : Local → Threads.Action Int64 Local
  | ⟨i, .wait⟩ => .wait MUTEX ⟨i, .read⟩
  | ⟨i, .read⟩ => .access fun counter => .ok (counter, ⟨i, .write counter⟩)
  | ⟨i, .write val⟩ => .access fun _ => do return (← addOne B val, ⟨i, .signal⟩)
  | ⟨i, .signal⟩ => .signal MUTEX (start K (i + 1))
  | ⟨_, .exited⟩ => .exited

/-- All children run the same program. -/
def program : Code Int64 Local := fun _ => doCounterInc B K

/-- The children. -/
def children : Finset ProcessId := Finset.range N

/-- The state when `main` has made the semaphore and the children. -/
def init : State Int64 Local where
  sems := (SemaphoreSet.empty.insert MUTEX 1).2
  shared := 0
  loc p := if p < N then start K 0 else ⟨0, .exited⟩
  blocked := fun _ => false

/-! ### The sections of the program -/

/-- The program with a lock in the place of the semaphore. -/
def turns : Monitor.Code ProcessId Panic Int64 Local := fun _ l =>
  match l with
  | ⟨i, .wait⟩ => .enter ⟨i, .read⟩
  | ⟨i, .read⟩ => .access fun counter => .ok (counter, ⟨i, .write counter⟩)
  | ⟨i, .write val⟩ => .access fun _ => do return (← addOne B val, ⟨i, .signal⟩)
  | ⟨i, .signal⟩ => .leave (start K (i + 1))
  | ⟨_, .exited⟩ => .done

/-- The semaphore is taken. -/
def Inside (l : Local) : Prop := l.pc ≠ .wait ∧ l.pc ≠ .exited

/-- The additions that a child has done. -/
def writes (l : Local) : ℕ := if l.pc = .signal then l.round + 1 else l.round

variable {B} {N K} {p : ProcessId} {l l' : Local} {m m' : Int64}

theorem program_eq : program B K = Lock.withSemaphore MUTEX (turns B K) := by
  funext p l
  obtain ⟨i, pc⟩ := l
  cases pc <;> rfl

theorem turns_enter : turns B K p l = .enter l' ↔ l.pc = .wait ∧ l' = ⟨l.round, .read⟩ := by
  obtain ⟨i, pc⟩ := l
  cases pc <;> simp [turns, eq_comm]

theorem turns_leave : turns B K p l = .leave l' ↔ l.pc = .signal ∧ l' = start K (l.round + 1) := by
  obtain ⟨i, pc⟩ := l
  cases pc <;> simp [turns, eq_comm]

theorem turns_done : turns B K p l = .done ↔ l.pc = .exited := by
  obtain ⟨i, pc⟩ := l
  cases pc <;> simp [turns]

/-- An access reads the counter, or it writes it back. -/
theorem turns_access {f : Int64 → Except Panic (Int64 × Local)} (h : turns B K p l = .access f)
    (hf : f m = .ok (m', l')) :
    l.pc = .read ∧ m' = m ∧ l' = ⟨l.round, .write m⟩ ∨
      ∃ val, l.pc = .write val ∧ addOne B val = .ok m' ∧ l' = ⟨l.round, .signal⟩ := by
  obtain ⟨i, pc⟩ := l
  cases pc with
  | read =>
      cases h
      cases hf
      exact Or.inl ⟨rfl, rfl, rfl⟩
  | write val =>
      cases h
      simp only [bind_eq_ok, pure_eq_ok] at hf
      obtain ⟨x, hx, hf⟩ := hf
      cases hf
      exact Or.inr ⟨val, rfl, hx, rfl⟩
  | _ => cases h

theorem start_pc {n i : ℕ} : (start n i).pc = .wait ∨ (start n i).pc = .exited := by
  unfold start
  split_ifs
  · exact Or.inl rfl
  · exact Or.inr rfl

@[simp] theorem start_round {n i : ℕ} : (start n i).round = i := by
  unfold start
  split_ifs <;> rfl

/-- A child waits for its next addition, or it has done all of them. -/
theorem start_cases {n i : ℕ} (h : i ≤ n) : (start n i).pc = .wait ∧ (start n i).round < n ∨
    (start n i).pc = .exited ∧ (start n i).round = n := by
  rw [start_round]
  unfold start
  by_cases hlt : i < n
  · rw [if_pos hlt]
    exact Or.inl ⟨rfl, hlt⟩
  · rw [if_neg hlt]
    exact Or.inr ⟨rfl, Nat.le_antisymm h (Nat.le_of_not_lt hlt)⟩

theorem start_outside {n i : ℕ} : ¬ Inside (start n i) := fun h => start_pc.elim h.1 h.2

theorem disciplined : Monitor.Disciplined (turns B K) Inside := by
  refine ⟨fun h => ?_, fun h => ?_, fun h hf => ?_, fun h => ?_⟩
  · obtain ⟨hpc, rfl⟩ := turns_enter.mp h
    exact ⟨fun hin => hin.1 hpc, by simp [Inside]⟩
  · obtain ⟨hpc, rfl⟩ := turns_leave.mp h
    exact ⟨by simp [Inside, hpc], start_outside⟩
  · rcases turns_access h hf with ⟨hpc, -, rfl⟩ | ⟨val, hpc, -, rfl⟩ <;> simp [Inside, hpc]
  · exact fun hin => hin.2 (turns_done.mp h)

/-! ### No addition is lost -/

/-- Inside of a section that has begun with the value `m`. -/
theorem accesses_cases {i : ℕ} {x : Int64 × Local}
    (h : Monitor.Accesses (turns B K) p (m, ⟨i, .read⟩) x) :
    x = (m, ⟨i, .read⟩) ∨ x = (m, ⟨i, .write m⟩) ∨ addOne B m = .ok x.1 ∧ x.2 = ⟨i, .signal⟩ := by
  induction h with
  | refl => exact Or.inl rfl
  | tail _ hs ih =>
      obtain ⟨f, hc, hf⟩ := hs
      rcases ih with rfl | rfl | ⟨-, hsig⟩
      · rcases turns_access hc hf with ⟨-, hm, hl⟩ | ⟨val, hpc, -⟩
        · exact Or.inr (Or.inl (Prod.ext hm hl))
        · cases hpc
      · rcases turns_access hc hf with ⟨hpc, -⟩ | ⟨val, hpc, hm, hl⟩
        · cases hpc
        · cases hpc
          exact Or.inr (Or.inr ⟨hm, hl⟩)
      · rw [hsig] at hc
        cases hc

/-- The counter and the rounds between the sections. -/
structure Counted (N K : ℕ) (a : Int64 × (ProcessId → Local)) : Prop where
  total : a.1.toInt = ((∑ p ∈ children N, (a.2 p).round : ℕ) : ℤ)
  waiting : ∀ p ∈ children N, (a.2 p).pc = .wait ∧ (a.2 p).round < K ∨
    (a.2 p).pc = .exited ∧ (a.2 p).round = K
  strangers : ∀ p, p ∉ children N → (a.2 p).pc = .exited

theorem addOne_eq (h : m.toInt + 1 < 2 ^ 63) (hm : addOne B m = .ok m') : m'.toInt = m.toInt + 1 := by
  unfold addOne at hm
  split_ifs at hm
  cases hm
  have hlo := m.le_toInt
  rw [Int64.toInt_add, show Int64.toInt 1 = 1 from rfl]
  exact Int.bmod_eq_of_le (by omega) (by omega)

theorem addOne_ok (h : m.toInt + 1 < 2 ^ 63) : ∃ m', addOne B m = .ok m' := by
  refine ⟨m + 1, if_neg fun hd => ?_⟩
  rw [Bool.and_eq_true, beq_iff_eq] at hd
  rw [hd.2] at h
  exact absurd h (by decide)

theorem sum_update {g : Local → ℕ} {loc : ProcessId → Local} (hp : p ∈ children N)
    (hg : g l = g (loc p) + 1) :
    ∑ q ∈ children N, g (Function.update loc p l q) = ∑ q ∈ children N, g (loc q) + 1 := by
  have hrest : ∑ q ∈ (children N).erase p, g (Function.update loc p l q) =
      ∑ q ∈ (children N).erase p, g (loc q) :=
    Finset.sum_congr rfl fun q hq => by rw [Function.update_of_ne (Finset.ne_of_mem_erase hq)]
  rw [← Finset.add_sum_erase _ _ hp, ← Finset.add_sum_erase _ (fun q => g (loc q)) hp, hrest,
    Function.update_self, hg]
  ring

namespace Counted

variable {a b : Int64 × (ProcessId → Local)}

theorem room (h : Counted N K a) (hNK : N * K < 2 ^ 63) (hp : (a.2 p).pc = .wait) :
    p ∈ children N ∧ (a.2 p).round < K ∧ a.1.toInt + 1 < 2 ^ 63 := by
  have hmem : p ∈ children N := by
    by_contra hout
    rw [h.strangers p hout] at hp
    cases hp
  have hlt : (a.2 p).round < K := by
    rcases h.waiting p hmem with h | h
    · exact h.2
    · rw [h.1] at hp
      cases hp
  refine ⟨hmem, hlt, ?_⟩
  have hsum : ∑ q ∈ children N, (a.2 q).round < ∑ q ∈ children N, K := by
    refine Finset.sum_lt_sum (fun q hq => ?_) ⟨p, hmem, hlt⟩
    rcases h.waiting q hq with h | h
    · exact h.2.le
    · exact h.2.le
  rw [Finset.sum_const, children, Finset.card_range, smul_eq_mul] at hsum
  rw [h.total, children]
  omega

/-- **A section** adds one. -/
theorem of_section (h : Counted N K a) (hNK : N * K < 2 ^ 63) (hs : Monitor.Section (turns B K) a b) :
    Counted N K b := by
  cases hs with
  | @mk p l l' l'' m henter hin hleave =>
      obtain ⟨hwait, rfl⟩ := turns_enter.mp henter
      obtain ⟨hsignal, rfl⟩ := turns_leave.mp hleave
      obtain ⟨hp, hlt, hroom⟩ := h.room hNK hwait
      obtain ⟨hadd, rfl⟩ : addOne B a.1 = .ok m ∧ l' = ⟨(a.2 p).round, .signal⟩ := by
        rcases accesses_cases hin with hx | hx | hx
        · rw [(Prod.mk.inj hx).2] at hsignal
          cases hsignal
        · rw [(Prod.mk.inj hx).2] at hsignal
          cases hsignal
        · exact hx
      refine ⟨?_, fun q hq => ?_, fun q hq => ?_⟩
      · have hsum : ∑ q ∈ children N, Local.round (Function.update a.2 p (start K (a.2 p).round.succ) q) =
            ∑ q ∈ children N, (a.2 q).round + 1 :=
          sum_update hp start_round
        rw [addOne_eq hroom hadd, h.total, ← Nat.cast_succ]
        exact congrArg Nat.cast hsum.symm
      · by_cases hqp : q = p
        · subst hqp
          dsimp only
          rw [Function.update_self]
          exact start_cases hlt
        · dsimp only
          rw [Function.update_of_ne hqp]
          exact h.waiting q hq
      · have hqp : q ≠ p := fun he => hq (he ▸ hp)
        dsimp only
        rw [Function.update_of_ne hqp]
        exact h.strangers q hq

theorem of_sections (h : Counted N K a) (hNK : N * K < 2 ^ 63)
    (hs : Monitor.Sections (turns B K) a b) : Counted N K b := by
  induction hs with
  | refl => exact h
  | tail _ hs ih => exact ih.of_section hNK hs

/-- A child outside of its section has done as many additions as rounds. -/
theorem writes_eq (h : Counted N K a) (hp : p ∈ children N) : writes (a.2 p) = (a.2 p).round := by
  refine if_neg fun hpc => ?_
  rcases h.waiting p hp with hw | hw
  · rw [hpc] at hw
    cases hw.1
  · rw [hpc] at hw
    cases hw.1

end Counted

theorem init_counted : Counted N K ((init N K).shared, (init N K).loc) := by
  have hloc : ∀ p ∈ children N, (init N K).loc p = start K 0 := fun p hp => if_pos (Finset.mem_range.mp hp)
  refine ⟨?_, fun p hp => ?_, fun p hp => ?_⟩
  · have hzero : ∑ p ∈ children N, ((init N K).loc p).round = 0 :=
      Finset.sum_eq_zero fun p hp => by rw [hloc p hp, start_round]
    rw [hzero]
    rfl
  · dsimp only
    rw [hloc p hp]
    exact start_cases (Nat.zero_le K)
  · exact congrArg Local.pc (if_neg fun hlt => hp (Finset.mem_range.mpr hlt))

/-- **Correctness.**  The counter is the number of the additions that are done; who writes it back has
read its present value, and there is room for the addition. -/
structure Correct (N K : ℕ) (counter : Int64) (loc : ProcessId → Local) : Prop where
  total : counter.toInt = ((∑ p ∈ children N, writes (loc p) : ℕ) : ℤ)
  current : ∀ p val, (loc p).pc = .write val → val = counter ∧ counter.toInt + 1 < 2 ^ 63
  done : ∀ p ∈ children N, (loc p).pc = .exited → (loc p).round = K

/-- The sections being atomic, the counter is correct. -/
theorem correct_of_serial {loc : ProcessId → Local} (hNK : N * K < 2 ^ 63)
    (h : Monitor.Serial (turns B K) Inside (init N K).shared (init N K).loc m loc) :
    Correct N K m loc := by
  obtain ⟨hexcl, a, hsections, hafter⟩ := h
  have hc : Counted N K a := init_counted.of_sections hNK hsections
  have htotal : a.1.toInt = ((∑ p ∈ children N, writes (a.2 p) : ℕ) : ℤ) := by
    rw [hc.total, Finset.sum_congr rfl fun p hp => hc.writes_eq hp]
  have hdone : ∀ p ∈ children N, (loc p).pc = .exited → (loc p).round = K := fun p hp hpc => by
    have hp' : loc p = a.2 p := hafter.outside p fun hin => hin.2 hpc
    rw [hp'] at hpc ⊢
    rcases hc.waiting p hp with hw | hw
    · rw [hpc] at hw
      cases hw.1
    · exact hw.2
  by_cases hin : ∃ p, Inside (loc p)
  · obtain ⟨p, hin⟩ := hin
    obtain ⟨l, henter, hacc⟩ := hafter.busy p hin
    obtain ⟨hwait, rfl⟩ := turns_enter.mp henter
    obtain ⟨hp, -, hroom⟩ := hc.room hNK hwait
    have hother : ∀ q, q ≠ p → loc q = a.2 q := fun q hq =>
      hafter.outside q fun hq' => hq (hexcl q p hq' hin)
    have hsame : writes (loc p) = (a.2 p).round →
        ∑ q ∈ children N, writes (loc q) = ∑ q ∈ children N, writes (a.2 q) := fun hp' =>
      Finset.sum_congr rfl fun q hq => by
        by_cases hqp : q = p
        · rw [hqp, hp', hc.writes_eq hp]
        · rw [hother q hqp]
    have hwriter : ∀ q val, (loc q).pc = .write val → (loc p).pc = .write val := fun q val hpc =>
      hexcl q p (by simp [Inside, hpc]) hin ▸ hpc
    rcases accesses_cases hacc with hx | hx | ⟨hadd, hl⟩
    · obtain ⟨rfl, hl⟩ := Prod.mk.inj hx
      refine ⟨by rw [hsame (by rw [hl]; rfl), htotal], fun q val hpc => ?_, hdone⟩
      have hpc := hwriter q val hpc
      rw [hl] at hpc
      cases hpc
    · obtain ⟨rfl, hl⟩ := Prod.mk.inj hx
      refine ⟨by rw [hsame (by rw [hl]; rfl), htotal], fun q val hpc => ?_, hdone⟩
      have hpc := hwriter q val hpc
      rw [hl] at hpc
      cases hpc
      exact ⟨rfl, hroom⟩
    · have hl : loc p = ⟨(a.2 p).round, .signal⟩ := hl
      have hloc : loc = Function.update a.2 p ⟨(a.2 p).round, .signal⟩ := by
        funext q
        by_cases hq : q = p
        · rw [hq, Function.update_self, hl]
        · rw [Function.update_of_ne hq, hother q hq]
      refine ⟨?_, fun q val hpc => ?_, hdone⟩
      · have hone : writes ⟨(a.2 p).round, .signal⟩ = writes (a.2 p) + 1 := by
          rw [hc.writes_eq hp]
          rfl
        rw [hloc, sum_update hp hone, Nat.cast_succ, ← htotal]
        exact addOne_eq hroom hadd
      · have hpc := hwriter q val hpc
        rw [hl] at hpc
        cases hpc
  · have hidle : ∀ p, ¬ Inside (loc p) := not_exists.mp hin
    have hloc : loc = a.2 := funext fun p => hafter.outside p (hidle p)
    refine ⟨?_, fun p val hpc => absurd (by simp [Inside, hpc]) (hidle p), hdone⟩
    rw [hafter.idle hidle, hloc]
    exact htotal

/-! ### On the kernel -/

section Kernel

variable {α : Type} [FrameAllocator α] {pid : ProcessId → ProcessId} {i : Ref}
  {m₀ m : Machine α Int64 Local} {T : State Int64 Local}

theorem init_ready : Lock.Ready MUTEX (turns B K) Inside (children N) (init N K) := by
  have hloc : ∀ p, (init N K).loc p = start K 0 ∨ p ∉ children N ∧ (init N K).loc p = ⟨0, .exited⟩ := by
    intro p
    by_cases hp : p ∈ children N
    · exact Or.inl (if_pos (Finset.mem_range.mp hp))
    · exact Or.inr ⟨hp, if_neg fun hlt => hp (Finset.mem_range.mpr hlt)⟩
  refine ⟨fun p hp => ?_, fun p => ?_, rfl, Fresh.empty.insert, fun _ => rfl⟩
  · exact turns_done.mpr (congrArg Local.pc (if_neg fun hlt => hp (Finset.mem_range.mpr hlt)))
  · rcases hloc p with h | ⟨-, h⟩ <;> rw [h]
    · exact start_outside
    · exact fun hin => hin.2 rfl

omit [FrameAllocator α] in
/-- A child whose thread is blocked is in its call of `wait`. -/
theorem local_cases (hl : Linked (program B K) (children N) pid i m T) (p : ProcessId) :
    T.loc p = m.loc p ∨ pid p ∈ (m.kernel.semaphoreSets i).queue MUTEX ∧ (m.loc p).pc = .read ∧
      (T.loc p).pc = .wait ∧ (m.loc p).round = (T.loc p).round := by
  obtain h | ⟨key, hwait, hmem⟩ := linked_local hl p
  · exact Or.inl h
  · rw [program_eq] at hwait
    obtain ⟨rfl, henter⟩ := Lock.wait_iff.mp hwait
    obtain ⟨hpc, hm⟩ := turns_enter.mp henter
    exact Or.inr ⟨hmem, by rw [hm], hpc, by rw [hm]⟩

/-- **The counter on the kernel.**  However the clock interrupts the children, and whatever calls others
make, as long as they leave the children and their semaphore alone and the kernel process runs on: of the
children that do not wait for the semaphore, at most one is in its section; the counter is the number of
the additions that are done; who writes it back has read its present value, and the addition does not
overflow; once all have been forked and until all have come to their end, one that has not has the
processor or is in the ready queue; and when all children are dead, the counter is `N * K`. -/
theorem counter_on_kernel (hNK : N * K < 2 ^ 63) (hinj : Set.InjOn pid (children N))
    (h0 : Opens B (children N) pid i (init N K) m₀)
    (hrun : Run (Machine.step B (program B K)) (Plays (program B K) (children N) pid i) m₀ m) :
    (∀ p q, Inside (m.loc p) → Inside (m.loc q) →
      pid p ∉ (m.kernel.semaphoreSets i).queue MUTEX → pid q ∉ (m.kernel.semaphoreSets i).queue MUTEX →
        p = q) ∧
    m.shared.toInt = ((∑ p ∈ children N, writes (m.loc p) : ℕ) : ℤ) ∧
    (∀ p val, (m.loc p).pc = .write val → val = m.shared ∧ ∃ sum, addOne B val = .ok sum) ∧
    ((∀ p ∈ children N, ∃ r, m.kernel.getProc (pid p) = some r) →
      (∃ p ∈ children N, (m.loc p).pc ≠ .exited) →
        ∃ p ∈ children N, (m.loc p).pc ≠ .exited ∧ ∃ r, m.kernel.getProc (pid p) = some r ∧
          (pid p = m.kernel.processor ∨
            pid p ∈ m.kernel.readyQueue ∧ (m.kernel.heap r).inner.status = .ready)) ∧
    ((∀ p ∈ children N, ∃ r, m.kernel.getProc (pid p) = some r ∧
      (m.kernel.heap r).inner.status = .dead) → m.shared.toInt = ((N * K : ℕ) : ℤ)) := by
  obtain ⟨T, hT, hl, hh⟩ := opens_run hinj rfl h0 hrun
  obtain ⟨s, hs, ha⟩ := init_ready.run disciplined (program_eq ▸ hT)
  have hserial := init_ready.serial disciplined hs ha
  obtain ⟨htotal, hcurrent, hdone⟩ := correct_of_serial hNK hserial
  rw [hl.shared] at htotal hcurrent
  have hwrites : ∀ p, writes (m.loc p) = writes (T.loc p) := fun p => by
    rcases local_cases hl p with h | ⟨-, hread, hwait, hround⟩
    · rw [h]
    · simp [writes, hread, hwait, hround]
  have hsum : m.shared.toInt = ((∑ p ∈ children N, writes (m.loc p) : ℕ) : ℤ) := by
    rw [htotal, Finset.sum_congr rfl fun p _ => hwrites p]
  have hhere : ∀ p, pid p ∉ (m.kernel.semaphoreSets i).queue MUTEX → T.loc p = m.loc p := fun p hp =>
    (local_cases hl p).resolve_right fun h => hp h.1
  refine ⟨fun p q hp hq hp' hq' => ?_, hsum, fun p val hpc => ?_, ?_, fun hall => ?_⟩
  · exact hserial.exclusive p q (hhere p hp' ▸ hp) (hhere q hq' ▸ hq)
  · have hp : T.loc p = m.loc p := (local_cases hl p).resolve_right fun h => by
      rw [h.2.1] at hpc
      cases hpc
    obtain ⟨rfl, hroom⟩ := hcurrent p val (hp ▸ hpc)
    exact ⟨rfl, addOne_ok hroom⟩
  · rintro hforked ⟨p, hp, hpc⟩
    have hpcT : turns B K p (T.loc p) ≠ .done := fun h => by
      have hpcT := turns_done.mp h
      rcases local_cases hl p with h | ⟨-, -, hwait, -⟩
      · exact hpc (h ▸ hpcT)
      · rw [hwait] at hpcT
        cases hpcT
    obtain ⟨q, hq, hb, hne⟩ := ha.progress disciplined hpcT
    have hloc := hl.loc q hb
    have hne : (m.loc q).pc ≠ .exited := fun h => hne (turns_done.mpr (hloc ▸ h))
    obtain ⟨r, hr⟩ := hforked q hq
    refine ⟨q, hq, hne, r, hr, hl.scheduled hh hq hr hb fun h => hne ?_⟩
    rw [program_eq] at h
    exact turns_done.mp (Lock.exited_iff.mp h)
  · have hK : ∀ p ∈ children N, writes (m.loc p) = K := fun p hp => by
      obtain ⟨r, hr, hdead⟩ := hall p hp
      have hpc : (m.loc p).pc = .exited := by
        have h := hh.alive p hp r hr hdead
        rw [program_eq] at h
        exact turns_done.mp (Lock.exited_iff.mp h)
      have hloc : T.loc p = m.loc p := (local_cases hl p).resolve_right fun h => by
        rw [h.2.1] at hpc
        cases hpc
      rw [writes, if_neg (by rw [hpc]; decide), ← hloc]
      exact hdone p hp (hloc ▸ hpc)
    rw [hsum, Finset.sum_congr rfl hK, Finset.sum_const, children, Finset.card_range, smul_eq_mul]

/-- `main` has made the semaphore, for two children with one round each. -/
def counterCalls : List Op := [.spawn "sh", .switch, .semNew MUTEX 1]

/-- The clock interrupts the first child when it has read the counter, and the second one blocks. -/
def counterEvents : List Event :=
  [.other (.vfork, default), .other (.switch, default), .call 0 (.switch, default),
    .other (.vfork, default), .other (.switch, default), .call 0 (.semWait MUTEX, default),
    .access 0, .call 0 (.switch, default), .call 1 (.semWait MUTEX, default),
    .other (.switch, default), .other (.switch, default), .access 0, .call 0 (.semSignal MUTEX, default),
    .call 0 (.processExit 0, default), .other (.switch, default), .other (.switch, default),
    .access 1, .access 1, .call 1 (.semSignal MUTEX, default), .call 1 (.processExit 0, default)]

/-- The processes 3 and 4 are the children. -/
def counter (k : Kernel BootInfoFrameAllocator) : Machine BootInfoFrameAllocator Int64 Local :=
  ⟨k, 0, (init 2 1).loc⟩

set_option maxRecDepth 4000 in
theorem counter_opens {k : Kernel BootInfoFrameAllocator}
    (hk : execCalls KernelKept default counterCalls = some k) :
    Opens Build.release (children 2) (· + 3) 2 (init 2 1) (counter k) := by
  have hsems : (execCalls KernelKept default counterCalls).map (fun k => k.semaphoreSets 2) =
      some (init 2 1).sems := by
    rfl
  have hnone : (execCalls KernelKept default counterCalls).map
      (fun k => (k.created, k.getProc 3, k.getProc 4)) = some (2, none, none) := by
    decide +kernel
  rw [hk, Option.map_some, Option.some.injEq] at hsems hnone
  simp only [Prod.mk.injEq] at hnone
  obtain ⟨hmade, hthree, hfour⟩ := hnone
  have hyet : ∀ p ∈ children 2, k.getProc (p + 3) = none := fun p hp => by
    obtain rfl | rfl := Nat.le_one_iff_eq_zero_or_eq_one.mp (Nat.lt_succ_iff.mp (Finset.mem_range.mp hp))
    · exact hthree
    · exact hfour
  refine ⟨.of_unborn ⟨smallMachine, run_of_exec hk⟩ hmade.ge ?_ hyet, hsems, rfl, rfl⟩
  show Fresh (k.semaphoreSets 2)
  rw [hsems]
  exact Fresh.empty.insert

/-- Both children are dead. -/
theorem counter_on_kernel_example : ∃ m : Machine BootInfoFrameAllocator Int64 Local,
    m.kernel.readyQueue = [1] ∧ m.shared.toInt = 2 := by
  have hs : ((execCalls KernelKept default counterCalls).bind fun k =>
      (exec (Machine.step Build.release (program Build.release 1))
        (Plays (program Build.release 1) (children 2) (· + 3) 2) (counter k) counterEvents).map
          fun m => (m.kernel.readyQueue, (m.kernel.getProc 3, m.kernel.getProc 4),
            (m.kernel.heap 3).inner.status, (m.kernel.heap 4).inner.status)) =
      some ([1], (some 3, some 4), .dead, .dead) := by
    decide +kernel
  obtain ⟨k, hk, hs⟩ := Option.bind_eq_some_iff.mp hs
  obtain ⟨m, hm, hval⟩ := Option.map_eq_some_iff.mp hs
  simp only [Prod.mk.injEq] at hval
  obtain ⟨hready, ⟨hthree, hfour⟩, hdead, hdead'⟩ := hval
  refine ⟨m, hready, (counter_on_kernel (by decide) (add_left_injective 3).injOn (counter_opens hk)
    (run_of_exec hm)).2.2.2.2 fun p hp => ?_⟩
  obtain rfl | rfl := Nat.le_one_iff_eq_zero_or_eq_one.mp (Nat.lt_succ_iff.mp (Finset.mem_range.mp hp))
  · exact ⟨3, hthree, hdead⟩
  · exact ⟨4, hfour, hdead'⟩

end Kernel

end Counter

end Ysos
