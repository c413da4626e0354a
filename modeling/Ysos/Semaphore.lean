import Ysos.Build

/-! # Semaphores (`proc/sync.rs`)

`Semaphore` and `SemaphoreSet` with their operations.  A history is the list of calls with
their results, oldest first; `Trace B v es s` says that a new semaphore with value `v` reaches
`s` by the history `es`.

* `Semaphore.counting`: the count is the initial value plus the signals minus the grants, it is
  zero while processes wait, they are woken in the order they blocked, and if processes signal
  only what they hold, at most `v` of them hold a permit. -/

namespace Ysos

open Runs

/-- `ProcessId`, a `u16`. -/
abbrev ProcessId := ℕ

/-- `SemaphoreId`, a `u32`. -/
abbrev SemaphoreId := ℕ

inductive SemaphoreResult where
  | ok
  | notExist
  | block (pid : ProcessId)
  | wakeUp (pid : ProcessId)
deriving DecidableEq, Repr

structure Semaphore where
  count : ℕ
  waitQueue : List ProcessId
deriving DecidableEq, Repr

variable (B : Build)

namespace Semaphore

def new (value : ℕ) : Semaphore := { count := value, waitQueue := [] }

def wait (s : Semaphore) (pid : ProcessId) : SemaphoreResult × Semaphore :=
  if s.count = 0 then (.block pid, { s with waitQueue := s.waitQueue ++ [pid] })
  else (.ok, { s with count := s.count - 1 })

def signal (s : Semaphore) : Except Panic (SemaphoreResult × Semaphore) :=
  match s.waitQueue with
  | [] => do return (.ok, { s with count := ← B.add s.count 1 })
  | pid :: rest => .ok (.wakeUp pid, { s with waitQueue := rest })

end Semaphore

/-- `SemaphoreSet`: the semaphores by their keys. -/
abbrev SemaphoreSet := SemaphoreId → Option Semaphore

namespace SemaphoreSet

def empty : SemaphoreSet := fun _ => none

def insert (sems : SemaphoreSet) (key value : ℕ) : Bool × SemaphoreSet :=
  ((sems key).isNone, Function.update sems key (some (Semaphore.new value)))

def remove (sems : SemaphoreSet) (key : ℕ) : Bool × SemaphoreSet :=
  ((sems key).isSome, Function.update sems key none)

def wait (sems : SemaphoreSet) (key : ℕ) (pid : ProcessId) : SemaphoreResult × SemaphoreSet :=
  match sems key with
  | some sem => ((sem.wait pid).1, Function.update sems key (some (sem.wait pid).2))
  | none => (.notExist, sems)

def signal (sems : SemaphoreSet) (key : ℕ) : Except Panic (SemaphoreResult × SemaphoreSet) :=
  match sems key with
  | some sem => do
      let (r, sem) ← sem.signal B
      return (r, Function.update sems key (some sem))
  | none => .ok (.notExist, sems)

end SemaphoreSet

/-! ### Histories -/

/-- A call of `wait` or `signal` and the process that makes it. -/
inductive SemCall where
  | wait (pid : ProcessId)
  | signal (pid : ProcessId)
deriving DecidableEq, Repr

def SemCall.caller : SemCall → ProcessId
  | .wait pid => pid
  | .signal pid => pid

def Semaphore.call (s : Semaphore) : SemCall → Except Panic (SemaphoreResult × Semaphore)
  | .wait pid => .ok (s.wait pid)
  | .signal _ => s.signal B

/-- A call with its result. -/
abbrev SemEvent := SemCall × SemaphoreResult

/-- A new semaphore with value `v` reaches `s` by the calls and results `es`. -/
inductive Trace (v : ℕ) : List SemEvent → Semaphore → Prop where
  | new : Trace v [] (Semaphore.new v)
  | snoc {es : List SemEvent} {s s' : Semaphore} {c : SemCall} {r : SemaphoreResult}
      (h : Trace v es s) (hc : s.call B c = .ok (r, s')) : Trace v (es ++ [(c, r)]) s'

namespace SemEvent

/-- The process that is granted a permit: its `wait` returned `Ok`, or a `signal` woke it up. -/
def granted : SemEvent → Option ProcessId
  | (.wait pid, .ok) => some pid
  | (_, .wakeUp pid) => some pid
  | _ => none

def blocked : SemEvent → Option ProcessId
  | (_, .block pid) => some pid
  | _ => none

def woken : SemEvent → Option ProcessId
  | (_, .wakeUp pid) => some pid
  | _ => none

def signalled : SemEvent → Option ProcessId
  | (.signal pid, _) => some pid
  | _ => none

end SemEvent

section Histories
variable (es : List SemEvent)

/-- The processes that were granted a permit, in order. -/
def granted : List ProcessId := es.filterMap SemEvent.granted

/-- The processes that blocked, in order. -/
def blocked : List ProcessId := es.filterMap SemEvent.blocked

/-- The processes that were woken, in order. -/
def woken : List ProcessId := es.filterMap SemEvent.woken

/-- The processes that signalled, in order. -/
def signalled : List ProcessId := es.filterMap SemEvent.signalled

/-- A process that got `Block` makes no call until a `signal` returned `WakeUp` of it. -/
def Patient : Prop :=
  ∀ before e after, es = before ++ e :: after →
    ¬ (woken before).count e.1.caller < (blocked before).count e.1.caller

/-- A process signals only while it has a grant that it has not signalled yet. -/
def Honest : Prop :=
  ∀ before pid r after, es = before ++ (.signal pid, r) :: after →
    (signalled before).count pid < (granted before).count pid

end Histories

theorem filterMap_snoc {β : Type} (f : SemEvent → Option β) (es : List SemEvent) (e : SemEvent) :
    (es ++ [e]).filterMap f = es.filterMap f ++ (f e).toList := by
  rw [List.filterMap_append]
  cases h : f e <;> simp [h]

@[simp] theorem granted_snoc (es : List SemEvent) (e : SemEvent) :
    granted (es ++ [e]) = granted es ++ e.granted.toList := filterMap_snoc _ es e
@[simp] theorem blocked_snoc (es : List SemEvent) (e : SemEvent) :
    blocked (es ++ [e]) = blocked es ++ e.blocked.toList := filterMap_snoc _ es e
@[simp] theorem woken_snoc (es : List SemEvent) (e : SemEvent) :
    woken (es ++ [e]) = woken es ++ e.woken.toList := filterMap_snoc _ es e
@[simp] theorem signalled_snoc (es : List SemEvent) (e : SemEvent) :
    signalled (es ++ [e]) = signalled es ++ e.signalled.toList := filterMap_snoc _ es e

theorem Patient.init {es : List SemEvent} {e : SemEvent} (h : Patient (es ++ [e])) : Patient es :=
  fun before e' after he => h before e' (after ++ [e]) (by rw [he]; simp)

theorem Honest.init {es : List SemEvent} {e : SemEvent} (h : Honest (es ++ [e])) : Honest es :=
  fun before pid r after he => h before pid r (after ++ [e]) (by rw [he]; simp)

/-- Processes whose signals stay below their grants are no more than the grants that are left. -/
theorem length_holders_le {given back ps : List ProcessId}
    (hle : ∀ p, back.count p ≤ given.count p) (hnd : ps.Nodup)
    (hlt : ∀ p ∈ ps, back.count p < given.count p) : back.length + ps.length ≤ given.length := by
  rw [← List.length_append]
  apply List.Subperm.length_le
  rw [List.subperm_ext_iff]
  intro p hp
  rw [List.count_append]
  by_cases hps : p ∈ ps
  · have := hlt p hps
    have := List.nodup_iff_count_le_one.mp hnd p
    omega
  · rw [List.count_eq_zero_of_not_mem hps]
    exact hle p

namespace Semaphore

variable {B} {v : ℕ} {es : List SemEvent} {s s' : Semaphore} {c : SemCall} {r : SemaphoreResult}

theorem call_cases (h : s.call B c = .ok (r, s')) :
    (∃ pid, c = .wait pid ∧ s.count = 0 ∧ r = .block pid ∧
      s' = { s with waitQueue := s.waitQueue ++ [pid] }) ∨
    (∃ pid, c = .wait pid ∧ s.count ≠ 0 ∧ r = .ok ∧ s' = { s with count := s.count - 1 }) ∨
    (∃ pid n, c = .signal pid ∧ s.waitQueue = [] ∧ r = .ok ∧ B.add s.count 1 = .ok n ∧
      s' = { s with count := n }) ∨
    (∃ pid woken rest, c = .signal pid ∧ s.waitQueue = woken :: rest ∧ r = .wakeUp woken ∧
      s' = { s with waitQueue := rest }) := by
  cases c with
  | wait pid =>
      simp only [call, wait] at h
      split_ifs at h with h0
      · cases h
        exact Or.inl ⟨pid, rfl, h0, rfl, rfl⟩
      · cases h
        exact Or.inr (Or.inl ⟨pid, rfl, h0, rfl, rfl⟩)
  | signal pid =>
      simp only [call, signal] at h
      split at h
      · rename_i hq
        simp only [bind_eq_ok, pure_eq_ok] at h
        obtain ⟨n, hn, h⟩ := h
        cases h
        exact Or.inr (Or.inr (Or.inl ⟨pid, n, rfl, hq, rfl, hn, rfl⟩))
      · rename_i woken rest hq
        cases h
        exact Or.inr (Or.inr (Or.inr ⟨pid, woken, rest, rfl, hq, rfl, rfl⟩))

/-! ### The laws of one semaphore -/

theorem idle (h : Trace B v es s) : 0 < s.count → s.waitQueue = [] := by
  induction h with
  | new => exact fun _ => rfl
  | snoc _ hc ih =>
      obtain ⟨pid, -, h0, -, rfl⟩ | ⟨pid, -, h0, -, rfl⟩ | ⟨pid, n, -, hq, -, -, rfl⟩ |
        ⟨pid, w, rest, -, hq, -, rfl⟩ := call_cases hc
      · exact fun hpos => absurd h0 (Nat.pos_iff_ne_zero.mp hpos)
      · exact fun _ => ih (Nat.pos_iff_ne_zero.mpr h0)
      · exact fun _ => hq
      · intro hpos
        rw [ih hpos] at hq
        cases hq

/-- First in, first out: who blocked has been woken, in that order, or still waits. -/
theorem fifo (h : Trace B v es s) : blocked es = woken es ++ s.waitQueue := by
  induction h with
  | new => rfl
  | @snoc es s s' c r _ hc ih =>
      rw [blocked_snoc, woken_snoc, ih]
      obtain ⟨pid, rfl, -, rfl, rfl⟩ | ⟨pid, rfl, -, rfl, rfl⟩ | ⟨pid, n, rfl, -, rfl, -, rfl⟩ |
        ⟨pid, w, rest, rfl, hq, rfl, rfl⟩ := call_cases hc
      · simp [SemEvent.blocked, SemEvent.woken]
      · simp [SemEvent.blocked, SemEvent.woken]
      · simp [SemEvent.blocked, SemEvent.woken]
      · simp [SemEvent.blocked, SemEvent.woken, hq]

/-- The count is the initial value plus the signals minus the grants. -/
theorem balance (h : Trace B v es s) (hv : v + (signalled es).length < U64) :
    s.count + (granted es).length = v + (signalled es).length := by
  induction h with
  | new => rfl
  | @snoc es s s' c r ht hc ih =>
      rw [signalled_snoc, List.length_append] at hv
      have ih := ih (by omega)
      rw [signalled_snoc, granted_snoc, List.length_append, List.length_append]
      obtain ⟨pid, rfl, -, rfl, rfl⟩ | ⟨pid, rfl, h0, rfl, rfl⟩ | ⟨pid, n, rfl, -, rfl, hn, rfl⟩ |
        ⟨pid, w, rest, rfl, hq, rfl, rfl⟩ := call_cases hc
      · simp only [SemEvent.granted, SemEvent.signalled, Option.toList, List.length_nil]
        omega
      · simp only [SemEvent.granted, SemEvent.signalled, Option.toList, List.length_nil,
          List.length_singleton]
        omega
      · simp only [SemEvent.granted, SemEvent.signalled, Option.toList, List.length_nil,
          List.length_singleton] at hv ⊢
        rw [B.add_eq (by omega)] at hn
        have := Except.ok.inj hn
        omega
      · simp only [SemEvent.granted, SemEvent.signalled, Option.toList, List.length_singleton]
        omega

/-- While processes that blocked are patient, none waits twice. -/
theorem waitQueue_nodup (h : Trace B v es s) (hp : Patient es) : s.waitQueue.Nodup := by
  induction h with
  | new => exact List.nodup_nil
  | @snoc es s s' c r ht hc ih =>
      have ih := ih hp.init
      obtain ⟨pid, rfl, -, rfl, rfl⟩ | ⟨pid, rfl, -, rfl, rfl⟩ | ⟨pid, n, rfl, hq, rfl, -, rfl⟩ |
        ⟨pid, w, rest, rfl, hq, rfl, rfl⟩ := call_cases hc
      · -- a process in the queue has blocked more often than it was woken
        have hnot := hp es _ [] rfl
        rw [fifo ht, List.count_append] at hnot
        have hmem : pid ∉ s.waitQueue := by
          intro hmem
          have := List.count_pos_iff.mpr hmem
          simp only [SemCall.caller] at hnot
          omega
        exact List.Nodup.append ih (List.nodup_singleton pid) (by simpa using hmem)
      · exact ih
      · exact ih
      · rw [hq] at ih
        exact (List.nodup_cons.mp ih).2

theorem signalled_le (h : Trace B v es s) (hh : Honest es) (p : ProcessId) :
    (signalled es).count p ≤ (granted es).count p := by
  induction h with
  | new => exact le_rfl
  | @snoc es s s' c r ht hc ih =>
      have ih := ih hh.init
      rw [signalled_snoc, granted_snoc, List.count_append, List.count_append]
      cases c with
      | wait pid =>
          simp only [SemEvent.signalled, Option.toList, List.count_nil]
          omega
      | signal pid =>
          have hlt := hh es pid r [] rfl
          simp only [SemEvent.signalled, Option.toList]
          by_cases hpp : pid = p
          · subst hpp
            rw [List.count_singleton_self]
            omega
          · have h0 : [pid].count p = 0 :=
              List.count_eq_zero_of_not_mem (by simpa using Ne.symm hpp)
            omega

/-- **Counting semaphores.**  In every history of a semaphore with initial value `v` whose
signals do not overflow the count: no process waits while the count is above zero; the count is
`v` plus the signals minus the grants; the processes that blocked are woken in that order, each
once, and the others wait; processes that are patient wait at most once at a time; if processes
signal only after their own grants, at most `v` processes are between a grant and its signal;
and the next call does not panic. -/
theorem counting (h : Trace B v es s) (hv : v + (signalled es).length < U64) :
    (0 < s.count → s.waitQueue = []) ∧
      s.count + (granted es).length = v + (signalled es).length ∧
      blocked es = woken es ++ s.waitQueue ∧
      (Patient es → s.waitQueue.Nodup) ∧
      (Honest es → ∀ ps : List ProcessId, ps.Nodup →
        (∀ p ∈ ps, (signalled es).count p < (granted es).count p) → ps.length ≤ v) ∧
      ∀ c, v + (signalled (es ++ [(c, .ok)])).length < U64 → ∃ r, s.call B c = .ok r := by
  have hb := balance h hv
  refine ⟨idle h, hb, fifo h, waitQueue_nodup h, ?_, ?_⟩
  · intro hh ps hnd hps
    have := length_holders_le (signalled_le h hh) hnd hps
    omega
  · intro c hc
    cases c with
    | wait pid => exact ⟨_, rfl⟩
    | signal pid =>
        simp only [signalled_snoc, List.length_append, SemEvent.signalled, Option.toList,
          List.length_singleton] at hc
        simp only [call, signal]
        split
        · rw [B.add_eq (by omega)]
          exact ⟨_, rfl⟩
        · exact ⟨_, rfl⟩

/-- One permit: process 2 takes it, process 3 blocks, and the signal of 2 hands it over. -/
def handOver : List SemEvent := [(.wait 2, .ok), (.wait 3, .block 3), (.signal 2, .wakeUp 3)]

theorem counting_handOver : 0 + (granted handOver).length = 1 + (signalled handOver).length ∧
    blocked handOver = woken handOver ++ [] := by
  have h : Trace Build.release 1
      ([] ++ [(.wait 2, .ok)] ++ [(.wait 3, .block 3)] ++ [(.signal 2, .wakeUp 3)]) ⟨0, []⟩ :=
    .snoc (.snoc (.snoc .new rfl) rfl) rfl
  obtain ⟨-, hcount, hfifo, -⟩ := counting h (by decide)
  exact ⟨hcount, hfifo⟩

end Semaphore

/-! ### The semaphores of a set: what blocks and what is woken -/

namespace SemaphoreSet

variable {B} {sems sems' : SemaphoreSet} {key : SemaphoreId}

/-- Who blocks joins the end of the queue of its semaphore. -/
theorem wait_block {pid p : ProcessId} (h : sems.wait key pid = (.block p, sems')) :
    p = pid ∧ ∃ sem, sems key = some sem ∧ sem.count = 0 ∧
      sems' = Function.update sems key (some { sem with waitQueue := sem.waitQueue ++ [pid] }) := by
  unfold wait at h
  split at h
  · rename_i sem hsem
    unfold Semaphore.wait at h
    split_ifs at h with hzero
    · cases h
      exact ⟨rfl, sem, hsem, hzero, rfl⟩
    · cases h
  · cases h

theorem wait_other {pid : ProcessId} {res : SemaphoreResult} (h : sems.wait key pid = (res, sems'))
    (hres : ∀ p, res ≠ .block p) :
    ∀ k, (sems' k).map Semaphore.waitQueue = (sems k).map Semaphore.waitQueue := by
  intro k
  unfold wait at h
  split at h
  · rename_i sem hsem
    unfold Semaphore.wait at h
    split_ifs at h
    · cases h
      exact absurd rfl (hres pid)
    · cases h
      by_cases hk : k = key
      · subst hk
        simp [hsem]
      · simp [hk]
  · cases h
    rfl

/-- Who is woken is the first in the queue of its semaphore. -/
theorem signal_wakeUp {p : ProcessId} (h : sems.signal B key = .ok (.wakeUp p, sems')) :
    ∃ sem rest, sems key = some sem ∧ sem.waitQueue = p :: rest ∧
      sems' = Function.update sems key (some { sem with waitQueue := rest }) := by
  unfold signal at h
  split at h
  · rename_i sem hsem
    simp only [bind_eq_ok, pure_eq_ok] at h
    obtain ⟨⟨res, sem'⟩, hsig, h⟩ := h
    unfold Semaphore.signal at hsig
    split at hsig
    · simp only [bind_eq_ok, pure_eq_ok] at hsig
      obtain ⟨n, -, hsig⟩ := hsig
      cases hsig
      cases h
    · rename_i p' rest hq
      cases hsig
      cases h
      exact ⟨sem, rest, hsem, hq, rfl⟩
  · cases h

theorem signal_other {res : SemaphoreResult} (h : sems.signal B key = .ok (res, sems'))
    (hres : ∀ p, res ≠ .wakeUp p) :
    ∀ k, (sems' k).map Semaphore.waitQueue = (sems k).map Semaphore.waitQueue := by
  intro k
  unfold signal at h
  split at h
  · rename_i sem hsem
    simp only [bind_eq_ok, pure_eq_ok] at h
    obtain ⟨⟨res', sem'⟩, hsig, h⟩ := h
    unfold Semaphore.signal at hsig
    split at hsig
    · rename_i hq
      simp only [bind_eq_ok, pure_eq_ok] at hsig
      obtain ⟨n, -, hsig⟩ := hsig
      cases hsig
      cases h
      by_cases hk : k = key
      · subst hk
        simp [hsem]
      · simp [hk]
    · cases hsig
      cases h
      exact absurd rfl (hres _)
  · cases h
    rfl

end SemaphoreSet

end Ysos
