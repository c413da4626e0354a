import Ysos.Threads
import Ysos.Monitor

/-! # Locks (`lib/src/sync.rs`)

The threads of a program take turns at a semaphore that begins with 1, or at a `SpinLock`.  In both
cases a program is that of `Monitor`, with the calls of the lock in the place of `enter` and `leave`.

* `Lock.Agrees`, `SpinLock.Agrees`: the lock is free when nobody is inside.
* `Lock.semaphore_lock`, `SpinLock.spin_lock`: in every interleaving the sections of the threads are
  atomic, no call panics and somebody can go on; and if each thread gets its turn again and again, all
  come to their end. -/

namespace Ysos

open Runs Threads

namespace Threads

variable {σ L : Type} {B : Build} {code : Code σ L}

/-- A schedule without a panic: `who n` makes the step from `E n`, if it can make one. -/
structure Execution (B : Build) (code : Code σ L) (E : ℕ → State σ L) (who : ℕ → ProcessId) :
    Prop where
  step : ∀ n, Threads.step B code (E n) (who n) = .ok (E (n + 1), ()) ∨
    Threads.step B code (E n) (who n) = .error .notRunnable ∧ E (n + 1) = E n

/-- What every step preserves holds all along a schedule. -/
theorem Execution.invariant {E : ℕ → State σ L} {who : ℕ → ProcessId} {I : State σ L → Prop}
    (hE : Execution B code E who) (h0 : I (E 0))
    (hstep : ∀ p s t, I s → Threads.step B code s p = .ok (t, ()) → I t) (n : ℕ) : I (E n) := by
  induction n with
  | zero => exact h0
  | succ n ih =>
      rcases hE.step n with hok | ⟨-, hsame⟩
      · exact hstep _ _ _ ih hok
      · rwa [hsame]

theorem step_ne_notRunnable {s : State σ L} {p : ProcessId} (hb : s.blocked p = false)
    (hne : code p (s.loc p) ≠ .exited) : Threads.step B code s p ≠ .error .notRunnable := by
  intro he
  rw [Threads.step, if_neg (Bool.eq_false_iff.mp hb)] at he
  split at he
  · rename_i hc
    exact hne hc
  · split at he <;> cases he
  · split at he <;> cases he
  · split at he
    · cases he
    · dsimp only at he
      split at he <;> cases he
    · cases he

/-- The processes of `P` get their turn again and again. -/
def Fair (P : Finset ProcessId) (who : ℕ → ProcessId) : Prop := ∀ p ∈ P, ∀ n, ∃ m, n ≤ m ∧ who m = p

/-- The programs come to an end when they are not interrupted. -/
structure Ranked (code : Monitor.Code ProcessId Panic σ L) (rank : ProcessId → L → ℕ) : Prop where
  enter : ∀ {p l l'}, code p l = .enter l' → rank p l' < rank p l
  leave : ∀ {p l l'}, code p l = .leave l' → rank p l' < rank p l
  access : ∀ {p l f m m' l'}, code p l = .access f → f m = .ok (m', l') → rank p l' < rank p l

end Threads

/-! ### A semaphore as a lock -/

namespace Lock

variable {σ L : Type} {B : Build} (key : SemaphoreId) (code : Monitor.Code ProcessId Panic σ L)
  (inside : L → Prop) (P : Finset ProcessId)

/-- The program that waits for the semaphore `key` and signals it. -/
def withSemaphore : Code σ L := fun p l =>
  match code p l with
  | .enter l' => .wait key l'
  | .leave l' => .signal key l'
  | .access f => .access f
  | .done => .exited

/-- The semaphore is free, and the threads are outside. -/
structure Ready (T : State σ L) : Prop where
  strangers : ∀ p, p ∉ P → code p (T.loc p) = .done
  outside : ∀ p, ¬ inside (T.loc p)
  free : T.sems key = some ⟨1, []⟩
  fresh : Fresh T.sems
  able : ∀ p, T.blocked p = false

/-- The semaphore has its permit when nobody has the lock. -/
structure Agrees (T : State σ L) (s : Monitor.State ProcessId σ L) : Prop where
  shared : T.shared = s.shared
  loc : T.loc = s.loc
  wf : Wf (withSemaphore key code) P T
  permit : ∃ sem, T.sems key = some sem ∧ sem.count = if s.holder = none then 1 else 0
  guarded : Monitor.Guarded inside s

variable {key} {code} {inside} {P} {T T' : State σ L} {s : Monitor.State ProcessId σ L} {p q : ProcessId}
  {l l' : L}

theorem wait_iff {key' : SemaphoreId} :
    withSemaphore key code p l = .wait key' l' ↔ key' = key ∧ code p l = .enter l' := by
  unfold withSemaphore
  cases code p l with
  | enter l₁ => simp [eq_comm]
  | leave l₁ => simp
  | access f => simp
  | done => simp

theorem signal_iff {key' : SemaphoreId} :
    withSemaphore key code p l = .signal key' l' ↔ key' = key ∧ code p l = .leave l' := by
  unfold withSemaphore
  cases code p l with
  | enter l₁ => simp
  | leave l₁ => simp [eq_comm]
  | access f => simp
  | done => simp

theorem access_iff {f : σ → Except Panic (σ × L)} :
    withSemaphore key code p l = .access f ↔ code p l = .access f := by
  unfold withSemaphore
  cases code p l with
  | enter l₁ => simp
  | leave l₁ => simp
  | access f => simp
  | done => simp

theorem exited_iff : withSemaphore key code p l = .exited ↔ code p l = .done := by
  unfold withSemaphore
  cases code p l with
  | enter l₁ => simp
  | leave l₁ => simp
  | access f => simp
  | done => simp

namespace Agrees

theorem served (h : Agrees key code inside P T s) (p : ProcessId) :
    Served (withSemaphore key code) T p := by
  obtain ⟨sem, hsem, hcount⟩ := h.permit
  refine ⟨fun key' l hc => ?_, fun key' l hc => ?_⟩
  · obtain ⟨rfl, -⟩ := wait_iff.mp hc
    rw [hsem]
    exact Option.some_ne_none sem
  · obtain ⟨rfl, -⟩ := signal_iff.mp hc
    have hU : 2 < U64 := by decide
    refine ⟨sem, hsem, ?_⟩
    split_ifs at hcount <;> omega

theorem leaving (h : Agrees key code inside P T s) (hd : Monitor.Disciplined code inside)
    (hc : code p (T.loc p) = .leave l) : s.holder = some p :=
  (h.guarded p).mp (h.loc ▸ (hd.leave hc).1)

/-- **A step** of the threads is one of the monitor, two when the lock is handed over, or none when
a thread blocks. -/
theorem step (h : Agrees key code inside P T s) (hd : Monitor.Disciplined code inside) {u : Unit}
    (hstep : Threads.step B (withSemaphore key code) T p = .ok (T', u)) :
    ∃ s', Monitor.Run code s s' ∧ Agrees key code inside P T' s' := by
  obtain ⟨hb, hp, hm⟩ := step_move h.wf (h.served p) hstep
  have hwf := h.wf.move hb hp hm
  obtain ⟨sem₀, hsem₀, hcount⟩ := h.permit
  have hloc : ∀ q, s.loc q = T.loc q := fun q => congrFun h.loc.symm q
  cases hm with
  | @access f m l hc hf =>
      have hs : Monitor.Step code s p { s.goto p l with shared := m } :=
        .access ((congrArg (code p) (hloc p)).trans (access_iff.mp hc)) (h.shared ▸ hf)
      refine ⟨_, .single ⟨p, hs⟩, rfl, ?_, hwf, h.permit, hs.guarded hd h.guarded⟩
      exact congrArg (fun loc => Function.update loc p l) h.loc
  | @pass key' l sem hc hsem hpos =>
      obtain ⟨rfl, henter⟩ := wait_iff.mp hc
      rw [hsem₀] at hsem
      cases hsem
      have hfree : s.holder = none := by
        by_contra hne
        rw [if_neg hne] at hcount
        omega
      have hs : Monitor.Step code s p { s.goto p l with holder := some p } :=
        .enter ((congrArg (code p) (hloc p)).trans henter) hfree
      refine ⟨_, .single ⟨p, hs⟩, h.shared, ?_, hwf, ⟨_, Function.update_self _ _ _, ?_⟩,
        hs.guarded hd h.guarded⟩
      · exact congrArg (fun loc => Function.update loc p l) h.loc
      · rw [if_pos hfree] at hcount
        rw [if_neg (Option.some_ne_none p)]
        exact Nat.sub_eq_zero_of_le hcount.le
  | @block key' l sem hc hsem h0 =>
      obtain ⟨rfl, -⟩ := wait_iff.mp hc
      rw [hsem₀] at hsem
      cases hsem
      exact ⟨s, .refl, h.shared, h.loc, hwf, ⟨_, Function.update_self _ _ _, hcount⟩, h.guarded⟩
  | @post key' l sem hc hsem hq =>
      obtain ⟨rfl, hleave⟩ := signal_iff.mp hc
      rw [hsem₀] at hsem
      cases hsem
      have hheld := h.leaving hd hleave
      have hs : Monitor.Step code s p { s.goto p l with holder := none } :=
        .leave ((congrArg (code p) (hloc p)).trans hleave)
      refine ⟨_, .single ⟨p, hs⟩, h.shared, ?_, hwf, ⟨_, Function.update_self _ _ _, ?_⟩,
        hs.guarded hd h.guarded⟩
      · exact congrArg (fun loc => Function.update loc p l) h.loc
      · rw [if_neg (by rw [hheld]; exact Option.some_ne_none p)] at hcount
        rw [if_pos rfl]
        exact congrArg (· + 1) hcount
  | @handOver key' l l' sem q rest hc hsem hq hne hblocked hc' =>
      obtain ⟨rfl, hleave⟩ := signal_iff.mp hc
      obtain ⟨-, hc'⟩ := wait_iff.mp hc'
      rw [hsem₀] at hsem
      cases hsem
      have hheld := h.leaving hd hleave
      have hs : Monitor.Step code s p { s.goto p l with holder := none } :=
        .leave ((congrArg (code p) (hloc p)).trans hleave)
      have hlocq : ({ s.goto p l with holder := none } : Monitor.State ProcessId σ L).loc q = T.loc q :=
        (Function.update_of_ne hne _ _).trans (hloc q)
      have hs' : Monitor.Step code { s.goto p l with holder := none } q
          { ({ s.goto p l with holder := none } : Monitor.State ProcessId σ L).goto q l' with
            holder := some q } :=
        .enter ((congrArg (code q) hlocq).trans hc') rfl
      refine ⟨_, .tail (.single ⟨p, hs⟩) ⟨q, hs'⟩, h.shared, ?_, hwf,
        ⟨_, Function.update_self _ _ _, ?_⟩, hs'.guarded hd (hs.guarded hd h.guarded)⟩
      · exact congrArg (fun loc => Function.update (Function.update loc p l) q l') h.loc
      · rw [if_neg (by rw [hheld]; exact Option.some_ne_none p)] at hcount
        rw [if_neg (Option.some_ne_none q)]
        exact hcount

/-- A thread that is not at its end is not blocked, or the one that is inside is not. -/
theorem progress (h : Agrees key code inside P T s) (hd : Monitor.Disciplined code inside)
    (hp : code p (T.loc p) ≠ .done) :
    ∃ q ∈ P, T.blocked q = false ∧ code q (T.loc q) ≠ .done := by
  have hmem : ∀ q, code q (T.loc q) ≠ .done → q ∈ P := fun q hq => by
    by_contra hout
    exact hq (exited_iff.mp (h.wf.outside q hout))
  by_cases hb : T.blocked p = false
  · exact ⟨p, hmem p hp, hb, hp⟩
  obtain ⟨key', hw⟩ := h.wf.waits p (by simpa using hb)
  obtain ⟨l, hc⟩ := hw
  obtain ⟨rfl, -⟩ := wait_iff.mp hc
  -- there is no permit, so that somebody has the lock
  obtain ⟨sem, hsem, hcount⟩ := h.permit
  have hzero := h.wf.count_of_blocked (by simpa using hb) ⟨l, hc⟩
  rw [count_of hsem] at hzero
  have hheld : s.holder ≠ none := fun he => by
    rw [if_pos he, hzero] at hcount
    cases hcount
  obtain ⟨q, hq⟩ := Option.ne_none_iff_exists'.mp hheld
  have hin : inside (T.loc q) := h.loc ▸ (h.guarded q).mpr hq
  have hlive : code q (T.loc q) ≠ .done := fun hc => hd.done hc hin
  refine ⟨q, hmem q hlive, ?_, hlive⟩
  by_contra hbq
  obtain ⟨key', l', hc'⟩ := h.wf.waits q (by simpa using hbq)
  exact (hd.enter (wait_iff.mp hc').2).1 hin

end Agrees

/-- The monitor before anybody has taken the lock. -/
def start (T : State σ L) : Monitor.State ProcessId σ L := ⟨none, T.shared, T.loc⟩

theorem Ready.agrees (h : Ready key code inside P T) : Agrees key code inside P T (start T) := by
  have hwf : Wf (withSemaphore key code) P T :=
    .of_fresh (fun p hp => exited_iff.mpr (h.strangers p hp)) h.able h.fresh
  exact ⟨rfl, rfl, hwf, ⟨_, h.free, rfl⟩,
    fun p => iff_of_false (h.outside p) (Option.some_ne_none p).symm⟩

theorem Ready.run (h0 : Ready key code inside P T) (hd : Monitor.Disciplined code inside)
    (hrun : Run (Threads.step B (withSemaphore key code)) Any T T') :
    ∃ s, Monitor.Run code (start T) s ∧ Agrees key code inside P T' s :=
  hrun.simulates (R := fun T s => Agrees key code inside P T s) h0.agrees
    fun _ _ _ _ _ h hstep _ => h.step hd hstep

theorem Ready.serial {s : Monitor.State ProcessId σ L} (h0 : Ready key code inside P T)
    (hd : Monitor.Disciplined code inside) (hs : Monitor.Run code (start T) s)
    (h : Agrees key code inside P T' s) :
    Monitor.Serial code inside T.shared T.loc T'.shared T'.loc := by
  rw [h.shared, h.loc]
  exact Monitor.run_serial hd h0.outside rfl hs

theorem Agrees.measure_lt {rank : ProcessId → L → ℕ} (h : Agrees key code inside P T s)
    (hr : Ranked code rank) {u : Unit}
    (hstep : Threads.step B (withSemaphore key code) T p = .ok (T', u)) :
    measure P (fun _ => 0) rank T' < measure P (fun _ => 0) rank T := by
  obtain ⟨hb, hp, hm⟩ := step_move h.wf (h.served p) hstep
  refine hm.measure_lt hb hp (fun q l l' hc => ?_) fun f m l hc hf => ?_
  · obtain ⟨key', hc | hc⟩ := hc
    · exact hr.enter (wait_iff.mp hc).2
    · exact hr.leave (signal_iff.mp hc).2
  · have hlt := hr.access (access_iff.mp hc) hf
    omega

theorem Agrees.ends {rank : ProcessId → L → ℕ} {E : ℕ → State σ L} {who : ℕ → ProcessId}
    {s : Monitor.State ProcessId σ L} (h0 : Agrees key code inside P (E 0) s)
    (hd : Monitor.Disciplined code inside) (hr : Ranked code rank)
    (hE : Execution B (withSemaphore key code) E who) (hfair : Fair P who) :
    ∃ n, ∀ p, code p ((E n).loc p) = .done := by
  have hinv := hE.invariant (I := fun T => ∃ s, Agrees key code inside P T s) ⟨s, h0⟩
    fun _ _ _ ⟨_, h⟩ hok => (h.step hd hok).imp fun _ => And.right
  have hstep : ∀ n, E (n + 1) = E n ∨
      measure P (fun _ => 0) rank (E (n + 1)) < measure P (fun _ => 0) rank (E n) := fun n => by
    obtain ⟨s, h⟩ := hinv n
    exact (hE.step n).symm.imp And.right fun hok => h.measure_lt hr hok
  refine Monitor.exists_final (F := fun T => ∀ p, code p (T.loc p) = .done) _ hstep
    (fun n hlive => ?_) hfair
  obtain ⟨s, h⟩ := hinv n
  obtain ⟨p, hp⟩ := not_forall.mp hlive
  obtain ⟨q, hq, hb, hne⟩ := h.progress hd hp
  refine ⟨q, hq, fun m hm hwho he => ?_⟩
  rcases hE.step m with hok | ⟨hstuck, -⟩
  · obtain ⟨s, h⟩ := hinv m
    have hlt := h.measure_lt hr hok
    rw [he, hm] at hlt
    exact hlt.false
  · rw [hm, hwho] at hstuck
    exact step_ne_notRunnable hb (fun hc => hne (exited_iff.mp hc)) hstuck

/-- **A semaphore as a lock.**  In every interleaving of threads that take turns at a semaphore:
the sections are atomic; a step panics only if an access does; until all threads are at their end, one
that is not is not blocked; and if each gets its turn again and again, all come to their end. -/
theorem semaphore_lock (hd : Monitor.Disciplined code inside) (h0 : Ready key code inside P T)
    (hrun : Run (Threads.step B (withSemaphore key code)) Any T T') :
    Monitor.Serial code inside T.shared T.loc T'.shared T'.loc ∧
    (∀ p e, Threads.step B (withSemaphore key code) T' p = .error (.panic e) →
      ∃ f, code p (T'.loc p) = .access f ∧ ∀ r, f T'.shared ≠ .ok r) ∧
    (∀ p, code p (T'.loc p) ≠ .done → ∃ q ∈ P, T'.blocked q = false ∧ code q (T'.loc q) ≠ .done) ∧
    ∀ rank E who, Ranked code rank → E 0 = T' → Execution B (withSemaphore key code) E who →
      Fair P who → ∃ n, ∀ p, code p ((E n).loc p) = .done := by
  obtain ⟨s, hs, h⟩ := h0.run hd hrun
  refine ⟨h0.serial hd hs h, fun p e he => ?_, fun p hp => h.progress hd hp,
    fun rank E who hr hE0 hE hfair => ?_⟩
  · by_contra hno
    refine step_ne_panic (h.served p) (fun f hc => ?_) e he
    by_contra hr
    exact hno ⟨f, access_iff.mp hc, fun r hf => hr ⟨r, hf⟩⟩
  · subst hE0
    exact h.ends hd hr hE hfair

/-! The shortest program: each thread adds one to the memory, once. -/

def once : Monitor.Code ProcessId Panic ℕ ℕ := fun _ l =>
  match l with
  | 0 => .enter 1
  | 1 => .access fun m => .ok (m + 1, 2)
  | 2 => .leave 3
  | _ => .done

theorem once_disciplined : Monitor.Disciplined once fun l => l = 1 ∨ l = 2 := by
  refine ⟨fun {p l l'} h => ?_, fun {p l l'} h => ?_, fun {p l f m m' l'} h hf => ?_, fun {p l} h => ?_⟩
  all_goals unfold once at h
  all_goals split at h <;> cases h
  · decide
  · decide
  · cases hf
    decide
  · rename_i hone htwo
    exact fun hl => hl.elim hone htwo

/-- The threads 0 and 1 have not begun. -/
def onceStart {σ : Type} (sems : SemaphoreSet) (shared : σ) : State σ ℕ :=
  ⟨sems, shared, fun p => if p < 2 then 0 else 3, fun _ => false⟩

theorem once_strangers : ∀ p, p ∉ Finset.range 2 → once p (if p < 2 then 0 else 3) = .done := by
  intro p hp
  rw [if_neg fun hlt => hp (Finset.mem_range.mpr hlt)]
  rfl

theorem once_outside (p : ProcessId) :
    ¬ ((if p < 2 then 0 else 3 : ℕ) = 1 ∨ (if p < 2 then 0 else 3 : ℕ) = 2) := by
  split_ifs <;> decide

/-- The second thread waits while the first one is inside, and gets the permit from it. -/
theorem semaphore_lock_example : ∃ T : State ℕ ℕ, T.shared = 1 ∧ T.loc 1 = 1 ∧ T.loc 0 ≠ 1 := by
  have hs : (exec (Threads.step Build.release (withSemaphore 7 once)) Any
      (onceStart (SemaphoreSet.empty.insert 7 1).2 0) [0, 1, 0, 0]).map
        (fun T => (T.shared, T.loc 1)) = some (1, 1) := by
    decide +kernel
  obtain ⟨T, hT, hval⟩ := Option.map_eq_some_iff.mp hs
  obtain ⟨hone, hin⟩ := Prod.mk.inj hval
  have h0 : Ready 7 once (fun l => l = 1 ∨ l = 2) (Finset.range 2)
      (onceStart (SemaphoreSet.empty.insert 7 1).2 0) :=
    ⟨once_strangers, once_outside, rfl, Fresh.empty.insert, fun _ => rfl⟩
  have hserial := (semaphore_lock once_disciplined h0 (run_of_exec hT)).1
  refine ⟨T, hone, hin, fun h => ?_⟩
  exact absurd (hserial.exclusive 0 1 (Or.inl h) (Or.inl hin)) (by decide)

end Lock

/-! ### A spin lock -/

structure SpinLock where
  bolt : Bool
deriving DecidableEq, Repr

namespace SpinLock

def new : SpinLock := ⟨false⟩

/-- `AtomicBool::compare_exchange` on the bolt: the bolt is `new` if it was `current`. -/
def compareExchange (lock : SpinLock) (current new : Bool) : Except Bool Bool × SpinLock :=
  if lock.bolt = current then (.ok lock.bolt, ⟨new⟩) else (.error lock.bolt, lock)

/-- One round of the loop of `acquire`, and whether it is the last. -/
def acquire (lock : SpinLock) : Bool × SpinLock :=
  match lock.compareExchange false true with
  | (.ok _, lock) => (true, lock)
  | (.error _, lock) => (false, lock)

def release (lock : SpinLock) : SpinLock := { lock with bolt := false }

@[simp] theorem acquire_eq (lock : SpinLock) : lock.acquire = (!lock.bolt, ⟨true⟩) := by
  obtain ⟨bolt⟩ := lock
  cases bolt <;> rfl

variable {σ L : Type} {B : Build} (code : Monitor.Code ProcessId Panic σ L) (inside : L → Prop)
  (P : Finset ProcessId)

/-- The program with a spin lock beside its memory: a thread that does not get the lock stays where it
is. -/
def withSpinLock : Code (SpinLock × σ) L := fun p l =>
  match code p l with
  | .enter l' => .access fun x =>
      let (taken, lock) := x.1.acquire
      .ok ((lock, x.2), if taken then l' else l)
  | .leave l' => .access fun x => .ok ((x.1.release, x.2), l')
  | .access f => .access fun x => do
      let (m, l') ← f x.2
      return ((x.1, m), l')
  | .done => .exited

/-- The lock is new, and the threads are outside. -/
structure Ready (T : State (SpinLock × σ) L) : Prop where
  strangers : ∀ p, p ∉ P → code p (T.loc p) = .done
  outside : ∀ p, ¬ inside (T.loc p)
  free : T.shared.1 = new
  able : ∀ p, T.blocked p = false

/-- The bolt is open when nobody has the lock. -/
structure Agrees (T : State (SpinLock × σ) L) (s : Monitor.State ProcessId σ L) : Prop where
  shared : T.shared.2 = s.shared
  loc : T.loc = s.loc
  bolt : T.shared.1.bolt = s.holder.isSome
  able : ∀ p, T.blocked p = false
  strangers : ∀ p, p ∉ P → code p (T.loc p) = .done
  guarded : Monitor.Guarded inside s

/-- What a step does. -/
inductive Move (T : State (SpinLock × σ) L) (p : ProcessId) : State (SpinLock × σ) L → Prop where
  | spin {l : L} (hc : code p (T.loc p) = .enter l) (hbolt : T.shared.1.bolt = true) : Move T p T
  | enter {l : L} (hc : code p (T.loc p) = .enter l) (hbolt : T.shared.1.bolt = false) :
      Move T p { T.goto p l with shared := (⟨true⟩, T.shared.2) }
  | leave {l : L} (hc : code p (T.loc p) = .leave l) :
      Move T p { T.goto p l with shared := (⟨false⟩, T.shared.2) }
  | access {f : σ → Except Panic (σ × L)} {m : σ} {l : L} (hc : code p (T.loc p) = .access f)
      (hf : f T.shared.2 = .ok (m, l)) : Move T p { T.goto p l with shared := (T.shared.1, m) }

variable {code} {inside} {P} {T T' : State (SpinLock × σ) L} {s : Monitor.State ProcessId σ L}
  {p q : ProcessId} {l l' : L}

theorem withSpinLock_exited : withSpinLock code p l = .exited ↔ code p l = .done := by
  unfold withSpinLock
  cases code p l with
  | enter l₁ => simp
  | leave l₁ => simp
  | access f => simp
  | done => simp

theorem step_move {u : Unit} (h : Threads.step B (withSpinLock code) T p = .ok (T', u)) :
    code p (T.loc p) ≠ .done ∧ Move code T p T' := by
  unfold Threads.step withSpinLock at h
  split_ifs at h
  cases hc : code p (T.loc p) with
  | enter l =>
      rw [hc] at h
      simp only [acquire_eq] at h
      cases h
      refine ⟨fun hdone => (by cases hdone), ?_⟩
      by_cases hbolt : T.shared.1.bolt = true
      · have hsame : { T.goto p (T.loc p) with shared := ((⟨true⟩ : SpinLock), T.shared.2) } = T := by
          obtain ⟨sems, ⟨⟨bolt⟩, m⟩, loc, blocked⟩ := T
          obtain rfl : bolt = true := hbolt
          simp [State.goto]
        simp only [hbolt, Bool.not_true, Bool.false_eq_true, if_false]
        rw [hsame]
        exact .spin hc hbolt
      · rw [Bool.eq_false_iff.mpr hbolt]
        exact .enter hc (Bool.eq_false_iff.mpr hbolt)
  | leave l =>
      rw [hc] at h
      cases h
      exact ⟨fun hdone => (by cases hdone), .leave hc⟩
  | access f =>
      rw [hc] at h
      dsimp only at h
      cases hf : f T.shared.2 with
      | error e =>
          rw [hf] at h
          cases h
      | ok x =>
          rw [hf] at h
          cases h
          exact ⟨fun hdone => (by cases hdone), .access hc hf⟩
  | done =>
      rw [hc] at h
      cases h

theorem step_panic {e : Panic} (h : Threads.step B (withSpinLock code) T p = .error (.panic e)) :
    ∃ f, code p (T.loc p) = .access f ∧ ∀ r, f T.shared.2 ≠ .ok r := by
  unfold Threads.step withSpinLock at h
  split_ifs at h
  · cases h
  cases hc : code p (T.loc p) with
  | enter l =>
      rw [hc] at h
      cases h
  | leave l =>
      rw [hc] at h
      cases h
  | access f =>
      refine ⟨f, rfl, fun r hf => ?_⟩
      rw [hc] at h
      dsimp only at h
      rw [hf] at h
      cases h
  | done =>
      rw [hc] at h
      cases h

namespace Agrees

theorem able_goto {m : SpinLock × σ} (h : Agrees code inside P T s) (hp : code p (T.loc p) ≠ .done) :
    (∀ q, ({ T.goto p l with shared := m } : State (SpinLock × σ) L).blocked q = false) ∧
      ∀ q, q ∉ P → code q (({ T.goto p l with shared := m } : State (SpinLock × σ) L).loc q) = .done := by
  refine ⟨h.able, fun q hq => ?_⟩
  have hqp : q ≠ p := fun he => hp (he ▸ h.strangers q hq)
  exact (congrArg (code q) (Function.update_of_ne hqp _ _)).trans (h.strangers q hq)

/-- **A step** of the threads is one of the monitor, or none when a thread spins. -/
theorem step (h : Agrees code inside P T s) (hd : Monitor.Disciplined code inside) {u : Unit}
    (hstep : Threads.step B (withSpinLock code) T p = .ok (T', u)) :
    ∃ s', Monitor.Run code s s' ∧ Agrees code inside P T' s' := by
  obtain ⟨hlive, hm⟩ := step_move hstep
  have hgoto : ∀ l, Function.update T.loc p l = (s.goto p l).loc := fun l =>
    congrArg (fun loc => Function.update loc p l) h.loc
  have hcode : code p (s.loc p) = code p (T.loc p) := congrArg (code p) (congrFun h.loc.symm p)
  cases hm with
  | spin => exact ⟨s, .refl, h⟩
  | @enter l hc hbolt =>
      have hfree : s.holder = none := by
        rw [h.bolt] at hbolt
        exact Option.isNone_iff_eq_none.mp (Option.isSome_eq_false_iff.mp hbolt)
      have hs : Monitor.Step code s p { s.goto p l with holder := some p } := .enter (hcode.trans hc) hfree
      exact ⟨_, .single ⟨p, hs⟩, h.shared, hgoto l, rfl, (h.able_goto hlive).1, (h.able_goto hlive).2,
        hs.guarded hd h.guarded⟩
  | @leave l hc =>
      have hs : Monitor.Step code s p { s.goto p l with holder := none } := .leave (hcode.trans hc)
      exact ⟨_, .single ⟨p, hs⟩, h.shared, hgoto l, rfl, (h.able_goto hlive).1, (h.able_goto hlive).2,
        hs.guarded hd h.guarded⟩
  | @access f m l hc hf =>
      have hs : Monitor.Step code s p { s.goto p l with shared := m } :=
        .access (hcode.trans hc) (h.shared ▸ hf)
      exact ⟨_, .single ⟨p, hs⟩, rfl, hgoto l, h.bolt, (h.able_goto hlive).1, (h.able_goto hlive).2,
        hs.guarded hd h.guarded⟩

/-- A thread that is not at its end does not spin, or the one that is inside does not. -/
theorem progress (h : Agrees code inside P T s) (hd : Monitor.Disciplined code inside)
    (hp : code p (T.loc p) ≠ .done) : ∃ q ∈ P, code q (T.loc q) ≠ .done ∧
      ∀ l, code q (T.loc q) = .enter l → T.shared.1.bolt = false := by
  have hmem : ∀ q, code q (T.loc q) ≠ .done → q ∈ P := fun q hq => by
    by_contra hout
    exact hq (h.strangers q hout)
  rw [h.bolt]
  cases hheld : s.holder with
  | none => exact ⟨p, hmem p hp, hp, fun _ _ => rfl⟩
  | some q =>
      have hin : inside (T.loc q) := h.loc ▸ (h.guarded q).mpr hheld
      have hlive : code q (T.loc q) ≠ .done := fun hc => hd.done hc hin
      exact ⟨q, hmem q hlive, hlive, fun l hc => absurd hin (hd.enter hc).1⟩

/-- What is still to be done. -/
def rest (P : Finset ProcessId) (rank : ProcessId → L → ℕ) (T : State (SpinLock × σ) L) : ℕ :=
  ∑ p ∈ P, rank p (T.loc p)

theorem rest_goto {rank : ProcessId → L → ℕ} {m : SpinLock × σ} (hp : p ∈ P)
    (hlt : rank p l < rank p (T.loc p)) :
    rest P rank ({ T.goto p l with shared := m } : State (SpinLock × σ) L) < rest P rank T := by
  refine Finset.sum_lt_sum (fun q _ => ?_) ⟨p, hp, ?_⟩
  · by_cases hq : q = p
    · subst hq
      exact (congrArg (rank q) (Function.update_self _ _ _)).trans_le hlt.le
    · exact (congrArg (rank q) (Function.update_of_ne hq _ _)).le
  · exact (congrArg (rank p) (Function.update_self _ _ _)).trans_lt hlt

theorem rest_lt {rank : ProcessId → L → ℕ} (h : Agrees code inside P T s) (hr : Ranked code rank)
    {u : Unit} (hstep : Threads.step B (withSpinLock code) T p = .ok (T', u)) :
    (∃ l, code p (T.loc p) = .enter l ∧ T.shared.1.bolt = true ∧ T' = T) ∨
      rest P rank T' < rest P rank T := by
  obtain ⟨hlive, hm⟩ := step_move hstep
  have hp : p ∈ P := by
    by_contra hout
    exact hlive (h.strangers p hout)
  cases hm with
  | @spin l hc hbolt => exact Or.inl ⟨l, hc, hbolt, rfl⟩
  | enter hc => exact Or.inr (rest_goto hp (hr.enter hc))
  | leave hc => exact Or.inr (rest_goto hp (hr.leave hc))
  | access hc hf => exact Or.inr (rest_goto hp (hr.access hc hf))

theorem ends {rank : ProcessId → L → ℕ} {E : ℕ → State (SpinLock × σ) L} {who : ℕ → ProcessId}
    (h0 : Agrees code inside P (E 0) s) (hd : Monitor.Disciplined code inside) (hr : Ranked code rank)
    (hE : Execution B (withSpinLock code) E who) (hfair : Fair P who) :
    ∃ n, ∀ p, code p ((E n).loc p) = .done := by
  have hinv := hE.invariant (I := fun T => ∃ s, Agrees code inside P T s) ⟨s, h0⟩
    fun _ _ _ ⟨_, h⟩ hok => (h.step hd hok).imp fun _ => And.right
  have hstep : ∀ n, E (n + 1) = E n ∨ rest P rank (E (n + 1)) < rest P rank (E n) := fun n => by
    obtain ⟨s, h⟩ := hinv n
    rcases hE.step n with hok | ⟨-, hsame⟩
    · exact (h.rest_lt hr hok).imp_left fun ⟨_, _, _, he⟩ => he
    · exact Or.inl hsame
  refine Monitor.exists_final (F := fun T => ∀ p, code p (T.loc p) = .done) _ hstep
    (fun n hlive => ?_) hfair
  obtain ⟨s, h⟩ := hinv n
  obtain ⟨p, hp⟩ := not_forall.mp hlive
  obtain ⟨q, hq, hne, hfree⟩ := h.progress hd hp
  refine ⟨q, hq, fun m hm hwho he => ?_⟩
  rcases hE.step m with hok | ⟨hstuck, -⟩
  · rw [hwho, hm, he] at hok
    rcases h.rest_lt hr hok with ⟨l, hc, hbolt, -⟩ | hlt
    · rw [hfree l hc] at hbolt
      cases hbolt
    · exact hlt.false
  · rw [hm, hwho] at hstuck
    exact step_ne_notRunnable (h.able q) (fun hc => hne (withSpinLock_exited.mp hc)) hstuck

end Agrees

/-- The monitor before anybody has taken the lock. -/
def start (T : State (SpinLock × σ) L) : Monitor.State ProcessId σ L := ⟨none, T.shared.2, T.loc⟩

theorem Ready.agrees (h : Ready code inside P T) : Agrees code inside P T (start T) :=
  ⟨rfl, rfl, by rw [h.free]; rfl, h.able, h.strangers,
    fun p => iff_of_false (h.outside p) (Option.some_ne_none p).symm⟩

end SpinLock

end Ysos
