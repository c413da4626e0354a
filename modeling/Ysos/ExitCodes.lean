import Ysos.Contexts

/-! # Exit codes

`kill` stores the exit code of a process without asking whether it has one already.

* `Table.Step.setsCode`: a call changes the exit code of the process that it kills only.
* `Table.Once`: the calls that do not replace an exit code by another one.
* `exit_codes_once`: in runs of such calls an exit code stays, and all who wait for the process get
  it. -/

namespace Ysos

open Runs

namespace Table

variable {t u v : Table} {p : ProcessId} {c c' : ProcessContext} {call : Call} {ret : Int64}

/-- The code that a call stores in the process it kills. -/
def code : Op → Int64
  | .processExit ret => ret
  | _ => 0xdead

/-- The call does not replace the exit code of the process that it kills by another one. -/
def Once (t : Table) (op : Op) : Prop := ∀ p, t.Kills p op → ∀ ret ∈ t.exitCode p, ret = code op

instance (t : Table) : ∀ op : Op, Decidable (t.Once op)
  | .processExit ret => decidable_of_iff ((t.exitCode t.processor).all (· = ret))
      (by simp [Once, Kills, code, Option.all_eq_true])
  | .kill pid => decidable_of_iff ((t.exitCode pid).all (· = 0xdead))
      (by simp [Once, Kills, code, Option.all_eq_true])
  | .switch | .spawn _ | .waitPid _ | .vfork | .semNew _ _ | .removeSem _ | .semWait _ | .semSignal _
  | .brk _ | .pageFault _ _ => isTrue fun _ h => h.elim

theorem exitCode_create {e : Entry} (h : v.Keyed) (hp : p ≠ v.nextPid) :
    (v.create e).exitCode p = v.exitCode p := by
  unfold exitCode
  rw [create_processes, Function.update_of_ne hp]
  rcases hr : v.processes p with _ | r
  · rfl
  · rw [Option.bind_some, Option.bind_some, create_proc_old (h p r hr).1]

/-- A call may set the exit code of a process that it kills; the others keep theirs. -/
def SetsCode (t : Table) (p : ProcessId) (op : Op) (u : Table) : Prop :=
  ¬ t.Kills p op ∧ u.exitCode p = t.exitCode p ∨
    t.Kills p op ∧ ((t.processes p = none ∧ u.exitCode p = none) ∨ u.exitCode p = some (code op))

variable {op : Op}

theorem SetsCode.same (hop : ¬ t.Kills p op) (h : t.SameWaits u) : t.SetsCode p op u :=
  Or.inl ⟨hop, h.exitCode p⟩

theorem SetsCode.trans (h : t.SetsCode p op u) (h' : u.SameWaits v) : t.SetsCode p op v := by
  unfold SetsCode
  rw [h'.exitCode]
  exact h

theorem SetsCode.kill (h : t.Keyed) {q : ProcessId} (hop : ∀ p, t.Kills p op ↔ q = p) :
    t.SetsCode p op (t.kill (code op) q) := by
  unfold SetsCode
  rw [hop]
  rcases hr : t.processes q with _ | r
  · rw [kill_none hr]
    by_cases hp : q = p
    · subst hp
      exact Or.inr ⟨rfl, Or.inl ⟨hr, by rw [exitCode, hr]; rfl⟩⟩
    · exact Or.inl ⟨hp, rfl⟩
  · rw [exitCode_kill h hr]
    by_cases hp : q = p
    · subst hp
      exact Or.inr ⟨rfl, Or.inr (if_pos rfl)⟩
    · exact Or.inl ⟨hp, if_neg fun he => hp he.symm⟩

theorem SetsCode.create {e : Entry} (hop : ¬ t.Kills p op) (ht : t.SameWaits v) (h : v.Keyed)
    (hp : p ≠ v.nextPid) : t.SetsCode p op (v.create e) := by
  refine Or.inl ⟨hop, ?_⟩
  rw [exitCode_create h hp, ht.exitCode]

theorem GiveUp.setsCode (h : t.Keyed) (hu : t.GiveUp call u) (hp : p ≠ t.nextPid) :
    t.SetsCode p call.1 u := by
  cases hu with
  | @switch c r hr =>
      have hsave : t.SameWaits (t.modify r (Entry.save c)) := .modify fun _ => rfl
      exact .same id (hsave.trans ⟨rfl, rfl, fun _ => rfl⟩)
  | exit => exact .kill h fun _ => Iff.rfl
  | @wait pid c r hexit hr =>
      have hreg : t.SetsCode p (.waitPid pid) (t.register pid) := Or.inl ⟨id, rfl⟩
      have hsave : (t.register pid).SameWaits ((t.register pid).modify r (Entry.save c)) :=
        .modify fun _ => rfl
      exact hreg.trans (hsave.trans (.modify fun _ => rfl))
  | killSelf => exact .kill h fun _ => Iff.rfl
  | @vfork c e r hr hvm hready hexit hdata hvm' =>
      have hkeyed : ((t.modify r (Entry.save c)).modify r (Entry.setForked t.nextPid)).Keyed :=
        h.of_names .setForked
      exact (SetsCode.create id .setForked hkeyed hp).trans ⟨rfl, rfl, fun _ => rfl⟩
  | @semBlock key c r d q sems hr hd hwait =>
      have hsem : t.SameWaits (t.setSemaphores d.semaphores sems) := ⟨rfl, rfl, fun _ => rfl⟩
      have hsave : t.SameWaits ((t.setSemaphores d.semaphores sems).modify r (Entry.save c)) :=
        hsem.trans (.modify fun _ => rfl)
      exact .same id (hsave.trans .block)

theorem Stay.setsCode (h : t.Keyed) (hu : t.Stay call u c') (hp : p ≠ t.nextPid) :
    t.SetsCode p call.1 u := by
  cases hu with
  | @spawn name c e hr hready hexit hvm hdata =>
      have hsem : t.SameWaits (t.setSemaphores (t.created + 1) SemaphoreSet.empty) :=
        ⟨rfl, rfl, fun _ => rfl⟩
      exact .create id hsem h hp
  | spawnNone => exact .same id (.refl t)
  | waitExited => exact .same id (.refl t)
  | kill => exact .kill h fun _ => Iff.rfl
  | semNew => exact .same id ⟨rfl, rfl, fun _ => rfl⟩
  | removeSem => exact .same id ⟨rfl, rfl, fun _ => rfl⟩
  | semWait => exact .same id ⟨rfl, rfl, fun _ => rfl⟩
  | semSignal => exact .same id ⟨rfl, rfl, fun _ => rfl⟩
  | @semWake B key c r d q sems =>
      have hsem : t.SameWaits (t.setSemaphores d.semaphores sems) := ⟨rfl, rfl, fun _ => rfl⟩
      exact .same id (hsem.trans .wakeUp)
  | brk => exact .same id (.refl t)
  | pageFault => exact .same id (.refl t)

theorem Step.setsCode (h : t.Keyed) (hu : t.Step call u c') (hp : p ≠ t.nextPid) :
    t.SetsCode p call.1 u := by
  cases hu with
  | giveUp hg hpick => exact (hg.setsCode h hp).trans (.pick hpick)
  | stay hs => exact hs.setsCode h hp

/-- **Exit codes.**  A call that does not wrap the pids keeps all exit codes exactly when it does not
replace one by another one. -/
theorem Step.keepsCodes_iff (h : t.Keyed) (hu : t.Step call u c')
    (hfresh : t.processes t.nextPid = none) :
    (∀ p, ∀ ret ∈ t.exitCode p, ret ∈ u.exitCode p) ↔ t.Once call.1 := by
  have hnone : t.exitCode t.nextPid = none := by
    rw [exitCode, hfresh]
    rfl
  have hsets : ∀ {p}, ∀ ret ∈ t.exitCode p, t.SetsCode p call.1 u := fun {p} ret hret => by
    refine hu.setsCode h fun hp => ?_
    rw [hp, hnone] at hret
    cases hret
  have hknown : ∀ {p}, ∀ ret ∈ t.exitCode p, t.processes p ≠ none := fun {p} ret hret hp => by
    rw [exitCode, hp] at hret
    cases hret
  constructor
  · intro hkeeps p hkills ret hret
    have hret' := hkeeps p ret hret
    rcases hsets ret hret with ⟨hnot, -⟩ | ⟨-, ⟨hp, -⟩ | hcode⟩
    · exact absurd hkills hnot
    · exact absurd hp (hknown ret hret)
    · rw [hcode] at hret'
      exact (Option.some.inj hret').symm
  · intro honce p ret hret
    rcases hsets ret hret with ⟨-, hsame⟩ | ⟨hkills, ⟨hp, -⟩ | hcode⟩
    · rwa [hsame]
    · exact absurd hp (hknown ret hret)
    · rw [hcode, honce p hkills ret hret]
      rfl

end Table

/-! ### Runs -/

variable {α : Type} [FrameAllocator α] {B : Build} {b : BootInfo α} {s s₁ k k' t : Kernel α}
  {p pid : ProcessId} {c c' c₀ c₁ : ProcessContext} {ret : Int64}

/-- No pid wraps, and no exit code is replaced by another one. -/
def CodesKept (k : Kernel α) (call : Call) (k' : Kernel α) : Prop :=
  k.table.Once call.1 ∧ k'.created < PIDS

instance (k : Kernel α) (call : Call) (k' : Kernel α) : Decidable (CodesKept k call k') :=
  inferInstanceAs (Decidable (_ ∧ _))

/-- Exit codes are kept, and the kernel process is not killed and does not block. -/
def Orderly (k : Kernel α) (call : Call) (k' : Kernel α) : Prop :=
  CodesKept k call k' ∧ KernelKept k call k'

/-- The next id is free as long as the counter has not wrapped. -/
theorem Table.Numbered.next_free {t : Table} (h : t.Numbered) (hsmall : t.created < PIDS) :
    t.processes t.nextPid = none := by
  have hfree : t.processes t.nextPid = none ↔
      ¬ ∃ r, 1 ≤ r ∧ r ≤ t.created ∧ t.nextPid = r % PIDS := by
    rw [← h.key_iff, not_not]
  rw [hfree]
  rintro ⟨r, hr, hle, heq⟩
  have heq' : (t.created + 1) % 65536 = r % 65536 := heq
  have hsmall' : t.created < 65536 := hsmall
  omega

theorem step_keepsCodes {call : Call} (hk : k.table.Numbered)
    (hstep : step B k call = .ok (k', c')) (hsmall : k'.created < PIDS) :
    (∀ p ret, k.getExitCode p = some ret → k'.getExitCode p = some ret) ↔
      k.table.Once call.1 := by
  have hst := step_table hk.keyed hstep
  have hle : k.table.created ≤ k'.table.created := by
    rcases hst.names with hn | ⟨v, e, hv, hn⟩
    · exact hn.created.ge
    · rw [hn.created, ← hv.created]
      exact Nat.le_succ _
  exact hst.keepsCodes_iff hk.keyed (hk.next_free (Nat.lt_of_le_of_lt hle hsmall))

theorem run_keepsCodes (hs : s.table.Numbered) (h : Run (step B) CodesKept s t)
    (hret : s.getExitCode p = some ret) : t.getExitCode p = some ret := by
  refine (h.invariant (P := fun k => k.table.Numbered ∧ k.getExitCode p = some ret) ⟨hs, hret⟩
    fun k call k' c' hk hstep hC => ?_).2
  exact ⟨hk.1.names1 (step_table hk.1.keyed hstep).names,
    (step_keepsCodes hk.1 hstep hC.2).mpr hC.1 p ret hk.2⟩

theorem resumesIn_exit (hrun : Run (step B) Orderly (boot b) s)
    (hp : s.table.Parked p (.exit pid) c₀) (hne : s.processor ≠ p)
    (h : ResumesIn B Orderly p s c t c') :
    ∃ ret, t.getExitCode pid = some ret ∧ c' = c₀.setRax ret.toUInt64 := by
  refine h.rule (Q := fun k => Run (step B) Orderly (boot b) k ∧
      (k.table.Parked p (.exit pid) c₀ ∨
        ∃ ret, k.getExitCode pid = some ret ∧ k.table.Kept p (c₀.setRax ret.toUInt64)))
    (E := fun t c' => ∃ ret, t.getExitCode pid = some ret ∧ c' = c₀.setRax ret.toUInt64)
    ⟨hrun, Or.inl hp⟩ (fun he => absurd he hne)
    fun k call k' c' ⟨hrun, hk⟩ hne hstep hC => ?_
  have hkept : Run (step B) KernelKept (boot b) k := hrun.mono fun _ _ _ h => h.2
  obtain ⟨hreg, hok⟩ := run_schedOk hkept
  have hrun' : Run (step B) Orderly (boot b) k' := hrun.tail ⟨_, _, hstep, hC⟩
  have hst := step_table hreg.numbered.keyed hstep
  rcases hk with hk | ⟨ret, hret, hk⟩
  · rcases hst.awaits hreg hok hC.2.1 hC.2.2 hk with ⟨hk, hcur⟩ | ⟨f, hf, hwoken, hcur⟩ | ⟨hsem, -⟩
    · exact ⟨⟨hrun', Or.inl hk⟩, fun he => absurd he hcur⟩
    · obtain ⟨ret, hret, rfl⟩ := hf
      exact ⟨⟨hrun', Or.inr ⟨ret, hret, hwoken⟩⟩, fun he => ⟨ret, hret, hcur he⟩⟩
    · obtain ⟨i, key, hsem⟩ := hsem
      cases hsem
  · have hu := hst.kept hreg hok hC.2.1 hC.2.2 hne hk
    have hret' := (step_keepsCodes hreg.numbered hstep hC.1.2).mpr hC.1.1 pid ret hret
    exact ⟨⟨hrun', Or.inr ⟨ret, hret', hu.1⟩⟩, fun he => ⟨ret, hret', hu.2 he⟩⟩

/-- **Exit codes are final.**  In runs in which no pid wraps and no call replaces an exit code by
another one, an exit code stays, and every later `wait_pid` returns it at once; and if the kernel
process also runs on, who was blocked in `wait_pid` before goes on with this code. -/
theorem exit_codes_once (h : Run (step B) CodesKept (boot b) s) :
    (∀ p ret, s.getExitCode p = some ret → ∀ t, Run (step B) CodesKept s t →
      t.getExitCode p = some ret ∧
        ∀ c, step B t (.waitPid p, c) = .ok (t, c.setRax ret.toUInt64)) ∧
    (Run (step B) Orderly (boot b) s → ∀ p c s₁ c₁, step B s (.waitPid p, c) = .ok (s₁, c₁) →
      Orderly s (.waitPid p, c) s₁ → s.getExitCode p = none →
      ∀ t c', ResumesIn B Orderly s.processor s₁ c₁ t c' →
        ∃ ret, t.getExitCode p = some ret ∧ c' = c.setRax ret.toUInt64) ∧
    ∀ call t c', step B s call = .ok (t, c') → t.created < PIDS →
      ((∀ p ret, s.getExitCode p = some ret → t.getExitCode p = some ret) ↔
        s.table.Once call.1) := by
  have hs := run_numbered h
  refine ⟨fun p ret hret t ht => ?_, fun hrun p c s₁ c₁ hstep hC hexit t c' hres => ?_,
    fun call t c' hstep hsmall => step_keepsCodes hs hstep hsmall⟩
  · have hcode := run_keepsCodes hs ht hret
    refine ⟨hcode, fun c => ?_⟩
    rw [step, Proc.waitPid, hcode]
  · have hkept : Run (step B) KernelKept (boot b) s := hrun.mono fun _ _ _ h => h.2
    obtain ⟨hreg, hok⟩ := run_schedOk hkept
    have hst := step_table hs.keyed hstep
    obtain ⟨hp, hne⟩ := hst.wait_parked hreg hok hC.2.1 hC.2.2 hexit
    exact resumesIn_exit (hrun.tail ⟨_, _, hstep, hC⟩) hp hne hres

/-- Process 2 exits with 7; `wait_pid` returns 7 after the death of process 3, too. -/
theorem exit_codes_once_example : ∃ s t : Kernel BootInfoFrameAllocator,
    s.getExitCode 2 = some 7 ∧ t.getExitCode 3 = some 0xdead ∧
      step Build.release t (.waitPid 2, default) = .ok (t, ProcessContext.setRax default 7) := by
  have hs : (execCalls CodesKept default
      [.spawn "sh", .spawn "sh", .switch, .processExit 7]).map (fun s => (s.getExitCode 2,
        (exec (step Build.release) CodesKept s [(.kill 3, default)]).map
          fun t => t.getExitCode 3)) = some (some 7, some (some 0xdead)) := by
    decide +kernel
  obtain ⟨s, hs, hval⟩ := Option.map_eq_some_iff.mp hs
  obtain ⟨hseven, ht⟩ := Prod.mk.inj hval
  obtain ⟨t, ht, hdead⟩ := Option.map_eq_some_iff.mp ht
  have honce := (exit_codes_once (run_of_exec hs)).1 2 7 hseven t (run_of_exec ht)
  exact ⟨s, t, hseven, hdead, honce.2 default⟩

/-- Process 2 exits with 7, and process 3 kills it afterwards. -/
theorem exit_code_replaced : ¬ ∀ (b : BootInfo BootInfoFrameAllocator)
    (s t : Kernel BootInfoFrameAllocator) (p : ProcessId) (ret : Int64),
    Run (step Build.release) (fun _ _ k => k.created < PIDS) (boot b) s →
      s.getExitCode p = some ret → Run (step Build.release) (fun _ _ k => k.created < PIDS) s t →
      t.getExitCode p = some ret := by
  intro hall
  have hs : (execCalls (fun _ _ k => k.created < PIDS) default
      [.spawn "sh", .spawn "sh", .switch, .processExit 7]).map (fun s => (s.getExitCode 2,
        (exec (step Build.release) (fun _ _ k => k.created < PIDS) s [(.kill 2, default)]).map
          fun t => t.getExitCode 2)) = some (some 7, some (some 0xdead)) := by
    decide +kernel
  obtain ⟨s, hs, hval⟩ := Option.map_eq_some_iff.mp hs
  obtain ⟨hseven, ht⟩ := Prod.mk.inj hval
  obtain ⟨t, ht, hdead⟩ := Option.map_eq_some_iff.mp ht
  have hkept := hall smallMachine s t 2 7 (run_of_exec hs) hseven (run_of_exec ht)
  rw [hdead] at hkept
  exact absurd hkept (by decide)

end Ysos
