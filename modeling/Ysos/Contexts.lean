import Ysos.Scheduling

/-! # Contexts

A process that gives up the processor is saved with the context it was captured in, and goes on
with it when it gets the processor back.

* `Resumes`: a process gets the processor back for the first time after a call.
* `Handed`: the context that it goes on with; `contexts_kept`: every process goes on with it, and a
  forked child starts with the context of its parent, with its own stack and the result `0`. -/

namespace Ysos

open Runs

namespace Table

variable {t u v : Table} {p : ProcessId} {a : Place} {c c' c₀ : ProcessContext} {op : Op}
  {call : Call} {key : SemaphoreId} {pid : ProcessId}

/-! ### Saved contexts -/

/-- The saved context of `p` is `c`, and no wake-up will change it. -/
abbrev Kept (t : Table) (p : ProcessId) (c : ProcessContext) : Prop := Sched.Kept p c t.view

/-- `p` waits at `a`, and its saved context is `c`. -/
abbrev Parked (t : Table) (p : ProcessId) (a : Place) (c : ProcessContext) : Prop :=
  Sched.Parked p a c t.view

theorem Suspends.kept (hu : t.Suspends c u op) (hne : t.processor ≠ p) (h : t.Kept p c₀) :
    u.Kept p c₀ := by
  unfold Kept
  cases hu with
  | yield hview =>
      rw [hview]
      exact Sched.Kept.enqueue h hne
  | wait _ _ hview =>
      rw [hview]
      exact Sched.Kept.park h hne
  | block _ hview =>
      rw [hview]
      exact Sched.Kept.park h hne
  | fork hnew hview =>
      rw [hview]
      have hchild : t.nextPid ≠ p := fun he => h.known (status_eq_none.mpr (he ▸ hnew))
      exact (Sched.Kept.enqueue h hchild).enqueue hne
  | die _ _ hview => exact (Sched.Kept.die h).others hview

/-- A process that is not on the processor keeps its saved context, and if the call gives it the
processor, it goes on with it. -/
theorem Step.kept (hreg : t.Regular) (hok : t.SchedOk) (hK : t.KernelRuns call.1)
    (hsmall : u.created < PIDS) (hu : t.Step call u c') (hne : t.processor ≠ p)
    (h : t.Kept p c₀) : u.Kept p c₀ ∧ (u.processor = p → c' = c₀) := by
  rcases hu.sched hreg hok hK hsmall with ⟨ho, hcur⟩ | ⟨v, hs, hp, -⟩
  · exact ⟨Sched.Kept.others h ho, fun he => absurd (hcur ▸ he) hne⟩
  · have hv := hs.kept hne h
    exact hv.pick (fun he => absurd (hs.processor ▸ he) hne) hp

/-- What a call can do to a process that waits at `a`: nothing, wake it, or forget it. -/
inductive Awaits (u : Table) (p : ProcessId) (a : Place) (c : ProcessContext) : Prop where
  | waits (h : u.Parked p a c)
  | woken {f : ProcessContext → ProcessContext} (hf : u.Wakes a f) (h : u.Kept p (f c))
  | forgotten {i : Ref} {key : SemaphoreId} (ha : a = .sem i key) (h : u.Kept p c)

theorem Awaits.of_others {run : Option ProcessId} {s : Sched.State ProcessId ProcessContext Place}
    (hok : Sched.Ok KERNEL_PID run s) (h : Sched.Parked p a c s)
    (ho : Others run u.Wakes s u.view) : u.Awaits p a c := by
  rcases Sched.Parked.others hok h ho with h | ⟨f, hf, h⟩ | ⟨⟨i, key, ha⟩, h⟩
  · exact .waits h
  · exact .woken hf h
  · exact .forgotten ha h

theorem SchedOk.parked_ne (hok : t.SchedOk) (h : t.Parked p a c) : t.processor ≠ p := fun he =>
  (hok.waiting_situation h.mem).1 (congrArg some he)

theorem Suspends.awaits (hok : t.SchedOk) (hu : t.Suspends c u op) (h : t.Parked p a c₀) :
    u.Awaits p a c₀ := by
  have hne := hok.parked_ne h
  cases hu with
  | yield hview =>
      refine .waits ?_
      rw [Parked, hview]
      exact Sched.Parked.enqueue h hne
  | wait _ _ hview =>
      refine .waits ?_
      rw [Parked, hview]
      exact Sched.Parked.park h hne
  | block _ hview =>
      refine .waits ?_
      rw [Parked, hview]
      exact Sched.Parked.park h hne
  | fork hnew hview =>
      refine .waits ?_
      rw [Parked, hview]
      have hchild : t.nextPid ≠ p := fun he => h.known (status_eq_none.mpr (he ▸ hnew))
      exact (Sched.Parked.enqueue h hchild).enqueue hne
  | die hkernel _ hview => exact .of_others (hok.die_current hkernel) (Sched.Parked.die h) hview

/-- A process that waits somewhere is not on the processor after the call, unless it was woken or
forgotten by the call, and then it goes on with its saved context. -/
theorem Step.awaits (hreg : t.Regular) (hok : t.SchedOk) (hK : t.KernelRuns call.1)
    (hsmall : u.created < PIDS) (hu : t.Step call u c') (h : t.Parked p a c₀) :
    u.Parked p a c₀ ∧ u.processor ≠ p ∨
    (∃ f, u.Wakes a f ∧ u.Kept p (f c₀) ∧ (u.processor = p → c' = f c₀)) ∨
    (∃ i key, a = .sem i key) ∧ u.Kept p c₀ ∧ (u.processor = p → c' = c₀) := by
  have hne := hok.parked_ne h
  rcases hu.sched hreg hok hK hsmall with ⟨ho, hcur⟩ | ⟨v, hs, hp, -, hexit⟩
  · have hstays : u.processor ≠ p := hcur ▸ hne
    cases Awaits.of_others hok h ho with
    | waits h => exact Or.inl ⟨h, hstays⟩
    | woken hf h => exact Or.inr (Or.inl ⟨_, hf, h, fun he => absurd he hstays⟩)
    | forgotten ha h => exact Or.inr (Or.inr ⟨⟨_, _, ha⟩, h, fun he => absurd he hstays⟩)
  · have hcur : v.processor ≠ p := hs.processor ▸ hne
    cases hs.awaits hok h with
    | waits h => exact Or.inl (Sched.Parked.pick (hs.ok hok) h hp)
    | @woken f hf h =>
        have hf' : u.Wakes a f := by
          unfold Wakes at hf ⊢
          rwa [← hexit]
        exact Or.inr (Or.inl ⟨f, hf', h.pick (fun he => absurd he hcur) hp⟩)
    | forgotten ha h =>
        exact Or.inr (Or.inr ⟨⟨_, _, ha⟩, h.pick (fun he => absurd he hcur) hp⟩)

/-! ### The calls that suspend a process -/

/-- The current process finds the semaphore `key` at zero. -/
def BlocksAt (t : Table) (key : SemaphoreId) : Prop :=
  ∃ r ∈ t.current, ∃ d ∈ (t.proc r).procData, ∃ sem ∈ t.semaphoreSets d.semaphores key, sem.count = 0

theorem Step.suspends (hreg : t.Regular) (hok : t.SchedOk) (hK : t.KernelRuns call.1)
    (hsmall : u.created < PIDS) (hu : t.Step call u c') (hgive : ¬ t.Stay call u c') :
    ∃ v, t.Suspends call.2 v call.1 ∧ Sched.Pick call.2 v.view u.view c' := by
  cases hu with
  | giveUp hg hp =>
      have hn := Names.pick hp
      exact ⟨_, hg.suspends hreg hok hK (hn.created ▸ hsmall),
        hp.view (hreg.numbered.names1 hg.names).keyed⟩
  | stay hs => exact absurd hs hgive

theorem Step.yield_kept (hreg : t.Regular) (hok : t.SchedOk) (hsmall : u.created < PIDS)
    (hu : t.Step (.switch, c) u c') :
    u.Kept t.processor c ∧ (u.processor = t.processor → c' = c) := by
  obtain ⟨v, hs, hp⟩ := hu.suspends hreg hok (show t.KernelRuns .switch from trivial) hsmall nofun
  cases hs with
  | yield hview =>
      have hv : v.Kept t.processor c := by
        rw [Kept, hview]
        exact Sched.Ok.kept hok
      exact hv.pick (fun _ => rfl) hp
  | die _ hop => exact absurd hop id

theorem parked_pick (hok : Sched.Ok KERNEL_PID none v.view)
    (hview : v.view = t.view.park a t.processor c) (hp : Sched.Pick c v.view u.view c') :
    u.Parked t.processor a c ∧ u.processor ≠ t.processor := by
  have hv : v.Parked t.processor a c := by
    rw [Parked, hview]
    exact Sched.State.parked
  exact Sched.Parked.pick hok hv hp

theorem Step.wait_parked (hreg : t.Regular) (hok : t.SchedOk) (hK : t.KernelRuns (.waitPid pid))
    (hsmall : u.created < PIDS) (hu : t.Step (.waitPid pid, c) u c')
    (hexit : t.exitCode pid = none) :
    u.Parked t.processor (.exit pid) c ∧ u.processor ≠ t.processor := by
  have hgive : ¬ t.Stay (.waitPid pid, c) u c' := fun hst => by
    cases hst with
    | waitExited hret =>
        rw [hexit] at hret
        cases hret
  obtain ⟨v, hs, hp⟩ := hu.suspends hreg hok hK hsmall hgive
  have hv := hs.ok hok
  cases hs with
  | wait _ _ hview => exact parked_pick hv hview hp
  | die _ hop => exact absurd hop id

theorem Step.sem_parked (hreg : t.Regular) (hok : t.SchedOk) (hK : t.KernelRuns (.semWait key))
    (hsmall : u.created < PIDS) (hu : t.Step (.semWait key, c) u c') (hblock : t.BlocksAt key) :
    ∃ i, u.Parked t.processor (.sem i key) c ∧ u.processor ≠ t.processor := by
  obtain ⟨r, hr, d, hd, sem, hsem, hzero⟩ := hblock
  have hgive : ¬ t.Stay (.semWait key, c) u c' := fun hst => by
    cases hst with
    | semWait hr' hd' hwait hres =>
        obtain rfl := Option.some.inj (hr.symm.trans hr')
        obtain rfl := Option.some.inj (hd.symm.trans hd')
        rw [SemaphoreSet.wait, show t.semaphoreSets d.semaphores key = some sem from hsem] at hwait
        obtain ⟨rfl, -⟩ := Prod.mk.inj hwait
        exact hres _ (by rw [Semaphore.wait, if_pos hzero])
  obtain ⟨v, hs, hp⟩ := hu.suspends hreg hok hK hsmall hgive
  have hv := hs.ok hok
  cases hs with
  | @block i _ _ hview => exact ⟨i, parked_pick hv hview hp⟩
  | die _ hop => exact absurd hop id

/-- After a `vfork` the parent has its captured context with the child's id, the child has its own,
and whichever of them is picked goes on with it. -/
theorem fork_kept {r : Ref} {e : Entry} (hreg : t.Regular) (hok : t.SchedOk)
    (hsmall : t.created + 1 < PIDS) (hr : t.current = some r) (hready : e.status = .ready)
    (hu : t.GiveUp (.vfork, c) (t.forked r c e)) (hp : (t.forked r c e).Pick c u c') :
    u.Kept t.processor (c.setRax (UInt64.ofNat t.nextPid)) ∧
    (u.processor = t.processor → c' = c.setRax (UInt64.ofNat t.nextPid)) ∧
    u.Kept t.nextPid e.context ∧ (u.processor = t.nextPid → c' = e.context) := by
  have hk := hreg.numbered.keyed
  have hfresh := hreg.fresh hsmall
  have hnew : t.view.status t.nextPid = none := status_eq_none.mpr hfresh
  have hne : t.processor ≠ t.nextPid := fun he => hok.current (he ▸ hfresh)
  have hview := view_forked (c := c) hk (current_iff.mp hr).2 hready hne
  have hcreate : Sched.Ok KERNEL_PID (some t.processor) (t.view.enqueue t.nextPid e.context) :=
    Sched.Ok.create hok hnew
  have hparent : (t.forked r c e).Kept t.processor (c.setRax (UInt64.ofNat t.nextPid)) := by
    rw [Kept, hview]
    exact hcreate.kept
  have hchild : (t.forked r c e).Kept t.nextPid e.context := by
    rw [Kept, hview]
    exact (Sched.Ok.kept_new hok hnew).enqueue hne
  have hpick := hp.view (hreg.numbered.names1 hu.names).keyed
  have hcur : (t.forked r c e).view.cur = t.processor := rfl
  have hqueue : (t.forked r c e).view.ready = t.readyQueue ++ [t.nextPid, t.processor] := by
    rw [hview]
    exact List.append_assoc t.readyQueue [t.nextPid] [t.processor]
  have hbehind : c' = (t.forked r c e).view.saved u.processor := by
    refine hpick.behind ?_ hqueue hok.run_notMem.1 hne
    rw [hview]
    simp [Sched.State.enqueue, hne.symm]
  refine ⟨hparent.pick_kept hpick, fun he => ?_, hchild.pick_kept hpick, fun he => ?_⟩
  · rw [hbehind, he]
    exact hparent.saved
  · rw [hbehind, he]
    exact hchild.saved

end Table

/-! ### Resuming -/

variable {α : Type} [FrameAllocator α] {B : Build} {b : BootInfo α} {s s₁ k k' t : Kernel α}
  {p pid : ProcessId} {c c' c₀ : ProcessContext} {ret : Int64}

/-- After a call that ended in `s` with the context `c`, the process `p` is on the processor for
the first time in the state `t`, with the context `c'`. -/
inductive Resumes (B : Build) (p : ProcessId) (s : Kernel α) (c : ProcessContext) :
    Kernel α → ProcessContext → Prop where
  | now (h : s.processor = p) : Resumes B p s c s c
  | later {k t : Kernel α} {call : Call} {c' : ProcessContext} (h : s.processor ≠ p)
      (hrun : Run (step B) (fun k call k' => KernelKept k call k' ∧ k'.processor ≠ p) s k)
      (hstep : step B k call = .ok (t, c')) (hC : KernelKept k call t) (ht : t.processor = p) :
      Resumes B p s c t c'

/-- As `Resumes`, with the condition `D` on the calls. -/
inductive ResumesIn (B : Build) (D : Kernel α → Call → Kernel α → Prop) (p : ProcessId)
    (s : Kernel α) (c : ProcessContext) : Kernel α → ProcessContext → Prop where
  | now (h : s.processor = p) : ResumesIn B D p s c s c
  | later {k t : Kernel α} {call : Call} {c' : ProcessContext} (h : s.processor ≠ p)
      (hrun : Run (step B) (fun k call k' => D k call k' ∧ k'.processor ≠ p) s k)
      (hstep : step B k call = .ok (t, c')) (hC : D k call t) (ht : t.processor = p) :
      ResumesIn B D p s c t c'

/-- Between `s` and `t` the process `pid` exits with the code `ret`. -/
def Exits (B : Build) (s t : Kernel α) (pid : ProcessId) (ret : Int64) : Prop :=
  ∃ k k', Run (step B) KernelKept s k ∧ Runs.Step (step B) KernelKept k k' ∧
    Run (step B) KernelKept k' t ∧ k.getExitCode pid = none ∧ k'.getExitCode pid = some ret

/-- What the process goes on with that made a call with the context `c` in `s`, which ended in
`s₁`, and gets the processor back in `t` with the context `c'`. -/
def Handed (B : Build) (s : Kernel α) (c : ProcessContext) (s₁ t : Kernel α) (c' : ProcessContext) :
    Op → Prop
  | .switch => c' = c
  | .semWait key => s.table.BlocksAt key → c' = c
  | .waitPid pid => s.getExitCode pid = none →
      ∃ ret, Exits B s₁ t pid ret ∧ c' = c.setRax ret.toUInt64
  | .vfork => c' = c.setRax (UInt64.ofNat (s₁.heap s₁.created).pid)
  | _ => True

/-- What a child starts with after a `vfork` from `s` to `s₁` with the context `c`: the context of
its parent, with the stack pointer moved by the offset of the child's stack, and the result `0`. -/
def Starts (B : Build) (s : Kernel α) (c : ProcessContext) (s₁ : Kernel α) (c' : ProcessContext) :
    Prop :=
  ∃ r vm childVm offset sp, s.current = .ok r ∧ (s.heap r).inner.procVm = some vm ∧
    (s₁.heap s₁.created).inner.procVm = some childVm ∧
    childVm.stack.stackOffset B vm.stack = .ok offset ∧
    B.virtAdd c.stackFrame.stackPointer offset = .ok sp ∧ c' = (c.setStackPointer sp).setRax 0

/-- A property that holds while the process is not on the processor, and what it gives when the
process gets the processor back. -/
theorem ResumesIn.rule {D : Kernel α → Call → Kernel α → Prop} {Q : Kernel α → Prop}
    {E : Kernel α → ProcessContext → Prop} (h : ResumesIn B D p s c t c') (hQ : Q s)
    (hnow : s.processor = p → E s c)
    (hstep : ∀ k call k' c', Q k → k.processor ≠ p → step B k call = .ok (k', c') →
      D k call k' → Q k' ∧ (k'.processor = p → E k' c')) : E t c' := by
  cases h with
  | now hp => exact hnow hp
  | later hp hrun hlast hC ht =>
      have hlast' := hrun.invariant (P := fun k => Q k ∧ k.processor ≠ p) ⟨hQ, hp⟩
        fun k call k' c' hk hst hC => ⟨(hstep k call k' c' hk.1 hk.2 hst hC.1).1, hC.2⟩
      exact (hstep _ _ _ _ hlast'.1 hlast'.2 hlast hC).2 ht

theorem Resumes.kernelKept (h : Resumes B p s c t c') : ResumesIn B KernelKept p s c t c' := by
  cases h with
  | now hp => exact .now hp
  | later hp hrun hstep hC ht => exact .later hp hrun hstep hC ht

theorem Exits.tail (h : Exits B s k pid ret) (hs : Runs.Step (step B) KernelKept k k') :
    Exits B s k' pid ret := by
  obtain ⟨m, m', hrun, hm, hrun', hexit⟩ := h
  exact ⟨m, m', hrun, hm, hrun'.tail hs, hexit⟩

theorem resumes_kept (hrun : Run (step B) KernelKept (boot b) s) (hk : s.table.Kept p c₀)
    (hnow : s.processor = p → c = c₀) (h : Resumes B p s c t c') : c' = c₀ := by
  refine h.kernelKept.rule (Q := fun k => Run (step B) KernelKept (boot b) k ∧ k.table.Kept p c₀)
    (E := fun _ c' => c' = c₀) ⟨hrun, hk⟩ hnow fun k call k' c' ⟨hrun, hk⟩ hne hstep hC => ?_
  obtain ⟨hreg, hok⟩ := run_schedOk hrun
  have hu := (step_table hreg.numbered.keyed hstep).kept hreg hok hC.1 hC.2 hne hk
  exact ⟨⟨hrun.tail ⟨_, _, hstep, hC⟩, hu.1⟩, hu.2⟩

theorem resumes_sem {i : Ref} {key : SemaphoreId} (hrun : Run (step B) KernelKept (boot b) s)
    (hp : s.table.Parked p (.sem i key) c₀) (hne : s.processor ≠ p) (h : Resumes B p s c t c') :
    c' = c₀ := by
  refine h.kernelKept.rule (Q := fun k => Run (step B) KernelKept (boot b) k ∧
      (k.table.Parked p (.sem i key) c₀ ∨ k.table.Kept p c₀)) (E := fun _ c' => c' = c₀)
    ⟨hrun, Or.inl hp⟩ (fun he => absurd he hne) fun k call k' c' ⟨hrun, hk⟩ hne hstep hC => ?_
  obtain ⟨hreg, hok⟩ := run_schedOk hrun
  have hrun' : Run (step B) KernelKept (boot b) k' := hrun.tail ⟨_, _, hstep, hC⟩
  have hst := step_table hreg.numbered.keyed hstep
  rcases hk with hk | hk
  · rcases hst.awaits hreg hok hC.1 hC.2 hk with ⟨hk, hcur⟩ | ⟨f, hf, hk, hcur⟩ | ⟨-, hk, hcur⟩
    · exact ⟨⟨hrun', Or.inl hk⟩, fun he => absurd he hcur⟩
    · rw [show f = Entry.wakeContext none from hf] at hk hcur
      exact ⟨⟨hrun', Or.inr hk⟩, hcur⟩
    · exact ⟨⟨hrun', Or.inr hk⟩, hcur⟩
  · have hu := hst.kept hreg hok hC.1 hC.2 hne hk
    exact ⟨⟨hrun', Or.inr hu.1⟩, hu.2⟩

theorem resumes_exit (hrun : Run (step B) KernelKept (boot b) s)
    (hp : s.table.Parked p (.exit pid) c₀) (hne : s.processor ≠ p) (h : Resumes B p s c t c') :
    ∃ ret, Exits B s t pid ret ∧ c' = c₀.setRax ret.toUInt64 := by
  refine h.kernelKept.rule (Q := fun k => Run (step B) KernelKept (boot b) k ∧
      Run (step B) KernelKept s k ∧ (k.table.Parked p (.exit pid) c₀ ∨
        ∃ ret, Exits B s k pid ret ∧ k.table.Kept p (c₀.setRax ret.toUInt64)))
    (E := fun t c' => ∃ ret, Exits B s t pid ret ∧ c' = c₀.setRax ret.toUInt64)
    ⟨hrun, .refl, Or.inl hp⟩ (fun he => absurd he hne)
    fun k call k' c' ⟨hrun, hsince, hk⟩ hne hstep hC => ?_
  obtain ⟨hreg, hok⟩ := run_schedOk hrun
  have hlast : Runs.Step (step B) KernelKept k k' := ⟨_, _, hstep, hC⟩
  have hrun' : Run (step B) KernelKept (boot b) k' := hrun.tail hlast
  have hst := step_table hreg.numbered.keyed hstep
  rcases hk with hk | ⟨ret, hexits, hk⟩
  · rcases hst.awaits hreg hok hC.1 hC.2 hk with ⟨hk, hcur⟩ | ⟨f, hf, hwoken, hcur⟩ | ⟨hsem, -⟩
    · exact ⟨⟨hrun', hsince.tail hlast, Or.inl hk⟩, fun he => absurd he hcur⟩
    · -- nobody is registered under a process with an exit code, so this call is the exit
      obtain ⟨ret, hret, rfl⟩ := hf
      have hnone : k.getExitCode pid = none :=
        (run_registered (hrun.mono fun _ _ _ _ => trivial) pid p hk.mem).1
      have hexits : Exits B s k' pid ret := ⟨k, k', hsince, hlast, .refl, hnone, hret⟩
      exact ⟨⟨hrun', hsince.tail hlast, Or.inr ⟨ret, hexits, hwoken⟩⟩, fun he => ⟨ret, hexits, hcur he⟩⟩
    · obtain ⟨i, key, hsem⟩ := hsem
      cases hsem
  · have hu := hst.kept hreg hok hC.1 hC.2 hne hk
    have hexits' := hexits.tail hlast
    exact ⟨⟨hrun', hsince.tail hlast, Or.inr ⟨ret, hexits', hu.1⟩⟩, fun he => ⟨ret, hexits', hu.2 he⟩⟩

/-- **Context fidelity.**  In every run in which the kernel process is not killed and does not
block and fewer than `2 ^ 16` processes are created: a process that gave up the processor in a
clock tick, or was blocked at a semaphore, goes on with the context it was captured in, a process
that was blocked in `wait_pid` with the exit code of the process it waited for as the result, a
process after a `vfork` with the id of the child; and the child starts with the captured context of
its parent, but with its own stack and the result `0`. -/
theorem contexts_kept {op : Op} {c₁ : ProcessContext} (h : Run (step B) KernelKept (boot b) s)
    (hstep : step B s (op, c) = .ok (s₁, c₁)) (hC : KernelKept s (op, c) s₁) :
    (∀ t c', Resumes B s.processor s₁ c₁ t c' → Handed B s c s₁ t c' op) ∧
    (op = .vfork → ∀ t c', Resumes B (s₁.heap s₁.created).pid s₁ c₁ t c' →
      Starts B s c s₁ c') := by
  obtain ⟨hreg, hok⟩ := run_schedOk h
  have hk := hreg.numbered.keyed
  have hrun : Run (step B) KernelKept (boot b) s₁ := h.tail ⟨_, _, hstep, hC⟩
  have hst := step_table hk hstep
  by_cases hop : op = .vfork
  · subst hop
    obtain ⟨r, vm, childVm, offset, sp, e, hcur, hvm, hchild, hoffset, hsp, hctx, hready, hup, hp⟩ :=
      vfork_forked hk hstep
    have hcreated : s₁.created = s.created + 1 := (Table.Names.pick hp).created
    have hnew : s₁.created ≠ s.created := by omega
    have hpid : (s₁.heap s₁.created).pid = s.table.nextPid := (step_newPid hk hstep hnew).2.1
    have hsmall : s.table.created + 1 < PIDS := hcreated ▸ hC.2
    obtain ⟨hparent, hnow, hkept, hstart⟩ := Table.fork_kept hreg hok hsmall hcur hready hup hp
    refine ⟨fun t c' hres => ?_, fun _ t c' hres => ?_⟩
    · show c' = _
      rw [hpid]
      exact resumes_kept hrun hparent hnow hres
    · rw [hpid] at hres
      rw [← hcreated] at hchild
      refine ⟨r, vm, childVm, offset, sp, Kernel.current_of_table hcur, hvm, hchild, hoffset, hsp, ?_⟩
      rw [← hctx]
      exact resumes_kept hrun hkept hstart hres
  · refine ⟨fun t c' hres => ?_, fun he => absurd he hop⟩
    cases op with
    | switch =>
        obtain ⟨hkept, hnow⟩ := hst.yield_kept hreg hok hC.2
        exact resumes_kept hrun hkept hnow hres
    | waitPid pid =>
        intro hexit
        obtain ⟨hp, hne⟩ := hst.wait_parked hreg hok hC.1 hC.2 hexit
        exact resumes_exit hrun hp hne hres
    | semWait key =>
        intro hblock
        obtain ⟨i, hp, hne⟩ := hst.sem_parked hreg hok hC.1 hC.2 hblock
        exact resumes_sem hrun hp hne hres
    | vfork => exact absurd rfl hop
    | _ => exact trivial

/-- Process 2 forks process 3 and gets the processor back after processes 1 and 3, with the
result 3. -/
theorem contexts_kept_example : ∃ (s s₁ t : Kernel BootInfoFrameAllocator) (c₁ c' : ProcessContext),
    s.processor = 2 ∧ step Build.release s (.vfork, default) = .ok (s₁, c₁) ∧
      s₁.processor = 1 ∧ Resumes Build.release 2 s₁ c₁ t c' ∧
      c' = ProcessContext.setRax default 3 := by
  have hs : ((execCalls KernelKept default [.spawn "sh", .switch]).bind fun s =>
      (step Build.release s (.vfork, default)).toOption.bind fun x =>
        (exec (step Build.release) (fun k call k' => KernelKept k call k' ∧ k'.processor ≠ 2)
          x.1 [(.switch, default)]).bind fun k =>
          (step Build.release k (.switch, default)).toOption.map fun y =>
            (s.processor, x.1.processor, x.1.created, (x.1.heap 3).pid, y.1.processor,
              y.1.created)) = some (2, 1, 3, 3, 2, 3) := by
    decide +kernel
  obtain ⟨s, hs, hval⟩ := Option.bind_eq_some_iff.mp hs
  obtain ⟨⟨s₁, c₁⟩, hfork, hval⟩ := Option.bind_eq_some_iff.mp hval
  obtain ⟨k, hk, hval⟩ := Option.bind_eq_some_iff.mp hval
  obtain ⟨⟨t, c'⟩, ht, hval⟩ := Option.map_eq_some_iff.mp hval
  simp only [Prod.mk.injEq] at hval
  obtain ⟨htwo, hone, hcreated, hpid, hback, hcreated'⟩ := hval
  have hfork := ok_of_toOption hfork
  have hC : KernelKept s (.vfork, default) s₁ := ⟨trivial, by rw [hcreated]; decide⟩
  have hres : Resumes Build.release 2 s₁ c₁ t c' := by
    have hlast : KernelKept k (.switch, default) t := ⟨trivial, by rw [hcreated']; decide⟩
    exact .later (by rw [hone]; decide) (run_of_exec hk) (ok_of_toOption ht) hlast hback
  have hhanded := (contexts_kept (run_of_exec hs) hfork hC).1 t c' (by rwa [htwo])
  refine ⟨s, s₁, t, c₁, c', htwo, hfork, hone, hres, ?_⟩
  rw [show c' = _ from hhanded, hcreated, hpid]
  rfl

end Ysos
