import Ysos.Contexts

/-! # The semaphore system calls (`interrupt/syscall/service.rs`)

`dispatcher` calls `sys_sem` when `rax` is the number of `Syscall::Sem`, and takes the arguments
from the registers of the caller.  The `lib` returns whether `rax` is zero afterwards.

* `sysSem_refused_iff`: `sem_new` with a key in use reports the failure, and changes nothing
  exactly when the semaphore is the one that it puts in its place.
* `sysSem_reports_iff`: `sem_wait` and `sem_signal` report the truth exactly when they are complete
  at once. -/

namespace Ysos

open Runs

variable {α : Type} [FrameAllocator α] (B : Build)

/-- `Syscall::Sem` -/
def SYSCALL_SEM : UInt64 := 66

structure SyscallArgs where
  syscall : UInt64
  arg0 : UInt64
  arg1 : UInt64
  arg2 : UInt64
deriving DecidableEq, Repr

namespace SyscallArgs

/-- The arguments in `dispatcher`. -/
def new (context : ProcessContext) : SyscallArgs :=
  ⟨context.regs.rax, context.regs.rdi, context.regs.rsi, context.regs.rdx⟩

/-- `args.arg1 as u32` -/
def key (args : SyscallArgs) : SemaphoreId := args.arg1.toNat % 2 ^ 32

/-- The call of `sem_wait` or `sem_signal`. -/
def op (args : SyscallArgs) : Op := if args.arg0 = 1 then .semWait args.key else .semSignal args.key

end SyscallArgs

def sysSem (args : SyscallArgs) (context : ProcessContext) (k : Kernel α) :
    Except Panic (Kernel α × ProcessContext) :=
  match args.arg0.toNat with
  | 0 => do
      let (ret, k) ← Proc.semNew args.key args.arg2.toNat k
      return (k, context.setRax (UInt64.ofNat ret))
  | 1 => Proc.semWait B args.key context k
  | 2 => Proc.semSignal B args.key context k
  | 3 => do
      let (ret, k) ← Proc.removeSem args.key k
      return (k, context.setRax (UInt64.ofNat ret))
  | _ => .ok (k, context.setRax 0xffffffffffffffff)

/-- What `sys_sem_wait` and `sys_sem_signal` of the `lib` return. -/
def semReturn (context : ProcessContext) : Bool := context.regs.rax = 0

/-- The semaphore of the current process with this key. -/
def Kernel.semaphore (k : Kernel α) (key : SemaphoreId) : Option Semaphore :=
  (Proc.currentSemaphores k).toOption.bind fun i => k.semaphoreSets i key

variable {B} {b : BootInfo α} {k k' s s₁ t : Kernel α} {key value : ℕ} {c c' c₁ : ProcessContext}
  {args : SyscallArgs} {sem : Semaphore}

omit [FrameAllocator α] in
theorem Kernel.semaphore_some (h : k.semaphore key = some sem) :
    ∃ i, Proc.currentSemaphores k = .ok i ∧ k.semaphoreSets i key = some sem := by
  obtain ⟨i, hi, hsem⟩ := Option.bind_eq_some_iff.mp h
  exact ⟨i, ok_of_toOption hi, hsem⟩

omit [FrameAllocator α] in
theorem Kernel.semaphore_eq {i : Ref} (h : Proc.currentSemaphores k = .ok i) :
    k.semaphore key = k.semaphoreSets i key := by
  rw [semaphore, h]
  rfl

/-! ### `sem_new` -/

theorem Semaphore.eq_new_iff : sem = Semaphore.new value ↔ sem.count = value ∧ sem.waitQueue = [] := by
  rcases sem with ⟨count, queue⟩
  exact Semaphore.mk.injEq _ _ _ _ ▸ Iff.rfl

theorem SemaphoreSet.insert_same_iff {sems : SemaphoreSet} (h : sems key = some sem) :
    sems.insert key value = (false, sems) ↔ sem.count = value ∧ sem.waitQueue = [] := by
  rw [SemaphoreSet.insert, h, ← Semaphore.eq_new_iff]
  constructor
  · intro he
    have hkey := congrFun (Prod.mk.inj he).2 key
    rw [Function.update_self, h] at hkey
    exact (Option.some.inj hkey).symm
  · rintro rfl
    rw [← h, Function.update_eq_self, h]
    rfl

omit [FrameAllocator α] in
theorem setSemaphores_same_iff {i : Ref} {sems : SemaphoreSet} :
    Proc.setSemaphores k i sems = k ↔ sems = k.semaphoreSets i := by
  constructor
  · intro h
    have hsets : Function.update k.semaphoreSets i sems = k.semaphoreSets :=
      congrArg Kernel.semaphoreSets h
    exact Function.update_eq_self_iff.mp hsets
  · rintro rfl
    rw [Proc.setSemaphores, Function.update_eq_self]

omit [FrameAllocator α] in
theorem semNew_refused {i : Ref} (hi : Proc.currentSemaphores k = .ok i)
    (hsem : k.semaphoreSets i key = some sem) : Proc.semNew key value k =
      .ok (1, Proc.setSemaphores k i ((k.semaphoreSets i).insert key value).2) := by
  simp only [Proc.semNew, hi, bind_eq_ok]
  refine ⟨i, rfl, ?_⟩
  rw [SemaphoreSet.insert, hsem]
  rfl

omit [FrameAllocator α] in
/-- **A refused `sem_new`.**  With a key that is in use the call returns 1 and leaves all other
semaphores as they were; it changes nothing exactly when nobody waits for the semaphore and its
count is the new value. -/
theorem sysSem_refused_iff (hnew : args.arg0 = 0) (hsem : k.semaphore args.key = some sem) :
    ∃ i k', Proc.currentSemaphores k = .ok i ∧ sysSem B args c k = .ok (k', c.setRax 1) ∧
      k'.semaphoreSets i args.key = some (Semaphore.new args.arg2.toNat) ∧
      (∀ j key, ¬ (j = i ∧ key = args.key) → k'.semaphoreSets j key = k.semaphoreSets j key) ∧
      { k' with semaphoreSets := k.semaphoreSets } = k ∧
      (k' = k ↔ sem.count = args.arg2.toNat ∧ sem.waitQueue = []) := by
  obtain ⟨i, hi, hsem⟩ := Kernel.semaphore_some hsem
  refine ⟨i, Proc.setSemaphores k i ((k.semaphoreSets i).insert args.key args.arg2.toNat).2, hi, ?_, ?_,
    fun j key hne => ?_, rfl, ?_⟩
  · rw [sysSem, hnew]
    show (Proc.semNew args.key args.arg2.toNat k >>= _) = _
    rw [semNew_refused hi hsem]
    rfl
  · simp only [Proc.setSemaphores, SemaphoreSet.insert, Function.update_self]
  · by_cases hj : j = i
    · subst hj
      have hkey : key ≠ args.key := fun he => hne ⟨rfl, he⟩
      simp only [Proc.setSemaphores, SemaphoreSet.insert, Function.update_self,
        Function.update_of_ne hkey]
    · simp only [Proc.setSemaphores, Function.update_of_ne hj]
  · rw [setSemaphores_same_iff, ← SemaphoreSet.insert_same_iff hsem, Prod.ext_iff]
    refine (and_iff_right ?_).symm
    rw [SemaphoreSet.insert, hsem]
    rfl

/-- Process 2 makes the semaphore 0 with one permit twice. -/
theorem sysSem_refused_example : ∃ k k' : Kernel BootInfoFrameAllocator,
    sysSem Build.release ⟨66, 0, 0, 1⟩ default k = .ok (k', ProcessContext.setRax default 1) ∧
      k' = k := by
  have hs : (execCalls Any default [.spawn "sh", .switch, .semNew 0 1]).map
      (fun s => s.semaphore 0) = some (some (Semaphore.new 1)) := by
    decide +kernel
  obtain ⟨k, -, hone⟩ := Option.map_eq_some_iff.mp hs
  have hnew : (SyscallArgs.mk 66 0 0 1).arg0 = 0 := rfl
  have hsem : k.semaphore (SyscallArgs.mk 66 0 0 1).key = some (Semaphore.new 1) := hone
  obtain ⟨i, k', -, hcall, -, -, -, hsame⟩ :=
    sysSem_refused_iff (B := Build.release) (c := default) hnew hsem
  exact ⟨k, k', hcall, hsame.mpr ⟨rfl, rfl⟩⟩

/-- Process 2 waits at the semaphore 0, which process 3 makes again. -/
theorem refused_semNew_forgets : ¬ ∀ (b : BootInfo BootInfoFrameAllocator)
    (k k' : Kernel BootInfoFrameAllocator) (args : SyscallArgs) (c c' : ProcessContext)
    (sem : Semaphore), Run (step Build.release) Any (boot b) k → args.arg0 = 0 →
      k.semaphore args.key = some sem → sysSem Build.release args c k = .ok (k', c') →
      k'.semaphore args.key = some sem := by
  intro hall
  have hs : (execCalls Any default [.spawn "sh", .switch, .semNew 0 0, .vfork, .switch,
      .switch, .semWait 0, .switch]).map (fun s => (s.semaphore 0,
        ((sysSem Build.release ⟨66, 0, 0, 0⟩ default s).toOption.map fun x =>
          x.1.semaphore 0))) = some (some ⟨0, [2]⟩, some (some ⟨0, []⟩)) := by
    decide +kernel
  obtain ⟨k, hk, hval⟩ := Option.map_eq_some_iff.mp hs
  obtain ⟨hsem, hnew⟩ := Prod.mk.inj hval
  obtain ⟨⟨k', c'⟩, hcall, hlost⟩ := Option.map_eq_some_iff.mp hnew
  have hkept : k'.semaphore 0 = some ⟨0, [2]⟩ :=
    hall smallMachine k k' ⟨66, 0, 0, 0⟩ default c' _ (run_of_exec hk) rfl hsem (ok_of_toOption hcall)
  exact absurd (hlost.symm.trans hkept) (by decide)

/-! ### `sem_wait` and `sem_signal` -/

/-- `rax` is 0 if the key exists in `k`, and 1 if it does not. -/
def Reports (k : Kernel α) (key : SemaphoreId) (c' : ProcessContext) : Prop :=
  c'.regs.rax = if (k.semaphore key).isSome then 0 else 1

/-- The key does not exist, or `wait` finds a permit, or `signal` finds nobody who waits. -/
def AtOnce (k : Kernel α) (args : SyscallArgs) : Prop :=
  ∀ sem ∈ k.semaphore args.key, if args.arg0 = 1 then sem.count ≠ 0 else sem.waitQueue = []

omit [FrameAllocator α] in
theorem semWait_cases (h : Proc.semWait B key c k = .ok (k', c')) :
    (k'.processor = k.processor ∧ Reports k key c' ∧ ∀ sem ∈ k.semaphore key, sem.count ≠ 0) ∨
    (∃ sem ∈ k.semaphore key, sem.count = 0) ∧ k.table.BlocksAt key := by
  simp only [Proc.semWait, bind_eq_ok] at h
  obtain ⟨r, hr, i, hi, h⟩ := h
  obtain ⟨r', d, hr', hd, rfl⟩ := Kernel.currentSemaphores_ok hi
  rw [Reports, Kernel.semaphore_eq hi]
  unfold SemaphoreSet.wait at h
  rcases hsem : k.semaphoreSets d.semaphores key with _ | sem
  · rw [hsem] at h
    cases h
    exact Or.inl ⟨rfl, rfl, by rintro sem ⟨⟩⟩
  · rw [hsem] at h
    by_cases hzero : sem.count = 0
    · exact Or.inr ⟨⟨sem, rfl, hzero⟩, r', hr', d, hd, sem, hsem, hzero⟩
    · simp only [Semaphore.wait, if_neg hzero] at h
      cases h
      refine Or.inl ⟨rfl, rfl, fun sem' hsem' => ?_⟩
      cases hsem'
      exact hzero

omit [FrameAllocator α] in
theorem Kernel.wakeUp_processor {pid : ProcessId} {ret : Option Int64} :
    (k.wakeUp pid ret).processor = k.processor := by
  unfold wakeUp
  split
  · rfl
  · rfl

omit [FrameAllocator α] in
theorem semSignal_cases (h : Proc.semSignal B key c k = .ok (k', c')) :
    k'.processor = k.processor ∧
      (Reports k key c' ∧ (∀ sem ∈ k.semaphore key, sem.waitQueue = []) ∨
        (∃ sem ∈ k.semaphore key, sem.waitQueue ≠ []) ∧ c' = c) := by
  simp only [Proc.semSignal, bind_eq_ok] at h
  obtain ⟨i, hi, ⟨result, sems⟩, hsignal, h⟩ := h
  rw [Reports, Kernel.semaphore_eq hi]
  unfold SemaphoreSet.signal at hsignal
  rcases hsem : k.semaphoreSets i key with _ | sem
  · rw [hsem] at hsignal
    cases hsignal
    cases h
    exact ⟨rfl, Or.inl ⟨rfl, by rintro sem ⟨⟩⟩⟩
  · rw [hsem] at hsignal
    simp only [bind_eq_ok] at hsignal
    obtain ⟨⟨result', sem'⟩, hsignal, hpure⟩ := hsignal
    cases hpure
    unfold Semaphore.signal at hsignal
    rcases hqueue : sem.waitQueue with _ | ⟨pid, rest⟩
    · rw [hqueue] at hsignal
      simp only [bind_eq_ok] at hsignal
      obtain ⟨count, -, hpure⟩ := hsignal
      cases hpure
      cases h
      refine ⟨rfl, Or.inl ⟨rfl, fun sem' hsem' => ?_⟩⟩
      cases hsem'
      exact hqueue
    · rw [hqueue] at hsignal
      cases hsignal
      cases h
      exact ⟨Kernel.wakeUp_processor, Or.inr ⟨⟨sem, rfl, by rw [hqueue]; exact List.cons_ne_nil _ _⟩, rfl⟩⟩

theorem ResumesIn.at_once {D : Kernel α → Call → Kernel α → Prop} {p : ProcessId}
    (h : ResumesIn B D p s c t c') (hp : s.processor = p) : t = s ∧ c' = c := by
  cases h with
  | now => exact ⟨rfl, rfl⟩
  | later hne => exact absurd hp hne

theorem sysSem_op (hop : args.arg0 = 1 ∨ args.arg0 = 2) :
    sysSem B args c k = step B k (args.op, c) := by
  rw [sysSem, SyscallArgs.op]
  rcases hop with hop | hop
  · rw [hop]
    rfl
  · rw [hop]
    rfl

/-- A call either is complete at once and reports the truth, or returns the context as it is, or
blocks the caller. -/
theorem sysSem_cases (hop : args.arg0 = 1 ∨ args.arg0 = 2)
    (h : sysSem B args c s = .ok (s₁, c₁)) :
    (AtOnce s args ∧ s₁.processor = s.processor ∧ Reports s args.key c₁) ∨
    ¬ AtOnce s args ∧ (s.semaphore args.key).isSome ∧
      (s₁.processor = s.processor ∧ c₁ = c ∨
        args.op = .semWait args.key ∧ s.table.BlocksAt args.key) := by
  rw [sysSem_op hop, SyscallArgs.op] at h
  rw [SyscallArgs.op]
  unfold AtOnce
  rcases hop with hop | hop
  · simp only [hop, if_true] at h ⊢
    rcases semWait_cases h with ⟨hproc, hreports, hall⟩ | ⟨⟨sem, hsem, hzero⟩, hblock⟩
    · exact Or.inl ⟨hall, hproc, hreports⟩
    · exact Or.inr ⟨fun hall => hall sem hsem hzero, Option.isSome_of_mem hsem,
        Or.inr ⟨trivial, hblock⟩⟩
  · have hne : ¬ args.arg0 = 1 := by rw [hop]; decide
    simp only [if_neg hne] at h ⊢
    obtain ⟨hproc, ⟨hreports, hall⟩ | ⟨⟨sem, hsem, hqueue⟩, hc⟩⟩ := semSignal_cases h
    · exact Or.inl ⟨hall, hproc, hreports⟩
    · exact Or.inr ⟨fun hall => hqueue (hall sem hsem), Option.isSome_of_mem hsem,
        Or.inl ⟨hproc, hc⟩⟩

omit [FrameAllocator α] in
theorem Reports.semReturn (h : Reports k key c) : semReturn c = (k.semaphore key).isSome := by
  rw [Ysos.semReturn, h]
  cases (k.semaphore key).isSome with
  | true => rfl
  | false => rfl

omit [FrameAllocator α] in
/-- The number of the system call is neither result, and the `lib` takes it for a failure. -/
theorem number_misreports (hc : c.regs.rax = SYSCALL_SEM) (hsome : (k.semaphore key).isSome) :
    ¬ Reports k key c ∧ semReturn c ≠ (k.semaphore key).isSome := by
  rw [Reports, semReturn, hc, hsome]
  decide

/-- **What the semaphore calls report.**  A `sem_wait` or `sem_signal` that is complete at once
returns to its caller with 0 if the key exists, and with 1 if it does not.  If the kernel process
runs on, every other such call leaves the number of the system call in `rax`, when its caller next
runs. -/
theorem sysSem_reports_iff (hargs : args = SyscallArgs.new c) (hc : args.syscall = SYSCALL_SEM)
    (hop : args.arg0 = 1 ∨ args.arg0 = 2) (hcall : sysSem B args c s = .ok (s₁, c₁)) :
    (AtOnce s args → ∀ t c', ResumesIn B Any s.processor s₁ c₁ t c' →
      t = s₁ ∧ Reports s args.key c' ∧ semReturn c' = (s.semaphore args.key).isSome) ∧
    (Run (step B) KernelKept (boot b) s → KernelKept s (args.op, c) s₁ →
      ∀ t c', Resumes B s.processor s₁ c₁ t c' →
        ((Reports s args.key c' ↔ AtOnce s args) ∧
          (semReturn c' = (s.semaphore args.key).isSome ↔ AtOnce s args))) := by
  rcases sysSem_cases hop hcall with ⟨hat, hproc, hreports⟩ | ⟨hnot, hsome, hreturn⟩
  · refine ⟨fun _ t c' hres => ?_, fun _ _ t c' hres => ?_⟩
    · obtain ⟨rfl, rfl⟩ := hres.at_once hproc
      exact ⟨rfl, hreports, hreports.semReturn⟩
    · obtain ⟨rfl, rfl⟩ := hres.kernelKept.at_once hproc
      exact ⟨iff_of_true hreports hat, iff_of_true hreports.semReturn hat⟩
  · refine ⟨fun hat => absurd hat hnot, fun hrun hC t c' hres => ?_⟩
    have hsame : c' = c := by
      rcases hreturn with ⟨hproc, rfl⟩ | ⟨hwait, hblock⟩
      · exact (hres.kernelKept.at_once hproc).2
      · -- a blocked caller goes on with the context that was saved
        rw [sysSem_op hop, hwait] at hcall
        rw [hwait] at hC
        exact (contexts_kept hrun hcall hC).1 t c' hres hblock
    have hnumber : c'.regs.rax = SYSCALL_SEM := by
      rw [hsame, ← hc, hargs]
      rfl
    obtain ⟨hreports, hlib⟩ := number_misreports hnumber hsome
    exact ⟨iff_of_false hreports hnot, iff_of_false hlib hnot⟩

/-- The registers that `syscall!(Syscall::Sem, op, key)` sets. -/
def semContext (op key : UInt64) : ProcessContext :=
  { (default : ProcessContext) with
    regs := { (default : ProcessContext).regs with rax := SYSCALL_SEM, rdi := op, rsi := key } }

/-- Process 2 takes the one permit of the semaphore 0. -/
theorem sysSem_reports_example : ∃ (s s₁ : Kernel BootInfoFrameAllocator) (c₁ : ProcessContext),
    sysSem Build.release (.new (semContext 1 0)) (semContext 1 0) s = .ok (s₁, c₁) ∧
      semReturn c₁ = true := by
  have hs : (execCalls Any default [.spawn "sh", .switch, .semNew 0 1]).bind (fun s =>
      (sysSem Build.release (.new (semContext 1 0)) (semContext 1 0) s).toOption.map fun x =>
        (s.semaphore 0, s.processor, x.1.processor)) = some (some (Semaphore.new 1), 2, 2) := by
    decide +kernel
  obtain ⟨s, hs, hval⟩ := Option.bind_eq_some_iff.mp hs
  obtain ⟨⟨s₁, c₁⟩, hcall, hval⟩ := Option.map_eq_some_iff.mp hval
  simp only [Prod.mk.injEq] at hval
  obtain ⟨hzero, htwo, htwo'⟩ := hval
  have hsem : s.semaphore (SyscallArgs.new (semContext 1 0)).key = some (Semaphore.new 1) := hzero
  have hcall := ok_of_toOption hcall
  have hat : AtOnce s (.new (semContext 1 0)) := fun sem hmem => by
    rw [hsem] at hmem
    cases hmem
    decide
  have hres : ResumesIn Build.release Any s.processor s₁ c₁ s₁ c₁ := .now (by rw [htwo, htwo'])
  obtain ⟨-, -, hlib⟩ :=
    (sysSem_reports_iff (b := smallMachine) rfl rfl (Or.inl rfl) hcall).1 hat s₁ c₁ hres
  refine ⟨s, s₁, c₁, hcall, ?_⟩
  rw [hlib, hsem]
  rfl

/-- Process 3 wakes process 2, and goes on with the number of the system call. -/
theorem signal_misreports : ¬ ∀ (b : BootInfo BootInfoFrameAllocator)
    (s s₁ t : Kernel BootInfoFrameAllocator) (args : SyscallArgs) (c c₁ c' : ProcessContext),
    Run (step Build.release) Any (boot b) s → args = SyscallArgs.new c →
      args.syscall = SYSCALL_SEM → args.arg0 = 1 ∨ args.arg0 = 2 →
      sysSem Build.release args c s = .ok (s₁, c₁) →
      ResumesIn Build.release Any s.processor s₁ c₁ t c' → Reports s args.key c' := by
  intro hall
  have hs : (execCalls Any default [.spawn "sh", .switch, .semNew 0 0, .vfork, .switch,
      .switch, .semWait 0, .switch]).bind (fun s =>
      (sysSem Build.release (.new (semContext 2 0)) (semContext 2 0) s).toOption.map fun x =>
        ((s.semaphore 0).isSome, s.processor, x.1.processor, x.2.regs.rax)) =
      some (true, 3, 3, 66) := by
    decide +kernel
  obtain ⟨s, hs, hval⟩ := Option.bind_eq_some_iff.mp hs
  obtain ⟨⟨s₁, c₁⟩, hcall, hval⟩ := Option.map_eq_some_iff.mp hval
  simp only [Prod.mk.injEq] at hval
  obtain ⟨hsome, hthree, hthree', hrax⟩ := hval
  have hreports := hall smallMachine s s₁ s₁ _ (semContext 2 0) c₁ c₁ (run_of_exec hs) rfl rfl
    (Or.inr rfl) (ok_of_toOption hcall) (.now (by rw [hthree, hthree']))
  exact (number_misreports hrax hsome).1 hreports

end Ysos
