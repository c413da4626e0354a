import Ysos.Manager

/-! # The entry points of the process manager (`proc/mod.rs`)

The clock interrupt and the system calls enter the process manager through the functions of
`proc/mod.rs`.  They run without interrupts, so that a run of the kernel is a sequence of such
calls (`step`), each by the process on the processor with the context it was interrupted in;
the call leaves the context that the processor goes on with.  What `spawn`, `sem_new`,
`remove_sem` and `brk` return is for the caller in `interrupt/syscall/service.rs`. -/

namespace Ysos

open Runs

variable {α : Type} [FrameAllocator α] (B : Build)

namespace Proc

def switch (context : ProcessContext) (k : Kernel α) :
    Except Panic (Kernel α × ProcessContext) := do
  let (pid, k) ← k.saveCurrent B context
  let (_, context, k) ← (k.pushReady pid).switchNext context
  return (k, context)

def processExit (ret : Int64) (context : ProcessContext) (k : Kernel α) :
    Except Panic (Kernel α × ProcessContext) := do
  let k ← k.killSelf B ret
  let (_, context, k) ← k.switchNext context
  return (k, context)

def waitPid (pid : ProcessId) (context : ProcessContext) (k : Kernel α) :
    Except Panic (Kernel α × ProcessContext) :=
  match k.getExitCode pid with
  | some ret => .ok (k, context.setRax ret.toUInt64)
  | none => do
      let k ← k.waitPid pid
      let (_, k) ← k.saveCurrent B context
      let r ← k.current
      let (_, context, k) ← (k.modify r ProcessInner.block).switchNext context
      return (k, context)

def kill (pid : ProcessId) (context : ProcessContext) (k : Kernel α) :
    Except Panic (Kernel α × ProcessContext) := do
  if pid = (← k.getPid) then
    let k ← k.killSelf B 0xdead
    let (_, context, k) ← k.switchNext context
    return (k, context)
  else
    let k ← k.kill B pid 0xdead
    return (k, context)

def elfSpawn (name : String) (elf : ElfFile) (k : Kernel α) :
    Except Panic (Except String ProcessId × Kernel α) := do
  let parent ← k.current
  let (pid, k) ← k.spawn B elf name (some (some parent)) none
  return (.ok pid, k)

def spawn (name : String) (k : Kernel α) : Except Panic (Except String ProcessId × Kernel α) :=
  match k.appList.bind fun apps => apps.find? fun app => app.name = name with
  | none => .ok (.error s!"App not found: {name}", k)
  | some app => elfSpawn B name app.elf k

def vfork (context : ProcessContext) (k : Kernel α) : Except Panic (Kernel α × ProcessContext) := do
  let (pid, k) ← k.saveCurrent B context
  let k ← k.vfork B
  let (_, context, k) ← (k.pushReady pid).switchNext context
  return (k, context)

/-- The semaphores of the current process. -/
def currentSemaphores (k : Kernel α) : Except Panic Ref := do
  let d ← (k.heap (← k.current)).inner.data
  return d.semaphores

def setSemaphores (k : Kernel α) (i : Ref) (sems : SemaphoreSet) : Kernel α :=
  { k with semaphoreSets := Function.update k.semaphoreSets i sems }

def semNew (key value : ℕ) (k : Kernel α) : Except Panic (ℕ × Kernel α) := do
  let i ← currentSemaphores k
  let (new, sems) := (k.semaphoreSets i).insert key value
  return (if new then 0 else 1, setSemaphores k i sems)

def removeSem (key : ℕ) (k : Kernel α) : Except Panic (ℕ × Kernel α) := do
  let i ← currentSemaphores k
  let (old, sems) := (k.semaphoreSets i).remove key
  return (if old then 0 else 1, setSemaphores k i sems)

def semWait (key : ℕ) (context : ProcessContext) (k : Kernel α) :
    Except Panic (Kernel α × ProcessContext) := do
  let pid := (k.heap (← k.current)).pid
  let i ← currentSemaphores k
  let (result, sems) := (k.semaphoreSets i).wait key pid
  let k := setSemaphores k i sems
  match result with
  | .ok => return (k, context.setRax 0)
  | .block pid => do
      let (_, k) ← k.saveCurrent B context
      let (_, context, k) ← (k.block pid).switchNext context
      return (k, context)
  | .notExist => return (k, context.setRax 1)
  | .wakeUp _ => .error .unreachable

def semSignal (key : ℕ) (context : ProcessContext) (k : Kernel α) :
    Except Panic (Kernel α × ProcessContext) := do
  let i ← currentSemaphores k
  let (result, sems) ← (k.semaphoreSets i).signal B key
  let k := setSemaphores k i sems
  match result with
  | .ok => return (k, context.setRax 0)
  | .wakeUp pid => return (k.wakeUp pid none, context)
  | .notExist => return (k, context.setRax 1)
  | .block _ => .error .unreachable

def brk (addr : Option ℕ) (k : Kernel α) : Except Panic (Option ℕ × Kernel α) := do
  let r ← k.current
  let vm ← (k.heap r).inner.vm .brk
  let (result, v) := vm.brk addr (k.vm vm.pageTable)
  return (result, k.setVm vm.pageTable v)

/-- `page_fault_handler`, which panics when the fault is not handled. -/
def pageFault (addr : ℕ) (protectionViolation : Bool) (k : Kernel α) :
    Except Panic (Kernel α) := do
  match ← k.handlePageFault B addr protectionViolation with
  | (true, k) => return k
  | (false, _) => .error .pageFault

end Proc

/-- A call of a function of `proc/mod.rs`. -/
inductive Op where
  | switch
  | spawn (name : String)
  | processExit (ret : Int64)
  | waitPid (pid : ProcessId)
  | kill (pid : ProcessId)
  | vfork
  | semNew (key value : ℕ)
  | removeSem (key : ℕ)
  | semWait (key : ℕ)
  | semSignal (key : ℕ)
  | brk (addr : Option ℕ)
  | pageFault (addr : ℕ) (protectionViolation : Bool)
deriving DecidableEq, Repr

/-- A call, with the context of the process that makes it. -/
abbrev Call := Op × ProcessContext

/-- One call. -/
def step (k : Kernel α) : Call → Except Panic (Kernel α × ProcessContext)
  | (.switch, c) => Proc.switch B c k
  | (.spawn name, c) => do
      let (_, k) ← Proc.spawn B name k
      return (k, c)
  | (.processExit ret, c) => Proc.processExit B ret c k
  | (.waitPid pid, c) => Proc.waitPid B pid c k
  | (.kill pid, c) => Proc.kill B pid c k
  | (.vfork, c) => Proc.vfork B c k
  | (.semNew key value, c) => do
      let (_, k) ← Proc.semNew key value k
      return (k, c)
  | (.removeSem key, c) => do
      let (_, k) ← Proc.removeSem key k
      return (k, c)
  | (.semWait key, c) => Proc.semWait B key c k
  | (.semSignal key, c) => Proc.semSignal B key c k
  | (.brk addr, c) => do
      let (_, k) ← Proc.brk addr k
      return (k, c)
  | (.pageFault addr violation, c) => do
      let k ← Proc.pageFault B addr violation k
      return (k, c)

/-! ### Boot -/

/-- What the kernel starts from: the page table in `CR3`, the pages of the kernel, the apps, the
memory and the selectors in the `GDT`. -/
structure BootInfo (α : Type) where
  table : PageTable
  cr3 : Frame
  kernelPages : List PageRangeInclusive
  loadApps : Option (List App)
  alloc : α
  phys : Frame → ℕ → UInt8
  userSelectors : UserSelectors

/-- The kernel without processes. -/
def BootInfo.bare (b : BootInfo α) : Kernel α where
  heap := fun _ => default
  strong := fun _ => 0
  created := 0
  processes := fun _ => none
  readyQueue := []
  appList := b.loadApps
  waitQueue := fun _ => none
  processor := 0
  semaphoreSets := fun _ => SemaphoreSet.empty
  spaces := fun _ =>
    { table := b.table, addr := b.cr3, usingCount := 1, heapEnd := HEAP_START }
  alloc := b.alloc
  phys := b.phys
  userSelectors := b.userSelectors

/-- `proc::init`: the kernel process runs. -/
def boot (b : BootInfo α) : Kernel α :=
  let procVm := (ProcessVm.new 1).initKernelVm b.kernelPages
  let (r, k) := b.bare.newProcess "kernel" none procVm none
  let k := k.modify r ProcessInner.resume
  let pid := (k.heap r).pid
  { k with
    processor := pid
    processes := Function.update k.processes pid (some r) }

end Ysos
