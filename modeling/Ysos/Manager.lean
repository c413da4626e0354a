import Ysos.Process

/-! # The process manager (`proc/manager.rs`)

The methods of `ProcessManager` on the state of the kernel, with the methods of `Process` and
`ProcessInner` that touch other processes or the memory.

Dropping the last `Arc` of a process drops its children and its memory (`Kernel.release`).
While a process is in the table it has an `Arc`, so this happens only when the ids have wrapped
and a new process takes the place of an old one. -/

namespace Ysos

open Runs

variable {α : Type} [FrameAllocator α] (B : Build)

namespace Kernel

/-! ### The processor, the table and the ready queue -/

/-- `processor::get_pid`. -/
def getPid (k : Kernel α) : Except Panic ProcessId :=
  if k.processor = 0 then .error .noCurrentProcess else .ok k.processor

def getProc (k : Kernel α) (pid : ProcessId) : Option Ref := k.processes pid

def pushReady (k : Kernel α) (pid : ProcessId) : Kernel α :=
  { k with readyQueue := k.readyQueue ++ [pid] }

def getExitCode (k : Kernel α) (pid : ProcessId) : Option Int64 :=
  (k.getProc pid).bind fun r => (k.heap r).inner.exitCode

def current (k : Kernel α) : Except Panic Ref := do
  match k.getProc (← k.getPid) with
  | some r => return r
  | none => .error .noCurrentProcess

def waitPid (k : Kernel α) (pid : ProcessId) : Except Panic (Kernel α) := do
  let entry := (k.waitQueue pid).getD SortedSet.empty
  let cur ← k.getPid
  return { k with waitQueue := Function.update k.waitQueue pid (some (entry.insert cur)) }

def block (k : Kernel α) (pid : ProcessId) : Kernel α :=
  match k.getProc pid with
  | some r => k.modify r ProcessInner.block
  | none => k

def saveCurrent (context : ProcessContext) (k : Kernel α) : Except Panic (ProcessId × Kernel α) := do
  let r ← k.current
  let p ← (k.heap r).inner.tick B
  return ((k.heap r).pid, k.modify r fun _ => p.save context)

/-- `restore` of the process behind `r`. -/
def restore (r : Ref) (context : ProcessContext) (k : Kernel α) :
    Except Panic (ProcessContext × Kernel α) := do
  let (context, p) ← (k.heap r).inner.restore context
  return (context, k.modify r fun _ => p)

/-- The loop of `switch_next` over the ready queue, with the current id. -/
def switchLoop (pid : ProcessId) (context : ProcessContext) (k : Kernel α) :
    List ProcessId → Except Panic (ProcessId × ProcessContext × Kernel α)
  | [] => .ok (pid, context, { k with readyQueue := [] })
  | next :: queue =>
      match k.getProc next with
      | none => .error .processNotFound
      | some r =>
          if (k.heap r).inner.status ≠ .ready then switchLoop pid context k queue
          else if pid ≠ next then do
            let (context, k) ← k.restore r context
            return (next, context, { k with readyQueue := queue, processor := next })
          else .ok (pid, context, { k with readyQueue := queue })

def switchNext (context : ProcessContext) (k : Kernel α) :
    Except Panic (ProcessId × ProcessContext × Kernel α) := do
  k.switchLoop (← k.getPid) context k.readyQueue

/-- `wake_up`; `ret` is the result of the call that the process waits in. -/
def wakeUp (k : Kernel α) (pid : ProcessId) (ret : Option Int64) : Kernel α :=
  match k.getProc pid with
  | some r =>
      let wake (p : ProcessInner) : ProcessInner :=
        match ret with
        | some ret => (p.setReturn ret.toUInt64).pause
        | none => p.pause
      (k.modify r wake).pushReady pid
  | none => k

/-! ### Objects -/

/-- The memory of a process is dropped. -/
def dropVm (r : Ref) (k : Kernel α) : Except Panic (Kernel α) :=
  match (k.heap r).inner.procVm with
  | some vm => do return k.setVm vm.pageTable (← vm.drop B (k.vm vm.pageTable))
  | none => .ok k

/-- An `Arc` of a process is dropped.  A child is newer than its parent, so as many levels as
there are processes are enough. -/
def release : ℕ → Ref → Kernel α → Except Panic (Kernel α)
  | 0, _, k => .ok k
  | n + 1, r, k => do
      let k := { k with strong := Function.update k.strong r (k.strong r - 1) }
      if k.strong r = 0 then
        let k ← (k.heap r).inner.children.foldlM (fun k c => release n c k) k
        k.dropVm B r
      else return k

/-- Several `Arc`s are dropped one by one. -/
def releaseAll (rs : List Ref) (k : Kernel α) : Except Panic (Kernel α) :=
  rs.foldlM (fun k r => k.release B k.created r) k

/-- `add_proc`; an older process with this id loses its place in the table. -/
def addProc (pid : ProcessId) (r : Ref) (k : Kernel α) : Except Panic (Kernel α) :=
  { k with processes := Function.update k.processes pid (some r) }.releaseAll B
    (k.processes pid).toList

/-- `Process::new` with a memory. -/
def newProcess (name : String) (parent : Option Weak) (procVm : ProcessVm)
    (procData : Option ProcessData) (k : Kernel α) : Ref × Kernel α :=
  let r := k.created + 1
  let inner : ProcessInner :=
    { name := name.toLower, parent := parent, status := .ready, context := default,
      ticksPassed := 0, exitCode := none, children := [], procVm := some procVm,
      procData := some (procData.getD ⟨r⟩) }
  (r, { k with
    created := r
    heap := Function.update k.heap r ⟨r % PIDS, inner⟩
    strong := Function.update k.strong r 1
    semaphoreSets :=
      if procData.isNone then Function.update k.semaphoreSets r SemaphoreSet.empty
      else k.semaphoreSets })

def removeChild (parent : Ref) (child : ProcessId) (k : Kernel α) : Except Panic (Kernel α) :=
  let children := (k.heap parent).inner.children
  (k.modify parent fun p =>
      { p with children := children.filter fun c => (k.heap c).pid ≠ child }).releaseAll B
    (children.filter fun c => (k.heap c).pid = child)

/-- `set_parent` of some children. -/
def setParents (children : List Ref) (parent : Weak) (k : Kernel α) : Kernel α :=
  children.foldl (fun k c => k.modify c fun p => p.setParent parent) k

/-- The first part of `ProcessInner::kill`: the process leaves its parent, and its children go
to the parent if that has not exited. -/
def leaveParent (r : Ref) (k : Kernel α) : Except Panic (Kernel α) :=
  let inner := (k.heap r).inner
  match k.parent inner with
  | some p =>
      if (k.heap p).inner.exitCode.isNone then do
        let k ← k.removeChild B p (k.heap r).pid
        return k.setParents inner.children (some p)
      else .ok (k.setParents inner.children none)
  | none => .ok k

/-- `Process::kill`. -/
def killProcess (r : Ref) (ret : Int64) (k : Kernel α) : Except Panic (Kernel α) := do
  let k ← k.leaveParent B r
  let k ← k.dropVm B r
  return k.modify r fun p =>
    { p with procVm := none, procData := none, exitCode := some ret, status := .dead }

def kill (pid : ProcessId) (ret : Int64) (k : Kernel α) : Except Panic (Kernel α) :=
  match k.getProc pid with
  | some r => do
      let k ← k.killProcess B r ret
      match k.waitQueue pid with
      | some waiters =>
          return waiters.elems.foldl (fun k waiter => k.wakeUp waiter (some ret))
            { k with waitQueue := Function.update k.waitQueue pid none }
      | none => return k
  | none => .ok k

def killSelf (ret : Int64) (k : Kernel α) : Except Panic (Kernel α) := do
  k.kill B (← k.getPid) ret

/-! ### New processes -/

/-- `clone_page_table` of the process behind `r`, for the next process.  The source copies the
top-level table only, so the tables below it are shared; the copy has here the pages that they map
now, and what is mapped through a shared table later is left out. -/
def clonePageTable (r : Ref) (k : Kernel α) : Except Panic (SpaceId × Kernel α) := do
  let vm ← (k.heap r).inner.vm .clonePageTable
  let space := k.spaces vm.pageTable
  match allocateFrame k.alloc with
  | (none, _) => .error .noFrame
  | (some frame, alloc) =>
      let copy : AddressSpace :=
        { table := space.table, addr := frame, usingCount := 1, heapEnd := HEAP_START }
      return (k.created + 1,
        { k with
          alloc := alloc
          phys := Function.update k.phys frame (k.phys space.addr)
          spaces := Function.update k.spaces (k.created + 1) copy })

/-- `load_elf` into the process behind `r`. -/
def loadElf (r : Ref) (elf : ElfFile) (k : Kernel α) : Except Panic (Kernel α) := do
  let vm ← (k.heap r).inner.vm .loadElf
  let (vm', v) ← vm.loadElf B elf (k.vm vm.pageTable)
  return (k.setVm vm.pageTable v).modify r fun p => { p with procVm := some vm' }

def spawn (elf : ElfFile) (name : String) (parent : Option Weak) (procData : Option ProcessData)
    (k : Kernel α) : Except Panic (ProcessId × Kernel α) := do
  match k.getProc KERNEL_PID with
  | none => .error .noKernelProcess
  | some kproc =>
      let (pageTable, k) ← k.clonePageTable kproc
      let (r, k) := k.newProcess name parent (ProcessVm.new pageTable) procData
      let k ← (k.modify r ProcessInner.pause).loadElf B r elf
      let entry := virtAddrTruncate elf.entryPoint
      let stackTop := virtAddrTruncate STACK_INIT_TOP
      let k := k.modify r (ProcessInner.initStackFrame k.userSelectors entry stackTop)
      let pid := (k.heap r).pid
      let k ← k.addProc B pid r
      return (pid, k.pushReady pid)

/-- `ProcessInner::vfork` of the process behind `r`: the record of the child. -/
def vforkInner (r : Ref) (k : Kernel α) : Except Panic (ProcessInner × Kernel α) := do
  let inner := (k.heap r).inner
  let vm ← inner.vm .vfork
  let (childVm, v) ← vm.fork B (← B.add inner.children.length 1) (k.vm vm.pageTable)
  let offset ← childVm.stack.stackOffset B vm.stack
  let context ← inner.context.setStackOffset B offset
  let child : ProcessInner :=
    { name := inner.name, parent := some (some r), status := .ready, context := context.setRax 0,
      ticksPassed := 0, exitCode := none, children := [], procVm := some childVm,
      procData := inner.procData }
  return (child, k.setVm vm.pageTable v)

/-- `Process::vfork` of the process behind `r`. -/
def vforkProcess (r : Ref) (k : Kernel α) : Except Panic (Ref × Kernel α) := do
  let (child, k) ← k.vforkInner B r
  let c := k.created + 1
  let pid := c % PIDS
  let k := { k with
    created := c
    heap := Function.update k.heap c ⟨pid, child⟩
    -- one `Arc` for the children of the parent, and one for the table
    strong := Function.update k.strong c 2 }
  return (c, k.modify r fun p => ProcessInner.pause
    { p with context := p.context.setRax (UInt64.ofNat pid), children := p.children ++ [c] })

def vfork (k : Kernel α) : Except Panic (Kernel α) := do
  let (c, k) ← k.vforkProcess B (← k.current)
  let pid := (k.heap c).pid
  let k ← k.addProc B pid c
  return k.pushReady pid

/-! ### Page faults -/

/-- `handle_page_fault`; only pages that are not present are mapped. -/
def handlePageFault (addr : ℕ) (protectionViolation : Bool) (k : Kernel α) :
    Except Panic (Bool × Kernel α) :=
  if protectionViolation then .ok (false, k)
  else do
    let r ← k.current
    let vm ← (k.heap r).inner.vm .pageFault
    let (ok, vm', v) ← vm.handlePageFault B addr (k.processor != KERNEL_PID) (k.vm vm.pageTable)
    return (ok, (k.setVm vm.pageTable v).modify r fun p => { p with procVm := some vm' })

end Kernel

end Ysos
