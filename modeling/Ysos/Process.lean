import Ysos.ProcessVm
import Ysos.Semaphore
import Ysos.Sched

/-! # Contexts and process records (`proc/context.rs`, `proc/process.rs`)

The registers and the interrupt stack frame that a process is suspended with, the record of a
process, and the state of the kernel (`Kernel`) that the process manager works on.

A `Process` behind an `Arc` is an object with an identity (`Ref`), in the order of creation;
`strong` counts its `Arc`s and a `Weak` can be upgraded while there are any.  Process ids are
the identities modulo `2 ^ 16`, as the counter of ids wraps.  The address space and the
semaphores that are made for a process have its identity.  The environment and the resources
of a process are left out, and so is the register `CR3`. -/

/-! ### Sorted sets

A finite set of elements of a linear order, kept as its strictly increasing list of elements:
the order in which it is traversed. -/

structure SortedSet (α : Type*) [LinearOrder α] where
  elems : List α
  increasing : elems.Pairwise (· < ·)
deriving DecidableEq

namespace SortedSet

variable {α : Type*} [LinearOrder α]

instance : Membership α (SortedSet α) := ⟨fun s a => a ∈ s.elems⟩

instance (a : α) (s : SortedSet α) : Decidable (a ∈ s) := inferInstanceAs (Decidable (a ∈ s.elems))

def empty : SortedSet α := ⟨[], List.Pairwise.nil⟩

theorem pairwise_orderedInsert {a : α} {l : List α} (h : l.Pairwise (· < ·)) (ha : a ∉ l) :
    (l.orderedInsert (· ≤ ·) a).Pairwise (· < ·) := by
  have hle : l.Pairwise (· ≤ ·) := h.imp le_of_lt
  have hperm := List.perm_orderedInsert (r := (· ≤ ·)) a l
  have hnd : (l.orderedInsert (· ≤ ·) a).Nodup :=
    hperm.nodup_iff.mpr (List.nodup_cons.mpr ⟨ha, h.imp ne_of_lt⟩)
  exact ((hle.orderedInsert a l).and hnd).imp fun hlt => lt_of_le_of_ne hlt.1 hlt.2

def insert (s : SortedSet α) (a : α) : SortedSet α :=
  if h : a ∈ s.elems then s
  else ⟨s.elems.orderedInsert (· ≤ ·) a, pairwise_orderedInsert s.increasing h⟩

variable {s : SortedSet α} {a b : α}

theorem mem_iff : a ∈ s ↔ a ∈ s.elems := Iff.rfl

theorem nodup (s : SortedSet α) : s.elems.Nodup := s.increasing.imp ne_of_lt

@[simp] theorem notMem_empty : a ∉ (empty : SortedSet α) := List.not_mem_nil

@[simp] theorem mem_insert : b ∈ s.insert a ↔ b = a ∨ b ∈ s := by
  unfold insert
  split_ifs with h
  · exact ⟨Or.inr, fun hb => hb.elim (fun e => e ▸ h) id⟩
  · exact List.mem_orderedInsert _

end SortedSet

namespace Ysos

open Runs

/-! ### Contexts -/

/-- The general purpose registers (`utils/regs.rs`). -/
structure RegistersValue where
  r15 : UInt64
  r14 : UInt64
  r13 : UInt64
  r12 : UInt64
  r11 : UInt64
  r10 : UInt64
  r9 : UInt64
  r8 : UInt64
  rdi : UInt64
  rsi : UInt64
  rdx : UInt64
  rcx : UInt64
  rbx : UInt64
  rax : UInt64
  rbp : UInt64
deriving DecidableEq, Repr

structure InterruptStackFrameValue where
  instructionPointer : ℕ
  codeSegment : UInt16
  cpuFlags : UInt64
  stackPointer : ℕ
  stackSegment : UInt16
deriving DecidableEq, Repr

structure ProcessContext where
  regs : RegistersValue
  stackFrame : InterruptStackFrameValue
deriving DecidableEq, Repr

structure UserSelectors where
  userCodeSelector : UInt16
  userDataSelector : UInt16
deriving DecidableEq, Repr

namespace ProcessContext

instance : Inhabited ProcessContext where
  default :=
    { regs := ⟨0, 0, 0, 0, 0, 0, 0, 0, 0, 0, 0, 0, 0, 0, 0⟩
      stackFrame := ⟨0x1000, 0, 0, 0x2000, 0⟩ }

def setRax (c : ProcessContext) (value : UInt64) : ProcessContext :=
  { c with regs := { c.regs with rax := value } }

def save (_c context : ProcessContext) : ProcessContext := context

/-- The machine's context after `restore`. -/
def restore (c _context : ProcessContext) : ProcessContext := c

/-- `RFlags::IOPL_HIGH | RFlags::IOPL_LOW | RFlags::INTERRUPT_FLAG` -/
def USER_FLAGS : UInt64 := 0x3200

def initStackFrame (c : ProcessContext) (selectors : UserSelectors) (entry stackTop : ℕ) :
    ProcessContext :=
  { c with stackFrame :=
      { stackPointer := stackTop
        instructionPointer := entry
        cpuFlags := USER_FLAGS
        codeSegment := selectors.userCodeSelector
        stackSegment := selectors.userDataSelector } }

def setStackPointer (c : ProcessContext) (sp : ℕ) : ProcessContext :=
  { c with stackFrame := { c.stackFrame with stackPointer := sp } }

def setStackOffset (B : Build) (c : ProcessContext) (offset : ℕ) : Except Panic ProcessContext := do
  return c.setStackPointer (← B.virtAdd c.stackFrame.stackPointer offset)

end ProcessContext

/-! ### Processes -/

abbrev ProgramStatus := Sched.Status

/-- The identity of an `Arc<Process>`. -/
abbrev Ref := ℕ

/-- `Weak<Process>`; `Weak::new()` is `none`. -/
abbrev Weak := Option Ref

/-- `ProcessData`: the identity of the shared semaphores. -/
structure ProcessData where
  semaphores : Ref
deriving DecidableEq, Repr

structure ProcessInner where
  name : String
  parent : Option Weak
  children : List Ref
  ticksPassed : ℕ
  status : ProgramStatus
  context : ProcessContext
  exitCode : Option Int64
  procData : Option ProcessData
  procVm : Option ProcessVm
deriving DecidableEq, Repr

structure Process where
  pid : ProcessId
  inner : ProcessInner
deriving DecidableEq, Repr

instance : Inhabited ProcessInner where
  default :=
    { name := "", parent := none, children := [], ticksPassed := 0, status := .dead,
      context := default, exitCode := none, procData := none, procVm := none }

instance : Inhabited Process := ⟨0, default⟩

namespace ProcessInner

def pause (p : ProcessInner) : ProcessInner := { p with status := .ready }

def resume (p : ProcessInner) : ProcessInner := { p with status := .running }

def block (p : ProcessInner) : ProcessInner := { p with status := .blocked }

def setReturn (p : ProcessInner) (ret : UInt64) : ProcessInner :=
  { p with context := p.context.setRax ret }

def setParent (p : ProcessInner) (parent : Weak) : ProcessInner := { p with parent := some parent }

def initStackFrame (selectors : UserSelectors) (entry stackTop : ℕ) (p : ProcessInner) :
    ProcessInner :=
  { p with context := p.context.initStackFrame selectors entry stackTop }

def tick (B : Build) (p : ProcessInner) : Except Panic ProcessInner := do
  return { p with ticksPassed := ← B.add p.ticksPassed 1 }

/-- Save the context, and mark the process as ready. -/
def save (p : ProcessInner) (context : ProcessContext) : ProcessInner :=
  { p with context := p.context.save context, status := .ready }

/-- `vm()` and `vm_mut()`. -/
def vm (p : ProcessInner) (use : VmUse) : Except Panic ProcessVm :=
  match p.procVm with
  | some vm => .ok vm
  | none => .error (.vmTaken use)

/-- The dereference of a process to its data. -/
def data (p : ProcessInner) : Except Panic ProcessData :=
  match p.procData with
  | some d => .ok d
  | none => .error .processDataEmpty

/-- Hand the saved context to the machine, and mark the process as running. -/
def restore (p : ProcessInner) (context : ProcessContext) :
    Except Panic (ProcessContext × ProcessInner) := do
  let context := p.context.restore context
  let _ ← p.vm .restore
  return (context, p.resume)

end ProcessInner

/-! ### The kernel -/

structure App where
  name : String
  elf : ElfFile
deriving DecidableEq, Repr

def KERNEL_PID : ProcessId := 1

/-- `2 ^ 16`, the number of values of `ProcessId`. -/
def PIDS : ℕ := 2 ^ 16

/-- The process manager with the processes, the processor and the memory it works on. -/
structure Kernel (α : Type) where
  heap : Ref → Process
  strong : Ref → ℕ
  created : ℕ
  processes : ProcessId → Option Ref
  readyQueue : List ProcessId
  appList : Option (List App)
  waitQueue : ProcessId → Option (SortedSet ProcessId)
  processor : ProcessId
  semaphoreSets : Ref → SemaphoreSet
  spaces : SpaceId → AddressSpace
  alloc : α
  phys : Frame → ℕ → UInt8
  userSelectors : UserSelectors

variable {α : Type}

namespace Kernel

/-- `proc.write()` and a change of the record. -/
def modify (k : Kernel α) (r : Ref) (f : ProcessInner → ProcessInner) : Kernel α :=
  { k with heap := Function.update k.heap r { k.heap r with inner := f (k.heap r).inner } }

/-- The address space `i` with the frames. -/
def vm (k : Kernel α) (i : SpaceId) : Vm α := ⟨k.spaces i, k.alloc, k.phys⟩

def setVm (k : Kernel α) (i : SpaceId) (v : Vm α) : Kernel α :=
  { k with spaces := Function.update k.spaces i v.space, alloc := v.alloc, phys := v.phys }

/-- `Weak::upgrade` of the parent of a record. -/
def parent (k : Kernel α) (p : ProcessInner) : Option Ref :=
  match p.parent with
  | some (some r) => if 0 < k.strong r then some r else none
  | _ => none

end Kernel

end Ysos
