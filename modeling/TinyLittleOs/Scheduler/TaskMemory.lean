import TinyLittleOs.Memory.PageAllocator
import TinyLittleOs.Memory.Slab

/-!
# The memory of a task

What `scheduler/init.cpp` allocates for a task and gives back: a page directory, a kernel stack, the
`task` in a slab, and the page table of the hmem mappings. Objects lie in kmem and are read and
written through kmem pointers.
-/

namespace TinyLittleOs.Scheduler

open Lib Memory

/-- What stops the kernel here. -/
inductive TaskFault where
  /-- A `kassert` of the page allocators fails. -/
  | memory (e : Fault)
  /-- `kassert(pid < 16384)` -/
  | pid
  /-- `kassert(rc > 0)` -/
  | refcount

/-- `sizeof(interrupts::interrupt_args)` -/
def sizeofArgs : Nat := 52

/-- `sizeof(task)` -/
def sizeofTask : Nat := 32

example : Slab.pageSize sizeofTask = 4096 := by decide

/-- The machine and the globals of `init.cpp`. -/
structure Kernel where
  machine : Machine
  maxPid : Nat
  /-- `m_free_list` of `task_allocator` -/
  taskSlabs : Nat
  currentTask : Nat
  /-- The address of `task_wrapper`. -/
  taskWrapper : Nat
  /-- The address of `stack_free_stack`. -/
  stackFreeStack : Nat

/-- Write words. -/
def storeAll (s : Machine) (l : List (Nat × Nat)) :
    Machine := l.foldl (fun s w => s.store w.1 w.2) s

/-- Memory as kmem pointers see it. -/
def kmemView (s : Machine) : ByteMem := fun a => s.mem (fromKmem a)

def withKmemView (s : Machine) (m : ByteMem) : Machine :=
  { s with mem := fun x => if x < 2 ^ 32 then m (toVirt x) else s.mem x }

/-! ## `struct task` -/

namespace Task

/-- The links `scheduling`, of which the first is `l_prev` and the second `l_next`. -/
def scheduling (t : Nat) : Nat := t + 16

def blocking (t : Nat) : Nat := t + 24

/-- `task::from` -/
def fromScheduling (x : Nat) : Nat := x - 16

def stackPointer (s : Machine) (t : Nat) : Nat := s.load (t + 8)

/-- `take_ref` -/
def takeRef (t : Nat) (s : Machine) : Except TaskFault Machine :=
  let rc := s.load t
  if 0 < rc ∧ rc < 2 ^ 31 then return s.store t (rc + 1) else throw .refcount

/-- `release_ref` -/
def releaseRef (t : Nat) (s : Machine) : Except TaskFault (Bool × Machine) :=
  let rc := s.load t
  if 0 < rc ∧ rc < 2 ^ 31 then return (rc - 1 = 0, s.store t (rc - 1)) else throw .refcount

/-- The constructor. -/
def construct (t pid stackPointer : Nat) (s : Machine) : Machine :=
  storeAll s [(t, 1), (t + 4, pid), (t + 8, stackPointer), (t + 12, 0),
    (scheduling t, scheduling t),
    (scheduling t + 4, scheduling t), (blocking t, blocking t), (blocking t + 4, blocking t)]

end Task

namespace Kernel

/-- `task_allocator.allocate`, without the constructor. -/
def slabAllocate (k : Kernel) : Except Fault (Nat × Kernel) := do
  let (page, s) ← if k.taskSlabs = 0 then k.machine.kmemAlloc4k else pure (0, k.machine)
  let (ptr, h) := Slab.Heap.allocate sizeofTask ⟨kmemView s, k.taskSlabs⟩ page
  return (ptr, { k with machine := withKmemView s h.mem, taskSlabs := h.freeList })

/-- `task_allocator.free`, where `~virtual_memory` does nothing. -/
def slabFree (t : Nat) (k : Kernel) : Kernel :=
  let h := Slab.Heap.free sizeofTask ⟨kmemView k.machine, k.taskSlabs⟩ t
  { k with machine := withKmemView k.machine h.mem, taskSlabs := h.freeList }

/-- `create_kernel_stack` -/
def createKernelStack (main cr3 : Nat) (k : Kernel) : Except Fault (Nat × Kernel) := do
  let (stack, s) ← k.machine.kmemAlloc8k
  let s := s.store stack 0
  let info := stack + 8192 - sizeofArgs - 4 - 4
  let s := s.memset info 0 sizeofArgs
  let s := storeAll s [(info, cr3), (info + 40, k.taskWrapper), (info + sizeofArgs + 4, main),
    (info + 44, 0x08)]
  return (info, { k with machine := s })

/-- `task::allocate` -/
def allocate (run : Nat) (k : Kernel) : Except TaskFault (Nat × Kernel) :=
  let pid := k.maxPid
  let k := { k with maxPid := k.maxPid + 1 }
  if 16384 ≤ pid then
    throw .pid
  else (do
    let (cr3, s) ← k.machine.newPageDirectory
    let (stackPointer, k) ← createKernelStack run cr3 { k with machine := s }
    let (t, k) ← k.slabAllocate
    return (t, { k with machine := Task.construct t pid stackPointer k.machine })).mapError .memory

/-- `link_task` -/
def linkTask (t : Nat) (k : Kernel) : Except TaskFault Kernel := do
  let s ← Task.takeRef t k.machine
  let this := Task.scheduling k.currentTask
  let n := Task.scheduling t
  let next := s.load (this + 4)
  return { k with machine := storeAll s [(n + 4, next), (n, this), (next, n), (this + 4, n)] }

/-- `unlink_task` -/
def unlinkTask (t : Nat) (k : Kernel) : Except TaskFault Kernel := do
  let this := Task.scheduling t
  let prev := k.machine.load this
  let next := k.machine.load (this + 4)
  let s := storeAll k.machine [(prev + 4, next), (next, prev), (this, this), (this + 4, this)]
  let (_, s) ← Task.releaseRef t s
  return { k with machine := s }

/-- `task::release` -/
def release (t : Nat) (k : Kernel) : Except TaskFault Kernel := do
  let (last, s) ← Task.releaseRef t k.machine
  return if last then slabFree t { k with machine := s } else { k with machine := s }

/-- The address space that `enter_task` enters. -/
def enterTask (stack : Nat) (k : Kernel) : Kernel :=
  { k with machine := { k.machine with cr3 := k.machine.load stack } }

/-- The beginning of `task_wrapper`: the page table for hmem mappings. -/
def wrapperBegin (s : Machine) : Except Fault (Nat × Machine) := do
  let (pageTable, s) ← s.kmemAlloc4k
  let s := s.memset pageTable 0 4096
  return (pageTable, s.store (toVirt s.cr3 + 4 * 0x3FF) (fromKmem pageTable ||| present ||| write))

/-- `_sched_final_free` -/
def schedFinalFree (freeStack switchStack : Nat) (k : Kernel) : Except Fault Kernel := do
  let s ← k.machine.kmemFree4k freeStack
  return enterTask switchStack { k with machine := s }

/-- `get_current_task_internal` -/
def taskInternal (esp : Nat) : Nat := esp / 8192 * 8192

/-- The end of `task_wrapper`, where the stack pointer is `esp`. -/
def wrapperEnd (pageTable esp : Nat) (k : Kernel) : Except TaskFault Kernel := do
  let me := k.currentTask
  let k := { k with
    currentTask := Task.fromScheduling (k.machine.load (Task.scheduling me + 4)) }
  let k ← k.unlinkTask me
  let k ← k.release me
  (do
    let s ← k.machine.kmemFree4k pageTable
    let myStack := taskInternal esp
    let switchStack := Task.stackPointer s k.currentTask
    let top := k.stackFreeStack + 4096
    schedFinalFree myStack switchStack
      { k with machine := storeAll s [(top - 4, switchStack), (top - 8, myStack)] }).mapError
      .memory

end Kernel

end TinyLittleOs.Scheduler
