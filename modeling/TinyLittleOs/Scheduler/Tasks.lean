import TinyLittleOs.Lib.Ring

/-!
# Tasks, preemption and mutexes

The run queue of `scheduler/init.cpp` and the mutexes of `mutex.cpp`, on one processor. A step is
a timer tick, or what the running task does up to the next point where another task could see a
difference. A failed `kassert` is `none`, and so is a search for a task that does not end.
-/

namespace TinyLittleOs.Scheduler

open Lib Function

/-- The nodes of the blocking lists: `blocking` of each task, and `m_list` of each mutex. -/
inductive Node (ι μ : Type) where
  | task (t : ι)
  | mutex (m : μ)
  deriving DecidableEq

/-- Where a task is. -/
inductive Pc (μ : Type) where
  | unborn
  /-- In code of its own. -/
  | outside
  /-- In `lock`, behind `preempt_up`. -/
  | lock (m : μ)
  /-- In `lock`, as the owner, before `preempt_down`. -/
  | locked (m : μ)
  /-- In `lock`, behind `block_on`, before `preempt_down`. -/
  | blocking (m : μ)
  /-- In `lock`, before `yield`. -/
  | yielding (m : μ)
  /-- In `lock`, behind `yield`. -/
  | waiting (m : μ)
  /-- In `unlock`, behind `preempt_up`. -/
  | unlock (m : μ)
  /-- In `unlock`, before `preempt_down`. -/
  | unlocked (m : μ)
  /-- In the finalization of `task_wrapper`, behind `preempt_up`. -/
  | exiting
  | dead
  deriving DecidableEq

/-- Where the processor is in `_sched_final_free`. -/
inductive FreePc where
  /-- Before `preempt_down`. -/
  | down
  /-- Before `enter_task`. -/
  | enter
  deriving DecidableEq

structure State (ι μ : Type) where
  /-- The links `scheduling` of the tasks. -/
  scheduling : Rings ι
  blocking : Rings (Node ι μ)
  mOwner : μ → Option ι
  preemptCounter : Nat
  currentTask : ι
  pc : ι → Pc μ
  /-- The task that will be entered from `stack_free_stack`. -/
  freeStack : Option (ι × FreePc)
  /-- The tasks between the return of `lock` and the call of `unlock`. -/
  holds : ι → μ → Prop
  /-- The tasks that blocked on a mutex, in order. -/
  blocked : μ → List ι
  /-- The tasks that were handed a mutex, in order. -/
  handed : μ → List ι

inductive Action (ι μ : Type) where
  /-- The timer interrupt. -/
  | tick
  /-- The current task goes on in the function that it called. -/
  | run
  | preemptUp
  | preemptDown
  | yield
  | lock (m : μ)
  | unlock (m : μ)
  | linkTask (t : ι)
  | exit
  deriving DecidableEq

namespace State

variable {ι μ : Type} [DecidableEq ι] [DecidableEq μ]

/-- `is_blocked` -/
def IsBlocked (s : State ι μ) (t : ι) : Prop := ¬ s.blocking.Lonely (.task t)

instance (s : State ι μ) (t : ι) : Decidable (s.IsBlocked t) :=
  inferInstanceAs (Decidable (¬ _))

def setPc (s : State ι μ) (t : ι) (p : Pc μ) : State ι μ := { s with pc := update s.pc t p }

def setHolds (s : State ι μ) (t : ι) (m : μ) (p : Prop) : State ι μ :=
  { s with holds := fun t' m' => if t' = t ∧ m' = m then p else s.holds t' m' }

/-- The loop of `pick_next_task`. -/
def pickLoop (s : State ι μ) : Nat → ι → Option ι
  | 0, _ => none
  | fuel + 1, t =>
    if s.IsBlocked (s.scheduling.next t) then pickLoop s fuel (s.scheduling.next t)
    else some (s.scheduling.next t)

/-- `pick_next_task` -/
def pickNextTask (fuel : Nat) (s : State ι μ) : Option (State ι μ) := do
  let t ← s.pickLoop fuel s.currentTask
  some { s with currentTask := t }

/-- `preempt_up` -/
def preemptUp (s : State ι μ) : State ι μ := { s with preemptCounter := s.preemptCounter + 1 }

/-- `preempt_down` -/
def preemptDown (s : State ι μ) : Option (State ι μ) :=
  if s.preemptCounter = 0 then none
  else some { s with preemptCounter := s.preemptCounter - 1 }

/-- `yield` -/
def yield (fuel : Nat) (s : State ι μ) : Option (State ι μ) :=
  if s.preemptCounter = 0 then s.pickNextTask fuel else none

/-- `block_on` -/
def blockOn (s : State ι μ) (m : μ) : State ι μ :=
  { s with
    blocking := s.blocking.addAfterSelf (s.blocking.prev (.mutex m)) (.task s.currentTask)
    blocked := update s.blocked m (s.blocked m ++ [s.currentTask]) }

/-- The body of `lock`, up to `preempt_down`. -/
def tryLock (s : State ι μ) (m : μ) : Option (State ι μ) :=
  if s.mOwner m = some s.currentTask then none
  else if s.mOwner m = none then
    some ({ s with mOwner := update s.mOwner m (some s.currentTask) }.setPc
      s.currentTask (.locked m))
  else
    some ((s.blockOn m).setPc s.currentTask (.blocking m))

/-- The body of `unlock`, up to `preempt_down`. -/
def tryUnlock (s : State ι μ) (m : μ) : Option (State ι μ) :=
  if s.mOwner m = some s.currentTask then
    if s.blocking.Lonely (.mutex m) then
      some ({ s with mOwner := update s.mOwner m none }.setPc s.currentTask (.unlocked m))
    else
      match s.blocking.next (.mutex m) with
      | .mutex _ => none
      | .task waiter =>
        if s.IsBlocked waiter then
          some ({ s with
            blocking := s.blocking.unlink (.task waiter)
            mOwner := update s.mOwner m (some waiter)
            handed := update s.handed m (s.handed m ++ [waiter]) }.setPc
              s.currentTask (.unlocked m))
        else none
  else none

/-- The finalization of `task_wrapper`, up to `_sched_final_free`. -/
def finalize (s : State ι μ) : State ι μ :=
  let next := s.scheduling.next s.currentTask
  { s with
    currentTask := next
    scheduling := s.scheduling.unlink s.currentTask
    pc := update s.pc s.currentTask .dead
    freeStack := some (next, .down) }

/-- The processor is on `stack_free_stack`. -/
def OnFreeStack (s : State ι μ) : Prop := s.freeStack.map Prod.fst = some s.currentTask

instance (s : State ι μ) : Decidable s.OnFreeStack := inferInstanceAs (Decidable (_ = _))

/-- The rest of `_sched_final_free`. -/
def runFree (s : State ι μ) : FreePc → Option (State ι μ)
  | .down => do
    let s ← s.preemptDown
    some { s with freeStack := some (s.currentTask, .enter) }
  | .enter => some { s with freeStack := none }

/-- The current task goes on. -/
def run (fuel : Nat) (s : State ι μ) : Option (State ι μ) :=
  if s.OnFreeStack then s.freeStack.bind fun f => s.runFree f.2
  else
    match s.pc s.currentTask with
    | .lock m => s.tryLock m
    | .locked m => do
      let s ← s.preemptDown
      some ((s.setHolds s.currentTask m True).setPc s.currentTask .outside)
    | .blocking m => do
      let s ← s.preemptDown
      some (s.setPc s.currentTask (.yielding m))
    | .yielding m => (s.setPc s.currentTask (.waiting m)).yield fuel
    | .waiting m =>
      if s.mOwner m = some s.currentTask then
        some ((s.setHolds s.currentTask m True).setPc s.currentTask .outside)
      else none
    | .unlock m => s.tryUnlock m
    | .unlocked _ => do
      let s ← s.preemptDown
      some (s.setPc s.currentTask .outside)
    | .exiting => some s.finalize
    | .unborn | .outside | .dead => none

/-- The current task runs code of its own, and is not the idle task. -/
def Free (idle : ι) (s : State ι μ) : Prop :=
  s.pc s.currentTask = .outside ∧ ¬ s.OnFreeStack ∧ s.currentTask ≠ idle

instance (idle : ι) (s : State ι μ) : Decidable (s.Free idle) := inferInstanceAs (Decidable (_ ∧ _))

/-- One step of the system. -/
def step (idle : ι) (fuel : Nat) (s : State ι μ) : Action ι μ → Option (State ι μ)
  | .tick => if s.preemptCounter = 0 then s.pickNextTask fuel else some s
  | .run => s.run fuel
  | .preemptUp => if s.Free idle then some s.preemptUp else none
  | .preemptDown => if s.Free idle then s.preemptDown else none
  | .yield => if s.Free idle then s.yield fuel else none
  | .lock m => if s.Free idle then some (s.preemptUp.setPc s.currentTask (.lock m)) else none
  | .unlock m =>
    if s.Free idle then
      some ((s.preemptUp.setHolds s.currentTask m False).setPc s.currentTask (.unlock m))
    else none
  | .linkTask t =>
    if s.Free idle ∧ s.pc t = .unborn then
      some ({ s with scheduling := s.scheduling.addAfterSelf s.currentTask t }.setPc t .outside)
    else none
  | .exit => if s.Free idle then some (s.preemptUp.setPc s.currentTask .exiting) else none

/-- The boot code has linked the tasks, and enters one of them. -/
structure Start (idle : ι) (l : List ι) (s : State ι μ) : Prop where
  ring : s.scheduling.Cycle idle l
  alone : ∀ n, s.blocking.Cycle n []
  mOwner : ∀ m, s.mOwner m = none
  counter : s.preemptCounter = 0
  current : s.currentTask ∈ idle :: l
  linked : ∀ t, t ∈ idle :: l → s.pc t = .outside
  unborn : ∀ t, t ∉ idle :: l → s.pc t = .unborn
  freeStack : s.freeStack = none
  holds : ∀ t m, ¬ s.holds t m
  blocked : ∀ m, s.blocked m = []
  handed : ∀ m, s.handed m = []

end State

end TinyLittleOs.Scheduler
