import TinyLittleOs.Scheduler.Frames
import TinyLittleOs.Scheduler.Rounds
import Mathlib.Data.List.Chain

/-!
# Switching between tasks

Tasks on kernel stacks of their own, from `scheduler::start` on. A task is left in `yield` or in the
timer interrupt, where its frame stays on its stack, and comes back through `enter_task`. What a
task does in between is any step that keeps off the stacks of the others. A task that ends has no
frame: the next one of the ring is entered from `stack_free_stack`.
-/

namespace TinyLittleOs.Scheduler

open Lib Function Relation

variable {ι μ : Type} [DecidableEq ι] [DecidableEq μ]

/-- Addresses in the kernel. -/
structure Image where
  /-- The label `0` of `yield`. -/
  label0 : Word
  /-- The label `1` of `yield`. -/
  label1 : Word
  taskWrapper : Word
  commonInterruptHandler : Word

inductive Mode where
  /-- Before `scheduler::start` enters a task. -/
  | boot
  /-- The current task runs. -/
  | running
  /-- In the kernel behind `yieldFrame` or `interruptFrame`, before `enter_task`. -/
  | switching
  deriving DecidableEq

structure Tasking (ι μ : Type) where
  queue : Queue ι μ
  processor : Processor
  mode : Mode
  /-- Where the kernel stacks are. -/
  stack : ι → Nat
  stackPointer : ι → Word
  /-- What `enter_task` stored in `esp0` when the task came back to user mode, the last value
  first. -/
  tops : ι → List Word

namespace Tasking

/-- The bytes that stay free for interrupts on the stack of a task in the kernel. -/
def reserve : Nat := 128

/-- kmem ends where the page tables of the hmem mappings begin. -/
def kmemTop : Nat := 0xFFC00000

def current (s : Tasking ι μ) : ι := s.queue.state.currentTask

def OnStack (s : Tasking ι μ) (t : ι) (x : Nat) : Prop := s.stack t ≤ x ∧ x < s.stack t + 8192

/-- The task runs. -/
def Runs (s : Tasking ι μ) (t : ι) : Prop := s.mode = .running ∧ s.current = t

/-- The stack of the current task, behind a switch the part below its frame. -/
def Scratch (s : Tasking ι μ) (t : ι) (x : Nat) : Prop :=
  s.Runs t ∨ (s.mode = .switching ∧ s.current = t ∧ x < (s.stackPointer t).toNat)

/-- The processor is in the kernel, on the stack of a task. -/
structure InKernel (m : Processor) (stack : Nat) : Prop where
  cs : m.cpu.cs = kernelCs
  above : stack + reserve ≤ m.esp.toNat
  below : m.esp.toNat ≤ stack + 8192

/-- What code of the kernel or of the current task does to the processor. -/
structure Works (s : Tasking ι μ) (m : Processor) : Prop where
  esp0 : m.esp0 = s.processor.esp0
  mem : ∀ t ∈ s.queue.linked, ∀ x, s.OnStack t x → ¬ s.Scratch t x → m.mem x = s.processor.mem x
  /-- There is no handler for the interrupt of a system call. -/
  user : s.mode = .running → s.processor.cpu.User → m.cpu.User
  kernel : s.mode = .running → ¬ m.cpu.User → InKernel m (s.stack s.current)

/-- What `kmem_alloc_8k` returns. -/
structure Fresh (s : Tasking ι μ) (stack : Nat) : Prop where
  top : stack + 8192 ≤ kmemTop
  apart : ∀ u ∈ s.queue.linked, stack + 8192 ≤ s.stack u ∨ s.stack u + 8192 ≤ stack

/-- `pick_next_task` has made another task the current one. -/
def pick (st : State ι μ) (s : Tasking ι μ) :
    Tasking ι μ := { s with queue := ⟨st, s.queue.linked⟩ }

def work (m : Processor) (st : State ι μ) (s : Tasking ι μ) : Tasking ι μ :=
  { s with processor := m, queue := ⟨st, s.queue.linked⟩ }

/-- `task::allocate` with a stack, and `link_task`. -/
def create (image : Image) (t : ι) (stack : Nat) (main cr3 : Word) (s : Tasking ι μ) :
    Tasking ι μ :=
  let (info, mem) := createKernelStack image.taskWrapper main cr3 stack s.processor.mem
  { s with
    queue := ⟨s.queue.state.linkTask t, t :: s.queue.linked⟩
    processor := { s.processor with mem := mem }
    stack := update s.stack t stack
    stackPointer := update s.stackPointer t (.ofNat 32 info) }

/-- `do_yield` and `timeslice_passed`, up to `pick_next_task`. -/
def leave (m : Processor) (s : Tasking ι μ) : Tasking ι μ :=
  { s with
    processor := m
    mode := .switching
    stackPointer := update s.stackPointer s.current m.esp }

/-- `yield`, up to `pick_next_task`. -/
def yield (image : Image) (s : Tasking ι μ) : Tasking ι μ :=
  s.leave (s.processor.yieldFrame image.label0 image.label1)

/-- The timer interrupt, up to `pick_next_task`. -/
def tick (image : Image) (s : Tasking ι μ) : Tasking ι μ :=
  s.leave (s.processor.interruptFrame image.commonInterruptHandler 32)

/-- `enter_task` on the current task. -/
def enter (s : Tasking ι μ) : Tasking ι μ :=
  let m := s.processor.enterTask (s.stackPointer s.current)
  { s with
    processor := m
    mode := .running
    tops := if m.cpu.User then update s.tops s.current (m.esp0 :: s.tops s.current) else s.tops }

/-- The end of `task_wrapper` from where the next task is the current one, up to `enter_task`. -/
def finish (m : Processor) (s : Tasking ι μ) : Tasking ι μ :=
  { s with
    queue := ⟨s.queue.state.finalize, s.queue.linked.erase s.current⟩
    processor := m
    mode := .switching }

/-- `yield` is called. -/
structure Yields (image : Image) (s s' : Tasking ι μ) : Prop where
  running : s.mode = .running
  kernel : ¬ s.processor.cpu.User
  preemptCounter : s.queue.state.preemptCounter = 0
  eq : s' = s.yield image

/-- `pick_next_task` and `enter_task`. -/
structure Enters (s s' : Tasking ι μ) : Prop where
  switching : s.mode = .switching
  eq : ∃ fuel st, s.queue.state.pickNextTask fuel = some st ∧
    s' = (s.pick st).enter

/-- The current task ends, and the next one is entered. The stacks of the others are not written
to. -/
structure Ends (s s' : Tasking ι μ) : Prop where
  running : s.mode = .running
  kernel : ¬ s.processor.cpu.User
  others : ¬ s.queue.state.scheduling.Lonely s.current
  eq : ∃ m : Processor, (∀ t ∈ s.queue.linked, t ≠ s.current → ∀ x, s.OnStack t x →
    m.mem x = s.processor.mem x) ∧ s' = (s.finish m).enter

inductive Step (image : Image) (s : Tasking ι μ) : Tasking ι μ → Prop
  | work {m : Processor} {st : State ι μ} : s.Works m →
      st.scheduling = s.queue.state.scheduling → st.currentTask = s.queue.state.currentTask →
      Step image s (s.work m st)
  -- `max_pid` only grows: the task is none that has run before
  | create {t : ι} {stack : Nat} {main cr3 : Word} : s.mode ≠ .switching →
      (s.mode = .running → ¬ s.processor.cpu.User) → t ∉ s.queue.linked → s.tops t = [] →
      s.Fresh stack →
      Step image s (s.create image t stack main cr3)
  | yield {s' : Tasking ι μ} : Yields image s s' → Step image s s'
  | tick : s.mode = .running → s.processor.cpu.interruptFlag = true →
      s.queue.state.preemptCounter = 0 → Step image s (s.tick image)
  | start : s.mode = .boot → Step image s s.enter
  | enter {s' : Tasking ι μ} : Enters s s' → Step image s s'
  | finish {s' : Tasking ι μ} : Ends s s' → Step image s s'

/-- `initialize` has created the idle task. -/
structure Start (image : Image) (idle : ι) (s : Tasking ι μ) : Prop where
  alone : s.queue.state.scheduling = .alone
  current : s.queue.state.currentTask = idle
  linked : s.queue.linked = [idle]
  mode : s.mode = .boot
  top : s.stack idle + 8192 ≤ kmemTop
  frame : ∃ main cr3 m, createKernelStack image.taskWrapper main cr3 (s.stack idle) m =
    ((s.stackPointer idle).toNat, s.processor.mem)
  tops : ∀ t, s.tops t = []

def Reaches (image : Image) (idle : ι) (s : Tasking ι μ) : Prop :=
  ∃ s₀, Start image idle s₀ ∧ ReflTransGen (Step image) s₀ s

/-- The frame that the next interrupt pushes in user mode is on the kernel stack of the task. -/
def Fits (s : Tasking ι μ) : Prop :=
  s.mode = .running → s.processor.cpu.User →
    s.stack s.current + 60 ≤ s.processor.esp0.toNat ∧
    s.processor.esp0.toNat ≤ s.stack s.current + 8192

/-- A step from a state where the next frame is on the kernel stack. -/
def FitStep (image : Image) (s s' : Tasking ι μ) : Prop := s.Fits ∧ Step image s s'

def FitReaches (image : Image) (idle : ι) (s : Tasking ι μ) : Prop :=
  ∃ s₀, Start image idle s₀ ∧ ReflTransGen (FitStep image) s₀ s

/-! ## What is saved -/

/-- Where the kernel stack of a task was when its frame was pushed, or will be when the next one
is. -/
structure Top (s : Tasking ι μ) (t : ι) (inUser : Prop) (x : Nat) : Prop where
  below : x ≤ s.stack t + 8192
  above : s.stack t + reserve ≤ x + 8 * (s.tops t).length
  user : inUser → ∀ y ∈ (s.tops t).head?, y.toNat = x
  kernel : ¬ inUser → s.tops t = []

/-- The frame of a task that does not run. -/
structure Rests (s : Tasking ι μ) (t : ι) (c : Cpu) (esp : Word) : Prop where
  words : ∃ number, s.processor.mem.Words (s.stackPointer t).toNat (frame number 0 c esp)
  above : s.stack t ≤ (s.stackPointer t).toNat
  top : s.Top t c.User ((s.stackPointer t).toNat + Processor.frameSize c)
  kernel : ¬ c.User → c.cs = kernelCs ∧ (s.stackPointer t).toNat + 52 = esp.toNat

structure Sound (s : Tasking ι μ) : Prop where
  ordered : ∃ l, s.queue.Ordered l
  apart : ∀ t ∈ s.queue.linked, ∀ u ∈ s.queue.linked, t ≠ u →
    s.stack t + 8192 ≤ s.stack u ∨ s.stack u + 8192 ≤ s.stack t
  bounded : ∀ t ∈ s.queue.linked, s.stack t + 8192 ≤ kmemTop
  rests : ∀ t ∈ s.queue.linked, ¬ s.Runs t → ∃ c esp, s.Rests t c esp
  inUser : s.mode = .running → s.processor.cpu.User → s.Top s.current True s.processor.esp0.toNat
  inKernel : s.mode = .running → ¬ s.processor.cpu.User →
    InKernel s.processor (s.stack s.current) ∧ s.Top s.current False s.processor.esp0.toNat
  drifts : ∀ t, (s.tops t).IsChain fun x y => x.toNat + 8 = y.toNat

variable {s s' : Tasking ι μ} {t u idle : ι} {c : Cpu} {esp : Word} {m : Processor} {image : Image}

theorem length_frame {number error : Word} :
    4 * (frame number error c esp).length = Processor.frameSize c := by
  rw [frame, Processor.frameSize]
  by_cases hu : c.User
  · rw [if_pos hu, if_pos hu]
    rfl
  · rw [if_neg hu, if_neg hu]
    rfl

omit [DecidableEq ι] [DecidableEq μ] in
theorem Top.congr {inUser : Prop} {x : Nat} (h : s.Top t inUser x) (hstack : s'.stack t = s.stack t)
    (htops : s'.tops t = s.tops t) : s'.Top t inUser x := by
  refine ⟨?_, ?_, ?_, ?_⟩
  · rw [hstack]
    exact h.below
  · rw [hstack, htops]
    exact h.above
  · rw [htops]
    exact h.user
  · rw [htops]
    exact h.kernel

omit [DecidableEq ι] [DecidableEq μ] in
/-- A frame stays as long as its bytes do. -/
theorem Rests.congr (h : s.Rests t c esp) (hstack : s'.stack t = s.stack t)
    (hpointer : s'.stackPointer t = s.stackPointer t) (htops : s'.tops t = s.tops t)
    (hmem : ∀ x, (s.stackPointer t).toNat ≤ x → s.OnStack t x →
      s'.processor.mem x = s.processor.mem x) : s'.Rests t c esp := by
  obtain ⟨number, hwords⟩ := h.words
  have habove := h.above
  have hbelow := h.top.below
  refine ⟨⟨number, ?_⟩, ?_, ?_, ?_⟩
  · rw [hpointer]
    apply hwords.congr
    intro x hx hx'
    rw [length_frame] at hx'
    exact hmem x hx ⟨by omega, by omega⟩
  · rw [hstack, hpointer]
    exact h.above
  · rw [hpointer]
    exact h.top.congr hstack htops
  · rw [hpointer]
    exact h.kernel

omit [DecidableEq ι] [DecidableEq μ] in
theorem Sound.current_mem (h : s.Sound) : s.current ∈ s.queue.linked := by
  obtain ⟨l, hl⟩ := h.ordered
  exact hl.mem.1 List.mem_cons_self

omit [DecidableEq ι] [DecidableEq μ] in
/-- A byte is on one stack only. -/
theorem Sound.onStack_apart (h : s.Sound) (ht : t ∈ s.queue.linked) (hu : u ∈ s.queue.linked)
    (hne : t ≠ u) {x : Nat} (hx : s.OnStack t x) : ¬ s.OnStack u x := by
  intro hx'
  have hapart := h.apart t ht u hu hne
  have h₁ := hx.1
  have h₂ := hx.2
  have h₃ := hx'.1
  have h₄ := hx'.2
  omega

/-! ## Leaving a task -/

/-- A frame is pushed on the stack of the current task, and nothing else is written. -/
structure Leaves (s : Tasking ι μ) (m : Processor) (c : Cpu) : Prop where
  left : (s.leave m).Rests s.current c s.processor.esp
  mem : ∀ x, ¬ s.OnStack s.current x → m.mem x = s.processor.mem x

omit [DecidableEq μ] in
theorem Leaves.rests (h : s.Sound) (hl : s.Leaves m c) (ht : t ∈ s.queue.linked)
    (hne : t ≠ s.current)
    {c' : Cpu} (hr : s.Rests t c' esp) : (s.leave m).Rests t c' esp := by
  refine hr.congr rfl (update_of_ne hne _ _) rfl ?_
  intro x _ hx
  exact hl.mem x (h.onStack_apart ht h.current_mem hne hx)

omit [DecidableEq μ] in
theorem Sound.leave (h : s.Sound) (hl : s.Leaves m c) : (s.leave m).Sound := by
  have hmode : (s.leave m).mode ≠ .running := by
    have hswitching : (s.leave m).mode = .switching := rfl
    rw [hswitching]
    decide
  refine ⟨h.ordered, h.apart, h.bounded, fun t ht _ => ?_, fun hm => absurd hm hmode,
    fun hm => absurd hm hmode, h.drifts⟩
  by_cases hne : t = s.current
  · rw [hne]
    exact ⟨c, s.processor.esp, hl.left⟩
  · obtain ⟨c', esp, hr⟩ := h.rests t ht fun hrun => hne hrun.2.symm
    exact ⟨c', esp, hl.rests h ht hne hr⟩

omit [DecidableEq μ] in
/-- A frame is pushed below `top`. -/
theorem Leaves.of_frame (top : Nat) {number : Word} (htop : s.Top s.current c.User top)
    (hroom : s.stack s.current + Processor.frameSize c ≤ top)
    (hkernel : ¬ c.User → c.cs = kernelCs ∧ top = s.processor.esp.toNat)
    (hesp : m.esp.toNat = top - Processor.frameSize c)
    (hwords : m.mem.Words m.esp.toNat (frame number 0 c s.processor.esp))
    (hmem : ∀ x, x < m.esp.toNat ∨ top ≤ x → m.mem x = s.processor.mem x) : s.Leaves m c := by
  have hpointer : (s.leave m).stackPointer s.current = m.esp := update_self ..
  have hsum : m.esp.toNat + Processor.frameSize c = top := by omega
  have hbelow := htop.below
  refine ⟨⟨⟨number, ?_⟩, ?_, ?_, fun hu => ?_⟩, fun x hx => hmem x ?_⟩
  · rw [hpointer]
    exact hwords
  · rw [hpointer, hesp]
    exact (show s.stack s.current ≤ _ by omega)
  · rw [hpointer, hsum]
    exact htop.congr rfl rfl
  · obtain ⟨hcs, he⟩ := hkernel hu
    have hsize : Processor.frameSize c = 52 := if_neg hu
    rw [hpointer]
    exact ⟨hcs, by omega⟩
  · by_cases hlt : x < m.esp.toNat
    · exact Or.inl hlt
    · refine Or.inr (Nat.le_of_not_lt fun hx' => hx ⟨?_, ?_⟩) <;> omega

omit [DecidableEq μ] in
theorem Sound.yield_leaves (image : Image) (h : s.Sound) (hm : s.mode = .running)
    (hu : ¬ s.processor.cpu.User) :
    s.Leaves (s.processor.yieldFrame image.label0 image.label1)
      (Processor.yielded image.label1 s.processor.cpu) := by
  obtain ⟨hin, htop⟩ := h.inKernel hm hu
  have hnot := Processor.not_user_of_cs (c := Processor.yielded image.label1 s.processor.cpu) rfl
  have hsize : Processor.frameSize (Processor.yielded image.label1 s.processor.cpu) = 52 :=
    if_neg hnot
  have habove := hin.above
  rw [reserve] at habove
  obtain ⟨hesp, hwords, -, hmem⟩ := Processor.yieldFrame_spec (m := s.processor)
    image.label0 image.label1 (by omega)
  have hnil := htop.kernel id
  apply Leaves.of_frame s.processor.esp.toNat
  · refine ⟨hin.below, ?_, fun hu' => absurd hu' hnot, fun _ => hnil⟩
    rw [hnil]
    exact hin.above
  · omega
  · exact fun _ => ⟨rfl, rfl⟩
  · rw [hesp, hsize]
  · rw [hesp]
    exact hwords
  · rw [hesp]
    exact hmem

omit [DecidableEq μ] in
theorem Sound.tick_leaves (image : Image) (h : s.Sound) (hfits : s.Fits) (hm : s.mode = .running) :
    s.Leaves (s.processor.interruptFrame image.commonInterruptHandler 32) s.processor.cpu := by
  have htop : s.Top s.current s.processor.cpu.User s.processor.interruptTop.toNat ∧
      s.stack s.current + Processor.frameSize s.processor.cpu ≤ s.processor.interruptTop.toNat ∧
      (¬ s.processor.cpu.User → s.processor.cpu.cs = kernelCs ∧
        s.processor.interruptTop.toNat = s.processor.esp.toNat) := by
    rw [Processor.interruptTop, Processor.frameSize]
    by_cases hu : s.processor.cpu.User
    · rw [if_pos hu, if_pos hu]
      refine ⟨?_, (hfits hm hu).1, fun hnot => absurd hu hnot⟩
      obtain ⟨hbelow, habove, huser, -⟩ := h.inUser hm hu
      exact ⟨hbelow, habove, fun _ => huser trivial, fun hnot => absurd hu hnot⟩
    · rw [if_neg hu, if_neg hu]
      obtain ⟨hin, htop⟩ := h.inKernel hm hu
      have hnil := htop.kernel id
      have habove := hin.above
      rw [reserve] at habove
      refine ⟨⟨hin.below, ?_, fun hu' => absurd hu' hu, fun _ => hnil⟩, by omega, fun _ =>
        ⟨hin.cs, rfl⟩⟩
      rw [hnil]
      exact hin.above
  obtain ⟨htop, hroom, hcs⟩ := htop
  obtain ⟨hesp, hwords, -, hmem⟩ := Processor.interruptFrame_spec (m := s.processor)
    image.commonInterruptHandler 32 (by omega)
  rw [← hesp] at hwords hmem
  exact Leaves.of_frame _ htop hroom hcs hesp hwords hmem

/-! ## Entering a task -/

omit [DecidableEq μ] in
/-- The frame of the task that is entered comes back. -/
theorem Rests.enter (h : s.Rests s.current c esp) (hbound : s.stack s.current + 8192 ≤ kmemTop) :
    s.enter.processor = s.processor.restored (s.stackPointer s.current) c esp := by
  obtain ⟨number, hwords⟩ := h.words
  have hbelow := h.top.below
  rw [kmemTop] at hbound
  exact Processor.enterTask_frame hwords (by omega)

omit [DecidableEq μ] in
theorem enter_tops (hne : t ≠ s.current) : s.enter.tops t = s.tops t := by
  have htops : s.enter.tops = if s.enter.processor.cpu.User then
      update s.tops s.current (s.enter.processor.esp0 :: s.tops s.current) else s.tops := rfl
  rw [htops]
  split
  · exact update_of_ne hne _ _
  · rfl

omit [DecidableEq μ] in
/-- What does not run stays when another task is entered. -/
theorem Rests.of_enter (hc : s.Rests s.current c esp) (hbound : s.stack s.current + 8192 ≤ kmemTop)
    (hne : t ≠ s.current) {c' : Cpu} {esp' : Word} (h : s.Rests t c' esp') :
    s.enter.Rests t c' esp' := by
  refine h.congr rfl rfl (enter_tops hne) fun x _ _ => ?_
  rw [hc.enter hbound]
  rfl

omit [DecidableEq μ] in
/-- Where the stack is behind `enter_task`, which stores `esp0` as if each frame were of the
kernel. -/
theorem Rests.toNat_esp0 (h : s.Rests s.current c esp)
    (hbound : s.stack s.current + 8192 ≤ kmemTop) :
    s.enter.processor.esp0.toNat = (s.stackPointer s.current).toNat + 52 := by
  have hbelow := h.top.below
  rw [kmemTop] at hbound
  rw [h.enter hbound, Processor.restored, BitVec.toNat_add]
  exact Nat.mod_eq_of_lt (show (s.stackPointer s.current).toNat + 52 < 2 ^ 32 by omega)

omit [DecidableEq μ] in
theorem Rests.enter_esp (h : s.Rests s.current c esp) (hbound : s.stack s.current + 8192 ≤ kmemTop)
    (hu : ¬ c.User) : s.enter.processor.esp = esp := by
  apply BitVec.eq_of_toNat_eq
  rw [← (h.kernel hu).2, ← h.toNat_esp0 hbound, h.enter hbound]
  exact congrArg BitVec.toNat (if_neg hu)

omit [DecidableEq μ] in
theorem Rests.enter_inKernel (h : s.Rests s.current c esp)
    (hbound : s.stack s.current + 8192 ≤ kmemTop)
    (hu : ¬ c.User) : ¬ s.enter.processor.cpu.User ∧
    InKernel s.enter.processor (s.stack s.current) ∧ s.enter.tops = s.tops ∧
    s.enter.Top s.current False s.enter.processor.esp0.toNat := by
  have hsize : Processor.frameSize c = 52 := if_neg hu
  have hp := h.enter hbound
  have hesp0 := h.toNat_esp0 hbound
  have hnil := h.top.kernel hu
  have hbelow := h.top.below
  have habove := h.top.above
  rw [hnil, List.length_nil] at habove
  have hnot : ¬ s.enter.processor.cpu.User := by
    rw [hp]
    exact hu
  have htops : s.enter.tops = s.tops := if_neg hnot
  have hesp : s.enter.processor.esp = s.enter.processor.esp0 := by
    rw [hp]
    exact if_neg hu
  refine ⟨hnot, ⟨?_, ?_, ?_⟩, htops, ⟨?_, ?_, fun hf => hf.elim, fun _ => ?_⟩⟩
  · rw [hp]
    exact (h.kernel hu).1
  · rw [hesp, hesp0]
    omega
  · rw [hesp, hesp0]
    omega
  · rw [hesp0]
    exact (show _ ≤ s.stack s.current + 8192 by omega)
  · rw [htops, hnil, hesp0, List.length_nil]
    exact (show s.stack s.current + reserve ≤ _ by omega)
  · rw [htops]
    exact hnil

omit [DecidableEq μ] in
theorem Rests.enter_inUser (h : s.Rests s.current c esp)
    (hbound : s.stack s.current + 8192 ≤ kmemTop)
    (hu : c.User) : s.enter.processor.cpu.User ∧
    s.enter.tops s.current = s.enter.processor.esp0 :: s.tops s.current ∧
    s.enter.Top s.current True s.enter.processor.esp0.toNat ∧
    ∀ y ∈ (s.tops s.current).head?, s.enter.processor.esp0.toNat + 8 = y.toNat := by
  have hsize : Processor.frameSize c = 60 := if_pos hu
  have hp := h.enter hbound
  have hesp0 := h.toNat_esp0 hbound
  have hbelow := h.top.below
  have habove := h.top.above
  have huser : s.enter.processor.cpu.User := by
    rw [hp]
    exact hu
  have htops : s.enter.tops =
      update s.tops s.current (s.enter.processor.esp0 :: s.tops s.current) :=
    if_pos huser
  have hself : s.enter.tops s.current = s.enter.processor.esp0 :: s.tops s.current := by
    rw [htops]
    exact update_self ..
  refine ⟨huser, hself, ⟨?_, ?_, fun _ y hy => ?_, fun hf => absurd trivial hf⟩, fun y hy => ?_⟩
  · rw [hesp0]
    exact (show _ ≤ s.stack s.current + 8192 by omega)
  · rw [hself, hesp0, List.length_cons]
    exact (show s.stack s.current + reserve ≤ _ by omega)
  · rw [hself] at hy
    obtain rfl : s.enter.processor.esp0 = y := by simpa using hy
    rfl
  · rw [h.top.user hu y hy, hesp0]
    omega

omit [DecidableEq μ] in
theorem Sound.enter (h : s.Sound) (hm : s.mode ≠ .running) : s.enter.Sound := by
  have hmem := h.current_mem
  have hbound := h.bounded s.current hmem
  obtain ⟨c, esp, hc⟩ := h.rests s.current hmem fun hrun => hm hrun.1
  refine ⟨h.ordered, h.apart, h.bounded, fun t ht hrun => ?_, fun _ hu => ?_, fun _ hu => ?_,
    fun t => ?_⟩
  · have hne : t ≠ s.current := fun he => hrun ⟨rfl, he.symm⟩
    obtain ⟨c', esp', hr⟩ := h.rests t ht fun hrun => hm hrun.1
    exact ⟨c', esp', hc.of_enter hbound hne hr⟩
  · by_cases hcu : c.User
    · exact (hc.enter_inUser hbound hcu).2.2.1
    · exact absurd hu (hc.enter_inKernel hbound hcu).1
  · by_cases hcu : c.User
    · exact absurd (hc.enter_inUser hbound hcu).1 hu
    · obtain ⟨-, hin, -, htop⟩ := hc.enter_inKernel hbound hcu
      exact ⟨hin, htop⟩
  · by_cases hne : t = s.current
    · rw [hne]
      by_cases hcu : c.User
      · obtain ⟨-, htops, -, hhead⟩ := hc.enter_inUser hbound hcu
        rw [htops, List.isChain_cons]
        exact ⟨hhead, h.drifts s.current⟩
      · rw [(hc.enter_inKernel hbound hcu).2.2.1]
        exact h.drifts s.current
    · rw [enter_tops hne]
      exact h.drifts t

/-! ## Runs -/

omit [DecidableEq ι] [DecidableEq μ] in
theorem Works.rests (h : s.Works m) {st : State ι μ} (ht : t ∈ s.queue.linked) (hrun : ¬ s.Runs t)
    (hr : s.Rests t c esp) : (s.work m st).Rests t c esp := by
  refine hr.congr rfl rfl rfl fun x hx hon => h.mem t ht x hon ?_
  rintro (hruns | ⟨-, -, hlt⟩)
  · exact hrun hruns
  · exact absurd hx (Nat.not_le_of_lt hlt)

omit [DecidableEq ι] [DecidableEq μ] in
theorem Sound.inUser_false (h : s.Sound) (hm : s.mode = .running) (hu : ¬ s.processor.cpu.User) :
    s.Top s.current True s.processor.esp0.toNat := by
  obtain ⟨-, hbelow, habove, -, hnil⟩ := h.inKernel hm hu
  refine ⟨hbelow, habove, fun _ y hy => ?_, fun hf => absurd trivial hf⟩
  rw [hnil id] at hy
  cases hy

theorem Sound.work (h : s.Sound) (hw : s.Works m) {st : State ι μ}
    (hring : st.scheduling = s.queue.state.scheduling)
    (hcurrent : st.currentTask = s.queue.state.currentTask) : (s.work m st).Sound := by
  have hcurrent' : (s.work m st).current = s.current := hcurrent
  have hesp0 : (s.work m st).processor.esp0 = s.processor.esp0 := hw.esp0
  have hruns (t : ι) : (s.work m st).Runs t ↔ s.Runs t := by
    rw [Runs, Runs, hcurrent']
    rfl
  obtain ⟨l, hl⟩ := h.ordered
  refine ⟨?_, h.apart, h.bounded, fun t ht hrun => ?_, fun hm hu => ?_, fun hm hu => ?_,
    h.drifts⟩
  · exact hl.step (.other hring hcurrent)
  · rw [hruns] at hrun
    obtain ⟨c, esp, hr⟩ := h.rests t ht hrun
    exact ⟨c, esp, hw.rests ht hrun hr⟩
  · rw [hcurrent', hesp0]
    by_cases hu' : s.processor.cpu.User
    · exact (h.inUser hm hu').congr rfl rfl
    · exact (h.inUser_false hm hu').congr rfl rfl
  · have hu' : ¬ s.processor.cpu.User := fun hu' => hu (hw.user hm hu')
    rw [hcurrent', hesp0]
    exact ⟨hw.kernel hm hu, (h.inKernel hm hu').2.congr rfl rfl⟩

section Create

variable {stack : Nat} {main cr3 : Word}

omit [DecidableEq μ] in
theorem create_rests (ht : t ∉ s.queue.linked) (hf : s.Fresh stack) (hu : u ∈ s.queue.linked)
    (hr : s.Rests u c esp) : (s.create image t stack main cr3).Rests u c esp := by
  have hne : u ≠ t := fun he => ht (he ▸ hu)
  refine hr.congr (update_of_ne hne _ _) (update_of_ne hne _ _) rfl fun x _ hx => ?_
  obtain ⟨-, hout⟩ := createKernelStack_spec image.taskWrapper main cr3 0 stack s.processor.mem
  have hapart := hf.apart u hu
  have h₁ := hx.1
  have h₂ := hx.2
  exact hout x (by omega)

omit [DecidableEq μ] in
theorem create_self (hf : s.Fresh stack) (hnil : s.tops t = []) :
    (s.create image t stack main cr3).Rests t (created image.taskWrapper cr3)
      (.ofNat 32 (stack + 8192 - 8)) := by
  have hnot := Processor.not_user_of_cs (c := created image.taskWrapper cr3) rfl
  have hsize : Processor.frameSize (created image.taskWrapper cr3) = 52 := if_neg hnot
  have htop := hf.top
  rw [kmemTop] at htop
  obtain ⟨hwords, -⟩ :=
    createKernelStack_spec image.taskWrapper main cr3 (.ofNat 32 (stack + 8192 - 8)) stack
    s.processor.mem
  have hstack : (s.create image t stack main cr3).stack t = stack := update_self ..
  have hpointer : ((s.create image t stack main cr3).stackPointer t).toNat =
      stack + 8192 - 52 - 4 - 4 := by
    have he : (s.create image t stack main cr3).stackPointer t =
      .ofNat 32 (stack + 8192 - 52 - 4 - 4) := update_self ..
    rw [he, BitVec.toNat_ofNat]
    exact Nat.mod_eq_of_lt (by omega)
  have htops : (s.create image t stack main cr3).tops t = [] := hnil
  refine ⟨⟨0, ?_⟩, ?_, ⟨?_, ?_, fun hu => absurd hu hnot, fun _ => hnil⟩, fun _ => ⟨rfl, ?_⟩⟩
  · rw [hpointer]
    exact hwords
  · rw [hstack, hpointer]
    omega
  · rw [hstack, hpointer, hsize]
    omega
  · rw [hstack, hpointer, hsize, htops, List.length_nil, reserve]
    omega
  · rw [hpointer, BitVec.toNat_ofNat]
    omega

theorem Sound.create (h : s.Sound) (hu : s.mode = .running → ¬ s.processor.cpu.User)
    (ht : t ∉ s.queue.linked) (hnil : s.tops t = []) (hf : s.Fresh stack) :
    (s.create image t stack main cr3).Sound := by
  obtain ⟨l, hl⟩ := h.ordered
  have hcurrent : (s.create image t stack main cr3).current = s.current := rfl
  have hother (u : ι) (hu : u ∈ s.queue.linked) : u ≠ t := fun he => ht (he ▸ hu)
  have hstack (u : ι) (hu : u ∈ s.queue.linked) :
      (s.create image t stack main cr3).stack u = s.stack u := update_of_ne (hother u hu) _ _
  have hself : (s.create image t stack main cr3).stack t = stack := update_self ..
  have hc := hstack s.current h.current_mem
  refine ⟨hl.step (.linkTask ht), ?_, ?_, fun u hm hrun => ?_, fun hm hu' => absurd hu' (hu hm),
    fun hm hu' => ?_, h.drifts⟩
  · intro u hu v hv hne
    rcases List.mem_cons.1 hu with rfl | hu' <;> rcases List.mem_cons.1 hv with rfl | hv'
    · exact absurd rfl hne
    · rw [hself, hstack v hv']
      exact hf.apart v hv'
    · rw [hself, hstack u hu']
      exact (hf.apart u hu').symm
    · rw [hstack u hu', hstack v hv']
      exact h.apart u hu' v hv' hne
  · intro u hu
    rcases List.mem_cons.1 hu with rfl | hu
    · rw [hself]
      exact hf.top
    · rw [hstack u hu]
      exact h.bounded u hu
  · rcases List.mem_cons.1 hm with rfl | hm
    · exact ⟨_, _, create_self hf hnil⟩
    · obtain ⟨c, esp, hr⟩ := h.rests u hm hrun
      exact ⟨c, esp, create_rests ht hf hm hr⟩
  · obtain ⟨⟨hcs, habove, hbelow⟩, htop⟩ := h.inKernel hm hu'
    rw [hcurrent]
    refine ⟨⟨hcs, ?_, ?_⟩, htop.congr hc rfl⟩
    · rw [hc]
      exact habove
    · rw [hc]
      exact hbelow

end Create

/-- `pick_next_task`, as long as no task runs. -/
theorem Sound.pick (h : s.Sound) (hm : s.mode ≠ .running) {fuel : Nat} {st : State ι μ}
    (hpick : s.queue.state.pickNextTask fuel = some st) :
    (s.pick st).Sound := by
  obtain ⟨l, hl⟩ := h.ordered
  refine ⟨hl.step (.pickNextTask hpick), h.apart, h.bounded, fun t ht _ => ?_,
    fun hm' => absurd hm' hm, fun hm' => absurd hm' hm, h.drifts⟩
  obtain ⟨c, esp, hr⟩ := h.rests t ht fun hrun => hm hrun.1
  exact ⟨c, esp, hr.congr rfl rfl rfl fun _ _ _ => rfl⟩

section Ends

omit [DecidableEq ι] [DecidableEq μ] in
theorem Sound.nodup (h : s.Sound) : s.queue.linked.Nodup := by
  obtain ⟨l, hl⟩ := h.ordered
  exact hl.linked.nodup_iff.1 hl.ring.nodup

omit [DecidableEq μ] in
/-- The frames of the other tasks stay. -/
theorem finish_rests (hmem : ∀ t ∈ s.queue.linked, t ≠ s.current → ∀ x, s.OnStack t x →
    m.mem x = s.processor.mem x) (ht : t ∈ s.queue.linked) (hne : t ≠ s.current) (hr :
    s.Rests t c esp) :
    (s.finish m).Rests t c esp :=
  hr.congr rfl rfl rfl fun x _ hx => hmem t ht hne x hx

theorem Sound.finish (h : s.Sound) (hothers : ¬ s.queue.state.scheduling.Lonely s.current)
    (hmem : ∀ t ∈ s.queue.linked, t ≠ s.current → ∀ x, s.OnStack t x →
      m.mem x = s.processor.mem x) :
    (s.finish m).Sound := by
  have hmode : (s.finish m).mode ≠ .running := by
    have hswitching : (s.finish m).mode = .switching := rfl
    rw [hswitching]
    decide
  have hlinked (t : ι) (ht : t ∈ (s.finish m).queue.linked) : t ≠ s.current ∧ t ∈ s.queue.linked :=
    h.nodup.mem_erase_iff.1 ht
  obtain ⟨l, hl⟩ := h.ordered
  refine ⟨hl.step (.finalize hothers), fun t ht u hu =>
    h.apart t (hlinked t ht).2 u (hlinked u hu).2,
    fun t ht => h.bounded t (hlinked t ht).2, fun t ht _ => ?_, fun hm => absurd hm hmode,
    fun hm => absurd hm hmode, h.drifts⟩
  obtain ⟨hne, ht⟩ := hlinked t ht
  obtain ⟨c, esp, hr⟩ := h.rests t ht fun hrun => hne hrun.2.symm
  exact ⟨c, esp, finish_rests hmem ht hne hr⟩

end Ends

theorem Sound.step (h : s.Sound) (hstep : FitStep image s s') : s'.Sound := by
  obtain ⟨hfits, hstep⟩ := hstep
  cases hstep with
  | work hw hring hcurrent => exact h.work hw hring hcurrent
  | create _ hu ht hnil hf => exact h.create hu ht hnil hf
  | yield hy =>
    rw [hy.eq]
    exact h.leave (h.yield_leaves image hy.running hy.kernel)
  | tick hm => exact h.leave (h.tick_leaves image hfits hm)
  | start hm =>
    apply h.enter
    rw [hm]
    decide
  | enter he =>
    have hm : s.mode ≠ .running := by
      rw [he.switching]
      decide
    obtain ⟨fuel, st, hpick, rfl⟩ := he.eq
    exact (h.pick hm hpick).enter hm
  | finish he =>
    obtain ⟨m, hmem, rfl⟩ := he.eq
    apply (h.finish he.others hmem).enter
    have hswitching : (s.finish m).mode = .switching := rfl
    rw [hswitching]
    decide

/-- Only the current task ends. -/
theorem linked_step (hstep : Step image s s') (hrun : ¬ s.Runs t) (ht : t ∈ s.queue.linked) :
    t ∈ s'.queue.linked := by
  cases hstep with
  | work | tick | start => exact ht
  | create => exact List.mem_cons_of_mem _ ht
  | yield hy =>
    rw [hy.eq]
    exact ht
  | enter he =>
    obtain ⟨fuel, st, -, rfl⟩ := he.eq
    exact ht
  | finish he =>
    obtain ⟨m, -, rfl⟩ := he.eq
    exact (List.mem_erase_of_ne fun heq => hrun ⟨he.running, heq.symm⟩).2 ht

/-- As long as a task does not run, its frame stays. -/
theorem Rests.step (hr : s.Rests t c esp) (h : s.Sound) (ht : t ∈ s.queue.linked)
    (hrun : ¬ s.Runs t)
    (hstep : FitStep image s s') (hrun' : ¬ s'.Runs t) : s'.Rests t c esp := by
  obtain ⟨hfits, hstep⟩ := hstep
  have hne (hm : s.mode = .running) : t ≠ s.current := fun he => hrun ⟨hm, he.symm⟩
  cases hstep with
  | work hw => exact hw.rests ht hrun hr
  | create _ _ ht' _ hf => exact create_rests ht' hf ht hr
  | yield hy =>
    rw [hy.eq]
    exact (h.yield_leaves image hy.running hy.kernel).rests h ht (hne hy.running) hr
  | tick hm => exact (h.tick_leaves image hfits hm).rests h ht (hne hm) hr
  | start hm =>
    have hne : t ≠ s.current := fun he => hrun' ⟨rfl, he.symm⟩
    have hm : s.mode ≠ .running := by
      rw [hm]
      decide
    obtain ⟨c', esp', hc⟩ := h.rests s.current h.current_mem fun hrun => hm hrun.1
    exact hc.of_enter (h.bounded _ h.current_mem) hne hr
  | enter he =>
    have hm : s.mode ≠ .running := by
      rw [he.switching]
      decide
    obtain ⟨fuel, st, hpick, rfl⟩ := he.eq
    have h' := h.pick hm hpick
    have hne : t ≠ st.currentTask := fun he => hrun' ⟨rfl, he.symm⟩
    obtain ⟨c', esp', hc⟩ := h'.rests st.currentTask h'.current_mem fun hrun => hm hrun.1
    refine Rests.of_enter hc (h'.bounded _ h'.current_mem) hne ?_
    exact hr.congr rfl rfl rfl fun _ _ _ => rfl
  | finish he =>
    obtain ⟨m, hmem, rfl⟩ := he.eq
    have h' := h.finish he.others hmem
    have hnext : t ≠ (s.finish m).current := fun he => hrun' ⟨rfl, he.symm⟩
    obtain ⟨c', esp', hc⟩ := h'.rests _ h'.current_mem fun hrun => by cases hrun.1
    exact Rests.of_enter hc (h'.bounded _ h'.current_mem) hnext
      (finish_rests hmem ht (hne he.running) hr)

omit [DecidableEq ι] [DecidableEq μ] in
theorem Start.rests (h : Start image idle s) : ∃ cr3, s.Rests idle (created image.taskWrapper cr3)
    (.ofNat 32 (s.stack idle + 8192 - 8)) := by
  obtain ⟨main, cr3, m, hm⟩ := h.frame
  have hnot := Processor.not_user_of_cs (c := created image.taskWrapper cr3) rfl
  have hsize : Processor.frameSize (created image.taskWrapper cr3) = 52 := if_neg hnot
  have hwords :=
    (createKernelStack_spec image.taskWrapper main cr3 (.ofNat 32 (s.stack idle + 8192 - 8))
    (s.stack idle) m).1
  have hpointer : s.stack idle + 8192 - 52 - 4 - 4 = (s.stackPointer idle).toNat :=
    congrArg Prod.fst hm
  rw [hm] at hwords
  have htop := h.top
  rw [kmemTop] at htop
  refine ⟨cr3, ⟨0, hwords⟩, ?_, ⟨?_, ?_, fun hu => absurd hu hnot, fun _ => h.tops idle⟩,
    fun _ => ⟨rfl, ?_⟩⟩
  · omega
  · omega
  · rw [h.tops idle, List.length_nil, reserve]
    omega
  · rw [BitVec.toNat_ofNat]
    omega

theorem Start.sound (h : Start image idle s) : s.Sound := by
  have hmode : s.mode ≠ .running := by
    rw [h.mode]
    decide
  have hmem (t : ι) : t ∈ s.queue.linked ↔ t = idle := by
    rw [h.linked]
    exact List.mem_singleton
  have hordered : ∃ l, s.queue.Ordered l := by
    have hreach : s.queue.Reachable idle := by
      refine ⟨s.queue.state, h.alone, h.current, ?_⟩
      rw [← h.linked]
    exact hreach.ordered
  refine ⟨hordered, fun t ht u hu hne => ?_, fun t ht => ?_, fun t ht _ => ?_,
    fun hm => absurd hm hmode, fun hm => absurd hm hmode, fun t => ?_⟩
  · exact absurd (((hmem t).1 ht).trans ((hmem u).1 hu).symm) hne
  · obtain rfl := (hmem t).1 ht
    exact h.top
  · obtain rfl := (hmem t).1 ht
    obtain ⟨cr3, hr⟩ := h.rests
    exact ⟨_, _, hr⟩
  · rw [h.tops t]
    exact .nil

theorem FitReaches.sound (h : FitReaches image idle s) : s.Sound := by
  obtain ⟨s₀, hstart, hrun⟩ := h
  induction hrun with
  | refl => exact hstart.sound
  | tail _ hstep ih => exact ih.step hstep

theorem FitReaches.step (h : FitReaches image idle s) (hstep : FitStep image s s') :
    FitReaches image idle s' := by
  obtain ⟨s₀, hstart, hrun⟩ := h
  exact ⟨s₀, hstart, hrun.tail hstep⟩

end Tasking

end TinyLittleOs.Scheduler
