import TinyLittleOs.Scheduler.Switches

/-!
# Coming back to a task

What a task gets back after `yield`, and where its kernel stack begins after the timer has
interrupted it in user mode. The interrupt flag is saved behind `cli`, so it is lost. `enter_task`
takes each frame for one of the kernel, but in user mode the processor pushes two words more: the
stack moves.
-/

namespace TinyLittleOs.Scheduler

open Lib Function Relation

namespace Tasking

/-! ## The idle task alone -/

/-- The idle task, before `scheduler::start` enters it. -/
def idleAlone (stack : Nat) : Tasking Nat Unit where
  queue := ⟨{ Queue.idleOnly with preemptCounter := 0 }, [0]⟩
  processor := ⟨created 0 0, 0, (createKernelStack 0 0 0 stack fun _ => 0).2, 0⟩
  mode := .boot
  stack := fun _ => stack
  stackPointer := fun _ => .ofNat 32 (stack + 8192 - 52 - 4 - 4)
  tops := fun _ => []

/-- A kernel where the code of interest is at the address 0. -/
def imageZero : Image := ⟨0, 0, 0, 0⟩

theorem idleAlone_start {stack : Nat} (h : stack + 8192 ≤ kmemTop) :
    Start imageZero 0 (idleAlone stack) := by
  refine ⟨rfl, rfl, rfl, rfl, h, ⟨0, 0, fun _ => 0, Prod.ext ?_ rfl⟩, fun _ => rfl⟩
  have hpointer : (idleAlone stack).stackPointer 0 = .ofNat 32 (stack + 8192 - 52 - 4 - 4) := rfl
  rw [kmemTop] at h
  rw [hpointer, BitVec.toNat_ofNat]
  exact (Nat.mod_eq_of_lt (show stack + 8192 - 52 - 4 - 4 < 2 ^ 32 by omega)).symm

/-- The idle task runs on the processor `c`. -/
structure IdleRuns (s : Tasking Nat Unit) (c : Cpu) : Prop where
  reaches : FitReaches imageZero 0 s
  running : s.mode = .running
  cpu : ∃ ss, s.processor.cpu = { c with ss := ss }
  state : s.queue.state = { Queue.idleOnly with preemptCounter := 0 }
  tops : ∀ t ≠ 0, s.tops t = []

theorem exists_idleRuns (hc : ¬ c.User → c.cs = kernelCs) : ∃ s, IdleRuns s c ∧ s.tops 0 = [] := by
  obtain ⟨stack, hstack⟩ : ∃ stack, stack + 8192 ≤ kmemTop := ⟨0, by rw [kmemTop]; omega⟩
  have hstart := idleAlone_start hstack
  have hnot : (idleAlone stack).mode ≠ .running := by
    rw [hstart.mode]
    decide
  have hentered : FitReaches imageZero 0 (idleAlone stack).enter :=
    ⟨_, hstart, .single ⟨fun hm => absurd hm hnot, .start hstart.mode⟩⟩
  have hsound := hentered.sound
  have hbound := hstart.sound.bounded 0 (List.mem_singleton.2 rfl)
  -- the idle task begins in the kernel
  obtain ⟨cr3, hrests⟩ := hstart.rests
  have hnotUser : ¬ (created imageZero.taskWrapper cr3).User := Processor.not_user_of_cs rfl
  obtain ⟨hkernel, hin, htops, -⟩ :=
    Rests.enter_inKernel (s := idleAlone stack) hrests hbound hnotUser
  have hworks :
      (idleAlone stack).enter.Works { (idleAlone stack).enter.processor with cpu := c } := by
    refine ⟨rfl, fun _ _ _ _ _ => rfl, fun _ hu => absurd hu hkernel, fun _ hu => ⟨hc hu, ?_, ?_⟩⟩
    · exact hin.above
    · exact hin.below
  refine ⟨(idleAlone stack).enter.work { (idleAlone stack).enter.processor with cpu := c }
    (idleAlone stack).enter.queue.state, ⟨?_, rfl, ⟨c.ss, rfl⟩, rfl, fun t _ => ?_⟩, ?_⟩
  · exact hentered.step ⟨fun _ hu => absurd hu hkernel, .work hworks rfl rfl⟩
  · exact congrFun htops t
  · exact congrFun htops 0

variable {s s' : Tasking Nat Unit}

section

variable {s : Tasking Nat Unit} {c : Cpu}

/-- The idle task is the only one to pick. -/
theorem IdleRuns.pick (h : IdleRuns s c) : s.queue.state.pickNextTask 1 = some s.queue.state := by
  rw [h.state]
  rfl

theorem IdleRuns.current (h : IdleRuns s c) : s.current = 0 := by
  rw [Tasking.current, h.state]
  rfl

end

variable {ι μ : Type} [DecidableEq ι] [DecidableEq μ]
variable {s s' : Tasking ι μ} {t idle : ι} {c : Cpu} {esp : Word} {image : Image}

/-! ## Coming back from `yield` -/

/-- A step in which a task does not get to run. -/
def AwayStep (image : Image) (t : ι) (s s' : Tasking ι μ) : Prop := FitStep image s s' ∧ ¬ s'.Runs t

/-- A call of `yield` and the next time that its caller runs. -/
def Resumes (image : Image) (s s' : Tasking ι μ) : Prop :=
  ∃ s₁ s₂, Yields image s s₁ ∧ ReflTransGen (AwayStep image s.current) s₁ s₂ ∧ Enters s₂ s' ∧
    s'.current = s.current

/-- What a caller of `yield` relies on. -/
structure Kept (image : Image) (m m' : Processor) : Prop where
  regs : m'.cpu.regs = m.cpu.regs
  esp : m'.esp = m.esp
  cr3 : m'.cpu.cr3 = m.cpu.cr3
  cs : m'.cpu.cs = m.cpu.cs
  eip : m'.cpu.eip = image.label1
  interruptFlag : m'.cpu.interruptFlag = m.cpu.interruptFlag

theorem Rests.away (hr : s.Rests t c esp) (h : s.Sound) (ht : t ∈ s.queue.linked)
    (hrun : ¬ s.Runs t)
    (haway : ReflTransGen (AwayStep image t) s s') :
    s'.Sound ∧ t ∈ s'.queue.linked ∧ s'.Rests t c esp := by
  have hall : s'.Sound ∧ t ∈ s'.queue.linked ∧ s'.Rests t c esp ∧ ¬ s'.Runs t := by
    induction haway with
    | refl => exact ⟨h, ht, hr, hrun⟩
    | tail _ hstep ih =>
      obtain ⟨hs, hm, hrests, hrun⟩ := ih
      exact ⟨hs.step hstep.1, linked_step hstep.1.2 hrun hm,
        hrests.step hs hm hrun hstep.1 hstep.2, hstep.2⟩
  exact ⟨hall.1, hall.2.1, hall.2.2.1⟩

/-- The caller comes back with the processor of the call, but the flags of `yield`. -/
theorem Resumes.processor (h : s.Sound) (hr : Resumes image s s') :
    ∃ ss, s'.processor.cpu = { Processor.yielded image.label1 s.processor.cpu with ss := ss } ∧
      s'.processor.esp = s.processor.esp := by
  obtain ⟨s₁, s₂, hy, haway, he, hcurrent⟩ := hr
  have hleaves := h.yield_leaves image hy.running hy.kernel
  have haway' : s₂.Sound ∧ s.current ∈ s₂.queue.linked ∧
      s₂.Rests s.current (Processor.yielded image.label1 s.processor.cpu) s.processor.esp := by
    have hrun : ¬ s₁.Runs s.current := by
      rw [hy.eq]
      rintro ⟨hm, -⟩
      cases hm
    refine Rests.away ?_ ?_ ?_ hrun haway
    · rw [hy.eq]
      exact hleaves.left
    · rw [hy.eq]
      exact h.leave hleaves
    · rw [hy.eq]
      exact h.current_mem
  obtain ⟨hs, hm, hrests⟩ := haway'
  obtain ⟨fuel, st, hpick, rfl⟩ := he.eq
  have hst : (s₂.pick st).current = s.current := hcurrent
  have hnot : ¬ (Processor.yielded image.label1 s.processor.cpu).User :=
    Processor.not_user_of_cs rfl
  have hrests' : (s₂.pick st).Rests (s₂.pick st).current
      (Processor.yielded image.label1 s.processor.cpu) s.processor.esp := by
    rw [hst]
    exact hrests.congr rfl rfl rfl fun _ _ _ => rfl
  have hbound : (s₂.pick st).stack (s₂.pick st).current + 8192 ≤ kmemTop := by
    rw [hst]
    exact hs.bounded _ hm
  exact ⟨_, congrArg Processor.cpu (hrests'.enter hbound), hrests'.enter_esp hbound hnot⟩

/-- The interrupt flag that `yield` pushes is clear. -/
theorem pushedFlags_cli (c : Cpu) : c.cli.pushedFlags.getLsbD 9 = false := by
  simp [Cpu.pushedFlags, Cpu.cli]

theorem IdleRuns.resumes {s : Tasking Nat Unit} (h : IdleRuns s c) (hu : ¬ c.User) :
    Resumes imageZero s ((s.yield imageZero).pick s.queue.state).enter := by
  obtain ⟨ss, hcpu⟩ := h.cpu
  refine ⟨s.yield imageZero, s.yield imageZero, ⟨h.running, ?_, ?_, rfl⟩, .refl,
    ⟨rfl, 1, _, h.pick, rfl⟩, rfl⟩
  · rw [hcpu]
    exact hu
  · rw [h.state]

/-- A caller of `yield` gets back what it had, if it had interrupts disabled. -/
theorem resumes_kept_iff (hr : FitReaches image idle s) (h : Resumes image s s') :
    Kept image s.processor s'.processor ↔ s.processor.cpu.interruptFlag = false := by
  obtain ⟨-, -, ⟨hm, hu, -, -⟩, -⟩ := id h
  obtain ⟨ss, hcpu, hesp⟩ := h.processor hr.sound
  have hcs := (hr.sound.inKernel hm hu).1.cs
  have hflag : s'.processor.cpu.interruptFlag = false := by
    rw [hcpu]
    exact pushedFlags_cli s.processor.cpu
  constructor
  · intro hkept
    rw [← hkept.interruptFlag]
    exact hflag
  · intro hf
    refine ⟨?_, hesp, ?_, ?_, ?_, hflag.trans hf.symm⟩
    · rw [hcpu]
      rfl
    · rw [hcpu]
      rfl
    · rw [hcpu, hcs]
      rfl
    · rw [hcpu]
      rfl

theorem resumes_kept_idle : ∃ s s' : Tasking Nat Unit, Resumes imageZero s s' ∧
    Kept imageZero s.processor s'.processor := by
  obtain ⟨s, h, -⟩ := exists_idleRuns (c := created 0 0) fun _ => rfl
  obtain ⟨ss, hcpu⟩ := h.cpu
  have hr := h.resumes (by decide)
  refine ⟨s, _, hr, (resumes_kept_iff h.reaches hr).2 ?_⟩
  rw [hcpu]
  exact (by decide : (created 0 0).interruptFlag = false)

/-- A caller with interrupts enabled comes back with interrupts disabled. -/
theorem yield_disables_interrupts : ¬ ∀ s s' : Tasking Nat Unit, FitReaches imageZero 0 s →
    Resumes imageZero s s' → Kept imageZero s.processor s'.processor := by
  intro hall
  obtain ⟨s, h, -⟩ := exists_idleRuns (c := { created 0 0 with eflags := 0x200 }) fun _ => rfl
  obtain ⟨ss, hcpu⟩ := h.cpu
  have hr := h.resumes (by decide)
  have hkept := (hall _ _ h.reaches hr).interruptFlag
  obtain ⟨ss', hcpu', -⟩ := hr.processor h.reaches.sound
  rw [hcpu', hcpu] at hkept
  revert hkept
  simp [Cpu.interruptFlag, Processor.yielded, Cpu.pushedFlags, Cpu.cli]

/-! ## The top of the kernel stack -/

/-- The task came back to user mode with one value of `esp0`. -/
def SameTop (s : Tasking ι μ) (t : ι) : Prop := ∀ x ∈ s.tops t, ∀ y ∈ s.tops t, x = y

omit [DecidableEq ι] [DecidableEq μ] in
/-- Each time that a task comes back to user mode its stack begins eight bytes lower. -/
theorem Sound.sameTop_iff (h : s.Sound) : s.SameTop t ↔ (s.tops t).length ≤ 1 := by
  have hdrift := h.drifts t
  rw [SameTop]
  match htops : s.tops t with
  | [] => simp
  | [x] => simp
  | x :: y :: l =>
    rw [htops, List.isChain_cons_cons] at hdrift
    simp only [List.length_cons]
    constructor
    · intro hsame
      have he := hsame x List.mem_cons_self y (List.mem_cons_of_mem x List.mem_cons_self)
      rw [he] at hdrift
      omega
    · intro hlen
      omega

omit [DecidableEq ι] [DecidableEq μ] in
theorem Sound.fits (h : s.Sound) (hlen : (s.tops s.current).length ≤ 1) : s.Fits := by
  intro hm hu
  obtain ⟨hbelow, habove, -, -⟩ := h.inUser hm hu
  rw [reserve] at habove
  exact ⟨by omega, hbelow⟩

/-- What a task has come back with is not forgotten. -/
theorem tops_step (hstep : Step image s s') : ∃ l, s'.tops t = l ++ s.tops t := by
  have henter (s : Tasking ι μ) : ∃ l, s.enter.tops t = l ++ s.tops t := by
    by_cases hne : t = s.current
    · have htops : s.enter.tops = if s.enter.processor.cpu.User then
          update s.tops s.current (s.enter.processor.esp0 :: s.tops s.current) else s.tops := rfl
      rw [htops, hne]
      split
      · exact ⟨[_], update_self ..⟩
      · exact ⟨[], rfl⟩
    · exact ⟨[], enter_tops hne⟩
  cases hstep with
  | work | create | tick => exact ⟨[], rfl⟩
  | yield hy =>
    rw [hy.eq]
    exact ⟨[], rfl⟩
  | start => exact henter s
  | enter he =>
    obtain ⟨fuel, st, -, rfl⟩ := he.eq
    exact henter (s.pick st)
  | finish he =>
    obtain ⟨m, -, rfl⟩ := he.eq
    exact henter (s.finish m)

theorem FitReaches.reaches (h : FitReaches image idle s) :
    Reaches image idle s := by
  obtain ⟨s₀, hstart, hrun⟩ := h
  exact ⟨s₀, hstart, ReflTransGen.mono (fun _ _ (hstep : FitStep image _ _) => hstep.2) _ _ hrun⟩

/-- As long as tasks have come back to user mode once at most, every frame was on its stack. -/
theorem Reaches.fitReaches (h : Reaches image idle s) (hlen : ∀ t, (s.tops t).length ≤ 1) :
    FitReaches image idle s := by
  obtain ⟨s₀, hstart, hrun⟩ := h
  induction hrun with
  | refl => exact ⟨s₀, hstart, .refl⟩
  | @tail s s' _ hstep ih =>
    have hlen' (t : ι) : (s.tops t).length ≤ 1 := by
      obtain ⟨l, hl⟩ := tops_step (t := t) hstep
      have := hlen t
      rw [hl, List.length_append] at this
      omega
    have hr := ih hlen'
    exact hr.step ⟨hr.sound.fits (hlen' _), hstep⟩

/-- A second value of `esp0` is another one. -/
theorem Reaches.length_tops (h : Reaches image idle s) (hsame : ∀ t, s.SameTop t) :
    ∀ t, (s.tops t).length ≤ 1 := by
  obtain ⟨s₀, hstart, hrun⟩ := h
  induction hrun with
  | refl =>
    intro t
    rw [hstart.tops t]
    exact Nat.zero_le 1
  | @tail s s' hrun hstep ih =>
    have hsame' (t : ι) : s.SameTop t := by
      obtain ⟨l, hl⟩ := tops_step (t := t) hstep
      intro x hx y hy
      refine hsame t x ?_ y ?_ <;> rw [hl]
      · exact List.mem_append_right l hx
      · exact List.mem_append_right l hy
    have hlen := ih hsame'
    have hr : FitReaches image idle s := Reaches.fitReaches ⟨s₀, hstart, hrun⟩ hlen
    have hsound := (hr.step ⟨hr.sound.fits (hlen _), hstep⟩).sound
    exact fun t => hsound.sameTop_iff.1 (hsame t)

/-- The timer interrupts the idle task in user mode. -/
theorem IdleRuns.tick {s : Tasking Nat Unit} (h : IdleRuns s c) (hu : c.User)
    (hflag : c.interruptFlag = true)
    (hlen : (s.tops 0).length ≤ 1) :
    ∃ s', IdleRuns s' c ∧ (s'.tops 0).length = (s.tops 0).length + 1 := by
  obtain ⟨ss, hcpu⟩ := h.cpu
  have hsound := h.reaches.sound
  have hfits : s.Fits := hsound.fits (by rw [h.current]; exact hlen)
  have hu' : s.processor.cpu.User := by
    rw [hcpu]
    exact hu
  have hflag' : s.processor.cpu.interruptFlag = true := by
    rw [hcpu]
    exact hflag
  have hcounter : s.queue.state.preemptCounter = 0 := by
    rw [h.state]
  have hstep : FitStep imageZero s (s.tick imageZero) := ⟨hfits, .tick h.running hflag' hcounter⟩
  have hmode : (s.tick imageZero).mode = .switching := rfl
  have hnot : (s.tick imageZero).mode ≠ .running := by
    rw [hmode]
    decide
  have hticked := h.reaches.step hstep
  have hentered : FitReaches imageZero 0 ((s.tick imageZero).pick s.queue.state).enter :=
    hticked.step ⟨fun hm => absurd hm hnot, .enter ⟨rfl, 1, _, h.pick, rfl⟩⟩
  have hleft : ((s.tick imageZero).pick s.queue.state).Rests s.current s.processor.cpu
      s.processor.esp :=
    (hsound.tick_leaves imageZero hfits h.running).left.congr rfl rfl rfl fun _ _ _ => rfl
  have hbound := hsound.bounded _ hsound.current_mem
  have hp := Rests.enter (s := (s.tick imageZero).pick s.queue.state) hleft hbound
  have htops :=
    (Rests.enter_inUser (s := (s.tick imageZero).pick s.queue.state) hleft hbound hu').2.1
  refine ⟨_, ⟨hentered, rfl, ?_, h.state, fun t ht => ?_⟩, ?_⟩
  · rw [hp, hcpu]
    exact ⟨_, rfl⟩
  · have hne : t ≠ ((s.tick imageZero).pick s.queue.state).current :=
      fun he => ht (he.trans h.current)
    rw [enter_tops hne]
    exact h.tops t ht
  · have hcurrent : ((s.tick imageZero).pick s.queue.state).current = 0 := h.current
    rw [hcurrent] at htops
    rw [htops]
    rfl

/-- A processor in user mode, with interrupts enabled. -/
def userCpu : Cpu := { created 0 0 with cs := 0x1b, ss := 0x23, eflags := 0x200 }

/-- The idle task has come back to user mode once. -/
theorem exists_back : ∃ s, IdleRuns s userCpu ∧ (s.tops 0).length = 1 := by
  obtain ⟨s, h, hnil⟩ := exists_idleRuns (c := userCpu) fun hu => absurd (by decide) hu
  obtain ⟨s', h', hlen⟩ := h.tick (by decide) (by decide) (by rw [hnil]; exact Nat.zero_le 1)
  rw [hnil] at hlen
  exact ⟨s', h', hlen⟩

/-- The top of every kernel stack stays where it is, and the next frame is on the stack, as long as
no task comes back to user mode a second time. -/
theorem top_kept_iff (h : Reaches image idle s) :
    (∀ t, s.SameTop t) ∧ s.Fits ↔ ∀ t, (s.tops t).length ≤ 1 := by
  constructor
  · exact fun hkept => h.length_tops hkept.1
  · intro hlen
    have hs := (h.fitReaches hlen).sound
    exact ⟨fun t => hs.sameTop_iff.2 (hlen t), hs.fits (hlen _)⟩

theorem top_kept_once :
    ∃ s : Tasking Nat Unit, (s.tops 0).length = 1 ∧ (∀ t, s.SameTop t) ∧ s.Fits := by
  obtain ⟨s, h, hlen⟩ := exists_back
  refine ⟨s, hlen, (top_kept_iff h.reaches.reaches).2 fun t => ?_⟩
  by_cases ht : t = 0
  · rw [ht, hlen]
  · rw [h.tops t ht]
    exact Nat.zero_le 1

/-- The timer interrupts the idle task twice in user mode. -/
theorem top_moves :
    ¬ ∀ s : Tasking Nat Unit, Reaches imageZero 0 s → (∀ t, s.SameTop t) ∧ s.Fits := by
  intro hall
  obtain ⟨s, h, hlen⟩ := exists_back
  obtain ⟨s', h', hlen'⟩ := h.tick (by decide) (by decide) (Nat.le_of_eq hlen)
  have hsame := (hall s' h'.reaches.reaches).1 0
  have := h'.reaches.sound.sameTop_iff.1 hsame
  omega

end Tasking

end TinyLittleOs.Scheduler
