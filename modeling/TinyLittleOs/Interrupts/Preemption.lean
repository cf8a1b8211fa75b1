import TinyLittleOs.Interrupts.Runs
import TinyLittleOs.Scheduler.Resuming

/-!
# Interrupts and tasks

The tasks of the scheduler, with the devices. A task is interrupted on its kernel stack, and what
the scheduler knows as a tick is a timer interrupt that found `preempt_counter` at 0: each run with
devices is a run of the scheduler, and of the drivers.
-/

namespace TinyLittleOs.Interrupts

open Lib Scheduler Devices Relation

variable {ι μ : Type} [DecidableEq ι] [DecidableEq μ]

structure Computer (ι μ : Type) where
  tasks : Tasking ι μ
  /-- `preempt_counter` has 32 bits. -/
  counter : tasks.queue.state.preemptCounter < 2 ^ 32
  segments : DataSegments
  depth : Int
  console : Console
  pic : Pic
  controller : Controller

namespace Computer

/-- What the handlers work on, once `scheduler::initialize` has set `current_task`. -/
def kernel (w : Computer ι μ) : Kernel where
  depth := w.depth
  scheduling := true
  preemptCounter := .ofNat 32 w.tasks.queue.state.preemptCounter
  console := w.console
  pic := w.pic
  controller := w.controller

/-- The tasks, with what a handler leaves. -/
def after (k : Kernel) (d : DataSegments) (t : Tasking ι μ)
    (h : t.queue.state.preemptCounter < 2 ^ 32) :
    Computer ι μ where
  tasks := t
  counter := h
  segments := d
  depth := k.depth
  console := k.console
  pic := k.pic
  controller := k.controller

/-- The current task runs with interrupts enabled. -/
def Enabled (w : Computer ι μ) : Prop :=
  w.tasks.mode = .running ∧ w.tasks.processor.cpu.interruptFlag = true

/-- The next interrupt finds its frame on the kernel stack of the task, and flat segments. -/
structure Ready (tssAddr : Nat) (w : Computer ι μ) : Prop where
  fits : w.tasks.Fits
  flat : w.Enabled → w.segments.Flat (initGdt tssAddr gdtArr) (w.tasks.processor.cpu.cs &&& 3).toNat

/-- Code of a task or of the scheduler. -/
inductive TaskStep (image : Image) (s : Tasking ι μ) : Tasking ι μ → Prop
  | work {m : Processor} {st : State ι μ} : s.Works m → st.scheduling = s.queue.state.scheduling →
      st.currentTask = s.queue.state.currentTask → TaskStep image s (s.work m st)
  | create {t : ι} {stack : Nat} {main cr3 : Word} : s.mode ≠ .switching →
      (s.mode = .running → ¬ s.processor.cpu.User) → t ∉ s.queue.linked → s.tops t = [] →
      s.Fresh stack →
      TaskStep image s (s.create image t stack main cr3)
  | yield {s' : Tasking ι μ} : Tasking.Yields image s s' → TaskStep image s s'
  | start : s.mode = .boot → TaskStep image s s.enter
  | enter {s' : Tasking ι μ} : Tasking.Enters s s' → TaskStep image s s'
  | finish {s' : Tasking ι μ} : Tasking.Ends s s' → TaskStep image s s'

/-- The handler's own stack and data are no task's. -/
def Spares (s : Tasking ι μ) (f n : Processor) : Prop :=
  ∀ t ∈ s.queue.linked, t ≠ s.current → ∀ x, s.OnStack t x → n.mem x = f.mem x

inductive Step (image : Image) (isr : Nat → Word) (tssAddr : Nat) (w : Computer ι μ) :
    Event → Computer ι μ → Prop
  | work {t : Tasking ι μ} (h : t.queue.state.preemptCounter < 2 ^ 32) (d : DataSegments) :
      TaskStep image w.tasks t →
      Step image isr tssAddr w .work { w with tasks := t, counter := h, segments := d }
  | prints {c : Call} {tty : Tty} : w.tasks.processor.cpu.interruptFlag = false →
      w.console.tty.call c = .ok tty →
      Step image isr tssAddr w (.prints c) { w with console := { w.console with tty := tty } }
  | arrives {b : BitVec 8} : w.controller.full = false →
      Step image isr tssAddr w (.arrives b) { w with controller := ⟨b, true⟩, pic := w.pic.raise 1 }
  | raises {n : Fin 16} : n ≠ 1 →
      Step image isr tssAddr w (.raises n) { w with pic := w.pic.raise n }
  | returns {v : BitVec 8} {pic : Pic} {f n : Processor} {k : Kernel} : w.Enabled →
      w.pic.acknowledge = some (v, pic) →
      handle picTable isr tssAddr (.external v.toNat) w.tasks.processor w.segments
        { w.kernel with pic := pic } = .ok (f, .returns k) →
      Ran f n (Processor.frameSize w.tasks.processor.cpu) → Spares w.tasks f n →
      Step image isr tssAddr w (.interrupts v)
        (after k w.segments (w.tasks.work (interruptReturn n) w.tasks.queue.state) w.counter)
  -- `timeslice_passed` goes on to `pick_next_task`
  | switches {v : BitVec 8} {pic : Pic} {f : Processor} {k : Kernel} : w.Enabled →
      w.pic.acknowledge = some (v, pic) →
      handle picTable isr tssAddr (.external v.toNat) w.tasks.processor w.segments
        { w.kernel with pic := pic } = .ok (f, .switches k) →
      Step image isr tssAddr w (.interrupts v) (after k w.segments (w.tasks.leave f) w.counter)

/-- Runs in which the next interrupt always finds its frame on the kernel stack of the task, and
flat segments. -/
inductive Run (image : Image) (isr : Nat → Word) (tssAddr : Nat) :
    List Event → Computer ι μ → Computer ι μ → Prop
  | nil {w : Computer ι μ} : Run image isr tssAddr [] w w
  | cons {e : Event} {l : List Event} {w w₁ w' : Computer ι μ} :
      w.Ready tssAddr → Step image isr tssAddr w e w₁ → Run image isr tssAddr l w₁ w' →
      Run image isr tssAddr (e :: l) w w'

/-! ## One step -/

section Step

variable {image : Image} {isr : Nat → Word} {tssAddr : Nat} {w w' : Computer ι μ}
  {s : Tasking ι μ} {e : Event}
  {stuck : Bool} {d : Desk}

omit [DecidableEq ι] [DecidableEq μ] in
/-- A task is interrupted on its kernel stack. -/
theorem interrupted_onStack (h : s.Sound) (hfits : s.Fits) (hm : s.mode = .running) :
    s.stack s.current + Processor.frameSize s.processor.cpu ≤ s.processor.interruptTop.toNat ∧
      s.processor.interruptTop.toNat ≤ s.stack s.current + 8192 := by
  rw [Processor.frameSize, Processor.interruptTop]
  by_cases hu : s.processor.cpu.User
  · rw [if_pos hu, if_pos hu]
    exact hfits hm hu
  · rw [if_neg hu, if_neg hu]
    obtain ⟨-, habove, hbelow⟩ := (h.inKernel hm hu).1
    rw [Tasking.reserve] at habove
    exact ⟨by omega, hbelow⟩

omit [DecidableEq ι] [DecidableEq μ] in
theorem interruptible (h : w.tasks.Sound) (hready : w.Ready tssAddr) (henabled : w.Enabled) :
    Interruptible tssAddr w.tasks.processor w.segments := by
  have hm := henabled.1
  obtain ⟨habove, hbelow⟩ := interrupted_onStack h hready.fits hm
  have hbound := h.bounded w.tasks.current h.current_mem
  rw [Tasking.kmemTop] at hbound
  refine ⟨?_, hready.flat henabled, by omega, by omega⟩
  by_cases hu : w.tasks.processor.cpu.User
  · exact Or.inl hu
  · refine Or.inr ?_
    rw [(h.inKernel hm hu).1.cs]
    rfl

/-- The frame that the scheduler knows. -/
theorem called_timer (m : Processor) :
    called isr (.external 32) m = m.interruptFrame (isr 32) 32 := by
  have hresume : resumeAt (.external 32) m = m := rfl
  have hvector : (Cause.external 32).vector = 32 := rfl
  have hpushes (m : Processor) : m.pushes ((Cause.external 32).error.toList.map (BitVec.ofNat 32)) =
      m := rfl
  rw [called, hresume, hvector, hpushes, entry, if_neg (by decide), Processor.interruptFrame]
  rfl

omit [DecidableEq ι] [DecidableEq μ] in
/-- A handler that comes back is work of the task that it interrupts. -/
theorem works_of_returns {f n : Processor} (h : s.Sound) (hfits : s.Fits) (hm : s.mode = .running)
    (hmem : ∀ x, x < s.processor.interruptTop.toNat - Processor.frameSize s.processor.cpu ∨
      s.processor.interruptTop.toNat ≤ x → f.mem x = s.processor.mem x) (hspares : Spares s f n) :
    s.Works { s.processor with mem := n.mem } := by
  obtain ⟨habove, hbelow⟩ := interrupted_onStack h hfits hm
  refine ⟨rfl, fun t ht x hx hscratch => ?_, fun _ hu => hu, fun _ hu => ?_⟩
  · have hne : t ≠ s.current := fun he => hscratch (Or.inl ⟨hm, he.symm⟩)
    have hapart := h.apart t ht s.current h.current_mem hne
    obtain ⟨hlo, hhi⟩ := hx
    exact (hspares t ht hne x ⟨hlo, hhi⟩).trans (hmem x (by omega))
  · obtain ⟨hcs, hstack, htop⟩ := (h.inKernel hm hu).1
    exact ⟨hcs, hstack, htop⟩

theorem TaskStep.step {t : Tasking ι μ} (hs : TaskStep image s t) : Tasking.Step image s t := by
  cases hs with
  | work hw hring hcurrent => exact .work hw hring hcurrent
  | create hm hu ht hnil hf => exact .create hm hu ht hnil hf
  | yield hy => exact .yield hy
  | start hm => exact .start hm
  | enter he => exact .enter he
  | finish he => exact .finish he

omit [DecidableEq ι] [DecidableEq μ] in
/-- The drivers do not depend on the tasks. -/
theorem atDesk_after {k : Kernel} (hd : AtDesk stuck d k) (segs : DataSegments) (t : Tasking ι μ)
    (h : t.queue.state.preemptCounter < 2 ^ 32) : AtDesk stuck d (after k segs t h).kernel :=
  ⟨hd.depth, hd.ready, hd.after, hd.byte, hd.line, hd.full, hd.dead⟩

omit [DecidableEq ι] [DecidableEq μ] in
/-- What an interrupt does: a timer interrupt is a tick of the scheduler if tasks may be switched,
and any other goes on with the task that it interrupted. -/
theorem interrupted {v : BitVec 8} {pic : Pic} (isr : Nat → Word) (htss : tssAddr < 2 ^ 32)
    (h : w.tasks.Sound)
    (hready : w.Ready tssAddr) (hd : AtDesk stuck d w.kernel) (henabled : w.Enabled)
    (hack : w.pic.acknowledge = some (v, pic)) :
    ∃ f e, handle picTable isr tssAddr (.external v.toNat) w.tasks.processor w.segments
        { w.kernel with pic := pic } = .ok (f, e) ∧
      AtDesk stuck (d.next (.interrupts v)) e.kernel ∧ Takes d v w.kernel e.kernel ∧
      (e.Switches ↔ v = 32 ∧ w.tasks.queue.state.preemptCounter = 0) ∧
      (e.Switches → f = w.tasks.processor.interruptFrame (isr 32) 32) ∧
      ∀ n, Ran f n (Processor.frameSize w.tasks.processor.cpu) → Spares w.tasks f n →
        interruptReturn n = { w.tasks.processor with mem := n.mem } ∧
        w.tasks.Works (interruptReturn n) := by
  obtain ⟨hlo, hhi, e, hhandler, hatDesk, htakes, hswitches⟩ := hd.handler hack
  have hm := interruptible h hready henabled
  obtain ⟨hhandle, hmem, hresumes⟩ := handle_external isr htss hm hlo hhi hhandler
  have hcounter : w.kernel.preemptCounter = 0 ↔ w.tasks.queue.state.preemptCounter = 0 := by
    have hcounter := BitVec.toNat_ofNat (w := 32) (x := w.tasks.queue.state.preemptCounter)
    rw [Nat.mod_eq_of_lt w.counter] at hcounter
    rw [← hcounter]
    exact ⟨fun h => congrArg BitVec.toNat h, fun h => BitVec.eq_of_toNat_eq h⟩
  refine ⟨_, e, hhandle, hatDesk, htakes, ?_, fun hswitch => ?_, fun n hran hspares => ?_⟩
  · rw [hswitches, hcounter]
    exact ⟨fun hall => ⟨hall.1, hall.2.2⟩, fun hboth => ⟨hboth.1, rfl, hboth.2⟩⟩
  · obtain ⟨rfl, -⟩ := hswitches.1 hswitch
    exact called_timer _
  · rw [hresumes n hran]
    exact ⟨rfl, works_of_returns h hready.fits henabled.1 hmem hspares⟩

/-- A step with the devices is a step of the scheduler or none, and one of the drivers. -/
theorem Step.simulates (hisr : image.commonInterruptHandler = isr 32) (htss : tssAddr < 2 ^ 32)
    (h : w.tasks.Sound)
    (hready : w.Ready tssAddr) (hd : AtDesk stuck d w.kernel) (hs : Step image isr tssAddr w e w') :
    ReflGen (Tasking.Step image) w.tasks w'.tasks ∧ AtDesk stuck (d.next e) w'.kernel := by
  cases hs with
  | work hcounter _ hs =>
    exact ⟨.single hs.step, hd.depth, hd.ready, hd.after, hd.byte, hd.line, hd.full, hd.dead⟩
  | prints hflag hcall => exact ⟨.refl, hd.prints hcall⟩
  | arrives hempty => exact ⟨.refl, hd.arrives hempty _⟩
  | raises hn => exact ⟨.refl, hd.raises hn⟩
  | returns henabled hack hhandle hran hspares =>
    obtain ⟨f, e, hhandle', hatDesk, -, -, -, hworks⟩ :=
      interrupted isr htss h hready hd henabled hack
    obtain ⟨rfl, rfl⟩ := Prod.mk.inj (Except.ok.inj (hhandle.symm.trans hhandle'))
    exact ⟨.single (.work (hworks _ hran hspares).2 rfl rfl), atDesk_after hatDesk _ _ _⟩
  | switches henabled hack hhandle =>
    obtain ⟨f, e, hhandle', hatDesk, -, hswitches, hframe, -⟩ :=
      interrupted isr htss h hready hd henabled hack
    obtain ⟨rfl, rfl⟩ := Prod.mk.inj (Except.ok.inj (hhandle.symm.trans hhandle'))
    have hcounter := (hswitches.1 trivial).2
    have htick : Tasking.Step image w.tasks (w.tasks.tick image) :=
      .tick henabled.1 henabled.2 hcounter
    rw [Tasking.tick, hisr, ← hframe trivial] at htick
    exact ⟨.single htick, atDesk_after hatDesk _ _ _⟩

/-- Where an interrupt is asked for and the task has interrupts enabled, the processor takes it. -/
theorem takes {v : BitVec 8} {pic : Pic} (image : Image) (isr : Nat → Word)
    (htss : tssAddr < 2 ^ 32)
    (h : w.tasks.Sound) (hready : w.Ready tssAddr) (hd : AtDesk stuck d w.kernel)
    (henabled : w.Enabled)
    (hack : w.pic.acknowledge = some (v, pic)) :
    ∃ w', Step image isr tssAddr w (.interrupts v) w' := by
  obtain ⟨f, e, hhandle, -⟩ := interrupted isr htss h hready hd henabled hack
  cases e with
  | returns k =>
    exact ⟨_, .returns henabled hack hhandle ⟨rfl, rfl, rfl, fun _ _ _ => rfl⟩ fun _ _ _ _ _ => rfl⟩
  | switches k => exact ⟨_, .switches henabled hack hhandle⟩

end Step

/-! ## Runs -/

section Run

variable {image : Image} {isr : Nat → Word} {tssAddr : Nat} {w w' : Computer ι μ} {idle : ι}
  {l : List Event}
  {stuck : Bool} {d : Desk}

theorem Run.simulates (hisr : image.commonInterruptHandler = isr 32) (htss : tssAddr < 2 ^ 32)
    (h : Tasking.FitReaches image idle w.tasks) (hd : AtDesk stuck d w.kernel)
    (hr : Run image isr tssAddr l w w') :
    Tasking.FitReaches image idle w'.tasks ∧ AtDesk stuck (l.foldl Desk.next d) w'.kernel := by
  induction hr generalizing d with
  | nil => exact ⟨h, hd⟩
  | cons hready hs _ ih =>
    obtain ⟨hstep, hd'⟩ := hs.simulates hisr htss h.sound hready hd
    refine ih ?_ hd'
    rcases (reflGen_iff _ _ _).1 hstep with heq | hstep
    · rw [heq]
      exact h
    · exact h.step ⟨hready.fits, hstep⟩

/-- With the devices, the tasks do what the scheduler does without them, and the drivers are at
their desk. An interrupt that the controllers ask for is taken. It is a tick of the scheduler if it
is the timer's and tasks may be switched, and else the task that it interrupts goes on as it was. -/
theorem devices_and_tasks (hisr : image.commonInterruptHandler = isr 32) (htss : tssAddr < 2 ^ 32)
    (h : Tasking.Start image idle w.tasks) (hd : AtDesk stuck d w.kernel)
    (hr : Run image isr tssAddr l w w') :
    Tasking.FitReaches image idle w'.tasks ∧ AtDesk stuck (l.foldl Desk.next d) w'.kernel ∧
      (w'.Ready tssAddr → w'.Enabled →
        (timerLine w'.pic = true ∨ (l.foldl Desk.next d).waiting.isSome = true →
          ∃ v w'', Step image isr tssAddr w' (.interrupts v) w'') ∧
        ∀ v w'', Step image isr tssAddr w' (.interrupts v) w'' →
          if v = 32 ∧ w'.tasks.queue.state.preemptCounter = 0 then w''.tasks = w'.tasks.tick image
          else ∃ mem, w''.tasks =
            w'.tasks.work { w'.tasks.processor with mem := mem } w'.tasks.queue.state) := by
  obtain ⟨hreaches, hd'⟩ := hr.simulates hisr htss ⟨_, h, .refl⟩ hd
  have hsound := hreaches.sound
  refine ⟨hreaches, hd', fun hready henabled => ⟨fun hline => ?_, fun v w'' hs => ?_⟩⟩
  · have hraised : ∃ i : Fin 8, i.val < 2 ∧ w'.pic.master.irr.getLsbD i = true := by
      rcases hline with htimer | hwaiting
      · exact ⟨0, by decide, htimer⟩
      · exact ⟨1, by decide, hd'.line.trans hwaiting⟩
    obtain ⟨i, hi, hirr⟩ := hraised
    obtain ⟨v, pic, hack⟩ := hd'.asks hi hirr
    obtain ⟨w'', hs⟩ := takes image isr htss hsound hready hd' henabled hack
    exact ⟨v, w'', hs⟩
  · cases hs with
    | returns _ hack hhandle hran hspares =>
      obtain ⟨f, e, hhandle', -, -, hswitches, -, hworks⟩ :=
        interrupted isr htss hsound hready hd' henabled hack
      obtain ⟨rfl, rfl⟩ := Prod.mk.inj (Except.ok.inj (hhandle.symm.trans hhandle'))
      rw [if_neg fun hboth => hswitches.2 hboth]
      exact ⟨_, congrArg (fun m => w'.tasks.work m w'.tasks.queue.state) (hworks _ hran hspares).1⟩
    | switches _ hack hhandle =>
      obtain ⟨f, e, hhandle', -, -, hswitches, hframe, -⟩ :=
        interrupted isr htss hsound hready hd' henabled hack
      obtain ⟨rfl, rfl⟩ := Prod.mk.inj (Except.ok.inj (hhandle.symm.trans hhandle'))
      rw [if_pos (hswitches.1 trivial), Tasking.tick, hisr, ← hframe trivial]
      rfl

/-- The timer interrupts the idle task when it has enabled interrupts. -/
theorem devices_and_tasks_idle : ∃ (w w' w'' : Computer Nat Unit),
    Run Tasking.imageZero (fun _ => 0) 0 [.work, .work, .raises 0] w w' ∧
      Step Tasking.imageZero (fun _ => 0) 0 w' (.interrupts 32) w'' ∧
      w''.tasks = w'.tasks.tick Tasking.imageZero := by
  obtain ⟨k, -, hd, -⟩ := boot_eq (k := someKernel) (by decide)
  have hstart : Tasking.Start Tasking.imageZero 0 (Tasking.idleAlone 0) :=
    Tasking.idleAlone_start (by rw [Tasking.kmemTop]; omega)
  obtain ⟨cr3, hrests⟩ := hstart.rests
  have hbound := hstart.sound.bounded 0 (List.mem_singleton.2 rfl)
  obtain ⟨hkernel, hin, -⟩ := Tasking.Rests.enter_inKernel (s := Tasking.idleAlone 0) hrests hbound
    (Processor.not_user_of_cs rfl)
  have hcounter : (Tasking.idleAlone 0).queue.state.preemptCounter < 2 ^ 32 := by decide
  -- `sti`
  let c : Cpu := { created 0 0 with eflags := 0x200 }
  have hc : ¬ c.User := by decide
  have hset : c.interruptFlag = true := by decide
  have hworks :
      (Tasking.idleAlone 0).enter.Works { (Tasking.idleAlone 0).enter.processor with cpu := c } :=
    ⟨rfl, fun _ _ _ _ _ => rfl, fun _ hu => absurd hu hkernel, fun _ _ =>
      ⟨rfl, hin.above, hin.below⟩⟩
  let t : Tasking Nat Unit := (Tasking.idleAlone 0).enter.work
    { (Tasking.idleAlone 0).enter.processor with cpu := c } (Tasking.idleAlone 0).queue.state
  let w : Computer Nat Unit := after k userSegments (Tasking.idleAlone 0) hcounter
  let w₁ : Computer Nat Unit := after k userSegments (Tasking.idleAlone 0).enter hcounter
  let w₂ : Computer Nat Unit := after k userSegments t hcounter
  have hstarts : Step Tasking.imageZero (fun _ => 0) 0 w .work w₁ :=
    .work (t := (Tasking.idleAlone 0).enter) hcounter userSegments (.start rfl)
  have hsti : Step Tasking.imageZero (fun _ => 0) 0 w₁ .work w₂ :=
    .work (t := t) hcounter userSegments (.work hworks rfl rfl)
  have hraises : Step Tasking.imageZero (fun _ => 0) 0 w₂ (.raises 0)
      { w₂ with pic := w₂.pic.raise 0 } :=
    .raises (by decide)
  have hflat (cs : Word) (h : (cs &&& 3).toNat ≤ 3) :
      userSegments.Flat (initGdt 0 gdtArr) (cs &&& 3).toNat := by
    have h3 : userSegments.Flat (initGdt 0 gdtArr) 3 := by decide
    exact ⟨h3.1.mono h, h3.2.mono h⟩
  have hlow (cs : Word) : (cs &&& 3).toNat ≤ 3 := by
    rw [BitVec.toNat_and]
    exact Nat.and_le_right
  have hrun := Run.cons ⟨fun hm => (by cases hm), fun _ => hflat _ (hlow _)⟩ hstarts
    (.cons ⟨fun _ hu => absurd hu hkernel, fun _ => hflat _ (hlow _)⟩ hsti
      (.cons ⟨fun _ hu => absurd hu hc, fun _ => hflat _ (hlow _)⟩ hraises .nil))
  have hline : timerLine (w₂.pic.raise 0) = true := (w₂.pic.raise_irr 0 0).trans (Bool.or_true _)
  obtain ⟨-, hd', hall⟩ :=
    devices_and_tasks (w := w) rfl (by decide) hstart (atDesk_after hd _ _ hcounter) hrun
  have henabled :
      (Computer.mk t hcounter userSegments k.depth k.console (w₂.pic.raise 0)
      k.controller).Enabled :=
    ⟨rfl, hset⟩
  obtain ⟨htakes, hticks⟩ := hall ⟨fun _ hu => absurd hu hc, fun _ => hflat _ (hlow _)⟩ henabled
  obtain ⟨v, w'', hs⟩ := htakes (.inl hline)
  -- no scan code waits
  have hv : v = 32 := by
    cases hs with
    | returns _ hack | switches _ hack =>
      obtain ⟨-, -, e, -, -, ⟨hv, -⟩ | ⟨-, hwaiting, -⟩, -⟩ := hd'.handler hack
      · exact hv
      · cases hwaiting
  subst hv
  have htick := hticks 32 w'' hs
  rw [if_pos ⟨rfl, rfl⟩] at htick
  exact ⟨w, _, w'', hrun, hs, htick⟩

end Run

end Computer

end TinyLittleOs.Interrupts
