import TinyLittleOs.Interrupts.Entry
import TinyLittleOs.Interrupts.Handlers

/-!
# Runs with interrupts

The processor runs any code, devices raise their lines at any time, and the processor takes what the
controllers ask for whenever interrupts are enabled. The keyboard is what a `Desk` is: each scan
code is read once and in order, and the screen has what was printed and typed.

`tty::put` has no lock. Here it is called with interrupts disabled, or by the handler of the
keyboard.
-/

namespace TinyLittleOs.Interrupts

open Lib Scheduler Devices

/-! ## From a cause to the end of its handler -/

/-- `interrupt_number` and `error_code` of `interrupt_args`. -/
def argsNumber (m : Processor) : Nat := m.mem.load32 (m.esp.toNat + 32)

def argsError (m : Processor) : Nat := m.mem.load32 (m.esp.toNat + 36)

inductive Stop where
  | fault (f : GateFault)
  /-- The handler faults at its first access, and so does the handler of that exception. -/
  | segments
  | panic (p : Panic)

/-- The processor delivers a cause, and `internal_interrupt_handler` runs with what is on the
stack. -/
def handle (t : HandlerTable) (isr : Nat → Word) (tssAddr : Nat) (c : Cause) (m : Processor)
    (d : DataSegments)
    (k : Kernel) : Except Stop (Processor × Ended) := do
  let (c, m) ← (interrupt (kernelTables isr tssAddr) c m).mapError .fault
  let m := entry c.vector m
  if ¬ d.Flat (kernelTables isr tssAddr).gdt 0 then .error .segments
  else do
    let e ← (internalInterruptHandler t (argsNumber m) (argsError m) k).mapError .panic
    .ok (m, e)

/-- There is a stack for an interrupt, and the handler can work with the segments of the program. -/
structure Interruptible (tssAddr : Nat) (m : Processor) (d : DataSegments) : Prop where
  ring : InRing m
  flat : d.Flat (initGdt tssAddr gdtArr) (m.cpu.cs &&& 3).toNat
  room : Processor.frameSize m.cpu ≤ m.interruptTop.toNat
  top : m.interruptTop.toNat + 8 < 2 ^ 32

/-- What is delivered for a cause. -/
def delivered (c : Cause) (m : Processor) : Cause :=
  if c.vector = 128 ∨ c.vector < 48 ∧ ¬ (c.isSoftware ∧ m.cpu.User) then c
  else .exception 13 (some (c.vector * 8 + 2 + c.ext))

/-- The processor when `internal_interrupt_handler` is called for what is delivered. -/
def called (isr : Nat → Word) (c : Cause) (m : Processor) : Processor :=
  entry c.vector
    (((resumeAt c m).enterInterrupt (isr c.vector)).pushes (c.error.toList.map (BitVec.ofNat 32)))

section Handle

variable {isr : Nat → Word} {tssAddr : Nat} {c : Cause} {m : Processor}
  {d : DataSegments} {k : Kernel}

theorem args_eq {v e : Nat} (hv : v < 2 ^ 32) (he : e < 2 ^ 32) {cpu : Cpu} {esp : Word}
    (h : m.mem.Words m.esp.toNat (frame (BitVec.ofNat 32 v) (BitVec.ofNat 32 e) cpu esp)) :
    argsNumber m = v ∧ argsError m = e := by
  have hload (a n : Nat) (hn : n < 2 ^ 32)
      (hword : BitVec.ofNat 32 (m.mem.load32 a) = BitVec.ofNat 32 n) :
      m.mem.load32 a = n := by
    have htoNat := congrArg BitVec.toNat hword
    rwa [BitVec.toNat_ofNat, BitVec.toNat_ofNat, Nat.mod_eq_of_lt hn,
      Nat.mod_eq_of_lt (ByteMem.load32_lt _ _)]
      at htoNat
  exact ⟨hload _ _ hv h.2.2.2.2.2.2.2.2.1, hload _ _ he h.2.2.2.2.2.2.2.2.2.1⟩

theorem delivered_lt (hvector : c.vector < 256) (herror : ∀ e ∈ c.error, e < 2 ^ 32) :
    (delivered c m).vector < 2 ^ 32 ∧ (delivered c m).error.getD 0 < 2 ^ 32 := by
  have hext : c.ext ≤ 1 := by
    cases c <;> simp [Cause.ext]
  rw [delivered]
  split_ifs
  · refine ⟨by omega, ?_⟩
    cases herr : c.error with
    | none => decide
    | some e => exact herror e herr
  · refine ⟨show 13 < 2 ^ 32 by decide, show c.vector * 8 + 2 + c.ext < 2 ^ 32 by omega⟩

/-- The handler has the state of the program, with the number and the error code of what is
delivered, and the program goes on in that state when the handler comes back. -/
theorem handle_eq (isr : Nat → Word) (htss : tssAddr < 2 ^ 32) (hm : Interruptible tssAddr m d)
    (harises : Arises m c)
    (hvector : c.vector < 256) (herror : ∀ e ∈ c.error, e < 2 ^ 32) :
    handle picTable isr tssAddr c m d k = ((internalInterruptHandler picTable (delivered c m).vector
      ((delivered c m).error.getD 0) k).mapError Stop.panic).map
      (fun e => (called isr (delivered c m) m, e)) ∧
    (∀ x, x < m.interruptTop.toNat - Processor.frameSize m.cpu ∨ m.interruptTop.toNat ≤ x →
      (called isr (delivered c m) m).mem x = m.mem x) ∧
    ∀ n, Ran (called isr (delivered c m) m) n (Processor.frameSize m.cpu) →
      interruptReturn n = { resumeAt (delivered c m) m with mem := n.mem } := by
  obtain ⟨c', m₁, hinterrupt, hc, hm₁, henters⟩ :=
    interrupt_enters isr htss hm.ring harises hm.room hm.top
  have hc' : c' = delivered c m := hc
  rw [hc'] at hinterrupt hm₁ henters
  have hcalled : entry (delivered c m).vector m₁ = called isr (delivered c m) m := by
    rw [hm₁, called]
  have hsame : (resumeAt (delivered c m) m).mem = m.mem ∧
      (resumeAt (delivered c m) m).interruptTop = m.interruptTop ∧
      Processor.frameSize (resumeAt (delivered c m) m).cpu = Processor.frameSize m.cpu := by
    rw [resumeAt]
    split <;> exact ⟨rfl, rfl, rfl⟩
  have hargs := henters.args
  have hmem := henters.mem
  have hresumes := henters.resumes
  rw [hsame.1, hsame.2.1, hsame.2.2] at hmem
  rw [hsame.2.2] at hresumes
  rw [hcalled] at hargs hmem hresumes
  obtain ⟨hv, he⟩ := delivered_lt (m := m) hvector herror
  obtain ⟨hnumber, hcode⟩ := args_eq hv he hargs
  refine ⟨?_, hmem, hresumes⟩
  have hflat : d.Flat (kernelTables isr tssAddr).gdt 0 :=
    ⟨hm.flat.1.mono (Nat.zero_le _), hm.flat.2.mono (Nat.zero_le _)⟩
  rw [handle, hinterrupt, Except.mapError, ok_bind]
  dsimp only
  rw [if_neg (not_not_intro hflat), hcalled, hnumber, hcode]
  cases internalInterruptHandler picTable (delivered c m).vector
    ((delivered c m).error.getD 0) k <;> rfl

/-- An interrupt of the controllers, when its handler ends. -/
theorem handle_external (isr : Nat → Word) (htss : tssAddr < 2 ^ 32)
    (hm : Interruptible tssAddr m d) {v : Nat} (hlo : 32 ≤ v)
    (hhi : v < 48) {e : Ended} (h : internalInterruptHandler picTable v 0 k = .ok e) :
    handle picTable isr tssAddr (.external v) m d k = .ok (called isr (.external v) m, e) ∧
    (∀ x, x < m.interruptTop.toNat - Processor.frameSize m.cpu ∨ m.interruptTop.toNat ≤ x →
      (called isr (.external v) m).mem x = m.mem x) ∧
    ∀ n, Ran (called isr (.external v) m) n (Processor.frameSize m.cpu) →
      interruptReturn n = { m with mem := n.mem } := by
  have hdelivered : delivered (.external v) m = .external v := by
    rw [delivered, if_pos]
    exact Or.inr ⟨hhi, fun hs => by cases hs.1⟩
  obtain ⟨hhandle, hmem, hresumes⟩ := handle_eq (c := .external v) (k := k) isr htss hm hlo
    (show v < 256 by omega) (fun e he => by cases he)
  have hhandler : internalInterruptHandler picTable (Cause.external v).vector
      ((Cause.external v).error.getD 0) k =
    .ok e := h
  rw [hdelivered] at hhandle hmem hresumes
  rw [hhandler] at hhandle
  exact ⟨hhandle, hmem, hresumes⟩

end Handle

/-! ## The system -/

/-- The processor, and what the handlers work on. -/
structure System where
  processor : Processor
  segments : DataSegments
  kernel : Kernel

inductive Event where
  /-- The processor runs code that is no handler. -/
  | work
  /-- A task calls the driver of the screen. -/
  | prints (c : Call)
  /-- The keyboard has a scan code for the controller. -/
  | arrives (scanCode : BitVec 8)
  /-- Another device raises its line. -/
  | raises (n : Fin 16)
  /-- The processor takes an interrupt. -/
  | interrupts (v : BitVec 8)

inductive Step (t : HandlerTable) (isr : Nat → Word) (tssAddr : Nat) :
    Event → System → System → Prop
  -- any code that leaves flat segments behind where it can be interrupted
  | work {s : System} {m : Processor} {d : DataSegments} (scheduling : Bool)
      (preemptCounter : BitVec 32) :
      (m.cpu.interruptFlag = true → Interruptible tssAddr m d) →
      Step t isr tssAddr .work s
        ⟨m, d, { s.kernel with scheduling := scheduling, preemptCounter := preemptCounter }⟩
  | prints {s : System} {c : Call} {tty : Tty} : s.processor.cpu.interruptFlag = false →
      s.kernel.console.tty.call c = .ok tty →
      Step t isr tssAddr (.prints c) s
        { s with kernel := { s.kernel with console := { s.kernel.console with tty := tty } } }
  | arrives {s : System} {b : BitVec 8} : s.kernel.controller.full = false →
      Step t isr tssAddr (.arrives b) s
        { s with kernel := { s.kernel with controller := ⟨b, true⟩, pic := s.kernel.pic.raise 1 } }
  | raises {s : System} {n : Fin 16} : n ≠ 1 →
      Step t isr tssAddr (.raises n) s
        { s with kernel := { s.kernel with pic := s.kernel.pic.raise n } }
  -- the handler comes back, having worked on the stack below its arguments
  | returns {s : System} {v : BitVec 8} {pic : Pic} {f n : Processor} {k : Kernel} :
      s.processor.cpu.interruptFlag = true → s.kernel.pic.acknowledge = some (v, pic) →
      handle t isr tssAddr (.external v.toNat) s.processor s.segments { s.kernel with pic := pic } =
        .ok (f, .returns k) →
      Ran f n (Processor.frameSize s.processor.cpu) →
      Step t isr tssAddr (.interrupts v) s ⟨interruptReturn n, s.segments, k⟩
  -- the handler enters a task
  | switches {s : System} {v : BitVec 8} {pic : Pic} {f m : Processor} {d : DataSegments}
      {k : Kernel} :
      s.processor.cpu.interruptFlag = true → s.kernel.pic.acknowledge = some (v, pic) →
      handle t isr tssAddr (.external v.toNat) s.processor s.segments { s.kernel with pic := pic } =
        .ok (f, .switches k) →
      (m.cpu.interruptFlag = true → Interruptible tssAddr m d) →
      Step t isr tssAddr (.interrupts v) s ⟨m, d, k⟩

inductive Run (t : HandlerTable) (isr : Nat → Word) (tssAddr : Nat) :
    List Event → System → System → Prop
  | nil {s : System} : Run t isr tssAddr [] s s
  | cons {e : Event} {l : List Event} {s s₁ s' : System} :
      Step t isr tssAddr e s s₁ → Run t isr tssAddr l s₁ s' → Run t isr tssAddr (e :: l) s s'

/-- `tty::initialize`, `interrupts::initialize` and `init_pic`, as `kmain` calls them. -/
def boot (k : Kernel) : Except Panic (HandlerTable × Kernel) := do
  let tty ← k.console.tty.initializeTty.mapError .screen
  initPic (fun _ => none) { k with depth := 0, console := { k.console with tty := tty } }

/-! ## What the keyboard and the screen are for -/

structure Desk where
  /-- The scan codes that were read. -/
  past : List (BitVec 8)
  /-- The scan code that is next. -/
  waiting : Option (BitVec 8)
  terminal : Terminal

/-- A scan code is read: its character is typed. -/
def Desk.read (d : Desk) : Desk :=
  match d.waiting with
  | none => d
  | some b => ⟨d.past ++ [b], none, (typed d.past b).toList.foldl (fun t c => t.put c) d.terminal⟩

def Desk.next (d : Desk) : Event → Desk
  | .prints c => { d with terminal := d.terminal.call c }
  | .arrives b => { d with waiting := some b }
  | .interrupts v => if v = 33 then d.read else d
  | _ => d

/-- The scan codes that arrived. -/
def arrived (l : List Event) : List (BitVec 8) :=
  l.filterMap fun
    | .arrives b => some b
    | _ => none

/-- The timer has raised its line. -/
def timerLine (p : Pic) : Bool := p.master.irr.getLsbD 0

/-- No interrupt is in service, and the drivers are at `d`. The keyboard is stuck with a scan code
from before the start, for which no line is raised. -/
structure AtDesk (stuck : Bool) (d : Desk) (k : Kernel) : Prop where
  depth : k.depth = 0
  ready : PicReady k.pic
  after : k.console.After d.past d.terminal
  byte : ∀ b, d.waiting = some b → k.controller.byte = b
  line : k.pic.master.irr.getLsbD (1 : Fin 8) = d.waiting.isSome
  full : k.controller.full = (stuck || d.waiting.isSome)
  dead : stuck = true → d.past = [] ∧ d.waiting = none

/-- What holds between any two instructions. -/
structure Serves (tssAddr : Nat) (stuck : Bool) (d : Desk) (s : System) : Prop where
  interruptible : s.processor.cpu.interruptFlag = true →
    Interruptible tssAddr s.processor s.segments
  atDesk : AtDesk stuck d s.kernel

/-- The interrupt has been raised: the timer's line is no longer, or a scan code was waiting. -/
def Takes (d : Desk) (v : BitVec 8) (k k' : Kernel) : Prop :=
  v = 32 ∧ timerLine k.pic = true ∧ timerLine k'.pic = false ∨
    v = 33 ∧ d.waiting.isSome ∧ timerLine k'.pic = timerLine k.pic

section AtDesk

variable {stuck : Bool} {d : Desk} {k : Kernel} {v : BitVec 8} {pic : Pic}

section Handler

variable {i : Fin 8} (h : AtDesk stuck d k) (hready : PicReady (pic.out 0x20 0x20))
  (hraised : k.pic.master.irr.getLsbD i = true)
  (hirr : ∀ j : Fin 8, j ≠ 2 →
    (pic.out 0x20 0x20).master.irr.getLsbD j = (k.pic.master.irr.getLsbD j && !decide (j = i)))
include h hready hraised hirr

/-- The handler of the timer leaves the drivers alone. -/
theorem AtDesk.timer (hi : i = 0) :
    ∃ e, internalInterruptHandler picTable 32 0 { k with pic := pic } = .ok e ∧
    AtDesk stuck d e.kernel ∧ timerLine k.pic = true ∧ timerLine e.kernel.pic = false ∧
    (e.Switches ↔ k.scheduling = true ∧ k.preemptCounter = 0) := by
  subst hi
  have hdepth : ({ k with pic := pic } : Kernel).depth = 0 := h.depth
  have hline := hirr 1 (by decide)
  rw [decide_eq_false (by decide), Bool.not_false, Bool.and_true] at hline
  have hafter : AtDesk stuck d ({ k with pic := pic }.outb 0x20 0x20) :=
    ⟨h.depth, hready, h.after, h.byte, hline.trans h.line, h.full, h.dead⟩
  have hcleared : timerLine (pic.out 0x20 0x20) = false := by
    refine (hirr 0 (by decide)).trans ?_
    rw [decide_eq_true rfl, Bool.not_true, Bool.and_false]
  refine ⟨_, internalInterruptHandler_timer 0 (by rw [hdepth]), ?_, hraised, ?_, ?_⟩
  · split_ifs <;> exact hafter
  · split_ifs <;> exact hcleared
  · split_ifs with hswitch
    · exact ⟨fun _ => ⟨hswitch.1, hswitch.2.1⟩, fun _ => trivial⟩
    · exact ⟨False.elim, fun hall => hswitch ⟨hall.1, hall.2, hdepth⟩⟩

/-- The handler of the keyboard reads the scan code that waits. -/
theorem AtDesk.keyboard (hi : i = 1) :
    ∃ e, internalInterruptHandler picTable 33 0 { k with pic := pic } = .ok e ∧
    AtDesk stuck d.read e.kernel ∧ d.waiting.isSome ∧ timerLine e.kernel.pic = timerLine k.pic ∧
    ¬ e.Switches := by
  subst hi
  have hdepth : ({ k with pic := pic } : Kernel).depth = 0 := h.depth
  obtain ⟨b, hb⟩ := Option.isSome_iff_exists.1 (h.line.symm.trans hraised)
  have hwaiting : d.waiting = some k.controller.byte := by rw [hb, h.byte b hb]
  have hstuck : stuck = false := by
    by_contra hstuck
    rw [(h.dead (Bool.eq_true_of_not_eq_false hstuck)).2] at hb
    cases hb
  have hcleared : (pic.out 0x20 0x20).master.irr.getLsbD (1 : Fin 8) = false := by
    rw [hirr 1 (by decide), decide_eq_true rfl, Bool.not_true, Bool.and_false]
  have hkept : timerLine (pic.out 0x20 0x20) = timerLine k.pic := by
    refine (hirr 0 (by decide)).trans ?_
    rw [decide_eq_false (by decide), Bool.not_false, Bool.and_true]
    rfl
  obtain ⟨console, hkeyboard, hafter⟩ :=
    internalInterruptHandler_keyboard (k := { k with pic := pic }) 0
    (by rw [hdepth]) h.after
  refine ⟨_, hkeyboard, ?_, by rw [hwaiting]; rfl, hkept, id⟩
  rw [Desk.read, hwaiting]
  refine ⟨h.depth, hready, hafter, fun b hb => (by cases hb), hcleared, by rw [hstuck]; rfl,
    fun h => ?_⟩
  rw [hstuck] at h
  cases h

end Handler

/-- What the controllers ask for is the timer or the keyboard. Its handler ends, and then the
interrupt is out of service. -/
theorem AtDesk.handler (h : AtDesk stuck d k) (hack : k.pic.acknowledge = some (v, pic)) :
    32 ≤ v.toNat ∧ v.toNat < 48 ∧
    ∃ e, internalInterruptHandler picTable v.toNat 0 { k with pic := pic } = .ok e ∧
      AtDesk stuck (d.next (.interrupts v)) e.kernel ∧ Takes d v k e.kernel ∧
      (e.Switches ↔ v = 32 ∧ k.scheduling = true ∧ k.preemptCounter = 0) := by
  obtain ⟨i, hi, hv, hraised, hready, hirr⟩ := h.ready.acknowledge hack
  refine ⟨by omega, by omega, ?_⟩
  have hcases : i = 0 ∨ i = 1 := by omega
  rcases hcases with rfl | rfl
  · have heq : v = 32 := BitVec.eq_of_toNat_eq hv
    have hne : ¬ v = 33 := by
      rintro rfl
      cases hv
    obtain ⟨e, he, hdesk, hline, hcleared, hswitch⟩ := h.timer hready hraised hirr rfl
    rw [hv, Desk.next, if_neg hne]
    exact ⟨e, he, hdesk, Or.inl ⟨heq, hline, hcleared⟩, hswitch.trans (by rw [and_iff_right heq])⟩
  · have heq : v = 33 := BitVec.eq_of_toNat_eq hv
    have hne : ¬ v = 32 := by
      rintro rfl
      cases heq
    obtain ⟨e, he, hdesk, hwaiting, hkept, hswitch⟩ := h.keyboard hready hraised hirr rfl
    rw [hv, Desk.next, if_pos heq]
    exact ⟨e, he, hdesk, Or.inr ⟨heq, hwaiting, hkept⟩, iff_of_false hswitch fun h => hne h.1⟩

theorem AtDesk.prints (h : AtDesk stuck d k) {c : Call} {tty : Tty}
    (hcall : k.console.tty.call c = .ok tty) :
    AtDesk stuck (d.next (.prints c)) { k with console := { k.console with tty := tty } } := by
  obtain ⟨tty', hcall', hshows⟩ := h.after.shows.call c
  obtain rfl := Except.ok.inj (hcall.symm.trans hcall')
  exact ⟨h.depth, h.ready, ⟨h.after.follows, hshows⟩, h.byte, h.line, h.full, h.dead⟩

theorem AtDesk.arrives (h : AtDesk stuck d k) (hempty : k.controller.full = false) (b : BitVec 8) :
    AtDesk stuck (d.next (.arrives b))
    { k with controller := ⟨b, true⟩, pic := k.pic.raise 1 } := by
  have hstuck := (Bool.or_eq_false_iff.1 (h.full.symm.trans hempty)).1
  exact ⟨h.depth, h.ready.raise 1, h.after, fun _ => Option.some.inj,
    (k.pic.raise_irr 1 1).trans (Bool.or_true _), (Bool.or_true _).symm,
    fun h => absurd (hstuck.symm.trans h) Bool.false_ne_true⟩

theorem AtDesk.raises (h : AtDesk stuck d k) {n : Fin 16} (hn : n ≠ 1) :
    AtDesk stuck d { k with pic := k.pic.raise n } := by
  have hraise := k.pic.raise_irr n 1
  rw [decide_eq_false (fun hboth => hn (Fin.ext hboth.1.symm)), Bool.or_false] at hraise
  exact ⟨h.depth, h.ready.raise n, h.after, h.byte, hraise.trans h.line, h.full, h.dead⟩

/-- The controllers ask as long as the timer or the keyboard has raised its line. -/
theorem AtDesk.asks (h : AtDesk stuck d k) {i : Fin 8} (hi : i.val < 2)
    (hraised : k.pic.master.irr.getLsbD i = true) :
    ∃ v pic, k.pic.acknowledge = some (v, pic) := by
  refine Pic.acknowledge_of_idle h.ready.icw h.ready.isr ?_ hraised (h.ready.mask.2 hi)
  rw [h.ready.imr]
  rfl

end AtDesk

section Serves

variable {isr : Nat → Word} {tssAddr : Nat} {stuck : Bool} {d : Desk} {s s' : System} {e : Event}
  {v : BitVec 8} {pic : Pic}

/-- The handler of an interrupt ends, and it has left alone what it is not for. -/
theorem Serves.handle (h : Serves tssAddr stuck d s) (isr : Nat → Word) (htss : tssAddr < 2 ^ 32)
    (hflag : s.processor.cpu.interruptFlag = true)
    (hack : s.kernel.pic.acknowledge = some (v, pic)) : ∃ f e,
      Interrupts.handle picTable isr tssAddr (.external v.toNat) s.processor s.segments
      { s.kernel with pic := pic } = .ok (f, e) ∧
      AtDesk stuck (d.next (.interrupts v)) e.kernel ∧ Takes d v s.kernel e.kernel ∧
      ∀ n, Ran f n (Processor.frameSize s.processor.cpu) →
        interruptReturn n = { s.processor with mem := n.mem } := by
  obtain ⟨hlo, hhi, e, hhandler, hatDesk, htakes, -⟩ := h.atDesk.handler hack
  obtain ⟨hhandle, -, hresumes⟩ := handle_external isr htss (h.interruptible hflag) hlo hhi hhandler
  exact ⟨_, e, hhandle, hatDesk, htakes, hresumes⟩

/-- Where an interrupt is asked for and interrupts are enabled, the processor takes it. -/
theorem Serves.takes (h : Serves tssAddr stuck d s) (isr : Nat → Word) (htss : tssAddr < 2 ^ 32)
    (hflag : s.processor.cpu.interruptFlag = true)
    (hack : s.kernel.pic.acknowledge = some (v, pic)) :
    ∃ s', Step picTable isr tssAddr (.interrupts v) s s' := by
  obtain ⟨f, e, hhandle, -⟩ := h.handle isr htss hflag hack
  cases e with
  | returns k => exact ⟨_, .returns hflag hack hhandle ⟨rfl, rfl, rfl, fun x _ _ => rfl⟩⟩
  | switches k => exact ⟨_, .switches hflag hack hhandle h.interruptible⟩

/-- What an interrupt does to the system. -/
theorem Serves.interrupts (h : Serves tssAddr stuck d s) (htss : tssAddr < 2 ^ 32)
    (hs : Step picTable isr tssAddr (.interrupts v) s s') :
    Serves tssAddr stuck (d.next (.interrupts v)) s' ∧ Takes d v s.kernel s'.kernel := by
  cases hs with
  | returns hflag hack hhandle hran =>
    obtain ⟨f, e, hhandle', hatDesk, htakes, hresumes⟩ := h.handle isr htss hflag hack
    have hboth := Except.ok.inj (hhandle.symm.trans hhandle')
    obtain ⟨rfl, rfl⟩ := Prod.mk.inj hboth
    rw [hresumes _ hran]
    have hm := h.interruptible hflag
    exact ⟨⟨fun _ => ⟨hm.ring, hm.flat, hm.room, hm.top⟩, hatDesk⟩, htakes⟩
  | switches hflag hack hhandle hm =>
    obtain ⟨f, e, hhandle', hatDesk, htakes, -⟩ := h.handle isr htss hflag hack
    have hboth := Except.ok.inj (hhandle.symm.trans hhandle')
    obtain ⟨rfl, rfl⟩ := Prod.mk.inj hboth
    exact ⟨⟨hm, hatDesk⟩, htakes⟩

theorem Serves.step (h : Serves tssAddr stuck d s) (htss : tssAddr < 2 ^ 32)
    (hs : Step picTable isr tssAddr e s s') :
    Serves tssAddr stuck (d.next e) s' := by
  cases e with
  | work =>
    cases hs with
    | work scheduling preemptCounter hm =>
      have hd := h.atDesk
      exact ⟨hm, hd.depth, hd.ready, hd.after, hd.byte, hd.line, hd.full, hd.dead⟩
  | prints c =>
    cases hs with
    | prints hflag hcall => exact ⟨h.interruptible, h.atDesk.prints hcall⟩
  | arrives b =>
    cases hs with
    | arrives hempty => exact ⟨h.interruptible, h.atDesk.arrives hempty b⟩
  | raises n =>
    cases hs with
    | raises hn => exact ⟨h.interruptible, h.atDesk.raises hn⟩
  | interrupts v => exact (h.interrupts htss hs).1

theorem Serves.run (h : Serves tssAddr stuck d s) (htss : tssAddr < 2 ^ 32) {l : List Event}
    (hr : Run picTable isr tssAddr l s s') :
    Serves tssAddr stuck (l.foldl Desk.next d) s' := by
  induction hr generalizing d with
  | nil => exact h
  | cons hs _ ih => exact ih (h.step htss hs)

end Serves

/-! ## Nothing is lost and nothing comes twice -/

/-- The interrupts with a vector that were taken. -/
def taken (v : BitVec 8) (l : List Event) : Nat := l.countP fun
  | .interrupts w => w = v
  | _ => false

/-- How often the timer raised its line. -/
def ticks (l : List Event) : Nat := l.countP fun
  | .raises n => n = 0
  | _ => false

section Counts

variable {isr : Nat → Word} {tssAddr : Nat} {stuck : Bool} {d : Desk} {e : Event} {s s' : System}

theorem Serves.step_arrived (h : Serves tssAddr stuck d s) (hs : Step picTable isr tssAddr e s s') :
    (d.next e).past ++ (d.next e).waiting.toList = d.past ++ d.waiting.toList ++
    Interrupts.arrived [e] := by
  cases hs with
  | arrives hempty =>
    have hwaiting : d.waiting = none :=
      Option.not_isSome_iff_eq_none.1
        (Bool.not_eq_true _ ▸ (Bool.or_eq_false_iff.1 (h.atDesk.full.symm.trans hempty)).2)
    simp [Desk.next, Interrupts.arrived, hwaiting]
  | returns | switches =>
    simp only [Desk.next, Desk.read, Interrupts.arrived]
    split_ifs
    · cases hwaiting : d.waiting <;> simp [hwaiting]
    · simp
  | _ => simp [Desk.next, Interrupts.arrived]

/-- The scan codes that were read and the one that waits are those that arrived, in their order. -/
theorem Serves.arrived (h : Serves tssAddr stuck d s) (htss : tssAddr < 2 ^ 32) {l : List Event}
    (hr : Run picTable isr tssAddr l s s') :
    (l.foldl Desk.next d).past ++ (l.foldl Desk.next d).waiting.toList =
      d.past ++ d.waiting.toList ++ Interrupts.arrived l := by
  induction hr generalizing d with
  | nil => simp [Interrupts.arrived]
  | @cons e l s s₁ s' hs _ ih =>
    rw [List.foldl_cons, ih (h.step htss hs), h.step_arrived hs, List.append_assoc]
    congr 1
    exact (List.filterMap_append (l := [e])).symm

theorem timerLine_raise (p : Pic) (n : Fin 16) :
    timerLine (p.raise n) = (timerLine p || decide (n = 0)) := by
  refine (p.raise_irr n 0).trans (congrArg _ (decide_eq_decide.2 ?_))
  exact ⟨fun hboth => Fin.ext hboth.1.symm, fun hn => by rw [hn]; decide⟩

theorem Serves.step_counts (h : Serves tssAddr stuck d s) (htss : tssAddr < 2 ^ 32)
    (hs : Step picTable isr tssAddr e s s') :
    (d.next e).past.length = d.past.length + taken 33 [e] ∧
      taken 32 [e] + (timerLine s'.kernel.pic).toNat ≤ ticks
      [e] + (timerLine s.kernel.pic).toNat := by
  cases e with
  | work | prints c =>
    cases hs
    exact ⟨rfl, Nat.le_refl _⟩
  | arrives b =>
    cases hs
    refine ⟨rfl, ?_⟩
    dsimp only
    rw [timerLine_raise]
    simp [taken, ticks]
  | raises n =>
    cases hs
    refine ⟨rfl, ?_⟩
    dsimp only
    rw [timerLine_raise]
    by_cases hn : n = 0 <;> cases timerLine s.kernel.pic <;> simp [taken, ticks, hn]
  | interrupts v =>
    obtain ⟨-, htakes⟩ := h.interrupts htss hs
    rcases htakes with ⟨rfl, hline, hline'⟩ | ⟨rfl, hwaiting, hline⟩
    · rw [hline, hline']
      exact ⟨rfl, Nat.le_refl _⟩
    · obtain ⟨b, hb⟩ := Option.isSome_iff_exists.1 hwaiting
      rw [hline]
      refine ⟨?_, Nat.le_refl _⟩
      rw [Desk.next, if_pos rfl, Desk.read, hb]
      exact List.length_append

/-- Each interrupt was raised: that of the keyboard reads one scan code, and that of the timer is
for a tick. -/
theorem Serves.counts (h : Serves tssAddr stuck d s) (htss : tssAddr < 2 ^ 32) {l : List Event}
    (hr : Run picTable isr tssAddr l s s') :
    (l.foldl Desk.next d).past.length = d.past.length + taken 33 l ∧
      taken 32 l + (timerLine s'.kernel.pic).toNat ≤ ticks l + (timerLine s.kernel.pic).toNat := by
  induction hr generalizing d with
  | nil => exact ⟨rfl, Nat.le_refl _⟩
  | @cons e l s s₁ s' hs _ ih =>
    obtain ⟨hone, htick⟩ := h.step_counts htss hs
    obtain ⟨hread, hserved⟩ := ih (h.step htss hs)
    have hsplit (v : BitVec 8) : taken v (e :: l) = taken v [e] + taken v l :=
      @List.countP_append _ _ [e] l
    have hticks : ticks (e :: l) = ticks [e] + ticks l := @List.countP_append _ _ [e] l
    rw [List.foldl_cons, hread, hone, hsplit, hsplit, hticks]
    omega

end Counts

/-! ## From the start -/

theorem boot_eq {k : Kernel} (hkeys : k.console.isDown.isZero = true) :
    ∃ k', boot k = .ok (picTable, k') ∧
    AtDesk k.controller.full ⟨[], none, Terminal.initial⟩ k' ∧ timerLine k'.pic = false := by
  obtain ⟨tty, htty, hshows⟩ := shows_initial k.console.tty
  have hfollows := follows_nil hkeys
  let k' : Kernel :=
    { k with depth := 0, console := { k.console with tty := tty }, pic := initialPic }
  have hboot : boot k = .ok (picTable, k') := by
    rw [boot, htty, Except.mapError, ok_bind, initPic_eq]
  have hline (i : Fin 8) : k'.pic.master.irr.getLsbD i = false := BitVec.getLsbD_zero
  refine ⟨k', hboot,
    ⟨rfl, initialPic_ready.1, ⟨hfollows, hshows⟩, fun b hb => ?_, hline 1, ?_, fun _ => ⟨rfl, rfl⟩⟩,
    hline 0⟩
  · cases hb
  · exact (Bool.or_false _).symm

/-- The state of the keyboard and of the screen after some events. -/
def desk (l : List Event) : Desk := l.foldl Desk.next ⟨[], none, Terminal.initial⟩

section Start

variable {isr : Nat → Word} {tssAddr : Nat} {k : Kernel}

theorem Run.serves {stuck : Bool} (htss : tssAddr < 2 ^ 32)
    (h : AtDesk stuck ⟨[], none, Terminal.initial⟩ k)
    {m : Processor} {segs : DataSegments}
    (hm : m.cpu.interruptFlag = true → Interruptible tssAddr m segs) {l : List Event} {s' : System}
    (hr : Run picTable isr tssAddr l ⟨m, segs, k⟩ s') : Serves tssAddr stuck (desk l) s' :=
  Serves.run (s := ⟨m, segs, k⟩) ⟨hm, h⟩ htss hr

/-- Whatever runs and whenever devices interrupt it, each scan code that arrived was read once and
in order, but for one that is still in the controller, and the screen has what was printed and
typed. But none ever arrives when the controller was full at the start. -/
theorem keyboard_served (htss : tssAddr < 2 ^ 32) (hkeys : k.console.isDown.isZero = true) :
    ∃ t k', boot k = .ok (t, k') ∧
    ∀ (m : Processor) (segs : DataSegments) (l : List Event) (s' : System),
      (m.cpu.interruptFlag = true → Interruptible tssAddr m segs) →
      Run t isr tssAddr l ⟨m, segs, k'⟩ s' →
      (desk l).past ++ (desk l).waiting.toList = arrived l ∧ (desk l).past.length = taken 33 l ∧
      (∀ b, (desk l).waiting = some b → s'.kernel.controller = ⟨b, true⟩) ∧
      (k.controller.full = true → arrived l = []) ∧
      (∀ i < 128, s'.kernel.console.isDown.bit i = true ↔ Held (desk l).past i) ∧
      Shows s'.kernel.console.tty (desk l).terminal := by
  obtain ⟨k', hboot, h, -⟩ := boot_eq hkeys
  refine ⟨picTable, k', hboot, fun m segs l s' hm hr => ?_⟩
  have hstart : Serves tssAddr k.controller.full ⟨[], none, Terminal.initial⟩ ⟨m, segs, k'⟩ :=
    ⟨hm, h⟩
  have hserves := (Run.serves htss h hm hr).atDesk
  have harrived := hstart.arrived htss hr
  have hcount := (hstart.counts htss hr).1
  rw [List.length_nil, Nat.zero_add] at hcount
  refine ⟨harrived, hcount, fun b hb => ?_, fun hfull => ?_, hserves.after.follows,
    hserves.after.shows⟩
  · have hfull := hserves.full
    have hbyte := hserves.byte b hb
    rw [hb, Option.isSome_some, Bool.or_true] at hfull
    generalize s'.kernel.controller = c at hfull hbyte ⊢
    cases c
    rw [← hbyte, ← hfull]
  · obtain ⟨hpast, hwaiting⟩ := hserves.dead hfull
    refine harrived.symm.trans ?_
    change (desk l).past ++ (desk l).waiting.toList = []
    rw [hpast, hwaiting]
    rfl

/-- A processor that can be interrupted, in user mode or in the kernel. -/
def someProcessor (cs : Word) : Processor where
  cpu := ⟨⟨0, 0, 0, 0, 0, 0, 0⟩, 0, cs, 0, 0x202, 0⟩
  esp := 0xC0110000
  mem _ := 0
  esp0 := 0xC0120000

def someKernel : Kernel where
  depth := 0
  scheduling := false
  preemptCounter := 1
  console := ⟨Vector.replicate 4 0, ⟨0, 0, 0, fun _ => 0, fun _ => 0, 0, fun _ => 0⟩⟩
  pic := initialPic
  controller := ⟨0, false⟩

/-- The segment that `asm_enter_usermode` loads. -/
def userSegments : DataSegments := ⟨0x23, 0x23⟩

theorem someProcessor_interruptible {cs : Word} (h : cs = 8 ∨ cs = 0x1B) :
    Interruptible 0 (someProcessor cs) userSegments := by
  rcases h with rfl | rfl
  · exact ⟨Or.inr (by decide), by decide, by decide, by decide⟩
  · exact ⟨Or.inl (by decide), by decide, by decide, by decide⟩

/-- The key of a letter goes down. -/
theorem keyboard_served_letter : ∃ t k', boot someKernel = .ok (t, k') ∧ ∃ s',
    Run t (fun _ => 0) 0 [.arrives 0x1E, .interrupts 33] ⟨someProcessor 8, userSegments, k'⟩ s' ∧
      Shows s'.kernel.console.tty (Terminal.initial.put 0x61) := by
  obtain ⟨t, k', hboot, hall⟩ := @keyboard_served (fun _ => 0) 0 someKernel (by decide) (by decide)
  obtain ⟨k₁, hboot₁, h, htimer⟩ := boot_eq (k := someKernel) (by decide)
  obtain ⟨rfl, rfl⟩ := Prod.mk.inj (Except.ok.inj (hboot.symm.trans hboot₁))
  have hm : Interruptible 0 (someProcessor 8) userSegments :=
    someProcessor_interruptible (Or.inl rfl)
  have hstart : Serves 0 false ⟨[], none, Terminal.initial⟩ ⟨someProcessor 8, userSegments, k'⟩ :=
    ⟨fun _ => hm, h⟩
  have harrives : Step picTable (fun _ => 0) 0 (.arrives 0x1E)
      ⟨someProcessor 8, userSegments, k'⟩ _ :=
    .arrives (h.full.trans rfl)
  have h₁ := hstart.step (by decide) harrives
  -- only the line of the keyboard is raised
  obtain ⟨v, pic, hack⟩ := h₁.atDesk.asks (i := 1) (by decide) h₁.atDesk.line
  have henabled : (someProcessor 8).cpu.interruptFlag = true := by decide
  obtain ⟨s', hs⟩ := h₁.takes (fun _ => 0) (by decide) henabled hack
  obtain ⟨-, htakes⟩ := h₁.interrupts (by decide) hs
  have hline : timerLine (k'.pic.raise 1) = false := by
    rw [timerLine_raise, htimer]
    rfl
  rcases htakes with ⟨-, htimer', -⟩ | ⟨rfl, -⟩
  · rw [hline] at htimer'
    cases htimer'
  · have hrun := Run.cons harrives (.cons hs .nil)
    exact ⟨picTable, k', hboot, s', hrun, (hall _ _ _ _ (fun _ => hm) hrun).2.2.2.2.2⟩

/-- No interrupt of a device stops the kernel or is taken twice, none that is asked for has to wait
while interrupts are enabled, and the program goes on as it was when the handler comes back. -/
theorem interrupts_served (htss : tssAddr < 2 ^ 32) (hkeys : k.console.isDown.isZero = true) :
    ∃ t k', boot k = .ok (t, k') ∧
    ∀ (m : Processor) (segs : DataSegments) (l : List Event) (s' : System),
      (m.cpu.interruptFlag = true → Interruptible tssAddr m segs) →
      Run t isr tssAddr l ⟨m, segs, k'⟩ s' →
      s'.kernel.depth = 0 ∧ taken 32 l ≤ ticks l ∧
      (s'.processor.cpu.interruptFlag = true →
        (∀ v pic, s'.kernel.pic.acknowledge = some (v, pic) → ∃ f e,
          handle t isr tssAddr (.external v.toNat) s'.processor s'.segments
          { s'.kernel with pic := pic } = .ok (f, e) ∧
          ∀ n, Ran f n (Processor.frameSize s'.processor.cpu) →
            interruptReturn n = { s'.processor with mem := n.mem }) ∧
        (timerLine s'.kernel.pic = true ∨ (desk l).waiting.isSome = true →
          ∃ v s, Step t isr tssAddr (.interrupts v) s' s)) := by
  obtain ⟨k', hboot, h, htimer⟩ := boot_eq hkeys
  refine ⟨picTable, k', hboot, fun m segs l s' hm hr => ?_⟩
  have hstart : Serves tssAddr k.controller.full ⟨[], none, Terminal.initial⟩ ⟨m, segs, k'⟩ :=
    ⟨hm, h⟩
  have hserves := Run.serves htss h hm hr
  have hcount := (hstart.counts htss hr).2
  rw [htimer] at hcount
  refine ⟨hserves.atDesk.depth, (Nat.le_add_right _ _).trans hcount, fun hflag =>
    ⟨fun v pic hack => ?_,
    fun hline => ?_⟩⟩
  · obtain ⟨f, e, hhandle, -, -, hresumes⟩ := hserves.handle isr htss hflag hack
    exact ⟨f, e, hhandle, hresumes⟩
  · have hraised : ∃ i : Fin 8, i.val < 2 ∧ s'.kernel.pic.master.irr.getLsbD i = true := by
      rcases hline with htimer | hwaiting
      · exact ⟨0, by decide, htimer⟩
      · exact ⟨1, by decide, hserves.atDesk.line.trans hwaiting⟩
    obtain ⟨i, hi, hirr⟩ := hraised
    obtain ⟨v, pic, hack⟩ := hserves.atDesk.asks hi hirr
    obtain ⟨s, hs⟩ := hserves.takes isr htss hflag hack
    exact ⟨v, s, hs⟩

theorem interrupts_served_tick : ∃ t k', boot someKernel = .ok (t, k') ∧ ∃ s' v s,
    Run t (fun _ => 0) 0 [.raises 0] ⟨someProcessor 0x1B, userSegments, k'⟩ s' ∧
      Step t (fun _ => 0) 0 (.interrupts v) s' s := by
  obtain ⟨t, k', hboot, hall⟩ :=
    @interrupts_served (fun _ => 0) 0 someKernel (by decide) (by decide)
  have hstep : Step t (fun _ => 0) 0 (.raises 0) ⟨someProcessor 0x1B, userSegments, k'⟩ _ :=
    .raises (by decide)
  have hrun := Run.cons hstep .nil
  obtain ⟨-, -, hflag⟩ := hall _ _ _ _ (fun _ => someProcessor_interruptible (Or.inr rfl)) hrun
  have hline : timerLine (k'.pic.raise 0) = true := (k'.pic.raise_irr 0 0).trans (Bool.or_true _)
  have henabled : (someProcessor 0x1B).cpu.interruptFlag = true := by decide
  obtain ⟨v, s, hs⟩ := (hflag henabled).2 (Or.inl hline)
  exact ⟨t, k', hboot, _, v, s, hrun, hs⟩

end Start

/-! ## Everything else -/

/-- What the kernel reports. -/
def report (c : Cause) : Panic :=
  if 34 ≤ c.vector ∧ c.vector < 48 then .invalidPic (c.vector - 32) else .unhandled c.vector
    (c.error.getD 0)

/-- Whatever interrupts a program but the timer and the keyboard stops the kernel. It reports the
vector and the error code of what was delivered, or the number of the line of a device. There is no
system call, and no fault of a program that it survives. -/
theorem handle_stops {isr : Nat → Word} {tssAddr : Nat} {c : Cause} {m : Processor}
    {d : DataSegments}
    {k : Kernel} (htss : tssAddr < 2 ^ 32) (hm : Interruptible tssAddr m d) (harises : Arises m c)
    (hvector : c.vector < 256)
    (herror : ∀ e ∈ c.error, e < 2 ^ 32) (htimer : c ≠ .external 32)
    (hkeyboard : c ≠ .external 33) :
    handle picTable isr tssAddr c m d k = .error (.panic (report (delivered c m))) := by
  have hhandle := (handle_eq (k := k) isr htss hm harises hvector herror).1
  have hothers : (delivered c m).vector ≠ 32 ∧ (delivered c m).vector ≠ 33 := by
    rw [delivered]
    split_ifs with hallowed
    · cases c with
      | external v => exact ⟨fun h => htimer (congrArg _ h), fun h => hkeyboard (congrArg _ h)⟩
      | software v =>
        rcases hallowed with h128 | ⟨-, hnot⟩
        · have hv : v = 128 := h128
          rw [hv]
          decide
        · exact absurd ⟨rfl, harises⟩ hnot
      | exception v e =>
        have hlt : v < 32 := harises.1
        exact ⟨fun h => by rw [Cause.vector] at h; omega, fun h => by rw [Cause.vector] at h; omega⟩
    · exact ⟨by rw [Cause.vector]; decide, by rw [Cause.vector]; decide⟩
  rw [hhandle, internalInterruptHandler_stops _ hothers.1 hothers.2]
  rfl

/-- `int 3` in user mode is a general protection exception, for the gate of vector 3. -/
theorem handle_stops_breakpoint :
    handle picTable (fun _ => 0) 0 (.software 3) (someProcessor 0x1B) userSegments someKernel =
    .error (.panic (.unhandled 13 26)) :=
  handle_stops (by decide) (someProcessor_interruptible (Or.inr rfl))
    (show (someProcessor 0x1B).cpu.User by decide)
    (by decide) (fun _ h => by cases h) (fun h => by cases h) (fun h => by cases h)

end TinyLittleOs.Interrupts
