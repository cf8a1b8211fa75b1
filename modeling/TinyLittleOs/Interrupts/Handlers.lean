import TinyLittleOs.Devices.Keyboard
import TinyLittleOs.Lib.InterruptController

/-!
# Interrupt handlers

`internal_interrupt_handler`, `interrupts/pic.cpp` and `timeslice_passed`, up to where another task
is entered. Only the timer and the keyboard have a handler that comes back.
-/

namespace TinyLittleOs.Interrupts

open Lib Devices

/-- Where the kernel stops. -/
inductive Panic where
  | unhandled (number error : Nat)
  | invalidPic (number : Nat)
  /-- The assertion of `register_handler`. -/
  | register (interrupt : Nat)
  | notInterrupt
  /-- The assertions on `interrupt_context_depth`. -/
  | depth (d : Int)
  | screen (e : BadIndex)

/-- What the keyboard controller has for `KB_PORT`. -/
structure Controller where
  byte : BitVec 8
  full : Bool

structure Kernel where
  /-- `interrupt_context_depth` -/
  depth : Int
  /-- `current_task` is not null. -/
  scheduling : Bool
  preemptCounter : BitVec 32
  console : Console
  pic : Pic
  controller : Controller

/-- How a handler ends: it comes back, or it enters a task. -/
inductive Ended where
  | returns (k : Kernel)
  | switches (k : Kernel)

def Ended.kernel : Ended → Kernel
  | returns k | switches k => k

/-- A task is entered. -/
def Ended.Switches : Ended → Prop
  | returns _ => False
  | switches _ => True

namespace Kernel

def outb (port : Nat) (b : BitVec 8) (k : Kernel) : Kernel := { k with pic := k.pic.out port b }

/-- `asm_inb(KB_PORT)` -/
def inbKeyboard (k : Kernel) : BitVec 8 × Kernel :=
  (k.controller.byte, { k with controller := { k.controller with full := false } })

def reduceInterruptDepth (k : Kernel) : Except Panic Kernel :=
  let dep := k.depth - 1
  if dep ≥ 0 then .ok { k with depth := dep } else .error (.depth dep)

def timeslicePassed (k : Kernel) : Except Panic Ended :=
  if ¬ k.depth ≠ 0 then .error .notInterrupt
  else if ¬ k.scheduling then .ok (.returns k)
  else if k.preemptCounter ≠ 0 ∨ k.depth > 1 then .ok (.returns k)
  else do
    let k ← k.reduceInterruptDepth
    .ok (.switches k)

/-! ## `interrupts/pic.cpp` -/

def sendEndOfInterrupt (interrupt : Nat) (k : Kernel) : Kernel :=
  let k := if interrupt ≥ 8 then k.outb 0xA0 0x20 else k
  k.outb 0x20 0x20

def onScanCode (scanCode : BitVec 8) (k : Kernel) : Except Panic Kernel := do
  let console ← (k.console.onScanCode scanCode).mapError .screen
  .ok { k with console }

def picInterruptHandler (interruptNumber : Nat) (k : Kernel) : Except Panic Ended :=
  let num := (interruptNumber + (2 ^ 32 - 0x20)) % 2 ^ 32
  if num = 0 then (k.sendEndOfInterrupt num).timeslicePassed
  else if num = 1 then do
    let (scanCode, k) := k.inbKeyboard
    let k ← k.onScanCode scanCode
    .ok (.returns (k.sendEndOfInterrupt num))
  else .error (.invalidPic num)

end Kernel

/-- `interrupt_handler_table`, with the only function that is ever in it. -/
abbrev HandlerTable := Nat → Option (Nat → Kernel → Except Panic Ended)

def registerHandler (interrupt : Nat) (handler : Nat → Kernel → Except Panic Ended)
    (t : HandlerTable) :
    Except Panic HandlerTable :=
  if interrupt < 48 then .ok (Function.update t interrupt (some handler)) else .error
    (.register interrupt)

/-- The bytes that `init_pic` sends, with their ports. -/
def picWrites : List (Nat × BitVec 8) :=
  [(0x20, 0x11), (0xA0, 0x11), (0x21, 0x20), (0xA1, 0x28), (0x21, 0x04), (0xA1, 0x02), (0x21, 0x05),
    (0xA1, 0x01),
    (0x21, 0xFC), (0xA1, 0xFF), (0x43, 52), (0x40, BitVec.ofNat 8 (1193180 / 1000 &&& 0xFF)),
    (0x40, BitVec.ofNat 8 ((1193180 / 1000) >>> 8))]

def initPic (t : HandlerTable) (k : Kernel) : Except Panic (HandlerTable × Kernel) := do
  let t ← (List.range' 0x20 0x10).foldlM
      (fun t i => registerHandler i Kernel.picInterruptHandler t) t
  .ok (t, picWrites.foldl (fun k w => k.outb w.1 w.2) k)

def internalInterruptHandler (t : HandlerTable) (number error : Nat) (k : Kernel) :
    Except Panic Ended :=
  let k := { k with depth := k.depth + 1 }
  match t number with
  | none => .error (.unhandled number error)
  | some handler => do
    match ← handler number k with
    | .switches k => .ok (.switches k)
    | .returns k => do
      let k ← k.reduceInterruptDepth
      .ok (.returns k)

/-! ## After the start -/

/-- The controllers, when no interrupt is in service: only lines 0 and 1 of the master are not
masked. -/
structure PicReady (p : Pic) : Prop where
  icw : p.master.icw = 0
  base : p.master.base = 0x20
  imr : p.master.imr = 0xFC
  isr : p.master.isr = 0
  autoEnd : p.master.autoEnd = false

/-- The table with the handler of the controllers. -/
def picTable :
    HandlerTable := fun i => if 32 ≤ i ∧ i < 48 then some Kernel.picInterruptHandler else none

/-- What `init_pic` leaves in the controllers. -/
def initialPic :
    Pic := ⟨⟨0x20, 0xFC, 0, 0, 0, false, true, false⟩, ⟨0x28, 0xFF, 0, 0, 0, false, true, false⟩⟩

theorem initialPic_ready : PicReady initialPic ∧ initialPic.master.irr = 0 :=
  ⟨⟨rfl, rfl, rfl, rfl, rfl⟩, rfl⟩

theorem outb_foldl (l : List (Nat × BitVec 8)) (k : Kernel) :
    l.foldl (fun k w => k.outb w.1 w.2) k =
      { k with pic := l.foldl (fun p w => p.out w.1 w.2) k.pic } := by
  induction l generalizing k with
  | nil => rfl
  | cons w l ih =>
    rw [List.foldl_cons, ih, List.foldl_cons]
    rfl

/-- The initialization words bring the controllers to the same state from any other. -/
theorem picWrites_foldl (p : Pic) : picWrites.foldl (fun p w => p.out w.1 w.2) p = initialPic := by
  simp [picWrites, Pic.out, Chip.outCommand, Chip.outData, initialPic]

theorem registerHandler_foldlM (n : Nat) (hn : n ≤ 16) :
    (List.range' 0x20 n).foldlM (fun t i => registerHandler i Kernel.picInterruptHandler t)
    (fun _ => none) =
      .ok fun i => if 32 ≤ i ∧ i < 32 + n then some Kernel.picInterruptHandler else none := by
  induction n with
  | zero =>
    refine congrArg Except.ok (funext fun i => ?_)
    rw [if_neg (by omega)]
  | succ n ih =>
    rw [← List.range'_append (s := 0x20) (m := n) (n := 1), List.foldlM_append,
      ih (by omega), ok_bind]
    rw [List.range'_one, List.foldlM_cons, registerHandler, if_pos (by omega), ok_bind]
    refine congrArg Except.ok (funext fun i => ?_)
    rw [Function.update_apply]
    grind

theorem initPic_eq (k : Kernel) :
    initPic (fun _ => none) k = .ok (picTable, { k with pic := initialPic }) := by
  have htable :
      (List.range' 0x20 0x10).foldlM (fun t i => registerHandler i Kernel.picInterruptHandler t)
      (fun _ => none) = .ok picTable := registerHandler_foldlM 16 (Nat.le_refl _)
  rw [initPic, htable, ok_bind, outb_foldl, picWrites_foldl]

/-! ## Interrupts that are served -/

theorem vector_toNat {i : Fin 8} (hi : i.val < 2) :
    ((0x20 : BitVec 8) &&& 0xF8 ||| BitVec.ofNat 8 i).toNat =
    32 + i.val := by
  revert i
  decide

section PicReady

variable {p p' : Pic} {v : BitVec 8} (h : PicReady p)
include h

theorem PicReady.mask {i : Fin 8} : p.master.imr.getLsbD i = false ↔ i.val < 2 := by
  rw [h.imr]
  revert i
  decide

theorem PicReady.raise (n : Fin 16) : PicReady (p.raise n) := by
  rw [Pic.raise]
  split_ifs
  · exact h
  · exact ⟨h.icw, h.base, h.imr, h.isr, h.autoEnd⟩
  · exact ⟨h.icw, h.base, h.imr, h.isr, h.autoEnd⟩

/-- What is taken is the timer or the keyboard. Its handler ends it, and no other line is lost. -/
theorem PicReady.acknowledge (hack : p.acknowledge = some (v, p')) : ∃ i : Fin 8, i.val < 2 ∧
    v.toNat = 32 + i.val ∧ p.master.irr.getLsbD i = true ∧ PicReady (p'.out 0x20 0x20) ∧
    ∀ j : Fin 8, j ≠ 2 → (p'.out 0x20 0x20).master.irr.getLsbD j =
      (p.master.irr.getLsbD j && !decide (j = i)) := by
  have hslave : p.master.imr.getLsbD (2 : Fin 8) = true := by
    rw [h.imr]
    rfl
  obtain ⟨i, hrequest, hi, hraised, hmask, rfl, rfl⟩ := Pic.acknowledge_master hack hslave
  obtain ⟨irr, hwired, hirr⟩ := p.wired_eq
  have hlt := h.mask.1 hmask
  have hend : (p.wired.acknowledge i).endOfInterrupt =
      { p.master with irr := irr &&& ~~~lineBit i } := by
    rw [Chip.endOfInterrupt_acknowledge hrequest (by rw [hwired]; exact h.autoEnd), hwired]
  have hout : (Pic.mk (p.wired.acknowledge i) p.slave).out 0x20 0x20 =
      ⟨{ p.master with irr := irr &&& ~~~lineBit i }, p.slave⟩ := by
    rw [← hend]
    rfl
  rw [hout]
  refine ⟨i, hlt, ?_, hraised, ⟨h.icw, h.base, h.imr, h.isr, h.autoEnd⟩, fun j hj => ?_⟩
  · rw [Chip.vector, h.base]
    exact vector_toNat hlt
  · rw [clear_line, hirr j hj]

end PicReady

section Handler

variable {k : Kernel} (error : Nat)

theorem sendEndOfInterrupt_eq {n : Nat} (hn : n < 8) :
    k.sendEndOfInterrupt n = k.outb 0x20 0x20 := by
  rw [Kernel.sendEndOfInterrupt, if_neg (by omega)]

theorem picTable_eq {n : Nat} (h : 32 ≤ n ∧ n < 48) :
    picTable n = some Kernel.picInterruptHandler := if_pos h

theorem reduceInterruptDepth_eq (h : 0 < k.depth) :
    k.reduceInterruptDepth = .ok { k with depth := k.depth - 1 } := by
  rw [Kernel.reduceInterruptDepth]
  exact if_pos (show k.depth - 1 ≥ 0 by omega)

/-- The line of the controllers for a vector. -/
theorem picInterruptHandler_num {n : Nat} (h : 32 ≤ n ∧ n < 48) :
    (n + (2 ^ 32 - 0x20)) % 2 ^ 32 = n - 32 := by
  omega

theorem timeslicePassed_eq (h : 0 < k.depth) : k.timeslicePassed =
    .ok (if k.scheduling = true ∧ k.preemptCounter = 0 ∧
      k.depth = 1 then .switches { k with depth := 0 }
      else .returns k) := by
  rw [Kernel.timeslicePassed, if_neg (by omega)]
  by_cases hscheduling : k.scheduling = true
  · rw [if_neg (not_not.2 hscheduling)]
    by_cases hlocked : k.preemptCounter ≠ 0 ∨ k.depth > 1
    · rw [if_pos hlocked, if_neg (by grind)]
    · have hdepth : k.depth = 1 := by omega
      rw [if_neg hlocked, reduceInterruptDepth_eq h, ok_bind, hdepth, if_pos (by grind)]
      rfl
  · rw [if_pos hscheduling, if_neg (by grind)]

/-- The timer enters a task only if no other handler runs and tasks can be switched. -/
theorem internalInterruptHandler_timer (hdepth : 0 ≤ k.depth) :
    internalInterruptHandler picTable 32 error k =
    .ok (if k.scheduling = true ∧ k.preemptCounter = 0 ∧
      k.depth = 0 then .switches (k.outb 0x20 0x20)
      else .returns (k.outb 0x20 0x20)) := by
  rw [internalInterruptHandler, picTable_eq (by decide)]
  dsimp only
  rw [Kernel.picInterruptHandler, picInterruptHandler_num (by decide)]
  dsimp only
  rw [if_pos rfl, sendEndOfInterrupt_eq (by decide)]
  generalize hk : Kernel.outb 0x20 0x20 { k with depth := k.depth + 1 } = k'
  have hfields : k'.depth = k.depth + 1 ∧ k'.scheduling = k.scheduling ∧ k'.preemptCounter =
      k.preemptCounter := by
    rw [← hk]
    exact ⟨rfl, rfl, rfl⟩
  have hback : { k' with depth := k.depth } = k.outb 0x20 0x20 := by
    rw [← hk]
    rfl
  obtain ⟨hdepth', hscheduling, hpreempt⟩ := hfields
  rw [timeslicePassed_eq (by omega), hscheduling, hpreempt, hdepth', ok_bind]
  by_cases hswitch : k.scheduling = true ∧ k.preemptCounter = 0 ∧ k.depth = 0
  · rw [if_pos hswitch, if_pos ⟨hswitch.1, hswitch.2.1, by omega⟩, ← hback, hswitch.2.2,
      hscheduling, hpreempt]
  · rw [if_neg hswitch, if_neg (by grind)]
    dsimp only
    rw [reduceInterruptDepth_eq (by omega), ok_bind, ← hback, hdepth', add_sub_cancel_right]

/-- The keyboard has one more scan code. -/
theorem internalInterruptHandler_keyboard {past : List (BitVec 8)} {t : Terminal}
    (hdepth : 0 ≤ k.depth)
    (h : k.console.After past t) : ∃ console, internalInterruptHandler picTable 33 error k =
      .ok (.returns { k with
        console := console
        controller := { k.controller with full := false }
        pic := k.pic.out 0x20 0x20 }) ∧
      console.After (past ++ [k.controller.byte])
        ((typed past k.controller.byte).toList.foldl (fun t c => t.put c) t) := by
  obtain ⟨console, hconsole, hafter⟩ := h.onScanCode k.controller.byte
  refine ⟨console, ?_, hafter⟩
  rw [internalInterruptHandler, picTable_eq (by decide)]
  dsimp only
  rw [Kernel.picInterruptHandler, picInterruptHandler_num (by decide)]
  dsimp only
  rw [if_neg (by decide), if_pos rfl, Kernel.inbKeyboard]
  dsimp only
  rw [Kernel.onScanCode]
  dsimp only
  rw [hconsole]
  have hreduce := reduceInterruptDepth_eq (k := { k with
    depth := k.depth + 1
    console := console
    controller := { k.controller with full := false } }.outb 0x20 0x20)
    (show 0 < k.depth + 1 by omega)
  rw [Except.mapError, ok_bind, ok_bind, ok_bind, sendEndOfInterrupt_eq (by decide)]
  dsimp only
  rw [hreduce, ok_bind]
  have hdep : k.depth + 1 - 1 = k.depth := by omega
  refine congrArg (fun k => Except.ok (Ended.returns k)) ?_
  rw [Kernel.outb]
  dsimp only
  rw [hdep]

/-- Any other number stops the kernel. -/
theorem internalInterruptHandler_stops {number : Nat} (htimer : number ≠ 32)
    (hkeyboard : number ≠ 33) :
    internalInterruptHandler picTable number error k = .error (if 34 ≤ number ∧ number < 48 then
      .invalidPic (number - 32) else .unhandled number error) := by
  rw [internalInterruptHandler]
  by_cases hpic : 32 ≤ number ∧ number < 48
  · rw [picTable_eq hpic, if_pos (by omega)]
    dsimp only
    rw [Kernel.picInterruptHandler, picInterruptHandler_num hpic, if_neg (by omega),
      if_neg (by omega)]
    rfl
  · rw [picTable, if_neg hpic, if_neg (by omega)]

end Handler

end TinyLittleOs.Interrupts
