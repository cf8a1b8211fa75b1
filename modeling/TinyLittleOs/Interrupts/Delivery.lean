import TinyLittleOs.Interrupts.Tables
import TinyLittleOs.Lib.Outcome

/-!
# From a cause to a handler

What the processor does at an interrupt, with the tables of the kernel: which gate it takes, and
what is on the stack when `internal_interrupt_handler` is called. The interrupted program gets back
what it had, whatever the handler does below it.
-/

namespace TinyLittleOs.Interrupts

open Lib Scheduler

/-! ## The processor -/

structure Tables where
  gdt : DescriptorTable
  idt : DescriptorTable
  /-- What `ltr` has loaded. -/
  tr : Segment
  /-- The address of `global_tss`. Its `esp0` is a field of the processor. -/
  tssAddr : Nat
  /-- `global_tss.ss0` -/
  ss0 : Word

/-- The stack segment and the stack pointer for a privilege level. -/
def Tables.stack (t : Tables) (level ext : Nat) (m : Processor) : Except GateFault (Word × Word) :=
  if t.tr.limit < level * 8 + 9 then .error ⟨10, 0x28 + ext⟩
  else if t.tr.base = t.tssAddr ∧ level = 0 then .ok (t.ss0, m.esp0)
  else .ok (BitVec.ofNat 32 (m.mem.load32 (t.tr.base + level * 8 + 8)),
    BitVec.ofNat 32 (m.mem.load32 (t.tr.base + level * 8 + 4)))

/-- The processor enters a handler, on another stack when the privilege level changes. -/
def enter (g : Gate) (cs : Word) (stack : Option (Word × Word)) (error : Option Nat)
    (m : Processor) :
    Processor :=
  let c := m.cpu
  let m := match stack with
    | some (ss, esp) => { m with cpu := { c with ss := ss }, esp := esp }.pushes [c.ss, m.esp]
    | none => m
  let m := m.pushes ([c.eflags, c.cs, c.eip] ++ error.toList.map (BitVec.ofNat 32))
  let cpu := if g.IsInterrupt then m.cpu.cli else m.cpu
  { m with cpu := { cpu with cs := cs, eip := BitVec.ofNat 32 g.offset } }

/-- Behind `int`, which has two bytes, the program goes on with the next instruction. -/
def resumeAt (c : Cause) (m : Processor) : Processor :=
  if c.isSoftware then { m with cpu := m.cpu.setEip (m.cpu.eip + 2) } else m

def deliver (t : Tables) (c : Cause) (m : Processor) : Except GateFault Processor := do
  let cpl := (m.cpu.cs &&& 3).toNat
  let g ← gateFor t.idt c cpl
  let level ← codeFor t.gdt g.selector c.ext cpl
  let cs := BitVec.ofNat 32 (g.selector / 4 * 4 + level)
  if level < cpl then do
    let stack ← t.stack level c.ext m
    stackFor t.gdt stack.1.toNat c.ext level
    .ok (enter g cs (some stack) c.error (resumeAt c m))
  else .ok (enter g cs none c.error (resumeAt c m))

/-- Where a cause can not be delivered, the processor delivers the exception. -/
def interrupt (t : Tables) (c : Cause) (m : Processor) : Except GateFault (Cause × Processor) :=
  match deliver t c m with
  | .ok m' => .ok (c, m')
  | .error f => do
    let c' := Cause.exception f.vector (some f.error)
    let m' ← deliver t c' m
    .ok (c', m')

/-! ## The tables of the kernel -/

/-- After `init_gdt`, `interrupts::initialize` and `scheduler::initialize`. -/
def kernelTables (isr : Nat → Word) (tssAddr : Nat) : Tables where
  gdt := initGdt tssAddr gdtArr
  idt := idtArr isr
  tr := (segmentAt (initGdt tssAddr gdtArr) (0x28 / 8)).getD ⟨0, 0, 0, 0⟩
  tssAddr := tssAddr
  ss0 := kernelSs

/-- The data segments. The stubs neither save nor load them, so that the handlers have those of the
program. -/
structure DataSegments where
  ds : Word
  es : Word

/-- All of memory is in the segments of a program. -/
def DataSegments.Flat (gdt : DescriptorTable) (cpl : Nat) (d : DataSegments) : Prop :=
  FlatData gdt cpl d.ds.toNat ∧ FlatData gdt cpl d.es.toNat

instance (gdt : DescriptorTable) (cpl : Nat) (d : DataSegments) : Decidable (d.Flat gdt cpl) :=
  inferInstanceAs (Decidable (_ ∧ _))

/-- The processor is in user mode or in the kernel. -/
def InRing (m : Processor) : Prop := m.cpu.User ∨ m.cpu.cs &&& 3 = 0

/-- The kernel has a gate for the vector, and the program may take it. -/
def Allowed (c : Cause) (m : Processor) : Prop :=
  c.vector = 128 ∨ c.vector < 48 ∧ ¬ (c.isSoftware ∧ m.cpu.User)

section Kernel

variable {isr : Nat → Word} {tssAddr : Nat} {c : Cause} {m : Processor} {cpl : Nat}

theorem gateFor_kernel (h128 : c.vector = 128 ∨ c.vector < 48 ∧ ¬ (c.isSoftware ∧ 0 < cpl))
    (hcpl : cpl ≤ 3) :
    gateFor (idtArr isr) c cpl = .ok (kernelGate isr c.vector) := by
  rw [gateFor, idt_gate, if_pos (by omega)]
  dsimp only
  rcases h128 with h128 | ⟨hlt, hsoft⟩
  · have hattr : (kernelGate isr c.vector).attributes = 0xEE := by rw [kernelGate, if_pos h128]
    simp only [Gate.IsInterrupt, Gate.IsTrap, Gate.level, hattr]
    rw [if_neg (by decide), if_neg, if_neg (by decide)]
    rintro ⟨-, hlow⟩
    simp only [levelOf] at hlow
    omega
  · have hattr : (kernelGate isr c.vector).attributes = 0x8E := by
      rw [kernelGate, if_neg (by omega), if_pos hlt]
    have hlevel : levelOf 0x8E = 0 := rfl
    simp only [Gate.IsInterrupt, Gate.IsTrap, Gate.level, hattr, hlevel]
    rw [if_neg (by decide), if_neg hsoft, if_neg (by decide)]

theorem gateFor_refused (h128 : ¬ (c.vector = 128 ∨ c.vector < 48 ∧ ¬ (c.isSoftware ∧ 0 < cpl))) :
    gateFor (idtArr isr) c cpl = .error ⟨13, c.vector * 8 + 2 + c.ext⟩ := by
  rw [gateFor, idt_gate]
  rw [not_or, not_and, not_not] at h128
  obtain ⟨hne, hsoft⟩ := h128
  by_cases hlt : c.vector < 256
  · rw [if_pos hlt]
    dsimp only
    by_cases hgate : c.vector < 48
    · have hattr : (kernelGate isr c.vector).attributes = 0x8E := by
        rw [kernelGate, if_neg hne, if_pos hgate]
      have hext : c.ext = 0 := by
        have hprogram := (hsoft hgate).1
        cases c
        · cases hprogram
        · rfl
        · cases hprogram
      have hlevel : levelOf 0x8E = 0 := rfl
      simp only [Gate.IsInterrupt, Gate.IsTrap, Gate.level, hattr, hlevel]
      rw [if_neg (by decide), if_pos (hsoft hgate), hext]
    · have hattr : (kernelGate isr c.vector).attributes = 0 := by
        rw [kernelGate, if_neg hne, if_neg hgate]
      simp only [Gate.IsInterrupt, Gate.IsTrap, hattr]
      rw [if_pos (by decide)]
  · rw [if_neg hlt]

theorem kernelGate_selector (isr : Nat → Word) (h : c.vector = 128 ∨ c.vector < 48) :
    (kernelGate isr c.vector).selector = 8 ∧
    (kernelGate isr c.vector).offset = (isr c.vector).toNat ∧
    (kernelGate isr c.vector).IsInterrupt := by
  rw [kernelGate]
  rcases h with h | h
  · rw [if_pos h, h]
    exact ⟨rfl, rfl, show 0xEE % 32 = 0x0E from rfl⟩
  · rw [if_neg (by omega), if_pos h]
    exact ⟨rfl, rfl, show 0x8E % 32 = 0x0E from rfl⟩

theorem codeFor_kernel (htss : tssAddr < 2 ^ 32) (ext cpl : Nat) :
    codeFor (initGdt tssAddr gdtArr) 8 ext cpl = .ok 0 := by
  rw [codeFor, gdt_segment htss]
  rfl

theorem stackFor_kernel (htss : tssAddr < 2 ^ 32) (ext : Nat) :
    stackFor (initGdt tssAddr gdtArr) kernelSs.toNat ext 0 = .ok () := by
  rw [stackFor, gdt_segment htss]
  rfl

theorem kernelTables_stack (htss : tssAddr < 2 ^ 32) (ext : Nat) :
    (kernelTables isr tssAddr).stack 0 ext m = .ok (kernelSs, m.esp0) := by
  have htr : (kernelTables isr tssAddr).tr = ⟨tssAddr, sizeofTss, 0b10001001, 0⟩ := by
    rw [kernelTables]
    dsimp only
    rw [gdt_segment htss]
    rfl
  rw [Tables.stack, htr, if_neg (show ¬ sizeofTss < 9 by decide)]
  exact if_pos ⟨rfl, rfl⟩

theorem enter_eq {g : Gate} (hg : g.IsInterrupt) (hoffset : g.offset = (isr c.vector).toNat)
    (error : Option Nat) (m : Processor) :
    enter g kernelCs (if m.cpu.User then some (kernelSs, m.esp0) else none) error m =
      (m.enterInterrupt (isr c.vector)).pushes (error.toList.map (BitVec.ofNat 32)) := by
  have hpushes (l l' : List Word) (n : Processor) : n.pushes (l ++ l') =
      (n.pushes l).pushes l' := by
    rw [Processor.pushes, Processor.pushes, Processor.pushes, Processor.stack, WordStack.pushes,
      WordStack.pushes, WordStack.pushes, List.foldl_append]
    rfl
  rw [Processor.enterInterrupt]
  by_cases hu : m.cpu.User
  · rw [if_pos hu, enter]
    dsimp only
    rw [if_pos hg, if_pos hu, hpushes, hoffset, BitVec.ofNat_toNat, BitVec.setWidth_eq]
    rfl
  · rw [if_neg hu, enter]
    dsimp only
    rw [if_pos hg, if_neg hu, hpushes, hoffset, BitVec.ofNat_toNat, BitVec.setWidth_eq]
    rfl

theorem user_resumeAt : (resumeAt c m).cpu.User ↔ m.cpu.User := by
  rw [resumeAt]
  split <;> rfl

/-- What is allowed gets to the handler of its vector, with the stack of the kernel. -/
theorem deliver_allowed (isr : Nat → Word) (htss : tssAddr < 2 ^ 32) (hring : InRing m)
    (h : Allowed c m) :
    deliver (kernelTables isr tssAddr) c m =
      .ok (((resumeAt c m).enterInterrupt (isr c.vector)).pushes
      (c.error.toList.map (BitVec.ofNat 32))) := by
  have hcpl : (m.cpu.cs &&& 3).toNat = if m.cpu.User then 3 else 0 := by
    rcases hring with hu | hk
    · rw [if_pos hu, hu]
      rfl
    · rw [if_neg (by rw [Cpu.User, hk]; decide), hk]
      rfl
  have hvector : c.vector = 128 ∨ c.vector < 48 := h.imp_right And.left
  obtain ⟨hselector, hoffset, hgate⟩ := kernelGate_selector isr hvector
  have hesp0 : (resumeAt c m).esp0 = m.esp0 := by
    rw [resumeAt]
    split <;> rfl
  have henter := enter_eq (m := resumeAt c m) hgate hoffset c.error
  simp only [user_resumeAt, hesp0] at henter
  have hcs : BitVec.ofNat 32 (8 / 4 * 4 + 0) = kernelCs := rfl
  rw [deliver, hcpl]
  by_cases hu : m.cpu.User
  · rw [if_pos hu] at henter ⊢
    have hallowed : c.vector = 128 ∨ c.vector < 48 ∧ ¬ (c.isSoftware ∧ 0 < 3) :=
      h.imp_right fun h => ⟨h.1, fun hs => h.2 ⟨hs.1, hu⟩⟩
    have hg : gateFor (kernelTables isr tssAddr).idt c 3 = .ok (kernelGate isr c.vector) :=
      gateFor_kernel hallowed (by decide)
    have hcode : codeFor (kernelTables isr tssAddr).gdt 8 c.ext 3 = .ok 0 := codeFor_kernel htss _ _
    have hstack : stackFor (kernelTables isr tssAddr).gdt kernelSs.toNat c.ext 0 = .ok () :=
      stackFor_kernel htss _
    dsimp only
    rw [hg, ok_bind, hselector, hcode, ok_bind, if_pos (by decide),
      kernelTables_stack htss, ok_bind]
    dsimp only
    rw [hstack, ok_bind, hcs, henter]
  · rw [if_neg hu] at henter ⊢
    have hallowed : c.vector = 128 ∨ c.vector < 48 ∧ ¬ (c.isSoftware ∧ 0 < 0) :=
      h.imp_right fun h => ⟨h.1, fun hs => absurd hs.2 (Nat.lt_irrefl 0)⟩
    have hg : gateFor (kernelTables isr tssAddr).idt c 0 = .ok (kernelGate isr c.vector) :=
      gateFor_kernel hallowed (by decide)
    have hcode : codeFor (kernelTables isr tssAddr).gdt 8 c.ext 0 = .ok 0 := codeFor_kernel htss _ _
    dsimp only
    rw [hg, ok_bind, hselector, hcode, ok_bind, if_neg (by decide), hcs, henter]

/-- What is not allowed is a general protection exception. -/
theorem deliver_refused (isr : Nat → Word) (tssAddr : Nat) (h : ¬ Allowed c m) :
    deliver (kernelTables isr tssAddr) c m = .error ⟨13, c.vector * 8 + 2 + c.ext⟩ := by
  have hrefused :
      ¬ (c.vector = 128 ∨ c.vector < 48 ∧ ¬ (c.isSoftware ∧ 0 < (m.cpu.cs &&& 3).toNat)) := by
    rintro (h128 | ⟨hlt, hsoft⟩)
    · exact h (Or.inl h128)
    · refine h (Or.inr ⟨hlt, fun hs => hsoft ⟨hs.1, ?_⟩⟩)
      rw [hs.2]
      decide
  have hg : gateFor (kernelTables isr tssAddr).idt c (m.cpu.cs &&& 3).toNat =
      .error ⟨13, c.vector * 8 + 2 + c.ext⟩ := gateFor_refused hrefused
  rw [deliver]
  dsimp only
  rw [hg]
  rfl

end Kernel

end TinyLittleOs.Interrupts
