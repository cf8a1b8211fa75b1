import TinyLittleOs.Lib.WordStack

/-!
# The frame of a task that does not run

`scheduler::yield`, the interrupt entry of `interrupt_handlers.s` and `asm_enter_task`, on what they
save and restore. Kernel stacks are mapped alike in every address space, so there is one memory.
-/

namespace TinyLittleOs.Scheduler

open Lib

/-- The general registers. -/
structure Regs where
  eax : Word
  ebx : Word
  ecx : Word
  edx : Word
  esi : Word
  edi : Word
  ebp : Word
  deriving DecidableEq

structure Cpu where
  regs : Regs
  eip : Word
  cs : Word
  ss : Word
  eflags : Word
  cr3 : Word
  deriving DecidableEq

/-- `memory::kernel_cs` -/
def kernelCs : Word := 0x08

/-- `ss0` of `global_tss` -/
def kernelSs : Word := 0x10

/-- `sizeof(interrupts::interrupt_args)` -/
def sizeofInterruptArgs : Word := 52

namespace Cpu

/-- The privilege level is 3. -/
def User (c : Cpu) : Prop := c.cs &&& 3 = 3

instance (c : Cpu) : Decidable c.User := inferInstanceAs (Decidable (_ = _))

def interruptFlag (c : Cpu) : Bool := c.eflags.getLsbD 9

def cli (c : Cpu) : Cpu := { c with eflags := c.eflags &&& ~~~0x200 }

/-- What `pushf` pushes: `RF` and `VM` are clear. -/
def pushedFlags (c : Cpu) : Word := c.eflags &&& 0x00FCFFFF

def setEax (w : Word) (c : Cpu) : Cpu := { c with regs := { c.regs with eax := w } }
def setEbx (w : Word) (c : Cpu) : Cpu := { c with regs := { c.regs with ebx := w } }
def setEcx (w : Word) (c : Cpu) : Cpu := { c with regs := { c.regs with ecx := w } }
def setEdx (w : Word) (c : Cpu) : Cpu := { c with regs := { c.regs with edx := w } }
def setEsi (w : Word) (c : Cpu) : Cpu := { c with regs := { c.regs with esi := w } }
def setEdi (w : Word) (c : Cpu) : Cpu := { c with regs := { c.regs with edi := w } }
def setEbp (w : Word) (c : Cpu) : Cpu := { c with regs := { c.regs with ebp := w } }
def setEip (w : Word) (c : Cpu) : Cpu := { c with eip := w }
def setCs (w : Word) (c : Cpu) : Cpu := { c with cs := w }
def setSs (w : Word) (c : Cpu) : Cpu := { c with ss := w }
def setEflags (w : Word) (c : Cpu) : Cpu := { c with eflags := w }
def setCr3 (w : Word) (c : Cpu) : Cpu := { c with cr3 := w }

end Cpu

structure Processor where
  cpu : Cpu
  esp : Word
  mem : ByteMem
  /-- `global_tss.esp0` -/
  esp0 : Word

namespace Processor

def stack (m : Processor) : WordStack := ⟨m.mem, m.esp⟩

def pushes (m : Processor) (vs : List Word) : Processor :=
  { m with mem := (m.stack.pushes vs).mem, esp := (m.stack.pushes vs).sp }

/-- Pop words, each with what is done with it. -/
def pops (m : Processor) : List (Word → Cpu → Cpu) → Processor
  | [] => m
  | f :: fs => { m with cpu := f m.stack.top m.cpu, esp := m.stack.drop.sp }.pops fs

/-- The call of `.get_eip` in `yield`, and the code there up to the jump back to the label `0`. -/
def getEip (label0 label1 : Word) (m : Processor) : Processor :=
  let m := m.pushes [label0]
  let m := m.pops [Cpu.setEax]
  let m := { m with cpu := m.cpu.setEax (m.cpu.regs.eax + (label1 - label0)) }
  { m with mem := m.mem.store32 (m.esp + 12).toNat m.cpu.regs.eax.toNat }

/-- The pushes behind that of `eax`, and that of `cr3`. -/
def saveRegs (m : Processor) : Processor :=
  let r := m.cpu.regs
  let m := m.pushes [r.ebx, r.ecx, r.edx, r.esi, r.edi, r.ebp]
  let m := { m with cpu := m.cpu.setEax m.cpu.cr3 }
  m.pushes [m.cpu.regs.eax]

/-- The code of `yield` up to the call of `do_yield`, with its labels `0` and `1`. -/
def yieldFrame (label0 label1 : Word) (m : Processor) : Processor :=
  let m := { m with cpu := m.cpu.cli }
  let m := m.pushes [m.cpu.pushedFlags, kernelCs, 0, 0, 0, m.cpu.regs.eax]
  let m := m.getEip label0 label1
  m.saveRegs

/-- What the processor does at an interrupt without error code. -/
def enterInterrupt (eip : Word) (m : Processor) : Processor :=
  let c := m.cpu
  let m := if c.User then
      { m with cpu := { c with ss := kernelSs }, esp := m.esp0 }.pushes [c.ss, m.esp]
    else m
  let m := m.pushes [c.eflags, c.cs, c.eip]
  { m with cpu := { m.cpu.cli with cs := kernelCs, eip := eip } }

/-- `isr_no_err_stub` and `common_interrupt_handler` up to the call of the C++ function. -/
def interruptFrame (eip number : Word) (m : Processor) : Processor :=
  let m := m.enterInterrupt eip
  let m := m.pushes [0, number, m.cpu.regs.eax]
  m.saveRegs

/-- `iretd`, in the kernel -/
def iretd (m : Processor) : Processor :=
  let m := m.pops [Cpu.setEip, Cpu.setCs, Cpu.setEflags]
  if m.cpu.User then
    let esp := m.stack.top
    let m := { m with esp := m.stack.drop.sp }.pops [Cpu.setSs]
    { m with esp := esp }
  else m

/-- The pops of `asm_enter_task`. -/
def popRegs (m : Processor) : Processor :=
  let m := m.pops [Cpu.setEax]
  let m := { m with cpu := m.cpu.setCr3 m.cpu.regs.eax }
  m.pops [Cpu.setEbp, Cpu.setEdi, Cpu.setEsi, Cpu.setEdx, Cpu.setEcx, Cpu.setEbx, Cpu.setEax]

/-- `asm_enter_task` -/
def asmEnterTask (stack : Word) (m : Processor) : Processor :=
  let m := { m with esp := stack }.popRegs
  { m with esp := m.esp + 8 }.iretd

/-- `enter_task` -/
def enterTask (stack : Word) (m : Processor) : Processor :=
  { m with esp0 := stack + sizeofInterruptArgs }.asmEnterTask stack

end Processor

/-- `create_kernel_stack`, on the stack that `kmem_alloc_8k` has returned. -/
def createKernelStack (taskWrapper main cr3 : Word) (stack : Nat) (m : ByteMem) : Nat × ByteMem :=
  let m := m.store32 stack 0
  let info := stack + 8192 - 52 - 4 - 4
  let m := m.fill info 0 52
  let m := m.store32 info cr3.toNat
  let m := m.store32 (info + 40) taskWrapper.toNat
  let m := m.store32 (info + 52 + 4) main.toNat
  (info, m.store32 (info + 44) kernelCs.toNat)

/-! ## Frames -/

/-- The words of an `interrupt_args`, and behind it what an interrupt in user mode has pushed. -/
def frame (number error : Word) (c : Cpu) (esp : Word) : List Word :=
  [c.cr3, c.regs.ebp, c.regs.edi, c.regs.esi, c.regs.edx, c.regs.ecx, c.regs.ebx, c.regs.eax,
    number, error, c.eip, c.cs, c.eflags] ++ if c.User then [esp, c.ss] else []

namespace Processor

variable {m : Processor} {l w : List Word} {k : List (Word → Cpu → Cpu)}

/-- What a list of pops does to the processor. -/
def loaded (c : Cpu) : List (Word → Cpu → Cpu) → List Word → Cpu
  | f :: fs, w :: ws => loaded (f w c) fs ws
  | _, _ => c

/-- The pops take the words that are on the stack. -/
theorem pops_eq (h : m.mem.Words m.esp.toNat (l ++ w)) (hlength : k.length = l.length)
    (hesp : m.esp.toNat + 4 * l.length < 2 ^ 32) :
    ∃ esp : Word, m.pops k = { m with cpu := loaded m.cpu k l, esp := esp } ∧
      esp.toNat = m.esp.toNat + 4 * l.length ∧ m.mem.Words esp.toNat w := by
  induction l generalizing m k with
  | nil =>
    obtain rfl := List.length_eq_zero_iff.1 hlength
    exact ⟨m.esp, rfl, rfl, h⟩
  | cons v l ih =>
    obtain ⟨f, k, rfl⟩ := List.exists_cons_of_length_pos
      (by rw [hlength]; exact Nat.succ_pos _ : 0 < k.length)
    simp only [List.length_cons, Nat.succ_inj] at hesp hlength
    have htop : m.stack.top = v := WordStack.top_of_words (s := m.stack) h
    have hroom : m.esp.toNat + 4 < 2 ^ 32 := by omega
    have hdrop : m.stack.drop.sp.toNat = m.esp.toNat + 4 := WordStack.toNat_add_four hroom
    have hwords : m.mem.Words m.stack.drop.sp.toNat (l ++ w) :=
      WordStack.words_drop (s := m.stack) h hroom
    have hroom' : m.stack.drop.sp.toNat + 4 * l.length < 2 ^ 32 := by omega
    obtain ⟨esp, he, htoNat, hrest⟩ := ih
      (m := { m with cpu := f v m.cpu, esp := m.stack.drop.sp }) (k := k) hwords hlength hroom'
    refine ⟨esp, ?_, ?_, hrest⟩
    · rw [pops, htop, he, loaded]
    · have hstep : esp.toNat = m.stack.drop.sp.toNat + 4 * l.length := htoNat
      rw [List.length_cons]
      omega

/-- What comes back from a frame. In the kernel `ss` stays. -/
def restored (m : Processor) (stack : Word) (c : Cpu) (esp : Word) : Processor where
  cpu := { c with ss := if c.User then c.ss else m.cpu.ss }
  esp := if c.User then esp else stack + sizeofInterruptArgs
  mem := m.mem
  esp0 := stack + sizeofInterruptArgs

theorem popRegs_eq {r : Regs} (cr3 : Word)
    (h : m.mem.Words m.esp.toNat ([cr3, r.ebp, r.edi, r.esi, r.edx, r.ecx, r.ebx, r.eax] ++ w))
    (hesp : m.esp.toNat + 32 < 2 ^ 32) :
    ∃ esp : Word, m.popRegs = { m with cpu := { m.cpu with regs := r, cr3 := cr3 }, esp := esp } ∧
      esp.toNat = m.esp.toNat + 32 ∧ m.mem.Words esp.toNat w := by
  obtain ⟨a, he, ha, hwords⟩ := pops_eq (m := m) (k := [Cpu.setEax]) (l := [cr3]) h rfl
    (show m.esp.toNat + 4 * 1 < 2 ^ 32 by omega)
  have ha' : a.toNat = m.esp.toNat + 4 := ha
  have hroom : a.toNat + 4 * 7 < 2 ^ 32 := by omega
  obtain ⟨b, he', hb, hwords'⟩ :=
    pops_eq (m := { m with cpu := (m.cpu.setEax cr3).setCr3 cr3, esp := a })
    (k := [Cpu.setEbp, Cpu.setEdi, Cpu.setEsi, Cpu.setEdx, Cpu.setEcx, Cpu.setEbx, Cpu.setEax])
    (l := [r.ebp, r.edi, r.esi, r.edx, r.ecx, r.ebx, r.eax]) hwords rfl hroom
  have hb' : b.toNat = a.toNat + 28 := hb
  refine ⟨b, ?_, by omega, hwords'⟩
  rw [popRegs, he]
  exact he'

theorem iretd_eq {c : Cpu} (esp : Word)
    (h : m.mem.Words m.esp.toNat ([c.eip, c.cs, c.eflags] ++ if c.User then [esp, c.ss] else []))
    (hesp : m.esp.toNat + 20 < 2 ^ 32) :
    m.iretd = { m with
      cpu := { m.cpu with
        eip := c.eip, cs := c.cs, eflags := c.eflags, ss := if c.User then c.ss else m.cpu.ss }
      esp := if c.User then esp else m.esp + 12 } := by
  obtain ⟨a, he, ha, hwords⟩ := pops_eq (m := m) (k := [Cpu.setEip, Cpu.setCs, Cpu.setEflags])
    (l := [c.eip, c.cs, c.eflags]) h rfl (show m.esp.toNat + 4 * 3 < 2 ^ 32 by omega)
  have ha' : a.toNat = m.esp.toNat + 12 := ha
  dsimp only [iretd]
  rw [he]
  have hcpu : loaded m.cpu [Cpu.setEip, Cpu.setCs, Cpu.setEflags] [c.eip, c.cs, c.eflags] =
      { m.cpu with eip := c.eip, cs := c.cs, eflags := c.eflags } := rfl
  rw [hcpu]
  by_cases hu : c.User
  · have hu' : Cpu.User { m.cpu with eip := c.eip, cs := c.cs, eflags := c.eflags } := hu
    rw [if_pos hu] at hwords
    rw [if_pos hu', if_pos hu, if_pos hu]
    have htop := WordStack.top_of_words (s := ⟨m.mem, a⟩) hwords
    have hroom : a.toNat + 4 < 2 ^ 32 := by omega
    have hdrop : (a + 4).toNat = a.toNat + 4 := WordStack.toNat_add_four hroom
    have hrest := WordStack.words_drop (s := ⟨m.mem, a⟩) hwords hroom
    obtain ⟨b, hb, -⟩ := pops_eq (m := { m with
        cpu := { m.cpu with eip := c.eip, cs := c.cs, eflags := c.eflags }, esp := a + 4 })
      (k := [Cpu.setSs]) (l := [c.ss]) (w := []) hrest rfl
      (show (a + 4).toNat + 4 * 1 < 2 ^ 32 by omega)
    dsimp only [stack, WordStack.drop]
    rw [hb]
    exact congrArg (fun e : Word => Processor.mk _ e _ _) htop
  · have hnot : ¬ Cpu.User { m.cpu with eip := c.eip, cs := c.cs, eflags := c.eflags } := hu
    rw [if_neg hnot, if_neg hu, if_neg hu]
    have hae : a = m.esp + 12 := by
      apply BitVec.eq_of_toNat_eq
      rw [ha', BitVec.toNat_add]
      exact (Nat.mod_eq_of_lt (show m.esp.toNat + 12 < 2 ^ 32 by omega)).symm
    rw [hae]

theorem enterTask_frame {stack number error esp : Word} {c : Cpu}
    (h : m.mem.Words stack.toNat (frame number error c esp)) (hroom : stack.toNat + 60 < 2 ^ 32) :
    m.enterTask stack = m.restored stack c esp := by
  obtain ⟨a, ha, htoNat, hwords⟩ := popRegs_eq (m := { m with
    esp0 := stack + sizeofInterruptArgs, esp := stack }) (r := c.regs) c.cr3 h
    (show stack.toNat + 32 < 2 ^ 32 by omega)
  have htoNat' : a.toNat = stack.toNat + 32 := htoNat
  have ha8 : a + 8 = stack + 40 := by
    apply BitVec.eq_of_toNat_eq
    rw [BitVec.toNat_add, BitVec.toNat_add, htoNat']
    rfl
  have hskip : m.mem.Words (a + 8).toNat
      ([c.eip, c.cs, c.eflags] ++ if c.User then [esp, c.ss] else []) := by
    have he : (a + 8).toNat = a.toNat + 4 + 4 := by
      rw [BitVec.toNat_add]
      exact Nat.mod_eq_of_lt (show a.toNat + 8 < 2 ^ 32 by omega)
    rw [he]
    exact hwords.2.2
  have hroom' : (a + 8).toNat + 20 < 2 ^ 32 := by
    have he : (a + 8).toNat = a.toNat + 8 :=
      (BitVec.toNat_add ..).trans (Nat.mod_eq_of_lt (show a.toNat + 8 < 2 ^ 32 by omega))
    omega
  have hiretd := iretd_eq (m := { m with
    cpu := { m.cpu with regs := c.regs, cr3 := c.cr3 }, esp0 :=
    stack + sizeofInterruptArgs, esp := a + 8 })
    esp hskip hroom'
  rw [enterTask, asmEnterTask, ha]
  dsimp only at hiretd ⊢
  rw [hiretd, restored, ha8]
  have hsum : stack + 40 + 12 = stack + sizeofInterruptArgs := by
    rw [BitVec.add_assoc]
    rfl
  rw [hsum]

theorem pushes_eq (hesp : 4 * l.length ≤ m.esp.toNat) (h : m.mem.Words m.esp.toNat w) :
    ∃ (mem : ByteMem) (esp : Word), m.pushes l = { m with mem := mem, esp := esp } ∧
      esp.toNat = m.esp.toNat - 4 * l.length ∧ mem.Words esp.toNat (l.reverse ++ w) ∧
      ∀ x, x < esp.toNat ∨ m.esp.toNat ≤ x → mem x = m.mem x := by
  obtain ⟨hsp, hwords, hout⟩ := WordStack.pushes_spec (s := m.stack) hesp h
  have hsp' : (m.stack.pushes l).sp.toNat = m.esp.toNat - 4 * l.length := hsp
  refine ⟨_, _, rfl, hsp', ?_, fun x hx => hout x ?_⟩
  · rw [hsp']
    exact hwords
  · rwa [hsp'] at hx

/-- The place of `eip` is filled. -/
theorem getEip_eq (label0 label1 : Word) {v₀ v₁ v₂ v₃ : Word} (hesp : 4 ≤ m.esp.toNat)
    (hroom : m.esp.toNat + 16 < 2 ^ 32) (h : m.mem.Words m.esp.toNat ([v₀, v₁, v₂] ++ v₃ :: w)) :
    ∃ mem : ByteMem, m.getEip label0 label1 = { m with cpu := m.cpu.setEax label1, mem := mem } ∧
      mem.Words m.esp.toNat ([v₀, v₁, v₂] ++ label1 :: w) ∧
      ∀ x, x < m.esp.toNat - 4 ∨ m.esp.toNat + 16 ≤ x → mem x = m.mem x := by
  obtain ⟨mem₁, a, he, ha, hw, hout⟩ := pushes_eq (l := [label0]) hesp h
  have ha' : a.toNat = m.esp.toNat - 4 := ha
  obtain ⟨b, he', hb, hw'⟩ := pops_eq (m := { m with mem := mem₁, esp := a }) (k := [Cpu.setEax])
    (l := [label0]) hw rfl (show a.toNat + 4 * 1 < 2 ^ 32 by omega)
  have hb' : b.toNat = a.toNat + 4 := hb
  obtain rfl : b = m.esp := BitVec.eq_of_toNat_eq (by omega)
  have h12 : (m.esp + 12).toNat = m.esp.toNat + 4 * 3 := by
    rw [BitVec.toNat_add]
    exact Nat.mod_eq_of_lt (show m.esp.toNat + 12 < 2 ^ 32 by omega)
  have hsum : label0 + (label1 - label0) = label1 := by
    rw [BitVec.add_comm, BitVec.sub_add_cancel]
  have hcpu : (loaded m.cpu [Cpu.setEax] [label0]).setEax
      ((loaded m.cpu [Cpu.setEax] [label0]).regs.eax + (label1 - label0)) = m.cpu.setEax label1 :=
    congrArg (fun w => m.cpu.setEax w) hsum
  refine ⟨mem₁.store32 (m.esp.toNat + 4 * 3) label1.toNat, ?_, hw'.set (u := [v₀, v₁, v₂]),
    fun x hx => ?_⟩
  · dsimp only [getEip]
    rw [he, he']
    dsimp only
    rw [hcpu, h12]
    rfl
  · rw [ByteMem.store32_of_out (by omega)]
    exact hout x (by omega)

theorem saveRegs_eq (hesp : 28 ≤ m.esp.toNat) (h : m.mem.Words m.esp.toNat w) :
    ∃ (mem : ByteMem) (esp : Word),
      m.saveRegs = { m with cpu := m.cpu.setEax m.cpu.cr3, mem := mem, esp := esp } ∧
      esp.toNat = m.esp.toNat - 28 ∧
      mem.Words esp.toNat
      ([m.cpu.cr3, m.cpu.regs.ebp, m.cpu.regs.edi, m.cpu.regs.esi, m.cpu.regs.edx,
        m.cpu.regs.ecx, m.cpu.regs.ebx] ++ w) ∧
      ∀ x, x < esp.toNat ∨ m.esp.toNat ≤ x → mem x = m.mem x := by
  obtain ⟨mem₁, a, he, ha, hw, hout⟩ := pushes_eq (m := m) (l := [m.cpu.regs.ebx, m.cpu.regs.ecx,
    m.cpu.regs.edx, m.cpu.regs.esi, m.cpu.regs.edi, m.cpu.regs.ebp])
    (show 4 * 6 ≤ m.esp.toNat by omega) h
  have ha' : a.toNat = m.esp.toNat - 24 := ha
  obtain ⟨mem₂, b, he', hb, hw', hout'⟩ := pushes_eq
    (m := { m with cpu := m.cpu.setEax m.cpu.cr3, mem := mem₁, esp := a }) (l := [m.cpu.cr3])
    (show 4 * 1 ≤ a.toNat by omega) hw
  have hb' : b.toNat = a.toNat - 4 := hb
  refine ⟨mem₂, b, ?_, by omega, hw', fun x hx => ?_⟩
  · dsimp only [saveRegs]
    rw [he]
    exact he'
  · have h₂ := hout' x (show x < b.toNat ∨ a.toNat ≤ x by omega)
    have h₁ := hout x (show x < a.toNat ∨ m.esp.toNat ≤ x by omega)
    exact h₂.trans h₁

/-- The processor that comes back from a `yield`. -/
def yielded (label1 : Word) (c : Cpu) : Cpu :=
  { c with eip := label1, cs := kernelCs, eflags := c.cli.pushedFlags }

theorem not_user_of_cs {c : Cpu} (h : c.cs = kernelCs) : ¬ c.User := by
  rw [Cpu.User, h]
  decide

/-- `yield` leaves a frame below the stack pointer. -/
theorem yieldFrame_spec (label0 label1 : Word) (hroom : 52 ≤ m.esp.toNat) :
    (m.yieldFrame label0 label1).esp.toNat = m.esp.toNat - 52 ∧
    (m.yieldFrame label0 label1).mem.Words (m.esp.toNat - 52)
      (frame 0 0 (yielded label1 m.cpu) m.esp) ∧
    (m.yieldFrame label0 label1).esp0 = m.esp0 ∧
    ∀ x, x < m.esp.toNat - 52 ∨ m.esp.toNat ≤ x →
      (m.yieldFrame label0 label1).mem x = m.mem x := by
  have hlt := m.esp.isLt
  have hnil : m.mem.Words m.esp.toNat [] := trivial
  obtain ⟨mem₁, a, he₁, ha, hw₁, ho₁⟩ := pushes_eq (m := { m with cpu := m.cpu.cli })
    (l := [m.cpu.cli.pushedFlags, kernelCs, 0, 0, 0, m.cpu.cli.regs.eax])
    (show 4 * 6 ≤ m.esp.toNat by omega) hnil
  have ha' : a.toNat = m.esp.toNat - 24 := ha
  obtain ⟨mem₂, he₂, hw₂, ho₂⟩ := getEip_eq (m := ⟨m.cpu.cli, a, mem₁, m.esp0⟩) label0 label1
    (show 4 ≤ a.toNat by omega) (show a.toNat + 16 < 2 ^ 32 by omega) hw₁
  obtain ⟨mem₃, b, he₃, hb, hw₃, ho₃⟩ := saveRegs_eq
    (m := ⟨m.cpu.cli.setEax label1, a, mem₂, m.esp0⟩) (show 28 ≤ a.toNat by omega) hw₂
  have hb' : b.toNat = a.toNat - 28 := hb
  have hesp : b.toNat = m.esp.toNat - 52 := by omega
  have hframe : m.yieldFrame label0 label1 = ⟨m.cpu.cli.setEax m.cpu.cr3, b, mem₃, m.esp0⟩ := by
    dsimp only [yieldFrame]
    rw [he₁]
    dsimp only
    rw [he₂]
    exact he₃
  rw [hframe, ← hesp]
  refine ⟨rfl, ?_, rfl, fun x hx => ?_⟩
  · rw [frame, if_neg (not_user_of_cs rfl), List.append_nil]
    exact hw₃
  · have h₃ := ho₃ x (show x < b.toNat ∨ a.toNat ≤ x by omega)
    have h₂ := ho₂ x (show x < a.toNat - 4 ∨ a.toNat + 16 ≤ x by omega)
    have h₁ := ho₁ x (show x < a.toNat ∨ m.esp.toNat ≤ x by omega)
    exact (h₃.trans h₂).trans h₁

/-- Where the stack is when an interrupt pushes its frame. -/
def interruptTop (m : Processor) : Word := if m.cpu.User then m.esp0 else m.esp

/-- The bytes of the frame of an interrupt. -/
def frameSize (c : Cpu) : Nat := if c.User then 60 else 52

/-- What the processor pushes at an interrupt. -/
theorem enterInterrupt_eq (eip : Word) (hroom : frameSize m.cpu ≤ m.interruptTop.toNat) :
    ∃ (c : Cpu) (mem : ByteMem) (esp : Word),
      m.enterInterrupt eip = { m with cpu := c, mem := mem, esp := esp } ∧
      c.regs = m.cpu.regs ∧ c.cr3 = m.cpu.cr3 ∧
      esp.toNat = m.interruptTop.toNat - (frameSize m.cpu - 40) ∧
      mem.Words esp.toNat ([m.cpu.eip, m.cpu.cs, m.cpu.eflags] ++
        if m.cpu.User then [m.esp, m.cpu.ss] else []) ∧
      ∀ x, x < esp.toNat ∨ m.interruptTop.toNat ≤ x → mem x = m.mem x := by
  by_cases hu : m.cpu.User
  · rw [interruptTop, frameSize, if_pos hu, if_pos hu] at hroom ⊢
    have hnil : m.mem.Words m.esp0.toNat [] := trivial
    obtain ⟨mem₁, a, he₁, ha, hw₁, ho₁⟩ := pushes_eq
      (m := { m with cpu := { m.cpu with ss := kernelSs }, esp := m.esp0 }) (l := [m.cpu.ss, m.esp])
      (show 4 * 2 ≤ m.esp0.toNat by omega) hnil
    have ha' : a.toNat = m.esp0.toNat - 8 := ha
    obtain ⟨mem₂, b, he₂, hb, hw₂, ho₂⟩ := pushes_eq
      (m := ⟨{ m.cpu with ss := kernelSs }, a, mem₁, m.esp0⟩)
      (l := [m.cpu.eflags, m.cpu.cs, m.cpu.eip]) (show 4 * 3 ≤ a.toNat by omega) hw₁
    have hb' : b.toNat = a.toNat - 12 := hb
    refine ⟨{ Cpu.cli { m.cpu with ss := kernelSs } with cs := kernelCs, eip := eip },
      mem₂, b, ?_, rfl,
      rfl, by omega, ?_, fun x hx => ?_⟩
    · dsimp only [enterInterrupt]
      rw [if_pos hu, he₁, he₂]
    · rw [if_pos hu]
      exact hw₂
    · have h₂ := ho₂ x (show x < b.toNat ∨ a.toNat ≤ x by omega)
      have h₁ := ho₁ x (show x < a.toNat ∨ m.esp0.toNat ≤ x by omega)
      exact h₂.trans h₁
  · rw [interruptTop, frameSize, if_neg hu, if_neg hu] at hroom ⊢
    have hnil : m.mem.Words m.esp.toNat [] := trivial
    obtain ⟨mem, a, he, ha, hw, ho⟩ := pushes_eq (m := m)
      (l := [m.cpu.eflags, m.cpu.cs, m.cpu.eip]) (show 4 * 3 ≤ m.esp.toNat by omega) hnil
    refine ⟨{ m.cpu.cli with cs := kernelCs, eip := eip }, mem, a, ?_, rfl, rfl, ha, ?_, ho⟩
    · dsimp only [enterInterrupt]
      rw [if_neg hu, he]
    · rw [if_neg hu]
      exact hw

/-- An interrupt leaves a frame below the stack pointer, in user mode below `esp0`. -/
theorem interruptFrame_spec (eip number : Word) (hroom : frameSize m.cpu ≤ m.interruptTop.toNat) :
    (m.interruptFrame eip number).esp.toNat = m.interruptTop.toNat - frameSize m.cpu ∧
    (m.interruptFrame eip number).mem.Words (m.interruptTop.toNat - frameSize m.cpu)
      (frame number 0 m.cpu m.esp) ∧
    (m.interruptFrame eip number).esp0 = m.esp0 ∧
    ∀ x, x < m.interruptTop.toNat - frameSize m.cpu ∨ m.interruptTop.toNat ≤ x →
      (m.interruptFrame eip number).mem x = m.mem x := by
  have hsize : 40 ≤ frameSize m.cpu := by
    rw [frameSize]
    split <;> omega
  obtain ⟨c, mem₁, a, he₁, hregs, hcr3, ha, hw₁, ho₁⟩ := enterInterrupt_eq eip hroom
  obtain ⟨mem₂, b, he₂, hb, hw₂, ho₂⟩ := pushes_eq (m := ⟨c, a, mem₁, m.esp0⟩)
    (l := [0, number, c.regs.eax]) (show 4 * 3 ≤ a.toNat by omega) hw₁
  have hb' : b.toNat = a.toNat - 12 := hb
  obtain ⟨mem₃, d, he₃, hd, hw₃, ho₃⟩ := saveRegs_eq (m := ⟨c, b, mem₂, m.esp0⟩)
    (show 28 ≤ b.toNat by omega) hw₂
  have hd' : d.toNat = b.toNat - 28 := hd
  have hesp : d.toNat = m.interruptTop.toNat - frameSize m.cpu := by omega
  have hframe : m.interruptFrame eip number = ⟨c.setEax c.cr3, d, mem₃, m.esp0⟩ := by
    dsimp only [interruptFrame]
    rw [he₁]
    dsimp only
    rw [he₂]
    exact he₃
  rw [hframe, ← hesp]
  refine ⟨rfl, ?_, rfl, fun x hx => ?_⟩
  · rw [frame, ← hregs, ← hcr3]
    exact hw₃
  · have h₃ := ho₃ x (show x < d.toNat ∨ b.toNat ≤ x by omega)
    have h₂ := ho₂ x (show x < b.toNat ∨ a.toNat ≤ x by omega)
    have h₁ := ho₁ x (show x < a.toNat ∨ m.interruptTop.toNat ≤ x by omega)
    exact (h₃.trans h₂).trans h₁

end Processor

/-- The processor that enters a new task. -/
def created (taskWrapper cr3 : Word) : Cpu where
  regs := ⟨0, 0, 0, 0, 0, 0, 0⟩
  eip := taskWrapper
  cs := kernelCs
  ss := kernelSs
  eflags := 0
  cr3 := cr3

theorem createKernelStack_spec (taskWrapper main cr3 esp : Word) (stack : Nat) (m : ByteMem) :
    (createKernelStack taskWrapper main cr3 stack m).2.Words
      (createKernelStack taskWrapper main cr3 stack m).1 (frame 0 0 (created taskWrapper cr3) esp) ∧
    ∀ x, x < stack ∨ stack + 8192 ≤ x →
      (createKernelStack taskWrapper main cr3 stack m).2 x = m x := by
  refine ⟨?_, fun x hx => ?_⟩
  · rw [frame, if_neg (Processor.not_user_of_cs rfl), List.append_nil]
    have hzero : ((m.store32 stack 0).fill (stack + 8192 - 52 - 4 - 4) 0 52).Words
        (stack + 8192 - 52 - 4 - 4) (List.replicate 13 0) := ByteMem.words_fill_zero (by omega)
    have hcr3 := hzero.set (u := []) (v := 0) (w := cr3)
    have heip := hcr3.set (u := [cr3, 0, 0, 0, 0, 0, 0, 0, 0, 0]) (v := 0) (w := taskWrapper)
    have hmain := heip.store_out (b := stack + 8192 - 52 - 4 - 4 + 52 + 4) (w := main)
      (Or.inr (show _ + 4 * 13 ≤ _ by omega))
    exact hmain.set (u := [cr3, 0, 0, 0, 0, 0, 0, 0, 0, 0, taskWrapper]) (v := 0) (w := kernelCs)
  · dsimp only [createKernelStack]
    rw [ByteMem.store32_of_out (by omega), ByteMem.store32_of_out (by omega),
      ByteMem.store32_of_out (by omega), ByteMem.store32_of_out (by omega),
      ByteMem.fill_of_out (by omega), ByteMem.store32_of_out (by omega)]

end TinyLittleOs.Scheduler
