import TinyLittleOs.Interrupts.Delivery

/-!
# Into the kernel and back

The stubs and the common part of `interrupt_handlers.s`. However the processor came to a stub, the
handler is called with the state of the program that was interrupted, and the program goes on in
that state.
-/

namespace TinyLittleOs.Interrupts

open Lib Scheduler

/-- The vectors with an `isr_err_stub`. -/
def errStubs : List Nat := [8, 10, 11, 12, 13, 14, 17, 21, 29, 30]

/-- A stub, and `common_interrupt_handler` up to the call. -/
def entry (v : Nat) (m : Processor) : Processor :=
  let m := m.pushes ((if v ∈ errStubs then [] else [0]) ++ [BitVec.ofNat 32 v, m.cpu.regs.eax])
  m.saveRegs

/-- `common_interrupt_handler` behind the call. -/
def interruptReturn (m : Processor) : Processor :=
  let m := m.popRegs
  { m with esp := m.esp + 8 }.iretd

/-- The exceptions for which the processor pushes an error code. -/
def hasErrorCode (v : Nat) : Prop := v ∈ [8, 10, 11, 12, 13, 14, 17, 21, 29, 30]

/-- What can interrupt a program: devices, whose vectors are behind those of the processor,
exceptions, and `int` in user mode. The kernel has no `int` of its own. -/
def Arises (m : Processor) : Cause → Prop
  | .external v => 32 ≤ v
  | .software _ => m.cpu.User
  | .exception v e => v < 32 ∧ (e.isSome ↔ hasErrorCode v)

/-- What a C++ function that is called leaves alone: the stack pointers, and the frame of the
interrupt. -/
structure Ran (m n : Processor) (size : Nat) : Prop where
  esp : n.esp = m.esp
  esp0 : n.esp0 = m.esp0
  ss : n.cpu.ss = m.cpu.ss
  mem : ∀ x, m.esp.toNat ≤ x → x < m.esp.toNat + size → n.mem x = m.mem x

section Frames

variable {m n : Processor} {c : Cause} {eip : Word}

/-- A frame with any error code. -/
theorem pushed_frame (number error : Word)
    (hroom : Processor.frameSize m.cpu ≤ m.interruptTop.toNat)
    {f : Processor}
    (hf : f = ((m.enterInterrupt eip).pushes [error, number, m.cpu.regs.eax]).saveRegs) :
    f.esp.toNat = m.interruptTop.toNat - Processor.frameSize m.cpu ∧
    f.mem.Words f.esp.toNat (frame number error m.cpu m.esp) ∧ f.esp0 = m.esp0 ∧
    (¬ m.cpu.User → f.cpu.ss = m.cpu.ss) ∧
    ∀ x, x < m.interruptTop.toNat - Processor.frameSize m.cpu ∨ m.interruptTop.toNat ≤ x →
    f.mem x = m.mem x := by
  have hsize : 40 ≤ Processor.frameSize m.cpu := by
    rw [Processor.frameSize]
    split <;> omega
  have hss (hu : ¬ m.cpu.User) : (m.enterInterrupt eip).cpu.ss = m.cpu.ss := by
    rw [Processor.enterInterrupt]
    dsimp only
    rw [if_neg hu]
    rfl
  obtain ⟨cpu, mem₁, a, he₁, hregs, hcr3, ha, hw₁, ho₁⟩ := Processor.enterInterrupt_eq eip hroom
  rw [he₁] at hf hss
  obtain ⟨mem₂, b, he₂, hb, hw₂, ho₂⟩ := Processor.pushes_eq (m := ⟨cpu, a, mem₁, m.esp0⟩)
    (l := [error, number, m.cpu.regs.eax]) (show 4 * 3 ≤ a.toNat by omega) hw₁
  have hb' : b.toNat = a.toNat - 12 := hb
  obtain ⟨mem₃, d, he₃, hd, hw₃, ho₃⟩ := Processor.saveRegs_eq (m := ⟨cpu, b, mem₂, m.esp0⟩)
    (show 28 ≤ b.toNat by omega) hw₂
  have hd' : d.toNat = b.toNat - 28 := hd
  have hframe : f = ⟨cpu.setEax cpu.cr3, d, mem₃, m.esp0⟩ := by
    rw [hf, he₂]
    exact he₃
  rw [hframe]
  refine ⟨by dsimp only; omega, ?_, rfl, hss, fun x hx => ?_⟩
  · rw [frame, ← hregs, ← hcr3]
    rw [← hregs] at hw₃
    exact hw₃
  · have h₃ := ho₃ x (show x < d.toNat ∨ b.toNat ≤ x by omega)
    have h₂ := ho₂ x (show x < b.toNat ∨ a.toNat ≤ x by omega)
    have h₁ := ho₁ x (show x < a.toNat ∨ m.interruptTop.toNat ≤ x by omega)
    exact (h₃.trans h₂).trans h₁

/-- A stub makes up for the error code that the processor does not push. -/
theorem entry_eq (eip : Word) (herror : c.error.isSome ↔ c.vector ∈ errStubs) :
    entry c.vector ((m.enterInterrupt eip).pushes (c.error.toList.map (BitVec.ofNat 32))) =
      ((m.enterInterrupt eip).pushes
        [BitVec.ofNat 32 (c.error.getD 0), BitVec.ofNat 32 c.vector, m.cpu.regs.eax]).saveRegs := by
  have hregs : (m.enterInterrupt eip).cpu.regs = m.cpu.regs := by
    rw [Processor.enterInterrupt]
    dsimp only
    split <;> rfl
  have happend (l l' : List Word) (k : Processor) : (k.pushes l).pushes l' =
      k.pushes (l ++ l') := by
    rw [Processor.pushes, Processor.pushes, Processor.pushes, Processor.stack, Processor.stack,
      WordStack.pushes, WordStack.pushes, WordStack.pushes, List.foldl_append]
  have heax : ((m.enterInterrupt eip).pushes (c.error.toList.map (BitVec.ofNat 32))).cpu.regs.eax =
      m.cpu.regs.eax := congrArg Regs.eax hregs
  rw [entry, heax, happend]
  cases herr : c.error with
  | none =>
    have hnot : c.vector ∉ errStubs := by simpa [herr] using herror.not
    rw [if_neg hnot]
    rfl
  | some e =>
    have hin : c.vector ∈ errStubs := by simpa [herr] using herror
    rw [if_pos hin]
    rfl

/-- What is popped from a frame. -/
theorem interruptReturn_frame {number error esp : Word} {cpu : Cpu}
    (h : m.mem.Words m.esp.toNat (frame number error cpu esp)) (hroom : m.esp.toNat + 60 < 2 ^ 32) :
    interruptReturn m = { m with
      cpu := { cpu with ss := if cpu.User then cpu.ss else m.cpu.ss }
      esp := if cpu.User then esp else m.esp + 52 } := by
  obtain ⟨a, ha, htoNat, hwords⟩ := Processor.popRegs_eq (r := cpu.regs) cpu.cr3 h (by omega)
  have ha8 : a + 8 = m.esp + 40 := by
    apply BitVec.eq_of_toNat_eq
    rw [BitVec.toNat_add, BitVec.toNat_add, htoNat]
    rfl
  have htoNat' : (a + 8).toNat = a.toNat + 8 :=
    (BitVec.toNat_add ..).trans (Nat.mod_eq_of_lt (show a.toNat + 8 < 2 ^ 32 by omega))
  have hskip : m.mem.Words (a + 8).toNat
      ([cpu.eip, cpu.cs, cpu.eflags] ++ if cpu.User then [esp, cpu.ss] else []) := by
    rw [htoNat']
    exact hwords.2.2
  have hsum : m.esp + 40 + 12 = m.esp + 52 := by
    rw [BitVec.add_assoc]
    rfl
  have hiretd := Processor.iretd_eq
    (m := { m with cpu := { m.cpu with regs := cpu.regs, cr3 := cpu.cr3 }, esp := a + 8 }) esp hskip
    (show (a + 8).toNat + 20 < 2 ^ 32 by omega)
  rw [interruptReturn, ha]
  dsimp only at hiretd ⊢
  rw [hiretd, ha8, hsum]

end Frames

/-! ## Every interrupt -/

/-- The processor is at the stub of its vector in the kernel, with interrupts disabled, and the
handler is called with the state of `m`. When it comes back, `m` goes on. -/
structure Enters (isr : Nat → Word) (m : Processor) (c : Cause) (m₁ : Processor) : Prop where
  eip : m₁.cpu.eip = isr c.vector
  kernel : ¬ m₁.cpu.User
  disabled : m₁.cpu.interruptFlag = false
  args : (entry c.vector m₁).mem.Words (entry c.vector m₁).esp.toNat
    (frame (BitVec.ofNat 32 c.vector) (BitVec.ofNat 32 (c.error.getD 0)) m.cpu m.esp)
  mem : ∀ x, x < m.interruptTop.toNat - Processor.frameSize m.cpu ∨ m.interruptTop.toNat ≤ x →
    (entry c.vector m₁).mem x = m.mem x
  resumes : ∀ n, Ran (entry c.vector m₁) n (Processor.frameSize m.cpu) →
    interruptReturn n = { m with mem := n.mem }

section Enters

variable {isr : Nat → Word} {m : Processor} {c : Cause}

theorem length_words {number error : Word} :
    4 * (frame number error m.cpu m.esp).length = Processor.frameSize m.cpu := by
  rw [frame, Processor.frameSize]
  split <;> rfl

theorem enterInterrupt_enters (herror : c.error.isSome ↔ c.vector ∈ errStubs)
    (hroom : Processor.frameSize m.cpu ≤ m.interruptTop.toNat)
    (htop : m.interruptTop.toNat + 8 < 2 ^ 32) :
    Enters isr m c
    ((m.enterInterrupt (isr c.vector)).pushes (c.error.toList.map (BitVec.ofNat 32))) := by
  have hkernel : (m.enterInterrupt (isr c.vector)).cpu.cs = kernelCs := by
    rw [Processor.enterInterrupt]
  have hflag : (m.enterInterrupt (isr c.vector)).cpu.interruptFlag = false := by
    rw [Processor.enterInterrupt, Cpu.interruptFlag, Cpu.cli]
    simp
  have heq := entry_eq (m := m) (isr c.vector) herror
  generalize hf : entry c.vector
    ((m.enterInterrupt (isr c.vector)).pushes (c.error.toList.map (BitVec.ofNat 32))) = f at heq
  obtain ⟨hesp, hargs, hesp0, hss, hmem⟩ := pushed_frame _ _ hroom heq
  have hsize : 52 ≤ Processor.frameSize m.cpu ∧ Processor.frameSize m.cpu ≤ 60 := by
    rw [Processor.frameSize]
    split <;> omega
  refine ⟨?_, Processor.not_user_of_cs hkernel, hflag, by rw [hf]; exact hargs, by
    rw [hf]; exact hmem,
    fun n hn => ?_⟩
  · have heip : (m.enterInterrupt (isr c.vector)).cpu.eip = isr c.vector := by
      rw [Processor.enterInterrupt]
    exact heip
  · rw [hf] at hn
    have hwords : n.mem.Words n.esp.toNat (frame (BitVec.ofNat 32 c.vector)
        (BitVec.ofNat 32 (c.error.getD 0)) m.cpu m.esp) := by
      rw [hn.esp]
      refine hargs.congr fun x hx hx' => hn.mem x hx ?_
      rwa [length_words] at hx'
    have hroom' : n.esp.toNat + 60 < 2 ^ 32 := by
      rw [hn.esp, hesp]
      omega
    rw [interruptReturn_frame hwords hroom', hn.esp0, hesp0, hn.esp, hn.ss]
    by_cases hu : m.cpu.User
    · rw [if_pos hu, if_pos hu]
    · rw [if_neg hu, if_neg hu, hss hu]
      have hback : f.esp + 52 = m.esp := by
        apply BitVec.eq_of_toNat_eq
        rw [Processor.interruptTop, Processor.frameSize, if_neg hu, if_neg hu] at hesp hroom
        rw [Processor.interruptTop, if_neg hu] at htop
        rw [BitVec.toNat_add, hesp]
        exact (Nat.mod_eq_of_lt
          (show _ < 2 ^ 32 by have : (52 : Word).toNat = 52 := rfl; omega)).trans
          (Nat.sub_add_cancel hroom)
      rw [hback]

/-- The stubs know for which vectors the processor pushes an error code. -/
theorem Arises.error_iff (harises : Arises m c) (hallowed : Allowed c m) :
    c.error.isSome ↔ c.vector ∈ errStubs := by
  cases c with
  | external v =>
    have hv : v < 48 ∨ v = 128 := by
      rcases hallowed with h | ⟨h, -⟩
      · exact Or.inr h
      · exact Or.inl h
    have hlo : 32 ≤ v := harises
    have hnot : v ∉ errStubs := by
      simp only [errStubs, List.mem_cons, List.not_mem_nil, or_false]
      omega
    exact ⟨fun h => absurd h Bool.false_ne_true, fun h => absurd h hnot⟩
  | software v =>
    have hv : v = 128 := by
      rcases hallowed with h | ⟨-, h⟩
      · exact h
      · exact absurd ⟨rfl, harises⟩ h
    subst hv
    decide
  | exception v e => exact harises.2

/-- Whatever interrupts a program, it comes to the stub of its vector or, where the kernel has no
gate for it, to that of a general protection exception, and the program goes on behind it. -/
theorem interrupt_enters (isr : Nat → Word) {tssAddr : Nat} (htss : tssAddr < 2 ^ 32)
    (hring : InRing m) (harises : Arises m c)
    (hroom : Processor.frameSize m.cpu ≤ m.interruptTop.toNat)
    (htop : m.interruptTop.toNat + 8 < 2 ^ 32) :
    ∃ c' m₁, interrupt (kernelTables isr tssAddr) c m = .ok (c', m₁) ∧
      c' = (if c.vector = 128 ∨ c.vector < 48 ∧ ¬ (c.isSoftware ∧ m.cpu.User) then c
        else .exception 13 (some (c.vector * 8 + 2 + c.ext))) ∧
      m₁ = ((resumeAt c' m).enterInterrupt (isr c'.vector)).pushes
      (c'.error.toList.map (BitVec.ofNat 32)) ∧
      Enters isr (resumeAt c' m) c' m₁ := by
  by_cases hallowed : Allowed c m
  · have hdeliver := deliver_allowed isr htss hring hallowed
    refine ⟨c, _, by rw [interrupt, hdeliver], (if_pos hallowed).symm, rfl, ?_⟩
    have hsame : (resumeAt c m).interruptTop = m.interruptTop ∧
        Processor.frameSize (resumeAt c m).cpu = Processor.frameSize m.cpu := by
      rw [resumeAt]
      split <;> exact ⟨rfl, rfl⟩
    apply enterInterrupt_enters (harises.error_iff hallowed)
    · rw [hsame.2, hsame.1]
      exact hroom
    · rw [hsame.1]
      exact htop
  · have hrefused := deliver_refused isr tssAddr hallowed
    let f : Cause := .exception 13 (some (c.vector * 8 + 2 + c.ext))
    have hf : Allowed f m := Or.inr ⟨show 13 < 48 by decide, fun h => by cases h.1⟩
    have hdeliver := deliver_allowed isr htss hring hf
    have hinterrupt : interrupt (kernelTables isr tssAddr) c m = .ok (f,
        (m.enterInterrupt (isr f.vector)).pushes (f.error.toList.map (BitVec.ofNat 32))) := by
      rw [interrupt, hrefused]
      dsimp only
      rw [hdeliver]
      rfl
    refine ⟨f, _, hinterrupt, (if_neg hallowed).symm, rfl, ?_⟩
    exact enterInterrupt_enters ⟨fun _ => show 13 ∈ errStubs by decide, fun _ => rfl⟩ hroom htop

end Enters

end TinyLittleOs.Interrupts
