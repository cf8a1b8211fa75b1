import TinyLittleOs.Scheduler.UserPages

/-!
# Runs with both heaps

The kernel runs with its address spaces and with pages of hmem that are allocated and freed. In such
runs, as long as tasks map pages in the user half only, kmem does not grow into hmem, and free pages
are not written, both invariants hold.
-/

namespace TinyLittleOs.Scheduler

open Lib Memory Memory.Machine Relation

/-- The system, the pages of hmem that are allocated, and all pages that were ever freed. -/
structure HmemSystem where
  system : System
  held : List Nat
  freed : List Nat

namespace HmemSystem

def machine (w : HmemSystem) : Machine := w.system.machine

/-- The current task has its last page table. -/
def Current (w : HmemSystem) : Prop := ∃ p, (w.system.machine.cr3, some p) ∈ w.system.tasks

inductive Step : HmemSystem → HmemSystem → Prop
  /-- The kernel leaves hmem alone. -/
  | kernel {c c' : System} {held freed : List Nat} :
      System.Step System.userTop c c' → c'.machine.hmemPhysEnd = c.machine.hmemPhysEnd →
      c'.machine.hmemPhysList = c.machine.hmemPhysList →
      c'.machine.kmemPhysEnd ≤ c'.machine.hmemPhysEnd →
      (∀ q ∈ freed, q ∉ held → c'.machine.mem.load32 q = c.machine.mem.load32 q) →
      Step ⟨c, held, freed⟩ ⟨c', held, freed⟩
  | alloc {c : System} {held freed : List Nat} {p q : Nat} {s' : Machine} :
      (c.machine.cr3, some p) ∈ c.tasks → c.machine.hmemAllocPage = .ok (q, s') →
      Step ⟨c, held, freed⟩ ⟨{ c with machine := s' }, q :: held, freed⟩
  /-- A page that is freed while the free list is empty starts with a null word. -/
  | free {c : System} {u v freed : List Nat} {p q : Nat} {s' : Machine} :
      (c.machine.cr3, some p) ∈ c.tasks →
        (c.machine.hmemPhysList = 0 → c.machine.mem.load32 q = 0) →
      c.machine.hmemFreePage q = .ok s' →
      Step ⟨c, u ++ q :: v, freed⟩ ⟨{ c with machine := s' }, u ++ v, q :: freed⟩

/-- Runs from the state that `init_page_allocator` leaves. -/
def Reachable (s : Machine) (w : HmemSystem) : Prop := ReflTransGen Step ⟨⟨s, [], [], []⟩, [], []⟩ w

/-- The invariants of the address spaces and of hmem. -/
structure Inv (w : HmemSystem) (U K : List Block) (free : List Nat) : Prop where
  system : w.system.Inv U K
  le : w.system.machine.kmemPhysEnd ≤ w.system.machine.hmemPhysEnd
  aligned : w.system.machine.hmemPhysEnd % 4096 = 0
  endLt : w.system.machine.hmemPhysEnd < 2 ^ 32
  chain : w.system.machine.mem.Chain w.system.machine.hmemPhysList free
  nodup : (free ++ w.held).Nodup
  page : ∀ q ∈ free ++ w.held, q % 4096 = 0 ∧ w.system.machine.hmemPhysEnd ≤ q ∧ q < 2 ^ 32
  freed : ∀ q ∈ free, q ∈ w.freed

section Inv

variable {w w' : HmemSystem} {c : System} {U K : List Block} {held freed free : List Nat} {p : Nat}

theorem Inv.pages (h : w.Inv U K free) (ht : (w.system.machine.cr3, some p) ∈ w.system.tasks) :
    Pages.Inv w.system.machine w.held w.freed free :=
  ⟨h.system.hmemMapped ht, h.le, h.aligned, h.endLt, h.chain, h.nodup, h.page, h.freed⟩

theorem inv_of_pages (h : c.Inv U K) (hh : Pages.Inv c.machine held freed free) :
    Inv ⟨c, held, freed⟩ U K free :=
  ⟨h, hh.le, hh.aligned, hh.endLt, hh.chain, hh.nodup, hh.page, hh.freed⟩

/-- A page is freed. -/
theorem free_system (h : c.Inv U K) (hh : Pages.Inv c.machine held freed free)
    (ht : (c.machine.cr3, some p) ∈ c.tasks) {q : Nat} (hq : q ∈ held) {s' : Machine}
    (hs : c.machine.hmemFreePage q = .ok s') : { c with machine := s' }.Inv U K := by
  obtain ⟨hmod, -, hlt⟩ := hh.page q (List.mem_append_right free hq)
  rw [hmemFreePage] at hs
  split_ifs at hs with hlo hnil
  · rw [← Except.ok.inj hs]
    exact h.regs rfl rfl rfl rfl rfl (Or.inl rfl)
  · obtain ⟨s₁, hs₁, hs⟩ := bind_eq_ok.1 hs
    have h₁ := h.hmemMap ht hlt hs₁
    obtain ⟨hh₁, -, -⟩ := (hh.hmemMap q).of_ok hs₁
    rw [Pages.hmemFrame_eq hmod] at hs
    let s₂ : Machine := { s₁ with mem := s₁.mem.store32 q s₁.hmemPhysList }
    have hw : ∀ x, ¬ System.InPages [q] x → s₂.mem x = s₁.mem x := by
      intro x hx
      apply ByteMem.store32_of_out
      by_contra hin
      exact hx ⟨q, List.mem_singleton_self q, by omega⟩
    have hs₂ : s₂ = { s₁ with mem := s₂.mem } := rfl
    obtain ⟨h₂, -, -, -⟩ := System.write_changes h₁ hh₁ hq hs₂ hw
    have hs' := Except.ok.inj hs
    rw [hmemUnmap] at hs'
    rw [← hs']
    exact h₂.regs rfl rfl rfl rfl rfl (Or.inl rfl)

theorem Inv.step (h : w.Inv U K free) (hs : Step w w') : ∃ U' K' free', w'.Inv U' K' free' := by
  cases hs with
  | kernel hstep hend hlist hle hfree =>
    obtain ⟨U', K', h'⟩ := h.system.step hstep
    refine ⟨U', K', free, h', hle, ?_, ?_, ?_, h.nodup, ?_, h.freed⟩
    · dsimp only
      rw [hend]
      exact h.aligned
    · dsimp only
      rw [hend]
      exact h.endLt
    · dsimp only
      rw [hlist]
      refine h.chain.congr fun q hq => hfree q (h.freed q hq) fun hheld => ?_
      exact (List.nodup_append.1 h.nodup).2.2 q hq q hheld rfl
    · dsimp only
      rw [hend]
      exact h.page
  | alloc ht halloc =>
    have hh := h.pages ht
    obtain ⟨h', -⟩ := System.hmemAllocPage_changes h.system hh ht halloc
    obtain ⟨⟨free', hh'⟩, -⟩ := hh.alloc.of_ok halloc
    exact ⟨U, K, free', inv_of_pages h' hh'⟩
  | free ht hnull hfree =>
    have hh := h.pages ht
    obtain ⟨free', hh'⟩ := (hh.free hnull).of_ok hfree
    exact ⟨U, K, free', inv_of_pages (free_system h.system hh ht (by simp) hfree) hh'⟩

/-- The start of a run. -/
theorem inv_of_init {s₀ s : Machine} (hb : s₀.Booted) (hram : 0x100000 + s₀.ramAmount < 2 ^ 32)
    (hfit : s₀.buddyMemoryEndPhys + 2 ^ 19 ≤ 0x100000 + s₀.ramAmount)
    (hs : s₀.initPageAllocator = .ok s) : ∃ K, Inv ⟨⟨s, [], [], []⟩, [], []⟩ [] K [] := by
  obtain ⟨K, hK⟩ := hb.ready_of_ok hs
  obtain ⟨L, hL⟩ := hb.initPageAllocator.of_ok hs
  have hend := hL.hmemPhysEnd
  rw [alignPageDown, Nat.mod_eq_of_lt hram, Nat.shiftLeft_eq, Nat.shiftRight_eq_div_pow] at hend
  refine ⟨K, System.inv_of_ready hK, (Heaps.Parted.start hb hL hram hfit).le, ?_, ?_,
    hL.hmemPhysList, ?_, ?_,
    ?_⟩
  · dsimp only
    omega
  · dsimp only
    omega
  · exact List.nodup_nil
  · intro q hq
    cases hq
  · intro q hq
    cases hq

end Inv

/-- A task with its last page table runs, in a state that the kernel can reach. -/
structure Running (w : HmemSystem) : Prop where
  reachable : ∃ s₀ s : Machine, s₀.Booted ∧ 0x100000 + s₀.ramAmount < 2 ^ 32 ∧
    s₀.buddyMemoryEndPhys + 2 ^ 19 ≤ 0x100000 + s₀.ramAmount ∧ s₀.initPageAllocator = .ok s ∧
    Reachable s w
  current : w.Current

theorem Inv.reachable {s : Machine} {w : HmemSystem} {K : List Block}
    (h : Inv ⟨⟨s, [], [], []⟩, [], []⟩ [] K []) (hr : Reachable s w) :
    ∃ U K free, w.Inv U K free := by
  induction hr with
  | refl => exact ⟨[], K, [], h⟩
  | tail _ hstep ih =>
    obtain ⟨U, K, free, ih⟩ := ih
    exact ih.step hstep

theorem Running.inv {w : HmemSystem} (h : w.Running) : ∃ U K free p, w.system.Inv U K ∧
    Pages.Inv w.system.machine w.held w.freed free ∧
    (w.system.machine.cr3, some p) ∈ w.system.tasks := by
  obtain ⟨s₀, s, hb, hram, hfit, hs, hr⟩ := h.reachable
  obtain ⟨p, hp⟩ := h.current
  obtain ⟨K, hK⟩ := inv_of_init hb hram hfit hs
  obtain ⟨U, K, free, hinv⟩ := hK.reachable hr
  exact ⟨U, K, free, p, hinv.system, hinv.pages hp, hp⟩

end HmemSystem

end TinyLittleOs.Scheduler
