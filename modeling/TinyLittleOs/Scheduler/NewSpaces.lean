import TinyLittleOs.Scheduler.Isolation

/-!
# The address space of a new task

A new address space has no table in the user half. Until the task maps pages there is nothing there.
-/

namespace TinyLittleOs.Scheduler

open Lib Memory Memory.Machine Relation

/-- The directory in page `q` has no table in the user half. -/
def Bare (s : Machine) (q : Nat) : Prop :=
  ∀ i, System.UserIndex i → tablePage (s.pages q i) = none

namespace System

variable {c : System} {U K : List Block} {s' : Machine} {p : Nat}

theorem Inv.bare_alloc (h : c.Inv U K) {n : BlockSize}
    (hs : c.machine.kmemAlloc n = .ok (p, s')) {q : Nat}
    (hq : q ∈ c.dirs) (hb : Bare c.machine q) : Bare s' q := by
  intro i hi
  obtain ⟨x, T, hf⟩ := (kmemAlloc_fetched h.tracked h.paged n).of_ok hs
  by_contra hne
  have hchange : s'.pages q i ≠ c.machine.pages q i := by
    intro heq
    rw [heq] at hne
    exact hne (hb i hi)
  obtain ⟨virt, hgrowth, rfl⟩ := hf.maps.entries q hq i hchange
  have hkernel := hgrowth.kernelAt hf.tracked hf.maps.base
  have hhi := hkernel.2
  have hlt := hi.lt (by omega)
  have hlo := hkernel.1
  omega

theorem newPageDirectory_bare (h : c.Inv U K) (hp : c.Private) {cr3 : Nat}
    (hs : c.machine.newPageDirectory = .ok (cr3, s')) : Bare s' (cr3 / 4096) := by
  obtain ⟨p, s₁, halloc, rfl, rfl⟩ := h.newPageDirectory_eq_ok.1 hs
  have hfirst := h.bare_alloc halloc (Or.inl rfl) hp.first
  obtain ⟨x, T, hinv, hsee, -⟩ := h.fetched halloc
  have hptr := pagePtr_see hinv.tracked (show x ∈ U ++ x :: (T ++ K) by simp)
  dsimp only at hptr
  rw [hsee] at hptr
  have hfrom : fromKmem p = 4096 * (fromKmem p / 4096) := by
    have hlo := hptr.lo
    have halign := hptr.aligned
    unfold fromKmem
    dsimp only at hlo halign
    omega
  have hdir : s₁.firstPageDirectory = c.machine.firstPageDirectory := by
    obtain ⟨x, T, hf⟩ := (kmemAlloc_fetched h.tracked h.paged .k4).of_ok halloc
    exact hf.maps.dir
  intro i hi
  have hlayout := hinv.tracked.toLayout
  dsimp only at hlayout
  rw [pages_memcpy hfrom hlayout.dirPage.2.2, Function.update_self, hdir]
  exact hfirst i hi

theorem wrapperBegin_bare (h : c.Inv U K) (ht : (c.machine.cr3, none) ∈ c.tasks)
    (hb : Bare c.machine (c.machine.cr3 / 4096))
    (hs : Kernel.wrapperBegin c.machine = .ok (p, s')) :
    Bare s' (c.machine.cr3 / 4096) := by
  rw [Kernel.wrapperBegin, kmemAlloc4k] at hs
  obtain ⟨⟨q, s₁⟩, halloc, hs⟩ := bind_eq_ok.1 hs
  dsimp only at hs
  obtain ⟨rfl, hs'⟩ := Prod.mk.inj (Except.ok.inj hs)
  have hold := h.bare_alloc halloc (h.mem_dirs ht) hb
  obtain ⟨x, T, hinv, hsee, hfresh, hcr3⟩ := h.fetched halloc
  have hsize : x.size = .k4 := congrArg Prod.fst hsee
  have hp : q = (see s₁ x).2 := congrArg Prod.snd hsee.symm
  have hsame : (s₁.memset q 0 4096).cr3 = c.machine.cr3 := by
    rw [memset]
    exact hcr3
  rw [Nat.or_assoc, hsame] at hs'
  obtain ⟨-, hmaps, -⟩ := hinv.newTable_maps hsize (page_holds hsize hfresh) hp ht hs'.symm
  intro i hi
  by_contra hne
  have hchange : s'.pages (c.machine.cr3 / 4096) i ≠ s₁.pages (c.machine.cr3 / 4096) i := by
    intro heq
    rw [heq] at hne
    exact hne (hold i hi)
  obtain ⟨virt, ⟨-, rfl⟩, rfl⟩ := hmaps.entries _ (hinv.mem_dirs ht) i hchange
  exact absurd (hi.lt (by decide)) (by decide)

/-- Nothing is mapped in the user half. -/
theorem Inv.translate_bare (h : c.Inv U K) (ht : (c.machine.cr3, some p) ∈ c.tasks)
    (hb : Bare c.machine (c.machine.cr3 / 4096)) {v : Nat} (hv : v < userTop) :
    c.machine.translate v = none := by
  obtain ⟨hptr, hno⟩ := h.dirPtr ht
  dsimp only at hptr hno
  have hindex : UserIndex (dirOf v) := by
    rw [userTop] at hv
    simp only [UserIndex, dirOf, Fin.val_ofNat]
    omega
  rw [translate_eq hptr (Nat.lt_trans hv (by decide)), hno, PageMem.walk_of_none (hb _ hindex),
    if_pos (Nat.zero_and present)]

/-- A page can be mapped there when the table for it can be allocated. -/
theorem Inv.mapUserPage_bare (h : c.Inv U K) (ht : (c.machine.cr3, some p) ∈ c.tasks)
    (hb : Bare c.machine (c.machine.cr3 / 4096)) {virt : Nat} (hmod : virt % 4096 = 0)
    (hvirt : virt < userTop) {q : Nat} {s₁ : Machine}
    (halloc : c.machine.kmemAlloc .k4 = .ok (q, s₁))
    (phys : Nat) (writable : Bool) :
    ∃ s', Scheduler.mapUserPage virt phys writable c.machine = .ok s' ∧
      s' = { s₁ with mem := s'.mem } := by
  obtain ⟨hptr, hno⟩ := h.dirPtr ht
  dsimp only at hptr hno
  have hlt : virt < 2 ^ 32 := Nat.lt_trans hvirt (by decide)
  have hindex : UserIndex (dirOf virt) := by
    rw [userTop] at hvirt
    simp only [UserIndex, dirOf, Fin.val_ofNat]
    omega
  have habsent (t : Machine) (ht : tablePage (t.pages (c.machine.cr3 / 4096) (dirOf virt)) = none) :
      ¬ t.load (toVirt c.machine.cr3 + 4 * (virt >>> 22)) &&& present ≠ 0 := by
    rw [load_dir hptr t hlt, hno]
    exact not_not_intro (tablePage_eq_none.1 ht)
  have hmask : ¬ virt &&& 0xFFF ≠ 0 := by
    rw [Nat.and_two_pow_sub_one_eq_mod virt 12]
    omega
  have hb₁ := h.bare_alloc halloc (h.mem_dirs ht) hb
  refine ⟨((s₁.memset q 0 4096).store (toVirt c.machine.cr3 + 4 * (virt >>> 22))
    (fromKmem q ||| (prwr ||| user))).store (q + 4 * (virt >>> 12 &&& 0x03FF))
    (userEntry phys writable),
    mapUserPage_eq_ok.2 ?_, by rw [store, store, memset]⟩
  rw [Machine.mapPage, if_neg hmask]
  dsimp only
  rw [if_neg (habsent _ (hb _ hindex)), kmemAlloc4k, halloc, ok_bind]
  dsimp only
  rw [if_neg (habsent _ (hb₁ _ hindex))]
  rfl

end System

/-! ## A small machine -/

namespace UserSystem

/-- kmem of the small machine after `i` pages are taken. -/
def smallKmem : Nat → Kmem
  | 0 => Client.smallKmem
  | i + 1 => (smallKmem i).allocAt .k4 0 (i + 1)

set_option maxRecDepth 4000 in
theorem smallKmem_free {i : Nat} (hi : i < 7) : ((smallKmem i).links .k4).next none = some 0 ∧
    (smallKmem i).findFree .k4 0 = .ok (i + 1) := by
  have hall : ∀ i < 7, ((smallKmem i).links .k4).next none = some 0 ∧
      ((smallKmem i).findFree .k4 0).toOption = some (i + 1) := by
    decide +kernel
  exact ⟨(hall i hi).1, eq_ok_of_toOption (hall i hi).2⟩

/-- The small machine, after `i` pages of kmem and `j` pages of hmem are taken. -/
structure Small (m : UserSystem) (i j : Nat) : Prop where
  fromBoot : m.FromBoot
  kmem : m.machine.kmem = smallKmem i
  kmemPhysEnd : m.machine.kmemPhysEnd = 0x1A8000
  hmemPhysEnd : m.machine.hmemPhysEnd = 0x210000 - 4096 * j

/-- A page of kmem is taken and memory is written. -/
def Takes (s : Machine) (i : Nat) (s' : Machine) : Prop :=
  s' = { s with kmem := s.kmem.allocAt .k4 0 i, mem := s'.mem }

section Small

variable {c : System} {held : List Nat} {taken : List (Nat × Nat)} {i j : Nat}
  (h : Small ⟨c, held, taken⟩ i j)
include h

theorem Small.alloc (hi : i < 7) :
    ∃ p s', c.machine.kmemAlloc .k4 = .ok (p, s') ∧ Takes c.machine (i + 1) s' := by
  have hkmem : c.machine.kmem = smallKmem i := h.kmem
  obtain ⟨hhead, hfind⟩ := smallKmem_free hi
  rw [← hkmem] at hhead hfind
  refine ⟨_, _, kmemAllocFuel_of_head 1 hhead hfind, ?_⟩
  rw [Takes, Machine.take, memset]

/-- A step of the kernel that takes a page. -/
theorem Small.kernelStep {c' : System} (hs : System.KernelStep c c')
    (htake : Takes c.machine (i + 1) c'.machine)
    (hj : j ≤ 100) :
    Step none ⟨c, held, taken⟩ ⟨c', held, taken⟩ ∧ Small ⟨c', held, taken⟩ (i + 1) j := by
  have hend : c.machine.kmemPhysEnd = 0x1A8000 := h.kmemPhysEnd
  have hhend : c.machine.hmemPhysEnd = 0x210000 - 4096 * j := h.hmemPhysEnd
  have hkmem : c.machine.kmem = smallKmem i := h.kmem
  rw [Takes] at htake
  have hglob : c'.machine.kmem = smallKmem (i + 1) ∧ c'.machine.kmemPhysEnd = 0x1A8000 ∧
      c'.machine.hmemPhysEnd = 0x210000 - 4096 * j := by
    rw [htake]
    exact ⟨by rw [hkmem, smallKmem], hend, hhend⟩
  have hstep : Step none ⟨c, held, taken⟩ ⟨c', held, taken⟩ := .kernel hs (by omega)
  exact ⟨hstep, h.fromBoot.run (.single ⟨none, hstep⟩), hglob.1, hglob.2.1, hglob.2.2⟩

/-- A task is entered. -/
theorem Small.enter {t : Nat × Option Nat} (ht : t ∈ c.tasks) (hj : j ≤ 100) : ∃ s',
    Step none ⟨c, held, taken⟩ ⟨{ c with machine := s' }, held, taken⟩ ∧
      Small ⟨{ c with machine := s' }, held, taken⟩ i j ∧
      s' = { c.machine with cr3 := t.1, hmemEnd := 0 } := by
  have hend : c.machine.kmemPhysEnd = 0x1A8000 := h.kmemPhysEnd
  have hhend : c.machine.hmemPhysEnd = 0x210000 - 4096 * j := h.hmemPhysEnd
  have hk : System.KernelStep c { c with machine := { c.machine with cr3 := t.1, hmemEnd := 0 } } :=
    .enter ht
  obtain ⟨s', hs'⟩ : ∃ s', s' = { c.machine with cr3 := t.1, hmemEnd := 0 } := ⟨_, rfl⟩
  rw [← hs'] at hk
  have hsame : s'.kmem = c.machine.kmem ∧ s'.kmemPhysEnd = c.machine.kmemPhysEnd ∧
      s'.hmemPhysEnd = c.machine.hmemPhysEnd := by
    rw [hs']
    exact ⟨rfl, rfl, rfl⟩
  obtain ⟨hkmem, hend', hhend'⟩ := hsame
  have hstep : Step none ⟨c, held, taken⟩ ⟨{ c with machine := s' }, held, taken⟩ :=
    .kernel hk (by dsimp only; omega)
  exact ⟨s', hstep, ⟨h.fromBoot.run (.single ⟨none, hstep⟩), hkmem.trans h.kmem, hend'.trans hend,
    hhend'.trans hhend⟩, hs'⟩

end Small

theorem stepBeside_of_none {m m' : UserSystem} {t : Nat} (hs : Step none m m')
    (ht : t ∈ m'.spaceIds) :
    StepBeside t m m' := by
  refine ⟨ht, none, ?_, hs⟩
  intro heq
  cases heq

theorem small_init : ∃ m : UserSystem, Small m 0 0 ∧ m.system.tasks = [] := by
  obtain ⟨s, hs, htrace⟩ := Client.smallBoot_init
  have hpos : Client.smallKmem.buddyArrayPos = 1 := by decide +kernel
  have hend := htrace.physEnd
  rw [hpos] at hend
  have hfits : Client.smallBoot.buddyMemoryEndPhys + 2 ^ 19 ≤ 0x100000 +
      Client.smallBoot.ramAmount := by
    decide +kernel
  refine ⟨⟨⟨s, [], [], []⟩, [], []⟩, ⟨?_, htrace.kmem, hend, htrace.hmemPhysEnd⟩, rfl⟩
  exact ⟨_, s, Client.smallBoot_booted, by decide, hfits, hs, .refl⟩

/-- The task `cr3` of the small machine is new: it runs, and the others did not notice. -/
structure NewTask (m m' : UserSystem) (cr3 : Nat) : Prop where
  current : m'.machine.cr3 = cr3
  tasks : ∃ p, m'.system.tasks = (cr3, some p) :: m.system.tasks
  bare : Bare m'.machine (cr3 / 4096)
  beside : ∀ t ∈ m.spaceIds, ReflTransGen (StepBeside t) m m'

section Small

variable {c : System} {held : List Nat} {taken : List (Nat × Nat)} {i j : Nat}
  (h : Small ⟨c, held, taken⟩ i j) (hi : i < 7) (hj : j ≤ 100)
include h hi hj

theorem Small.newDirectory : ∃ cr3 s',
    Step none ⟨c, held, taken⟩ ⟨⟨s', c.held, (cr3, none) :: c.tasks, c.ended⟩, held, taken⟩ ∧
      Small ⟨⟨s', c.held, (cr3, none) :: c.tasks, c.ended⟩, held, taken⟩ (i + 1) j ∧
      Bare s' (cr3 / 4096) := by
  obtain ⟨U, K, free, hinv⟩ := h.fromBoot.inv
  obtain ⟨p, s₁, halloc, htake⟩ := h.alloc hi
  obtain ⟨s₂, hs₂⟩ : ∃ s₂, s₂ = s₁.memcpy p s₁.firstPageDirectory 4096 := ⟨_, rfl⟩
  have hnew : c.machine.newPageDirectory = .ok (fromKmem p, s₂) :=
    hinv.hmem.system.newPageDirectory_eq_ok.2 ⟨p, s₁, halloc, rfl, hs₂⟩
  have htake₂ : Takes c.machine (i + 1) s₂ := by
    rw [Takes] at htake ⊢
    rw [hs₂, memcpy, htake]
  have hk : System.KernelStep c ⟨s₂, c.held, (fromKmem p, none) :: c.tasks, c.ended⟩ :=
    .newPageDirectory hnew
  obtain ⟨hstep, hsmall⟩ := h.kernelStep hk htake₂ hj
  exact ⟨fromKmem p, s₂, hstep, hsmall,
    System.newPageDirectory_bare hinv.hmem.system hinv.isPrivate hnew⟩

/-- The current task creates its last table. -/
theorem Small.lastTable {tasks : List (Nat × Option Nat)}
    (htasks : c.tasks = (c.machine.cr3, none) :: tasks)
    (hbare : Bare c.machine (c.machine.cr3 / 4096)) : ∃ q s',
    Step none ⟨c, held, taken⟩
        ⟨⟨s', c.held, (c.machine.cr3, some q) :: tasks, c.ended⟩, held, taken⟩ ∧
      Small ⟨⟨s', c.held, (c.machine.cr3, some q) :: tasks, c.ended⟩, held, taken⟩ (i + 1) j ∧
      s'.cr3 = c.machine.cr3 ∧ Bare s' (c.machine.cr3 / 4096) := by
  obtain ⟨U, K, free, hinv⟩ := h.fromBoot.inv
  obtain ⟨q, s₄, halloc, htake⟩ := h.alloc hi
  obtain ⟨s₅, hbegin, hs₅⟩ : ∃ s₅, Kernel.wrapperBegin c.machine = .ok (q, s₅) ∧
      s₅ = { s₄ with mem := s₅.mem } := by
    rw [Kernel.wrapperBegin, kmemAlloc4k, halloc]
    exact ⟨_, rfl, by rw [store, memset]⟩
  have hnone : (c.machine.cr3, none) ∈ c.tasks := by
    rw [htasks]
    exact List.mem_cons_self
  have hbare₅ := System.wrapperBegin_bare hinv.hmem.system hnone hbare hbegin
  have htake₅ : Takes c.machine (i + 1) s₅ := by
    rw [Takes] at htake ⊢
    rw [hs₅, htake]
  obtain ⟨s, live, tasks', ended⟩ := c
  dsimp only at *
  subst htasks
  have hk : System.KernelStep ⟨s, live, [] ++ (s.cr3, none) :: tasks, ended⟩
      ⟨s₅, live, [] ++ (s.cr3, some q) :: tasks, ended⟩ := .wrapperBegin hbegin
  obtain ⟨hstep, hsmall⟩ := h.kernelStep hk htake₅ hj
  exact ⟨q, s₅, hstep, hsmall, by rw [htake₅], hbare₅⟩

end Small

/-- A task gets its directory, is entered and gets its last table. -/
theorem Small.newTask {m : UserSystem} {i j : Nat} (h : Small m i j) (hi : i + 2 < 7)
    (hj : j ≤ 100) : ∃ m' cr3, Small m' (i + 2) j ∧ NewTask m m' cr3 := by
  obtain ⟨c, held, taken⟩ := m
  obtain ⟨cr3, s₂, hstep₁, h₁, hbare⟩ := h.newDirectory (by omega) hj
  obtain ⟨s₃, hstep₂, h₂, hs₃⟩ := h₁.enter List.mem_cons_self hj
  have hcr3 : s₃.cr3 = cr3 := by rw [hs₃]
  have hbare₃ : Bare s₃ (cr3 / 4096) := by
    have hpages : s₃.pages = s₂.pages := by
      funext q k
      rw [pages, pages, hs₃]
    intro k hk
    rw [hpages]
    exact hbare k hk
  obtain ⟨q, s₅, hstep₃, h₃, hcr3₅, hbare₅⟩ := h₂.lastTable (by omega) hj
    (show (cr3, none) :: c.tasks = (s₃.cr3, none) :: c.tasks by rw [hcr3]) (hcr3.symm ▸ hbare₃)
  dsimp only at hcr3₅ hbare₅ hstep₃ h₃
  rw [hcr3] at hcr3₅ hbare₅ hstep₃ h₃
  refine ⟨_, cr3, h₃, hcr3₅, ⟨q, rfl⟩, hbare₅, fun t ht => ?_⟩
  have hin : t ∈ cr3 :: c.spaceIds := List.mem_cons_of_mem _ ht
  exact .head (stepBeside_of_none hstep₁ hin)
    (.head (stepBeside_of_none hstep₂ hin) (.single (stepBeside_of_none hstep₃ hin)))

/-- The task that runs on the small machine has mapped nothing. -/
structure SmallFresh (m : UserSystem) (i j : Nat) : Prop extends Small m i j where
  current : ∃ p, (m.machine.cr3, some p) ∈ m.system.tasks
  bare : Bare m.machine (m.machine.cr3 / 4096)

theorem Small.fresh {m m' : UserSystem} {i j cr3 : Nat} (h : Small m' i j) (hn : NewTask m m' cr3) :
    SmallFresh m' i j := by
  obtain ⟨p, htasks⟩ := hn.tasks
  have hcr3 := hn.current
  refine ⟨h, ⟨p, ?_⟩, ?_⟩
  · rw [htasks, hcr3]
    exact List.mem_cons_self
  · rw [hcr3]
    exact hn.bare

theorem SmallFresh.running {m : UserSystem} {i j : Nat} (h : SmallFresh m i j) :
    HmemSystem.Running ⟨m.system, m.held, []⟩ := h.fromBoot.running h.current

theorem smallFresh_exists : ∃ m : UserSystem, SmallFresh m 2 0 := by
  obtain ⟨m, h, -⟩ := small_init
  obtain ⟨m', cr3, h', hn⟩ := h.newTask (by decide) (by decide)
  exact ⟨m', h'.fresh hn⟩

end UserSystem

end TinyLittleOs.Scheduler
