import TinyLittleOs.Scheduler.ElfLoads

/-!
# The loader is one of the tasks

A file whose pages are in the user half is loaded in steps of the task that loads it: a page is
allocated, mapped, and its bytes are written. So whatever the file is, no other task notices.
-/

namespace TinyLittleOs.Scheduler

open Lib Memory Memory.Machine Relation

namespace UserSystem

/-- A step of `u`, or an allocation. -/
def StepOf (u : Nat) (m m' : UserSystem) : Prop :=
  m'.system.tasks = m.system.tasks ∧ m'.machine.cr3 = m.machine.cr3 ∧
    ∃ o, (o = none ∨ o = some u) ∧ Step o m m'

section StepOf

variable {m m' : UserSystem} {t u : Nat}

theorem anyStep_run (hr : ReflTransGen (StepOf u) m m') : ReflTransGen AnyStep m m' := by
  refine ReflTransGen.mono (fun _ _ hstep => ?_) _ _ hr
  obtain ⟨-, -, o, -, hstep⟩ := hstep
  exact ⟨o, hstep⟩

theorem stepOf_run (hr : ReflTransGen (StepOf u) m m') :
    m'.system.tasks = m.system.tasks ∧ m'.machine.cr3 = m.machine.cr3 := by
  induction hr with
  | refl => exact ⟨rfl, rfl⟩
  | tail _ hstep ih => exact ⟨hstep.1.trans ih.1, hstep.2.1.trans ih.2⟩

/-- Its steps are steps beside every other task. -/
theorem stepOf_beside (hr : ReflTransGen (StepOf u) m m') (ht : t ∈ m.spaceIds) (hne : t ≠ u) :
    ReflTransGen (StepBeside t) m m' := by
  induction hr with
  | refl => exact .refl
  | tail hbefore hstep ih =>
    apply ih.tail
    have htasks := (stepOf_run hbefore).1
    obtain ⟨htasks', -, o, ho, hstep⟩ := hstep
    refine ⟨?_, o, ?_, hstep⟩
    · rw [UserSystem.spaceIds, System.spaceIds, htasks', htasks]
      exact ht
    · rintro rfl
      rcases ho with ho | ho
      · cases ho
      · exact hne (Option.some.inj ho)

end StepOf

/-! ## One page -/

section Page

variable {c : System} {held : List Nat} {taken : List (Nat × Nat)} {U K : List Block}
  {free : List Nat}
  {p : Nat} {s' : Machine}

/-- Bytes are written one after another. -/
theorem putBytes_run (held : List Nat) (taken : List (Nat × Nat))
    (ht : (c.machine.cr3, some p) ∈ c.tasks) {virt : Nat} {l : List (BitVec 8)}
    (hv : virt + l.length ≤ 0xC0000000) (hs : putBytes virt l c.machine = .ok s') :
    ReflTransGen (StepOf c.machine.cr3) ⟨c, held, taken⟩
    ⟨{ c with machine := s' }, held, taken⟩ := by
  induction l generalizing c virt with
  | nil =>
    cases hs
    exact .refl
  | cons b l ih =>
    rw [List.length_cons] at hv
    rw [putBytes] at hs
    cases hat : c.machine.translate virt with
    | none =>
      rw [hat] at hs
      cases hs
    | some phys =>
      rw [hat] at hs
      dsimp only at hs
      have hwrite : Step (some c.machine.cr3) ⟨c, held, taken⟩
          ⟨{ c with machine := { c.machine with mem := c.machine.mem.store8 phys b } },
            held, taken⟩ :=
        .write ht (by omega) hat
      have hrest :=
        ih (c := { c with machine := { c.machine with mem := c.machine.mem.store8 phys b } }) ht
        (by omega) hs
      refine .head ?_ hrest
      exact ⟨rfl, rfl, _, Or.inr rfl, hwrite⟩

theorem fill_run (held : List Nat) (taken : List (Nat × Nat))
    (ht : (c.machine.cr3, some p) ∈ c.tasks) {content : List (BitVec 8)} {g : Page}
    (hg : g.virt + 4096 ≤ 0xC0000000) (hs : g.fill content c.machine = .ok s') :
    ReflTransGen (StepOf c.machine.cr3) ⟨c, held, taken⟩
    ⟨{ c with machine := s' }, held, taken⟩ := by
  obtain ⟨hmemset, hcnt, -⟩ := g.memsetAt_le
  have hlen := chunk_length content g.readPos g.readCnt
  rw [Page.fill] at hs
  obtain ⟨s₁, hs₁, hs⟩ := bind_eq_ok.1 hs
  have hread := putBytes_run held taken ht (by omega) hs₁
  split_ifs at hs with hfull
  · have hcr3 : s₁.cr3 = c.machine.cr3 := (stepOf_run hread).2
    have hzero := putBytes_run (c := { c with machine := s₁ }) (p := p) held taken
      (by rw [hcr3]; exact ht) (by rw [List.length_replicate]; omega) hs
    rw [hcr3] at hzero
    exact hread.trans hzero
  · cases hs
    exact hread

/-- A page is allocated, mapped and filled. -/
theorem load_run (h : Inv ⟨c, held, taken⟩ U K free) (ht : (c.machine.cr3, some p) ∈ c.tasks)
    {content : List (BitVec 8)} {g : Page} (hg : g.virt < System.userTop)
    (hnone : c.machine.translate g.virt = none) {q : Nat} {s₂ : Machine}
    (hmap : g.map c.machine = .ok (q, s₂)) (hle : s₂.kmemPhysEnd ≤ s₂.hmemPhysEnd)
    (hs : g.load content c.machine = .ok s') :
    ReflTransGen (StepOf c.machine.cr3) ⟨c, held, taken⟩
    ⟨{ c with machine := s' }, q :: held, taken⟩ := by
  rw [Page.load, hmap] at hs
  have hfill : g.fill content s₂ = .ok s' := hs
  rw [Page.map] at hmap
  obtain ⟨⟨q', s₁⟩, halloc, hmap⟩ := bind_eq_ok.1 hmap
  obtain ⟨s₂', hmapped, hpair⟩ := bind_eq_ok.1 hmap
  obtain ⟨rfl, rfl⟩ := Prod.mk.inj (Except.ok.inj hpair)
  rw [mapError_eq_ok] at halloc
  have hvirt := System.aligned_of_mapPage (System.mapUserPage_eq_ok.1 hmapped)
  have hg' : g.virt < 0xC0000000 := hg
  -- the page comes from hmem
  have h₁ : Step none ⟨c, held, taken⟩
      ⟨{ c with machine := s₁ }, q' :: held, (c.machine.cr3, q') :: taken⟩ :=
    .alloc ht halloc
  obtain ⟨U₁, K₁, free₁, hinv₁⟩ := (h.step h₁).inv
  obtain ⟨-, hc₁⟩ := System.hmemAllocPage_changes h.hmem.system (h.hmem.pages ht) ht halloc
  have hcr3 : s₁.cr3 = c.machine.cr3 := hc₁.cr3
  have ht₁ : (s₁.cr3, some p) ∈ c.tasks := by
    rw [hcr3]
    exact ht
  -- and is mapped
  have hnone₁ : s₁.translate g.virt = none :=
    (hc₁.translate_user h.hmem.system ht hg id).trans hnone
  have h₂ : Step (some s₁.cr3) ⟨{ c with machine := s₁ }, q' :: held, [] ++ (s₁.cr3, q') :: taken⟩
      ⟨{ c with machine := s₂' }, q' :: held, [] ++ taken⟩ :=
    .map (c := { c with machine := s₁ }) ht₁ hg hnone₁ hmapped hle
  have hq := (hinv₁.aligned (show q' ∈ q' :: held from List.mem_cons_self)).2.2
  obtain ⟨-, -, hc₂, -⟩ := System.mapUserPage_changes hinv₁.hmem.system ht₁ hg hq hmapped
  have hcr3' : s₂'.cr3 = c.machine.cr3 := hc₂.cr3.trans hcr3
  rw [hcr3] at h₂
  have hrun := fill_run (c := { c with machine := s₂' }) (p := p) (q' :: held) taken
    (by rw [hcr3']; exact ht) (by omega) hfill
  rw [hcr3'] at hrun
  have hstep₁ : StepOf c.machine.cr3 ⟨c, held, taken⟩
      ⟨{ c with machine := s₁ }, q' :: held, (c.machine.cr3, q') :: taken⟩ :=
        ⟨rfl, hcr3, _, Or.inl rfl, h₁⟩
  have hstep₂ :
      StepOf c.machine.cr3 ⟨{ c with machine := s₁ }, q' :: held, (c.machine.cr3, q') :: taken⟩
      ⟨{ c with machine := s₂' }, q' :: held, taken⟩ := ⟨rfl, hc₂.cr3, _, Or.inr rfl, h₂⟩
  exact .head hstep₁ (.head hstep₂ hrun)

end Page

/-! ## A file -/

/-- The pages of a plan are loaded in steps of the task. -/
theorem loadPages_run {m : UserSystem} {U K : List Block} {free : List Nat} {p : Nat}
    (h : m.Inv U K free)
    (ht : (m.machine.cr3, some p) ∈ m.system.tasks) {content : List (BitVec 8)} {l : List Page}
    (hl : ∀ g ∈ l, g.virt % 4096 = 0 ∧ g.virt < System.userTop ∧ m.machine.translate g.virt = none)
    (hnodup : (l.map Page.virt).Nodup) {t : Machine}
    (hagree : Agree {x | System.InPages m.held x} m.machine t) (hclear : Clear l t) {s' : Machine}
    (hs : loadPages content l m.machine = .ok s') : ∃ new,
      ReflTransGen
      (StepOf m.machine.cr3) m ⟨{ m.system with machine := s' }, new ++ m.held, m.taken⟩ := by
  induction l generalizing m U K free t with
  | nil =>
    cases hs
    exact ⟨[], .refl⟩
  | cons g l ih =>
    obtain ⟨-, hg, hnone⟩ := hl g List.mem_cons_self
    obtain ⟨hother, hnodup⟩ := List.nodup_cons.1 hnodup
    obtain ⟨c, held, taken⟩ := m
    have hrest : loadPages content (g :: l) c.machine =
        g.load content c.machine >>= loadPages content l :=
      List.foldlM_cons
    rw [machine] at hs ht hagree hnone
    dsimp only at hs ht hagree hnone ⊢
    rw [hrest] at hs
    obtain ⟨s₁, hs₁, hs⟩ := bind_eq_ok.1 hs
    have hload := hs₁
    rw [Page.load] at hload
    obtain ⟨⟨q, s₂⟩, hmap, -⟩ := bind_eq_ok.1 hload
    have hpages := h.hmem.pages ht
    have hlt : g.virt < 2 ^ 32 := Nat.lt_trans hg (by decide)
    obtain ⟨⟨q', t₂⟩, ht₂, hq, hagree₂⟩ :=
      (System.map_related h.hmem.system hpages ht hlt hagree).of_ok hmap
    dsimp only at hq hagree₂
    subst hq
    obtain ⟨hle, hclear₂⟩ := hclear q t₂ ht₂
    rw [hagree₂.kmemPhysEnd, hagree₂.hmemPhysEnd] at hle
    obtain ⟨s₁', hs₁', hloaded, hwritten⟩ :=
      System.load_loaded h.hmem.system hpages ht content hg hmap hle
    obtain rfl := Except.ok.inj (hs₁.symm.trans hs₁')
    have hrun := load_run h ht hg hnone hmap hle hs₁
    obtain ⟨htasks, hcr3⟩ := stepOf_run hrun
    obtain ⟨U₁, K₁, free₁, h₁⟩ := h.run (anyStep_run hrun)
    have hagree₁ : Agree {x | System.InPages (q :: held) x} s₁ t₂ := by
      apply (hwritten.symm.mono ?_).trans (hagree₂.mono ?_)
      · rintro x ⟨a, ha, hin⟩
        exact ⟨a, by simp [List.mem_singleton.1 ha], hin⟩
      · rintro x ⟨a, ha, hin⟩
        exact ⟨a, List.mem_cons_of_mem q ha, hin⟩
    have hcr3' : s₁.cr3 = c.machine.cr3 := hcr3
    have hrest' : ∀ g' ∈ l, g'.virt % 4096 = 0 ∧ g'.virt < System.userTop ∧
        s₁.translate g'.virt = none := by
      intro g' hg'
      obtain ⟨hmod, hlow, habsent⟩ := hl g' (List.mem_cons_of_mem g hg')
      refine ⟨hmod, hlow,
        (hloaded.changes.translate_user h.hmem.system ht hlow fun heq => ?_).trans habsent⟩
      have hpage : g'.virt / 4096 * 4096 = g'.virt := by omega
      exact hother ((hpage.symm.trans heq) ▸ List.mem_map_of_mem hg')
    obtain ⟨new, hnew⟩ :=
      ih (m := ⟨{ c with machine := s₁ }, q :: held, taken⟩) h₁ (by rw [hcr3]; exact ht)
      hrest' hnodup hagree₁ hclear₂ hs
    rw [hcr3] at hnew
    refine ⟨new ++ [q], ?_⟩
    rw [List.append_assoc]
    exact hrun.trans hnew

section Loader

variable {m : UserSystem} (hm : m.FromBoot) (ht : ∃ p, (m.machine.cr3, some p) ∈ m.system.tasks)
  {content : List (BitVec 8)} {ρ : Type} {f : FileDesc ρ} (hf : Serves content f)
  (hclear : ClearPlan content m.machine) (huser : UserPlan content m.machine) {fuel : Nat} {r : ρ}
  {e : Except Errno Unit} {entry : Option Nat} {w' : World ρ}
  (hload : loadElf f fuel ⟨m.machine, r, []⟩ = .ok (e, entry, w'))
include hm ht hf hclear huser hload

theorem loadElf_run : ∃ new,
    ReflTransGen
    (StepOf m.machine.cr3) m ⟨{ m.system with machine := w'.machine }, new ++ m.held, m.taken⟩ := by
  obtain ⟨l, b, hplan, hpages, -⟩ :=
    (loadElf_eq_ok hf fuel m.machine r e w'.machine).1 ⟨entry, w', hload, rfl⟩
  obtain ⟨U, K, free, h⟩ := hm.inv
  obtain ⟨p, hp⟩ := ht
  obtain ⟨hl, hnodup⟩ := huser fuel l b hplan
  exact loadPages_run h hp (fun g hg => ⟨(elfPlan_placed hplan g hg).2, hl g hg⟩) hnodup (.refl _ _)
    (hclear fuel l b hplan) hpages

/-- Whatever the loader returns, it has taken steps of the task that runs, and the other tasks see
in the user half what they saw. -/
theorem loadElf_apart : ∃ m' : UserSystem, m'.machine = w'.machine ∧ m'.FromBoot ∧
    ReflTransGen (StepOf m.machine.cr3) m m' ∧
    ∀ t ∈ m.spaceIds, t ≠ m.machine.cr3 → ∀ v < 0xC0000000,
      userByte m'.machine t v = userByte m.machine t v := by
  obtain ⟨new, hrun⟩ := loadElf_run hm ht hf hclear huser hload
  obtain ⟨U, K, free, h⟩ := hm.inv
  refine ⟨_, rfl, hm.run (anyStep_run hrun), hrun, fun t hin hne v hv => ?_⟩
  exact ((h.beside hin (stepOf_beside hrun hin hne)).2.2.2 v hv).1

end Loader

/-! ### Two tasks on the small machine -/

/-- The task that runs loads the file, with its byte at `a` afterwards. -/
structure SmallLoad (m m' : UserSystem) (a : Nat) : Prop where
  load : ∃ entry w', loadElf (limited twoBytes 100) 2 ⟨m.machine, (), []⟩ =
    .ok (.ok (), entry, w') ∧
    w'.machine = m'.machine
  run : ReflTransGen (StepOf m.machine.cr3) m m'
  translate : m'.machine.translate 0x08048000 = some a
  byte : m'.machine.mem a = 0x45

theorem SmallFresh.load {m : UserSystem} {i j : Nat} (h : SmallFresh m i j) (hi : i < 7)
    (hj : j ≤ 50) :
    ∃ m' a, SmallLoad m m' a ∧ Small m' (i + 1) (j + 1) := by
  have hserves : Serves twoBytes (limited twoBytes 100) := serves_limited _ (by decide)
  obtain ⟨hclear, huser, t, hmap, hkmem, hend, hhend⟩ := small_plan h hi hj
  obtain ⟨entry, w', hload⟩ := small_loads h hi hj
  obtain ⟨new, hrun⟩ := loadElf_run h.fromBoot h.current hserves hclear huser hload
  obtain ⟨l, b, new', t', hplan, -, hmap', -, hagree⟩ :=
    loadElf_loads h.running hserves hclear huser hload
  obtain ⟨a, ha, hbyte, -⟩ := loadElf_bytes h.running hserves hclear huser hload
    (p := twoBytesPhdr) (k := 0) (by rw [twoBytes_phdrs]; exact List.mem_cons_self) rfl (by decide)
  rw [twoBytes_plan] at hplan
  cases hplan
  obtain rfl := Except.ok.inj (hmap'.symm.trans hmap)
  have hsame : w'.machine.kmem = t'.kmem ∧ w'.machine.kmemPhysEnd = t'.kmemPhysEnd ∧
      w'.machine.hmemPhysEnd = t'.hmemPhysEnd := by
    rw [hagree.globals]
    exact ⟨rfl, rfl, rfl⟩
  obtain ⟨hkmem', hend', hhend'⟩ := hsame
  exact ⟨⟨{ m.system with machine := w'.machine }, new ++ m.held, m.taken⟩, a,
    ⟨⟨entry, w', hload, rfl⟩, hrun, ha, hbyte⟩, h.fromBoot.run (anyStep_run hrun),
    hkmem'.trans hkmem,
    hend'.trans hend, hhend'.trans hhend⟩

/-- The task `t` has loaded the file in `m₁`. In `m₂` another one is new, which has loaded it in
`m₃`. -/
structure SmallTwo (m₁ m₂ m₃ : UserSystem) (t a b : Nat) : Prop where
  boot : m₁.FromBoot
  first : t ∈ m₁.spaceIds
  translate : ({ m₁.machine with cr3 := t } : Machine).translate 0x08048000 = some a
  byte : userByte m₁.machine t 0x08048000 = some 0x45
  new : ReflTransGen (StepBeside t) m₁ m₂
  fresh : SmallFresh m₂ 5 1
  other : t ∈ m₂.spaceIds ∧ t ≠ m₂.machine.cr3
  second : SmallLoad m₂ m₃ b

theorem smallTwo_exists : ∃ m₁ m₂ m₃ t a b, SmallTwo m₁ m₂ m₃ t a b := by
  obtain ⟨m, hfresh⟩ := smallFresh_exists
  obtain ⟨m₁, a, hload, h₁⟩ := hfresh.load (by decide) (by decide)
  obtain ⟨htasks, hcr3⟩ := stepOf_run hload.run
  obtain ⟨m₂, cr3, h₂, hn⟩ := h₁.newTask (by decide) (by decide)
  have hfresh₂ := h₂.fresh hn
  obtain ⟨m₃, b, hload₂, -⟩ := hfresh₂.load (by decide) (by decide)
  have ht : m₁.machine.cr3 ∈ m₁.spaceIds := by
    obtain ⟨p, hp⟩ := hfresh.current
    rw [← htasks, ← hcr3] at hp
    exact List.mem_map_of_mem hp
  have htrans : ({ m₁.machine with cr3 := m₁.machine.cr3 } : Machine).translate 0x08048000 =
      some a :=
    hload.translate
  obtain ⟨p, htasks₂⟩ := hn.tasks
  refine ⟨m₁, m₂, m₃, m₁.machine.cr3, a, b, h₁.fromBoot, ht, htrans, ?_, hn.beside _ ht, hfresh₂,
    ⟨?_, ?_⟩, hload₂⟩
  · rw [userByte, htrans, Option.map_some, hload.byte]
  · rw [UserSystem.spaceIds, System.spaceIds, htasks₂]
    exact List.mem_cons_of_mem _ ht
  · obtain ⟨U, K, free, hinv⟩ := h₂.fromBoot.inv
    obtain ⟨x, hx, heq⟩ := List.mem_map.1 ht
    have hne := hinv.hmem.system.dir_ne (u := []) htasks₂ hx
    dsimp only at heq hne
    rw [hn.current, ← heq]
    rintro rfl
    exact hne rfl

/-- The new task takes its steps beside the first. -/
theorem SmallTwo.beside {m₁ m₂ m₃ : UserSystem} {t a b : Nat} (h : SmallTwo m₁ m₂ m₃ t a b) :
    ReflTransGen (StepBeside t) m₁ m₃ :=
    h.new.trans (stepOf_beside h.second.run h.other.1 h.other.2)

theorem mapped_once_small :
    ∃ m₁ m₂ m₃ t a b, SmallTwo m₁ m₂ m₃ t a b ∧ m₃.machine.kmemPhysEnd ≤ a := by
  obtain ⟨m₁, m₂, m₃, t, a, b, h⟩ := smallTwo_exists
  obtain ⟨U, K, free, hinv⟩ := h.boot.inv
  obtain ⟨-, hin, -, hsee⟩ := hinv.beside h.first h.beside
  have htrans := (hsee 0x08048000 (by decide)).2.trans h.translate
  have hrun : ReflTransGen AnyStep m₁ m₃ := by
    refine ReflTransGen.mono (fun m m' (hs : StepBeside t m m') => ?_) _ _ h.beside
    obtain ⟨-, o, -, hstep⟩ := hs
    exact ⟨o, hstep⟩
  exact ⟨m₁, m₂, m₃, t, a, b, h,
    (mapped_once h.boot hrun h.first hin (by decide) (by decide) h.translate
    htrans).2.2⟩

theorem keeps_memory_small : ∃ m₁ m₂ m₃ t a b, SmallTwo m₁ m₂ m₃ t a b ∧
    userByte m₃.machine t 0x08048000 = some 0x45 := by
  obtain ⟨m₁, m₂, m₃, t, a, b, h⟩ := smallTwo_exists
  have hkeeps := (keeps_memory h.boot h.first h.beside).2 0x08048000 (by decide)
  exact ⟨m₁, m₂, m₃, t, a, b, h, hkeeps.trans h.byte⟩

theorem loadElf_apart_small : ∃ (m₁ m₂ m₃ m' : UserSystem) (t a b : Nat), SmallTwo m₁ m₂ m₃ t a b ∧
    m'.machine = m₃.machine ∧ userByte m'.machine t 0x08048000 =
      userByte m₂.machine t 0x08048000 := by
  obtain ⟨m₁, m₂, m₃, t, a, b, h⟩ := smallTwo_exists
  obtain ⟨entry, w', hload, hmachine⟩ := h.second.load
  obtain ⟨hclear, huser, -⟩ := small_plan h.fresh (by decide) (by decide)
  obtain ⟨m', hmachine', -, -, hsee⟩ := loadElf_apart h.fresh.fromBoot h.fresh.current
    (serves_limited _ (by decide)) hclear huser hload
  exact ⟨m₁, m₂, m₃, m', t, a, b, h, hmachine'.trans hmachine,
    hsee t h.other.1 h.other.2 0x08048000 (by decide)⟩

end UserSystem

end TinyLittleOs.Scheduler
