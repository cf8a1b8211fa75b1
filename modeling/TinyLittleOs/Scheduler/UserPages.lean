import TinyLittleOs.Memory.AboveKmem
import TinyLittleOs.Memory.HmemRuns
import TinyLittleOs.Scheduler.AddressSpaceRuns

/-!
# Pages of hmem in an address space

A task takes pages from hmem, maps them into its address space and writes to them. What each of
these steps changes in the walks of the directories and in the memory above kmem is a `Changes`, and
they are composed one after another.
-/

namespace TinyLittleOs.Scheduler

open Lib Memory Memory.Machine

namespace System

/-- Addresses of the buddies that kmem creates from `s` to `s'`. -/
def NewKmem (s s' : Machine) (v : Nat) : Prop :=
  s.kmem.base + s.kmem.buddyArrayPos * 2 ^ 19 ≤ v ∧ v < s.kmem.base + s'.kmem.buddyArrayPos * 2 ^ 19

/-- The page at which `hmem_alloc_page` looks into the free page that it hands out. -/
def Scratch (s : Machine) (v : Nat) : Prop := s.hmemPhysList ≠ 0 ∧ v = window s ∧ 0xFFC00000 ≤ v

/-- The address is in one of the pages. -/
def InPages (l : List Nat) (x : Nat) : Prop := ∃ q ∈ l, q ≤ x ∧ x < q + 4096

/-- From `c` to `s'` the walks change at the addresses of `V`, in new buddies and at the page for
mappings of hmem, and memory above kmem changes in the pages of `W`. -/
structure Changes (c : System) (V : Nat → Prop) (W : List Nat) (s' : Machine) : Prop where
  dir : s'.firstPageDirectory = c.machine.firstPageDirectory
  cr3 : s'.cr3 = c.machine.cr3
  window : window s' = window c.machine
  list : c.machine.hmemPhysList = 0 → s'.hmemPhysList = 0
  base : s'.kmem.base = c.machine.kmem.base
  pos : c.machine.kmem.buddyArrayPos ≤ s'.kmem.buddyArrayPos
  kmemEnd : c.machine.kmemPhysEnd ≤ s'.kmemPhysEnd
  walk : ∀ a ∈ c.dirs, ∀ v, v % 4096 = 0 → v < 2 ^ 32 → ¬ V v → ¬ NewKmem c.machine s' v →
    ¬ Scratch c.machine v → s'.pages.walk tablePage a (dirOf v) (tabOf v) =
      c.machine.pages.walk tablePage a (dirOf v) (tabOf v)
  mem : ∀ x, s'.kmemPhysEnd ≤ x → ¬ InPages W x → s'.mem x = c.machine.mem x

section Changes

variable {c : System} {V V' : Nat → Prop} {W W' : List Nat} {s' s'' : Machine}

/-- The globals of hmem change, and `hmem_end` up to `2 ^ 32`. -/
theorem Changes.of_regs (hmem : s'.mem = c.machine.mem) (hkmem : s'.kmem = c.machine.kmem)
    (hdir : s'.firstPageDirectory = c.machine.firstPageDirectory) (hcr3 : s'.cr3 = c.machine.cr3)
    (hend : s'.kmemPhysEnd = c.machine.kmemPhysEnd)
    (hwindow : System.window s' = System.window c.machine)
    (hlist : c.machine.hmemPhysList = 0 → s'.hmemPhysList = 0) : Changes c V W s' := by
  have hpages : s'.pages = c.machine.pages := by
    funext q k
    rw [pages, pages, hmem]
  refine ⟨hdir, hcr3, hwindow, hlist, by rw [hkmem], by rw [hkmem], by rw [hend],
    fun a _ v _ _ _ _ _ => by rw [hpages], fun x _ _ => by rw [hmem]⟩

theorem Changes.refl (c : System) : Changes c V W c.machine := by
  apply Changes.of_regs
  all_goals first | rfl | exact fun h => h

theorem Changes.mono (h : Changes c V W s') (hV : ∀ v, V v → V' v) (hW : ∀ q ∈ W, q ∈ W') :
    Changes c V' W' s' := by
  refine ⟨h.dir, h.cr3, h.window, h.list, h.base, h.pos, h.kmemEnd, fun a ha v hv hlt hnot => ?_,
    fun x hx hnot => ?_⟩
  · exact h.walk a ha v hv hlt fun hin => hnot (hV v hin)
  · refine h.mem x hx fun hin => hnot ?_
    obtain ⟨q, hq, hle⟩ := hin
    exact ⟨q, hW q hq, hle⟩

theorem Changes.newKmem (h : Changes c V W s') {v : Nat} (hnew : NewKmem s' s'' v) :
    NewKmem c.machine s'' v := by
  obtain ⟨hlo, hhi⟩ := hnew
  rw [h.base] at hlo hhi
  exact ⟨le_trans (buddies_le _ h.pos) hlo, hhi⟩

theorem Changes.scratch (h : Changes c V W s') {v : Nat} (hscratch : Scratch s' v) :
    Scratch c.machine v :=
  ⟨fun hzero => hscratch.1 (h.list hzero), hscratch.2.1.trans h.window, hscratch.2.2⟩

theorem Changes.trans (h : Changes c V W s') (h' : Changes { c with machine := s' } V' W' s'') :
    Changes c (fun v => V v ∨ V' v) (W ++ W') s'' := by
  refine ⟨h'.dir.trans h.dir, h'.cr3.trans h.cr3, h'.window.trans h.window, fun hlist =>
    h'.list (h.list hlist),
    h'.base.trans h.base, le_trans h.pos h'.pos, le_trans h.kmemEnd h'.kmemEnd,
    fun a ha v hv hlt hnot hnew hscratch => ?_, fun x hx hnot => ?_⟩
  · have hpos := h'.pos
    dsimp only at hpos
    have hold : ¬ NewKmem c.machine s' v := fun hin =>
      hnew ⟨hin.1, lt_of_lt_of_le hin.2 (buddies_le _ hpos)⟩
    have ha' : a ∈ ({ c with machine := s' } : System).dirs := by
      rw [dirs_congr h.dir]
      exact ha
    have hsecond :=
      h'.walk a ha' v hv hlt (fun hin => hnot (Or.inr hin)) (fun hin => hnew (h.newKmem hin))
      fun hin => hscratch (h.scratch hin)
    have hfirst := h.walk a ha v hv hlt (fun hin => hnot (Or.inl hin)) hold hscratch
    exact hsecond.trans hfirst
  · have hend := h'.kmemEnd
    dsimp only at hend
    have hsecond := h'.mem x hx fun ⟨q, hq, hle⟩ => hnot ⟨q, List.mem_append_right _ hq, hle⟩
    have hfirst := h.mem x (by omega) fun ⟨q, hq, hle⟩ => hnot ⟨q, List.mem_append_left _ hq, hle⟩
    exact hsecond.trans hfirst

end Changes

/-! ## The pages of the current task -/

section Current

variable {c : System} {U K : List Block} {held freed free : List Nat} {p : Nat} {s' : Machine}

theorem Inv.below (h : c.Inv U K) {q : Nat} (hq : c.machine.Holds c.spaces q) :
    4096 * q + 4096 ≤ c.machine.kmemPhysEnd := by
  have hlt := (h.paged.inUse q hq).1
  have hend := pageOf_end h.tracked
  omega

/-- The directory of the current task and its last table are in kmem. -/
theorem Inv.hmemMapped (h : c.Inv U K) (ht : (c.machine.cr3, some p) ∈ c.tasks) :
    Pages.Mapped c.machine := by
  obtain ⟨hptr, hno⟩ := h.dirPtr ht
  dsimp only at hptr hno
  have hdirs := h.mem_dirs ht
  have hlast := h.own _ ht
  dsimp only [Option.map] at hdirs hlast
  have hsmall := h.small_of_mem ht
  dsimp only at hsmall
  have haligned : c.machine.cr3 % 4096 = 0 := by
    have := hptr.aligned
    unfold toVirt at this
    omega
  have hentry : c.machine.pages (c.machine.cr3 / 4096) lastIndex = Pages.lastEntry c.machine := by
    have hcr3 : 4096 * (c.machine.cr3 / 4096) + 4 * (lastIndex : Nat) =
        c.machine.cr3 + 4 * 0x3FF := by
      simp only [lastIndex]
      omega
    rw [pages, Pages.lastEntry, hcr3]
  have htable : Pages.lastEntry c.machine / 4096 = pageNo p := by
    rw [hentry] at hlast
    exact (tablePage_eq_some.1 hlast).2
  have hdown : alignPageDown (Pages.lastEntry c.machine) = 4096 * pageNo p := by
    rw [alignPageDown, Nat.shiftLeft_eq, Nat.shiftRight_eq_div_pow, ← htable]
    omega
  have hdir := h.below (Or.inl (PageMem.refs_dir hdirs))
  have hbelow := h.below (Or.inl (PageMem.refs_table hdirs hlast))
  have hne : pageNo p ≠ c.machine.cr3 / 4096 := by
    intro heq
    exact h.paged.separate.table _ hdirs _ _ hlast (heq ▸ hdirs)
  have hle := h.tracked.physLe
  refine ⟨by omega, ?_, ?_, by omega⟩
  · rw [hdown]
    exact hbelow
  · rw [hdown]
    omega

/-- Other addresses are translated as before. -/
theorem Changes.translate {V : Nat → Prop} {W : List Nat} (hc : Changes c V W s') (h : c.Inv U K)
    (ht : (c.machine.cr3, some p) ∈ c.tasks) {v : Nat} (hv : v < 2 ^ 32)
    (hV : ¬ V (v / 4096 * 4096))
    (hnew : ¬ NewKmem c.machine s' v) (hscratch : ¬ Scratch c.machine (v / 4096 * 4096)) :
    s'.translate v = c.machine.translate v := by
  obtain ⟨hptr, hno⟩ := h.dirPtr ht
  dsimp only at hptr hno
  have hptr' : PagePtr (toVirt s'.cr3) := by
    rw [hc.cr3]
    exact hptr
  have hpage : v / 4096 * 4096 % 4096 = 0 := Nat.mul_mod_left _ _
  obtain ⟨hdir, htab, -⟩ := indices_add hpage (show v % 4096 < 4096 from Nat.mod_lt _ (by decide))
  have hsplit : v / 4096 * 4096 + v % 4096 = v := by omega
  rw [hsplit] at hdir htab
  have halign := h.tracked.aligned
  have hwalk :=
    hc.walk _ (h.mem_dirs ht) (v / 4096 * 4096) (by omega) (by omega) hV (fun hin => hnew ?_)
    hscratch
  · rw [translate_eq hptr' hv, translate_eq hptr hv, hc.cr3, hdir, htab]
    dsimp only at hwalk
    rw [hno, hwalk]
  · obtain ⟨hlo, hhi⟩ := hin
    constructor
    · omega
    · omega

/-- New buddies and the page for mappings are in the kernel half. -/
theorem Inv.user_address (h : c.Inv U K) (s' : Machine) {v : Nat} (hv : v < userTop) :
    ¬ NewKmem c.machine s' v ∧ ¬ Scratch c.machine v := by
  have hlo := h.tracked.dirLo
  have hhi := h.tracked.dirHi
  rw [userTop] at hv
  constructor
  · rintro ⟨hle, -⟩
    omega
  · rintro ⟨-, -, hle⟩
    omega

/-- In the user half, too. -/
theorem Changes.translate_user {V : Nat → Prop} {W : List Nat} (hc : Changes c V W s')
    (h : c.Inv U K)
    (ht : (c.machine.cr3, some p) ∈ c.tasks) {v : Nat} (hv : v < userTop)
    (hV : ¬ V (v / 4096 * 4096)) :
    s'.translate v = c.machine.translate v := by
  have hlow : v / 4096 * 4096 < userTop := Nat.lt_of_le_of_lt (Nat.div_mul_le_self v 4096) hv
  exact hc.translate h ht (Nat.lt_trans hv (by decide)) hV (h.user_address s' hv).1
    (h.user_address s' hlow).2

/-! ## `hmem_alloc_page` -/

theorem hmemAllocPage_changes (h : c.Inv U K) (hh : Pages.Inv c.machine held freed free)
    (ht : (c.machine.cr3, some p) ∈ c.tasks) {q : Nat}
    (hs : c.machine.hmemAllocPage = .ok (q, s')) :
    { c with machine := s' }.Inv U K ∧ Changes c (fun _ => False) [] s' := by
  rw [hmemAllocPage] at hs
  dsimp only at hs
  by_cases hnil : c.machine.hmemPhysList = 0
  · rw [if_pos hnil] at hs
    generalize (c.machine.hmemPhysEnd + (2 ^ 32 - 4096)) % 2 ^ 32 = v at hs
    split_ifs at hs with hlt
    obtain ⟨-, rfl⟩ := Prod.mk.inj (Except.ok.inj hs)
    refine ⟨h.regs rfl rfl rfl rfl rfl (Or.inl rfl), ?_⟩
    refine Changes.of_regs rfl rfl rfl rfl rfl ?_ fun hzero => hzero
    rw [window, window]
  · rw [if_neg hnil] at hs
    obtain ⟨s₁, hs₁, hs⟩ := bind_eq_ok.1 hs
    have hlist := hh.list_lt
    obtain ⟨-, -, hmaps⟩ := h.hmemMap_maps ht hlist hs₁
    obtain ⟨i, e, hi, hstore⟩ := (hh.mapped.hmemMap _).of_ok hs₁
    have htop := window_top hs₁
    have hinv := h.hmemMap ht hlist hs₁
    have hend₁ : s₁.hmemEnd = (c.machine.hmemEnd + (2 ^ 32 - 4096)) % 2 ^ 32 := by rw [hstore]
    have hmem₁ : s₁.mem =
        c.machine.mem.store32 (alignPageDown (Pages.lastEntry c.machine) + 4 * i) e := by
      rw [hstore]
    have hsame : s₁.firstPageDirectory = c.machine.firstPageDirectory ∧ s₁.cr3 = c.machine.cr3 ∧
        s₁.kmem = c.machine.kmem ∧ s₁.kmemPhysEnd = c.machine.kmemPhysEnd := by
      rw [hstore]
      exact ⟨rfl, rfl, rfl, rfl⟩
    obtain ⟨-, hs'⟩ := Prod.mk.inj (Except.ok.inj hs)
    rw [hmemUnmap] at hs'
    dsimp only at hs'
    generalize s₁.mem.load32 (hmemFrame c.machine.hmemPhysList) = next at hs'
    generalize hend' : (s₁.hmemEnd + 4096) % 2 ^ 32 = hmemEnd at hs'
    have hpages : s'.pages = s₁.pages := by
      funext a k
      rw [pages, pages, ← hs']
    obtain ⟨hdir, hcr3, hkmem, hkend⟩ := hsame
    have htable := hh.mapped.tableLe
    refine ⟨?_,
      ⟨?_, ?_, ?_, fun hzero => absurd hzero hnil, ?_, ?_, ?_, fun a ha v hv hlt _ _ hnot => ?_,
      fun x hx _ => ?_⟩⟩
    · rw [← hs']
      exact hinv.regs rfl rfl rfl rfl rfl (Or.inl rfl)
    · rw [← hs']
      exact hdir
    · rw [← hs']
      exact hcr3
    · rw [← hs', window, window]
      dsimp only
      omega
    · rw [← hs']
      exact congrArg Kmem.base hkmem
    · rw [← hs']
      exact Nat.le_of_eq (congrArg Kmem.buddyArrayPos hkmem.symm)
    · rw [← hs']
      exact Nat.le_of_eq hkend.symm
    · have hwalk := hmaps.walk a ha v hv hlt fun d hd => hnot ⟨hnil, hd.2, hd.2 ▸ htop⟩
      rw [withWindow_pages] at hwalk
      rw [hpages, hwalk]
    · rw [← hs'] at hx ⊢
      dsimp only at hx ⊢
      rw [hmem₁]
      exact ByteMem.store32_of_out (by omega)

/-! ## `map_user_page` -/

theorem mapUserPage_changes (h : c.Inv U K) (ht : (c.machine.cr3, some p) ∈ c.tasks)
    {virt phys : Nat}
    {writable : Bool} (hvirt : virt < userTop) (hphys : phys < 2 ^ 32)
    (hs : mapUserPage virt phys writable c.machine = .ok s') : ∃ K',
      { c with machine := s' }.Inv U K' ∧ Changes c (fun v => v = virt) [] s' ∧
      s'.hmemPhysEnd = c.machine.hmemPhysEnd ∧ s'.hmemPhysList = c.machine.hmemPhysList ∧
      s'.pages.walk tablePage (c.machine.cr3 / 4096) (dirOf virt) (tabOf virt) =
      userEntry phys writable := by
  have hlt : virt < 2 ^ 32 := Nat.lt_trans hvirt (by decide)
  obtain ⟨T, hm⟩ := h.mapUserPage_mapped ht hlt hphys hs
  obtain ⟨hptr, hno⟩ := h.dirPtr ht
  dsimp only at hptr hno
  have hD : pageNo (toVirt c.machine.cr3) ∈ c.spaces.dirs := hno ▸ h.mem_dirs ht
  have hinv := h.mapped ht (h.mapUserPage_direct ht hvirt hphys hs) hm
  have hleaves := (mapPage_leaves h.paged hptr hD hlt (kmemAlloc4k_leaves h.paged h.tracked)).of_ok
    (mapUserPage_eq_ok.1 hs)
  have hglobals := hm.maps.globals
  have hend := pageOf_end hinv.tracked
  have hend₀ := pageOf_end h.tracked
  have hpos := pageOf_mono hm.maps.base hm.maps.pos
  have hregs : s'.cr3 = c.machine.cr3 ∧ s'.hmemEnd = c.machine.hmemEnd ∧
      s'.hmemPhysList = c.machine.hmemPhysList ∧ s'.hmemPhysEnd = c.machine.hmemPhysEnd := by
    rw [hglobals]
    exact ⟨rfl, rfl, rfl, rfl⟩
  obtain ⟨hcr3, hhend, hlist, hhphys⟩ := hregs
  dsimp only at hend
  have hkend : c.machine.kmemPhysEnd ≤ s'.kmemPhysEnd := by omega
  refine ⟨_, hinv,
    ⟨hm.maps.dir, hcr3, ?_, fun hzero => hlist.trans hzero, hm.maps.base, hm.maps.pos, hkend,
    fun a ha v hv hlt hne hnew _ => hm.maps.walk a ha v hv hlt ?_, fun x hx _ => ?_⟩,
    hhphys, hlist, ?_⟩
  · rw [window, window, hhend]
  · rintro d (⟨-, heq⟩ | hgrowth)
    · exact hne heq
    · exact hnew ⟨hgrowth.lo, hgrowth.hi⟩
  · exact hleaves x (by omega)
  · rw [← hno]
    exact hm.walk

/-- hmem does not notice what kmem does below it. -/
theorem Changes.pagesInv {V : Nat → Prop} (hc : Changes c V [] s')
    (hh : Pages.Inv c.machine held freed free)
    (h' : { c with machine := s' }.Inv U K) (ht : (c.machine.cr3, some p) ∈ c.tasks)
    (hend : s'.hmemPhysEnd = c.machine.hmemPhysEnd)
      (hlist : s'.hmemPhysList = c.machine.hmemPhysList)
    (hle : s'.kmemPhysEnd ≤ s'.hmemPhysEnd) : Pages.Inv s' held freed free := by
  have hmapped : Pages.Mapped s' := by
    rw [← hc.cr3] at ht
    exact h'.hmemMapped ht
  refine ⟨hmapped, hle, ?_, ?_, ?_, hh.nodup, ?_, hh.freed⟩
  · rw [hend]
    exact hh.aligned
  · rw [hend]
    exact hh.endLt
  · rw [hlist]
    refine hh.chain.congr fun q hq => ?_
    have hpage := (hh.page q (List.mem_append_left held hq)).2.1
    refine ByteMem.load32_congr fun x hx _ => hc.mem x (by omega) ?_
    rintro ⟨_, hin, -⟩
    cases hin
  · rw [hend]
    exact hh.page

/-! ## Writes to a page -/

/-- A page of hmem is written. -/
theorem write_changes (h : c.Inv U K) (hh : Pages.Inv c.machine held freed free) {q : Nat}
    (hq : q ∈ held)
    (hs : s' = { c.machine with mem := s'.mem })
    (hw : ∀ x, ¬ InPages [q] x → s'.mem x = c.machine.mem x) :
    { c with machine := s' }.Inv U K ∧ Pages.Inv s' held freed free ∧
      Changes c (fun _ => False) [q] s' ∧
      ∀ a ∈ c.dirs, ∀ i j, s'.pages.walk tablePage a i j =
      c.machine.pages.walk tablePage a i j := by
  obtain ⟨hmod, hlo, -⟩ := hh.page q (List.mem_append_right free hq)
  have hle := hh.le
  have hpages : ∀ a, 4096 * a + 4096 ≤ c.machine.kmemPhysEnd → s'.pages a = c.machine.pages a := by
    intro a ha
    funext k
    have hk := k.isLt
    refine ByteMem.load32_congr fun x hx hx' => hw x ?_
    rintro ⟨_, hin, hq'⟩
    obtain rfl := List.mem_singleton.1 hin
    omega
  have hrefs : ∀ a, c.machine.pages.Refs tablePage c.dirs a → s'.pages a = c.machine.pages a :=
    fun a ha => hpages a (h.below (Or.inl ha))
  refine ⟨h.write hs fun a ha => ?_, ?_, ?_, fun a ha i j => PageMem.walk_congr hrefs ha i j⟩
  · rcases ha with ha | ha
    · exact hrefs a ha
    · exact hpages a (h.below (Or.inr (Or.inr ha)))
  · have hout : Pages.SameOutside held c.machine.mem s'.mem := fun x hx => hw x ?_
    · have hinv := hh.write hout
      rw [hs]
      exact hinv
    · rintro ⟨_, hin, hq'⟩
      obtain rfl := List.mem_singleton.1 hin
      have := hx _ hq
      omega
  · have hglobals : s'.firstPageDirectory = c.machine.firstPageDirectory ∧ s'.cr3 = c.machine.cr3 ∧
        s'.kmem = c.machine.kmem ∧ s'.kmemPhysEnd = c.machine.kmemPhysEnd ∧
        s'.hmemEnd = c.machine.hmemEnd ∧ s'.hmemPhysList = c.machine.hmemPhysList := by
      rw [hs]
      exact ⟨rfl, rfl, rfl, rfl, rfl, rfl⟩
    obtain ⟨hdir, hcr3, hkmem, hkend, hhend, hlist⟩ := hglobals
    refine ⟨hdir, hcr3, ?_, fun hzero => hlist.trans hzero, by rw [hkmem], by
      rw [hkmem], by rw [hkend],
      fun a ha v _ _ _ _ _ => PageMem.walk_congr hrefs ha _ _, fun x _ hx => hw x hx⟩
    rw [window, window, hhend]

end Current

end System

end TinyLittleOs.Scheduler
