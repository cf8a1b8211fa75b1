import TinyLittleOs.Scheduler.ElfErrors
import TinyLittleOs.Scheduler.ElfSegments
import TinyLittleOs.Scheduler.NewSpaces

/-!
# What the loader leaves

A running task loads a file whose pages are in the user half, each once and where nothing is mapped.
The loader comes back exactly when the file has a plan and its pages can be mapped. Afterwards the
walks and the bytes are those of the pages of the plan.
-/

namespace TinyLittleOs.Scheduler

open Lib Memory Memory.Machine

/-! ## Pages of a plan -/

section Plan

variable {content : List (BitVec 8)} {l : List Page} {b : Bool}

/-- The page is at the address of a page. -/
def Page.Placed (g : Page) : Prop := g.virt < 2 ^ 32 ∧ g.virt % 4096 = 0

theorem loopPlan_placed {p : Phdr} {stop fuel virt : Nat} (hv : virt < 2 ^ 32 ∧ virt % 4096 = 0)
    (h : loopPlan content p stop fuel virt = some (l, b)) : ∀ g ∈ l, g.Placed := by
  induction fuel generalizing virt l with
  | zero => cases h
  | succ fuel ih =>
    rw [loopPlan] at h
    split_ifs at h with hlt hfull
    · obtain ⟨⟨l', b'⟩, hrest, hpair⟩ := Option.map_eq_some_iff.1 h
      cases hpair
      intro g hg
      rcases List.mem_cons.1 hg with rfl | hg
      · exact hv
      · exact ih (by omega) hrest g hg
    · cases h
      intro g hg
      rw [List.mem_singleton.1 hg]
      exact hv
    · cases h
      intro g hg
      cases hg

theorem segmentPlan_placed {fuel : Nat} {buf : List (BitVec 8)}
    (h : segmentPlan content fuel (Phdr.parse buf) = some (l, b)) : ∀ g ∈ l, g.Placed := by
  rw [segmentPlan] at h
  split_ifs at h with hload
  · have hv : (Phdr.parse buf).vaddr < 2 ^ 32 := word_lt buf 8
    refine loopPlan_placed ?_ h
    rw [Phdr.addrStart, and_page_mask hv]
    omega
  · cases h
    intro g hg
    cases hg

theorem phdrPlan_placed {fuel phoff : Nat} {is : List Nat}
    (h : phdrPlan content fuel phoff is = some (l, b)) : ∀ g ∈ l, g.Placed := by
  induction is generalizing l b with
  | nil =>
    cases h
    intro g hg
    cases hg
  | cons i is ih =>
    rw [phdrPlan] at h
    split_ifs at h with henough
    · obtain ⟨⟨l₁, b₁⟩, hsegment, hrest⟩ := Option.bind_eq_some_iff.1 h
      have hfirst := segmentPlan_placed hsegment
      dsimp only at hrest
      split_ifs at hrest with hb
      · obtain ⟨⟨l₂, b₂⟩, htail, hpair⟩ := Option.map_eq_some_iff.1 hrest
        cases hpair
        intro g hg
        rcases List.mem_append.1 hg with hg | hg
        · exact hfirst g hg
        · exact ih htail g hg
      · cases hrest
        exact hfirst
    · cases h
      intro g hg
      cases hg

theorem elfPlan_placed {fuel : Nat} (h : elfPlan content fuel = some (l, b)) :
    ∀ g ∈ l, g.Placed := by
  have hnil : ∀ g ∈ ([] : List Page), g.Placed := fun g hg => absurd hg List.not_mem_nil
  rw [elfPlan] at h
  split_ifs at h with henough
  · rw [headerPlan] at h
    split_ifs at h
    · exact phdrPlan_placed h
    · cases h
      exact hnil
  · cases h
    exact hnil

end Plan

/-! ## Where the loader comes back -/

/-- `load_elf` returns. -/
def Returns {ρ : Type} (f : FileDesc ρ) (s : Machine) (r : ρ) : Prop :=
  ∃ fuel x, loadElf f fuel ⟨s, r, []⟩ = .ok x

/-- The file has a plan, and hmem and kmem have the pages and the page tables for it. -/
def Mappable (content : List (BitVec 8)) (s : Machine) : Prop :=
  ∃ fuel l b s', elfPlan content fuel = some (l, b) ∧ mapPages l s = .ok s'

/-- While the pages of the file are mapped kmem stays below hmem. -/
def ClearPlan (content : List (BitVec 8)) (s : Machine) : Prop :=
  ∀ fuel l b, elfPlan content fuel = some (l, b) → Clear l s

/-- The file asks for pages in the user half, each once, where nothing is mapped. Otherwise
`_map_page` puts a page over another one, and without `asm_invlpg` the processor may go on with the
old one. -/
def UserPlan (content : List (BitVec 8)) (s : Machine) : Prop :=
  ∀ fuel l b, elfPlan content fuel = some (l, b) →
    (∀ g ∈ l, g.virt < System.userTop ∧ s.translate g.virt = none) ∧ (l.map Page.virt).Nodup

/-- The pages of `l` were loaded into the pages `new` of hmem. -/
def LoadsInto (w : HmemSystem) (content : List (BitVec 8)) (l : List Page) (new : List Nat)
    (s' : Machine) : Prop :=
  ∃ U, System.LoadedAll w.system U w.held w.freed content l new s'

section Running

variable {w : HmemSystem} (hw : w.Running) {content : List (BitVec 8)} {l : List Page}
  {b : Bool} {fuel : Nat}
include hw

/-- Loading the pages of a plan ends as mapping them does. -/
theorem loadPages_plan (huser : UserPlan content w.machine)
    (hplan : elfPlan content fuel = some (l, b))
    (hclear : Clear l w.machine) : Related (fun s' t => ∃ new, LoadsInto w content l new s' ∧
        Agree {x | System.InPages (new ++ w.held) x} s' t)
      (loadPages content l w.machine) (mapPages l w.machine) := by
  obtain ⟨U, K, free, p, hinv, hpages, ht⟩ := hw.inv
  obtain ⟨hl, hnodup⟩ := huser fuel l b hplan
  refine (System.loadPages_related hinv hpages ht content (fun g hg => (hl g hg).1)
    hnodup (.refl _ _)
    hclear).mono ?_
  rintro s' t' ⟨new, hall, hagree⟩
  exact ⟨new, ⟨U, hall⟩, hagree⟩

variable {ρ : Type} {f : FileDesc ρ} (hf : Serves content f) {r : ρ}
  (hclear : ClearPlan content w.machine)
  (huser : UserPlan content w.machine)
include hf hclear huser

/-- Where the loader comes back, it has loaded the pages of the plan. -/
theorem loadElf_loads {e : Except Errno Unit} {entry : Option Nat} {w' : World ρ}
    (hload : loadElf f fuel ⟨w.machine, r, []⟩ = .ok (e, entry, w')) : ∃ l b new t,
      elfPlan content fuel = some (l, b) ∧ e = planResult b ∧ mapPages l w.machine = .ok t ∧
      LoadsInto w content l new w'.machine ∧
      Agree {x | System.InPages (new ++ w.held) x} w'.machine t := by
  obtain ⟨l, b, hplan, hpages, he⟩ := (loadElf_eq_ok hf fuel w.machine r e w'.machine).1
    ⟨entry, w', hload, rfl⟩
  obtain ⟨t, ht, new, hloads, hagree⟩ :=
    (loadPages_plan hw huser hplan (hclear fuel l b hplan)).of_ok hpages
  exact ⟨l, b, new, t, hplan, he, ht, hloads, hagree⟩

/-- Where the pages of the plan can be mapped, the loader comes back. -/
theorem loadElf_of_mapPages {t : Machine} (hplan : elfPlan content fuel = some (l, b))
    (hmap : mapPages l w.machine = .ok t) : ∃ entry w',
      loadElf f fuel ⟨w.machine, r, []⟩ = .ok (planResult b, entry, w') := by
  obtain ⟨s', hs', -⟩ := (loadPages_plan hw huser hplan (hclear fuel l b hplan)).of_ok' hmap
  obtain ⟨entry, w', hload, -⟩ := (loadElf_eq_ok hf fuel w.machine r (planResult b) s').2
    ⟨l, b, hplan, hs', rfl⟩
  exact ⟨entry, w', hload⟩

/-- The loader fails no assertion exactly when the header passes those on it, every page loop ends,
and the allocators have the pages. -/
theorem loadElf_returns_iff : Returns f w.machine r ↔ Mappable content w.machine := by
  constructor
  · rintro ⟨fuel, ⟨e, entry, w'⟩, hload⟩
    obtain ⟨l, b, new, t, hplan, -, hmap, -⟩ := loadElf_loads hw hf hclear huser hload
    exact ⟨fuel, l, b, t, hplan, hmap⟩
  · rintro ⟨fuel, l, b, t, hplan, hmap⟩
    obtain ⟨entry, w', hload⟩ := loadElf_of_mapPages hw hf (r := r) hclear huser hplan hmap
    exact ⟨fuel, _, hload⟩

end Running

/-! ## What is there afterwards -/

namespace LoadsInto

section

variable {w : HmemSystem} (hw : w.Running) {content : List (BitVec 8)} {l : List Page}
  {new : List Nat}
  {s' : Machine} (h : LoadsInto w content l new s')
include hw h

/-- Each page is there, in a new page of hmem with its bytes. -/
theorem translate_page {g : Page} (hg : g ∈ l) (hlt : g.virt < System.userTop) :
    ∃ q ∈ new, q ∉ w.held ∧ q % 4096 = 0 ∧
      (∀ i < 4096, s'.translate (g.virt + i) = some (q + i)) ∧
      (g.Full content → ∀ i < 4096, s'.mem (q + i) = g.byte content i) := by
  obtain ⟨U, h⟩ := h
  obtain ⟨U₀, K, free, p, hinv, -, ht⟩ := hw.inv
  obtain ⟨hptr, hno⟩ := hinv.dirPtr ht
  obtain ⟨hmod, q, hq, hfresh, hframe, hentry, hbytes⟩ := h.entries g hg
  have hcr3 := h.changes.cr3
  refine ⟨q, hq, hfresh, hframe, fun i hi => ?_, hbytes⟩
  refine translate_of_userEntry ?_ hmod (Nat.lt_trans hlt (by decide)) hframe
    (b := decide (g.phdr.flags &&& 2 ≠ 0)) ?_ hi
  · rw [hcr3]
    exact hptr
  · rw [hcr3, hno]
    exact hentry

/-- Elsewhere the addresses are translated as before. -/
theorem translate_other {v : Nat} (hv : v < 2 ^ 32) (hl : ∀ g ∈ l, g.virt ≠ v / 4096 * 4096)
    (hnew : ¬ System.NewKmem w.machine s' v)
    (hscratch : ¬ System.Scratch w.machine (v / 4096 * 4096)) :
    s'.translate v = w.machine.translate v := by
  obtain ⟨U, h⟩ := h
  obtain ⟨U₀, K, free, p, hinv, -, ht⟩ := hw.inv
  refine h.changes.translate hinv ht hv ?_ hnew hscratch
  rintro ⟨g, hg, heq⟩
  exact hl g hg heq.symm

end

end LoadsInto

/-! ## The rest of the address space -/

/-- What the loader leaves alone when it loads `l` into the pages `new`: the invariants of both
heaps hold, other addresses are translated as before, and other bytes above kmem are the same. -/
structure Framed (w : HmemSystem) (l : List Page) (new : List Nat) (s' : Machine) : Prop where
  inv : ∃ U K free,
    HmemSystem.Inv ⟨{ w.system with machine := s' }, new ++ w.held, w.freed⟩ U K free
  nodup : (new ++ w.held).Nodup
  above : ∀ q ∈ new, q % 4096 = 0 ∧ s'.kmemPhysEnd ≤ q ∧ s'.hmemPhysEnd ≤ q
  cr3 : s'.cr3 = w.machine.cr3
  translate : ∀ v < 2 ^ 32, (∀ g ∈ l, g.virt ≠ v / 4096 * 4096) → ¬ System.NewKmem w.machine s' v →
    ¬ System.Scratch w.machine (v / 4096 * 4096) → s'.translate v = w.machine.translate v
  mem : ∀ x, s'.kmemPhysEnd ≤ x → ¬ System.InPages new x → s'.mem x = w.machine.mem x

section Frame

variable {w : HmemSystem} (hw : w.Running) {content : List (BitVec 8)} {l : List Page}
  {new : List Nat}
  {s' : Machine} (h : LoadsInto w content l new s')
include hw h

theorem LoadsInto.framed : Framed w l new s' := by
  have htranslate (v : Nat) (hv : v < 2 ^ 32) hl hnew hscratch :=
    h.translate_other hw (v := v) hv hl hnew hscratch
  obtain ⟨U, h⟩ := h
  obtain ⟨K, hinv⟩ := h.inv
  obtain ⟨free, hh⟩ := h.pages
  have hle := hh.le
  refine ⟨⟨U, K, free, HmemSystem.inv_of_pages hinv hh⟩, (List.nodup_append.1 hh.nodup).2.1,
    fun q hq => ?_, h.changes.cr3, htranslate, h.changes.mem⟩
  obtain ⟨hmod, hlo, -⟩ := hh.page q (List.mem_append_right _ (List.mem_append_left _ hq))
  exact ⟨hmod, by omega, hlo⟩

end Frame

section Loader

variable {w : HmemSystem} (hw : w.Running) {content : List (BitVec 8)} {ρ : Type} {f : FileDesc ρ}
  (hf : Serves content f) (hclear : ClearPlan content w.machine)
  (huser : UserPlan content w.machine)
  {fuel : Nat} {r : ρ} {e : Except Errno Unit} {entry : Option Nat} {w' : World ρ}
  (hload : loadElf f fuel ⟨w.machine, r, []⟩ = .ok (e, entry, w'))
include hw hf hclear huser hload

/-- Whatever the loader returns, it only loads the pages of the plan, into pages of hmem that nobody
had. -/
theorem loadElf_framed : ∃ l b new, elfPlan content fuel = some (l, b) ∧ e = planResult b ∧
    Framed w l new w'.machine := by
  obtain ⟨l, b, new, t, hplan, he, -, hloads, -⟩ := loadElf_loads hw hf hclear huser hload
  exact ⟨l, b, new, hplan, he, hloads.framed hw⟩

end Loader

/-! ## The bytes of the segments -/

theorem Phdr.mem_pages {p : Phdr} {g : Page} :
    g ∈ p.pages ↔ p.type = 1 ∧ g.phdr = p ∧ g.virt ∈ p.loopPages := by
  rw [Phdr.pages]
  split
  · rename_i ht
    rw [List.mem_map]
    constructor
    · rintro ⟨a, ha, rfl⟩
      exact ⟨ht, rfl, ha⟩
    · rintro ⟨-, rfl, ha⟩
      exact ⟨g.virt, ha, rfl⟩
  · rename_i ht
    simp [ht]

/-- Each byte of the segments is in a page of its own. -/
theorem LoadsInto.byte {w : HmemSystem} (hw : w.Running) {content : List (BitVec 8)}
    {new : List Nat}
    {s' : Machine} (h : LoadsInto w content ((phdrs content).flatMap Phdr.pages) new s')
    (hlow : ∀ g ∈ (phdrs content).flatMap Phdr.pages, g.virt < System.userTop)
    (hfull : ∀ g ∈ (phdrs content).flatMap Phdr.pages, g.Full content) {p : Phdr}
    (hp : p ∈ phdrs content) (ht : p.type = 1) {k : Nat} (hk : k < 4096 * p.loopCount) :
    ∃ a, s'.translate (p.addrStart + k) = some a ∧ s'.mem a = p.byte content k ∧
      ¬ System.InPages w.held a := by
  -- the page of the byte
  have hloop : p.addrStart + 4096 * (k / 4096) ∈ p.loopPages :=
    List.mem_range'.2 ⟨k / 4096, by omega, rfl⟩
  have hg : Page.mk p (p.addrStart + 4096 * (k / 4096)) ∈ (phdrs content).flatMap Phdr.pages :=
    List.mem_flatMap.2 ⟨p, hp, Phdr.mem_pages.2 ⟨ht, rfl, hloop⟩⟩
  have hlt := hlow _ hg
  rw [System.userTop] at hlt
  obtain ⟨q, hq, hfresh, hframe, htrans, hbytes⟩ := h.translate_page hw hg hlt
  have hmod : k % 4096 < 4096 := Nat.mod_lt _ (by decide)
  refine ⟨q + k % 4096, ?_, ?_, ?_⟩
  · have hat := htrans _ hmod
    dsimp only at hat
    have haddr : p.addrStart + 4096 * (k / 4096) + k % 4096 = p.addrStart + k := by omega
    rw [haddr] at hat
    exact hat
  · rw [hbytes (hfull _ hg) _ hmod, Nat.mul_comm 4096]
    dsimp only at hlt
    exact Page.byte_eq (by omega)
  · obtain ⟨U, hall⟩ := h
    obtain ⟨free, hh⟩ := hall.pages
    refine System.not_inPages hh ?_ (fun a ha => ?_) hfresh hmod
    · exact List.mem_append_right _ (List.mem_append_left _ hq)
    · exact List.mem_append_right _ (List.mem_append_right _ ha)

/-- After a file is loaded its segments are in the address space. -/
theorem loadElf_bytes {w : HmemSystem} (hw : w.Running) {content : List (BitVec 8)} {ρ : Type}
    {f : FileDesc ρ} (hf : Serves content f) (hclear : ClearPlan content w.machine)
    (huser : UserPlan content w.machine) {fuel : Nat} {r : ρ} {entry : Option Nat} {w' : World ρ}
    (hload : loadElf f fuel ⟨w.machine, r, []⟩ = .ok (.ok (), entry, w')) {p : Phdr}
    (hp : p ∈ phdrs content) (ht : p.type = 1) {k : Nat} (hk : k < 4096 * p.loopCount) :
    ∃ a, w'.machine.translate (p.addrStart + k) = some a ∧ w'.machine.mem a = p.byte content k ∧
      ¬ System.InPages w.held a := by
  obtain ⟨l, b, new, t, hplan, he, -, hloads, -⟩ := loadElf_loads hw hf hclear huser hload
  cases b with
  | false => cases he
  | true =>
    have hlow := (huser fuel l true hplan).1
    obtain ⟨rfl, hfull⟩ := elfPlan_true hplan
    exact hloads.byte hw (fun g hg => (hlow g hg).1) hfull hp ht hk

/-! ### A segment of two bytes -/

/-- The program header of the file. -/
def twoBytesPhdr : Phdr := ⟨1, 1, 0x08048000, 1, 2, 0⟩

theorem twoBytes_phdrs : phdrs twoBytes = [twoBytesPhdr] := rfl

theorem twoBytes_plan (fuel : Nat) :
    elfPlan twoBytes (fuel + 2) = some ([⟨twoBytesPhdr, 0x08048000⟩], true) := rfl

/-- What loading the file takes from the small machine. -/
structure SmallPlan (s : Machine) (i j : Nat) : Prop where
  clear : ClearPlan twoBytes s
  user : UserPlan twoBytes s
  mappable : ∃ t, mapPages [⟨twoBytesPhdr, 0x08048000⟩] s = .ok t ∧
    t.kmem = UserSystem.smallKmem (i + 1) ∧
    t.kmemPhysEnd = 0x1A8000 ∧ t.hmemPhysEnd = 0x210000 - 4096 * (j + 1)

section Small

variable {m : UserSystem} {i j : Nat} (h : m.SmallFresh i j) (hi : i < 7) (hj : j ≤ 50)
include h hi hj

/-- A new task of the small machine can map the page of the file. -/
theorem small_map : ∃ q t, (⟨twoBytesPhdr, 0x08048000⟩ : Page).map m.machine = .ok (q, t) ∧
    t.kmem = UserSystem.smallKmem (i + 1) ∧ t.kmemPhysEnd = 0x1A8000 ∧
    t.hmemPhysEnd = 0x210000 - 4096 * (j + 1) := by
  obtain ⟨c, held, taken⟩ := m
  obtain ⟨U, K, free, hinv⟩ := h.fromBoot.inv
  obtain ⟨p, ht⟩ := h.current
  have hend := h.kmemPhysEnd
  have hhend := h.hmemPhysEnd
  have hlist := hinv.free_nil.2
  rw [UserSystem.machine] at ht hend hhend hlist ⊢
  dsimp only at ht hend hhend hlist ⊢
  -- a page of hmem
  obtain ⟨s₁, hs₁⟩ : ∃ s₁, s₁ = { c.machine with hmemPhysEnd := 0x210000 - 4096 * (j + 1) } :=
    ⟨_, rfl⟩
  have halloc : c.machine.hmemAllocPage = .ok (0x210000 - 4096 * (j + 1), s₁) := by
    have hdown : (0x210000 - 4096 * j + (2 ^ 32 - 4096)) % 2 ^ 32 = 0x210000 - 4096 * (j + 1) := by
      omega
    rw [hmemAllocPage, if_pos hlist, hhend, hdown]
    dsimp only
    rw [if_pos (by omega), hs₁]
    rfl
  have hsame : s₁.mem = c.machine.mem ∧ s₁.kmem = c.machine.kmem ∧ s₁.cr3 = c.machine.cr3 ∧
      s₁.kmemPhysEnd = c.machine.kmemPhysEnd ∧ s₁.hmemPhysEnd = 0x210000 - 4096 * (j + 1) := by
    rw [hs₁]
    exact ⟨rfl, rfl, rfl, rfl, rfl⟩
  obtain ⟨hmem, hkmem, hcr3, hend₁, hhend₁⟩ := hsame
  -- and the table for it
  have hinv₁ : { c with machine := s₁ }.Inv U K :=
    (System.hmemAllocPage_changes hinv.hmem.system (hinv.hmem.pages ht) ht halloc).1
  have hbare : Bare s₁ (s₁.cr3 / 4096) := by
    have hpages : s₁.pages = c.machine.pages := by
      funext q k
      rw [pages, pages, hmem]
    rw [hcr3]
    intro k hk
    rw [hpages]
    exact h.bare k hk
  have ht₁ : (s₁.cr3, some p) ∈ c.tasks := by
    rw [hcr3]
    exact ht
  obtain ⟨hhead, hfind⟩ := UserSystem.smallKmem_free hi
  have hk : c.machine.kmem = UserSystem.smallKmem i := h.kmem
  rw [← hk, ← hkmem] at hhead hfind
  have htake := kmemAllocFuel_of_head 1 hhead hfind
  obtain ⟨t, hmap, htail⟩ := hinv₁.mapUserPage_bare ht₁ hbare (show 0x08048000 % 4096 = 0 by decide)
    (by decide) htake (0x210000 - 4096 * (j + 1)) (decide (twoBytesPhdr.flags &&& 2 ≠ 0))
  refine ⟨0x210000 - 4096 * (j + 1), t, ?_, ?_⟩
  · rw [Page.map, halloc]
    exact congrArg (fun x => x >>= fun s => Except.ok (0x210000 - 4096 * (j + 1), s)) hmap
  · have hglob : t.kmem = s₁.kmem.allocAt .k4 0 (i + 1) ∧ t.kmemPhysEnd = s₁.kmemPhysEnd ∧
        t.hmemPhysEnd = s₁.hmemPhysEnd := by
      rw [htail, Machine.take, memset]
      exact ⟨rfl, rfl, rfl⟩
    obtain ⟨hkmem', hend', hhend'⟩ := hglob
    exact ⟨by rw [hkmem', hkmem, hk, UserSystem.smallKmem], hend'.trans (hend₁.trans hend),
      hhend'.trans hhend₁⟩

theorem small_plan : SmallPlan m.machine i j := by
  obtain ⟨q, t, hmap, hkmem, hend, hhend⟩ := small_map h hi hj
  obtain ⟨p, ht⟩ := h.current
  obtain ⟨U, K, free, hinv⟩ := h.fromBoot.inv
  refine ⟨fun fuel l b hplan => ?_, fun fuel l b hplan => ?_, t, ?_, hkmem, hend, hhend⟩
  · rcases fuel with _ | _ | fuel
    · cases hplan
    · cases hplan
    · rw [twoBytes_plan] at hplan
      cases hplan
      intro q' s' hs'
      rw [hmap] at hs'
      obtain ⟨-, rfl⟩ := Prod.mk.inj (Except.ok.inj hs')
      exact ⟨by omega, trivial⟩
  · rcases fuel with _ | _ | fuel
    · cases hplan
    · cases hplan
    · rw [twoBytes_plan] at hplan
      cases hplan
      refine ⟨fun g hg => ?_, List.nodup_singleton _⟩
      rw [List.mem_singleton.1 hg]
      exact ⟨by decide, hinv.hmem.system.translate_bare ht h.bare (by decide)⟩
  · rw [mapPages, hmap]
    rfl

/-- The file is loaded. -/
theorem small_loads : ∃ entry w', loadElf (limited twoBytes 100) 2 ⟨m.machine, (), []⟩ =
    .ok (.ok (), entry, w') := by
  obtain ⟨hclear, huser, t, hmap, -⟩ := small_plan h hi hj
  exact loadElf_of_mapPages h.running (serves_limited _ (by decide)) hclear huser
    (twoBytes_plan 0) hmap

end Small

theorem loadElf_returns_small : ∃ w : HmemSystem, w.Running ∧
    Returns (limited twoBytes 100) w.machine () := by
  obtain ⟨m, h⟩ := UserSystem.smallFresh_exists
  obtain ⟨hclear, huser, t, hmap, -⟩ := small_plan h (by decide) (by decide)
  refine ⟨⟨m.system, m.held, []⟩, h.running,
    (loadElf_returns_iff h.running (serves_limited _ (by decide)) hclear huser).2 ?_⟩
  exact ⟨2, _, true, t, twoBytes_plan 0, hmap⟩

theorem loadElf_framed_two :
    ∃ (w : HmemSystem) (entry : Option Nat) (w' : World Unit) (l : List Page)
    (new : List Nat), loadElf (limited twoBytes 100) 2 ⟨w.machine, (), []⟩ =
      .ok (.ok (), entry, w') ∧
      l.map Page.virt = [0x08048000] ∧ Framed w l new w'.machine := by
  obtain ⟨m, h⟩ := UserSystem.smallFresh_exists
  obtain ⟨hclear, huser, -⟩ := small_plan h (by decide) (by decide)
  obtain ⟨entry, w', hload⟩ := small_loads h (by decide) (by decide)
  obtain ⟨l, b, new, hplan, -, hframed⟩ :=
    loadElf_framed h.running (serves_limited _ (by decide)) hclear
    huser hload
  rw [twoBytes_plan] at hplan
  cases hplan
  exact ⟨⟨m.system, m.held, []⟩, entry, w', _, new, hload, rfl, hframed⟩

theorem loadElf_bytes_two : ∃ (w : HmemSystem) (entry : Option Nat) (w' : World Unit) (a : Nat),
    loadElf (limited twoBytes 100) 2 ⟨w.machine, (), []⟩ = .ok (.ok (), entry, w') ∧
    w'.machine.translate 0x08048000 = some a ∧ w'.machine.mem a = 0x45 := by
  obtain ⟨m, h⟩ := UserSystem.smallFresh_exists
  obtain ⟨hclear, huser, -⟩ := small_plan h (by decide) (by decide)
  obtain ⟨entry, w', hload⟩ := small_loads h (by decide) (by decide)
  obtain ⟨a, ha, hbyte, -⟩ :=
    loadElf_bytes h.running (serves_limited _ (by decide)) hclear huser hload
    (p := twoBytesPhdr) (k := 0) (by rw [twoBytes_phdrs]; exact List.mem_cons_self) rfl (by decide)
  exact ⟨⟨m.system, m.held, []⟩, entry, w', a, hload, ha, hbyte⟩

end TinyLittleOs.Scheduler
