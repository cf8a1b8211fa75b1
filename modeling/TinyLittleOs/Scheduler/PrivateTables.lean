import TinyLittleOs.Scheduler.HmemSystem

/-!
# The user half

All directories share the tables of the kernel. In the user half every directory has its own, and
the kernel's own directory has none. So the kernel's steps leave the user halves alone, and what a
task maps is in no other address space.
-/

namespace TinyLittleOs.Scheduler

open Lib Memory Memory.Machine

namespace System

/-- An index of a directory in the user half. -/
def UserIndex (i : Fin 1024) : Prop := i.val < 768

/-- A page of the user half. -/
def UserPage (v : Nat) : Prop := v < 0xC0000000 ∧ v % 4096 = 0

/-- The entry for the page at `v` in the directory of page `a`. -/
def entry (s : Machine) (a v : Nat) : Nat := s.pages.walk tablePage a (dirOf v) (tabOf v)

/-- In the user half no table belongs to two directories. -/
structure Private (c : System) : Prop where
  first : ∀ i, UserIndex i →
    tablePage (c.machine.pages (pageNo c.machine.firstPageDirectory) i) = none
  apart : ∀ a ∈ c.dirs, ∀ b ∈ c.dirs, ∀ i t, UserIndex i →
    tablePage (c.machine.pages a i) = some t →
    tablePage (c.machine.pages b i) = some t → a = b

/-- The user halves stay as they are, and so does memory above kmem. -/
structure UserKept (c : System) (s' : Machine) : Prop where
  isPrivate : { c with machine := s' }.Private
  dir : s'.firstPageDirectory = c.machine.firstPageDirectory
  entry : ∀ a ∈ c.dirs, ∀ v, UserPage v → entry s' a v = entry c.machine a v
  mem : ∀ x, s'.kmemPhysEnd ≤ x → s'.mem x = c.machine.mem x
  kmemEnd : c.machine.kmemPhysEnd ≤ s'.kmemPhysEnd
  hmemPhysEnd : s'.hmemPhysEnd = c.machine.hmemPhysEnd
  hmemPhysList : s'.hmemPhysList = c.machine.hmemPhysList

theorem UserPage.index {v : Nat} (h : UserPage v) : UserIndex (dirOf v) := by
  have hlt := h.1
  simp only [UserIndex, dirOf, Fin.val_ofNat]
  omega

theorem UserIndex.lt {v : Nat} (h : UserIndex (dirOf v)) (hv : v < 2 ^ 32) : v < 0xC0000000 := by
  simp only [UserIndex, dirOf, Fin.val_ofNat] at h
  omega

section

variable {c c' : System} {U K : List Block} {s' s'' : Machine}

/-- Other directories may be gone. -/
theorem Private.congr (hp : c.Private)
    (hdir : c'.machine.firstPageDirectory = c.machine.firstPageDirectory) (hdirs : c'.dirs ⊆ c.dirs)
    (hpages : ∀ a, (a = pageNo c.machine.firstPageDirectory ∨ a ∈ c'.dirs) → ∀ i, UserIndex i →
      c'.machine.pages a i = c.machine.pages a i) : c'.Private := by
  refine ⟨fun i hi => ?_, fun a ha b hb i t hi hat hbt => ?_⟩
  · rw [hdir, hpages _ (Or.inl rfl) i hi]
    exact hp.first i hi
  · rw [hpages a (Or.inr ha) i hi] at hat
    rw [hpages b (Or.inr hb) i hi] at hbt
    exact hp.apart a (hdirs ha) b (hdirs hb) i t hi hat hbt

theorem UserKept.trans (h : UserKept c s') (h' : UserKept { c with machine := s' } s'') :
    UserKept c s'' := by
  have hdirs := dirs_congr h.dir
  have hend := h'.kmemEnd
  dsimp only at hend
  refine ⟨h'.isPrivate, h'.dir.trans h.dir, fun a ha v hv => ?_, fun x hx => ?_,
    le_trans h.kmemEnd hend,
    h'.hmemPhysEnd.trans h.hmemPhysEnd, h'.hmemPhysList.trans h.hmemPhysList⟩
  · exact (h'.entry a (hdirs ▸ ha) v hv).trans (h.entry a ha v hv)
  · exact (h'.mem x hx).trans (h.mem x (by omega))

/-- Writes to kmem that change no directory and no table, and registers. -/
theorem UserKept.of_pages (hp : c.Private)
    (hdir : s'.firstPageDirectory = c.machine.firstPageDirectory)
    (hpages : ∀ q, c.machine.pages.Refs tablePage c.dirs q → s'.pages q = c.machine.pages q)
    (hmem : ∀ x, s'.kmemPhysEnd ≤ x → s'.mem x = c.machine.mem x)
    (hend : s'.kmemPhysEnd = c.machine.kmemPhysEnd) (hhend : s'.hmemPhysEnd = c.machine.hmemPhysEnd)
    (hlist : s'.hmemPhysList = c.machine.hmemPhysList) : UserKept c s' := by
  have hdirs := dirs_congr hdir
  refine ⟨hp.congr hdir hdirs.subset fun a ha i _ => ?_, hdir, fun a ha v _ => ?_, hmem,
    Nat.le_of_eq hend.symm, hhend, hlist⟩
  · have hin : a ∈ c.dirs := by
      rcases ha with rfl | ha
      · exact Or.inl rfl
      · exact hdirs ▸ ha
    exact congrFun (hpages a (PageMem.refs_dir hin)) i
  · exact PageMem.walk_congr hpages ha _ _

/-- The addresses that are mapped are those of the kernel half. -/
theorem Inv.userKept_maps (h : c.Inv U K) (hp : c.Private) {V : Nat → Nat → Prop}
    (hm : Maps c.spaces V c.machine s') (hV : ∀ d v, V d v → 0xC0000000 ≤ v ∧ v < 2 ^ 32)
    (hmem : ∀ x, s'.kmemPhysEnd ≤ x → s'.mem x = c.machine.mem x)
    (hend : c.machine.kmemPhysEnd ≤ s'.kmemPhysEnd) : UserKept c s' := by
  have hdirs := dirs_congr hm.dir
  have hglobals : s'.hmemPhysEnd = c.machine.hmemPhysEnd ∧ s'.hmemPhysList =
      c.machine.hmemPhysList := by
    rw [hm.globals]
    exact ⟨rfl, rfl⟩
  refine ⟨hp.congr hm.dir hdirs.subset fun a ha i hi => ?_, hm.dir, fun a ha v hv => ?_, hmem,
    hend, hglobals.1, hglobals.2⟩
  · have hin : a ∈ c.dirs := by
      rcases ha with rfl | ha
      · exact h.paged.first.2
      · exact hdirs ▸ ha
    by_contra hne
    obtain ⟨v, hv, rfl⟩ := hm.entries a hin i hne
    have hkernel := hV a v hv
    have hlt := hi.lt hkernel.2
    omega
  · refine hm.walk a ha v hv.2 (by have := hv.1; omega) fun d hd => ?_
    have hkernel := hV d v hd
    have hlt := hv.1
    omega

/-! ## Steps of kmem -/

theorem Inv.userKept_alloc (h : c.Inv U K) (hp : c.Private) {n : BlockSize} {p : Nat}
    (hs : c.machine.kmemAlloc n = .ok (p, s')) : UserKept c s' := by
  obtain ⟨x, T, hf⟩ := (kmemAlloc_fetched h.tracked h.paged n).of_ok hs
  have hleaves := (kmemAllocFuel_leaves h.tracked h.paged 2 n (Nat.le_refl _)).of_ok hs
  have hend := pageOf_end h.tracked
  have hend' := pageOf_end hf.tracked
  have hmono := pageOf_mono hf.maps.base hf.maps.pos
  dsimp only at hend' hmono
  refine h.userKept_maps hp hf.maps (fun d v hgrowth => ?_) (fun x hx => hleaves x ?_) ?_
  · have hkernel := hgrowth.kernelAt hf.tracked hf.maps.base
    exact ⟨hkernel.1, by have := hkernel.2; omega⟩
  · rw [hend']
    exact hx
  · omega

theorem userKept_free (hp : c.Private) {n : BlockSize} {p : Nat}
    (hs : c.machine.kmemFree n p = .ok s') : UserKept c s' := by
  obtain ⟨hpages, hdir, -⟩ := kmemFree_frame hs
  obtain ⟨halike, hmem⟩ := kmemFree_alike hs
  have hglobals : s'.kmemPhysEnd = c.machine.kmemPhysEnd ∧ s'.hmemPhysEnd = c.machine.hmemPhysEnd ∧
      s'.hmemPhysList = c.machine.hmemPhysList := by
    rw [halike.globals]
    exact ⟨rfl, rfl, rfl⟩
  exact .of_pages hp hdir (fun q _ => by rw [hpages]) (fun x _ => by rw [hmem])
    hglobals.1 hglobals.2.1
    hglobals.2.2

/-- The last table of a task. -/
theorem Inv.userKept_newTable {x : Block} (h : c.Inv U (x :: K)) (hp : c.Private)
    (hsize : x.size = .k4)
    (hx : ¬ c.machine.Holds c.spaces (c.machine.pageOf x.buddy x.index)) {p : Nat}
    (heq : p = (see c.machine x).2) {cr3 : Nat} (htask : (cr3, none) ∈ c.tasks)
    (hs' : s' = (c.machine.memset p 0 4096).store (toVirt cr3 + 4 * 0x3FF) (fromKmem p ||| prwr)) :
    UserKept c s' := by
  obtain ⟨-, hm, -⟩ := h.newTable_maps hsize hx heq htask hs'
  have hend : s'.kmemPhysEnd = c.machine.kmemPhysEnd := by rw [hs', store, memset]
  refine h.userKept_maps hp hm (fun d v hv => ?_) (fun y hy => ?_) (Nat.le_of_eq hend.symm)
  · rw [hv.2]
    decide
  · obtain ⟨hptr, hno⟩ := h.dirPtr htask
    dsimp only at hptr hno
    have hmem : x ∈ U ++ x :: K := by simp
    have hpage := pagePtr_see h.tracked hmem
    rw [← heq] at hpage
    have hbelow := h.below (Or.inl (PageMem.refs_dir (h.mem_dirs htask)))
    dsimp only at hbelow
    have huse := (h.tracked.inUse_of_mem hmem hsize).1
    obtain ⟨hb, hi⟩ := h.tracked.marked.valid x hmem
    have haddr := (h.tracked.toLayout.blockAddr_page hb hi).2
    have hsee : (see c.machine x).2 = c.machine.kmem.blockAddr x.size x.buddy x.index := rfl
    rw [← hsee, ← heq, hsize] at haddr
    simp only [BlockSize.order, pow_zero, Nat.mul_one] at haddr
    have hkend := pageOf_end h.tracked
    have hstore : fromKmem (toVirt cr3 + 4 * 0x3FF) = 4096 * (cr3 / 4096) + 4 * 0x3FF := by
      rw [hptr.fromKmem_add (by decide), hno]
    rw [hs', store_mem, hstore, memset_mem, haddr, ByteMem.store32_of_out (by omega),
      ByteMem.fill_of_out (by omega)]

/-! ## A page of the user half is mapped -/

/-- The directory of page `a` with the kernel's own. What belongs to the others is kept. -/
def focus (c : System) (a : Nat) : Spaces where
  dirs := {q | q = pageNo c.machine.firstPageDirectory ∨ q = a}
  kept := {q | c.machine.pages.Refs tablePage c.dirs q ∧
    ¬ c.machine.pages.Refs tablePage {q | q = pageNo c.machine.firstPageDirectory ∨ q = a} q}

section Focus

variable {a b : Nat} (h : c.Inv U K) (ha : a ∈ c.dirs)
include h ha

theorem Inv.focus_paged : c.machine.Paged (c.focus a) := by
  refine h.paged.mono ?_ (Or.inl rfl) fun q hq => ⟨h.paged.inUse q (Or.inl hq.1), hq.2⟩
  rintro q (rfl | rfl)
  · exact h.paged.first.2
  · exact ha

variable (hb : b ∈ c.dirs) (hne : b ≠ a)
include hb hne

theorem Inv.dir_kept (hfirst : b ≠ pageNo c.machine.firstPageDirectory) : b ∈ (c.focus a).kept := by
  refine ⟨PageMem.refs_dir hb, ?_⟩
  rintro (hin | ⟨d, hd, i, ht⟩)
  · exact hin.elim hfirst hne
  · have hdir : d ∈ c.dirs := by
      rcases hd with rfl | rfl
      · exact h.paged.first.2
      · exact ha
    exact h.paged.separate.table d hdir i b ht hb

/-- A table of the user half stays with its directory. -/
theorem Inv.table_kept (hp : c.Private) {i : Fin 1024} {t : Nat} (hi : UserIndex i)
    (ht : tablePage (c.machine.pages b i) = some t) : t ∈ (c.focus a).kept := by
  refine ⟨PageMem.refs_table hb ht, ?_⟩
  have hfirst := h.paged.first.2
  rintro (hin | ⟨d, hd, j, hdt⟩)
  · refine h.paged.separate.table b hb i t ht ?_
    rcases hin with rfl | rfl
    · exact hfirst
    · exact ha
  · rcases hd with rfl | rfl
    · obtain rfl := h.paged.separate.index _ hfirst b hb j i t hdt ht
      rw [hp.first j hi] at hdt
      cases hdt
    · obtain rfl := h.paged.separate.index _ ha b hb j i t hdt ht
      exact hne (hp.apart b hb _ ha j t hi ht hdt)

end Focus

/-- `map_user_page` in the user half changes one entry of one address space. -/
theorem Inv.mapUserPage_private (h : c.Inv U K) (hp : c.Private) {p virt phys : Nat}
    {writable : Bool}
    (ht : (c.machine.cr3, some p) ∈ c.tasks) (hvirt : virt < 0xC0000000) (hphys : phys < 2 ^ 32)
    (hs : Scheduler.mapUserPage virt phys writable c.machine = .ok s') :
    { c with machine := s' }.Private ∧
      (∀ a ∈ c.dirs, ∀ v, UserPage v → ¬ (a = c.machine.cr3 / 4096 ∧ v = virt) →
        entry s' a v = entry c.machine a v) ∧
      entry s' (c.machine.cr3 / 4096) virt = userEntry phys writable := by
  obtain ⟨T, hm⟩ := h.mapUserPage_mapped ht (by omega) hphys hs
  obtain ⟨hptr, hno⟩ := h.dirPtr ht
  dsimp only at hptr hno
  have ha := h.mem_dirs ht
  have hne := h.dir_ne_first ht
  dsimp only at ha hne
  generalize hdirOf : c.machine.cr3 / 4096 = a at hno ha hne ⊢
  have hmap := mapUserPage_eq_ok.1 hs
  have hpaged := h.focus_paged ha
  -- the same call, where the pages of the other directories are kept
  obtain ⟨T', hf⟩ :=
    (mapPage_mapped h.tracked hpaged hptr (Or.inr hno) (aligned_of_mapPage hmap) (by omega)
    (userEntry_lt hphys writable)
    (by decide) (by decide) (kmemAlloc_fetched h.tracked hpaged .k4)).of_ok hmap
  have hkernel (d v : Nat) (hgrowth : ByGrowth c.machine s' d v) : 0xC0000000 ≤ v ∧ v < 2 ^ 32 := by
    have hat := hgrowth.kernelAt hm.tracked hm.maps.base
    exact ⟨hat.1, by have := hat.2; omega⟩
  have hfirst (i : Fin 1024) (hi : UserIndex i) :
      s'.pages (pageNo c.machine.firstPageDirectory) i =
        c.machine.pages (pageNo c.machine.firstPageDirectory) i := by
    by_contra hchange
    obtain ⟨v, hv, rfl⟩ := hm.maps.entries _ h.paged.first.2 i hchange
    rcases hv with ⟨heq, -⟩ | hgrowth
    · exact hne (hno.symm.trans heq.symm)
    · have hat := hkernel _ v hgrowth
      have hlt := hi.lt hat.2
      omega
  have hother (b : Nat) (hb : b ∈ c.dirs) (hba : b ≠ a) (i : Fin 1024) (hi : UserIndex i) :
      s'.pages b i = c.machine.pages b i := by
    by_cases heq : b = pageNo c.machine.firstPageDirectory
    · rw [heq]
      exact hfirst i hi
    · exact congrFun (hf.maps.kept b (h.dir_kept ha hb hba heq)) i
  have hshare (b : Nat) (hb : b ∈ c.dirs) (hba : b ≠ a) (i : Fin 1024) (t : Nat) (hi : UserIndex i)
      (hbt : tablePage (s'.pages b i) = some t) : tablePage (s'.pages a i) ≠ some t := by
    rw [hother b hb hba i hi] at hbt
    intro hat
    exact hf.maps.paged.kept t (h.table_kept ha hb hba hp hi hbt)
      (PageMem.refs_table (Or.inr rfl) hat)
  have hdirs := dirs_congr (c := c) hm.maps.dir
  refine ⟨⟨fun i hi => ?_, fun b hb b' hb' i t hi hbt hbt' => ?_⟩, fun b hb v hv hnot => ?_, ?_⟩
  · dsimp only
    rw [hm.maps.dir, hfirst i hi]
    exact hp.first i hi
  · rw [hdirs] at hb hb'
    dsimp only at hbt hbt'
    by_cases hba : b = a
    · by_cases hba' : b' = a
      · rw [hba, hba']
      · rw [hba] at hbt
        exact absurd hbt (hshare b' hb' hba' i t hi hbt')
    · by_cases hba' : b' = a
      · rw [hba'] at hbt'
        exact absurd hbt' (hshare b hb hba i t hi hbt)
      · rw [hother b hb hba i hi] at hbt
        rw [hother b' hb' hba' i hi] at hbt'
        exact hp.apart b hb b' hb' i t hi hbt hbt'
  · by_cases hba : b = a
    · refine hm.maps.walk b hb v hv.2 (by have := hv.1; omega) fun d hd => ?_
      rcases hd with ⟨-, heq⟩ | hgrowth
      · exact hnot ⟨hba, heq⟩
      · have hat := hkernel d v hgrowth
        have hlt := hv.1
        omega
    · rw [entry, entry, PageMem.walk, PageMem.walk, hother b hb hba _ hv.index]
      cases htable : tablePage (c.machine.pages b (dirOf v)) with
      | none => rfl
      | some t =>
          exact congrFun (hf.maps.kept t (h.table_kept ha hb hba hp hv.index htable)) (tabOf v)
  · have hwalk := hm.walk
    rw [hno] at hwalk
    exact hwalk

end

/-! ## Steps of the kernel -/

/-- A step in which the kernel maps no pages of a task and writes to its own memory only. -/
inductive KernelStep : System → System → Prop
  | alloc {s s' : Machine} {held : List (BlockSize × Nat)} {tasks : List (Nat × Option Nat)}
      {ended : List Nat} {n : BlockSize} {p : Nat} :
      s.kmemAlloc n = .ok (p, s') →
      KernelStep ⟨s, held, tasks, ended⟩ ⟨s', (n, p) :: held, tasks, ended⟩
  | free {s s' : Machine} {u v : List (BlockSize × Nat)} {tasks : List (Nat × Option Nat)}
      {ended : List Nat} {n : BlockSize} {p : Nat} :
      s.kmemFree n p = .ok s' →
      KernelStep ⟨s, u ++ (n, p) :: v, tasks, ended⟩ ⟨s', u ++ v, tasks, ended⟩
  | newPageDirectory {s s' : Machine} {held : List (BlockSize × Nat)}
      {tasks : List (Nat × Option Nat)} {ended : List Nat} {cr3 : Nat} :
      s.newPageDirectory = .ok (cr3, s') →
      KernelStep ⟨s, held, tasks, ended⟩ ⟨s', held, (cr3, none) :: tasks, ended⟩
  | enter {s : Machine} {held : List (BlockSize × Nat)} {tasks : List (Nat × Option Nat)}
      {ended : List Nat} {t : Nat × Option Nat} {hmemEnd : Nat} :
      t ∈ tasks →
      KernelStep ⟨s, held, tasks, ended⟩ ⟨{ s with cr3 := t.1, hmemEnd }, held, tasks, ended⟩
  | wrapperBegin {s s' : Machine} {held : List (BlockSize × Nat)} {u v : List (Nat × Option Nat)}
      {ended : List Nat} {p : Nat} :
      Kernel.wrapperBegin s = .ok (p, s') →
      KernelStep ⟨s, held, u ++ (s.cr3, none) :: v, ended⟩
      ⟨s', held, u ++ (s.cr3, some p) :: v, ended⟩
  /-- Writes below the end of kmem, to pages that are no directories and no page tables. -/
  | write {s : Machine} {held : List (BlockSize × Nat)} {tasks : List (Nat × Option Nat)}
      {ended : List Nat} {mem : ByteMem} :
      (∀ q, s.pages.Refs tablePage (dirs ⟨s, held, tasks, ended⟩) q ∨
        (∃ cr3 ∈ ended, q = cr3 / 4096) →
        ({ s with mem } : Machine).pages q = s.pages q) →
      (∀ x, s.kmemPhysEnd ≤ x → mem x = s.mem x) →
      KernelStep ⟨s, held, tasks, ended⟩ ⟨{ s with mem }, held, tasks, ended⟩
  | wrapperEnd {s s₁ s₂ : Machine} {a b : List (BlockSize × Nat)} {u v : List (Nat × Option Nat)}
      {ended : List Nat} {p stack : Nat} :
      s.kmemFree4k p = .ok s₁ → s₁.kmemFree4k stack = .ok s₂ →
      KernelStep ⟨s, a ++ (.k8, stack) :: b, u ++ (s.cr3, some p) :: v, ended⟩
        ⟨s₂, (.k4, stack + 4096) :: (a ++ b), u ++ v, s.cr3 :: ended⟩

theorem KernelStep.step {c c' : System} (h : KernelStep c c') : Step userTop c c' := by
  cases h with
  | alloc h => exact .alloc h
  | free h => exact .free h
  | newPageDirectory h => exact .newPageDirectory h
  | enter h => exact .enter h
  | wrapperBegin h => exact .wrapperBegin h
  | write h _ => exact .write h
  | wrapperEnd h h' => exact .wrapperEnd h h'

/-- The values of `cr3` of the tasks. -/
def spaceIds (c : System) : List Nat := c.tasks.map Prod.fst

/-- The address spaces of tasks stay as they are in the user half, and new ones are empty there. -/
structure Spared (c c' : System) : Prop where
  isPrivate : c'.Private
  old : ∀ t ∈ c'.spaceIds, t ∈ c.spaceIds → ∀ v, UserPage v →
    entry c'.machine (t / 4096) v = entry c.machine (t / 4096) v
  new : ∀ t ∈ c'.spaceIds, t ∉ c.spaceIds → ∀ v, UserPage v → entry c'.machine (t / 4096) v = 0
  mem : ∀ x, c'.machine.kmemPhysEnd ≤ x → c'.machine.mem x = c.machine.mem x
  hmemPhysEnd : c'.machine.hmemPhysEnd = c.machine.hmemPhysEnd
  hmemPhysList : c'.machine.hmemPhysList = c.machine.hmemPhysList

section Spared

variable {c c' : System} {U K : List Block}

theorem dir_of_mem {t : Nat} (ht : t ∈ c.spaceIds) : t / 4096 ∈ c.dirs := by
  obtain ⟨x, hx, rfl⟩ := List.mem_map.1 ht
  exact Or.inr ⟨x, hx, rfl⟩

theorem UserKept.spared (hk : UserKept c c'.machine) (hsub : ∀ t ∈ c'.spaceIds, t ∈ c.spaceIds) :
    Spared c c' := by
  refine ⟨?_, fun t ht hold v hv => hk.entry _ (dir_of_mem hold) v hv, fun t ht hnew =>
    absurd (hsub t ht) hnew,
    hk.mem, hk.hmemPhysEnd, hk.hmemPhysList⟩
  refine hk.isPrivate.congr rfl ?_ fun _ _ _ _ => rfl
  rintro q (hq | ⟨t, ht, rfl⟩)
  · exact Or.inl hq
  · obtain ⟨t', ht', heq⟩ := List.mem_map.1 (hsub t.1 (List.mem_map_of_mem ht))
    exact Or.inr ⟨t', ht', by rw [heq]⟩

/-- A new directory is a copy of the kernel's own, which has nothing in the user half. -/
theorem Inv.newPageDirectory_spared (h : c.Inv U K) (hp : c.Private) {cr3 : Nat} {s' : Machine}
    (hs : c.machine.newPageDirectory = .ok (cr3, s')) :
    Spared c ⟨s', c.held, (cr3, none) :: c.tasks, c.ended⟩ := by
  obtain ⟨p, s₁, halloc, rfl, rfl⟩ := h.newPageDirectory_eq_ok.1 hs
  have hk := h.userKept_alloc hp halloc
  obtain ⟨x, T, hinv, hsee, hfresh, -⟩ := h.fetched halloc
  have hmem : x ∈ U ++ x :: (T ++ K) := by simp
  have hptr := pagePtr_see hinv.tracked hmem
  dsimp only at hptr hfresh
  rw [hsee] at hptr
  have hlo := hptr.lo
  have halign := hptr.aligned
  dsimp only at hlo halign
  -- the page of the directory is in kmem, and nobody has it
  have hin : s₁.PageIn x (fromKmem p / 4096) := by
    refine (ofBlock_see hinv.tracked hmem _).1 ?_
    rw [hsee, OfBlock, pageNo]
    simp [BlockSize.order]
  have hnot := hfresh _ hin
  have huse := (hinv.tracked.inUse_of_pageIn hmem hin).1
  have hend := pageOf_end hinv.tracked
  dsimp only at huse hend
  have hfrom : fromKmem p = 4096 * (fromKmem p / 4096) := by
    unfold fromKmem
    omega
  generalize fromKmem p / 4096 = q at hin hnot huse hfrom
  have hlayout := hinv.tracked.toLayout
  dsimp only at hlayout
  have hpages := pages_memcpy (s := s₁) hfrom hlayout.dirPage.2.2
  have hstay (r : Nat) (hr : s₁.pages.Refs tablePage { c with machine := s₁ }.dirs r) :
      (s₁.memcpy p s₁.firstPageDirectory 4096).pages r = s₁.pages r := by
    rw [hpages, Function.update_of_ne]
    rintro rfl
    exact hnot (Or.inl hr)
  have hcopy : (s₁.memcpy p s₁.firstPageDirectory 4096).pages q =
      s₁.pages (pageNo s₁.firstPageDirectory) := by
    rw [hpages, Function.update_self]
  have hsame : (s₁.memcpy p s₁.firstPageDirectory 4096).firstPageDirectory =
      s₁.firstPageDirectory := by
    rw [memcpy]
  have habove (y : Nat) (hy : (s₁.memcpy p s₁.firstPageDirectory 4096).kmemPhysEnd ≤ y) :
      (s₁.memcpy p s₁.firstPageDirectory 4096).mem y = s₁.mem y := by
    rw [memcpy] at hy ⊢
    dsimp only at hy ⊢
    rw [ByteMem.copy, if_neg (by omega)]
  have hkept : UserKept { c with machine := s₁ } (s₁.memcpy p s₁.firstPageDirectory 4096) :=
    .of_pages hk.isPrivate hsame hstay habove (by rw [memcpy]) (by rw [memcpy]) (by rw [memcpy])
  have hall := hk.trans hkept
  have hnone (i : Fin 1024) (hi : UserIndex i) :
      tablePage ((s₁.memcpy p s₁.firstPageDirectory 4096).pages q i) = none := by
    rw [hcopy]
    exact hk.isPrivate.first i hi
  have hq : fromKmem p / 4096 = q := by omega
  generalize s₁.memcpy p s₁.firstPageDirectory 4096 = s' at hall hnone
  have hcases (a : Nat)
      (ha : a ∈ (System.mk s' c.held ((fromKmem p, none) :: c.tasks) c.ended).dirs) :
      a = q ∨ a ∈ { c with machine := s' }.dirs := by
    rcases ha with ha | ⟨t, ht, ha⟩
    · exact Or.inr (Or.inl ha)
    · rcases List.mem_cons.1 ht with rfl | ht
      · exact Or.inl (ha.trans hq)
      · exact Or.inr (Or.inr ⟨t, ht, ha⟩)
  refine ⟨⟨hall.isPrivate.first, fun a ha b hb i t hi hat hbt => ?_⟩,
    fun t _ hold v hv => hall.entry _ (dir_of_mem hold) v hv, fun t ht hnew v hv => ?_, hall.mem,
    hall.hmemPhysEnd, hall.hmemPhysList⟩
  · dsimp only at hat hbt
    rcases hcases a ha with rfl | ha
    · rw [hnone i hi] at hat
      cases hat
    · rcases hcases b hb with rfl | hb
      · rw [hnone i hi] at hbt
        cases hbt
      · exact hall.isPrivate.apart a ha b hb i t hi hat hbt
  · rcases List.mem_cons.1 ht with rfl | ht
    · rw [hq]
      exact PageMem.walk_of_none (hnone _ hv.index)
    · exact absurd ht hnew

theorem Inv.wrapperBegin_spared (h : c.Inv U K) (hp : c.Private)
    {u v : List (Nat × Option Nat)} {p : Nat}
    {s' : Machine} (htasks : c.tasks = u ++ (c.machine.cr3, none) :: v)
    (hs : Kernel.wrapperBegin c.machine = .ok (p, s')) :
    Spared c ⟨s', c.held, u ++ (c.machine.cr3, some p) :: v, c.ended⟩ := by
  rw [Kernel.wrapperBegin, kmemAlloc4k] at hs
  obtain ⟨⟨q, s₁⟩, halloc, hs⟩ := bind_eq_ok.1 hs
  dsimp only at hs
  obtain ⟨rfl, hs'⟩ := Prod.mk.inj (Except.ok.inj hs)
  have hk := h.userKept_alloc hp halloc
  obtain ⟨x, T, hinv, hsee, hfresh, hcr3⟩ := h.fetched halloc
  have hsize : x.size = .k4 := congrArg Prod.fst hsee
  have hpointer : q = (see s₁ x).2 := congrArg Prod.snd hsee.symm
  have hsame : (s₁.memset q 0 4096).cr3 = c.machine.cr3 := by
    rw [memset]
    exact hcr3
  rw [Nat.or_assoc, hsame] at hs'
  have htask : (c.machine.cr3, none) ∈ c.tasks := by
    rw [htasks]
    simp
  have hnew :=
    hinv.userKept_newTable hk.isPrivate hsize (page_holds hsize hfresh) hpointer htask hs'.symm
  refine (hk.trans hnew).spared fun t ht => ?_
  simpa [spaceIds, htasks] using ht

theorem wrapperEnd_spared (hp : c.Private) {a b : List (BlockSize × Nat)}
    {u v : List (Nat × Option Nat)}
    {cr3 p stack : Nat} {s₁ s₂ : Machine} (htasks : c.tasks = u ++ (cr3, some p) :: v)
    (hpage : c.machine.kmemFree4k p = .ok s₁) (hstack : s₁.kmemFree4k stack = .ok s₂) :
    Spared c ⟨s₂, (.k4, stack + 4096) :: (a ++ b), u ++ v, cr3 :: c.ended⟩ := by
  have hk := userKept_free hp hpage
  have hk' := userKept_free hk.isPrivate hstack
  refine (hk.trans hk').spared fun t ht => ?_
  simp only [spaceIds, htasks, List.map_append, List.map_cons, List.mem_append,
    List.mem_cons] at ht ⊢
  tauto

theorem KernelStep.spared (hs : KernelStep c c') (h : c.Inv U K) (hp : c.Private) :
    Spared c c' := by
  cases hs with
  | alloc halloc => exact (h.userKept_alloc hp halloc).spared fun _ ht => ht
  | free hfree => exact (userKept_free hp hfree).spared fun _ ht => ht
  | newPageDirectory hnew => exact h.newPageDirectory_spared hp hnew
  | enter ht =>
    apply UserKept.spared
    · exact .of_pages hp rfl (fun _ _ => rfl) (fun _ _ => rfl) rfl rfl rfl
    · exact fun _ ht => ht
  | wrapperBegin hbegin => exact h.wrapperBegin_spared hp rfl hbegin
  | write hpages hmem =>
    apply UserKept.spared
    · exact .of_pages hp rfl (fun q hq => hpages q (Or.inl hq)) hmem rfl rfl rfl
    · exact fun _ ht => ht
  | wrapperEnd hpage hstack => exact wrapperEnd_spared hp rfl hpage hstack

end Spared

end System

end TinyLittleOs.Scheduler
