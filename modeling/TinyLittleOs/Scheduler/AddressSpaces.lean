import TinyLittleOs.Memory.InitTables
import TinyLittleOs.Scheduler.Elf
import TinyLittleOs.Scheduler.TaskMemory

/-!
# The address spaces of tasks

A run after `init_page_allocator` allocates and frees, creates and ends tasks, and maps pages into
their address spaces. Every page directory is a copy of `first_page_directory` and never updated,
but all tables of the kmem region were there before the first copy, so the directories agree there.
That holds while `map_user_page` gets addresses below kmem: nothing in the code checks them.
-/

namespace TinyLittleOs.Scheduler

open Lib Memory Memory.Machine Relation

/-- The machine, the blocks that are allocated, the tasks with the value of `cr3` and the page table
for hmem mappings, and the values of `cr3` of tasks that ended. -/
structure System where
  machine : Machine
  held : List (BlockSize × Nat)
  tasks : List (Nat × Option Nat)
  ended : List Nat

namespace System

/-- The pages of the directories that are in use. -/
def dirs (c : System) : Set Nat :=
  {q | q = pageNo c.machine.firstPageDirectory ∨ ∃ t ∈ c.tasks, q = t.1 / 4096}

/-- Page `q` is a page of a block, given by size and pointer. -/
def OfBlock (x : BlockSize × Nat) (q : Nat) :
    Prop := pageNo x.2 ≤ q ∧ q < pageNo x.2 + 2 ^ x.1.order

def kept (c : System) :
    Set Nat := {q | (∃ x ∈ c.held, OfBlock x q) ∨ ∃ cr3 ∈ c.ended, q = cr3 / 4096}

def spaces (c : System) : Spaces := ⟨c.dirs, c.kept⟩

/-- The page table at the end of the address space. -/
def lastIndex : Fin 1024 := ⟨1023, by decide⟩

/-- One step of the kernel, where pages are mapped below `top`. -/
inductive Step (top : Nat) : System → System → Prop
  | alloc {s s' : Machine} {held : List (BlockSize × Nat)} {tasks : List (Nat × Option Nat)}
      {ended : List Nat} {n : BlockSize} {p : Nat} :
      s.kmemAlloc n = .ok (p, s') →
      Step top ⟨s, held, tasks, ended⟩ ⟨s', (n, p) :: held, tasks, ended⟩
  | free {s s' : Machine} {u v : List (BlockSize × Nat)} {tasks : List (Nat × Option Nat)}
      {ended : List Nat} {n : BlockSize} {p : Nat} :
      s.kmemFree n p = .ok s' →
      Step top ⟨s, u ++ (n, p) :: v, tasks, ended⟩ ⟨s', u ++ v, tasks, ended⟩
  /-- `task::allocate` -/
  | newPageDirectory {s s' : Machine} {held : List (BlockSize × Nat)}
      {tasks : List (Nat × Option Nat)} {ended : List Nat} {cr3 : Nat} :
      s.newPageDirectory = .ok (cr3, s') →
      Step top ⟨s, held, tasks, ended⟩ ⟨s', held, (cr3, none) :: tasks, ended⟩
  /-- A task is entered. -/
  | enter {s : Machine} {held : List (BlockSize × Nat)} {tasks : List (Nat × Option Nat)}
      {ended : List Nat} {t : Nat × Option Nat} {hmemEnd : Nat} :
      t ∈ tasks →
      Step top ⟨s, held, tasks, ended⟩ ⟨{ s with cr3 := t.1, hmemEnd }, held, tasks, ended⟩
  | wrapperBegin {s s' : Machine} {held : List (BlockSize × Nat)} {u v : List (Nat × Option Nat)}
      {ended : List Nat} {p : Nat} :
      Kernel.wrapperBegin s = .ok (p, s') →
      Step top ⟨s, held, u ++ (s.cr3, none) :: v, ended⟩
      ⟨s', held, u ++ (s.cr3, some p) :: v, ended⟩
  /-- The current task maps a page. -/
  | mapUserPage {s s' : Machine} {held : List (BlockSize × Nat)} {tasks : List (Nat × Option Nat)}
      {ended : List Nat} {p virt phys : Nat} {writable : Bool} :
      (s.cr3, some p) ∈ tasks → virt < top → phys < 2 ^ 32 →
      mapUserPage virt phys writable s = .ok s' →
      Step top ⟨s, held, tasks, ended⟩ ⟨s', held, tasks, ended⟩
  | hmemMap {s s' : Machine} {held : List (BlockSize × Nat)} {tasks : List (Nat × Option Nat)}
      {ended : List Nat} {p addr : Nat} :
      (s.cr3, some p) ∈ tasks → addr < 2 ^ 32 → s.hmemMap addr = .ok s' →
      Step top ⟨s, held, tasks, ended⟩ ⟨s', held, tasks, ended⟩
  /-- The globals and the registers of hmem. -/
  | hmem {s : Machine} {held : List (BlockSize × Nat)} {tasks : List (Nat × Option Nat)}
      {ended : List Nat} {hmemEnd hmemPhysEnd hmemPhysList : Nat} :
      Step top ⟨s, held, tasks, ended⟩
        ⟨{ s with hmemEnd, hmemPhysEnd, hmemPhysList }, held, tasks, ended⟩
  /-- Writes to pages that are no directories and no page tables. -/
  | write {s : Machine} {held : List (BlockSize × Nat)} {tasks : List (Nat × Option Nat)}
      {ended : List Nat} {mem : ByteMem} :
      (∀ q, s.pages.Refs tablePage (dirs ⟨s, held, tasks, ended⟩) q ∨
        (∃ cr3 ∈ ended, q = cr3 / 4096) →
        ({ s with mem } : Machine).pages q = s.pages q) →
      Step top ⟨s, held, tasks, ended⟩ ⟨{ s with mem }, held, tasks, ended⟩
  /-- `task_wrapper` and `_sched_final_free` end the current task with the given stack. -/
  | wrapperEnd {s s₁ s₂ : Machine} {a b : List (BlockSize × Nat)} {u v : List (Nat × Option Nat)}
      {ended : List Nat} {p stack : Nat} :
      s.kmemFree4k p = .ok s₁ → s₁.kmemFree4k stack = .ok s₂ →
      Step top ⟨s, a ++ (.k8, stack) :: b, u ++ (s.cr3, some p) :: v, ended⟩
        ⟨s₂, (.k4, stack + 4096) :: (a ++ b), u ++ v, s.cr3 :: ended⟩

/-- Runs from the state that `init_page_allocator` leaves. -/
def Reachable (top : Nat) (s : Machine) (c : System) :
    Prop := ReflTransGen (Step top) ⟨s, [], [], []⟩ c

/-- Where the user half ends. -/
def userTop : Nat := 0xC0000000

/-! ## The invariant -/

/-- The blocks of the account that are known, as size and pointer. -/
def owned (c : System) : List (BlockSize × Nat) :=
  c.held ++ (c.tasks.filterMap Prod.snd).map (fun p => (.k4, p)) ++
    (c.tasks.map Prod.fst ++ c.ended).map fun cr3 => (.k4, toVirt cr3)

/-- A block as size and pointer. -/
def see (s : Machine) (x : Block) : BlockSize × Nat :=
  (x.size, s.kmem.blockAddr x.size x.buddy x.index)

/-- Where directories have tables: the kmem region is shared, and the last table is the task's
own. -/
structure Coherent (c : System) : Prop where
  covered : ∀ i, c.machine.Covers i →
    tablePage (c.machine.pages (pageNo c.machine.firstPageDirectory) i) ≠ none
  same : ∀ q, (q ∈ c.dirs ∨ ∃ cr3 ∈ c.ended, q = cr3 / 4096) → ∀ i, c.machine.Covers i →
    c.machine.pages q i = c.machine.pages (pageNo c.machine.firstPageDirectory) i
  last : tablePage (c.machine.pages (pageNo c.machine.firstPageDirectory) lastIndex) = none
  own : ∀ t ∈ c.tasks, tablePage (c.machine.pages (t.1 / 4096) lastIndex) = t.2.map pageNo

/-- The blocks `U` are known and the blocks `K` are page tables for user pages. -/
structure Inv (c : System) (U K : List Block) : Prop extends c.Coherent where
  tracked : c.machine.Tracked (U ++ K) 0
  owned : c.owned.Perm (U.map (see c.machine))
  paged : c.machine.Paged c.spaces
  small : ∀ cr3 ∈ c.tasks.map Prod.fst ++ c.ended, cr3 < 2 ^ 32
  direct : c.machine.Direct
  current : c.machine.cr3 = fromKmem c.machine.firstPageDirectory ∨
    c.machine.cr3 ∈ c.tasks.map Prod.fst ++ c.ended

section Blocks

variable {s : Machine} {L : List Block} {lag : Nat} (h : s.Tracked L lag) {x : Block} (hx : x ∈ L)
include h hx

theorem ofBlock_see (q : Nat) : OfBlock (see s x) q ↔ s.PageIn x q := by
  obtain ⟨hb, hi⟩ := h.marked.valid x hx
  obtain ⟨-, haddr⟩ := h.toLayout.blockAddr_page hb hi
  have hpage : pageNo (see s x).2 = s.pageOf x.buddy (x.index * 2 ^ x.size.order) := by
    rw [pageNo, see, haddr, Nat.mul_div_cancel_left _ (by decide)]
  rw [OfBlock, hpage, PageIn]
  rfl

theorem pagePtr_see : PagePtr (see s x).2 := by
  obtain ⟨hb, hi⟩ := h.marked.valid x hx
  exact (h.toLayout.blockAddr_page hb hi).1

end Blocks

theorem see_congr {s s' : Machine} (h : s'.kmem.base = s.kmem.base) : see s' = see s := by
  funext x
  rw [see, see, Client.blockAddr_congr h]

theorem pageNo_toVirt {cr3 : Nat} (h : cr3 < 2 ^ 32) : pageNo (toVirt cr3) = cr3 / 4096 := by
  unfold pageNo toVirt fromKmem
  omega

theorem toVirt_fromKmem {p : Nat} (h : PagePtr p) : toVirt (fromKmem p) = p := by
  have hlo := h.lo
  have hhi := h.hi
  unfold toVirt fromKmem
  omega

/-! ## Steps of the machine -/

theorem dirOf_ne_last {virt : Nat} (h : virt < 0xF8000000) : dirOf virt ≠ lastIndex := by
  intro hdir
  have hval := congrArg Fin.val hdir
  simp only [dirOf, lastIndex, Fin.val_ofNat] at hval
  omega

theorem dirs_congr {c : System} {s' : Machine}
    (h : s'.firstPageDirectory = c.machine.firstPageDirectory) :
    { c with machine := s' }.dirs = c.dirs := by
  rw [dirs, dirs, h]

theorem spaces_congr {c : System} {s' : Machine}
    (h : s'.firstPageDirectory = c.machine.firstPageDirectory) :
    { c with machine := s' }.spaces = c.spaces := by
  rw [spaces, spaces, dirs_congr h]
  rfl

/-- The entries that matter do not change. -/
theorem Coherent.congr {c : System} (h : c.Coherent) {s' : Machine}
    (hdir : s'.firstPageDirectory = c.machine.firstPageDirectory)
    (hregion : s'.kmemRegionEnd = c.machine.kmemRegionEnd)
    (hbase : s'.kmem.base = c.machine.kmem.base)
    (hentries : ∀ q, (q ∈ c.dirs ∨ ∃ cr3 ∈ c.ended, q = cr3 / 4096) → ∀ i,
      c.machine.Covers i ∨ i = lastIndex → s'.pages q i = c.machine.pages q i) :
    { c with machine := s' }.Coherent := by
  have hfirst : pageNo c.machine.firstPageDirectory ∈ c.dirs := Or.inl rfl
  have hcovers (i : Fin 1024) : s'.Covers i ↔ c.machine.Covers i := by
    rw [Covers, Covers, hregion, hbase]
  refine ⟨fun i hi => ?_, fun q hq i hi => ?_, ?_, fun t ht => ?_⟩ <;> dsimp only at *
  · rw [hcovers] at hi
    rw [hdir, hentries _ (Or.inl hfirst) i (Or.inl hi)]
    exact h.covered i hi
  · rw [hcovers] at hi
    rw [dirs_congr hdir] at hq
    rw [hdir, hentries q hq i (Or.inl hi), hentries _ (Or.inl hfirst) i (Or.inl hi)]
    exact h.same q hq i hi
  · rw [hdir, hentries _ (Or.inl hfirst) _ (Or.inr rfl)]
    exact h.last
  · rw [hentries _ (Or.inl (Or.inr ⟨t, ht, rfl⟩)) _ (Or.inr rfl)]
    exact h.own t ht

/-- The buddies end where kmem ends. -/
theorem pageOf_end {s : Machine} {L : List Block} (h : s.Tracked L 0) :
    4096 * s.pageOf s.kmem.buddyArrayPos 0 = s.kmemPhysEnd := by
  have hphys := h.physEnd
  have halign := h.aligned
  have hlo := h.dirLo
  have hhi := h.dirHi
  rw [pageOf]
  omega

section Machine

variable {c : System} {U K K' : List Block} {s' : Machine} (h : c.Inv U K)
include h

/-- Pages are mapped, through no directory at the end of the address space where the table there is
absent. -/
theorem Inv.maps {V : Nat → Nat → Prop} (hm : Maps c.spaces V c.machine s')
    (ht : s'.Tracked (U ++ K') 0) (hd : s'.Direct)
    (hlast : ∀ a ∈ c.dirs, ∀ virt, V a virt → dirOf virt = lastIndex →
      tablePage (c.machine.pages a lastIndex) ≠ none) : { c with machine := s' }.Inv U K' := by
  have hregion : s'.kmemRegionEnd = c.machine.kmemRegionEnd := by rw [hm.globals]
  refine ⟨h.toCoherent.congr hm.dir hregion hm.base fun q hq i hi => ?_, ht, ?_, ?_,
    h.small, hd, ?_⟩
  · rcases hq with hq | ⟨cr3, hcr3, rfl⟩
    · have hstay : tablePage (c.machine.pages q i) ≠ none → s'.pages q i = c.machine.pages q i := by
        intro hpresent
        obtain ⟨t, htable⟩ := Option.ne_none_iff_exists'.1 hpresent
        exact hm.tables q hq i t htable
      rcases hi with hi | rfl
      · apply hstay
        rw [h.same q (Or.inl hq) i hi]
        exact h.covered i hi
      · by_contra hne
        obtain ⟨virt, hV, hdir⟩ := hm.entries q hq lastIndex hne
        exact hne (hstay (hlast q hq virt hV hdir))
    · exact congrFun (hm.kept _ (Or.inr ⟨cr3, hcr3, rfl⟩)) i
  · dsimp only
    rw [see_congr hm.base]
    exact h.owned
  · rw [spaces_congr hm.dir]
    exact hm.paged
  · have hcr3 : s'.cr3 = c.machine.cr3 := by rw [hm.globals]
    dsimp only
    rw [hcr3, hm.dir]
    exact h.current

/-- kmem may grow. -/
theorem Inv.byGrowth (hm : Maps c.spaces (ByGrowth c.machine s') c.machine s')
    (ht : s'.Tracked (U ++ K') 0) (hd : s'.Direct) : { c with machine := s' }.Inv U K' := by
  refine h.maps hm ht hd fun a _ virt hV hdir => ?_
  exact absurd hdir (dirOf_ne_last (hV.kernelAt ht hm.base).2)

/-- Registers change, and what else the page tables do not depend on. -/
theorem Inv.regs (hmem : s'.mem = c.machine.mem) (hk : s'.kmem = c.machine.kmem)
    (hdir : s'.firstPageDirectory = c.machine.firstPageDirectory)
    (hend : s'.kmemPhysEnd = c.machine.kmemPhysEnd)
    (hregion : s'.kmemRegionEnd = c.machine.kmemRegionEnd)
    (hcr3 : s'.cr3 = c.machine.cr3 ∨ ∃ t ∈ c.tasks, s'.cr3 = t.1) :
    { c with machine := s' }.Inv U K := by
  have hpages : s'.pages = c.machine.pages := by
    funext q k
    rw [pages, pages, hmem]
  have hbase : s'.kmem.base = c.machine.kmem.base := by rw [hk]
  refine ⟨h.toCoherent.congr hdir hregion hbase fun q _ i _ => by rw [hpages],
    h.tracked.congr hk hdir hend hregion, ?_, ?_, h.small, ⟨?_, ?_⟩, ?_⟩
  · dsimp only
    rw [see_congr hbase]
    exact h.owned
  · rw [spaces_congr hdir]
    exact h.paged.congr hmem hk hdir
  · dsimp only
    rw [hdir, hend]
    exact h.direct.all.congr fun i j => by rw [hpages]
  · dsimp only
    rw [hend, hregion, hk]
    exact h.direct.region
  · dsimp only
    rw [hdir]
    rcases hcr3 with hcr3 | ⟨t, ht, hcr3⟩
    · rw [hcr3]
      exact h.current
    · rw [hcr3]
      exact Or.inr (List.mem_append_left _ (List.mem_map_of_mem ht))

theorem Inv.write (hs : s' = { c.machine with mem := s'.mem })
    (hw : ∀ q, c.machine.pages.Refs tablePage c.dirs q ∨ (∃ cr3 ∈ c.ended, q = cr3 / 4096) →
      s'.pages q = c.machine.pages q) : { c with machine := s' }.Inv U K := by
  have hk : s'.kmem = c.machine.kmem := by rw [hs]
  have hdir : s'.firstPageDirectory = c.machine.firstPageDirectory := by rw [hs]
  have hregion : s'.kmemRegionEnd = c.machine.kmemRegionEnd := by rw [hs]
  have hbase : s'.kmem.base = c.machine.kmem.base := by rw [hk]
  have hend : s'.kmemPhysEnd = c.machine.kmemPhysEnd := by rw [hs]
  have hcr3 : s'.cr3 = c.machine.cr3 := by rw [hs]
  have hrefs := fun q (hq : c.machine.pages.Refs tablePage c.dirs q) => hw q (Or.inl hq)
  refine ⟨h.toCoherent.congr hdir hregion hbase fun q hq i _ => ?_, h.tracked.writes hs,
    ?_, ?_, h.small,
    ⟨?_, ?_⟩, ?_⟩
  · rw [hw q (hq.imp_left PageMem.refs_dir)]
  · dsimp only
    rw [see_congr hbase]
    exact h.owned
  · rw [spaces_congr hdir]
    exact h.paged.writes hs hrefs
  · dsimp only
    rw [hdir, hend]
    exact h.direct.all.congr fun i j => PageMem.walk_congr hrefs h.paged.first.2 i j
  · dsimp only
    rw [hend, hregion, hk]
    exact h.direct.region
  · dsimp only
    rw [hcr3, hdir]
    exact h.current

end Machine

/-! ## Who owns which block -/

theorem OfBlock.of_dir {cr3 q : Nat} (h : cr3 < 2 ^ 32) :
    OfBlock (.k4, toVirt cr3) q ↔ q = cr3 / 4096 := by
  rw [OfBlock, pageNo_toVirt h]
  simp only [BlockSize.order, pow_zero]
  omega

/-- A value in a list of images, up to order. -/
theorem exists_of_perm_map {α β : Type} {f : α → β} {y : β} {l : List β} {U : List α}
    (h : (y :: l).Perm (U.map f)) : ∃ x U', U.Perm (x :: U') ∧ f x = y ∧ l.Perm (U'.map f) := by
  obtain ⟨x, hx, rfl⟩ := List.mem_map.1 (h.mem_iff.1 List.mem_cons_self)
  obtain ⟨u, v, rfl⟩ := List.append_of_mem hx
  refine ⟨x, u ++ v, List.perm_middle, rfl, ?_⟩
  rw [List.map_append, List.map_cons] at h
  rw [List.map_append]
  exact (h.trans List.perm_middle).cons_inv

section Own

variable {c : System} {U K : List Block} {x : Block}

theorem Inv.disjoint (h : c.Inv U K) :
    c.owned.Pairwise fun y z => ∀ q, OfBlock y q → ¬ OfBlock z q := by
  have hsym : ∀ y z : BlockSize × Nat, (∀ q, OfBlock y q → ¬ OfBlock z q) →
      ∀ q, OfBlock z q → ¬ OfBlock y q := fun y z hyz q hz hy => hyz q hy hz
  rw [h.owned.pairwise_iff (hsym _ _), List.pairwise_map]
  have hU := (List.pairwise_append.1 h.tracked.marked.apart).1
  refine hU.imp_of_mem fun {y z} hy hz ha q hq hq' => ?_
  have hy := List.mem_append_left K hy
  have hz := List.mem_append_left K hz
  rw [ofBlock_see h.tracked hy] at hq
  rw [ofBlock_see h.tracked hz] at hq'
  exact h.tracked.not_pageIn hy hz ha hq hq'

/-- The pages that are kept have an owner. -/
theorem Inv.owner_of_kept (h : c.Inv U K) {q : Nat} (hq : q ∈ c.kept) :
    ∃ y ∈ c.owned, OfBlock y q := by
  rcases hq with ⟨y, hy, hof⟩ | ⟨cr3, hcr3, hof⟩
  · exact ⟨y, List.mem_append_left _ (List.mem_append_left _ hy), hof⟩
  · have hin := List.mem_append_right (c.tasks.map Prod.fst) hcr3
    exact ⟨_, List.mem_append_right _ (List.mem_map_of_mem hin),
      (OfBlock.of_dir (h.small _ hin)).2 hof⟩

/-- Blocks without an owner have pages of their own. -/
theorem Inv.not_owned (h : c.Inv U (x :: K)) {q : Nat} (hq : c.machine.PageIn x q)
    {y : BlockSize × Nat}
    (hy : y ∈ c.owned) : ¬ OfBlock y q := by
  intro hof
  obtain ⟨z, hz, rfl⟩ := List.mem_map.1 (h.owned.mem_iff.1 hy)
  have hx : x ∈ U ++ x :: K := by simp
  have hz' : z ∈ U ++ x :: K := List.mem_append_left _ hz
  rw [ofBlock_see h.tracked hz'] at hof
  have ha := (List.pairwise_append.1 h.tracked.marked.apart).2.2 z hz x List.mem_cons_self
  exact h.tracked.not_pageIn hz' hx ha hof hq

theorem Inv.not_kept (h : c.Inv U (x :: K)) {q : Nat} (hq : c.machine.PageIn x q) : q ∉ c.kept := by
  intro hkept
  obtain ⟨y, hy, hof⟩ := h.owner_of_kept hkept
  exact h.not_owned hq hy hof

/-- A block that nobody has is handed out. -/
theorem Inv.hold (h : c.Inv U (x :: K))
    (hx : ∀ q, c.machine.PageIn x q → ¬ c.machine.pages.Refs tablePage c.dirs q) :
    { c with held := see c.machine x :: c.held }.Inv (x :: U) K := by
  refine ⟨⟨h.covered, h.same, h.last, h.own⟩, h.tracked.perm List.perm_middle, h.owned.cons _,
    h.paged.mono (fun q hq => hq) h.paged.first.2 fun q hq => ?_, h.small, h.direct, h.current⟩
  have hmem : x ∈ U ++ x :: K := by simp
  rcases hq with ⟨y, hy, hof⟩ | hended
  · rcases List.mem_cons.1 hy with rfl | hy
    · rw [ofBlock_see h.tracked hmem] at hof
      exact ⟨h.tracked.inUse_of_pageIn hmem hof, hx q hof⟩
    · have hkept : q ∈ c.kept := Or.inl ⟨y, hy, hof⟩
      exact ⟨h.paged.inUse q (Or.inr hkept), h.paged.kept q hkept⟩
  · have hkept : q ∈ c.kept := Or.inr hended
    exact ⟨h.paged.inUse q (Or.inr hkept), h.paged.kept q hkept⟩

/-- A block that is handed out is taken back. -/
theorem Inv.unhold (h : c.Inv U K) {u v : List (BlockSize × Nat)} {y : BlockSize × Nat}
    (hheld : c.held = u ++ y :: v) : ∃ x U', see c.machine x = y ∧
      { c with held := u ++ v }.Inv U' (x :: K) ∧
      ∀ q, c.machine.PageIn x q → ¬ c.machine.Holds { c with held := u ++ v }.spaces q := by
  have howned : c.owned.Perm (y :: { c with held := u ++ v }.owned) := by
    rw [System.owned, System.owned, hheld]
    simp only [List.append_assoc, List.cons_append]
    exact List.perm_middle
  obtain ⟨x, U', hU, hsee, hrest⟩ := exists_of_perm_map (howned.symm.trans h.owned)
  have hmem : x ∈ U ++ K := List.mem_append_left K (hU.mem_iff.2 List.mem_cons_self)
  have hperm : (U ++ K).Perm (U' ++ x :: K) := (hU.append_right K).trans List.perm_middle.symm
  have hinv : { c with held := u ++ v }.Inv U' (x :: K) := by
    refine ⟨⟨h.covered, h.same, h.last, h.own⟩, h.tracked.perm hperm, hrest,
      h.paged.mono (fun q hq => hq) h.paged.first.2 fun q hq => ?_, h.small, h.direct, h.current⟩
    have hkept : q ∈ c.kept := by
      refine hq.imp_left ?_
      rintro ⟨z, hz, hof⟩
      refine ⟨z, ?_, hof⟩
      rw [hheld]
      rcases List.mem_append.1 hz with hz | hz
      · exact List.mem_append_left _ hz
      · exact List.mem_append_right _ (List.mem_cons_of_mem _ hz)
    exact ⟨h.paged.inUse q (Or.inr hkept), h.paged.kept q hkept⟩
  refine ⟨x, U', hsee, hinv, fun q hq hholds => ?_⟩
  rcases hholds with hrefs | hkept
  · have hy : y ∈ c.held := by
      rw [hheld]
      simp
    have hof : OfBlock y q := by
      rw [← hsee, ofBlock_see h.tracked hmem]
      exact hq
    exact h.paged.kept q (Or.inl ⟨y, hy, hof⟩) hrefs
  · exact hinv.not_kept hq hkept

theorem Inv.free (h : c.Inv U (x :: K))
    (hx : ∀ q, c.machine.PageIn x q → ¬ c.machine.Holds c.spaces q)
    {s' : Machine} (hs : c.machine.kmemFree x.size (see c.machine x).2 = .ok s') :
    { c with machine := s' }.Inv U K := by
  obtain ⟨hfree, htracked⟩ := h.tracked.kmemFree
  obtain rfl := Except.ok.inj (hfree.symm.trans hs)
  obtain ⟨-, hi⟩ := h.tracked.marked.valid x (by simp)
  have hmaps := free_maps (V := fun _ _ => False) (h.tracked.perm List.perm_middle) h.paged hx
  have hdirect := h.direct.maps h.tracked h.paged hmaps rfl (c.machine.free_alike x.buddy hi).pos
    fun _ _ hin => hin.elim
  exact h.maps hmaps htracked hdirect fun _ _ _ hV => hV.elim

end Own

/-! ## Directories and page tables of tasks -/

section Dirs

variable {c : System} {U K : List Block} {x : Block} {s' : Machine}

theorem Inv.mem_dirs (_ : c.Inv U K) {t : Nat × Option Nat} (ht : t ∈ c.tasks) :
    t.1 / 4096 ∈ c.dirs :=
  Or.inr ⟨t, ht, rfl⟩

theorem Inv.small_of_mem (h : c.Inv U K) {t : Nat × Option Nat} (ht : t ∈ c.tasks) : t.1 < 2 ^ 32 :=
  h.small _ (List.mem_append_left _ (List.mem_map_of_mem ht))

/-- A directory, also of a task that ended, as a pointer. -/
theorem Inv.ptr_of_mem (h : c.Inv U K) {cr3 : Nat} (hcr3 : cr3 ∈ c.tasks.map Prod.fst ++ c.ended) :
    PagePtr (toVirt cr3) ∧ pageNo (toVirt cr3) = cr3 / 4096 := by
  refine ⟨?_, pageNo_toVirt (h.small cr3 hcr3)⟩
  have hin : ((.k4, toVirt cr3) : BlockSize × Nat) ∈ c.owned :=
    List.mem_append_right _ (List.mem_map_of_mem hcr3)
  obtain ⟨z, hz, hsee⟩ := List.mem_map.1 (h.owned.mem_iff.1 hin)
  have hptr := pagePtr_see h.tracked (List.mem_append_left K hz)
  rw [hsee] at hptr
  exact hptr

/-- The directory of a task as a pointer. -/
theorem Inv.dirPtr (h : c.Inv U K) {t : Nat × Option Nat} (ht : t ∈ c.tasks) :
    PagePtr (toVirt t.1) ∧ pageNo (toVirt t.1) = t.1 / 4096 :=
  h.ptr_of_mem (List.mem_append_left _ (List.mem_map_of_mem ht))

/-- The current directory. -/
theorem Inv.currentPtr (h : c.Inv U K) : PagePtr (toVirt c.machine.cr3) ∧
    (pageNo (toVirt c.machine.cr3) ∈ c.dirs ∨
      ∃ cr3 ∈ c.ended, pageNo (toVirt c.machine.cr3) = cr3 / 4096) := by
  rcases h.current with hcr3 | hcr3
  · rw [hcr3, toVirt_fromKmem h.paged.first.1]
    exact ⟨h.paged.first.1, Or.inl h.paged.first.2⟩
  · obtain ⟨hptr, hno⟩ := h.ptr_of_mem hcr3
    refine ⟨hptr, ?_⟩
    rw [hno]
    rcases List.mem_append.1 hcr3 with htask | hended
    · obtain ⟨t, ht, heq⟩ := List.mem_map.1 htask
      rw [← heq]
      exact Or.inl (h.mem_dirs ht)
    · exact Or.inr ⟨_, hended, rfl⟩

/-- Two tasks have different directories. -/
theorem Inv.dir_ne (h : c.Inv U K) {u v : List (Nat × Option Nat)} {t : Nat × Option Nat}
    (htasks : c.tasks = u ++ t :: v) {t' : Nat × Option Nat} (ht' : t' ∈ u ++ v) :
    t'.1 / 4096 ≠ t.1 / 4096 := by
  have hpair := (List.pairwise_append.1 h.disjoint).2.1
  rw [List.pairwise_map] at hpair
  have hdirs := (List.pairwise_append.1 hpair).1
  rw [List.pairwise_map, htasks] at hdirs
  have ht : t ∈ c.tasks := by
    rw [htasks]
    simp
  have ht'' : t' ∈ c.tasks := by
    rw [htasks]
    simp only [List.mem_append, List.mem_cons] at ht' ⊢
    tauto
  have hof := OfBlock.of_dir (q := t.1 / 4096) (h.small_of_mem ht)
  have hof' := OfBlock.of_dir (q := t.1 / 4096) (h.small_of_mem ht'')
  intro heq
  obtain ⟨-, htv, hut⟩ := List.pairwise_append.1 hdirs
  rcases List.mem_append.1 ht' with hu | hv
  · exact hut t' hu t List.mem_cons_self _ (hof'.2 heq.symm) (hof.2 rfl)
  · exact (List.pairwise_cons.1 htv).1 t' hv _ (hof.2 rfl) (hof'.2 heq.symm)

/-- The kernel's own directory is no block. -/
theorem Inv.dir_ne_first (h : c.Inv U K) {t : Nat × Option Nat} (ht : t ∈ c.tasks) :
    t.1 / 4096 ≠ pageNo c.machine.firstPageDirectory := by
  have hin : ((.k4, toVirt t.1) : BlockSize × Nat) ∈ c.owned :=
    List.mem_append_right _ (List.mem_map_of_mem (List.mem_append_left _ (List.mem_map_of_mem ht)))
  obtain ⟨z, hz, hsee⟩ := List.mem_map.1 (h.owned.mem_iff.1 hin)
  have hof := (OfBlock.of_dir (h.small_of_mem ht)).2 (rfl : t.1 / 4096 = t.1 / 4096)
  rw [← hsee, ofBlock_see h.tracked (List.mem_append_left K hz)] at hof
  have hlt := h.tracked.toLayout.dirPage.2.1
  have hlo := hof.1
  simp only [pageOf] at hlo hlt
  omega

/-- The page of a block of 4 KiB is that of its pointer. -/
theorem Inv.page_of_block (h : c.Inv U (x :: K)) (hsize : x.size = .k4) {p : Nat}
    (hp : p = (see c.machine x).2) : PagePtr p ∧ fromKmem p < 2 ^ 32 ∧
      fromKmem p = 4096 * (fromKmem p / 4096) ∧
      c.machine.pageOf x.buddy x.index = fromKmem p / 4096 := by
  have hmem : x ∈ U ++ x :: K := by simp
  have hptr := pagePtr_see h.tracked hmem
  rw [← hp] at hptr
  have hsmall : fromKmem p < 2 ^ 32 := by
    unfold fromKmem
    omega
  refine ⟨hptr, hsmall, ?_, ?_⟩
  · have hlo := hptr.lo
    have halign := hptr.aligned
    unfold fromKmem
    omega
  · have hin : c.machine.PageIn x (c.machine.pageOf x.buddy x.index) := by
      rw [PageIn, hsize]
      simp [BlockSize.order]
    rw [← ofBlock_see h.tracked hmem, see, hsize] at hin
    have hp' : p = c.machine.kmem.blockAddr .k4 x.buddy x.index := by rw [hp, see, hsize]
    rw [← hp', ← toVirt_fromKmem hptr] at hin
    rw [OfBlock.of_dir hsmall] at hin
    exact hin

/-- The kmem region ends before the last table. -/
theorem Inv.covers_ne_last (h : c.Inv U K) {i : Fin 1024} (hi : c.machine.Covers i) :
    i ≠ lastIndex := by
  rintro rfl
  have hle := h.tracked.region
  have hphys := h.tracked.physEnd
  have hphys' := h.tracked.physLe
  have hlt := hi.2
  simp only [lastIndex] at hlt
  omega

section Tasks

variable {u v : List (Nat × Option Nat)} {cr3 p : Nat}

theorem owned_newDir (c : System) (s' : Machine) (cr3 : Nat) :
    ({ c with machine := s', tasks := (cr3, none) :: c.tasks } : System).owned.Perm
      ((.k4, toVirt cr3) :: c.owned) := by
  simp only [System.owned, List.filterMap_cons, List.map_cons, List.cons_append]
  exact List.perm_middle

theorem owned_newTable (htasks : c.tasks = u ++ (cr3, none) :: v) :
    ({ c with machine := s', tasks := u ++ (cr3, some p) :: v } : System).owned.Perm
      ((.k4, p) :: c.owned) := by
  simp only [System.owned, htasks, List.filterMap_append, List.filterMap_cons, List.map_append,
    List.map_cons, List.append_assoc, List.cons_append]
  rw [← List.append_assoc, ← List.append_assoc c.held]
  exact List.perm_middle

theorem owned_retire (htasks : c.tasks = u ++ (cr3, some p) :: v) :
    c.owned.Perm ((.k4, p) :: { c with tasks := u ++ v, ended := cr3 :: c.ended }.owned) := by
  have hdirs : (c.tasks.map Prod.fst ++ c.ended).Perm
      ((u ++ v).map Prod.fst ++ cr3 :: c.ended) := by
    rw [htasks, List.map_append, List.map_cons, List.map_append, List.append_assoc,
      List.cons_append, List.append_assoc]
    exact List.perm_middle.symm.append_left _
  refine ((hdirs.map _).append_left _).trans ?_
  simp only [System.owned, htasks, List.filterMap_append, List.filterMap_cons, List.map_append,
    List.map_cons, List.append_assoc, List.cons_append]
  rw [← List.append_assoc, ← List.append_assoc c.held]
  exact List.perm_middle

theorem mem_tasks_of_rest {t t' : Nat × Option Nat} (htasks : c.tasks = u ++ t :: v)
    (ht : t' ∈ u ++ v) : t' ∈ c.tasks := by
  rw [htasks]
  simp only [List.mem_append, List.mem_cons] at ht ⊢
  tauto

theorem dirs_newTable (htasks : c.tasks = u ++ (cr3, none) :: v)
    (hdir : s'.firstPageDirectory = c.machine.firstPageDirectory) :
    ({ c with machine := s', tasks := u ++ (cr3, some p) :: v } : System).dirs ⊆ c.dirs := by
  rintro q (hq | ⟨t, ht, hq⟩)
  · exact Or.inl (hdir ▸ hq)
  · by_cases hown : t = (cr3, some p)
    · rw [hown] at hq
      refine Or.inr ⟨(cr3, none), ?_, hq⟩
      rw [htasks]
      exact List.mem_append_right u List.mem_cons_self
    · refine Or.inr ⟨t, mem_tasks_of_rest htasks ?_, hq⟩
      dsimp only at ht
      simp only [List.mem_append, List.mem_cons] at ht ⊢
      tauto

theorem dirs_retire (htasks : c.tasks = u ++ (cr3, some p) :: v) :
    ({ c with tasks := u ++ v, ended := cr3 :: c.ended } : System).dirs ⊆ c.dirs := by
  rintro q (hq | ⟨t, ht, hq⟩)
  · exact Or.inl hq
  · exact Or.inr ⟨t, mem_tasks_of_rest htasks ht, hq⟩

end Tasks

/-- A page that nobody has becomes the directory of a new task. -/
theorem Inv.newDir (h : c.Inv U (x :: K)) (hsize : x.size = .k4)
    (hx : ¬ c.machine.Holds c.spaces (c.machine.pageOf x.buddy x.index)) {p : Nat}
    (hp : p = (see c.machine x).2)
    (hs' : s' = c.machine.memcpy p c.machine.firstPageDirectory 4096) :
    { c with machine := s', tasks := (fromKmem p, none) :: c.tasks }.Inv (x :: U) K := by
  have hmem : x ∈ U ++ x :: K := by simp
  obtain ⟨hptr, hsmall, hfrom, hpage⟩ := h.page_of_block hsize hp
  have hglob : s' = { c.machine with mem := s'.mem } := by rw [hs', memcpy]
  have hdir : s'.firstPageDirectory = c.machine.firstPageDirectory := by rw [hglob]
  have hk : s'.kmem = c.machine.kmem := by rw [hglob]
  have hregion : s'.kmemRegionEnd = c.machine.kmemRegionEnd := by rw [hglob]
  have hbase : s'.kmem.base = c.machine.kmem.base := by rw [hk]
  have hpages : s'.pages = Function.update c.machine.pages (fromKmem p / 4096)
      (c.machine.pages (pageNo c.machine.firstPageDirectory)) := by
    rw [hs', pages_memcpy hfrom h.tracked.toLayout.dirPage.2.2]
  rw [hpage] at hx
  have huse : c.machine.InUse (fromKmem p / 4096) :=
    hpage ▸ h.tracked.inUse_of_mem hmem hsize
  have hfirst : pageNo c.machine.firstPageDirectory ∈ c.dirs := Or.inl rfl
  have hother (q : Nat) (hq : q ∈ c.dirs ∨ ∃ cr3 ∈ c.ended, q = cr3 / 4096) :
      s'.pages q = c.machine.pages q := by
    rw [hpages, Function.update_of_ne]
    rintro rfl
    exact hx (hq.imp PageMem.refs_dir Or.inr)
  have hcoh := h.toCoherent.congr hdir hregion hbase fun q hq i _ => congrFun (hother q hq) i
  have hnew : s'.pages (fromKmem p / 4096) = s'.pages (pageNo s'.firstPageDirectory) := by
    rw [hdir, hother _ (Or.inl hfirst), hpages, Function.update_self]
  have hend : s'.kmemPhysEnd = c.machine.kmemPhysEnd := by rw [hglob]
  have hcr3' : s'.cr3 = c.machine.cr3 := by rw [hglob]
  refine ⟨⟨hcoh.covered, fun q hq i hi => ?_, hcoh.last, fun t ht => ?_⟩, ?_, ?_, ?_,
    fun cr3 hcr3 => ?_,
    ⟨?_, ?_⟩, ?_⟩
  · rcases hq with (hq | ⟨t, ht, hq⟩) | hq
    · exact hcoh.same q (Or.inl (Or.inl hq)) i hi
    · rcases List.mem_cons.1 ht with rfl | ht
      · rw [hq]
        exact congrFun hnew i
      · exact hcoh.same q (Or.inl (Or.inr ⟨t, ht, hq⟩)) i hi
    · exact hcoh.same q (Or.inr hq) i hi
  · rcases List.mem_cons.1 ht with rfl | ht
    · dsimp only
      rw [hnew]
      exact hcoh.last
    · exact hcoh.own t ht
  · exact (h.tracked.writes hglob).perm List.perm_middle
  · have hsee : see s' x = (.k4, toVirt (fromKmem p)) := by
      rw [see_congr hbase, toVirt_fromKmem hptr, hp, see, hsize]
    refine (owned_newDir c s' (fromKmem p)).trans ?_
    dsimp only
    rw [List.map_cons, hsee, see_congr hbase]
    exact h.owned.cons _
  · have hpaged := h.paged.copy hglob hfirst huse hx hpages
    have hsub : ({ c with machine := s', tasks := (fromKmem p, none) :: c.tasks } : System).dirs ⊆
        insert (fromKmem p / 4096) c.dirs := by
      rintro q (hq | ⟨t, ht, hq⟩)
      · exact Or.inr (Or.inl (hdir ▸ hq))
      · rcases List.mem_cons.1 ht with rfl | ht
        · exact Or.inl hq
        · exact Or.inr (Or.inr ⟨t, ht, hq⟩)
    exact hpaged.mono hsub (Or.inl rfl) fun q hq =>
      ⟨hpaged.inUse q (Or.inr hq), fun hr => hpaged.kept q hq (hr.mono hsub)⟩
  · rcases List.mem_cons.1 hcr3 with rfl | hcr3
    · exact hsmall
    · exact h.small cr3 hcr3
  · dsimp only
    rw [hdir, hend]
    refine h.direct.all.congr fun i j => PageMem.walk_congr (fun q hq => ?_) hfirst i j
    rw [hpages, Function.update_of_ne]
    rintro rfl
    exact hx (Or.inl hq)
  · dsimp only
    rw [hend, hregion, hk]
    exact h.direct.region
  · dsimp only
    rw [hcr3', hdir]
    exact h.current.imp_right (List.mem_cons_of_mem _)

/-- The last table of a task is put in its directory. -/
theorem Inv.newTable_maps (h : c.Inv U (x :: K)) (hsize : x.size = .k4)
    (hx : ¬ c.machine.Holds c.spaces (c.machine.pageOf x.buddy x.index)) {p : Nat}
    (hp : p = (see c.machine x).2) {cr3 : Nat} (htask : (cr3, none) ∈ c.tasks)
    (hs' : s' = (c.machine.memset p 0 4096).store (toVirt cr3 + 4 * 0x3FF) (fromKmem p ||| prwr)) :
    s'.Tracked (U ++ x :: K) 0 ∧
      Maps c.spaces (fun d v => d = cr3 / 4096 ∧ v = 0xFFC00000) c.machine s' ∧
      tablePage (s'.pages (cr3 / 4096) lastIndex) = some (fromKmem p / 4096) := by
  have hmem : x ∈ U ++ x :: K := by simp
  obtain ⟨hptr, hno⟩ := h.dirPtr htask
  dsimp only at hptr hno
  have hD : pageNo (toVirt cr3) ∈ c.spaces.dirs := hno ▸ h.mem_dirs htask
  have hlast : dirOf 0xFFC00000 = lastIndex := by decide
  have hdirIndex : 0xFFC00000 >>> 22 = 0x3FF := by decide
  have habsent : tablePage (c.machine.pages (pageNo (toVirt cr3)) (dirOf 0xFFC00000)) = none := by
    have hown := h.own _ htask
    dsimp only [Option.map] at hown
    rw [hlast, hno]
    exact hown
  have hp' : p = c.machine.kmem.blockAddr .k4 x.buddy x.index := by rw [hp, see, hsize]
  have hs₂ : s' = (c.machine.memset p 0 4096).store (toVirt cr3 + 4 * (0xFFC00000 >>> 22))
      (fromKmem p ||| prwr) := by
    rw [hdirIndex]
    exact hs'
  obtain ⟨htracked, hmaps, htable, -⟩ := Machine.newTable_maps h.tracked h.paged hptr hD
    (show 0xFFC00000 < 2 ^ 32 by decide) habsent (by decide) (by decide) hmem hsize hx hp' hs₂
  rw [hlast, hno] at htable
  rw [hno] at hmaps
  exact ⟨htracked, hmaps, htable⟩

/-- A page that nobody has becomes the last table of a task. -/
theorem Inv.newTable (h : c.Inv U (x :: K)) (hsize : x.size = .k4)
    (hx : ¬ c.machine.Holds c.spaces (c.machine.pageOf x.buddy x.index)) {p : Nat}
    (hp : p = (see c.machine x).2) {u v : List (Nat × Option Nat)} {cr3 : Nat}
    (htasks : c.tasks = u ++ (cr3, none) :: v)
    (hs' : s' = (c.machine.memset p 0 4096).store (toVirt cr3 + 4 * 0x3FF) (fromKmem p ||| prwr)) :
    { c with machine := s', tasks := u ++ (cr3, some p) :: v }.Inv (x :: U) K := by
  have htask : (cr3, none) ∈ c.tasks := by
    rw [htasks]
    simp
  have hlast : dirOf 0xFFC00000 = lastIndex := by decide
  obtain ⟨htracked, hmaps, htable⟩ := h.newTable_maps hsize hx hp htask hs'
  have hregion : s'.kmemRegionEnd = c.machine.kmemRegionEnd := by rw [hmaps.globals]
  have hdir := hmaps.dir
  have hfirst : pageNo c.machine.firstPageDirectory ∈ c.dirs := Or.inl rfl
  have hcovers (i : Fin 1024) (hi : s'.Covers i) : c.machine.Covers i ∧ i ≠ lastIndex := by
    rw [Covers, hregion, hmaps.base] at hi
    exact ⟨hi, h.covers_ne_last hi⟩
  have hentry (q : Nat) (hq : q ∈ c.dirs ∨ ∃ cr3 ∈ c.ended, q = cr3 / 4096) (i : Fin 1024)
      (hne : ¬ (q = cr3 / 4096 ∧ i = lastIndex)) : s'.pages q i = c.machine.pages q i := by
    rcases hq with hq | hq
    · by_contra hchange
      obtain ⟨virt, ⟨hq', rfl⟩, hi⟩ := hmaps.entries q hq i hchange
      exact hne ⟨hq', hi.symm.trans hlast⟩
    · exact congrFun (hmaps.kept q (Or.inr hq)) i
  have hsub := dirs_newTable (p := p) htasks hdir
  have hend : s'.kmemPhysEnd = c.machine.kmemPhysEnd ∧ s'.kmem = c.machine.kmem ∧
      s'.cr3 = c.machine.cr3 := by
    rw [hs', store, memset]
    exact ⟨rfl, rfl, rfl⟩
  refine ⟨⟨fun i hi => ?_, fun q hq i hi => ?_, ?_, fun t ht => ?_⟩,
    htracked.perm List.perm_middle, ?_,
    ?_, ?_, ?_, ?_⟩
  · obtain ⟨hi, hne⟩ := hcovers i hi
    dsimp only
    rw [hdir, hentry _ (Or.inl hfirst) i fun heq => hne heq.2]
    exact h.covered i hi
  · obtain ⟨hi, hne⟩ := hcovers i hi
    have hq' : q ∈ c.dirs ∨ ∃ cr3 ∈ c.ended, q = cr3 / 4096 := hq.imp_left fun hq => hsub hq
    dsimp only
    rw [hdir, hentry q hq' i fun heq => hne heq.2, hentry _ (Or.inl hfirst) i fun heq => hne heq.2]
    exact h.same q hq' i hi
  · dsimp only
    rw [hdir, hentry _ (Or.inl hfirst) lastIndex fun heq => h.dir_ne_first htask heq.1.symm]
    exact h.last
  · dsimp only at ht ⊢
    by_cases hown : t = (cr3, some p)
    · rw [hown, htable]
      rfl
    · have hrest : t ∈ u ++ v := by
        simp only [List.mem_append, List.mem_cons] at ht ⊢
        tauto
      have hin := mem_tasks_of_rest htasks hrest
      rw [hentry _ (Or.inl (h.mem_dirs hin)) lastIndex fun heq => h.dir_ne htasks hrest heq.1]
      exact h.own t hin
  · have hsee : see s' x = (.k4, p) := by rw [see_congr hmaps.base, hp, see, hsize]
    refine (owned_newTable htasks).trans ?_
    dsimp only
    rw [List.map_cons, hsee, see_congr hmaps.base]
    exact h.owned.cons _
  · exact hmaps.paged.mono hsub (Or.inl rfl) fun q hq =>
      ⟨hmaps.paged.inUse q (Or.inr hq), fun hr => hmaps.paged.kept q hq (hr.mono hsub)⟩
  · have hsmall := h.small
    rw [htasks] at hsmall
    simpa only [List.map_append, List.map_cons] using hsmall
  · have hle := h.tracked.physLe
    refine h.direct.maps h.tracked h.paged hmaps hend.1 (by rw [hend.2.1]) fun d v hv => Or.inl ?_
    rw [hv.2]
    omega
  · have hcurrent := h.current
    dsimp only
    rw [hend.2.2, hdir]
    rw [htasks] at hcurrent
    simpa only [List.map_append, List.map_cons] using hcurrent

theorem Inv.retire_inv (h : c.Inv U K) {u v : List (Nat × Option Nat)} {cr3 p : Nat}
    (htasks : c.tasks = u ++ (cr3, some p) :: v) {U' : List Block} (hU : U.Perm (x :: U'))
    (hrest : ({ c with tasks := u ++ v, ended := cr3 :: c.ended } : System).owned.Perm
      (U'.map (see c.machine))) :
    { c with tasks := u ++ v, ended := cr3 :: c.ended }.Inv U' (x :: K) := by
  have htask : (cr3, some p) ∈ c.tasks := by
    rw [htasks]
    simp
  have hold (t : Nat × Option Nat) (ht : t ∈ u ++ v) := mem_tasks_of_rest htasks ht
  have hsub := dirs_retire htasks
  have hdir : cr3 / 4096 ∈ c.dirs := h.mem_dirs htask
  have hended : ¬ c.machine.pages.Refs tablePage
      { c with tasks := u ++ v, ended := cr3 :: c.ended }.dirs (cr3 / 4096) := by
    rintro ((hq | ⟨t, ht, hq⟩) | ⟨a, ha, i, hi⟩)
    · exact h.dir_ne_first htask hq
    · exact h.dir_ne htasks ht hq.symm
    · exact h.paged.separate.table a (hsub ha) i _ hi hdir
  refine ⟨⟨h.covered, fun q hq i hi => h.same q ?_ i hi, h.last, fun t ht => h.own t (hold t ht)⟩,
    h.tracked.perm ((hU.append_right K).trans List.perm_middle.symm), hrest,
    h.paged.mono hsub (Or.inl rfl) fun q hq => ?_, fun cr3' hcr3 => ?_, h.direct, ?_⟩
  · rcases hq with hq | ⟨cr3', hcr3, hq⟩
    · exact Or.inl (hsub hq)
    · rcases List.mem_cons.1 hcr3 with rfl | hcr3
      · rw [hq]
        exact Or.inl hdir
      · exact Or.inr ⟨cr3', hcr3, hq⟩
  · by_cases hq' : q = cr3 / 4096
    · rw [hq']
      exact ⟨h.paged.inUse _ (Or.inl (PageMem.refs_dir hdir)), hended⟩
    · have hkept : q ∈ c.kept := by
        refine hq.imp_right ?_
        rintro ⟨cr3', hcr3, hpage⟩
        rcases List.mem_cons.1 hcr3 with heq | hcr3
        · rw [heq] at hpage
          exact absurd hpage hq'
        · exact ⟨cr3', hcr3, hpage⟩
      exact ⟨h.paged.inUse q (Or.inr hkept), fun hr => h.paged.kept q hkept (hr.mono hsub)⟩
  · have hsmall := h.small
    rw [htasks] at hsmall
    refine hsmall cr3' ?_
    simp only [List.map_append, List.map_cons, List.mem_append, List.mem_cons] at hcr3 ⊢
    tauto
  · have hcurrent := h.current
    rw [htasks] at hcurrent
    simp only [List.map_append, List.map_cons, List.mem_append, List.mem_cons] at hcurrent ⊢
    tauto

/-- The directory of a task that ends is left as it is, and nobody else has its last table. -/
theorem Inv.retire (h : c.Inv U K) {u v : List (Nat × Option Nat)} {cr3 p : Nat}
    (htasks : c.tasks = u ++ (cr3, some p) :: v) : ∃ x U', see c.machine x = (.k4, p) ∧
      { c with tasks := u ++ v, ended := cr3 :: c.ended }.Inv U' (x :: K) ∧
      ∀ q, c.machine.PageIn x q →
        ¬ c.machine.Holds { c with tasks := u ++ v, ended := cr3 :: c.ended }.spaces q := by
  have htask : (cr3, some p) ∈ c.tasks := by
    rw [htasks]
    simp
  have hold (t : Nat × Option Nat) (ht : t ∈ u ++ v) := mem_tasks_of_rest htasks ht
  obtain ⟨x, U', hU, hsee, hrest⟩ := exists_of_perm_map ((owned_retire htasks).symm.trans h.owned)
  have hmem : x ∈ U ++ K := List.mem_append_left K (hU.mem_iff.2 List.mem_cons_self)
  have hsub := dirs_retire htasks
  have hdir : cr3 / 4096 ∈ c.dirs := h.mem_dirs htask
  have hinv := h.retire_inv htasks hU hrest
  refine ⟨x, U', hsee, hinv, fun q hq hholds => ?_⟩
  have hof : q = pageNo p := by
    have hof := (ofBlock_see h.tracked hmem q).2 hq
    rw [hsee, OfBlock] at hof
    simp only [BlockSize.order, pow_zero] at hof
    omega
  have hlast := h.own _ htask
  dsimp only [Option.map] at hlast
  rw [← hof] at hlast
  rcases hholds with (hq' | ⟨a, ha, i, hi⟩) | hkept
  · exact h.paged.separate.table _ hdir _ q hlast (hsub hq')
  · -- the table stands at the end of another directory
    obtain rfl := h.paged.separate.index a (hsub ha) _ hdir i _ q hi hlast
    rcases ha with rfl | ⟨t, ht, rfl⟩
    · have hnone := h.last
      rw [hnone] at hi
      cases hi
    · rw [h.own t (hold t ht)] at hi
      obtain ⟨p', hp', hpage⟩ := Option.map_eq_some_iff.1 hi
      have hin : ((.k4, p') : BlockSize × Nat) ∈
          ({ c with tasks := u ++ v, ended := cr3 :: c.ended } : System).owned := by
        refine List.mem_append_left _ (List.mem_append_right _ (List.mem_map_of_mem ?_))
        exact List.mem_filterMap.2 ⟨t, ht, hp'⟩
      refine hinv.not_owned hq hin ?_
      rw [OfBlock]
      simp only [BlockSize.order, pow_zero]
      omega
  · exact hinv.not_kept hq hkept

theorem Inv.split (h : c.Inv U K) {b i : Nat} {K' : List Block} (hK : K = ⟨.k8, b, i⟩ :: K') :
    c.Inv U (⟨.k4, b, 2 * i⟩ :: ⟨.k4, b, 2 * i + 1⟩ :: K') := by
  subst hK
  have htracked := h.tracked.perm List.perm_middle
  have hsplit := htracked.alike ⟨rfl, rfl, rfl⟩ htracked.marked.split
  refine ⟨h.toCoherent, hsplit.perm ?_, h.owned, h.paged, h.small, h.direct, h.current⟩
  exact ((List.perm_middle.symm.cons _).trans List.perm_middle.symm)

end Dirs

/-- The pages and addresses of the two halves of a block. -/
theorem pageIn_half {s : Machine} {b i q : Nat} :
    (s.PageIn ⟨.k4, b, 2 * i⟩ q → s.PageIn ⟨.k8, b, i⟩ q) ∧
    (s.PageIn ⟨.k4, b, 2 * i + 1⟩ q → s.PageIn ⟨.k8, b, i⟩ q) := by
  simp only [PageIn, pageOf, BlockSize.order]
  omega

theorem see_half {s : Machine} {L : List Block} {lag b i : Nat}
    (h : s.Tracked (⟨.k4, b, 2 * i⟩ :: ⟨.k4, b, 2 * i + 1⟩ :: L) lag) :
    see s ⟨.k4, b, 2 * i⟩ = (.k4, (see s ⟨.k8, b, i⟩).2) ∧
    see s ⟨.k4, b, 2 * i + 1⟩ = (.k4, (see s ⟨.k8, b, i⟩).2 + 4096) := by
  obtain ⟨hb, hi⟩ := h.marked.valid ⟨.k4, b, 2 * i⟩ (by simp)
  obtain ⟨-, hi'⟩ := h.marked.valid ⟨.k4, b, 2 * i + 1⟩ (by simp)
  dsimp only [BlockSize.count] at hb hi hi'
  have haddr := h.toLayout.toPlaced.blockAddr hb (n := .k4) hi
  have haddr₁ := h.toLayout.toPlaced.blockAddr hb (n := .k4) hi'
  have haddr₂ := h.toLayout.toPlaced.blockAddr hb (n := .k8) (show i < 64 by omega)
  simp only [see, haddr, haddr₁, haddr₂, BlockSize.bytes, BlockSize.shift, Prod.mk.injEq, true_and]
  omega

/-! ## The direct map -/

section Direct

variable {c : System} {U K : List Block}

/-- In every directory kmem leads to itself. -/
theorem Inv.directIn (h : c.Inv U K) {q : Nat}
    (hq : q ∈ c.dirs ∨ ∃ cr3 ∈ c.ended, q = cr3 / 4096) :
    c.machine.DirectTo q (0xC0000000 + c.machine.kmemPhysEnd) := by
  have hphys := h.tracked.physEnd
  have hle := h.tracked.physLe
  refine h.direct.all.same (by omega) fun i hlo hhi => h.same q hq i ⟨hlo, ?_⟩
  rcases h.direct.region with hregion | hpos
  · exact Or.inl (by omega)
  · rw [hpos] at hphys
    exact Or.inr (by omega)

theorem Inv.directHere (h : c.Inv U K) :
    c.machine.DirectTo (pageNo (toVirt c.machine.cr3)) (0xC0000000 + c.machine.kmemPhysEnd) :=
  h.directIn h.currentPtr.2

end Direct

/-! ## Steps -/

section Step

variable {c c' : System} {U K : List Block} {x : Block} {s' : Machine}

theorem Inv.fetched (h : c.Inv U K) {n : BlockSize} {p : Nat}
    (hs : c.machine.kmemAlloc n = .ok (p, s')) :
    ∃ x T, { c with machine := s' }.Inv U (x :: (T ++ K)) ∧
      see s' x = (n, p) ∧ (∀ q, s'.PageIn x q → ¬ s'.Holds { c with machine := s' }.spaces q) ∧
      s'.cr3 = c.machine.cr3 := by
  obtain ⟨x, T, hf⟩ := (kmemAlloc_fetched h.tracked h.paged n).of_ok hs
  have hperm : (x :: (T ++ (U ++ K))).Perm (U ++ x :: (T ++ K)) :=
    ((List.perm_append_comm_assoc T U K).cons x).trans List.perm_middle.symm
  have hdirect := (kmemAlloc_direct h.tracked h.paged h.direct n).of_ok hs
  have hinv := h.byGrowth hf.maps (hf.tracked.perm hperm) hdirect
  refine ⟨x, T, hinv, ?_, ?_, ?_⟩
  · rw [see, hf.size]
    exact congrArg _ hf.addr.symm
  · rw [spaces_congr hf.maps.dir]
    exact hf.fresh
  · have hglobals : s' = _ := hf.maps.globals
    rw [hglobals]

theorem page_holds {D : Spaces} (hsize : x.size = .k4) (h : ∀ q, s'.PageIn x q → ¬ s'.Holds D q) :
    ¬ s'.Holds D (s'.pageOf x.buddy x.index) := by
  refine h _ ?_
  rw [PageIn, hsize]
  simp [BlockSize.order]

/-- The entry that `map_user_page` writes. -/
def userEntry (phys : Nat) (writable : Bool) : Nat :=
  if writable then phys ||| present ||| user ||| Memory.write else phys ||| present ||| user

theorem userEntry_lt {phys : Nat} (hphys : phys < 2 ^ 32) (writable : Bool) :
    userEntry phys writable < 2 ^ 32 := by
  have hsmall := Nat.or_lt_two_pow (Nat.or_lt_two_pow hphys (show present < 2 ^ 32 by decide))
    (show user < 2 ^ 32 by decide)
  rw [userEntry]
  split
  · exact Nat.or_lt_two_pow hsmall (by decide)
  · exact hsmall

/-- `map_user_page` is `_map_page` in the current directory. -/
theorem mapUserPage_eq_ok {s : Machine} {virt phys : Nat} {writable : Bool} :
    mapUserPage virt phys writable s = .ok s' ↔ s.mapPage kmemAlloc4k virt (prwr ||| user)
      (userEntry phys writable) (toVirt s.cr3) = .ok s' := by
  rw [Scheduler.mapUserPage, ← userEntry, mapError_eq_ok]

theorem aligned_of_mapPage {s : Machine} {alloc4k : Machine → Except Fault (Nat × Machine)}
    {virt pdeFlags pte pd : Nat} (hs : s.mapPage alloc4k virt pdeFlags pte pd = .ok s') :
    virt % 4096 = 0 := by
  by_contra hne
  have hmask : virt &&& 0xFFF ≠ 0 := by
    rw [Nat.and_two_pow_sub_one_eq_mod virt 12]
    exact hne
  rw [mapPage, if_pos hmask] at hs
  cases hs

/-- What `map_user_page` leaves. -/
theorem Inv.mapUserPage_mapped (h : c.Inv U K) {p virt phys : Nat} {writable : Bool}
    (ht : (c.machine.cr3, some p) ∈ c.tasks) (hvirt : virt < 2 ^ 32) (hphys : phys < 2 ^ 32)
    (hs : mapUserPage virt phys writable c.machine = .ok s') :
    ∃ T, Mapped c.spaces c.machine (U ++ K) 0 (toVirt c.machine.cr3) virt
    (userEntry phys writable) s' T := by
  obtain ⟨hptr, hno⟩ := h.dirPtr ht
  dsimp only at hptr hno
  have hD : pageNo (toVirt c.machine.cr3) ∈ c.spaces.dirs := hno ▸ h.mem_dirs ht
  have hmap := mapUserPage_eq_ok.1 hs
  exact (mapPage_mapped h.tracked h.paged hptr hD (aligned_of_mapPage hmap) hvirt
    (userEntry_lt hphys writable)
    (by decide) (by decide) (kmemAlloc_fetched h.tracked h.paged .k4)).of_ok hmap

theorem Inv.mapped (h : c.Inv U K) {p virt pte : Nat} {T : List Block}
    (ht : (c.machine.cr3, some p) ∈ c.tasks) (hd : s'.Direct)
    (hm : Mapped c.spaces c.machine (U ++ K) 0 (toVirt c.machine.cr3) virt pte s' T) :
    { c with machine := s' }.Inv U (T ++ K) := by
  have hperm : (T ++ (U ++ K)).Perm (U ++ (T ++ K)) := List.perm_append_comm_assoc T U K
  refine h.maps hm.maps (hm.tracked.perm hperm) hd fun a _ v hV hdir => ?_
  rcases hV with ⟨rfl, -⟩ | hV
  · have hown := h.own _ ht
    dsimp only [Option.map] at hown
    rw [(h.dirPtr ht).2, hown]
    exact Option.some_ne_none _
  · exact absurd hdir (dirOf_ne_last (hV.kernelAt hm.tracked hm.maps.base).2)

/-- A page in the user half leaves the direct map alone. -/
theorem Inv.mapUserPage_direct (h : c.Inv U K) {p virt phys : Nat} {writable : Bool}
    (ht : (c.machine.cr3, some p) ∈ c.tasks) (hvirt : virt < userTop) (hphys : phys < 2 ^ 32)
    (hs : mapUserPage virt phys writable c.machine = .ok s') : s'.Direct := by
  obtain ⟨hptr, hno⟩ := h.dirPtr ht
  dsimp only at hptr hno
  have hD : pageNo (toVirt c.machine.cr3) ∈ c.spaces.dirs := hno ▸ h.mem_dirs ht
  have hmap := mapUserPage_eq_ok.1 hs
  rw [userTop] at hvirt
  exact (mapPage_direct h.tracked h.paged h.direct hptr hD (aligned_of_mapPage hmap) (by omega)
    (userEntry_lt hphys writable) (by decide) (by decide) (Or.inl hvirt)).of_ok hmap

theorem Inv.mapUserPage (h : c.Inv U K) {p virt phys : Nat} {writable : Bool}
    (ht : (c.machine.cr3, some p) ∈ c.tasks) (hvirt : virt < userTop) (hphys : phys < 2 ^ 32)
    (hs : mapUserPage virt phys writable c.machine = .ok s') :
    ∃ T, { c with machine := s' }.Inv U (T ++ K) := by
  have hvirt' : virt < 0xC0000000 := hvirt
  obtain ⟨T, hm⟩ := h.mapUserPage_mapped ht (by omega) hphys hs
  exact ⟨T, h.mapped ht (h.mapUserPage_direct ht hvirt hphys hs) hm⟩

/-- The page at the end of the address space that the next mapping of hmem takes. -/
def window (s : Machine) : Nat := (s.hmemEnd + (2 ^ 32 - 4096)) % 2 ^ 32 / 4096 * 4096

/-- `hmem_end` is moved down by a page. -/
def withWindow (s : Machine) :
    Machine := { s with hmemEnd := (s.hmemEnd + (2 ^ 32 - 4096)) % 2 ^ 32 }

@[simp] theorem withWindow_pages (s : Machine) : (withWindow s).pages = s.pages := by
  funext q k
  rw [withWindow, pages, pages]

@[simp] theorem withWindow_kmem (s : Machine) : (withWindow s).kmem = s.kmem := by
  rw [withWindow]

@[simp] theorem withWindow_physEnd (s : Machine) : (withWindow s).kmemPhysEnd = s.kmemPhysEnd := by
  rw [withWindow]

@[simp] theorem withWindow_dir (s : Machine) :
    (withWindow s).firstPageDirectory = s.firstPageDirectory := by
  rw [withWindow]

/-- A mapping of hmem changes the entry of its page. -/
theorem Inv.hmemMap_maps (h : c.Inv U K) {p addr : Nat} (ht : (c.machine.cr3, some p) ∈ c.tasks)
    (haddr : addr < 2 ^ 32) (hs : c.machine.hmemMap addr = .ok s') :
    { c with machine := withWindow c.machine }.Inv U K ∧ s'.Tracked (U ++ K) 0 ∧
      Maps c.spaces (fun d v => d = c.machine.cr3 / 4096 ∧ v = window c.machine)
        (withWindow c.machine) s' := by
  obtain ⟨hptr, hno⟩ := h.dirPtr ht
  dsimp only at hptr hno
  have hown := h.own _ ht
  dsimp only [Option.map] at hown
  rw [← hno] at hown
  rw [Machine.hmemMap] at hs
  dsimp only at hs
  have hwindow : withWindow c.machine = { c.machine with
    hmemEnd := (c.machine.hmemEnd + (2 ^ 32 - 4096)) % 2 ^ 32 } := rfl
  rw [window, ← hno]
  generalize withWindow c.machine = s₁ at hwindow ⊢
  generalize hend : (c.machine.hmemEnd + (2 ^ 32 - 4096)) % 2 ^ 32 = hmemEnd at hs hwindow ⊢
  have hlt : hmemEnd < 2 ^ 32 := by omega
  split_ifs at hs with hfull htable
  have hindex : hmemEnd >>> 22 = 0x3FF := not_not.1 hfull
  have hdir : dirOf hmemEnd = lastIndex := by
    apply Fin.ext
    rw [dirOf_val hlt, hindex]
    rfl
  -- the register, and then the entry
  rw [← hwindow] at hs
  have hregs : { c with machine := s₁ }.Inv U K := by
    refine h.regs ?_ ?_ ?_ ?_ ?_ (Or.inl ?_) <;> rw [hwindow]
  have hmem : s₁.mem = c.machine.mem := by rw [hwindow]
  have hfirst : s₁.firstPageDirectory = c.machine.firstPageDirectory := by rw [hwindow]
  have hpages : s₁.pages = c.machine.pages := by
    funext q k
    rw [pages, pages, hmem]
  have hentry : tablePage (s₁.pages (pageNo (toVirt c.machine.cr3)) (dirOf hmemEnd)) =
      some (pageNo p) := by
    rw [hpages, hdir]
    exact hown
  have haddr' := fromKmem_entry (s := s₁) hptr hlt hentry
  have hload : s₁.load (toVirt c.machine.cr3 + 4 * (hmemEnd >>> 22)) =
      c.machine.load (toVirt c.machine.cr3 + 4 * (hmemEnd >>> 22)) := by
    rw [load, load, hmem]
  rw [hload] at haddr'
  have hpte : addr ||| prwr < 2 ^ 32 := Nat.or_lt_two_pow haddr (by decide)
  -- the page of the mapping
  have hpage : dirOf (hmemEnd / 4096 * 4096) = dirOf hmemEnd ∧
      tabOf (hmemEnd / 4096 * 4096) = tabOf hmemEnd := by
    constructor <;> apply Fin.ext
    · simp only [dirOf, Fin.val_ofNat]
      omega
    · simp only [tabOf, Fin.val_ofNat]
      omega
  rw [← hpage.1] at hentry
  rw [← hpage.2] at haddr'
  obtain ⟨htracked, hmaps, -⟩ := store_maps hregs.tracked hregs.paged
    (show pageNo (toVirt c.machine.cr3) ∈ _ from hno ▸ hregs.mem_dirs ht) (by omega) (by omega) hpte
      hentry haddr' (Except.ok.inj hs).symm
  refine ⟨hregs, htracked, ?_⟩
  rw [spaces_congr hfirst] at hmaps
  exact hmaps

/-- Mappings of hmem are in the last page table. -/
theorem window_top {s s' : Machine} {addr : Nat} (hs : s.hmemMap addr = .ok s') :
    0xFFC00000 ≤ window s := by
  rw [Machine.hmemMap] at hs
  dsimp only at hs
  rw [window]
  generalize hend : (s.hmemEnd + (2 ^ 32 - 4096)) % 2 ^ 32 = hmemEnd at hs ⊢
  split_ifs at hs with hfull
  have hindex := not_not.1 hfull
  rw [Nat.shiftRight_eq_div_pow] at hindex
  omega

theorem hmemMap_keeps {s s' : Machine} {addr : Nat} (hs : s.hmemMap addr = .ok s') :
    s'.kmemPhysEnd = s.kmemPhysEnd ∧ s'.kmem = s.kmem := by
  rw [Machine.hmemMap] at hs
  dsimp only at hs
  split_ifs at hs
  rw [← Except.ok.inj hs, store]
  exact ⟨rfl, rfl⟩

theorem Inv.hmemMap (h : c.Inv U K) {p addr : Nat} (ht : (c.machine.cr3, some p) ∈ c.tasks)
    (haddr : addr < 2 ^ 32) (hs : c.machine.hmemMap addr = .ok s') :
    { c with machine := s' }.Inv U K := by
  obtain ⟨hregs, htracked, hmaps⟩ := h.hmemMap_maps ht haddr hs
  obtain ⟨hend, hkmem⟩ := hmemMap_keeps hs
  have htop := window_top hs
  have hle := hregs.tracked.physLe
  rw [← spaces_congr (withWindow_dir c.machine)] at hmaps
  have hdirect : s'.Direct := by
    refine hregs.direct.maps hregs.tracked hregs.paged hmaps ?_ ?_ fun d v hv => Or.inl ?_
    · rw [hend, withWindow_physEnd]
    · rw [hkmem, withWindow_kmem]
    · dsimp only at hle ⊢
      omega
  refine hregs.maps hmaps htracked hdirect fun a _ v hV _ => ?_
  obtain ⟨rfl, -⟩ := hV
  have hown := h.own _ ht
  dsimp only [Option.map] at hown ⊢
  rw [withWindow_pages, hown]
  exact Option.some_ne_none _

end Step

end System

end TinyLittleOs.Scheduler
