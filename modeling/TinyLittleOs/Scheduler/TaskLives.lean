import TinyLittleOs.Memory.KmemAccount
import TinyLittleOs.Scheduler.AddressSpaces

/-!
# The lives of tasks

From `task::allocate` to `_sched_final_free`. A life takes a page for the directory, 8 KiB for the
stack and a page for the hmem mappings. The page for the mappings is given back. Of the stack only
the first 4 KiB are, and nobody gives the directory back.
-/

namespace TinyLittleOs.Scheduler

open Lib Memory Memory.Machine Relation

namespace Kernel

/-- The page that `task_allocator` takes for a new slab. -/
def slabPages (k : Kernel) : List (BlockSize × Nat) :=
  if k.taskSlabs = 0 then
    match k.machine.kmemAlloc4k with
    | .ok (page, _) => [(.k4, page)]
    | .error _ => []
  else []

/-- `task::allocate` takes a stack, and pages for slabs. -/
def Takes (run : Nat) (k : Kernel) (stack : Nat) (slabs : List (BlockSize × Nat)) : Prop :=
  ∃ cr3 s s₁ info k₁, k.machine.newPageDirectory = .ok (cr3, s) ∧ s.kmemAlloc8k = .ok (stack, s₁) ∧
    createKernelStack run cr3 { k with maxPid := k.maxPid + 1, machine := s } = .ok (info, k₁) ∧
    slabs = k₁.slabPages

/-- What the rest of the kernel does meanwhile: of the memory that it allocates it keeps the pages
of slabs. -/
structure Others (k : Kernel) (slabs : List (BlockSize × Nat)) (k' : Kernel) : Prop where
  run : ReflTransGen Client.Move ⟨k.machine, []⟩ ⟨k'.machine, slabs⟩
  wrapper : k'.taskWrapper = k.taskWrapper
  freeStack : k'.stackFreeStack = k.stackFreeStack

/-- The life of a task, and the pages of slabs that were allocated in it. -/
inductive Life (run : Nat) (k : Kernel) : List (BlockSize × Nat) → Kernel → Prop
  | mk {t stack pageTable esp : Nat} {slabs u v w : List (BlockSize × Nat)}
      {k₁ k₂ k₃ k₄ k₅ k' : Kernel} {s : Machine} :
      k.allocate run = .ok (t, k₁) → k.Takes run stack slabs → Others k₁ u k₂ →
      k₂.linkTask t = .ok k₃ → Others k₃ v k₄ →
      -- the task is entered, and its main function is called and returns
      wrapperBegin (k₄.enterTask (Task.stackPointer k₄.machine t)).machine = .ok (pageTable, s) →
      Others { k₄ with machine := s } w k₅ → k₅.currentTask = t →
      stack ≤ esp → esp < stack + 8192 → k₅.wrapperEnd pageTable esp = .ok k' →
      Life run k (w ++ (v ++ (u ++ slabs))) k'

end Kernel

/-! ## Writes to memory -/

/-- kmem does not change. -/
structure SameKmem (s s' : Machine) : Prop where
  kmem : s'.kmem = s.kmem
  dir : s'.firstPageDirectory = s.firstPageDirectory
  physEnd : s'.kmemPhysEnd = s.kmemPhysEnd
  region : s'.kmemRegionEnd = s.kmemRegionEnd

namespace SameKmem

theorem trans {s s' s'' : Machine} (h : SameKmem s s') (h' : SameKmem s' s'') : SameKmem s s'' :=
  ⟨h'.kmem.trans h.kmem, h'.dir.trans h.dir, h'.physEnd.trans h.physEnd, h'.region.trans h.region⟩

theorem of_writes {s s' : Machine} (h : s' = { s with mem := s'.mem }) : SameKmem s s' := by
  constructor <;> rw [h]

theorem store (s : Machine) (a v : Nat) : SameKmem s (s.store a v) := of_writes (store_writes s a v)

theorem memset (s : Machine) (a : Nat) (v : BitVec 8) (n : Nat) : SameKmem s (s.memset a v n) :=
  of_writes (memset_writes s a v n)

theorem storeAll (s : Machine) (l : List (Nat × Nat)) : SameKmem s (storeAll s l) := by
  induction l generalizing s with
  | nil => exact ⟨rfl, rfl, rfl, rfl⟩
  | cons w l ih => exact (store s w.1 w.2).trans (ih _)

theorem withKmemView (s : Machine) (m : ByteMem) : SameKmem s (withKmemView s m) :=
  ⟨rfl, rfl, rfl, rfl⟩

end SameKmem

namespace Task

theorem takeRef_same {t : Nat} {s s' : Machine} (h : takeRef t s = .ok s') : SameKmem s s' := by
  rw [takeRef] at h
  split_ifs at h
  cases h
  exact .store _ _ _

theorem releaseRef_same {t : Nat} {s s' : Machine} {last : Bool}
    (h : releaseRef t s = .ok (last, s')) :
    SameKmem s s' := by
  rw [releaseRef] at h
  split_ifs at h
  cases h
  exact .store _ _ _

end Task

namespace Kernel

variable {k k' : Kernel} {t : Nat}

theorem linkTask_same (h : k.linkTask t = .ok k') : SameKmem k.machine k'.machine := by
  obtain ⟨s, hs, hk⟩ := bind_eq_ok.1 h
  cases hk
  exact (Task.takeRef_same hs).trans (.storeAll _ _)

theorem unlinkTask_same (h : k.unlinkTask t = .ok k') : SameKmem k.machine k'.machine := by
  obtain ⟨⟨last, s⟩, hs, hk⟩ := bind_eq_ok.1 h
  cases hk
  exact (SameKmem.storeAll _ _).trans (Task.releaseRef_same hs)

theorem release_same (h : k.release t = .ok k') : SameKmem k.machine k'.machine := by
  obtain ⟨⟨last, s⟩, hs, hk⟩ := bind_eq_ok.1 h
  cases hk
  cases last with
  | false => exact Task.releaseRef_same hs
  | true => exact (Task.releaseRef_same hs).trans (.withKmemView _ _)

end Kernel

/-! ## The account of a life -/

/-- Beside the blocks `L` that there were before, a life has the blocks `X`, and the slabs `slabs`
are in `R`. -/
structure Account (s₀ : Machine) (L X : List Block) (slabs : List (BlockSize × Nat)) (s : Machine)
    (R : List Block) : Prop where
  grown : s₀.Extends s
  tracked : s.Tracked (X ++ R) 0
  others : L ⊆ R
  slabs : ∀ z ∈ slabs, ∃ y ∈ R, Client.see s y = z

namespace Account

variable {s₀ s s' : Machine} {L X R : List Block} {slabs : List (BlockSize × Nat)}
  {x : Block} {p : Nat}

theorem start (h : s.Tracked L 0) : Account s L [] [] s L :=
  ⟨.refl s, h, fun _ hy => hy, fun _ hz => absurd hz List.not_mem_nil⟩

theorem same (h : Account s₀ L X slabs s R) (hs : SameKmem s s') : Account s₀ L X slabs s' R := by
  have hext : s.Extends s' := ⟨by rw [hs.kmem], Nat.le_of_eq (by rw [hs.kmem])⟩
  refine ⟨h.grown.trans hext, h.tracked.congr hs.kmem hs.dir hs.physEnd hs.region, h.others,
    fun z hz => ?_⟩
  rw [Client.see_congr hext]
  exact h.slabs z hz

/-- An allocation. -/
theorem alloc (h : Account s₀ L X slabs s R) {n : BlockSize} (hs : s.kmemAlloc n = .ok (p, s')) :
    ∃ y R', Client.see s₀ y = (n, p) ∧ Account s₀ L (y :: X) slabs s' R' := by
  obtain ⟨y, hsize, hp, hext, T, ht⟩ := (kmemAlloc_handed h.tracked n).of_ok hs
  have hgrown := h.grown.trans hext
  dsimp only at hp hgrown
  refine ⟨y, T ++ R, ?_, hgrown, ht.perm ?_, ?_, fun z hz => ?_⟩
  · rw [← Client.see_congr hgrown, Client.see, hsize, hp]
  · exact (List.perm_append_comm_assoc T X R).cons y
  · exact fun z hz => List.mem_append_right T (h.others hz)
  · obtain ⟨y, hy, rfl⟩ := h.slabs z hz
    rw [Client.see_congr hext]
    exact ⟨y, List.mem_append_right T hy, rfl⟩

/-- A block becomes a slab. -/
theorem slab (h : Account s₀ L (x :: X) slabs s R) :
    Account s₀ L X (slabs ++ [Client.see s₀ x]) s (x :: R) := by
  refine ⟨h.grown, h.tracked.perm List.perm_middle.symm, fun y hy =>
    List.mem_cons_of_mem x (h.others hy),
    fun z hz => ?_⟩
  rcases List.mem_append.1 hz with hz | hz
  · obtain ⟨y, hy, hsee⟩ := h.slabs z hz
    exact ⟨y, List.mem_cons_of_mem x hy, hsee⟩
  · rw [List.mem_singleton] at hz
    exact ⟨x, List.mem_cons_self, (congrFun (Client.see_congr h.grown) x).trans hz.symm⟩

theorem uses (h : Account s₀ L X slabs s R) {held : List (BlockSize × Nat)}
    (hs : ReflTransGen Client.Move ⟨s, []⟩ ⟨s', held⟩) :
    ∃ R', Account s₀ L X (held ++ slabs) s' R' := by
  obtain ⟨U, T, hext, ht, hheld⟩ := Client.Holding.run h.tracked hs
  dsimp only at hext ht hheld
  refine ⟨U ++ (T ++ R), h.grown.trans hext, ht.perm ?_, ?_, fun z hz => ?_⟩
  · have hT := (List.perm_append_comm_assoc T X R).append_left U
    exact hT.trans (List.perm_append_comm_assoc U X (T ++ R))
  · exact fun y hy => List.mem_append_right U (List.mem_append_right T (h.others hy))
  · rcases List.mem_append.1 hz with hz | hz
    · rw [hheld] at hz
      obtain ⟨y, hy, hsee⟩ := List.mem_map.1 hz
      exact ⟨y, List.mem_append_left _ hy, hsee⟩
    · obtain ⟨y, hy, rfl⟩ := h.slabs z hz
      rw [Client.see_congr hext]
      exact ⟨y, List.mem_append_right U (List.mem_append_right T hy), rfl⟩

theorem free (h : Account s₀ L (x :: X) slabs s R) {n : BlockSize} (hx : Client.see s₀ x = (n, p))
    (hs : s.kmemFree n p = .ok s') : Account s₀ L X slabs s' R := by
  rw [← Client.see_congr h.grown] at hx
  obtain ⟨rfl, rfl⟩ := Prod.mk.inj hx
  obtain ⟨hext, ht⟩ := h.tracked.free rfl hs
  refine ⟨h.grown.trans hext, ht, h.others, fun z hz => ?_⟩
  rw [Client.see_congr hext]
  exact h.slabs z hz

/-- The stack as its two pages. -/
theorem split {b i : Nat} (h : Account s₀ L (⟨.k8, b, i⟩ :: X) slabs s R) :
    Account s₀ L (⟨.k4, b, 2 * i⟩ :: ⟨.k4, b, 2 * i + 1⟩ :: X) slabs s R :=
  ⟨h.grown, h.tracked.alike ⟨rfl, rfl, rfl⟩ h.tracked.marked.split, h.others, h.slabs⟩

end Account

namespace Kernel

variable {k k' : Kernel} {t run : Nat}

theorem copyPage_eq_ok {s s' : Machine} {dst src : Nat} (h : s.copyPage dst src = .ok s') :
    SameKmem s s' := by
  rw [copyPage] at h
  split at h
  · obtain rfl := Except.ok.inj h
    exact .of_writes rfl
  · cases h

theorem newPageDirectory_eq_ok {s s' : Machine} {cr3 : Nat}
    (h : s.newPageDirectory = .ok (cr3, s')) :
    ∃ p s₁, s.kmemAlloc .k4 = .ok (p, s₁) ∧ SameKmem s₁ s' := by
  rw [Machine.newPageDirectory, kmemAlloc4k] at h
  obtain ⟨⟨p, s₁⟩, hp, h⟩ := bind_eq_ok.1 h
  obtain ⟨s₂, hcopy, hs⟩ := bind_eq_ok.1 h
  obtain ⟨-, rfl⟩ := Prod.mk.inj (Except.ok.inj hs)
  exact ⟨p, s₁, hp, copyPage_eq_ok hcopy⟩

theorem createKernelStack_eq_ok {main cr3 info : Nat}
    (h : createKernelStack main cr3 k = .ok (info, k')) :
    ∃ stack s₁, k.machine.kmemAlloc .k8 = .ok (stack, s₁) ∧ SameKmem s₁ k'.machine := by
  rw [createKernelStack, kmemAlloc8k] at h
  obtain ⟨⟨stack, s₁⟩, hs₁, hk⟩ := bind_eq_ok.1 h
  obtain ⟨-, rfl⟩ := Prod.mk.inj (Except.ok.inj hk)
  exact ⟨stack, s₁, hs₁, ((SameKmem.store _ _ _).trans (.memset _ _ _ _)).trans (.storeAll _ _)⟩

theorem slabAllocate_eq_ok (h : k.slabAllocate = .ok (t, k')) :
    (∃ page s₁, k.machine.kmemAlloc .k4 = .ok (page, s₁) ∧ SameKmem s₁ k'.machine ∧
      k.slabPages = [(.k4, page)]) ∨
    SameKmem k.machine k'.machine ∧ k.slabPages = [] := by
  rw [slabAllocate, kmemAlloc4k] at h
  rw [slabPages, kmemAlloc4k]
  by_cases hslab : k.taskSlabs = 0
  · rw [if_pos hslab] at h ⊢
    obtain ⟨⟨page, s₁⟩, hs₁, hk⟩ := bind_eq_ok.1 h
    obtain ⟨-, rfl⟩ := Prod.mk.inj (Except.ok.inj hk)
    rw [hs₁]
    exact .inl ⟨page, s₁, rfl, .withKmemView _ _, rfl⟩
  · rw [if_neg hslab] at h ⊢
    obtain ⟨-, rfl⟩ := Prod.mk.inj (Except.ok.inj h)
    exact .inr ⟨.withKmemView _ _, rfl⟩

theorem allocate_eq_ok (h : k.allocate run = .ok (t, k')) : ∃ cr3 s info k₁ k₂,
    k.machine.newPageDirectory = .ok (cr3, s) ∧
    createKernelStack run cr3 { k with maxPid := k.maxPid + 1, machine := s } = .ok (info, k₁) ∧
    k₁.slabAllocate = .ok (t, k₂) ∧ SameKmem k₂.machine k'.machine := by
  rw [allocate] at h
  dsimp only at h
  split_ifs at h
  rw [mapError_eq_ok] at h
  obtain ⟨⟨cr3, s⟩, hdir, h⟩ := bind_eq_ok.1 h
  obtain ⟨⟨info, k₁⟩, hstack, h⟩ := bind_eq_ok.1 h
  obtain ⟨⟨t', k₂⟩, hslab, h⟩ := bind_eq_ok.1 h
  obtain ⟨rfl, rfl⟩ := Prod.mk.inj (Except.ok.inj h)
  exact ⟨cr3, s, info, k₁, k₂, hdir, hstack, hslab, .storeAll _ _⟩

theorem allocate_takes (h : k.allocate run = .ok (t, k')) :
    ∃ stack slabs, k.Takes run stack slabs := by
  obtain ⟨cr3, s, info, k₁, k₂, hdir, hstack, -⟩ := allocate_eq_ok h
  obtain ⟨stack, s₁, hs₁, -⟩ := createKernelStack_eq_ok hstack
  exact ⟨stack, k₁.slabPages, cr3, s, s₁, info, k₁, hdir, hs₁, hstack, rfl⟩

/-- What `task::allocate` takes is in the account. -/
theorem allocate_account {L : List Block} {stack : Nat} {slabs : List (BlockSize × Nat)}
    (ht : k.machine.Tracked L 0) (h : k.allocate run = .ok (t, k'))
    (htakes : k.Takes run stack slabs) :
    ∃ x d R, Client.see k.machine x = (.k8, stack) ∧
    Account k.machine L [x, d] slabs k'.machine R := by
  obtain ⟨cr3, s, info, k₁, k₂, hdir, hstack, hslab, hsame⟩ := allocate_eq_ok h
  obtain ⟨cr3', s', s₁, info', k₁', hdir', hstack', hcreate', rfl⟩ := htakes
  obtain ⟨rfl, rfl⟩ := Prod.mk.inj (Except.ok.inj (hdir.symm.trans hdir'))
  obtain ⟨rfl, rfl⟩ := Prod.mk.inj (Except.ok.inj (hstack.symm.trans hcreate'))
  obtain ⟨p, s₂, hs₂, hsame₂⟩ := newPageDirectory_eq_ok hdir
  obtain ⟨stack', s₁', hs₁', hsame₁⟩ := createKernelStack_eq_ok hstack
  rw [kmemAlloc8k] at hstack'
  obtain ⟨rfl, rfl⟩ := Prod.mk.inj (Except.ok.inj (hs₁'.symm.trans hstack'))
  obtain ⟨d, R, -, hacc⟩ := (Account.start ht).alloc hs₂
  obtain ⟨x, R, hx, hacc⟩ := (hacc.same hsame₂).alloc hs₁'
  have hacc := hacc.same hsame₁
  rcases slabAllocate_eq_ok hslab with ⟨page, s₃, hs₃, hsame₃, hslabs⟩ | ⟨hsame₃, hslabs⟩
  · obtain ⟨y, R, hy, hacc⟩ := hacc.alloc hs₃
    have hacc := hacc.slab
    rw [hy] at hacc
    rw [hslabs]
    exact ⟨x, d, y :: R, hx, (hacc.same hsame₃).same hsame⟩
  · rw [hslabs]
    exact ⟨x, d, R, hx, (hacc.same hsame₃).same hsame⟩

theorem wrapperBegin_eq_ok {s s' : Machine} {pageTable : Nat}
    (h : wrapperBegin s = .ok (pageTable, s')) :
    ∃ s₁, s.kmemAlloc .k4 = .ok (pageTable, s₁) ∧ SameKmem s₁ s' := by
  rw [wrapperBegin, kmemAlloc4k] at h
  obtain ⟨⟨p, s₁⟩, hs₁, hs⟩ := bind_eq_ok.1 h
  obtain ⟨rfl, rfl⟩ := Prod.mk.inj (Except.ok.inj hs)
  exact ⟨s₁, hs₁, (SameKmem.memset _ _ _ _).trans (.store _ _ _)⟩

/-- The end of `task_wrapper` frees the page table and what it takes for the stack. -/
theorem wrapperEnd_eq_ok {pageTable esp : Nat} (h : k.wrapperEnd pageTable esp = .ok k') :
    ∃ s s₁ s₂ s₃, SameKmem k.machine s ∧ s.kmemFree .k4 pageTable = .ok s₁ ∧ SameKmem s₁ s₂ ∧
      s₂.kmemFree .k4 (taskInternal esp) = .ok s₃ ∧ SameKmem s₃ k'.machine := by
  rw [wrapperEnd, kmemFree4k] at h
  obtain ⟨k₁, hunlink, h⟩ := bind_eq_ok.1 h
  obtain ⟨k₂, hrelease, h⟩ := bind_eq_ok.1 h
  rw [mapError_eq_ok] at h
  obtain ⟨s₁, hs₁, h⟩ := bind_eq_ok.1 h
  rw [schedFinalFree, kmemFree4k] at h
  obtain ⟨s₃, hs₃, h⟩ := bind_eq_ok.1 h
  obtain rfl := Except.ok.inj h
  refine ⟨k₂.machine, s₁, _, s₃, (unlinkTask_same hunlink).trans (release_same hrelease), hs₁,
    .storeAll _ _, hs₃, ⟨rfl, rfl, rfl, rfl⟩⟩

/-! ## What is left of a life -/

theorem taskInternal_eq {stack esp : Nat} (halign : stack % 8192 = 0) (hlo : stack ≤ esp)
    (hhi : esp < stack + 8192) : taskInternal esp = stack := by
  rw [taskInternal]
  omega

/-- The second page of the stack and the directory stay in the account; the first page is free. -/
theorem Life.account {L : List Block} {slabs : List (BlockSize × Nat)} (ht : k.machine.Tracked L 0)
    (h : Life run k slabs k') : ∃ b i d R, i < 64 ∧
      Account k.machine L [⟨.k4, b, 2 * i + 1⟩, d] slabs k'.machine R ∧
      k'.machine.pageOf b (2 * i) ∈ k'.machine.freePages := by
  obtain ⟨hallocate, htakes, hu, hlink, hv, hbegin, hw, -, hlo, hhi, hend⟩ := h
  rename_i t stack pageTable esp slabs u v w k₁ k₂ k₃ k₄ k₅ s
  obtain ⟨x, d, R, hx, hacc⟩ := allocate_account ht hallocate htakes
  obtain ⟨R, hacc⟩ := hacc.uses hu.run
  obtain ⟨R, hacc⟩ := (hacc.same (linkTask_same hlink)).uses hv.run
  -- the page for the hmem mappings
  obtain ⟨s₁, hs₁, hsame₁⟩ := wrapperBegin_eq_ok hbegin
  have henter : SameKmem k₄.machine (k₄.enterTask (Task.stackPointer k₄.machine t)).machine :=
    ⟨rfl, rfl, rfl, rfl⟩
  obtain ⟨y, R, hy, hacc⟩ := (hacc.same henter).alloc hs₁
  obtain ⟨R, hacc⟩ := (hacc.same hsame₁).uses hw.run
  obtain ⟨s₂, s₃, s₄, s₅, hsame₂, hs₃, hsame₄, hs₅, hsame'⟩ := wrapperEnd_eq_ok hend
  have hacc := ((hacc.same hsame₂).free hy hs₃).same hsame₄
  -- the stack
  obtain ⟨n, b, i⟩ := x
  obtain rfl : n = .k8 := congrArg Prod.fst hx
  have hstack : s₄.kmem.blockAddr .k8 b i = stack := by
    have hx' := congrFun (Client.see_congr hacc.grown) ⟨.k8, b, i⟩
    exact congrArg Prod.snd (hx'.trans hx)
  obtain ⟨hb, hi⟩ := hacc.tracked.marked.valid ⟨.k8, b, i⟩ List.mem_cons_self
  have halign := (hacc.tracked.toLayout.blockAddr_bounds hb hi).2.2
  have hlow : Client.see k.machine ⟨.k4, b, 2 * i⟩ = (.k4, stack) := by
    rw [← Client.see_congr hacc.grown, ← hstack]
    exact (System.see_half hacc.split.tracked).1
  dsimp only at hb hi halign
  rw [hstack] at halign
  rw [taskInternal_eq halign hlo hhi] at hs₅
  have hapart := (List.pairwise_cons.1 hacc.split.tracked.marked.apart).1
  have hacc := (hacc.split.free hlow hs₅).same hsame'
  refine ⟨b, i, d, R, hi, hacc,
    hacc.tracked.free_of_apart ?_ (by dsimp only [BlockSize.count] at hi; omega) fun y hy => ?_⟩
  · exact (hacc.tracked.marked.valid ⟨.k4, b, 2 * i + 1⟩ List.mem_cons_self).1
  · exact hapart y hy b (2 * i) ⟨rfl, rfl⟩

/-- The account is sound in every state after `init_page_allocator`. -/
theorem tracked_of_run {s₀ s : Machine} {c : Client} (hb : s₀.Booted)
    (hs : s₀.initPageAllocator = .ok s)
    (h : ReflTransGen Client.Move ⟨s, []⟩ c) : ∃ L, c.machine.Tracked L 0 := by
  obtain ⟨K, hK⟩ := hb.ready_of_ok hs
  obtain ⟨U, T, hU⟩ := Client.Holding.run hK.tracked h
  exact ⟨_, hU.tracked⟩

/-- The same pages are free, but for the pages of `slabs`. -/
def Restores (s : Machine) (slabs : List (BlockSize × Nat)) (s' : Machine) : Prop :=
  ∀ q, (∀ z ∈ slabs, ¬ System.OfBlock z q) → (q ∈ s'.freePages ↔ q ∈ s.freePages)

/-- With the first page of the stack free and the second one taken the free pages are not the
same. -/
theorem not_restores_of_half {s s' : Machine} {L R : List Block} {slabs : List (BlockSize × Nat)}
    {b i : Nat} {d : Block} (ht : s.Tracked L 0) (hi : i < 64)
    (h : Account s L [⟨.k4, b, 2 * i + 1⟩, d] slabs s' R)
    (hfree : s'.pageOf b (2 * i) ∈ s'.freePages) :
    ¬ Restores s slabs s' := by
  intro hrestores
  have hupper : (⟨.k4, b, 2 * i + 1⟩ : Block) ∈ [⟨.k4, b, 2 * i + 1⟩, d] ++ R := List.mem_cons_self
  have hapart : ∀ y ∈ R, Block.Apart ⟨.k4, b, 2 * i + 1⟩ y := fun y hy =>
    (List.pairwise_cons.1 h.tracked.marked.apart).1 y (List.mem_cons_of_mem d hy)
  have hin : s'.PageIn ⟨.k4, b, 2 * i + 1⟩ (s'.pageOf b (2 * i + 1)) :=
    (pageIn_iff (by omega) (by dsimp only [BlockSize.count]; omega)).2 ⟨rfl, rfl⟩
  by_cases hb : b < s.kmem.buddyArrayPos
  · -- the second page was free before
    have hbefore : s'.pageOf b (2 * i + 1) ∈ s.freePages := by
      have hpage : s'.pageOf b (2 * i + 1) = s.pageOf b (2 * i + 1) := by
        rw [pageOf, pageOf, h.grown.base]
      rw [hpage]
      apply ht.free_of_apart hb (by omega)
      exact fun y hy => hapart y (h.others hy) b (2 * i + 1) ⟨rfl, rfl⟩
    refine h.tracked.not_free hupper hin ((hrestores _ fun z hz => ?_).2 hbefore)
    obtain ⟨y, hy, rfl⟩ := h.slabs z hz
    have hy' : y ∈ [⟨.k4, b, 2 * i + 1⟩, d] ++ R := List.mem_append_right _ hy
    exact fun hof => h.tracked.not_pageIn hupper hy' (hapart y hy) hin
      ((System.ofBlock_see h.tracked hy' _).1 hof)
  · -- the stack is in a buddy that was created meanwhile, and its first page is free now
    refine not_free_of_pos_le h.grown (Nat.le_of_not_lt hb) ((hrestores _ fun z hz => ?_).1 hfree)
    obtain ⟨y, hy, rfl⟩ := h.slabs z hz
    have hy' : y ∈ [⟨.k4, b, 2 * i + 1⟩, d] ++ R := List.mem_append_right _ hy
    exact fun hof => h.tracked.not_free hy' ((System.ofBlock_see h.tracked hy' _).1 hof) hfree

/-- No life of a task leaves the free pages of kmem as they were. -/
theorem life_loses_pages {L : List Block} {slabs : List (BlockSize × Nat)}
    (ht : k.machine.Tracked L 0)
    (h : Life run k slabs k') : ¬ Restores k.machine slabs k'.machine := by
  obtain ⟨b, i, d, R, hi, hacc, hfree⟩ := h.account ht
  exact not_restores_of_half ht hi hacc hfree

/-! ## A life on a small machine -/

/-- The page directory at 0x110000 and its table at 0x128000, which lead 0xC0000000 to 0xC03FFFFF to
the first 4 MiB. -/
def smallMem : ByteMem := fun a =>
  let entry := if a / 4096 = 0x128 then a % 4096 / 4 * 4096 ||| prwr
    else if a / 4 = 0x110C00 / 4 then 0x128000 ||| prwr else 0
  BitVec.ofNat 8 (entry >>> (8 * (a % 4)))

/-- The small machine with one task, which is linked to itself. -/
def small : Kernel where
  machine :=
    { Client.smallBoot with
      kmem := Client.smallKmem
      kmemPhysEnd := 0x1A8000
      kmemRegionEnd := 0x238000
      hmemPhysEnd := 0x210000
      mem := ByteMem.store32 (ByteMem.store32 smallMem 0x100010 0xC0100010) 0x100014 0xC0100010
      cr3 := 0x110000 }
  maxPid := 1
  taskSlabs := 0
  currentTask := 0xC0100000
  taskWrapper := 0xC0101000
  stackFreeStack := 0xC0102000

theorem small_tracked : ∃ L, small.machine.Tracked L 0 := by
  obtain ⟨s, hs, htrace⟩ := Client.smallBoot_init
  obtain ⟨L, hL⟩ := tracked_of_run Client.smallBoot_booted hs (c := ⟨s, []⟩) .refl
  refine ⟨L, hL.congr htrace.kmem.symm htrace.dir.symm (htrace.physEnd.trans ?_).symm
    htrace.region.symm⟩
  decide +kernel

/-- The stack that the small machine takes. -/
def smallStack : Except Fault Nat := do
  let (_, s) ← small.machine.newPageDirectory
  let (stack, _) ← s.kmemAlloc8k
  return stack

theorem smallStack_eq : smallStack = .ok 0xC012A000 := eq_ok_of_toOption (by decide +kernel)

/-- A task that returns at once. -/
def smallRun : Except TaskFault Unit := do
  let (t, k₁) ← small.allocate 0xC0103000
  let k₂ ← k₁.linkTask t
  let (pageTable, s)
      ← (wrapperBegin (k₂.enterTask (Task.stackPointer k₂.machine t)).machine).mapError .memory
  let _ ← wrapperEnd pageTable 0xC012BF00 { k₂ with machine := s, currentTask := t }
  return ()

theorem smallRun_eq : smallRun = .ok () := eq_ok_of_toOption (by decide +kernel)

theorem small_life : ∃ slabs k', Life 0xC0103000 small slabs k' := by
  obtain ⟨⟨t, k₁⟩, h₁, hrun⟩ := bind_eq_ok.1 smallRun_eq
  obtain ⟨k₂, h₂, hrun⟩ := bind_eq_ok.1 hrun
  obtain ⟨⟨pageTable, s⟩, hbegin, hrun⟩ := bind_eq_ok.1 hrun
  obtain ⟨k', hend, -⟩ := bind_eq_ok.1 hrun
  obtain ⟨stack, slabs, htakes⟩ := allocate_takes h₁
  have hstack : stack = 0xC012A000 := by
    obtain ⟨cr3, s, s₁, info, k, hdir, hs₁, -⟩ := htakes
    have hsame : smallStack = .ok stack := by
      rw [smallStack, hdir, ok_bind]
      dsimp only
      rw [hs₁]
      rfl
    exact Except.ok.inj (hsame.symm.trans smallStack_eq)
  have hrefl (k : Kernel) : Others k [] k := ⟨.refl, rfl, rfl⟩
  have hmain : Others { k₂ with machine := s } [] { k₂ with machine := s, currentTask := t } :=
    ⟨.refl, rfl, rfl⟩
  refine ⟨_, k', .mk h₁ htakes (hrefl k₁) h₂ (hrefl k₂) (mapError_eq_ok.1 hbegin) hmain
    rfl ?_ ?_ hend⟩
  · rw [hstack]
    decide
  · rw [hstack]
    decide

theorem small_life_loses : ∃ slabs k', Life 0xC0103000 small slabs k' ∧
    ¬ Restores small.machine slabs k'.machine := by
  obtain ⟨L, ht⟩ := small_tracked
  obtain ⟨slabs, k', h⟩ := small_life
  exact ⟨slabs, k', h, life_loses_pages ht h⟩

/-- The second page of the stack is lost. -/
theorem small_stack_lost :
    ¬ ∀ (k k' : Kernel) (L : List Block) (run : Nat) (slabs : List (BlockSize × Nat)),
    k.machine.Tracked L 0 → Life run k slabs k' → Restores k.machine slabs k'.machine := by
  intro hclaim
  obtain ⟨L, ht⟩ := small_tracked
  obtain ⟨slabs, k', h⟩ := small_life
  obtain ⟨b, i, d, R, hi, hacc, hfree⟩ := h.account ht
  exact not_restores_of_half ht hi hacc hfree (hclaim small k' L _ slabs ht h)

end Kernel

end TinyLittleOs.Scheduler
