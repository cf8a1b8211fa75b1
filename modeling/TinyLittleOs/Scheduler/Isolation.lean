import TinyLittleOs.Scheduler.PrivateTables
import TinyLittleOs.Scheduler.ElfMemory

/-!
# Tasks are apart

The kernel runs with tasks that take pages of hmem, map them in the user half and write there, in
any order. A page that a task has mapped is in no other address space, then or later, and what a
task sees in the user half changes through its own steps only.
-/

namespace TinyLittleOs.Scheduler

open Lib Memory Memory.Machine Relation

/-- The system, the pages of hmem that are allocated, and those that a task, given by its `cr3`, has
allocated and not mapped yet. -/
structure UserSystem where
  system : System
  held : List Nat
  taken : List (Nat × Nat)

namespace UserSystem

def machine (m : UserSystem) : Machine := m.system.machine

def spaceIds (m : UserSystem) : List Nat := m.system.spaceIds

/-- One step, with the task that maps a page or writes to one. -/
inductive Step : Option Nat → UserSystem → UserSystem → Prop
  | kernel {c c' : System} {held : List Nat} {taken : List (Nat × Nat)} :
      System.KernelStep c c' → c'.machine.kmemPhysEnd ≤ c'.machine.hmemPhysEnd →
      Step none ⟨c, held, taken⟩ ⟨c', held, taken⟩
  | alloc {c : System} {held : List Nat} {taken : List (Nat × Nat)} {p q : Nat} {s' : Machine} :
      (c.machine.cr3, some p) ∈ c.tasks → c.machine.hmemAllocPage = .ok (q, s') →
      Step none ⟨c, held, taken⟩ ⟨{ c with machine := s' }, q :: held, (c.machine.cr3, q) :: taken⟩
  /-- A task maps a page that it has allocated, where nothing is mapped: `_map_page` has no
  `asm_invlpg`. -/
  | map {c : System} {held : List Nat} {u v : List (Nat × Nat)} {p q virt : Nat} {writable : Bool}
      {s' : Machine} :
      (c.machine.cr3, some p) ∈ c.tasks → virt < 0xC0000000 → c.machine.translate virt = none →
      mapUserPage virt q writable c.machine = .ok s' → s'.kmemPhysEnd ≤ s'.hmemPhysEnd →
      Step (some c.machine.cr3) ⟨c, held, u ++ (c.machine.cr3, q) :: v⟩
        ⟨{ c with machine := s' }, held, u ++ v⟩
  /-- A byte is written to an address that is mapped, by the task or by the kernel on its behalf. -/
  | write {c : System} {held : List Nat} {taken : List (Nat × Nat)} {p virt phys : Nat}
      {b : BitVec 8} :
      (c.machine.cr3, some p) ∈ c.tasks → virt < 0xC0000000 → c.machine.translate virt = some phys →
      Step (some c.machine.cr3) ⟨c, held, taken⟩
        ⟨{ c with machine := { c.machine with mem := c.machine.mem.store8 phys b } }, held, taken⟩

/-- The page at `v` of the address space `t` is in the frame `q`. -/
def Frame (s : Machine) (t v q : Nat) : Prop :=
  q % 4096 = 0 ∧ ∃ b : Bool, System.entry s (t / 4096) v = System.userEntry q b

/-- No frame is mapped twice, and what is mapped was taken from hmem. -/
structure Inv (m : UserSystem) (U K : List Block) (free : List Nat) : Prop where
  hmem : HmemSystem.Inv ⟨m.system, m.held, []⟩ U K free
  isPrivate : m.system.Private
  taken : ∀ x ∈ m.taken, x.2 ∈ m.held
  nodup : (m.taken.map Prod.snd).Nodup
  mapped : ∀ t ∈ m.spaceIds, ∀ v, System.UserPage v → System.entry m.machine (t / 4096) v = 0 ∨
    ∃ q ∈ m.held, q ∉ m.taken.map Prod.snd ∧ Frame m.machine t v q
  once : ∀ t ∈ m.spaceIds, ∀ u ∈ m.spaceIds, ∀ v w q, System.UserPage v → System.UserPage w →
    Frame m.machine t v q → Frame m.machine u w q → t = u ∧ v = w

section Frame

variable {s s' : Machine} {t v q r : Nat}

theorem Frame.congr (h : Frame s' t v q)
    (he : System.entry s' (t / 4096) v = System.entry s (t / 4096) v) : Frame s t v q := by
  obtain ⟨hq, b, hb⟩ := h
  exact ⟨hq, b, he.symm.trans hb⟩

theorem Frame.present (h : Frame s t v q) : System.entry s (t / 4096) v &&& present ≠ 0 ∧
    alignPageDown (System.entry s (t / 4096) v) = q := by
  obtain ⟨hq, b, hb⟩ := h
  rw [hb]
  exact userEntry_present hq b

theorem Frame.unique (h : Frame s t v q) (h' : Frame s t v r) : q = r :=
  h.present.2.symm.trans h'.present.2

theorem Frame.ne_zero (h : Frame s t v q) : System.entry s (t / 4096) v ≠ 0 := by
  intro hzero
  apply h.present.1
  rw [hzero]
  exact Nat.zero_and _

end Frame

/-- The user halves of the address spaces stay, and new ones are empty there. -/
structure Same (m m' : UserSystem) : Prop where
  old : ∀ t ∈ m'.spaceIds, t ∈ m.spaceIds → ∀ v, System.UserPage v →
    System.entry m'.machine (t / 4096) v = System.entry m.machine (t / 4096) v
  new : ∀ t ∈ m'.spaceIds, t ∉ m.spaceIds → ∀ v, System.UserPage v →
    System.entry m'.machine (t / 4096) v = 0

section Inv

variable {m m' : UserSystem} {U K : List Block} {free : List Nat} {o : Option Nat} {t u v w q : Nat}

theorem Same.frame (h : Same m m') (ht : t ∈ m'.spaceIds) (hv : System.UserPage v)
    (hf : Frame m'.machine t v q) : t ∈ m.spaceIds ∧ Frame m.machine t v q := by
  by_cases hold : t ∈ m.spaceIds
  · exact ⟨hold, hf.congr (h.old t ht hold v hv)⟩
  · exact absurd (h.new t ht hold v hv) hf.ne_zero

theorem Inv.aligned (h : m.Inv U K free) (hq : q ∈ m.held) :
    q % 4096 = 0 ∧ m.machine.hmemPhysEnd ≤ q ∧ q < 2 ^ 32 :=
  h.hmem.page q (List.mem_append_right free hq)

/-- A frame that is mapped is allocated, and nobody is about to map it. -/
theorem Inv.frame_held (h : m.Inv U K free) (ht : t ∈ m.spaceIds) (hv : System.UserPage v)
    (hf : Frame m.machine t v q) : q ∈ m.held ∧ q ∉ m.taken.map Prod.snd := by
  rcases h.mapped t ht v hv with hzero | ⟨r, hr, hnot, hr'⟩
  · exact absurd hzero hf.ne_zero
  · obtain rfl := hf.unique hr'
    exact ⟨hr, hnot⟩

/-- A step that maps nothing. -/
theorem Inv.same (h : m.Inv U K free) {U' K' : List Block} {free' : List Nat}
    (hh : HmemSystem.Inv ⟨m'.system, m'.held, []⟩ U' K' free') (hp : m'.system.Private)
    (hs : Same m m')
    (hheld : ∀ q ∈ m.held, q ∈ m'.held) (htaken : ∀ x ∈ m'.taken, x.2 ∈ m'.held)
    (hnodup : (m'.taken.map Prod.snd).Nodup)
    (hnot : ∀ q ∈ m.held, q ∉ m.taken.map Prod.snd → q ∉ m'.taken.map Prod.snd) :
    m'.Inv U' K' free' := by
  refine ⟨hh, hp, htaken, hnodup, fun t ht v hv => ?_, fun t ht u hu v w q hv hw hf hf' => ?_⟩
  · by_cases hold : t ∈ m.spaceIds
    · have he := hs.old t ht hold v hv
      rw [he]
      refine (h.mapped t hold v hv).imp_right ?_
      rintro ⟨q, hq, hqt, hf⟩
      exact ⟨q, hheld q hq, hnot q hq hqt, hf.congr he.symm⟩
    · exact Or.inl (hs.new t ht hold v hv)
  · obtain ⟨ht, hf⟩ := hs.frame ht hv hf
    obtain ⟨hu, hf'⟩ := hs.frame hu hw hf'
    exact h.once t ht u hu v w q hv hw hf hf'

/-- Nobody frees pages of hmem. -/
theorem Inv.free_nil (h : m.Inv U K free) : free = [] ∧ m.machine.hmemPhysList = 0 := by
  have hfree : free = [] := List.eq_nil_iff_forall_not_mem.2 fun q hq => by
    have hin := h.hmem.freed q hq
    cases hin
  have hchain := h.hmem.chain
  rw [hfree] at hchain
  exact ⟨hfree, hchain⟩

theorem Inv.space_aligned (h : m.Inv U K free) (ht : t ∈ m.spaceIds) : t % 4096 = 0 := by
  obtain ⟨x, hx, rfl⟩ := List.mem_map.1 ht
  have halign := (h.hmem.system.dirPtr hx).1.aligned
  unfold toVirt at halign
  omega

/-! ## What a task sees -/

/-- The page of an address. -/
theorem page_of {v : Nat} (hv : v < 0xC0000000) : System.UserPage (v / 4096 * 4096) ∧
    dirOf (v / 4096 * 4096) = dirOf v ∧ tabOf (v / 4096 * 4096) = tabOf v ∧
    v &&& 0xFFF = v % 4096 := by
  have hmod : v / 4096 * 4096 % 4096 = 0 := Nat.mul_mod_left _ _
  obtain ⟨hdir, htab, hoff⟩ := indices_add hmod (show v % 4096 < 4096 from Nat.mod_lt _ (by decide))
  have hsplit : v / 4096 * 4096 + v % 4096 = v := by omega
  rw [hsplit] at hdir htab hoff
  exact ⟨⟨by omega, hmod⟩, hdir.symm, htab.symm, hoff⟩

/-- An address in the user half is translated by the frame of its page. -/
theorem Inv.translate_iff (h : m.Inv U K free) (ht : t ∈ m.spaceIds)
    (hv : v < 0xC0000000) {a : Nat} :
    ({ m.machine with cr3 := t } : Machine).translate v = some a ↔
      ∃ q, Frame m.machine t (v / 4096 * 4096) q ∧ a = q + v % 4096 := by
  obtain ⟨x, hx, rfl⟩ := List.mem_map.1 ht
  obtain ⟨hptr, hno⟩ := h.hmem.system.dirPtr hx
  obtain ⟨hpage, hdir, htab, hoff⟩ := page_of hv
  have hpages : ({ m.machine with cr3 := x.1 } : Machine).pages = m.machine.pages := by
    funext q k
    rw [pages, pages]
  have htrans := translate_eq (s := { m.machine with cr3 := x.1 }) hptr (show v < 2 ^ 32 by omega)
  rw [hpages, hno, ← hdir, ← htab, hoff] at htrans
  change _ = if System.entry m.machine (x.1 / 4096) (v / 4096 * 4096) &&& present = 0 then none else
    some (alignPageDown (System.entry m.machine (x.1 / 4096) (v / 4096 * 4096)) + v %
      4096) at htrans
  rw [htrans]
  constructor
  · intro hsome
    rcases h.mapped x.1 ht _ hpage with hzero | ⟨q, -, -, hf⟩
    · rw [hzero, if_pos (Nat.zero_and _)] at hsome
      cases hsome
    · rw [if_neg hf.present.1, hf.present.2] at hsome
      exact ⟨q, hf, (Option.some.inj hsome).symm⟩
  · rintro ⟨q, hf, rfl⟩
    rw [if_neg hf.present.1, hf.present.2]

/-- A byte in the user half is in a frame of the task, and not in a directory or a page table. -/
theorem Inv.store_above {c : System} {held : List Nat} {taken : List (Nat × Nat)}
    {p virt phys : Nat}
    (h : Inv ⟨c, held, taken⟩ U K free) (ht : (c.machine.cr3, some p) ∈ c.tasks)
    (hv : virt < 0xC0000000)
    (hphys : c.machine.translate virt = some phys) (b : BitVec 8) :
    (∃ q ∈ held, Frame c.machine c.machine.cr3 (virt / 4096 * 4096) q ∧ q ≤ phys ∧
      phys < q + 4096) ∧
      ∀ r, c.machine.Holds c.spaces r →
        ({ c.machine with mem := c.machine.mem.store8 phys b } : Machine).pages r =
          c.machine.pages r := by
  have hin : c.machine.cr3 ∈ c.spaceIds := List.mem_map_of_mem ht
  obtain ⟨q, hf, hat⟩ := (h.translate_iff hin hv).1 hphys
  obtain ⟨hq, -⟩ := h.frame_held hin (page_of hv).1 hf
  have hframe := h.aligned hq
  have hle := h.hmem.le
  have hmod : virt % 4096 < 4096 := Nat.mod_lt _ (by decide)
  rw [machine] at hframe
  dsimp only at hframe hle
  refine ⟨⟨q, hq, hf, by omega, by omega⟩, fun r hr => ?_⟩
  have hlow := h.hmem.system.below hr
  dsimp only at hlow
  funext k
  have hk := k.isLt
  refine ByteMem.load32_congr fun x _ _ => ?_
  dsimp only
  rw [ByteMem.store8, Function.update_of_ne]
  rintro rfl
  omega

/-! ## One step -/

/-- What a step of `o` does. -/
structure Effect (o : Option Nat) (m m' : UserSystem) : Prop where
  inv : ∃ U K free, m'.Inv U K free
  entry : ∀ t ∈ m'.spaceIds, t ∈ m.spaceIds → o ≠ some t → ∀ v, System.UserPage v →
    System.entry m'.machine (t / 4096) v = System.entry m.machine (t / 4096) v
  frame : ∀ t ∈ m'.spaceIds, ∀ v q, System.UserPage v → Frame m'.machine t v q →
    t ∈ m.spaceIds ∧ Frame m.machine t v q ∨ q ∈ m.taken.map Prod.snd
  held : ∀ q ∈ m.held, q ∈ m'.held
  taken : ∀ q ∈ m.held, q ∉ m.taken.map Prod.snd → q ∉ m'.taken.map Prod.snd
  mem : ∀ q ∈ m.held, ∀ i < 4096, m'.machine.mem (q + i) = m.machine.mem (q + i) ∨
    ∃ t ∈ m.spaceIds, o = some t ∧ ∃ v, System.UserPage v ∧ Frame m.machine t v q

/-- What the address spaces and hmem see of a step. -/
theorem Inv.hmem_step (h : m.Inv U K free) (hs : Step o m m') :
    HmemSystem.Step ⟨m.system, m.held, []⟩ ⟨m'.system, m'.held, []⟩ := by
  cases hs with
  | kernel hk hle =>
    have hsp := hk.spared h.hmem.system h.isPrivate
    exact .kernel hk.step hsp.hmemPhysEnd hsp.hmemPhysList hle fun q hq =>
      absurd hq List.not_mem_nil
  | alloc ht hs => exact .alloc ht hs
  | map ht hv _ hs hle =>
    have hq := (h.aligned (h.taken _ (List.mem_append_right _ List.mem_cons_self))).2.2
    obtain ⟨-, -, -, hend, hlist, -⟩ := System.mapUserPage_changes h.hmem.system ht hv hq hs
    exact .kernel (.mapUserPage ht hv hq hs) hend hlist hle fun q hq => absurd hq List.not_mem_nil
  | write ht hv hphys =>
    refine .kernel (.write fun r hr => ?_) rfl rfl h.hmem.le fun q hq => absurd hq List.not_mem_nil
    exact (h.store_above ht hv hphys _).2 r (hr.imp_right Or.inr)

/-- A step that maps nothing and writes to no page of hmem. -/
theorem Inv.effect (h : m.Inv U K free) (hinv : ∃ U K free, m'.Inv U K free) (hs : Same m m')
    (hheld : ∀ q ∈ m.held, q ∈ m'.held)
    (htaken : ∀ q ∈ m.held, q ∉ m.taken.map Prod.snd → q ∉ m'.taken.map Prod.snd)
    (hmem : ∀ x, m.machine.hmemPhysEnd ≤ x → m'.machine.mem x = m.machine.mem x) :
    Effect o m m' := by
  refine ⟨hinv, fun t ht hold _ v hv => hs.old t ht hold v hv,
    fun t ht v q hv hf => Or.inl (hs.frame ht hv hf), hheld, htaken, fun q hq i _ =>
    Or.inl (hmem _ ?_)⟩
  have hlo := (h.aligned hq).2.1
  omega

section Steps

variable {c c' : System} {held : List Nat} {taken u₁ u₂ : List (Nat × Nat)} {p virt : Nat}
  {s' : Machine}

theorem Inv.kernel_effect (h : Inv ⟨c, held, taken⟩ U K free) (hk : System.KernelStep c c')
    (hle : c'.machine.kmemPhysEnd ≤ c'.machine.hmemPhysEnd) :
    Effect none ⟨c, held, taken⟩ ⟨c', held, taken⟩ := by
  have hsp := hk.spared h.hmem.system h.isPrivate
  have hs : Same ⟨c, held, taken⟩ ⟨c', held, taken⟩ := ⟨hsp.old, hsp.new⟩
  have hend := hsp.hmemPhysEnd
  obtain ⟨U', K', free', hh⟩ := h.hmem.step (h.hmem_step (.kernel hk hle))
  refine h.effect
    ⟨U', K', free', h.same hh hsp.isPrivate hs (fun _ hq => hq) h.taken h.nodup fun _ _ hq => hq⟩
    hs (fun _ hq => hq) (fun _ _ hq => hq) fun x hx => hsp.mem x ?_
  have hlo : c.machine.hmemPhysEnd ≤ x := hx
  omega

/-- Memory is as before, as far as directories and tables go. -/
theorem Inv.same_of_pages (h : Inv ⟨c, held, taken⟩ U K free) (held' : List Nat)
    (taken' : List (Nat × Nat))
    (hdir : s'.firstPageDirectory = c.machine.firstPageDirectory)
    (hpages : ∀ q, c.machine.pages.Refs tablePage c.dirs q → s'.pages q = c.machine.pages q) :
    { c with machine := s' }.Private ∧
      Same ⟨c, held, taken⟩ ⟨{ c with machine := s' }, held', taken'⟩ := by
  have hdirs := System.dirs_congr (c := c) hdir
  refine ⟨h.isPrivate.congr hdir hdirs.subset fun a ha i _ => ?_, fun t ht _ v _ => ?_,
    fun t ht hnew => absurd ht hnew⟩
  · refine congrFun (hpages a (PageMem.refs_dir ?_)) i
    rcases ha with rfl | ha
    · exact Or.inl rfl
    · exact hdirs ▸ ha
  · exact PageMem.walk_congr hpages (System.dir_of_mem ht) _ _

theorem Inv.alloc_effect (h : Inv ⟨c, held, taken⟩ U K free)
    (ht : (c.machine.cr3, some p) ∈ c.tasks)
    (hs : c.machine.hmemAllocPage = .ok (q, s')) :
    Effect none ⟨c, held, taken⟩
    ⟨{ c with machine := s' }, q :: held, (c.machine.cr3, q) :: taken⟩ := by
  have hnil : c.machine.hmemPhysList = 0 := h.free_nil.2
  obtain ⟨-, hfresh, -, -⟩ := (h.hmem.pages ht).alloc.of_ok hs
  dsimp only at hfresh
  obtain ⟨U', K', free', hh⟩ := h.hmem.step (h.hmem_step (.alloc ht hs))
  have hregs : s'.mem = c.machine.mem ∧ s'.firstPageDirectory = c.machine.firstPageDirectory := by
    rw [hmemAllocPage] at hs
    dsimp only at hs
    rw [if_pos hnil] at hs
    split_ifs at hs
    rw [← (Prod.mk.inj (Except.ok.inj hs)).2]
    exact ⟨rfl, rfl⟩
  obtain ⟨hmem, hdir⟩ := hregs
  have hpages : s'.pages = c.machine.pages := by
    funext r k
    rw [pages, pages, hmem]
  obtain ⟨hprivate, hsame⟩ := h.same_of_pages (q :: held) ((c.machine.cr3, q) :: taken) hdir
    fun r _ => by rw [hpages]
  have hnot : q ∉ taken.map Prod.snd := by
    intro hin
    obtain ⟨x, hx, rfl⟩ := List.mem_map.1 hin
    exact hfresh (h.taken x hx)
  have htaken (r : Nat) (hr : r ∈ held) (hrt : r ∉ taken.map Prod.snd) :
      r ∉ ((c.machine.cr3, q) :: taken).map Prod.snd := by
    rw [List.map_cons, List.mem_cons, not_or]
    refine ⟨?_, hrt⟩
    rintro rfl
    exact hfresh hr
  refine h.effect
    ⟨U', K', free', h.same hh hprivate hsame (fun r hr => List.mem_cons_of_mem q hr) ?_ ?_ htaken⟩
    hsame (fun r hr => List.mem_cons_of_mem q hr) htaken fun x _ => congrFun hmem x
  · intro x hx
    rcases List.mem_cons.1 hx with rfl | hx
    · exact List.mem_cons_self
    · exact List.mem_cons_of_mem q (h.taken x hx)
  · rw [List.map_cons, List.nodup_cons]
    exact ⟨hnot, h.nodup⟩

/-- The task writes to a frame of its own. -/
theorem Inv.write_effect (h : Inv ⟨c, held, taken⟩ U K free)
    (ht : (c.machine.cr3, some p) ∈ c.tasks)
    (hv : virt < 0xC0000000) {phys : Nat} (hphys : c.machine.translate virt = some phys)
    (b : BitVec 8) :
    Effect (some c.machine.cr3) ⟨c, held, taken⟩
      ⟨{ c with machine := { c.machine with mem := c.machine.mem.store8 phys b } },
        held, taken⟩ := by
  have hin : c.machine.cr3 ∈ c.spaceIds := List.mem_map_of_mem ht
  obtain ⟨⟨q, hq, hf, hlo, hhi⟩, hbelow⟩ := h.store_above ht hv hphys b
  have hframe := h.aligned hq
  obtain ⟨U', K', free', hh⟩ := h.hmem.step (h.hmem_step (.write ht hv hphys))
  obtain ⟨hprivate, hsame⟩ := h.same_of_pages held taken
    (show ({ c.machine with mem := c.machine.mem.store8 phys b } : Machine).firstPageDirectory =
      _ from rfl)
    fun r hr => hbelow r (Or.inl hr)
  refine ⟨⟨U', K', free', h.same hh hprivate hsame (fun _ hr => hr) h.taken h.nodup
    fun _ _ hr => hr⟩,
    fun t ht hold _ v hv => hsame.old t ht hold v hv, fun t ht v r hv hr =>
    Or.inl (hsame.frame ht hv hr),
    fun _ hr => hr, fun _ _ hr => hr, fun r hr i hi => ?_⟩
  by_cases heq : r = q
  · exact Or.inr ⟨c.machine.cr3, hin, rfl, _, (page_of hv).1, heq ▸ hf⟩
  · have hr' := h.aligned hr
    refine Or.inl ?_
    rw [machine]
    dsimp only
    rw [ByteMem.store8, Function.update_of_ne]
    · rfl
    · omega

/-- The task maps a frame that nobody has mapped. -/
theorem Inv.map_effect (h : Inv ⟨c, held, u₁ ++ (c.machine.cr3, q) :: u₂⟩ U K free)
    (ht : (c.machine.cr3, some p) ∈ c.tasks) (hv : virt < 0xC0000000)
    (hnone : c.machine.translate virt = none) {writable : Bool}
    (hs : mapUserPage virt q writable c.machine = .ok s') (hle : s'.kmemPhysEnd ≤ s'.hmemPhysEnd) :
    Effect (some c.machine.cr3) ⟨c, held, u₁ ++ (c.machine.cr3, q) :: u₂⟩
      ⟨{ c with machine := s' }, held, u₁ ++ u₂⟩ := by
  have hin : c.machine.cr3 ∈ c.spaceIds := List.mem_map_of_mem ht
  have hq : q ∈ held := h.taken (c.machine.cr3, q) (by simp)
  have hframe := h.aligned hq
  have hpage : System.UserPage virt :=
    ⟨hv, System.aligned_of_mapPage (System.mapUserPage_eq_ok.1 hs)⟩
  -- the machine
  obtain ⟨K₁, -, hc, hend, -, -⟩ := System.mapUserPage_changes h.hmem.system ht hv hframe.2.2 hs
  obtain ⟨hprivate, hentry, hnew⟩ :=
    h.hmem.system.mapUserPage_private h.isPrivate ht hv hframe.2.2 hs
  obtain ⟨U', K', free', hh⟩ := h.hmem.step (h.hmem_step (.map ht hv hnone hs hle))
  dsimp only at hend hentry hnew
  -- the pages that are left to map
  have hsub (r : Nat) (hr : r ∈ (u₁ ++ u₂).map Prod.snd) :
      r ∈ (u₁ ++ (c.machine.cr3, q) :: u₂).map Prod.snd := by
    simp only [List.map_append, List.map_cons, List.mem_append, List.mem_cons] at hr ⊢
    tauto
  have hnodup := h.nodup
  dsimp only at hnodup
  rw [List.map_append, List.map_cons, List.nodup_middle, ← List.map_append,
    List.nodup_cons] at hnodup
  -- every other entry stays
  have hother (t : Nat) (ht : t ∈ c.spaceIds) (v : Nat) (hv : System.UserPage v)
      (hne : ¬ (t = c.machine.cr3 ∧ v = virt)) :
      System.entry s' (t / 4096) v = System.entry c.machine (t / 4096) v := by
    refine hentry _ (System.dir_of_mem ht) v hv fun hat => hne ⟨?_, hat.2⟩
    have halign : t % 4096 = 0 := h.space_aligned ht
    have halign' : c.machine.cr3 % 4096 = 0 := h.space_aligned hin
    omega
  have hmine : Frame s' c.machine.cr3 virt q := ⟨hframe.1, writable, hnew⟩
  have hfree (t : Nat) (ht : t ∈ c.spaceIds) (v : Nat) (hv : System.UserPage v) :
      ¬ Frame c.machine t v q := fun hf => (h.frame_held ht hv hf).2 (by simp)
  have hcases (t : Nat) (ht : t ∈ c.spaceIds) (v r : Nat) (hv : System.UserPage v)
      (hf : Frame s' t v r) :
      t = c.machine.cr3 ∧ v = virt ∧ r = q ∨ Frame c.machine t v r ∧ r ≠ q := by
    by_cases hat : t = c.machine.cr3 ∧ v = virt
    · obtain ⟨rfl, rfl⟩ := hat
      exact Or.inl ⟨rfl, rfl, hf.unique hmine⟩
    · have hold := hf.congr (hother t ht v hv hat)
      refine Or.inr ⟨hold, ?_⟩
      rintro rfl
      exact hfree t ht v hv hold
  refine ⟨⟨U', K', free', hh, hprivate, fun x hx => h.taken x ?_, hnodup.2, fun t ht v hv => ?_,
    fun t ht u hu v w r hv hw hf hf' => ?_⟩, fun t ht _ hne v hv => ?_, fun t ht v r hv hf => ?_,
    fun _ hr => hr,
    fun r _ hr hin' => hr (hsub r hin'), fun r hr i _ => Or.inl (hc.mem _ ?_ ?_)⟩
  · simp only [List.mem_append, List.mem_cons] at hx ⊢
    tauto
  · by_cases hat : t = c.machine.cr3 ∧ v = virt
    · obtain ⟨rfl, rfl⟩ := hat
      exact Or.inr ⟨q, hq, hnodup.1, hmine⟩
    · have he := hother t ht v hv hat
      dsimp only [machine] at he ⊢
      rw [he]
      refine (h.mapped t ht v hv).imp_right ?_
      rintro ⟨r, hr, hrt, hf⟩
      exact ⟨r, hr, fun hin' => hrt (hsub r hin'), hf.congr he.symm⟩
  · rcases hcases t ht v r hv hf with ⟨rfl, rfl, rfl⟩ | ⟨hold, hne⟩
    · rcases hcases u hu w r hw hf' with ⟨rfl, rfl, -⟩ | ⟨-, hne⟩
      · exact ⟨rfl, rfl⟩
      · exact absurd rfl hne
    · rcases hcases u hu w r hw hf' with ⟨-, -, rfl⟩ | ⟨hold', -⟩
      · exact absurd rfl hne
      · exact h.once t ht u hu v w r hv hw hold hold'
  · exact hother t ht v hv fun hat => hne (congrArg some hat.1.symm)
  · rcases hcases t ht v r hv hf with ⟨-, -, rfl⟩ | ⟨hold, -⟩
    · exact Or.inr (by simp)
    · exact Or.inl ⟨ht, hold⟩
  · have hlo := (h.aligned hr).2.1
    rw [machine] at hlo
    dsimp only at hlo ⊢
    omega
  · rintro ⟨_, hin', -⟩
    cases hin'

end Steps

/-- Every step keeps the invariant, and does to the others what an `Effect` allows. -/
theorem Inv.step (h : m.Inv U K free) (hs : Step o m m') : Effect o m m' := by
  cases hs with
  | kernel hk hle => exact h.kernel_effect hk hle
  | alloc ht hs => exact h.alloc_effect ht hs
  | map ht hv hnone hs hle => exact h.map_effect ht hv hnone hs hle
  | write ht hv hphys => exact h.write_effect ht hv hphys _

/-! ## A frame and its task -/

/-- The frame `q` is mapped nowhere but at `v` in the address space `t`, and nobody is about to map
it. -/
def Sole (m : UserSystem) (t v q : Nat) : Prop :=
  q ∈ m.held ∧ q ∉ m.taken.map Prod.snd ∧
    ∀ u ∈ m.spaceIds, ∀ w, System.UserPage w → Frame m.machine u w q → u = t ∧ w = v

theorem Inv.sole (h : m.Inv U K free) (ht : t ∈ m.spaceIds) (hv : System.UserPage v)
    (hf : Frame m.machine t v q) : Sole m t v q := by
  obtain ⟨hq, hnot⟩ := h.frame_held ht hv hf
  exact ⟨hq, hnot, fun u hu w hw hf' => h.once u hu t ht w v q hw hv hf' hf⟩

theorem Effect.sole (h : Effect o m m') (hs : Sole m t v q) : Sole m' t v q := by
  obtain ⟨hq, hnot, honly⟩ := hs
  refine ⟨h.held q hq, h.taken q hq hnot, fun u hu w hw hf => ?_⟩
  rcases h.frame u hu w q hw hf with ⟨hold, hf⟩ | hin
  · exact honly u hold w hw hf
  · exact absurd hin hnot

/-! ## What others see -/

/-- The byte that a task sees. -/
def userByte (s : Machine) (t v : Nat) : Option (BitVec 8) :=
  (({ s with cr3 := t } : Machine).translate v).map s.mem

theorem Effect.translate (h : m.Inv U K free) (he : Effect o m m') (ht : t ∈ m.spaceIds)
    (ht' : t ∈ m'.spaceIds) (hne : o ≠ some t) (hv : v < 0xC0000000) :
    ({ m'.machine with cr3 := t } : Machine).translate v =
      ({ m.machine with cr3 := t } : Machine).translate v := by
  obtain ⟨U', K', free', h'⟩ := he.inv
  have hentry := he.entry t ht' ht hne _ (page_of hv).1
  apply Option.ext
  intro a
  rw [h'.translate_iff ht' hv, h.translate_iff ht hv]
  constructor
  · rintro ⟨q, hf, rfl⟩
    exact ⟨q, hf.congr hentry, rfl⟩
  · rintro ⟨q, hf, rfl⟩
    exact ⟨q, hf.congr hentry.symm, rfl⟩

/-- A step of others changes nothing that the task sees. -/
theorem Effect.userByte (h : m.Inv U K free) (he : Effect o m m') (ht : t ∈ m.spaceIds)
    (ht' : t ∈ m'.spaceIds) (hne : o ≠ some t) (hv : v < 0xC0000000) :
    userByte m'.machine t v = userByte m.machine t v := by
  rw [UserSystem.userByte, UserSystem.userByte, he.translate h ht ht' hne hv]
  cases hat : ({ m.machine with cr3 := t } : Machine).translate v with
  | none => rfl
  | some a =>
    obtain ⟨q, hf, rfl⟩ := (h.translate_iff ht hv).1 hat
    have hpage := (page_of hv).1
    have hmod : v % 4096 < 4096 := Nat.mod_lt _ (by decide)
    rcases he.mem q (h.frame_held ht hpage hf).1 (v % 4096)
      hmod with hsame | ⟨u, hu, hou, w, hw, hf'⟩
    · exact congrArg some hsame
    · obtain ⟨rfl, -⟩ := h.once t ht u hu _ w q hpage hw hf hf'
      exact absurd hou hne

end Inv

/-! ## Runs -/

def AnyStep (m m' : UserSystem) : Prop := ∃ o, Step o m m'

/-- A step that `t` does not take, and after which it goes on. -/
def StepBeside (t : Nat) (m m' : UserSystem) : Prop :=
  t ∈ m'.spaceIds ∧ ∃ o, o ≠ some t ∧ Step o m m'

/-- The state comes from the one that `init_page_allocator` leaves. -/
def FromBoot (m : UserSystem) : Prop :=
  ∃ s₀ s : Machine, s₀.Booted ∧ 0x100000 + s₀.ramAmount < 2 ^ 32 ∧
    s₀.buddyMemoryEndPhys + 2 ^ 19 ≤ 0x100000 + s₀.ramAmount ∧ s₀.initPageAllocator = .ok s ∧
    ReflTransGen AnyStep ⟨⟨s, [], [], []⟩, [], []⟩ m

section Runs

variable {m m' : UserSystem} {U K : List Block} {free : List Nat} {t u v w q : Nat}

theorem inv_of_init {s₀ s : Machine} (hb : s₀.Booted) (hram : 0x100000 + s₀.ramAmount < 2 ^ 32)
    (hfit : s₀.buddyMemoryEndPhys + 2 ^ 19 ≤ 0x100000 + s₀.ramAmount)
    (hs : s₀.initPageAllocator = .ok s) : ∃ K, Inv ⟨⟨s, [], [], []⟩, [], []⟩ [] K [] := by
  obtain ⟨K, hK⟩ := HmemSystem.inv_of_init hb hram hfit hs
  obtain ⟨K', hready⟩ := hb.ready_of_ok hs
  have hnobody (x : Nat) : x ∉ (⟨⟨s, [], [], []⟩, [], []⟩ : UserSystem).spaceIds := List.not_mem_nil
  refine ⟨K, hK, ⟨fun i hi => ?_, fun a ha b hb i t _ _ _ => ?_⟩, fun x hx => ?_, List.nodup_nil,
    fun t ht => absurd ht (hnobody t), fun t ht => absurd ht (hnobody t)⟩
  · have hzero := hready.empty i (Or.inl hi)
    dsimp only
    rw [hzero]
    rfl
  · have hfirst (q : Nat) (hq : q ∈ (System.mk s [] [] []).dirs) : q =
        pageNo s.firstPageDirectory := by
      rcases hq with hq | ⟨x, hx, -⟩
      · exact hq
      · cases hx
    rw [hfirst a ha, hfirst b hb]
  · cases hx

theorem Inv.run (h : m.Inv U K free) (hr : ReflTransGen AnyStep m m') :
    ∃ U K free, m'.Inv U K free := by
  induction hr with
  | refl => exact ⟨U, K, free, h⟩
  | tail _ hstep ih =>
    obtain ⟨U', K', free', ih⟩ := ih
    obtain ⟨o, hstep⟩ := hstep
    exact (ih.step hstep).inv

theorem FromBoot.inv (h : m.FromBoot) : ∃ U K free, m.Inv U K free := by
  obtain ⟨s₀, s, hb, hram, hfit, hs, hr⟩ := h
  obtain ⟨K, hK⟩ := inv_of_init hb hram hfit hs
  exact hK.run hr

theorem FromBoot.run (h : m.FromBoot) (hr : ReflTransGen AnyStep m m') : m'.FromBoot := by
  obtain ⟨s₀, s, hb, hram, hfit, hs, hr₀⟩ := h
  exact ⟨s₀, s, hb, hram, hfit, hs, hr₀.trans hr⟩

/-- A task that has its last page table runs as in `HmemSystem`. -/
theorem FromBoot.running (h : m.FromBoot) (ht : ∃ p, (m.machine.cr3, some p) ∈ m.system.tasks) :
    HmemSystem.Running ⟨m.system, m.held, []⟩ := by
  obtain ⟨s₀, s, hb, hram, hfit, hs, hr⟩ := h
  obtain ⟨K, hK⟩ := inv_of_init hb hram hfit hs
  refine ⟨⟨s₀, s, hb, hram, hfit, hs, ?_⟩, ht⟩
  clear ht
  induction hr with
  | refl => exact .refl
  | tail hbefore hstep ih =>
    obtain ⟨U', K', free', h'⟩ := hK.run hbefore
    obtain ⟨o, hstep⟩ := hstep
    exact ih.tail (h'.hmem_step hstep)

theorem Sole.run (hs : Sole m t v q) (h : m.Inv U K free) (hr : ReflTransGen AnyStep m m') :
    Sole m' t v q := by
  induction hr with
  | refl => exact hs
  | tail hbefore hstep ih =>
    obtain ⟨U', K', free', h'⟩ := h.run hbefore
    obtain ⟨o, hstep⟩ := hstep
    exact (h'.step hstep).sole ih

/-- A byte that a task has mapped in the user half is in no other address space and at no other
address, then or later, and it is not in kmem. -/
theorem mapped_once (hm : m.FromBoot) (hr : ReflTransGen AnyStep m m') (ht : t ∈ m.spaceIds)
    (hu : u ∈ m'.spaceIds) (hv : v < 0xC0000000) (hw : w < 0xC0000000) {a : Nat}
    (hva : ({ m.machine with cr3 := t } : Machine).translate v = some a)
    (hwa : ({ m'.machine with cr3 := u } : Machine).translate w = some a) :
    u = t ∧ w = v ∧ m'.machine.kmemPhysEnd ≤ a := by
  obtain ⟨U, K, free, h⟩ := hm.inv
  obtain ⟨U', K', free', h'⟩ := h.run hr
  obtain ⟨q, hf, rfl⟩ := (h.translate_iff ht hv).1 hva
  obtain ⟨r, hf', heq⟩ := (h'.translate_iff hu hw).1 hwa
  have hq := hf.1
  have hr' := hf'.1
  obtain rfl : q = r := by omega
  have hsole := (h.sole ht (page_of hv).1 hf).run h hr
  obtain ⟨rfl, hpage⟩ := hsole.2.2 u hu _ (page_of hw).1 hf'
  have hlo := (h'.aligned hsole.1).2.1
  have hle := h'.hmem.le
  dsimp only at hle
  rw [machine] at hlo ⊢
  exact ⟨rfl, by omega, by omega⟩

/-- What a task sees in the user half stays while others run. -/
theorem Inv.beside (h : m.Inv U K free) (ht : t ∈ m.spaceIds)
    (hr : ReflTransGen (StepBeside t) m m') : (∃ U K free, m'.Inv U K free) ∧ t ∈ m'.spaceIds ∧
      (∀ v, System.UserPage v →
        System.entry m'.machine (t / 4096) v = System.entry m.machine (t / 4096) v) ∧
      ∀ v < 0xC0000000, userByte m'.machine t v = userByte m.machine t v ∧
        ({ m'.machine with cr3 := t } : Machine).translate v =
          ({ m.machine with cr3 := t } : Machine).translate v := by
  induction hr with
  | refl => exact ⟨⟨U, K, free, h⟩, ht, fun _ _ => rfl, fun _ _ => ⟨rfl, rfl⟩⟩
  | tail _ hstep ih =>
    obtain ⟨⟨U', K', free', h'⟩, ht', hentry, hbyte⟩ := ih
    obtain ⟨hgoes, o, hne, hstep⟩ := hstep
    have he := h'.step hstep
    exact ⟨he.inv, hgoes, fun v hv => (he.entry t hgoes ht' hne v hv).trans (hentry v hv),
      fun v hv => ⟨(he.userByte h' ht' hgoes hne hv).trans (hbyte v hv).1,
        (he.translate h' ht' hgoes hne hv).trans (hbyte v hv).2⟩⟩

/-- While others run, a task keeps its mappings, their flags and its bytes. -/
theorem keeps_memory (hm : m.FromBoot) (ht : t ∈ m.spaceIds)
    (hr : ReflTransGen (StepBeside t) m m') :
    (∀ v, System.UserPage v →
      System.entry m'.machine (t / 4096) v = System.entry m.machine (t / 4096) v) ∧
    ∀ v < 0xC0000000, userByte m'.machine t v = userByte m.machine t v := by
  obtain ⟨U, K, free, h⟩ := hm.inv
  obtain ⟨-, -, hentry, hbyte⟩ := h.beside ht hr
  exact ⟨hentry, fun v hv => (hbyte v hv).1⟩

end Runs

end UserSystem

end TinyLittleOs.Scheduler
