import TinyLittleOs.Memory.Heaps

/-!
# Runs of hmem

The free pages of hmem form a list that is threaded through their first words. A client of
hmem holds pages, writes what it likes into them and frees them. `hmem_free_page` does not
terminate the list when it frees a page into an empty one, so the list is exact as long as
such pages start with a null word.
-/

namespace TinyLittleOs.Memory

open Lib Relation

/-- The machine, the allocated pages, and all pages that were ever freed. -/
structure Pages where
  machine : Machine
  held : List Nat
  freed : List Nat

namespace Pages

inductive Call where
  | alloc
  | free (addr : Nat)
  | write (mem : ByteMem)

/-- The memory `m'` differs from `m` inside the pages of `l` only. -/
def SameOutside (l : List Nat) (m m' : ByteMem) : Prop :=
  ∀ x, (∀ p ∈ l, x < p ∨ p + 4096 ≤ x) → m' x = m x

/-- One call that returns, or the owners writing into their pages. -/
inductive Step : Pages → Call → Pages → Prop
  | alloc {s s' : Machine} {p : Nat} {held freed : List Nat} :
      s.hmemAllocPage = .ok (p, s') → Step ⟨s, held, freed⟩ .alloc ⟨s', p :: held, freed⟩
  | free {s s' : Machine} {p : Nat} {u v freed : List Nat} :
      s.hmemFreePage p = .ok s' →
      Step ⟨s, u ++ p :: v, freed⟩ (.free p) ⟨s', u ++ v, p :: freed⟩
  | write {s : Machine} {mem : ByteMem} {held freed : List Nat} :
      SameOutside held s.mem mem → Step ⟨s, held, freed⟩ (.write mem) ⟨{ s with mem }, held, freed⟩

def Reachable (s : Machine) (P : Machine → Call → Prop) : Pages → Prop :=
  ReflTransGen (fun c c' => ∃ a, Step c a c' ∧ P c.machine a) ⟨s, [], []⟩

/-- A page that is freed while the free list is empty starts with a null word. -/
def Nulled (s : Machine) : Call → Prop
  | .free p => s.hmemPhysList = 0 → s.mem.load32 p = 0
  | _ => True

/-- What an allocation returns is not allocated, is page aligned, and was freed earlier or is the
next page below hmem. -/
def Sound (c : Pages) : Prop :=
  ∀ p s', c.machine.hmemAllocPage = .ok (p, s') →
    p ∉ c.held ∧ p % 4096 = 0 ∧ (p ∈ c.freed ∨ p + 4096 = c.machine.hmemPhysEnd)

/-! ## The mapping of a page -/

/-- The entry of the current page directory for the last 4 MiB. -/
def lastEntry (s : Machine) : Nat := s.mem.load32 (s.cr3 + 4 * 0x3FF)

/-- The page directory and the last page table of the current address space are two pages of
kmem. -/
structure Mapped (s : Machine) : Prop where
  dirLe : s.cr3 + 4096 ≤ s.kmemPhysEnd
  tableLe : alignPageDown (lastEntry s) + 4096 ≤ s.kmemPhysEnd
  apart : s.cr3 + 4096 ≤ alignPageDown (lastEntry s) ∨ alignPageDown (lastEntry s) + 4096 ≤ s.cr3
  endLt : s.kmemPhysEnd < 2 ^ 32

theorem fromKmem_toVirt_add {a i : Nat} (h : a + i < 2 ^ 32) : fromKmem (toVirt a + i) = a + i := by
  unfold fromKmem toVirt
  omega

theorem hmemFrame_eq {p : Nat} (hp : p % 4096 = 0) : Machine.hmemFrame p = p := by
  have hor : p ||| prwr = p + 3 := by
    have h := Nat.two_pow_add_eq_or_of_lt (i := 12) (b := 3) (by decide) (p / 4096)
    have hmul : 2 ^ 12 * (p / 4096) = p := by omega
    rw [hmul] at h
    exact h.symm
  rw [Machine.hmemFrame, hor, alignPageDown, Nat.shiftLeft_eq, Nat.shiftRight_eq_div_pow]
  omega

/-- Mapping a page writes one entry of the last page table. -/
theorem Mapped.hmemMap {s : Machine} (h : Mapped s) (addr : Nat) :
    Outcome (s.hmemMap addr) (fun s' => ∃ i v, i < 1024 ∧ s' = { s with
      hmemEnd := (s.hmemEnd + (2 ^ 32 - 4096)) % 2 ^ 32
      mem := s.mem.store32 (alignPageDown (lastEntry s) + 4 * i) v }) (fun _ => True) := by
  have hdir := h.dirLe
  have htable := h.tableLe
  have hend := h.endLt
  rw [Machine.hmemMap]
  refine .ite (fun _ => trivial) fun hlast => .ite (fun _ => trivial) fun _ => ?_
  have hlast := not_not.1 hlast
  have hidx : (((s.hmemEnd + (2 ^ 32 - 4096)) % 2 ^ 32) >>> 12 &&& 0x03FF) < 1024 :=
    Nat.lt_of_le_of_lt Nat.and_le_right (by decide)
  have hentry : s.load (toVirt s.cr3 + 4 * 0x3FF) = lastEntry s := by
    rw [Machine.load, fromKmem_toVirt_add (by omega), lastEntry]
  rw [hlast, hentry, Machine.store, Machine.tableOf, fromKmem_toVirt_add (by omega)]
  exact ⟨_, _, hidx, rfl⟩

/-- It does not depend on memory outside the directory's last entry. -/
theorem Mapped.congr {s s' : Machine} (h : Mapped s) (hcr3 : s'.cr3 = s.cr3)
    (hend : s'.kmemPhysEnd = s.kmemPhysEnd)
    (hm : ∀ x, s.cr3 ≤ x → x < s.cr3 + 4096 → s'.mem x = s.mem x) : Mapped s' := by
  have hentry : lastEntry s' = lastEntry s := by
    rw [lastEntry, hcr3]
    exact ByteMem.load32_congr fun x hx hx' => hm x (by omega) (by omega)
  refine ⟨?_, ?_, ?_, ?_⟩ <;> simp only [hentry, hcr3, hend]
  exacts [h.dirLe, h.tableLe, h.apart, h.endLt]

/-! ## The invariant -/

/-- `free` is the list of free pages. It and the allocated pages `held` are different pages of
hmem. -/
structure Inv (s : Machine) (held freed free : List Nat) : Prop where
  mapped : Mapped s
  le : s.kmemPhysEnd ≤ s.hmemPhysEnd
  aligned : s.hmemPhysEnd % 4096 = 0
  endLt : s.hmemPhysEnd < 2 ^ 32
  chain : s.mem.Chain s.hmemPhysList free
  nodup : (free ++ held).Nodup
  page : ∀ p ∈ free ++ held, p % 4096 = 0 ∧ s.hmemPhysEnd ≤ p ∧ p < 2 ^ 32
  freed : ∀ p ∈ free, p ∈ freed

section Inv

variable {s : Machine} {held freed free : List Nat} (h : Inv s held freed free)
include h

/-- Memory may change but for the page directory and the first words of free pages. -/
theorem Inv.congr {s' : Machine} (hcr3 : s'.cr3 = s.cr3) (hend : s'.kmemPhysEnd = s.kmemPhysEnd)
    (hhmem : s'.hmemPhysEnd = s.hmemPhysEnd) (hlist : s'.hmemPhysList = s.hmemPhysList)
    (hm : ∀ x, s.cr3 ≤ x → x < s.cr3 + 4096 → s'.mem x = s.mem x)
    (hfree : ∀ p ∈ free, s'.mem.load32 p = s.mem.load32 p) : Inv s' held freed free := by
  refine ⟨h.mapped.congr hcr3 hend hm, ?_, ?_, ?_, ?_, h.nodup, ?_, h.freed⟩ <;>
    simp only [hend, hhmem, hlist]
  exacts [h.le, h.aligned, h.endLt, h.chain.congr hfree, h.page]

/-- Mapping a page keeps the invariant. -/
theorem Inv.hmemMap (addr : Nat) :
    Outcome (s.hmemMap addr) (fun s' => Inv s' held freed free ∧ s.HmemStill s' ∧
      s'.hmemPhysList = s.hmemPhysList) (fun _ => True) := by
  have hle := h.le
  have hdir := h.mapped.dirLe
  have htable := h.mapped.tableLe
  have hapart := h.mapped.apart
  refine (h.mapped.hmemMap addr).mono ?_ fun _ h => h
  rintro _ ⟨i, v, hi, rfl⟩
  refine ⟨h.congr rfl rfl rfl rfl (fun x hx hx' => ?_) (fun p hp => ?_), ⟨_, _, _, rfl⟩, rfl⟩
  · exact ByteMem.store32_of_out (by omega)
  · have hp := (h.page p (List.mem_append_left held hp)).2.1
    exact ByteMem.load32_store32_of_apart (by omega)

/-- A page that is not free yet and next below hmem. -/
theorem Inv.alloc_of_nil {v : Nat} (hv : v + 4096 = s.hmemPhysEnd) (hlt : s.kmemPhysEnd < v)
    (hnil : s.hmemPhysList = 0) :
    Inv { s with hmemPhysEnd := v } (v :: held) freed [] ∧ v ∉ held ∧ v % 4096 = 0 := by
  have haligned := h.aligned
  have hendLt := h.endLt
  have hchain := h.chain
  rw [hnil] at hchain
  obtain rfl := hchain.eq_nil
  have hpage : ∀ p ∈ held, p % 4096 = 0 ∧ s.hmemPhysEnd ≤ p ∧ p < 2 ^ 32 := fun p hp =>
    h.page p (by simpa using hp)
  have hfresh : v ∉ held := fun hmem => by
    have := (hpage v hmem).2.1
    omega
  have hmod : v % 4096 = 0 := by omega
  refine ⟨⟨h.mapped.congr rfl rfl fun _ _ _ => rfl, Nat.le_of_lt hlt,
    hmod, by dsimp only; omega, hnil,
    List.nodup_cons.2 ⟨hfresh, h.nodup⟩, ?_, by simp⟩, hfresh, hmod⟩
  simp only [List.nil_append, List.forall_mem_cons]
  refine ⟨by omega, fun p hp => ?_⟩
  have := hpage p hp
  omega

/-- The first free page leaves the list. -/
theorem Inv.alloc_of_cons (hcons : s.hmemPhysList ≠ 0) :
    ∃ l, free = s.hmemPhysList :: l ∧
      Inv { s with hmemPhysList := s.mem.load32 s.hmemPhysList }
      (s.hmemPhysList :: held) freed l := by
  obtain ⟨l, hl, htail⟩ := h.chain.eq_cons hcons
  have hperm : (l ++ s.hmemPhysList :: held).Perm (free ++ held) := by
    rw [hl]
    exact List.perm_middle
  refine ⟨l, hl, h.mapped.congr rfl rfl fun _ _ _ => rfl, h.le, h.aligned, h.endLt, htail,
    hperm.nodup_iff.2 h.nodup, fun p hp => h.page p (hperm.mem_iff.1 hp), fun p hp => h.freed p ?_⟩
  rw [hl]
  exact List.mem_cons_of_mem _ hp

theorem Inv.hmemUnmap : Inv s.hmemUnmap held freed free := by
  rw [Machine.hmemUnmap]
  generalize (s.hmemEnd + 4096) % 2 ^ 32 = v
  exact h.congr rfl rfl rfl rfl (fun _ _ _ => rfl) fun _ _ => rfl

theorem Inv.list_lt : s.hmemPhysList < 2 ^ 32 := by
  have hchain := h.chain
  cases free with
  | nil =>
    rw [ByteMem.Chain] at hchain
    omega
  | cons p l =>
    rw [hchain.1]
    exact (h.page p (by simp)).2.2

theorem Inv.alloc :
    Outcome s.hmemAllocPage (fun r => (∃ free, Inv r.2 (r.1 :: held) freed free) ∧
      r.1 ∉ held ∧ r.1 % 4096 = 0 ∧ (r.1 ∈ freed ∨ r.1 + 4096 = s.hmemPhysEnd))
      (fun _ => True) := by
  have hle := h.le
  have hdir := h.mapped.dirLe
  have hend := h.endLt
  rw [Machine.hmemAllocPage]
  dsimp only
  generalize hv : (s.hmemPhysEnd + (2 ^ 32 - 4096)) % 2 ^ 32 = v
  have hprev : v + 4096 = s.hmemPhysEnd := by omega
  refine .ite (fun hnil => .ite (fun hlt => ?_) fun _ => trivial) fun hcons => ?_
  · obtain ⟨hinv, hfresh, hmod⟩ := h.alloc_of_nil hprev hlt hnil
    exact ⟨⟨[], hinv⟩, hfresh, hmod, .inr hprev⟩
  · obtain ⟨l, hl, -⟩ := h.alloc_of_cons hcons
    obtain ⟨hmod, -, -⟩ := h.page s.hmemPhysList (by simp [hl])
    have hnodup := h.nodup
    rw [hl, List.cons_append, List.nodup_cons] at hnodup
    refine (h.hmemMap s.hmemPhysList).bind ?_
    rintro s' ⟨h', -, hlist⟩
    obtain ⟨l', -, hinv⟩ := h'.alloc_of_cons (hlist ▸ hcons)
    rw [hmemFrame_eq hmod]
    rw [hlist] at hinv
    refine ⟨⟨l', hinv.hmemUnmap⟩, fun hmem => hnodup.1 (List.mem_append_right l hmem), hmod,
      .inl (h.freed _ ?_)⟩
    rw [hl]
    exact List.mem_cons_self

end Inv

/-- A page whose first word leads to the free list is freed. -/
theorem Inv.push {s : Machine} {u v freed free : List Nat} {p : Nat}
    (h : Inv s (u ++ p :: v) freed free) (hp : s.mem.load32 p = s.hmemPhysList) :
    Inv { s with hmemPhysList := p } (u ++ v) (p :: freed) (p :: free) := by
  have hperm : (p :: free ++ (u ++ v)).Perm (free ++ (u ++ p :: v)) := by
    rw [List.cons_append, ← List.append_assoc, ← List.append_assoc]
    exact List.perm_middle.symm
  have hpage := h.page p (by simp)
  have hle := h.le
  have hdir := h.mapped.dirLe
  refine ⟨h.mapped.congr rfl rfl fun _ _ _ => rfl, h.le, h.aligned, h.endLt, ⟨rfl, by omega, ?_⟩,
    hperm.nodup_iff.2 h.nodup, fun q hq => h.page q (hperm.mem_iff.1 hq), fun q hq => ?_⟩
  · dsimp only
    rw [hp]
    exact h.chain
  · rcases List.mem_cons.1 hq with rfl | hq
    exacts [List.mem_cons_self, List.mem_cons_of_mem p (h.freed q hq)]

theorem Inv.free {s : Machine} {u v freed free : List Nat} {p : Nat}
    (h : Inv s (u ++ p :: v) freed free) (hnull : s.hmemPhysList = 0 → s.mem.load32 p = 0) :
    Outcome (s.hmemFreePage p) (fun s' => ∃ free, Inv s' (u ++ v) (p :: freed) free)
      (fun _ => True) := by
  obtain ⟨hmod, hlo, hlt⟩ := h.page p (by simp)
  have hle := h.le
  have hdir := h.mapped.dirLe
  rw [Machine.hmemFreePage]
  refine .ite (fun _ => .ite (fun hnil => ?_) fun hcons => ?_) fun _ => trivial
  · exact ⟨_, h.push ((hnull hnil).trans hnil.symm)⟩
  · refine (h.hmemMap p).bind ?_
    rintro s' ⟨h', -, -⟩
    rw [hmemFrame_eq hmod]
    have hlo' := (h'.page p (by simp)).2.1
    have hle' := h'.le
    have hdir' := h'.mapped.dirLe
    have hstore : Inv { s' with mem := s'.mem.store32 p s'.hmemPhysList } (u ++ p :: v)
        freed free :=
      h'.congr rfl rfl rfl rfl (fun x _ _ => ByteMem.store32_of_out (by omega)) fun q hq => by
        have hq' := h'.page q (List.mem_append_left _ hq)
        have hne : q ≠ p := by
          rintro rfl
          exact (List.nodup_append.1 h'.nodup).2.2 q hq q (by simp) rfl
        exact ByteMem.load32_store32_of_apart (by omega)
    exact ⟨_, (hstore.push (ByteMem.load32_store32 h'.list_lt)).hmemUnmap⟩

theorem Inv.write {s : Machine} {held freed free : List Nat} (h : Inv s held freed free)
    {mem : ByteMem} (hm : SameOutside held s.mem mem) : Inv { s with mem } held freed free := by
  have hle := h.le
  have hdir := h.mapped.dirLe
  refine h.congr rfl rfl rfl rfl (fun x _ _ => hm x fun p hp => ?_) fun q hq =>
    ByteMem.load32_congr fun x _ _ => hm x fun p hp => ?_
  · have := (h.page p (List.mem_append_right free hp)).2.1
    omega
  · have hp' := h.page p (List.mem_append_right free hp)
    have hq' := h.page q (List.mem_append_left held hq)
    have hne : q ≠ p := by
      rintro rfl
      exact (List.nodup_append.1 h.nodup).2.2 q hq q hp rfl
    omega

/-! ## Runs -/

theorem Inv.step {c c' : Pages} {a : Call} {free : List Nat}
    (h : Inv c.machine c.held c.freed free) (hs : Step c a c') (hn : Nulled c.machine a) :
    ∃ free, Inv c'.machine c'.held c'.freed free := by
  cases hs with
  | alloc hs => exact (h.alloc.of_ok hs).1
  | free hs => exact (h.free hn).of_ok hs
  | write hm => exact ⟨free, h.write hm⟩

/-- hmem as initialization leaves it, in an address space with its last page table. -/
structure Started (s : Machine) : Prop where
  mapped : Mapped s
  le : s.kmemPhysEnd ≤ s.hmemPhysEnd
  aligned : s.hmemPhysEnd % 4096 = 0
  endLt : s.hmemPhysEnd < 2 ^ 32
  list : s.hmemPhysList = 0

/-- Initialization leaves such a state, whatever address space is entered after it. -/
theorem Started.of_init {s₀ s : Machine} (hb : s₀.Booted)
    (hram : 0x100000 + s₀.ramAmount < 2 ^ 32)
    (hfit : s₀.buddyMemoryEndPhys + 2 ^ 19 ≤ 0x100000 + s₀.ramAmount)
    (hs : s₀.initPageAllocator = .ok s) {mem : ByteMem} {cr3 hmemEnd : Nat}
    (hm : Mapped { s with mem, cr3, hmemEnd }) : Started { s with mem, cr3, hmemEnd } := by
  obtain ⟨K, hK⟩ := hb.initPageAllocator.of_ok hs
  have hend := hK.hmemPhysEnd
  rw [alignPageDown, Nat.mod_eq_of_lt hram, Nat.shiftLeft_eq, Nat.shiftRight_eq_div_pow] at hend
  refine ⟨hm, (Heaps.Parted.start hb hK hram hfit).le, ?_, ?_, hK.hmemPhysList⟩ <;>
    dsimp only <;> omega

/-- While pages that are freed into an empty list start with a null word, allocation is sound. -/
theorem hmem_sound {s : Machine} (hs : Started s) {c : Pages} (hr : Reachable s Nulled c) :
    Sound c := by
  have hinv : ∃ free, Inv c.machine c.held c.freed free := by
    induction hr with
    | refl => exact ⟨[], hs.mapped, hs.le, hs.aligned, hs.endLt, hs.list, by simp, by simp, by simp⟩
    | tail _ hstep ih =>
      obtain ⟨a, hstep, hn⟩ := hstep
      obtain ⟨free, h⟩ := ih
      exact h.step hstep hn
  obtain ⟨free, h⟩ := hinv
  exact fun p s' hp => (h.alloc.of_ok hp).2

/-- A machine whose directory is at 64 KiB and names a last page table at 68 KiB. -/
def small : Machine :=
  { Client.smallBoot with
    kmemPhysEnd := 0x1A8000
    hmemPhysEnd := 0x210000
    cr3 := 0x10000
    mem := ByteMem.store32 (fun _ => 0) (0x10000 + 4 * 0x3FF) (0x11000 ||| prwr) }

theorem small_started : Started small := by
  have hentry : alignPageDown (lastEntry small) = 0x11000 := by decide +kernel
  refine ⟨⟨by decide, ?_, ?_, by decide⟩, by decide, by decide, by decide, rfl⟩
  · rw [hentry]
    decide
  · rw [hentry]
    decide

/-! ### A run of the small machine -/

inductive Move where
  | alloc
  | free (p : Nat)
  | store (p i v : Nat)

/-- One call, or one word that the owner of a page writes. A page that is freed into the empty list
starts with a null word. -/
def move (c : Pages) : Move → Option Pages
  | .alloc => c.machine.hmemAllocPage.toOption.map fun r => ⟨r.2, r.1 :: c.held, c.freed⟩
  | .free p =>
    if p ∈ c.held ∧ (c.machine.hmemPhysList = 0 → c.machine.mem.load32 p = 0) then
      (c.machine.hmemFreePage p).toOption.map fun s => ⟨s, c.held.erase p, p :: c.freed⟩
    else none
  | .store p i v =>
    if p ∈ c.held ∧ i + 4 ≤ 4096 then
      some { c with machine := { c.machine with mem := c.machine.mem.store32 (p + i) v } }
    else none

theorem move_step {c c' : Pages} {a : Move} (h : move c a = some c') :
    ∃ b, Step c b c' ∧ Nulled c.machine b := by
  obtain ⟨s, held, freed⟩ := c
  cases a with
  | alloc =>
    obtain ⟨⟨p, s'⟩, hs, rfl⟩ := Option.map_eq_some_iff.1 h
    exact ⟨.alloc, .alloc (eq_ok_of_toOption hs), trivial⟩
  | free p =>
    dsimp only [move] at h
    split_ifs at h with hp
    obtain ⟨s', hs, rfl⟩ := Option.map_eq_some_iff.1 h
    obtain ⟨u, v, -, hheld, herase⟩ := List.exists_erase_eq hp.1
    rw [herase]
    subst hheld
    exact ⟨.free p, .free (eq_ok_of_toOption hs), hp.2⟩
  | store p i v =>
    dsimp only [move] at h
    split_ifs at h with hp
    obtain rfl := Option.some.inj h
    have hsame : SameOutside held s.mem (s.mem.store32 (p + i) v) := fun x hx =>
      ByteMem.store32_of_out (by have := hx p hp.1; omega)
    exact ⟨.write _, .write hsame, trivial⟩

theorem moves_reachable {s : Machine} {l : List Move} {c c' : Pages} (hc : Reachable s Nulled c)
    (h : l.foldlM move c = some c') : Reachable s Nulled c' := by
  induction l generalizing c with
  | nil =>
    obtain rfl := Option.some.inj h
    exact hc
  | cons a l ih =>
    rw [List.foldlM_cons] at h
    obtain ⟨c₁, hmove, h⟩ := Option.bind_eq_some_iff.1 h
    exact ih (hc.tail (move_step hmove)) h

/-- The machine `t` with the heaps and the memory of `s`. -/
def beside (t s : Machine) : Machine :=
  { t with
    kmemPhysEnd := s.kmemPhysEnd
    hmemPhysEnd := s.hmemPhysEnd
    hmemPhysList := s.hmemPhysList
    mem := s.mem
    cr3 := s.cr3
    hmemEnd := s.hmemEnd }

section Beside

variable (t : Machine) {s s' : Machine} {p : Nat}

theorem hmemMap_beside (h : s.hmemMap p = .ok s') : (beside t s).hmemMap p = .ok (beside t s') := by
  rw [Machine.hmemMap] at h ⊢
  dsimp only at h
  generalize hidx : (s.hmemEnd + (2 ^ 32 - 4096)) % 2 ^ 32 = v at h
  by_cases hlast : v >>> 22 ≠ 0x03FF
  · rw [if_pos hlast] at h
    cases h
  · rw [if_neg hlast] at h
    by_cases htable : s.load (toVirt s.cr3 + 4 * (v >>> 22)) &&& present = 0
    · rw [if_pos htable] at h
      cases h
    · rw [if_neg htable] at h
      obtain rfl := Except.ok.inj h
      have hidx' : ((beside t s).hmemEnd + (2 ^ 32 - 4096)) % 2 ^ 32 = v := hidx
      dsimp only
      rw [hidx', if_neg hlast]
      exact if_neg htable

theorem hmemAllocPage_beside (h : s.hmemAllocPage = .ok (p, s')) :
    (beside t s).hmemAllocPage = .ok (p, beside t s') := by
  rw [Machine.hmemAllocPage] at h ⊢
  dsimp only at h
  by_cases hlist : s.hmemPhysList = 0
  · rw [if_pos hlist] at h
    rw [if_pos (show (beside t s).hmemPhysList = 0 from hlist)]
    have hend : (beside t s).hmemPhysEnd = s.hmemPhysEnd := rfl
    dsimp only
    rw [hend]
    generalize (s.hmemPhysEnd + (2 ^ 32 - 4096)) % 2 ^ 32 = v at h ⊢
    split_ifs at h with hlt
    obtain ⟨rfl, rfl⟩ := Prod.mk.inj (Except.ok.inj h)
    exact if_pos hlt
  · rw [if_neg hlist] at h
    rw [if_neg (show ¬ (beside t s).hmemPhysList = 0 from hlist)]
    obtain ⟨s₁, hs₁, h⟩ := bind_eq_ok.1 h
    cases h
    dsimp only
    rw [show (beside t s).hmemPhysList = s.hmemPhysList from rfl, hmemMap_beside t hs₁, ok_bind]
    rfl

theorem hmemFreePage_beside (h : s.hmemFreePage p = .ok s') :
    (beside t s).hmemFreePage p = .ok (beside t s') := by
  rw [Machine.hmemFreePage] at h ⊢
  by_cases hend : s.hmemPhysEnd ≤ p
  · rw [if_pos hend] at h
    rw [if_pos (show (beside t s).hmemPhysEnd ≤ p from hend)]
    by_cases hlist : s.hmemPhysList = 0
    · rw [if_pos hlist] at h
      cases h
      exact if_pos hlist
    · rw [if_neg hlist] at h
      rw [if_neg (show ¬ (beside t s).hmemPhysList = 0 from hlist)]
      obtain ⟨s₁, hs₁, h⟩ := bind_eq_ok.1 h
      cases h
      rw [hmemMap_beside t hs₁, ok_bind]
      simp only [beside, Machine.hmemUnmap]
      rfl
  · rw [if_neg hend] at h
    cases h

end Beside

/-- hmem does not see the rest of the machine. -/
theorem reachable_beside (t : Machine) {s : Machine} {c : Pages} (h : Reachable s Nulled c) :
    Reachable (beside t s) Nulled ⟨beside t c.machine, c.held, c.freed⟩ := by
  refine ReflTransGen.lift (fun c : Pages => (⟨beside t c.machine, c.held, c.freed⟩ : Pages))
    (fun c c' hc => ?_) _ _ h
  obtain ⟨a, hs, hn⟩ := hc
  refine ⟨a, ?_, ?_⟩
  · cases hs with
    | alloc hs => exact .alloc (hmemAllocPage_beside t hs)
    | free hs => exact .free (hmemFreePage_beside t hs)
    | write hm => exact .write hm
  · cases a with
    | free p => exact hn
    | alloc | write mem => trivial

/-- Two pages are taken, written and freed, the second of them taken and written again, and then the
first. -/
theorem hmem_sound_small : ∃ s c, Client.smallBoot.initPageAllocator = .ok s ∧
    Reachable { s with mem := small.mem, cr3 := small.cr3, hmemEnd := small.hmemEnd } Nulled c ∧
    (c.held = [0x20F000, 0x20E000] ∧ c.freed = [0x20E000, 0x20F000]) ∧ Sound c := by
  obtain ⟨s, hs, ht, hlist⟩ := Client.bootWith_init (show Client.SmallRam 0x110000 from .inl rfl)
  have hpos : Client.smallKmem.buddyArrayPos = 1 := by decide +kernel
  have hend : s.kmemPhysEnd = small.kmemPhysEnd := by rw [ht.physEnd, hpos]; rfl
  have hsame : beside s small =
      { s with mem := small.mem, cr3 := small.cr3, hmemEnd := small.hmemEnd } := by
    rw [beside, ← hend, show small.hmemPhysEnd = s.hmemPhysEnd from ht.hmemPhysEnd.symm,
      show small.hmemPhysList = s.hmemPhysList from hlist.symm]
  obtain ⟨c, hrun, hpages⟩ := (Option.any_eq_true _ _).1
    (show (([.alloc, .alloc, .store 0x20F000 4 0x20E000, .free 0x20F000, .store 0x20E000 0 1,
      .free 0x20E000, .alloc, .store 0x20E000 0 0x20E000, .alloc] : List Move).foldlM move
      ⟨small, [], []⟩).any
      (fun c => c.held = [0x20F000, 0x20E000] ∧ c.freed = [0x20E000, 0x20F000]) =
        true by decide +kernel)
  have hreach := reachable_beside s (moves_reachable .refl hrun)
  rw [hsame] at hreach
  have hstarted : Started { s with mem := small.mem, cr3 := small.cr3, hmemEnd := small.hmemEnd } :=
    .of_init Client.smallBoot_booted (by decide) Heaps.smallBoot_fits hs
      (small_started.mapped.congr rfl hend fun _ _ _ => rfl)
  exact ⟨s, _, hs, hreach, of_decide_eq_true hpages, hmem_sound hstarted hreach⟩

/-- The owner of the first page leaves the page's own address in it, and frees it into the
empty list. -/
def smallRun : Except Fault (Nat × Nat × Nat) := do
  let (p, s) ← small.hmemAllocPage
  let s ← { s with mem := s.mem.store32 p p }.hmemFreePage p
  let (p₁, s) ← s.hmemAllocPage
  let (p₂, _) ← s.hmemAllocPage
  return (p, p₁, p₂)

theorem smallRun_eq : smallRun = .ok (0x20F000, 0x20F000, 0x20F000) :=
  eq_ok_of_toOption (by decide +kernel)

/-- That page is then allocated twice. -/
theorem hmem_not_sound : ¬ ∀ s : Machine, Started s → ∀ c, Reachable s (fun _ _ => True) c →
    Sound c := by
  intro h
  obtain ⟨⟨p, s₁⟩, h₁, hrun⟩ := bind_eq_ok.1 smallRun_eq
  obtain ⟨s₂, h₂, hrun⟩ := bind_eq_ok.1 hrun
  obtain ⟨⟨p₁, s₃⟩, h₃, hrun⟩ := bind_eq_ok.1 hrun
  obtain ⟨⟨p₂, s₄⟩, h₄, hrun⟩ := bind_eq_ok.1 hrun
  have hw : SameOutside [p] s₁.mem (s₁.mem.store32 p p) := fun x hx =>
    ByteMem.store32_of_out (by have := hx p (by simp); omega)
  have hreach : Reachable small (fun _ _ => True) ⟨s₃, [p₁], [p]⟩ :=
    (((ReflTransGen.refl.tail ⟨_, .alloc h₁, trivial⟩).tail ⟨_, .write hw, trivial⟩).tail
      ⟨_, .free (u := []) h₂, trivial⟩).tail ⟨_, .alloc h₃, trivial⟩
  have heq := Except.ok.inj hrun
  simp only [Prod.mk.injEq] at heq
  obtain ⟨hnot, -⟩ := h small small_started _ hreach p₂ s₄ h₄
  simp [heq.2.1, heq.2.2] at hnot

end Pages

end TinyLittleOs.Memory
