import TinyLittleOs.Memory.KmemRuns

/-!
# The two heaps

kmem grows upwards from the kernel and hmem downwards from the end of RAM. What an operation
does to `kmem_phys_end` and `hmem_phys_end` does not depend on the lists and bitmaps: a buddy is
only created where kmem ends, because `kmem_buddy_new` asserts it, so an allocation grows kmem
at most once.
-/

namespace TinyLittleOs.Memory

open Lib Relation

namespace Machine

/-! ## Operations that move no heap -/

/-- Between `s` and `s'` no buddy was created and no global changed. -/
structure Still (s s' : Machine) : Prop where
  globals : s' = { s with kmem := s'.kmem, mem := s'.mem }
  array : s'.kmem.buddyArray = s.kmem.buddyArray
  size : s'.kmem.buddyArraySize = s.kmem.buddyArraySize
  pos : s'.kmem.buddyArrayPos = s.kmem.buddyArrayPos

theorem Still.refl (s : Machine) : Still s s := ⟨rfl, rfl, rfl, rfl⟩

theorem Still.trans {s s' s'' : Machine} (h : Still s s') (h' : Still s' s'') : Still s s'' := by
  refine ⟨?_, h'.array.trans h.array, h'.size.trans h.size, h'.pos.trans h.pos⟩
  rw [h'.globals, h.globals]

theorem Still.store (s : Machine) (a v : Nat) : Still s (s.store a v) := by
  refine ⟨?_, ?_, ?_, ?_⟩ <;> rw [Machine.store]

theorem Still.memset (s : Machine) (a : Nat) (v : BitVec 8) (n : Nat) :
    Still s (s.memset a v n) := by
  refine ⟨?_, ?_, ?_, ?_⟩ <;> rw [Machine.memset]

theorem Still.take (s : Machine) (b : Nat) {n : BlockSize} {i : Nat} (hi : i < n.count) :
    Still s (s.take n b i) := by
  have hs := s.kmem.allocAt_clears b hi
  refine ⟨?_, ?_, ?_, ?_⟩
  · rw [Machine.take, Machine.memset]
  all_goals rw [take_kmem]
  exacts [hs.array, hs.size, hs.pos]

/-- With a buddy in the list the allocation moves no heap, and with none it does nothing. -/
theorem buddyAlloc_still (s : Machine) (n : BlockSize) :
    Outcome (s.buddyAlloc n)
      (fun r => Still s r.2 ∧ (r.1 = none ↔ (s.kmem.links n).next none = none)) (fun _ =>
        True) := by
  cases hb : (s.kmem.links n).next none with
  | none =>
    rw [buddyAlloc_of_null hb]
    exact ⟨.refl s, by simp⟩
  | some b =>
    cases hi : s.kmem.findFree n b with
    | ok i =>
      rw [buddyAlloc_of_head hb hi]
      exact ⟨.take s b (Kmem.bit_lt (Kmem.findFree_eq_ok hi).1), by simp⟩
    | error e =>
      rw [buddyAlloc, hb]
      dsimp only
      rw [Kmem.alloc, hi]
      trivial

/-- The masks of `kmem_free_N` give an index inside the buddy. -/
theorem kmemFree_still (s : Machine) (n : BlockSize) (ptr : Nat) :
    Outcome (s.kmemFree n ptr) (Still s) (fun _ => True) := by
  rw [kmemFree]
  dsimp only
  split
  · trivial
  · rename_i hmask
    generalize (ptr + (2 ^ 32 - s.kmem.buddyArray) + (2 ^ 32 - s.kmem.buddyArraySize)) %
      2 ^ 32 = rel
    have hi : (rel &&& 0x7FFFF) >>> n.shift < n.count := by
      rw [Nat.and_two_pow_sub_one_eq_mod _ 19, Nat.shiftRight_eq_div_pow]
      cases n <;> simp only [BlockSize.shift, BlockSize.count] <;> omega
    have hs := s.kmem.free_sets (rel >>> 19) hi
    exact ⟨rfl, hs.array, hs.size, hs.pos⟩

section MapPage

variable {alloc4k : Machine → Except Fault (Nat × Machine)} {s : Machine}
  (ha : ∀ t, Still s t → Outcome (alloc4k t) (fun r => Still t r.2) (fun _ => True))
include ha

theorem mapPage_still (virt pdeFlags pte pd : Nat) :
    Outcome (s.mapPage alloc4k virt pdeFlags pte pd) (Still s) (fun _ => True) := by
  rw [mapPage]
  dsimp only
  refine .ite (fun _ => trivial) fun _ => .ite (fun _ => .store s _ _) fun _ => ?_
  refine (ha s (.refl s)).bind ?_
  rintro ⟨p, s₁⟩ h₁
  refine .ite (fun _ => (kmemFree_still s₁ .k4 p).bind fun s₂ h₂ => ?_) fun _ => ?_
  · exact (Still.trans h₁ h₂).trans (.store _ _ _)
  · exact ((Still.trans h₁ (.memset _ _ _ _)).trans (.store _ _ _)).trans (.store _ _ _)

theorem mapRange_still {l : List Nat} {pdeFlags : Nat} {pte : Nat → Nat} :
    Outcome (l.foldlM (fun s a => s.mapPage alloc4k a pdeFlags (pte a) s.firstPageDirectory) s)
      (Still s) (fun _ => True) := by
  refine Outcome.foldlM (fun t a _ ht => ?_) (.refl s)
  exact (mapPage_still (fun t' ht' => ha t' (ht.trans ht')) _ _ _ _).mono (fun _ h => ht.trans h)
    fun _ h => h

end MapPage

/-! ## Growth -/

/-- `kmem_phys_end` is the end of the last buddy. -/
def AtEnd (s : Machine) : Prop := toVirt s.kmemPhysEnd = s.kmem.myFirstPage s.kmem.buddyArrayPos

/-- Between `s` and `s'` one buddy was created, where kmem ended. -/
structure Grown (s s' : Machine) : Prop where
  globals : s' = { s with
    kmem := s'.kmem
    mem := s'.mem
    kmemPhysEnd := (s.kmemPhysEnd + 2 ^ 19) % 2 ^ 32 }
  array : s'.kmem.buddyArray = s.kmem.buddyArray
  size : s'.kmem.buddyArraySize = s.kmem.buddyArraySize
  pos : s'.kmem.buddyArrayPos = s.kmem.buddyArrayPos + 1
  atEnd : s.AtEnd

theorem Grown.trans {s s' s'' : Machine} (h : Grown s s') (h' : Still s' s'') : Grown s s'' := by
  refine ⟨?_, h'.array.trans h.array, h'.size.trans h.size, h'.pos.trans h.pos, h.atEnd⟩
  rw [h'.globals, h.globals]

theorem AtEnd.still {s s' : Machine} (h : s.AtEnd) (hs : Still s s') : s'.AtEnd := by
  unfold AtEnd Kmem.myFirstPage at *
  rw [hs.array, hs.size, hs.pos, hs.globals]
  exact h

theorem AtEnd.grown {s s' : Machine} (h : Grown s s') : s'.AtEnd := by
  have hend := h.atEnd
  unfold AtEnd Kmem.myFirstPage toVirt at *
  rw [h.array, h.size, h.pos, h.globals]
  dsimp only
  rw [Nat.shiftLeft_eq] at *
  omega

/-- Once a buddy is created, kmem ends at its first page and not after it. -/
theorem AtEnd.not_withNewBuddy {s s' : Machine} (h : s.AtEnd) (hs : Still s.withNewBuddy s') :
    ¬ s'.AtEnd := by
  have harray : s'.kmem.buddyArray = s.kmem.buddyArray := hs.array
  have hsize : s'.kmem.buddyArraySize = s.kmem.buddyArraySize := hs.size
  have hpos : s'.kmem.buddyArrayPos = s.kmem.buddyArrayPos + 1 := hs.pos
  have hend : s'.kmemPhysEnd = s.kmemPhysEnd := by rw [hs.globals, withNewBuddy]
  unfold AtEnd Kmem.myFirstPage at *
  rw [harray, hsize, hpos, hend, h, Nat.shiftLeft_eq, Nat.shiftLeft_eq]
  omega

/-- `kmem_buddy_new`, if the allocations for page tables create no buddy. -/
theorem kmemBuddyNew_grown {alloc4k : Machine → Except Fault (Nat × Machine)} {s : Machine}
    (ha : ∀ t, Still s.withNewBuddy t →
      Outcome (alloc4k t) (fun r => Still t r.2) (fun _ => True)) :
    Outcome (s.kmemBuddyNew alloc4k) (Grown s) (fun _ => True) := by
  by_cases hnew : s.kmem.buddyArrayPos * 64 % 2 ^ 32 < s.kmem.buddyArraySize
  · have hok : s.kmemBuddyNewNoAlloc = .ok s.withNewBuddy := if_pos hnew
    rw [Machine.kmemBuddyNew, hok, ok_bind]
    dsimp only
    refine (mapRange_still ha).bind fun t ht => ?_
    have hend : t.kmemPhysEnd = s.kmemPhysEnd := by rw [ht.globals, withNewBuddy]
    have hglob : t = { s with kmem := t.kmem, mem := t.mem } := ht.globals
    have h19 : 1 <<< 19 = 2 ^ 19 := rfl
    rw [hend, h19]
    refine .ite (fun _ => trivial) fun hstart => .ite (fun _ => ?_) fun _ => trivial
    refine ⟨?_, ht.array, ht.size, ht.pos, not_not.1 hstart⟩
    exact congrArg (fun m : Machine =>
      { m with kmemPhysEnd := (s.kmemPhysEnd + 2 ^ 19) % 2 ^ 32 }) hglob
  · have herr : s.kmemBuddyNewNoAlloc = .error .buddyArrayFull := if_neg hnew
    rw [Machine.kmemBuddyNew, herr]
    trivial

/-- What an allocation does to the heaps, if the allocations for page tables move none. -/
structure Moves (s : Machine) (n : BlockSize) (s' : Machine) : Prop where
  grown : (s.kmem.links n).next none = none → Grown s s'
  still : (s.kmem.links n).next none ≠ none → Still s s'

theorem kmemAllocFuel_moves (fuel : Nat) {s : Machine} (n : BlockSize)
    (ha : ∀ t, Still s.withNewBuddy t →
      Outcome (kmemAllocFuel fuel .k4 t) (fun r => Still t r.2) (fun _ => True)) :
    Outcome (kmemAllocFuel (fuel + 1) n s) (fun r => Moves s n r.2) (fun _ => True) := by
  rw [kmemAllocFuel]
  cases hb : (s.kmem.links n).next none with
  | none =>
    rw [buddyAlloc_of_null hb, ok_bind]
    dsimp only
    refine (kmemBuddyNew_grown ha).bind fun s₁ h₁ => (buddyAlloc_still s₁ n).bind ?_
    rintro ⟨_ | p, s₂⟩ ⟨h₂, -⟩
    · trivial
    · exact ⟨fun _ => h₁.trans h₂, fun h => absurd hb h⟩
  | some b =>
    refine (buddyAlloc_still s n).bind ?_
    rintro ⟨_ | p, s₁⟩ ⟨h₁, hnone⟩
    · have hnull := hnone.1 rfl
      simp [hb] at hnull
    · exact ⟨fun h => by simp [hb] at h, fun _ => h₁⟩

/-- An allocation in the middle of `kmem_buddy_new` creates no second buddy. -/
theorem kmemAllocFuel_still {s : Machine} (h : ¬ s.AtEnd) (n : BlockSize) :
    Outcome (kmemAllocFuel 1 n s) (fun r => Still s r.2) (fun _ => True) := by
  refine (kmemAllocFuel_moves 0 n fun _ _ => trivial).mono (fun r hr => hr.still fun hn => ?_)
    fun _ h => h
  exact h (hr.grown hn).atEnd

theorem AtEnd.kmemAlloc {s : Machine} (h : s.AtEnd) (n : BlockSize) :
    Outcome (s.kmemAlloc n) (fun r => Moves s n r.2) (fun _ => True) :=
  kmemAllocFuel_moves 1 n fun _ ht => kmemAllocFuel_still (h.not_withNewBuddy ht) .k4

/-! ## hmem -/

/-- Only memory, the free list and the end of the mappings may differ. -/
def HmemStill (s s' : Machine) : Prop :=
  ∃ hmemPhysList mem hmemEnd, s' = { s with hmemPhysList, mem, hmemEnd }

theorem HmemStill.trans {s s' s'' : Machine} (h : HmemStill s s') (h' : HmemStill s' s'') :
    HmemStill s s'' := by
  obtain ⟨_, _, _, rfl⟩ := h
  obtain ⟨_, _, _, rfl⟩ := h'
  exact ⟨_, _, _, rfl⟩

theorem hmemUnmap_still (s : Machine) : HmemStill s s.hmemUnmap := ⟨_, _, _, rfl⟩

theorem hmemMap_still (s : Machine) (addr : Nat) :
    Outcome (s.hmemMap addr) (HmemStill s) (fun _ => True) := by
  rw [hmemMap]
  refine .ite (fun _ => trivial) fun _ => .ite (fun _ => trivial) fun _ => ?_
  rw [store]
  exact ⟨_, _, _, rfl⟩

/-- hmem grows only where it stays above kmem. -/
theorem hmemAllocPage_moves (s : Machine) :
    Outcome s.hmemAllocPage (fun r => HmemStill s r.2 ∨
      s.kmemPhysEnd < r.2.hmemPhysEnd ∧ r.2 = { s with hmemPhysEnd := r.2.hmemPhysEnd })
      (fun _ => True) := by
  rw [hmemAllocPage]
  dsimp only
  generalize (s.hmemPhysEnd + (2 ^ 32 - 4096)) % 2 ^ 32 = v
  refine .ite (fun _ => ?_) fun _ => ?_
  · exact .ite (fun hlt => .inr ⟨hlt, rfl⟩) fun _ => trivial
  · refine (hmemMap_still s _).bind fun s' h => .inl (h.trans ?_)
    exact HmemStill.trans ⟨_, _, _, rfl⟩ (hmemUnmap_still _)

theorem hmemFreePage_still (s : Machine) (addr : Nat) :
    Outcome (s.hmemFreePage addr) (HmemStill s) (fun _ => True) := by
  rw [hmemFreePage]
  refine .ite (fun _ => .ite (fun _ => ⟨_, _, _, rfl⟩) fun _ => ?_) fun _ => trivial
  refine (hmemMap_still s addr).bind fun s' h => h.trans ?_
  exact HmemStill.trans ⟨_, _, _, rfl⟩ (hmemUnmap_still _)

end Machine

/-! ## Runs of both heaps -/

namespace Heaps

inductive Call where
  | kmemAlloc (n : BlockSize)
  | kmemFree (n : BlockSize) (ptr : Nat)
  | hmemAlloc
  | hmemFree (addr : Nat)
  /-- The rest of the system: it writes memory and switches tasks. -/
  | other

/-- One call that returns. -/
inductive Step : Machine → Call → Machine → Prop
  | kmemAlloc {s s' : Machine} {n : BlockSize} {p : Nat} :
      s.kmemAlloc n = .ok (p, s') → Step s (.kmemAlloc n) s'
  | kmemFree {s s' : Machine} {n : BlockSize} {ptr : Nat} :
      s.kmemFree n ptr = .ok s' → Step s (.kmemFree n ptr) s'
  | hmemAlloc {s s' : Machine} {addr : Nat} :
      s.hmemAllocPage = .ok (addr, s') → Step s .hmemAlloc s'
  | hmemFree {s s' : Machine} {addr : Nat} :
      s.hmemFreePage addr = .ok s' → Step s (.hmemFree addr) s'
  | other {s : Machine} {mem : ByteMem} {cr3 hmemEnd : Nat} :
      Step s .other { s with mem, cr3, hmemEnd }

/-- Runs from the state `s`, all of whose calls meet `P`. -/
def Reachable (s : Machine) (P : Machine → Call → Prop) : Machine → Prop :=
  ReflTransGen (fun s s' => ∃ a, Step s a s' ∧ P s a) s

/-- An allocation that has to create a buddy finds the room for it below hmem. -/
def Roomy (s : Machine) : Call → Prop
  | .kmemAlloc n => (s.kmem.links n).next none = none → s.kmemPhysEnd + 2 ^ 19 ≤ s.hmemPhysEnd
  | _ => True

/-- kmem ends at its last buddy, and below hmem. -/
structure Parted (s : Machine) : Prop where
  atEnd : s.AtEnd
  le : s.kmemPhysEnd ≤ s.hmemPhysEnd

theorem Parted.congr {s s' : Machine} (h : Parted s) (hk : s'.kmem = s.kmem)
    (hend : s'.kmemPhysEnd = s.kmemPhysEnd) (hle : s'.kmemPhysEnd ≤ s'.hmemPhysEnd) :
    Parted s' := by
  refine ⟨?_, hle⟩
  unfold Machine.AtEnd
  rw [hk, hend]
  exact h.atEnd

theorem Parted.hmemStill {s s' : Machine} (h : Parted s) (hs : s.HmemStill s') : Parted s' := by
  obtain ⟨_, _, _, rfl⟩ := hs
  exact h.congr rfl rfl h.le

theorem Parted.still {s s' : Machine} (h : Parted s) (hs : s.Still s') : Parted s' := by
  refine ⟨h.atEnd.still hs, ?_⟩
  rw [hs.globals]
  exact h.le

theorem Parted.step {s s' : Machine} {a : Call} (h : Parted s) (hs : Step s a s')
    (hr : Roomy s a) : Parted s' := by
  cases hs with
  | @kmemAlloc _ n _ hs =>
    obtain ⟨hgrown, hstill⟩ := (h.atEnd.kmemAlloc n).of_ok hs
    by_cases hn : (s.kmem.links n).next none = none
    · have hg : s.Grown s' := hgrown hn
      refine ⟨.grown hg, ?_⟩
      rw [hg.globals]
      exact (Nat.mod_le _ _).trans (hr hn)
    · exact h.still (hstill hn)
  | kmemFree hs => exact h.still ((s.kmemFree_still _ _).of_ok hs)
  | hmemAlloc hs =>
    rcases s.hmemAllocPage_moves.of_ok hs with hs | ⟨hlt, hs⟩
    · exact h.hmemStill hs
    · dsimp only at hs
      refine h.congr ?_ ?_ ?_ <;> rw [hs]
      exact Nat.le_of_lt hlt
  | hmemFree hs => exact h.hmemStill ((s.hmemFreePage_still _).of_ok hs)
  | other => exact h.congr rfl rfl h.le

theorem Parted.run {s s' : Machine} (h : Parted s) (hr : Reachable s Roomy s') : Parted s' := by
  induction hr with
  | refl => exact h
  | tail _ hstep ih =>
    obtain ⟨a, hs, hr⟩ := hstep
    exact ih.step hs hr

/-- Initialization may create a second buddy, but only on machines with much more memory. -/
theorem Parted.start {s₀ s : Machine} {K : List Block} (hb : s₀.Booted) (h : s₀.Started s K)
    (hram : 0x100000 + s₀.ramAmount < 2 ^ 32)
    (hfit : s₀.buddyMemoryEndPhys + 2 ^ 19 ≤ 0x100000 + s₀.ramAmount) : Parted s := by
  obtain ⟨-, halign, -, hle⟩ := hb.base
  have hend := h.inv.physEnd
  have hbase := h.base
  have hphys := h.inv.physLe
  constructor
  · have htop := h.inv.top
    unfold Machine.AtEnd Kmem.myFirstPage toVirt
    rw [Nat.shiftLeft_eq]
    unfold Kmem.base at hend
    rw [hend]
  · rw [h.hmemPhysEnd, alignPageDown, Nat.mod_eq_of_lt hram, Nat.shiftLeft_eq,
      Nat.shiftRight_eq_div_pow]
    rcases h.pos with hpos | ⟨hpos, hram'⟩ <;> rw [hpos, hbase] at hend <;> omega

/-- While every buddy finds its room below hmem, the heaps share no page. -/
theorem heaps_parted {s₀ s s' : Machine} (hb : s₀.Booted)
    (hram : 0x100000 + s₀.ramAmount < 2 ^ 32)
    (hfit : s₀.buddyMemoryEndPhys + 2 ^ 19 ≤ 0x100000 + s₀.ramAmount)
    (hs : s₀.initPageAllocator = .ok s) (hr : Reachable s Roomy s') :
    s'.kmemPhysEnd ≤ s'.hmemPhysEnd := by
  obtain ⟨K, hK⟩ := hb.initPageAllocator.of_ok hs
  exact ((Parted.start hb hK hram hfit).run hr).le

theorem smallBoot_fits : Client.smallBoot.buddyMemoryEndPhys + 2 ^ 19 ≤
    0x100000 + Client.smallBoot.ramAmount := by decide +kernel

def Call.ofClient : Client.Call → Call
  | .alloc n => .kmemAlloc n
  | .free n ptr => .kmemFree n ptr

/-- A run of kmem is a run of both heaps. -/
theorem reachable_of_client {s : Machine} {P : Machine → Client.Call → Prop}
    {Q : Machine → Call → Prop}
    (hPQ : ∀ s a, P s a → Q s (.ofClient a)) {c : Client} (h : Client.Reachable s P c) :
    Reachable s Q c.machine := by
  refine ReflTransGen.lift Client.machine (fun c c' hc => ?_) _ _ h
  obtain ⟨a, hs, hP⟩ := hc
  refine ⟨.ofClient a, ?_, hPQ _ _ hP⟩
  cases hs with
  | alloc hs => exact .kmemAlloc hs
  | free hs => exact .kmemFree hs

/-- The next page below hmem. -/
theorem hmemAllocPage_next {s : Machine} {v : Nat} (hlist : s.hmemPhysList = 0)
    (hlt : s.kmemPhysEnd < v)
    (hv : (s.hmemPhysEnd + (2 ^ 32 - 4096)) % 2 ^ 32 = v) :
    s.hmemAllocPage = .ok (v, { s with hmemPhysEnd := v }) := by
  rw [Machine.hmemAllocPage, if_pos hlist]
  dsimp only
  rw [hv, if_pos hlt]
  rfl

/-- kmem does not see hmem. -/
theorem traces_hmem {ram hmem v list : Nat} {s : Machine} {k : Kmem}
    (h : Client.Traces ram hmem s k) :
    Client.Traces ram v { s with hmemPhysEnd := v, hmemPhysList := list } k :=
  ⟨h.kmem, h.layout.congr h.layout.toPlaced rfl rfl, h.table, h.base, h.size, h.physEnd,
    h.region, rfl,
    h.dir⟩

set_option maxRecDepth 10000 in
/-- Two pages of hmem are taken and one is freed, then kmem grows by a second buddy below them. -/
theorem heaps_parted_small : ∃ s s', (Client.bootWith 0x200000).initPageAllocator = .ok s ∧
    Reachable s Roomy s' ∧ (s'.kmem.buddyArrayPos = 2 ∧ s'.hmemPhysEnd = 0x2FE000) ∧
    s'.kmemPhysEnd ≤ s'.hmemPhysEnd := by
  obtain ⟨s, hs, ht, hlist⟩ := Client.bootWith_init (show Client.SmallRam 0x200000 from .inr rfl)
  have hpos : Client.smallKmem.buddyArrayPos = 1 := by decide +kernel
  have hend := ht.physEnd
  rw [hpos] at hend
  have hhmem := ht.hmemPhysEnd
  have hfirst : s.hmemAllocPage = .ok (0x2FF000, { s with hmemPhysEnd := 0x2FF000 }) :=
    hmemAllocPage_next hlist (by omega) (by omega)
  have hsecond := hmemAllocPage_next (s := { s with hmemPhysEnd := 0x2FF000 }) (v := 0x2FE000) hlist
    (show s.kmemPhysEnd < 0x2FE000 by omega)
    (show (0x2FF000 + (2 ^ 32 - 4096)) % 2 ^ 32 = 0x2FE000 by decide)
  have hfree : ({ s with hmemPhysEnd := 0x2FE000 } : Machine).hmemFreePage 0x2FF000 =
      .ok { s with hmemPhysEnd := 0x2FE000, hmemPhysList := 0x2FF000 } := by
    rw [Machine.hmemFreePage, if_pos (show 0x2FE000 ≤ 0x2FF000 by decide), if_pos hlist]
    rfl
  have hpages : Reachable s Roomy { s with hmemPhysEnd := 0x2FE000, hmemPhysList := 0x2FF000 } :=
    ((ReflTransGen.single ⟨_, .hmemAlloc hfirst, trivial⟩).tail
      ⟨_, .hmemAlloc hsecond, trivial⟩).tail
      ⟨_, .hmemFree hfree, trivial⟩
  obtain ⟨⟨k, held⟩, htrace, htwo⟩ := (Option.any_eq_true _ _).1
    (show (Client.trace (fun k _ => decide (k.buddyArrayPos ≤ 2)) ([.alloc .k4] ++
      List.replicate 16 (.alloc .k32) ++ [.free .k32 0xC0130000, .alloc .k16, .alloc .k8,
      .free .k4 0xC0129000]) (Client.smallKmem, [])).any (fun c => c.1.buddyArrayPos = 2) = true by
        decide +kernel)
  have hroom : ∀ s k (a : Client.Call), Client.Traces 0x200000 0x2FE000 s k →
      decide (k.buddyArrayPos ≤ 2) = true → s.kmemPhysEnd + 2 ^ 19 ≤ s.hmemPhysEnd := by
    intro s k a ht hk
    have hend := ht.physEnd
    have hhmem := ht.hmemPhysEnd
    have hk := of_decide_eq_true hk
    omega
  have hroomy : ∀ s (a : Client.Call), s.kmemPhysEnd + 2 ^ 19 ≤ s.hmemPhysEnd →
      Roomy s (.ofClient a) := by
    intro s a h
    cases a with
    | alloc n => exact fun _ => h
    | free n ptr => trivial
  obtain ⟨s', hrun, ht'⟩ := (traces_hmem ht).run (by decide)
    (P := fun s _ => s.kmemPhysEnd + 2 ^ 19 ≤ s.hmemPhysEnd) hroom .refl htrace
  have hreach : Reachable s Roomy s' := hpages.trans (reachable_of_client (Q := Roomy) hroomy hrun)
  refine ⟨s, s', hs, hreach, ⟨?_, ht'.hmemPhysEnd⟩, heaps_parted ?_ (by decide) ?_ hs hreach⟩
  · rw [ht'.kmem]
    exact of_decide_eq_true htwo
  · constructor <;> decide
  · decide +kernel

set_option maxRecDepth 10000 in
/-- The second buddy of the small machine ends 96 KiB above the end of hmem. -/
theorem heaps_not_parted : ¬ ∀ s₀ s : Machine, s₀.Booted →
    s₀.buddyMemoryEndPhys + 2 ^ 19 ≤ 0x100000 + s₀.ramAmount → s₀.initPageAllocator = .ok s →
    ∀ s', Reachable s (fun _ _ => True) s' → s'.kmemPhysEnd ≤ s'.hmemPhysEnd := by
  intro h
  obtain ⟨s, c, hs, hrun, ht, hpos⟩ := Client.smallBoot_run (l := List.replicate 16 (.alloc .k32))
    (P := fun k => k.buddyArrayPos = 2) (by decide +kernel)
  have hle := h _ _ Client.smallBoot_booted smallBoot_fits hs _
    (reachable_of_client (fun _ _ _ => trivial) hrun)
  have hend := ht.physEnd
  have hhmem := ht.hmemPhysEnd
  have hpos := of_decide_eq_true hpos
  omega

end Heaps

end TinyLittleOs.Memory
