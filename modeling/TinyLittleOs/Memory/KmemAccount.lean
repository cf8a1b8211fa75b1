import TinyLittleOs.Memory.KmemRuns
import TinyLittleOs.Memory.Paging

/-!
# The account of kmem, whatever memory holds

Page tables lie in memory that others may spoil, but the bitmaps of kmem do not depend on them: an
allocation hands out one block, and blocks of 4 KiB that became page tables, which nobody had. So a
run of calls from an empty account to an account tells which pages are free after it.
-/

namespace TinyLittleOs.Memory

open Lib Relation

namespace Machine

/-- From `s` to `s'` buddies may have been created. -/
structure Extends (s s' : Machine) : Prop where
  base : s'.kmem.base = s.kmem.base
  pos : s.kmem.buddyArrayPos ≤ s'.kmem.buddyArrayPos

theorem Extends.refl (s : Machine) : Extends s s := ⟨rfl, Nat.le_refl _⟩

theorem Extends.trans {s s' s'' : Machine} (h : Extends s s') (h' : Extends s' s'') :
    Extends s s'' := ⟨h'.base.trans h.base, Nat.le_trans h.pos h'.pos⟩

theorem Alike.toExtends {s s' : Machine} (h : Alike s s') : Extends s s' :=
  ⟨h.base, Nat.le_of_eq h.pos.symm⟩

theorem Extends.of_writes {s s' : Machine} (h : s' = { s with mem := s'.mem }) : Extends s s' := by
  rw [h]
  exact ⟨rfl, Nat.le_refl _⟩

/-- Some blocks of 4 KiB were taken for page tables. -/
def Tabled (s : Machine) (L : List Block) (lag : Nat) (s' : Machine) : Prop :=
  Extends s s' ∧ ∃ T, s'.Tracked (T ++ L) lag

/-- And a block of size `n` was handed out at `p`. -/
def Handed (s : Machine) (L : List Block) (lag : Nat) (n : BlockSize) (p : Nat) (s' : Machine) :
    Prop :=
  ∃ x, x.size = n ∧ p = s'.kmem.blockAddr n x.buddy x.index ∧ Extends s s' ∧
    ∃ T, s'.Tracked (x :: (T ++ L)) lag

section Tables

variable {s s' s'' : Machine} {L : List Block} {lag : Nat}

theorem Tracked.tabled (h : s.Tracked L lag) : s.Tabled L lag s := ⟨.refl s, [], h⟩

theorem Tabled.after {T : List Block} (hext : Extends s s') (h : s'.Tabled (T ++ L) lag s'') :
    s.Tabled L lag s'' := by
  obtain ⟨hext', T', ht⟩ := h
  refine ⟨hext.trans hext', T' ++ T, ?_⟩
  rw [List.append_assoc]
  exact ht

theorem Handed.after {T : List Block} {n : BlockSize} {p : Nat} (hext : Extends s s')
    (h : s'.Handed (T ++ L) lag n p s'') : s.Handed L lag n p s'' := by
  obtain ⟨x, hsize, hp, hext', T', ht⟩ := h
  refine ⟨x, hsize, hp, hext.trans hext', T' ++ T, ?_⟩
  rw [List.append_assoc]
  exact ht

theorem Tabled.writes (h : s.Tabled L lag s') (hs : s'' = { s' with mem := s''.mem }) :
    s.Tabled L lag s'' := by
  obtain ⟨hext, T, ht⟩ := h
  exact ⟨hext.trans (.of_writes hs), T, ht.writes hs⟩

theorem store_writes (s : Machine) (a v : Nat) :
    s.store a v = { s with mem := (s.store a v).mem } := by
  rw [store]

theorem memset_writes (s : Machine) (a : Nat) (v : BitVec 8) (n : Nat) :
    s.memset a v n = { s with mem := (s.memset a v n).mem } := by
  rw [memset]

/-- What was handed out may become a page table. -/
theorem Handed.tabled {n : BlockSize} {p : Nat} (h : s.Handed L lag n p s') :
    s.Tabled L lag s' := by
  obtain ⟨x, -, -, hext, T, ht⟩ := h
  exact ⟨hext, x :: T, ht⟩

/-- A block of the account is freed. -/
theorem Tracked.free {x : Block} {p : Nat} (h : s.Tracked (x :: L) lag)
    (hp : p = s.kmem.blockAddr x.size x.buddy x.index) (hs : s.kmemFree x.size p = .ok s') :
    Extends s s' ∧ s'.Tracked L lag := by
  obtain ⟨-, hi⟩ := h.marked.valid x List.mem_cons_self
  obtain ⟨hfree, htracked⟩ := h.kmemFree (u := [])
  rw [hp, hfree] at hs
  obtain rfl := Except.ok.inj hs
  exact ⟨(s.free_alike x.buddy hi).toExtends, htracked⟩

theorem Handed.free {n : BlockSize} {p : Nat} (h : s.Handed L lag n p s')
    (hs : s'.kmemFree n p = .ok s'') : s.Tabled L lag s'' := by
  obtain ⟨x, rfl, hp, hext, T, ht⟩ := h
  obtain ⟨hext', ht'⟩ := ht.free hp hs
  exact ⟨hext.trans hext', T, ht'⟩

variable {alloc4k : Machine → Except Fault (Nat × Machine)}

theorem mapPage_tabled (ht : s.Tracked L lag) (virt pdeFlags pte pd : Nat)
    (halloc : Outcome (alloc4k s) (fun r => s.Handed L lag .k4 r.1 r.2) fun _ => True) :
    Outcome (s.mapPage alloc4k virt pdeFlags pte pd) (s.Tabled L lag) fun _ => True := by
  rw [mapPage]
  dsimp only
  refine .ite (fun _ => trivial) fun _ => .ite (fun _ => ?_) fun _ => ?_
  · exact ht.tabled.writes (store_writes _ _ _)
  · refine halloc.bind ?_
    rintro ⟨p, s₁⟩ hp
    refine .ite (fun _ => ?_) fun _ => ?_
    · cases hfree : s₁.kmemFree4k p with
      | error e => trivial
      | ok s₂ => exact (hp.free hfree).writes (store_writes _ _ _)
    · have hclear := hp.tabled.writes (memset_writes s₁ p 0 4096)
      exact (hclear.writes (store_writes _ _ _)).writes (store_writes _ _ _)

theorem mapRange_tabled (h : s.Tabled L lag s') {l : List Nat} {pdeFlags : Nat} {pte : Nat → Nat}
    (halloc : ∀ t L', t.Tracked L' lag →
      Outcome (alloc4k t) (fun r => t.Handed L' lag .k4 r.1 r.2) fun _ => True) :
    Outcome (l.foldlM (fun s a => s.mapPage alloc4k a pdeFlags (pte a) s.firstPageDirectory) s')
      (s.Tabled L lag) fun _ => True := by
  refine Outcome.foldlM (fun t a _ h => ?_) h
  obtain ⟨hext, T, ht⟩ := h
  refine (mapPage_tabled ht _ _ _ _ (halloc t _ ht)).mono (fun u hu => ?_) fun _ he => he
  exact .after hext hu

theorem kmemBuddyNew_tabled (ht : s.Tracked L lag) (hlag : lag ≤ 1)
    (halloc : ∀ t L', t.Tracked L' (lag + 1) →
      Outcome (alloc4k t) (fun r => t.Handed L' (lag + 1) .k4 r.1 r.2) fun _ => True) :
    Outcome (s.kmemBuddyNew alloc4k) (s.Tabled L lag) fun _ => True := by
  rw [Machine.kmemBuddyNew, kmemBuddyNewNoAlloc]
  split
  · rw [pure_bind]
    have hnew := ht.withNewBuddy hlag
    have hstart : s.Extends s.withNewBuddy := ⟨rfl, Nat.le_succ _⟩
    dsimp only
    refine (mapRange_tabled hnew.tabled halloc).bind ?_
    rintro s₁ ⟨hext, T, htracked⟩
    refine .ite (fun _ => trivial) fun _ => .ite (fun hregion => ?_) fun _ => trivial
    have hphys := htracked.physEnd
    have hle := htracked.physLe
    have hregion' := htracked.region
    have hend : (s₁.kmemPhysEnd + 1 <<< 19) % 2 ^ 32 = s₁.kmemPhysEnd + 2 ^ 19 :=
      Nat.mod_eq_of_lt (by omega)
    rw [hend] at hregion ⊢
    refine ⟨⟨hext.base.trans hstart.base, hstart.pos.trans hext.pos⟩, T,
      ⟨htracked.toLayout.congr htracked.toPlaced rfl rfl, htracked.marked, ?_, ?_, hregion'⟩⟩
    · dsimp only
      omega
    · dsimp only
      omega
  · trivial

/-- An allocation hands out one block. -/
theorem kmemAllocFuel_handed (ht : s.Tracked L lag) (fuel : Nat) (n : BlockSize)
    (hlag : lag + fuel ≤ 2) :
    Outcome (kmemAllocFuel fuel n s) (fun r => s.Handed L lag n r.1 r.2) fun _ => True := by
  induction fuel generalizing s L lag n with
  | zero => trivial
  | succ fuel ih =>
    have htake : ∀ {t : Machine} {b i : Nat}, s.Tabled L lag t → b < t.kmem.buddyArrayPos →
        t.kmem.bit n b i = true → s.Handed L lag n (t.kmem.blockAddr n b i) (t.take n b i) := by
      rintro t b i ⟨hext, T, ht⟩ hb hi
      have halike := take_alike (s := t) (b := b) (Kmem.bit_lt hi)
      refine ⟨⟨n, b, i⟩, rfl, ?_, hext.trans halike.toExtends, T, ht.take hb hi⟩
      rw [take_kmem, (t.kmem.allocAt_clears b (Kmem.bit_lt hi)).toSameBut.blockAddr]
    rw [kmemAllocFuel]
    refine (ht.buddyAlloc n).bind ?_
    rintro r (rfl | ⟨b, i, hb, hi, rfl⟩)
    · dsimp only
      have hnew := kmemBuddyNew_tabled ht (by omega) fun t L' ht' =>
        ih ht' .k4 (show lag + 1 + fuel ≤ 2 by omega)
      refine hnew.bind ?_
      rintro s₁ ⟨hext, T, htracked⟩
      refine (htracked.buddyAlloc n).bind ?_
      rintro r (rfl | ⟨b, i, hb, hi, rfl⟩)
      · trivial
      · exact htake ⟨hext, T, htracked⟩ hb hi
    · exact htake ht.tabled hb hi

/-- `kmem_alloc_N` between calls. -/
theorem kmemAlloc_handed (ht : s.Tracked L 0) (n : BlockSize) :
    Outcome (s.kmemAlloc n) (fun r => s.Handed L 0 n r.1 r.2) fun _ => True :=
  kmemAllocFuel_handed ht 2 n (Nat.le_refl _)

end Tables

/-! ## Free pages -/

/-- The pages of kmem that are free, by their numbers. -/
def freePages (s : Machine) : Set Nat :=
  {q | ∃ b < s.kmem.buddyArrayPos, ∃ p < 128, q = s.pageOf b p ∧ s.kmem.bit .k4 b p = true}

section FreePages

variable {s s' : Machine} {L : List Block} {lag : Nat} (h : s.Tracked L lag) {x : Block} {q : Nat}
include h

/-- Pages of a block that is handed out are not free. -/
theorem Tracked.not_free (hx : x ∈ L) (hq : s.PageIn x q) : q ∉ s.freePages := by
  rintro ⟨b, hb, p, hp, heq, hbit⟩
  have huse := (h.inUse_of_pageIn hx hq).2 b hb p hp heq
  rw [huse] at hbit
  cases hbit

/-- Pages of created buddies that no block has are free. -/
theorem Tracked.free_of_apart {b p : Nat} (hb : b < s.kmem.buddyArrayPos) (hp : p < 128)
    (hx : ∀ y ∈ L, ¬ y.Covers b p) : s.pageOf b p ∈ s.freePages :=
  ⟨b, hb, p, hp, rfl, ((h.marked.marks b hb).free p hp).2 hx⟩

omit h in
/-- A page of a buddy that is not created is not free. -/
theorem not_free_of_pos_le (hext : Extends s s') {b p : Nat} (hb : s.kmem.buddyArrayPos ≤ b) :
    s'.pageOf b p ∉ s.freePages := by
  rintro ⟨b', hb', p', hp', heq, -⟩
  simp only [pageOf, hext.base] at heq
  omega

end FreePages

end Machine

/-! ## Runs -/

namespace Client

/-- A call of kmem, or writes to memory and to the registers and steps of hmem. -/
inductive Move : Client → Client → Prop
  | call {c c' : Client} {a : Call} : Step c a c' → Move c c'
  | other {s : Machine} {held : List (BlockSize × Nat)} {mem : ByteMem}
      {cr3 hmemEnd hmemPhysEnd hmemPhysList : Nat} :
      Move ⟨s, held⟩ ⟨{ s with mem, cr3, hmemEnd, hmemPhysEnd, hmemPhysList }, held⟩

/-- A block as its owner sees it. -/
def see (s : Machine) (x : Block) : BlockSize × Nat :=
  (x.size, s.kmem.blockAddr x.size x.buddy x.index)

theorem see_congr {s s' : Machine} (h : s.Extends s') : see s' = see s := by
  funext x
  rw [see, see, blockAddr_congr h.base]

/-- The blocks that are held are in the account, beside the blocks `L` of others. -/
structure Holding (s₀ : Machine) (L : List Block) (c : Client) (U T : List Block) : Prop where
  grown : s₀.Extends c.machine
  tracked : c.machine.Tracked (U ++ (T ++ L)) 0
  held : c.held = U.map (see c.machine)

theorem Holding.move {s₀ : Machine} {L U T : List Block} {c c' : Client} (h : Holding s₀ L c U T)
    (hm : Move c c') : ∃ U' T', Holding s₀ L c' U' T' := by
  obtain ⟨hext, ht, hheld⟩ := h
  cases hm with
  | other => exact ⟨U, T, ⟨hext.base, hext.pos⟩, ht.congr rfl rfl rfl rfl, hheld⟩
  | call hs =>
    cases hs with
    | @alloc s s' n p held hs =>
      obtain ⟨x, hsize, hp, hext', T', ht'⟩ := (Machine.kmemAlloc_handed ht n).of_ok hs
      have hperm : (T' ++ (U ++ (T ++ L))).Perm (U ++ ((T' ++ T) ++ L)) := by
        rw [List.append_assoc]
        exact List.perm_append_comm_assoc T' U (T ++ L)
      refine ⟨x :: U, T' ++ T, hext.trans hext', ht'.perm (hperm.cons x), ?_⟩
      dsimp only at hheld hp ⊢
      rw [List.map_cons, see_congr hext', hheld, ← see_congr hext', see, hsize, ← hp]
    | @free s s' n p u v hs =>
      dsimp only at hheld ht hext
      obtain ⟨U₁, V, rfl, rfl, hV⟩ := List.map_eq_append_iff.1 hheld.symm
      obtain ⟨x, U₂, rfl, hx, rfl⟩ := List.map_eq_cons_iff.1 hV
      obtain ⟨rfl, rfl⟩ := Prod.mk.inj hx
      rw [List.append_assoc, List.cons_append] at ht
      obtain ⟨hext', ht'⟩ := (ht.perm List.perm_middle).free rfl hs
      refine ⟨U₁ ++ U₂, T, hext.trans hext', ?_, ?_⟩
      · rw [List.append_assoc]
        exact ht'
      · rw [List.map_append, see_congr hext']

/-- What a run keeps is in the account. -/
theorem Holding.run {s : Machine} {L : List Block} {c : Client} (ht : s.Tracked L 0)
    (h : ReflTransGen Move ⟨s, []⟩ c) : ∃ U T, Holding s L c U T := by
  induction h with
  | refl => exact ⟨[], [], .refl s, ht, rfl⟩
  | tail _ hm ih =>
    obtain ⟨U, T, h⟩ := ih
    exact h.move hm

end Client

end TinyLittleOs.Memory
