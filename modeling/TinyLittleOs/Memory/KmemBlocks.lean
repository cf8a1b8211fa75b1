import TinyLittleOs.Memory.BuddyLists
import Mathlib.Data.List.Pairwise
import Mathlib.Data.List.Perm.Subperm

/-!
# The blocks of kmem

A list of blocks handed out, and what the bitmaps and the lists owe to it: `Accounts`. A
`k4` bit is set exactly when no block covers its page. Taking a block from the head of a
list, freeing a block and creating a buddy keep the account.
-/

namespace TinyLittleOs.Memory

open Lib

/-- Block `index` of size `size` in a buddy. -/
structure Block where
  size : BlockSize
  buddy : Nat
  index : Nat
  deriving DecidableEq, Repr

theorem BlockSize.count_mul (n : BlockSize) : n.count * 2 ^ n.order = 128 := by
  cases n <;> rfl

theorem BlockSize.count_pos (n : BlockSize) : 0 < n.count := by
  cases n <;> decide

/-- Blocks meet when they share a page. -/
theorem BlockSize.meets_iff {n m : BlockSize} {i j : Nat} :
    n.Meets i m j ↔ ∃ p, p >>> n.order = i ∧ p >>> m.order = j := by
  have hdown {a b : Nat} (h : b ≤ a) (j : Nat) : (j <<< b) >>> a = j >>> (a - b) := by
    conv_lhs => rw [← Nat.add_sub_cancel' h, Nat.shiftRight_add, Nat.shiftLeft_shiftRight]
  have hup {a b : Nat} (h : b ≤ a) (p : Nat) : (p >>> b) >>> (a - b) = p >>> a := by
    rw [← Nat.shiftRight_add, Nat.add_sub_cancel' h]
  unfold Meets
  split_ifs with h
  · constructor
    · rintro rfl
      exact ⟨j <<< m.order, hdown h j, by simp⟩
    · rintro ⟨p, rfl, rfl⟩
      exact hup h p
  · have h := (Nat.lt_of_not_le h).le
    constructor
    · rintro rfl
      exact ⟨i <<< n.order, by simp, hdown h i⟩
    · rintro ⟨p, rfl, rfl⟩
      exact hup h p

@[simp] theorem BlockSize.meets_k4 {n : BlockSize} {i j : Nat} :
    n.Meets i .k4 j ↔ j >>> n.order = i := by
  simp [Meets, order]

/-- A page of a block of size `n` is a page of its buddy. -/
theorem BlockSize.lt_count_iff {n : BlockSize} {p : Nat} : p >>> n.order < n.count ↔ p < 128 := by
  cases n <;> simp only [order, count, Nat.shiftRight_eq_div_pow] <;> omega

namespace Block

/-- `x` covers page `p` of buddy `b`. -/
def Covers (x : Block) (b p : Nat) : Prop := x.buddy = b ∧ p >>> x.size.order = x.index

/-- No page is covered by both. -/
def Apart (x y : Block) : Prop := ∀ b p, x.Covers b p → ¬ y.Covers b p

theorem apart_iff {x y : Block} :
    x.Apart y ↔ ¬ (x.buddy = y.buddy ∧ x.size.Meets x.index y.size y.index) := by
  simp only [Apart, Covers, BlockSize.meets_iff]
  constructor
  · rintro h ⟨hb, p, hx, hy⟩
    exact h x.buddy p ⟨rfl, hx⟩ ⟨hb.symm, hy⟩
  · rintro h b p ⟨rfl, hx⟩ ⟨hb, hy⟩
    exact h ⟨hb.symm, p, hx, hy⟩

theorem Apart.symm {x y : Block} (h : x.Apart y) : y.Apart x := fun b p hy hx => h b p hx hy

instance : Std.Symm Apart where
  symm _ _ h := h.symm

end Block

namespace Kmem

private theorem forall_halves {P : Nat → Prop} (o i : Nat) :
    (∀ p, p >>> (o + 1) = i → P p) ↔
      (∀ p, p >>> o = 2 * i → P p) ∧ (∀ p, p >>> o = 2 * i + 1 → P p) := by
  have hp (p : Nat) : p >>> (o + 1) = (p >>> o) / 2 := Nat.shiftRight_succ p o
  constructor
  · intro h
    constructor <;> intro p hpo <;> exact h p (by rw [hp]; omega)
  · intro h p hpi
    rw [hp] at hpi
    rcases Nat.mod_two_eq_zero_or_one (p >>> o) with hm | hm
    · exact h.1 p (by omega)
    · exact h.2 p (by omega)

/-- The bit of a block is set when every page of it is free. -/
theorem Coalesced.bit_iff {s : Kmem} {b : Nat} (hc : s.Coalesced b) {n : BlockSize} {i : Nat} :
    s.bit n b i = true ↔ ∀ p, p >>> n.order = i → s.bit .k4 b p = true := by
  have h4 (i : Nat) : s.bit .k4 b i = true ↔ ∀ p, p >>> 0 = i → s.bit .k4 b p = true := by simp
  have h8 (i : Nat) : s.bit .k8 b i = true ↔ ∀ p, p >>> 1 = i → s.bit .k4 b p = true := by
    rw [hc.k8, Bool.and_eq_true, h4 (2 * i), h4 (2 * i + 1)]
    exact (forall_halves 0 i).symm
  have h16 (i : Nat) : s.bit .k16 b i = true ↔ ∀ p, p >>> 2 = i → s.bit .k4 b p = true := by
    rw [hc.k16, Bool.and_eq_true, h8 (2 * i), h8 (2 * i + 1)]
    exact (forall_halves 1 i).symm
  have h32 (i : Nat) : s.bit .k32 b i = true ↔ ∀ p, p >>> 3 = i → s.bit .k4 b p = true := by
    rw [hc.k32, Bool.and_eq_true, h16 (2 * i), h16 (2 * i + 1)]
    exact (forall_halves 2 i).symm
  cases n
  · exact h4 i
  · exact h8 i
  · exact h16 i
  · exact h32 i

/-- `alloc<N>` finds the lowest set bit. -/
theorem findFree_eq_ok {s : Kmem} {n : BlockSize} {b i : Nat} (h : s.findFree n b = .ok i) :
    s.bit n b i = true ∧ ∀ j < i, s.bit n b j = false := by
  unfold findFree at h
  split at h
  · simp at h
  · rename_i a ha
    obtain rfl := Except.ok.inj h
    exact Bitmap.bit_lowest ha

theorem findFree_of_hasFree {s : Kmem} {n : BlockSize} {b : Nat} (h : s.HasFree n b) :
    ∃ i, s.findFree n b = .ok i := by
  unfold findFree
  split
  · rename_i hnone
    exact absurd h (isZero_iff_not_hasFree.1 (Bitmap.firstWord_eq_none.1 hnone))
  · exact ⟨_, rfl⟩

/-- The bitmaps of buddy `b` mark as free the pages that no block of `L` covers. -/
structure Marks (s : Kmem) (b : Nat) (L : List Block) : Prop where
  free : ∀ p < 128, s.bit .k4 b p = true ↔ ∀ x ∈ L, ¬ x.Covers b p
  coalesced : s.Coalesced b

section Marks

variable {s : Kmem} {L : List Block} {b : Nat}

/-- A block is free when its pages are. -/
theorem Marks.bit_iff (h : s.Marks b L) {n : BlockSize} {i : Nat} (hi : i < n.count) :
    s.bit n b i = true ↔ ∀ x ∈ L, Block.Apart ⟨n, b, i⟩ x := by
  rw [h.coalesced.bit_iff]
  constructor
  · rintro hp x hx b' p ⟨rfl, hpi⟩
    have hpi : p >>> n.order = i := hpi
    exact (h.free p (BlockSize.lt_count_iff.1 (hpi ▸ hi))).1 (hp p hpi) x hx
  · intro hx p hp
    exact (h.free p (BlockSize.lt_count_iff.1 (hp ▸ hi))).2 fun x hxL => hx x hxL b p ⟨rfl, hp⟩

/-- Marking a block as taken, in this buddy or another. -/
theorem Marks.allocAt (h : s.Marks b L) {n : BlockSize} {b₀ i : Nat} (hc : s.Coalesced b₀)
    (hi : i < n.count) : (s.allocAt n b₀ i).Marks b (⟨n, b₀, i⟩ :: L) := by
  refine ⟨fun p hp => ?_, hc.allocAt hi b h.coalesced⟩
  rw [allocAt_bit hc .k4 b p hi, h.free p hp, List.forall_mem_cons, BlockSize.meets_k4, and_comm]
  simp [Block.Covers, eq_comm]

/-- Marking a block as free that no other block meets. -/
theorem Marks.free' {u v : List Block} {x : Block} (h : s.Marks b (u ++ x :: v))
    (hi : x.index < x.size.count) (hother : ∀ y ∈ u ++ v, x.Apart y) :
    (s.free x.size x.buddy x.index).Marks b (u ++ v) := by
  refine ⟨fun p hp => ?_, Coalesced.free hi x.buddy b h.coalesced⟩
  rw [free_k4_bit _ _ _ _ hi, h.free p hp]
  have hx : b = x.buddy ∧ p >>> x.size.order = x.index ↔ x.Covers b p := by
    rw [Block.Covers, eq_comm]
  rw [hx]
  constructor
  · rintro (hfree | hcov) y hy hyc
    · exact hfree y (by grind) hyc
    · exact hother y hy b p hcov hyc
  · intro hfree
    by_cases hcov : x.Covers b p
    · exact .inr hcov
    · exact .inl fun y hy => by grind

end Marks

/-- In a list of blocks that are pairwise apart, each is apart from the rest. -/
theorem apart_of_pairwise {u v : List Block} {x : Block}
    (h : (u ++ x :: v).Pairwise Block.Apart) : ∀ y ∈ u ++ v, x.Apart y := by
  obtain ⟨-, hxv, huv⟩ := List.pairwise_append.1 h
  intro y hy
  rcases List.mem_append.1 hy with hy | hy
  · exact (huv y hy x (by simp)).symm
  · exact (List.pairwise_cons.1 hxv).1 y hy

/-- The first free block of a new buddy is its first. -/
theorem findFree_buddyNewNoAlloc (s : Kmem) (n : BlockSize) :
    s.buddyNewNoAlloc.findFree n s.buddyArrayPos = .ok 0 := by
  obtain ⟨i, hi⟩ := findFree_of_hasFree ((s.buddyNewNoAlloc_hasFree n _).2 (.inl rfl))
  obtain rfl | hpos := Nat.eq_zero_or_pos i
  · exact hi
  · have hfirst := (findFree_eq_ok hi).2 0 hpos
    rw [s.buddyNewNoAlloc_bit, if_pos rfl, decide_eq_false_iff_not] at hfirst
    exact absurd n.count_pos hfirst

/-- The blocks of `L` are handed out and everything else is free. -/
structure Accounts (s : Kmem) (L : List Block) : Prop where
  valid : ∀ x ∈ L, x.buddy < s.buddyArrayPos ∧ x.index < x.size.count
  apart : L.Pairwise Block.Apart
  free : ∀ b < s.buddyArrayPos, ∀ p < 128, s.bit .k4 b p = true ↔ ∀ x ∈ L, ¬ x.Covers b p
  coalesced : ∀ b < s.buddyArrayPos, s.Coalesced b
  linked : ∀ n, ∃ l, s.Linked n l

section Accounts

variable {s s' : Kmem} {L : List Block}

theorem Accounts.cleared (h : s.Accounts L) {b : Nat} (hb : b < s.buddyArrayPos) : s.Cleared b :=
  cleared_of_linked h.linked hb

theorem Accounts.perm (h : s.Accounts L) {L' : List Block} (hp : L.Perm L') : s.Accounts L' where
  valid x hx := h.valid x (hp.mem_iff.2 hx)
  apart := h.apart.perm hp Block.Apart.symm
  free b hb p hpg := (h.free b hb p hpg).trans (by simp only [hp.mem_iff])
  coalesced := h.coalesced
  linked := h.linked

/-- The head of a list is a created buddy in which the search succeeds. -/
theorem Accounts.head (h : s.Accounts L) {n : BlockSize} {b : Nat}
    (hb : (s.links n).next none = some b) :
    b < s.buddyArrayPos ∧ ∃ i, s.findFree n b = .ok i := by
  obtain ⟨l, hl⟩ := h.linked n
  rw [hl.list.next_none] at hb
  obtain ⟨hpos, hfree⟩ := (hl.mem b).1 (List.mem_of_mem_head? hb)
  exact ⟨hpos, findFree_of_hasFree hfree⟩

/-- If the list of a size is empty no buddy has a free block of that size. -/
theorem Accounts.not_hasFree (h : s.Accounts L) {n : BlockSize}
    (hn : (s.links n).next none = none) {b : Nat} (hb : b < s.buddyArrayPos) :
    ¬ s.HasFree n b := by
  obtain ⟨l, hl⟩ := h.linked n
  rw [hl.list.next_none, List.head?_eq_none_iff] at hn
  subst hn
  exact fun hf => by simpa using (hl.mem b).2 ⟨hb, hf⟩

/-- When all blocks are single pages and none is left, there is one for every page. -/
theorem Accounts.le_length (h : s.Accounts L) (hsize : ∀ x ∈ L, x.size = .k4)
    (hn : (s.links .k4).next none = none) : 128 * s.buddyArrayPos ≤ L.length := by
  let page (k : Nat) : Block := ⟨.k4, k / 128, k % 128⟩
  have hnd : ((List.range (128 * s.buddyArrayPos)).map page).Nodup := by
    refine List.Nodup.map (fun a b hab => ?_) List.nodup_range
    have hd : a / 128 = b / 128 := congrArg Block.buddy hab
    have hm : a % 128 = b % 128 := congrArg Block.index hab
    omega
  have hsub : (List.range (128 * s.buddyArrayPos)).map page ⊆ L := by
    intro x hx
    obtain ⟨k, hk, rfl⟩ := List.mem_map.1 hx
    have hb : k / 128 < s.buddyArrayPos := Nat.div_lt_of_lt_mul (List.mem_range.1 hk)
    have hfree : ¬ s.bit .k4 (k / 128) (k % 128) = true :=
      fun hbit => h.not_hasFree hn hb ⟨_, hbit⟩
    rw [h.free _ hb _ (Nat.mod_lt k (by omega))] at hfree
    push Not at hfree
    obtain ⟨⟨n, b, i⟩, hy, hcb, hci⟩ := hfree
    obtain rfl : n = .k4 := hsize _ hy
    obtain rfl : b = k / 128 := hcb
    obtain rfl : k % 128 = i := hci
    exact hy
  simpa using (List.subperm_of_subset hnd hsub).length_le

theorem Accounts.marks (h : s.Accounts L) {b : Nat} (hb : b < s.buddyArrayPos) : s.Marks b L :=
  ⟨h.free b hb, h.coalesced b hb⟩

/-- A block is free when its pages are. -/
theorem Accounts.bit_iff (h : s.Accounts L) {n : BlockSize} {b i : Nat} (hb : b < s.buddyArrayPos)
    (hi : i < n.count) : s.bit n b i = true ↔ ∀ x ∈ L, Block.Apart ⟨n, b, i⟩ x :=
  (h.marks hb).bit_iff hi

/-- Taking the free block `i` of size `n` from buddy `b` empties the size `m` there. -/
def Empties (s : Kmem) (n : BlockSize) (b i : Nat) (m : BlockSize) : Prop :=
  s.HasFree m b ∧ ∀ j, s.bit m b j = true → n.Meets i m j

theorem empties_iff {n : BlockSize} {b i : Nat} (hc : s.Coalesced b) (hi : i < n.count)
    (m : BlockSize) : s.Empties n b i m ↔ s.HasFree m b ∧ ¬ (s.allocAt n b i).HasFree m b := by
  have hbit := fun j => allocAt_bit hc m b j hi
  simp [Empties, HasFree, hbit]

/-- Taking a free block hands it out. -/
theorem Accounts.allocAt (h : s.Accounts L) {n : BlockSize} {b i : Nat} (hb : b < s.buddyArrayPos)
    (hi : s.bit n b i = true) (hset : ∀ m, s.Empties n b i m → (s.links m).Settled b) :
    (s.allocAt n b i).Accounts (⟨n, b, i⟩ :: L) := by
  have hlt := bit_lt hi
  have hc := h.coalesced b hb
  have hcl := s.allocAt_clears b hlt
  have hmarks (b' : Nat) (hb' : b' < s.buddyArrayPos) := (h.marks hb').allocAt hc hlt
  refine ⟨?_, List.pairwise_cons.2 ⟨(h.bit_iff hb hlt).1 hi, h.apart⟩, hcl.pos ▸ fun b' hb' =>
    (hmarks b' hb').free, hcl.pos ▸ fun b' hb' => (hmarks b' hb').coalesced, ?_⟩
  · intro x hx
    rw [hcl.pos]
    rcases List.mem_cons.1 hx with rfl | hx
    · exact ⟨hb, hlt⟩
    · exact h.valid x hx
  · intro m
    obtain ⟨l, hl⟩ := h.linked m
    exact ⟨_, hl.clears hcl (h.cleared hb) hb fun hs hs' =>
      hset m ((empties_iff hc hlt m).2 ⟨hs, hs'⟩)⟩

/-- Freeing a block takes it back. -/
theorem Accounts.free' {u v : List Block} {x : Block} (h : s.Accounts (u ++ x :: v)) :
    (s.free x.size x.buddy x.index).Accounts (u ++ v) := by
  obtain ⟨hb, hi⟩ := h.valid x (by simp)
  have hs := s.free_sets x.buddy hi
  have hmarks (b' : Nat) (hb' : b' < s.buddyArrayPos) :=
    (h.marks hb').free' hi (apart_of_pairwise h.apart)
  refine ⟨?_, h.apart.sublist (by simp), hs.pos ▸ fun b' hb' => (hmarks b' hb').free,
    hs.pos ▸ fun b' hb' => (hmarks b' hb').coalesced, ?_⟩
  · intro y hy
    rw [hs.pos]
    exact h.valid y (by grind)
  · intro m
    obtain ⟨l, hl⟩ := h.linked m
    exact ⟨_, hl.sets hs (h.cleared hb) hb⟩

theorem buddyNewNoAlloc_coalesced (s : Kmem) : s.buddyNewNoAlloc.Coalesced s.buddyArrayPos := by
  constructor <;> intro j <;> rw [Bool.eq_iff_iff, Bool.and_eq_true] <;>
    simp only [buddyNewNoAlloc_bit, ↓reduceIte, decide_eq_true_eq] <;>
    simp only [BlockSize.count] <;> omega

/-- All of a new buddy is free. -/
theorem marks_buddyNewNoAlloc (hvalid : ∀ x ∈ L, x.buddy < s.buddyArrayPos)
    (hmarks : ∀ b < s.buddyArrayPos, s.Marks b L) {b : Nat} (hb : b < s.buddyArrayPos + 1) :
    s.buddyNewNoAlloc.Marks b L := by
  by_cases hbp : b = s.buddyArrayPos
  · subst hbp
    refine ⟨fun p hp => ?_, s.buddyNewNoAlloc_coalesced⟩
    have hnone : ∀ x ∈ L, ¬ x.Covers s.buddyArrayPos p := fun x hx hc =>
      absurd (hvalid x hx) (hc.1 ▸ Nat.lt_irrefl _)
    rw [buddyNewNoAlloc_bit, if_pos rfl]
    simpa [BlockSize.count, hp] using hnone
  · have hold := hmarks b (Nat.lt_of_le_of_ne (Nat.lt_succ_iff.1 hb) hbp)
    refine ⟨fun p hp => ?_, ?_⟩
    · rw [buddyNewNoAlloc_bit, if_neg hbp]
      exact hold.free p hp
    · have hc := hold.coalesced
      constructor <;> intro j <;> simp only [buddyNewNoAlloc_bit, hbp, if_false]
      · exact hc.k8 j
      · exact hc.k16 j
      · exact hc.k32 j

/-- Creating a buddy hands nothing out. -/
theorem Accounts.buddyNewNoAlloc (h : s.Accounts L) : s.buddyNewNoAlloc.Accounts L := by
  have hmarks : ∀ b < s.buddyArrayPos + 1, s.buddyNewNoAlloc.Marks b L := fun b hb =>
    marks_buddyNewNoAlloc (fun x hx => (h.valid x hx).1) (fun b hb => h.marks hb) hb
  refine ⟨fun x hx => ?_, h.apart, fun b hb => (hmarks b hb).free,
    fun b hb => (hmarks b hb).coalesced, fun n => ?_⟩
  · obtain ⟨hb, hi⟩ := h.valid x hx
    exact ⟨Nat.lt_succ_of_lt hb, hi⟩
  · obtain ⟨l, hl⟩ := h.linked n
    exact ⟨_, hl.buddyNewNoAlloc⟩

end Accounts

end Kmem

end TinyLittleOs.Memory
