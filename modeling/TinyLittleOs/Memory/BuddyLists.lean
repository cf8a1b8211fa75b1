import TinyLittleOs.Memory.BuddyBits

/-!
# The four lists of kmem

For each size the list from `kmem_allocator.first_kN` should hold the created buddies whose
`kN` bitmap is not empty. Whatever marks one operation makes, the pointers of a size change
only when it empties or fills that bitmap of its buddy: `Clears` and `Sets` say so for
`alloc<N>` and `free<N>`, and the invariants of the lists follow from them.
-/

namespace TinyLittleOs.Memory

open Lib

namespace Kmem

/-- The buddies created so far. -/
def created (s : Kmem) : Set Nat := {b | b < s.buddyArrayPos}

@[simp] theorem mem_created {s : Kmem} {b : Nat} : b ∈ s.created ↔ b < s.buddyArrayPos := Iff.rfl

/-- Buddy `b` has a free block of size `n`. -/
def HasFree (s : Kmem) (n : BlockSize) (b : Nat) : Prop := ∃ i, s.bit n b i = true

instance (s : Kmem) (n : BlockSize) (b : Nat) : Decidable (s.HasFree n b) :=
  decidable_of_iff ((s.bits n b).isZero = false) Bitmap.isZero_eq_false_iff

theorem isZero_iff_not_hasFree {s : Kmem} {n : BlockSize} {b : Nat} :
    (s.bits n b).isZero = true ↔ ¬ s.HasFree n b := by
  simp [Bitmap.isZero_iff, HasFree, bit]

/-- The list of size `n` is `l`: the created buddies with a free block of that size. -/
structure Linked (s : Kmem) (n : BlockSize) (l : List Nat) : Prop where
  list : (s.links n).IsList s.created l
  mem : ∀ b, b ∈ l ↔ b < s.buddyArrayPos ∧ s.HasFree n b

/-- A linked list whose neighbours point at each other. -/
structure Paired (s : Kmem) (n : BlockSize) (l : List Nat) : Prop extends Linked s n l where
  backs : (s.links n).Backs none l

theorem Paired.tight {s : Kmem} {n : BlockSize} {l : List Nat} (h : s.Paired n l) :
    (s.links n).Tight s.created l := ⟨h.list, h.backs⟩

/-- The pointers of `b` are null in the list of every size it has no free block of. -/
def Cleared (s : Kmem) (b : Nat) : Prop :=
  ∀ n, ¬ s.HasFree n b → (s.links n).prev b = none ∧ (s.links n).next (some b) = none

/-- From the heads and from the created buddies the lists lead to created buddies, whatever is
wrong with their back pointers. -/
def Leads (s : Kmem) : Prop := ∀ n, (s.links n).Inside s.created

/-! ## What a sequence of marks does -/

/-- The globals that place the buddies in memory and the bitmaps of all buddies but `b`. -/
structure SameBut (b : Nat) (s s' : Kmem) : Prop where
  array : s'.buddyArray = s.buddyArray
  size : s'.buddyArraySize = s.buddyArraySize
  pos : s'.buddyArrayPos = s.buddyArrayPos
  bit : ∀ n b' j, b' ≠ b → s'.bit n b' j = s.bit n b' j

theorem SameBut.trans {b : Nat} {s s' s'' : Kmem} (h : SameBut b s s') (h' : SameBut b s' s'') :
    SameBut b s s'' where
  array := h'.array.trans h.array
  size := h'.size.trans h.size
  pos := h'.pos.trans h.pos
  bit n b' j hb := (h'.bit n b' j hb).trans (h.bit n b' j hb)

theorem SameBut.created {b : Nat} {s s' : Kmem} (h : SameBut b s s') : s'.created = s.created := by
  simp [Kmem.created, h.pos]

theorem SameBut.hasFree {b : Nat} {s s' : Kmem} (h : SameBut b s s') {n : BlockSize} {b' : Nat}
    (hb : b' ≠ b) : s'.HasFree n b' ↔ s.HasFree n b' := by
  simp [HasFree, h.bit n b' _ hb]

/-- From `s` to `s'` bits of `b` were cleared, and `b` unlinked where none was left. -/
structure Clears (b : Nat) (s s' : Kmem) : Prop extends SameBut b s s' where
  le : ∀ n j, s'.bit n b j = true → s.bit n b j = true
  links : s.Cleared b → ∀ n, s'.links n =
    if s.HasFree n b ∧ ¬ s'.HasFree n b then (s.links n).unlink b else s.links n
  leads : b < s.buddyArrayPos → s.Leads → s'.Leads

/-- From `s` to `s'` bits of `b` were set, and `b` linked where it had none. -/
structure Sets (b : Nat) (s s' : Kmem) : Prop extends SameBut b s s' where
  le : ∀ n j, s.bit n b j = true → s'.bit n b j = true
  links : s.Cleared b → ∀ n, s'.links n =
    if ¬ s.HasFree n b ∧ s'.HasFree n b then (s.links n).pushFront b else s.links n
  leads : b < s.buddyArrayPos → s.Leads → s'.Leads

section Sequence

variable {b : Nat} {s s' s'' : Kmem}

theorem Clears.hasFree (h : Clears b s s') {n : BlockSize} (hn : s'.HasFree n b) :
    s.HasFree n b := by
  obtain ⟨i, hi⟩ := hn
  exact ⟨i, h.le n i hi⟩

theorem Clears.cleared (h : Clears b s s') (hc : s.Cleared b) : s'.Cleared b := by
  intro n hn
  rw [h.links hc n]
  by_cases hs : s.HasFree n b
  · rw [if_pos ⟨hs, hn⟩]
    exact ⟨Links.unlink_prev_self _ b, by simp [Links.unlink, Links.setPrev, Links.setNext]⟩
  · rw [if_neg fun h => hs h.1]
    exact hc n hs

theorem Clears.trans (h : Clears b s s') (h' : Clears b s' s'') : Clears b s s'' where
  toSameBut := h.toSameBut.trans h'.toSameBut
  le n j hj := h.le n j (h'.le n j hj)
  links hc n := by
    rw [h'.links (h.cleared hc) n, h.links hc n]
    have h₁ := h.hasFree (n := n)
    have h₂ := h'.hasFree (n := n)
    split_ifs <;> tauto
  leads hb hl := h'.leads (h.pos ▸ hb) (h.leads hb hl)

theorem Clears.refl (b : Nat) (s : Kmem) : Clears b s s where
  array := rfl
  size := rfl
  pos := rfl
  bit _ _ _ _ := rfl
  le _ _ hj := hj
  links _ n := by
    rw [if_neg fun h => h.2 h.1]
  leads _ hl := hl

theorem Sets.hasFree (h : Sets b s s') {n : BlockSize} (hn : s.HasFree n b) : s'.HasFree n b := by
  obtain ⟨i, hi⟩ := hn
  exact ⟨i, h.le n i hi⟩

theorem Sets.cleared (h : Sets b s s') (hc : s.Cleared b) : s'.Cleared b := by
  intro n hn
  rw [h.links hc n, if_neg fun h => hn h.2]
  exact hc n fun hs => hn (h.hasFree hs)

theorem Sets.trans (h : Sets b s s') (h' : Sets b s' s'') : Sets b s s'' where
  toSameBut := h.toSameBut.trans h'.toSameBut
  le n j hj := h'.le n j (h.le n j hj)
  links hc n := by
    rw [h'.links (h.cleared hc) n, h.links hc n]
    have h₁ := h.hasFree (n := n)
    have h₂ := h'.hasFree (n := n)
    split_ifs <;> tauto
  leads hb hl := h'.leads (h.pos ▸ hb) (h.leads hb hl)

theorem Sets.refl (b : Nat) (s : Kmem) : Sets b s s where
  array := rfl
  size := rfl
  pos := rfl
  bit _ _ _ _ := rfl
  le _ _ hj := hj
  links _ n := by
    rw [if_neg fun h => h.1 h.2]
  leads _ hl := hl

end Sequence

/-! ## One mark -/

theorem links_setLinks (s : Kmem) (n : BlockSize) (L : Links Nat) (m : BlockSize) :
    (s.setLinks n L).links m = if m = n then L else s.links m := by
  by_cases hm : m = n
  · subst hm
    simp [setLinks]
  · simp [setLinks, hm]

/-- The bitmap is tested after the bits were cleared. -/
theorem markAlloc_links (s : Kmem) (n : BlockSize) (a : Nat) (v : BitVec n.width) (b : Nat)
    (m : BlockSize) : (s.markAlloc n a v b).2.links m =
      if m = n ∧ ¬ (s.markAlloc n a v b).2.HasFree n b then (s.links n).unlink b
      else s.links m := by
  simp only [← isZero_iff_not_hasFree, markAlloc_bits, bits_setBits_self]
  unfold markAlloc
  dsimp only
  rw [bits_setBits_self]
  generalize (s.bits n b).setWord a _ = v
  have hw : v.isZero = true → v.word a = 0 := fun h =>
    Bitmap.word_eq_zero_iff.2 fun k _ => Bitmap.isZero_iff.1 h _
  split_ifs with h₁ h₂ h₂
  · simp [links_setLinks, h₂.1]
  · simp [links_setLinks, show ¬ m = n from fun hm => h₂ ⟨hm, h₁.2⟩]
  · exact absurd ⟨hw h₂.2, h₂.2⟩ h₁
  · rfl

/-- The bitmap is tested before the bits are set. -/
theorem markFree_links (s : Kmem) (n : BlockSize) (a : Nat) (v : BitVec n.width) (b : Nat)
    (m : BlockSize) : (s.markFree n a v b).links m =
      if m = n ∧ (s.links n).prev b = none ∧ ¬ s.HasFree n b then (s.links n).pushFront b
      else s.links m := by
  simp only [← isZero_iff_not_hasFree]
  unfold markFree
  dsimp only
  split_ifs with h₁ h₂ h₂
  · simp [links_setLinks, h₂.1]
  · simp [links_setLinks, show ¬ m = n from fun hm => h₂ ⟨hm, h₁⟩]
  · exact absurd h₂.2 h₁
  · rfl

section Mark

variable (s : Kmem) {n : BlockSize} {a k : Nat} (ha : a < n.words) (hk : k < n.width) (b : Nat)
include ha hk

theorem markAlloc_clears : Clears b s (s.markAlloc n a (1#_ <<< k) b).2 := by
  have hbit := markAlloc_bit s ha hk b
  have hlinks := markAlloc_links s n a (1#_ <<< k) b
  have hpos : (s.markAlloc n a (1#_ <<< k) b).2.buddyArrayPos = s.buddyArrayPos := by
    unfold markAlloc; dsimp only; split <;> rfl
  refine ⟨⟨?_, ?_, hpos, fun m b' j hb => ?_⟩, fun m j hj => ?_, fun hc m => ?_, fun hb hl m => ?_⟩
  · unfold markAlloc; dsimp only; split <;> rfl
  · unfold markAlloc; dsimp only; split <;> rfl
  · simp [hbit, hb]
  · rw [hbit] at hj
    exact (Bool.and_eq_true _ _ ▸ hj).1
  · have hother : m ≠ n → ((s.markAlloc n a (1#_ <<< k) b).2.HasFree m b ↔ s.HasFree m b) := by
      intro hm
      simp [HasFree, hbit, hm]
    rw [hlinks]
    by_cases hm : m = n
    · subst hm
      by_cases hs : s.HasFree m b
      · simp [hs]
      · have hs' : ¬ (s.markAlloc m a (1#_ <<< k) b).2.HasFree m b := by
          rintro ⟨j, hj⟩
          rw [hbit] at hj
          exact hs ⟨j, (Bool.and_eq_true _ _ ▸ hj).1⟩
        simp [hs, hs', Links.unlink_of_null (hc m hs).1 (hc m hs).2]
    · simp [hm, hother hm]
  · rw [created, hpos, hlinks]
    split
    · exact (hl n).unlink hb
    · exact hl m

theorem markFree_sets : Sets b s (s.markFree n a (1#_ <<< k) b) := by
  have hbit := markFree_bit s ha hk b
  have hlinks := markFree_links s n a (1#_ <<< k) b
  have hpos : (s.markFree n a (1#_ <<< k) b).buddyArrayPos = s.buddyArrayPos := by
    unfold markFree; dsimp only; split <;> rfl
  refine ⟨⟨?_, ?_, hpos, fun m b' j hb => ?_⟩, fun m j hj => ?_, fun hc m => ?_, fun hb hl m => ?_⟩
  · unfold markFree; dsimp only; split <;> rfl
  · unfold markFree; dsimp only; split <;> rfl
  · simp [hbit, hb]
  · simp [hbit, hj]
  · have hself : (s.markFree n a (1#_ <<< k) b).HasFree n b := ⟨a * n.width + k, by simp [hbit]⟩
    rw [hlinks]
    by_cases hm : m = n
    · subst hm
      by_cases hs : s.HasFree m b
      · simp [hs]
      · simp [hs, hself, (hc m hs).1]
    · have : (s.markFree n a (1#_ <<< k) b).HasFree m b ↔ s.HasFree m b := by
        simp [HasFree, hbit, hm]
      simp [hm, this]
  · rw [created, hpos, hlinks]
    split
    · exact (hl n).pushFront hb
    · exact hl m

end Mark

section Members

variable (s : Kmem) (b : Nat) {i : Nat}

theorem markAllocK4_clears (h : i < 128) : Clears b s (s.markAllocK4 b i).2 := by
  rw [markAllocK4, and_31, shiftRight_5]
  exact s.markAlloc_clears (show _ < 4 by omega) (show _ < 32 by omega) b

theorem markAllocK8_clears (h : i < 64) : Clears b s (s.markAllocK8 b i).2 := by
  rw [markAllocK8, and_31, shiftRight_5]
  exact s.markAlloc_clears (show _ < 2 by omega) (show _ < 32 by omega) b

theorem markAllocK16_clears (h : i < 32) : Clears b s (s.markAllocK16 b i).2 :=
  s.markAlloc_clears (show 0 < 1 by omega) (show i < 32 from h) b

theorem markAllocK32_clears (h : i < 16) : Clears b s (s.markAllocK32 b i).2 :=
  s.markAlloc_clears (show 0 < 1 by omega) (show i < 16 from h) b

theorem markFreeK4_sets (h : i < 128) : Sets b s (s.markFreeK4 b i) := by
  rw [markFreeK4, and_31, shiftRight_5]
  exact s.markFree_sets (show _ < 4 by omega) (show _ < 32 by omega) b

theorem markFreeK8_sets (h : i < 64) : Sets b s (s.markFreeK8 b i) := by
  rw [markFreeK8, and_31, shiftRight_5]
  exact s.markFree_sets (show _ < 2 by omega) (show _ < 32 by omega) b

theorem markFreeK16_sets (h : i < 32) : Sets b s (s.markFreeK16 b i) :=
  s.markFree_sets (show 0 < 1 by omega) (show i < 32 from h) b

theorem markFreeK32_sets (h : i < 16) : Sets b s (s.markFreeK32 b i) :=
  s.markFree_sets (show 0 < 1 by omega) (show i < 16 from h) b

end Members

/-! ## Whole operations -/

section Whole

variable (s : Kmem) (b : Nat) {i : Nat}

theorem allocK4_clears (hi : i < 128) : Clears b s (s.allocK4 b i) := by
  have h₁ := s.markAllocK4_clears b hi
  have h₂ := h₁.trans (markAllocK8_clears _ b (i := i >>> 1) (by omega))
  unfold allocK4
  dsimp only
  split
  · have h₃ := h₂.trans (markAllocK16_clears _ b (i := i >>> 2) (by omega))
    split
    · exact h₃.trans (markAllocK32_clears _ b (i := i >>> 3) (by omega))
    · exact h₃
  · exact h₂

theorem allocK8_clears (hi : i < 64) : Clears b s (s.allocK8 b i) := by
  have h₁ := s.markAllocK4_clears b (i := (i <<< 1) + 0) (by omega)
  have h₂ := h₁.trans (markAllocK4_clears _ b (i := (i <<< 1) + 1) (by omega))
  have h₃ := h₂.trans (markAllocK8_clears _ b hi)
  have h₄ := h₃.trans (markAllocK16_clears _ b (i := i >>> 1) (by omega))
  unfold allocK8
  dsimp only
  split
  · exact h₄.trans (markAllocK32_clears _ b (i := i >>> 2) (by omega))
  · exact h₄

theorem allocK16_clears (hi : i < 32) : Clears b s (s.allocK16 b i) := by
  have h₁ := s.markAllocK4_clears b (i := (i <<< 2) + 0) (by omega)
  have h₂ := h₁.trans (markAllocK4_clears _ b (i := (i <<< 2) + 1) (by omega))
  have h₃ := h₂.trans (markAllocK4_clears _ b (i := (i <<< 2) + 2) (by omega))
  have h₄ := h₃.trans (markAllocK4_clears _ b (i := (i <<< 2) + 3) (by omega))
  have h₅ := h₄.trans (markAllocK8_clears _ b (i := (i <<< 1) + 0) (by omega))
  have h₆ := h₅.trans (markAllocK8_clears _ b (i := (i <<< 1) + 1) (by omega))
  exact (h₆.trans (markAllocK16_clears _ b hi)).trans
    (markAllocK32_clears _ b (i := i >>> 1) (by omega))

theorem allocK32_clears (hi : i < 16) : Clears b s (s.allocK32 b i) := by
  have hfold : ∀ (l : List Nat) (s : Kmem), (∀ j ∈ l, j < 8) →
      Clears b s (l.foldl (fun s j => (s.markAllocK4 b ((i <<< 3) + j)).2) s) := by
    intro l
    induction l with
    | nil => exact fun s _ => .refl b s
    | cons j l ih =>
      intro s hl
      have hj := hl j (by simp)
      have h₁ := s.markAllocK4_clears b (i := (i <<< 3) + j) (by omega)
      exact h₁.trans (ih _ fun j hj => hl j (by simp [hj]))
  have h₁ := s.markAllocK32_clears b hi
  have h₂ := h₁.trans (hfold (List.range 8) _ fun j hj => List.mem_range.1 hj)
  have h₃ := h₂.trans (markAllocK8_clears _ b (i := (i <<< 2) + 0) (by omega))
  have h₄ := h₃.trans (markAllocK8_clears _ b (i := (i <<< 2) + 1) (by omega))
  have h₅ := h₄.trans (markAllocK8_clears _ b (i := (i <<< 2) + 2) (by omega))
  have h₆ := h₅.trans (markAllocK8_clears _ b (i := (i <<< 2) + 3) (by omega))
  exact (h₆.trans (markAllocK16_clears _ b (i := (i <<< 1) + 0) (by omega))).trans
    (markAllocK16_clears _ b (i := (i <<< 1) + 1) (by omega))

theorem allocAt_clears {n : BlockSize} (hi : i < n.count) : Clears b s (s.allocAt n b i) := by
  cases n
  · exact s.allocK4_clears b hi
  · exact s.allocK8_clears b hi
  · exact s.allocK16_clears b hi
  · exact s.allocK32_clears b hi

theorem freeDownK8_sets (hi : i < 64) : Sets b s (s.freeDownK8 b i) := by
  have hx : (i <<< 1) ^^^ 1 < 128 := xor_one_lt (c := 64) (by omega)
  exact (s.markFreeK4_sets b (i := i <<< 1) (by omega)).trans (markFreeK4_sets _ b hx)

theorem freeDownK16_sets (hi : i < 32) : Sets b s (s.freeDownK16 b i) := by
  have hx : (i <<< 1) ^^^ 1 < 64 := xor_one_lt (c := 32) (by omega)
  have h₁ := s.markFreeK8_sets b (i := i <<< 1) (by omega)
  have h₂ := h₁.trans (freeDownK8_sets _ b (i := i <<< 1) (by omega))
  exact (h₂.trans (markFreeK8_sets _ b hx)).trans (freeDownK8_sets _ b hx)

theorem freeDownK32_sets (hi : i < 16) : Sets b s (s.freeDownK32 b i) := by
  have hx : (i <<< 1) ^^^ 1 < 32 := xor_one_lt (c := 16) (by omega)
  have h₁ := s.markFreeK16_sets b (i := i <<< 1) (by omega)
  have h₂ := h₁.trans (freeDownK16_sets _ b (i := i <<< 1) (by omega))
  exact (h₂.trans (markFreeK16_sets _ b hx)).trans (freeDownK16_sets _ b hx)

theorem freeUpK32_sets (hi : i < 16) : Sets b s (s.freeUpK32 b i) := s.markFreeK32_sets b hi

theorem freeUpK16_sets (hi : i < 32) : Sets b s (s.freeUpK16 b i) := by
  have h₁ := s.markFreeK16_sets b hi
  have hx : (i ^^^ 1) >>> 1 < 16 := by rw [xor_one_shiftRight]; omega
  unfold freeUpK16
  dsimp only
  split
  · exact h₁.trans (freeUpK32_sets _ b hx)
  · exact h₁

theorem freeUpK8_sets (hi : i < 64) : Sets b s (s.freeUpK8 b i) := by
  have h₁ := s.markFreeK8_sets b hi
  have hx : (i ^^^ 1) >>> 1 < 32 := by rw [xor_one_shiftRight]; omega
  unfold freeUpK8
  dsimp only
  split
  · exact h₁.trans (freeUpK16_sets _ b hx)
  · exact h₁

theorem freeUpK4_sets (hi : i < 128) : Sets b s (s.freeUpK4 b i) := by
  have h₁ := s.markFreeK4_sets b hi
  have hx : (i ^^^ 1) >>> 1 < 64 := by rw [xor_one_shiftRight]; omega
  unfold freeUpK4
  dsimp only
  split
  · exact h₁.trans (freeUpK8_sets _ b hx)
  · exact h₁

theorem free_sets {n : BlockSize} (hi : i < n.count) : Sets b s (s.free n b i) := by
  cases n
  · exact s.freeUpK4_sets b hi
  · exact (s.freeUpK8_sets b hi).trans (freeDownK8_sets _ b hi)
  · exact (s.freeUpK16_sets b hi).trans (freeDownK16_sets _ b hi)
  · exact (s.freeUpK32_sets b hi).trans (freeDownK32_sets _ b hi)

end Whole

/-! ## The lists -/

section Lists

variable {s s' : Kmem} {b : Nat} {n : BlockSize} {l : List Nat}

theorem cleared_of_linked (h : ∀ n, ∃ l, s.Linked n l) (hb : b < s.buddyArrayPos) :
    s.Cleared b := by
  intro n hn
  obtain ⟨l, hl⟩ := h n
  have hbl : b ∉ l := fun hm => hn ((hl.mem b).1 hm).2
  exact ⟨hl.list.out_prev b hb hbl, hl.list.out_next b hb hbl⟩

/-- Clearing bits keeps a list if `b` is settled when it leaves. -/
theorem Linked.clears (hl : s.Linked n l) (h : Clears b s s') (hc : s.Cleared b)
    (hb : b < s.buddyArrayPos) (hset : s.HasFree n b → ¬ s'.HasFree n b → (s.links n).Settled b) :
    s'.Linked n (if s'.HasFree n b then l else l.erase b) := by
  have hnd := hl.list.nodup
  have hmem : b ∈ l ↔ s.HasFree n b := by simp [hl.mem, hb]
  refine ⟨?_, fun b' => ?_⟩
  · rw [h.links hc n, h.toSameBut.created]
    by_cases hs' : s'.HasFree n b
    · simpa [hs'] using hl.list
    by_cases hs : s.HasFree n b
    · obtain ⟨u, v, rfl⟩ := List.append_of_mem (hmem.2 hs)
      have hu : b ∉ u := fun hm => (List.nodup_append.1 hnd).2.2 b hm b (by simp) rfl
      simpa [hs, hs', List.erase_append_right _ hu] using hl.list.unlink (hset hs hs')
    · have hbl : b ∉ l := fun hm => hs (hmem.1 hm)
      simpa [hs, hs', List.erase_of_not_mem hbl] using hl.list
  · by_cases hbb : b' = b
    · subst hbb
      have hle := h.hasFree (n := n)
      split_ifs with hs'
      · simp [hmem, hs', hle hs', h.pos, hb]
      · simp [hnd.mem_erase_iff, hs']
    · rw [h.pos, h.toSameBut.hasFree hbb, ← hl.mem]
      split_ifs
      · rfl
      · simp [hnd.mem_erase_iff, hbb]

/-- Clearing bits keeps a paired list. -/
theorem Paired.clears (hl : s.Paired n l) (h : Clears b s s') (hc : s.Cleared b)
    (hb : b < s.buddyArrayPos) : s'.Paired n (if s'.HasFree n b then l else l.erase b) := by
  have hmem : b ∈ l ↔ s.HasFree n b := by simp [hl.mem, hb]
  refine ⟨hl.toLinked.clears h hc hb fun hs _ => hl.tight.settled (hmem.2 hs), ?_⟩
  rw [h.links hc n]
  by_cases hs' : s'.HasFree n b
  · simpa [hs'] using hl.backs
  by_cases hs : s.HasFree n b
  · obtain ⟨u, v, rfl⟩ := List.append_of_mem (hmem.2 hs)
    have hu : b ∉ u := fun hm => (List.nodup_append.1 hl.list.nodup).2.2 b hm b (by simp) rfl
    simpa [hs, hs', List.erase_append_right _ hu] using hl.tight.unlink.backs
  · have hbl : b ∉ l := fun hm => hs (hmem.1 hm)
    simpa [hs, hs', List.erase_of_not_mem hbl] using hl.backs

/-- Setting bits keeps a list. -/
theorem Linked.sets (hl : s.Linked n l) (h : Sets b s s') (hc : s.Cleared b)
    (hb : b < s.buddyArrayPos) :
    s'.Linked n (if ¬ s.HasFree n b ∧ s'.HasFree n b then b :: l else l) := by
  have hmem : b ∈ l ↔ s.HasFree n b := by simp [hl.mem, hb]
  have hle := h.hasFree (n := n)
  refine ⟨?_, fun b' => ?_⟩
  · rw [h.links hc n, h.toSameBut.created]
    split_ifs with hs
    · have := hl.list.pushFront fun hm => hs.1 (hmem.1 hm)
      rwa [Set.insert_eq_of_mem (show b ∈ s.created from hb)] at this
    · exact hl.list
  · by_cases hbb : b' = b
    · subst hbb
      rw [h.pos]
      split_ifs <;> grind
    · rw [h.pos, h.toSameBut.hasFree hbb, ← hl.mem]
      split_ifs
      · simp [hbb]
      · rfl

/-- Setting bits keeps a paired list. -/
theorem Paired.sets (hl : s.Paired n l) (h : Sets b s s') (hc : s.Cleared b)
    (hb : b < s.buddyArrayPos) :
    s'.Paired n (if ¬ s.HasFree n b ∧ s'.HasFree n b then b :: l else l) := by
  have hmem : b ∈ l ↔ s.HasFree n b := by simp [hl.mem, hb]
  refine ⟨hl.toLinked.sets h hc hb, ?_⟩
  rw [h.links hc n]
  split_ifs with hs
  · exact (hl.tight.pushFront fun hm => hs.1 (hmem.1 hm)).backs
  · exact hl.backs

/-! ## Creating a buddy -/

@[simp] theorem buddyNewNoAlloc_pos (s : Kmem) :
    s.buddyNewNoAlloc.buddyArrayPos = s.buddyArrayPos + 1 := rfl

theorem Leads.buddyNewNoAlloc {s : Kmem} (h : s.Leads) : s.buddyNewNoAlloc.Leads := by
  intro n
  have hcreated : s.buddyNewNoAlloc.created = insert s.buddyArrayPos s.created := by
    ext b
    simp only [mem_created, buddyNewNoAlloc_pos, Set.mem_insert_iff]
    omega
  rw [hcreated]
  exact (h n).pushFrontStale s.buddyArrayPos

theorem buddyNewNoAlloc_bit (s : Kmem) (n : BlockSize) (b i : Nat) :
    s.buddyNewNoAlloc.bit n b i =
      if b = s.buddyArrayPos then decide (i < n.count) else s.bit n b i := by
  by_cases hb : b = s.buddyArrayPos
  · subst hb
    rw [bit, if_pos rfl, buddyNewNoAlloc]
    simp only [Function.update_self]
    cases n <;> exact Bitmap.bit_ones i
  · simp [bit, buddyNewNoAlloc, hb]

theorem buddyNewNoAlloc_hasFree (s : Kmem) (n : BlockSize) (b : Nat) :
    s.buddyNewNoAlloc.HasFree n b ↔ b = s.buddyArrayPos ∨ s.HasFree n b := by
  have h0 : 0 < n.count := by cases n <;> decide
  by_cases hb : b = s.buddyArrayPos
  · simp only [HasFree, buddyNewNoAlloc_bit, hb, true_or, iff_true, if_true]
    exact ⟨0, by simpa using h0⟩
  · simp [HasFree, buddyNewNoAlloc_bit, hb]

theorem buddyNewNoAlloc_created (s : Kmem) :
    s.buddyNewNoAlloc.created = insert s.buddyArrayPos s.created := by
  ext b
  simp
  omega

theorem Linked.pos_notMem (hl : s.Linked n l) : s.buddyArrayPos ∉ l := by
  intro hm
  exact absurd ((hl.mem _).1 hm).1 (Nat.lt_irrefl _)

/-- The new buddy is the first of every list. -/
theorem Linked.buddyNewNoAlloc (hl : s.Linked n l) :
    s.buddyNewNoAlloc.Linked n (s.buddyArrayPos :: l) := by
  refine ⟨?_, fun b => ?_⟩
  · rw [buddyNewNoAlloc_created]
    exact hl.list.pushFrontStale hl.pos_notMem
  · rw [List.mem_cons, hl.mem, buddyNewNoAlloc_hasFree, buddyNewNoAlloc_pos]
    grind

/-- The lists stay paired only where the new buddy has no successor. -/
theorem Paired.buddyNewNoAlloc_iff (hl : s.Paired n l) :
    s.buddyNewNoAlloc.Paired n (s.buddyArrayPos :: l) ↔ l = [] := by
  have ht := hl.tight.pushFrontStale_iff hl.toLinked.pos_notMem
  constructor
  · intro h
    exact ht.1 ⟨hl.list.pushFrontStale hl.toLinked.pos_notMem, h.backs⟩
  · intro h
    exact ⟨hl.toLinked.buddyNewNoAlloc, (ht.2 h).backs⟩

end Lists

end Kmem

end TinyLittleOs.Memory
