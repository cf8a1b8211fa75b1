import TinyLittleOs.Memory.Buddy

/-!
# The bitmaps of a buddy

What `alloc<N>` and `free<N>` do to single bits. A buddy is `Coalesced` when a bit of
`k8`, `k16` or `k32` is set exactly when both of its halves in the next smaller bitmap
are set; both operations keep that, and change the `k4` bits of their block only.
-/

namespace TinyLittleOs.Memory

open Lib

/-- Block `i` of size `n` and block `j` of size `m` share a page. -/
def BlockSize.Meets (n : BlockSize) (i : Nat) (m : BlockSize) (j : Nat) : Prop :=
  if m.order ≤ n.order then j >>> (n.order - m.order) = i else i >>> (m.order - n.order) = j

instance (n : BlockSize) (i : Nat) (m : BlockSize) (j : Nat) : Decidable (n.Meets i m j) :=
  inferInstanceAs (Decidable (ite _ _ _))

namespace Kmem

/-- Bit `i` of `buddy_array[b].kN`. -/
def bit (s : Kmem) (n : BlockSize) (b i : Nat) : Bool := (s.bits n b).bit i

/-- Each bit of a larger size says that both halves are free. -/
structure Coalesced (s : Kmem) (b : Nat) : Prop where
  k8 : ∀ j, s.bit .k8 b j = (s.bit .k4 b (2 * j) && s.bit .k4 b (2 * j + 1))
  k16 : ∀ j, s.bit .k16 b j = (s.bit .k8 b (2 * j) && s.bit .k8 b (2 * j + 1))
  k32 : ∀ j, s.bit .k32 b j = (s.bit .k16 b (2 * j) && s.bit .k16 b (2 * j + 1))

theorem bit_lt {s : Kmem} {n : BlockSize} {b i : Nat} (h : s.bit n b i = true) : i < n.count := by
  have := Bitmap.bit_lt h
  cases n <;> exact this

/-! ## One bit at a time -/

@[simp] theorem bit_setLinks (s : Kmem) (n : BlockSize) (L : Links Nat) (m : BlockSize)
    (b i : Nat) :
    (s.setLinks n L).bit m b i = s.bit m b i := rfl

theorem bits_setBits (s : Kmem) (n : BlockSize) (b : Nat) (v : Bitmap n.width n.words)
    (m : BlockSize) (b' : Nat) (h : ¬ (m = n ∧ b' = b)) :
    (s.setBits n b v).bits m b' = s.bits m b' := by
  by_cases hm : m = n
  · subst hm
    have hb : b' ≠ b := fun he => h ⟨rfl, he⟩
    simp [setBits, Function.update_of_ne hb]
  · simp [setBits, Function.update_of_ne hm]

@[simp] theorem bits_setBits_self (s : Kmem) (n : BlockSize) (b : Nat)
    (v : Bitmap n.width n.words) : (s.setBits n b v).bits n b = v := by
  simp [setBits]

@[simp] theorem links_setBits (s : Kmem) (n : BlockSize) (b : Nat) (v : Bitmap n.width n.words) :
    (s.setBits n b v).links = s.links := rfl

theorem markAlloc_bits (s : Kmem) (n : BlockSize) (a : Nat) (v : BitVec n.width) (b : Nat) :
    (s.markAlloc n a v b).2.bits =
      (s.setBits n b ((s.bits n b).setWord a
        ((s.bits n b).word a &&& ~~~((s.bits n b).word a &&& v)))).bits := by
  unfold markAlloc
  dsimp only
  split <;> rfl

theorem markFree_bits (s : Kmem) (n : BlockSize) (a : Nat) (v : BitVec n.width) (b : Nat) :
    (s.markFree n a v b).bits =
      (s.setBits n b ((s.bits n b).setWord a ((s.bits n b).word a ||| v))).bits := by
  unfold markFree
  dsimp only
  split <;> rfl

theorem markAlloc_bit (s : Kmem) {n : BlockSize} {a k : Nat} (ha : a < n.words) (hk : k < n.width)
    (b : Nat) (m : BlockSize) (b' j : Nat) : (s.markAlloc n a (1#_ <<< k) b).2.bit m b' j =
      (s.bit m b' j && !decide (m = n ∧ b' = b ∧ j = a * n.width + k)) := by
  rw [bit, markAlloc_bits]
  by_cases h : m = n ∧ b' = b
  · obtain ⟨rfl, rfl⟩ := h
    rw [bits_setBits_self, Bitmap.bit_clear ha hk]
    simp [bit]
  · rw [bits_setBits _ _ _ _ _ _ h]
    have : ¬ (m = n ∧ b' = b ∧ j = a * n.width + k) := fun he => h ⟨he.1, he.2.1⟩
    simp [bit, this]

theorem markFree_bit (s : Kmem) {n : BlockSize} {a k : Nat} (ha : a < n.words) (hk : k < n.width)
    (b : Nat) (m : BlockSize) (b' j : Nat) : (s.markFree n a (1#_ <<< k) b).bit m b' j =
      (s.bit m b' j || decide (m = n ∧ b' = b ∧ j = a * n.width + k)) := by
  rw [bit, markFree_bits]
  by_cases h : m = n ∧ b' = b
  · obtain ⟨rfl, rfl⟩ := h
    rw [bits_setBits_self, Bitmap.bit_set ha hk]
    simp [bit]
  · rw [bits_setBits _ _ _ _ _ _ h]
    have : ¬ (m = n ∧ b' = b ∧ j = a * n.width + k) := fun he => h ⟨he.1, he.2.1⟩
    simp [bit, this]

theorem and_31 (i : Nat) : i &&& 0x1F = i % 32 := Nat.and_two_pow_sub_one_eq_mod i 5

theorem shiftRight_5 (i : Nat) : i >>> 5 = i / 32 := Nat.shiftRight_eq_div_pow i 5

theorem xor_one (i : Nat) : i ^^^ 1 = if i % 2 = 0 then i + 1 else i - 1 := by
  have hm : (i ^^^ 1) % 2 = 1 ↔ ¬ (i % 2 = 1 ↔ 1 % 2 = 1) := Nat.xor_mod_two_eq_one
  have hd : (i ^^^ 1) / 2 = i / 2 := by simp [Nat.xor_div_two]
  split <;> omega

section Members

variable (s : Kmem) (b : Nat) {i : Nat} (m : BlockSize) (b' j : Nat)

theorem markAllocK4_bit (h : i < 128) : (s.markAllocK4 b i).2.bit m b' j =
    (s.bit m b' j && !decide (m = .k4 ∧ b' = b ∧ j = i)) := by
  rw [markAllocK4, and_31, shiftRight_5,
    markAlloc_bit s (show _ < 4 by omega) (show _ < 32 by omega)]
  simp [BlockSize.width, Nat.div_add_mod']

theorem markFreeK4_bit (h : i < 128) : (s.markFreeK4 b i).bit m b' j =
    (s.bit m b' j || decide (m = .k4 ∧ b' = b ∧ j = i)) := by
  rw [markFreeK4, and_31, shiftRight_5, markFree_bit s (show _ < 4 by omega) (show _ < 32 by omega)]
  simp [BlockSize.width, Nat.div_add_mod']

theorem markAllocK8_bit (h : i < 64) : (s.markAllocK8 b i).2.bit m b' j =
    (s.bit m b' j && !decide (m = .k8 ∧ b' = b ∧ j = i)) := by
  rw [markAllocK8, and_31, shiftRight_5,
    markAlloc_bit s (show _ < 2 by omega) (show _ < 32 by omega)]
  simp [BlockSize.width, Nat.div_add_mod']

theorem markFreeK8_bit (h : i < 64) : (s.markFreeK8 b i).bit m b' j =
    (s.bit m b' j || decide (m = .k8 ∧ b' = b ∧ j = i)) := by
  rw [markFreeK8, and_31, shiftRight_5, markFree_bit s (show _ < 2 by omega) (show _ < 32 by omega)]
  simp [BlockSize.width, Nat.div_add_mod']

theorem markAllocK16_bit (h : i < 32) : (s.markAllocK16 b i).2.bit m b' j =
    (s.bit m b' j && !decide (m = .k16 ∧ b' = b ∧ j = i)) := by
  rw [markAllocK16, markAlloc_bit s (show 0 < 1 by omega) (show i < 32 from h)]
  simp

theorem markFreeK16_bit (h : i < 32) : (s.markFreeK16 b i).bit m b' j =
    (s.bit m b' j || decide (m = .k16 ∧ b' = b ∧ j = i)) := by
  rw [markFreeK16, markFree_bit s (show 0 < 1 by omega) (show i < 32 from h)]
  simp

theorem markAllocK32_bit (h : i < 16) : (s.markAllocK32 b i).2.bit m b' j =
    (s.bit m b' j && !decide (m = .k32 ∧ b' = b ∧ j = i)) := by
  rw [markAllocK32, markAlloc_bit s (show 0 < 1 by omega) (show i < 16 from h)]
  simp

theorem markFreeK32_bit (h : i < 16) : (s.markFreeK32 b i).bit m b' j =
    (s.bit m b' j || decide (m = .k32 ∧ b' = b ∧ j = i)) := by
  rw [markFreeK32, markFree_bit s (show 0 < 1 by omega) (show i < 16 from h)]
  simp

theorem markAlloc_fst (n : BlockSize) (a : Nat) (v : BitVec n.width) :
    (s.markAlloc n a v b).1 = (s.bits n b).word a &&& v := by
  unfold markAlloc
  dsimp only
  split <;> rfl

theorem markAllocK8_res : (s.markAllocK8 b i).1 ≠ 0 ↔ s.bit .k8 b i = true := by
  rw [markAllocK8, markAlloc_fst, and_31, shiftRight_5]
  have := Bitmap.word_and_bit_ne_zero (m := s.bits .k8 b) (a := i / 32) (k := i % 32)
    (show _ < 32 by omega)
  rwa [show i / 32 * BlockSize.width .k8 + i % 32 = i from Nat.div_add_mod' i 32] at this

theorem markAllocK16_res (h : i < 32) : (s.markAllocK16 b i).1 ≠ 0 ↔ s.bit .k16 b i = true := by
  rw [markAllocK16, markAlloc_fst]
  have := Bitmap.word_and_bit_ne_zero (m := s.bits .k16 b) (a := 0) (k := i) (show _ < 32 from h)
  rwa [Nat.zero_mul, Nat.zero_add] at this

end Members

/-! ## Whole operations -/

section Whole

variable {s : Kmem} {b : Nat} (hc : s.Coalesced b) {i : Nat} (m : BlockSize) (b' j : Nat)
include hc

theorem Coalesced.half_of_k16 (h : s.bit .k16 b (i >>> 1) = true) : s.bit .k8 b i = true := by
  have := hc.k16 (i >>> 1)
  have : i = 2 * (i >>> 1) ∨ i = 2 * (i >>> 1) + 1 := by omega
  grind

theorem Coalesced.half_of_k32 (h : s.bit .k32 b (i >>> 1) = true) : s.bit .k16 b i = true := by
  have := hc.k32 (i >>> 1)
  have : i = 2 * (i >>> 1) ∨ i = 2 * (i >>> 1) + 1 := by omega
  grind

theorem allocK4_bit (hi : i < 128) : (s.allocK4 b i).bit m b' j = true ↔
    s.bit m b' j = true ∧ ¬ (b' = b ∧ BlockSize.k4.Meets i m j) := by
  have h8 : i >>> 1 < 64 := by omega
  have h16 : i >>> 2 < 32 := by omega
  have h32 : i >>> 3 < 16 := by omega
  have u16 := hc.half_of_k16 (i := i >>> 1)
  have u32 := hc.half_of_k32 (i := i >>> 2)
  rw [← Nat.shiftRight_add] at u16 u32
  simp only [allocK4, ne_eq, markAllocK8_res, markAllocK16_res _ _ h16,
    markAllocK4_bit _ _ _ _ _ hi, markAllocK8_bit _ _ _ _ _ h8, reduceCtorEq, false_and,
    decide_false, Bool.not_false, Bool.and_true]
  split_ifs with h₁ h₂ <;> cases m <;>
    simp [markAllocK4_bit, markAllocK8_bit, markAllocK16_bit, markAllocK32_bit, hi, h8, h16, h32,
      BlockSize.Meets, BlockSize.order] <;> grind

theorem allocK8_bit (hi : i < 64) : (s.allocK8 b i).bit m b' j = true ↔
    s.bit m b' j = true ∧ ¬ (b' = b ∧ BlockSize.k8.Meets i m j) := by
  have u32 := hc.half_of_k32 (i := i / 2)
  simp only [Nat.shiftRight_eq_div_pow, Nat.div_div_eq_div_mul, Nat.reducePow, Nat.reduceMul] at u32
  have hr := markAllocK16_res (i := i / 2) (s := (((s.markAllocK4 b (i * 2)).2.markAllocK4 b
    (i * 2 + 1)).2.markAllocK8 b i).2) b (by omega)
  simp (disch := omega) only [markAllocK4_bit, markAllocK8_bit, reduceCtorEq, false_and,
    decide_false, Bool.not_false, Bool.and_true] at hr
  simp only [allocK8, Nat.add_zero, Nat.shiftLeft_eq, Nat.shiftRight_eq_div_pow, Nat.reducePow, hr]
  split_ifs with h₁ <;> cases m <;>
    simp (disch := omega) [markAllocK4_bit, markAllocK8_bit, markAllocK16_bit, markAllocK32_bit,
      BlockSize.Meets, BlockSize.order, Nat.shiftRight_eq_div_pow] <;> grind

omit hc in
theorem allocK16_bit (hi : i < 32) : (s.allocK16 b i).bit m b' j = true ↔
    s.bit m b' j = true ∧ ¬ (b' = b ∧ BlockSize.k16.Meets i m j) := by
  simp (disch := omega) only [allocK16, Nat.shiftLeft_eq, Nat.shiftRight_eq_div_pow, Nat.reducePow,
    markAllocK4_bit, markAllocK8_bit, markAllocK16_bit, markAllocK32_bit]
  cases m <;> simp [BlockSize.Meets, BlockSize.order, Nat.shiftRight_eq_div_pow] <;> grind

omit hc in
theorem allocK32_bit (hi : i < 16) : (s.allocK32 b i).bit m b' j = true ↔
    s.bit m b' j = true ∧ ¬ (b' = b ∧ BlockSize.k32.Meets i m j) := by
  have hr : List.range 8 = [0, 1, 2, 3, 4, 5, 6, 7] := rfl
  simp (disch := omega) only [allocK32, hr, List.foldl_cons, List.foldl_nil, Nat.shiftLeft_eq,
    Nat.reducePow, markAllocK4_bit, markAllocK8_bit, markAllocK16_bit, markAllocK32_bit]
  cases m <;> simp [BlockSize.Meets, BlockSize.order, Nat.shiftRight_eq_div_pow] <;> grind

/-- `alloc<N>` clears the bits of the blocks that meet its own, in every size. -/
theorem allocAt_bit {n : BlockSize} (hi : i < n.count) : (s.allocAt n b i).bit m b' j = true ↔
    s.bit m b' j = true ∧ ¬ (b' = b ∧ n.Meets i m j) := by
  cases n
  · exact allocK4_bit hc m b' j hi
  · exact allocK8_bit hc m b' j hi
  · exact allocK16_bit m b' j hi
  · exact allocK32_bit m b' j hi

/-- `alloc<N>` keeps the bitmaps coalesced. -/
theorem Coalesced.allocAt {n : BlockSize} (hi : i < n.count) (b' : Nat) (hc' : s.Coalesced b') :
    (s.allocAt n b i).Coalesced b' := by
  have h := fun m j => allocAt_bit hc m b' j hi
  constructor <;> intro j <;> rw [Bool.eq_iff_iff, Bool.and_eq_true, h, h, h]
  · rw [hc'.k8]
    cases n <;> simp [BlockSize.Meets, BlockSize.order, Nat.shiftRight_eq_div_pow] <;> grind
  · rw [hc'.k16]
    cases n <;> simp [BlockSize.Meets, BlockSize.order, Nat.shiftRight_eq_div_pow] <;> grind
  · rw [hc'.k32]
    cases n <;> simp [BlockSize.Meets, BlockSize.order, Nat.shiftRight_eq_div_pow] <;> grind

end Whole

theorem testK4 (s : Kmem) (b i : Nat) :
    (s.bits .k4 b).word (i >>> 5) &&& 1#_ <<< (i &&& 0x1F) ≠ 0 ↔ s.bit .k4 b i = true := by
  rw [and_31, shiftRight_5]
  have := Bitmap.word_and_bit_ne_zero (m := s.bits .k4 b) (a := i / 32) (k := i % 32)
    (show _ < 32 by omega)
  rwa [show i / 32 * BlockSize.width .k4 + i % 32 = i from Nat.div_add_mod' i 32] at this

theorem testK8 (s : Kmem) (b i : Nat) :
    (s.bits .k8 b).word (i >>> 5) &&& 1#_ <<< (i &&& 0x1F) ≠ 0 ↔ s.bit .k8 b i = true := by
  rw [and_31, shiftRight_5]
  have := Bitmap.word_and_bit_ne_zero (m := s.bits .k8 b) (a := i / 32) (k := i % 32)
    (show _ < 32 by omega)
  rwa [show i / 32 * BlockSize.width .k8 + i % 32 = i from Nat.div_add_mod' i 32] at this

theorem testK16 (s : Kmem) (b : Nat) {i : Nat} (h : i < 32) :
    (s.bits .k16 b).word 0 &&& 1#_ <<< i ≠ 0 ↔ s.bit .k16 b i = true := by
  have := Bitmap.word_and_bit_ne_zero (m := s.bits .k16 b) (a := 0) (k := i) (show _ < 32 from h)
  rwa [Nat.zero_mul, Nat.zero_add] at this

theorem xor_one_lt {i c : Nat} (h : i < 2 * c) : i ^^^ 1 < 2 * c := by
  rw [xor_one]
  split <;> omega

theorem xor_one_shiftRight (i : Nat) : (i ^^^ 1) >>> 1 = i / 2 := by
  rw [xor_one, Nat.shiftRight_eq_div_pow]
  split <;> omega

theorem xor_one_ne (i : Nat) : i ^^^ 1 ≠ i := by
  rw [xor_one]
  split <;> omega

section Free

variable (s : Kmem) (b : Nat) {i : Nat} (m : BlockSize) (b' j : Nat)

theorem freeUpK32_bit (hi : i < 16) : (s.freeUpK32 b i).bit m b' j = true ↔
    s.bit m b' j = true ∨ b' = b ∧ m = .k32 ∧ j = i := by
  rw [freeUpK32, markFreeK32_bit _ _ _ _ _ hi]
  simp
  tauto

theorem freeUpK16_bit (hi : i < 32) : (s.freeUpK16 b i).bit m b' j = true ↔
    s.bit m b' j = true ∨ b' = b ∧ (m = .k16 ∧ j = i ∨
      m = .k32 ∧ j = i / 2 ∧ s.bit .k16 b (i ^^^ 1) = true) := by
  have hx : i ^^^ 1 < 32 := xor_one_lt (c := 16) hi
  have hne := xor_one_ne i
  simp only [freeUpK16, testK16 _ _ hx, xor_one_shiftRight]
  split_ifs with h <;> simp [freeUpK32_bit _ _ _ _ _ (show i / 2 < 16 by omega),
    markFreeK16_bit, hi, hne] at h ⊢ <;> grind

theorem freeUpK8_bit (hi : i < 64) : (s.freeUpK8 b i).bit m b' j = true ↔
    s.bit m b' j = true ∨ b' = b ∧ (m = .k8 ∧ j = i ∨ s.bit .k8 b (i ^^^ 1) = true ∧
      (m = .k16 ∧ j = i / 2 ∨ m = .k32 ∧ j = i / 4 ∧ s.bit .k16 b (i / 2 ^^^ 1) = true)) := by
  have hne := xor_one_ne i
  simp only [freeUpK8, testK8, xor_one_shiftRight]
  split_ifs with h <;> simp [freeUpK16_bit _ _ _ _ _ (show i / 2 < 32 by omega),
    markFreeK8_bit, hi, hne, Nat.div_div_eq_div_mul] at h ⊢ <;> grind

theorem freeUpK4_bit (hi : i < 128) : (s.freeUpK4 b i).bit m b' j = true ↔
    s.bit m b' j = true ∨ b' = b ∧ (m = .k4 ∧ j = i ∨ s.bit .k4 b (i ^^^ 1) = true ∧
      (m = .k8 ∧ j = i / 2 ∨ s.bit .k8 b (i / 2 ^^^ 1) = true ∧
        (m = .k16 ∧ j = i / 4 ∨ m = .k32 ∧ j = i / 8 ∧ s.bit .k16 b (i / 4 ^^^ 1) = true))) := by
  have hne := xor_one_ne i
  simp only [freeUpK4, testK4, xor_one_shiftRight]
  split_ifs with h <;> simp [freeUpK8_bit _ _ _ _ _ (show i / 2 < 64 by omega),
    markFreeK4_bit, hi, hne, Nat.div_div_eq_div_mul] at h ⊢ <;> grind

theorem freeDownK8_bit (hi : i < 64) : (s.freeDownK8 b i).bit m b' j = true ↔
    s.bit m b' j = true ∨ b' = b ∧ m = .k4 ∧ j / 2 = i := by
  have hx : (i * 2) ^^^ 1 = i * 2 + 1 := by
    rw [xor_one, if_pos (by omega)]
  simp (disch := omega) only [freeDownK8, Nat.shiftLeft_eq, Nat.pow_one, hx, markFreeK4_bit]
  cases m
  all_goals simp
  all_goals grind

theorem freeDownK16_bit (hi : i < 32) : (s.freeDownK16 b i).bit m b' j = true ↔
    s.bit m b' j = true ∨ b' = b ∧ (m = .k8 ∧ j / 2 = i ∨ m = .k4 ∧ j / 4 = i) := by
  have hx : (i * 2) ^^^ 1 = i * 2 + 1 := by
    rw [xor_one, if_pos (by omega)]
  simp only [freeDownK16, Nat.shiftLeft_eq, Nat.pow_one, hx]
  simp (disch := omega) only [freeDownK8_bit, markFreeK8_bit, Bool.or_eq_true]
  cases m <;> simp <;> grind

theorem freeDownK32_bit (hi : i < 16) : (s.freeDownK32 b i).bit m b' j = true ↔
    s.bit m b' j = true ∨
      b' = b ∧ (m = .k16 ∧ j / 2 = i ∨ m = .k8 ∧ j / 4 = i ∨ m = .k4 ∧ j / 8 = i) := by
  have hx : (i * 2) ^^^ 1 = i * 2 + 1 := by
    rw [xor_one, if_pos (by omega)]
  simp only [freeDownK32, Nat.shiftLeft_eq, Nat.pow_one, hx]
  simp (disch := omega) only [freeDownK16_bit, markFreeK16_bit, Bool.or_eq_true]
  cases m <;> simp <;> grind

/-- `free<N>` sets the `k4` bits of its block and no other `k4` bit. -/
theorem free_k4_bit {n : BlockSize} (hi : i < n.count) : (s.free n b i).bit .k4 b' j = true ↔
    s.bit .k4 b' j = true ∨ b' = b ∧ j >>> n.order = i := by
  rw [Nat.shiftRight_eq_div_pow]
  cases n
  · simp [free, freeUp, freeDown, freeUpK4_bit _ _ _ _ _ hi, BlockSize.order]
  · simp [free, freeUp, freeDown, freeDownK8_bit _ _ _ _ _ hi, freeUpK8_bit _ _ _ _ _ hi,
      BlockSize.order]
  · simp [free, freeUp, freeDown, freeDownK16_bit _ _ _ _ _ hi, freeUpK16_bit _ _ _ _ _ hi,
      BlockSize.order]
  · simp [free, freeUp, freeDown, freeDownK32_bit _ _ _ _ _ hi, freeUpK32_bit _ _ _ _ _ hi,
      BlockSize.order]

end Free

section Coalesce

variable {f g : Nat → Bool} (h : ∀ j, f j = (g (2 * j) && g (2 * j + 1)))
include h

/-- Setting bit `i` of the smaller size, and the bit above it if the other half is set. -/
theorem coalesce_up (c : Prop) (i j : Nat) :
    (f j = true ∨ c ∧ j = i / 2 ∧ g (i ^^^ 1) = true) ↔
      (g (2 * j) = true ∨ c ∧ 2 * j = i) ∧ (g (2 * j + 1) = true ∨ c ∧ 2 * j + 1 = i) := by
  have hx := xor_one i
  generalize i ^^^ 1 = p at *
  rw [h]
  grind

/-- Setting the bits of both sizes in block `i`, which is `d` bits of the larger one. -/
theorem coalesce_down (c : Prop) (d i j : Nat) : (f j = true ∨ c ∧ j / d = i) ↔
    (g (2 * j) = true ∨ c ∧ 2 * j / (2 * d) = i) ∧
      (g (2 * j + 1) = true ∨ c ∧ (2 * j + 1) / (2 * d) = i) := by
  have hl : 2 * j / (2 * d) = j / d := Nat.mul_div_mul_left j d (by omega)
  have hr : (2 * j + 1) / (2 * d) = j / d := by
    rw [← Nat.div_div_eq_div_mul]
    congr 1
    omega
  rw [h, hl, hr]
  grind

end Coalesce

/-- `free<N>` keeps the bitmaps coalesced. -/
theorem Coalesced.free {s : Kmem} {n : BlockSize} {i : Nat} (hi : i < n.count) (b b' : Nat)
    (hc : s.Coalesced b') : (s.free n b i).Coalesced b' := by
  have half : i / 2 / 2 = i / 4 ∧ i / 4 / 2 = i / 8 := by omega
  cases n <;> constructor <;> intro j <;> rw [Bool.eq_iff_iff, Bool.and_eq_true] <;>
    simp only [Kmem.free, freeUp, freeDown]
  · simp only [freeUpK4_bit _ _ _ _ _ hi]
    grind [coalesce_up hc.k8 (b' = b) i j]
  · simp only [freeUpK4_bit _ _ _ _ _ hi]
    grind [coalesce_up hc.k16 (b' = b ∧ s.bit .k4 b (i ^^^ 1)) (i / 2) j]
  · simp only [freeUpK4_bit _ _ _ _ _ hi]
    grind [coalesce_up hc.k32 (b' = b ∧ s.bit .k4 b (i ^^^ 1) ∧ s.bit .k8 b (i / 2 ^^^ 1))
      (i / 4) j]
  · simp only [freeDownK8_bit _ _ _ _ _ hi, freeUpK8_bit _ _ _ _ _ hi]
    grind [coalesce_down hc.k8 (b' = b) 1 i j]
  · simp only [freeDownK8_bit _ _ _ _ _ hi, freeUpK8_bit _ _ _ _ _ hi]
    grind [coalesce_up hc.k16 (b' = b) i j]
  · simp only [freeDownK8_bit _ _ _ _ _ hi, freeUpK8_bit _ _ _ _ _ hi]
    grind [coalesce_up hc.k32 (b' = b ∧ s.bit .k8 b (i ^^^ 1)) (i / 2) j]
  · simp only [freeDownK16_bit _ _ _ _ _ hi, freeUpK16_bit _ _ _ _ _ hi]
    grind [coalesce_down hc.k8 (b' = b) 2 i j]
  · simp only [freeDownK16_bit _ _ _ _ _ hi, freeUpK16_bit _ _ _ _ _ hi]
    grind [coalesce_down hc.k16 (b' = b) 1 i j]
  · simp only [freeDownK16_bit _ _ _ _ _ hi, freeUpK16_bit _ _ _ _ _ hi]
    grind [coalesce_up hc.k32 (b' = b) i j]
  · simp only [freeDownK32_bit _ _ _ _ _ hi, freeUpK32_bit _ _ _ _ _ hi]
    grind [coalesce_down hc.k8 (b' = b) 4 i j]
  · simp only [freeDownK32_bit _ _ _ _ _ hi, freeUpK32_bit _ _ _ _ _ hi]
    grind [coalesce_down hc.k16 (b' = b) 2 i j]
  · simp only [freeDownK32_bit _ _ _ _ _ hi, freeUpK32_bit _ _ _ _ _ hi]
    grind [coalesce_down hc.k32 (b' = b) 1 i j]

end Kmem

end TinyLittleOs.Memory
