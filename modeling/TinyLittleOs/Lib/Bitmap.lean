import Mathlib.Data.List.Basic
import Mathlib.Tactic.Ring

/-!
# Bitmaps kept in machine words

A bitmap is `c` words of `w` bits; bit `i` is bit `i % w` of word `i / w`. The
operations act on one word with a mask, as the machine does. Their lemmas speak of
single bits, so that users of a bitmap never see the words.
-/

namespace TinyLittleOs.Lib

abbrev Bitmap (w c : Nat) := Vector (BitVec w) c

namespace Bitmap

variable {w c : Nat}

/-- Word `a`; an index outside the bitmap reads as zero. -/
def word (m : Bitmap w c) (a : Nat) : BitVec w := m[a]?.getD 0

def setWord (m : Bitmap w c) (a : Nat) (v : BitVec w) : Bitmap w c := m.setIfInBounds a v

def bit (m : Bitmap w c) (i : Nat) : Bool := (m.word (i / w)).getLsbD (i % w)

def isZero (m : Bitmap w c) : Bool := (List.range c).all fun a => m.word a == 0

/-- The index of the first word that is not zero. -/
def firstWord (m : Bitmap w c) : Option Nat := (List.range c).find? fun a => m.word a != 0

/-- Every word all ones. -/
def ones (w c : Nat) : Bitmap w c := Vector.replicate c (BitVec.allOnes w)

theorem word_setWord (m : Bitmap w c) (a b : Nat) (v : BitVec w) :
    (m.setWord a v).word b = if a = b ∧ a < c then v else m.word b := by
  unfold word setWord
  rw [Vector.getElem?_setIfInBounds]
  by_cases hab : a = b
  · by_cases hc : a < c
    · simp [hab, hab ▸ hc]
    · subst hab
      simp [hc]
  · simp [hab]

theorem bit_lt {m : Bitmap w c} {i : Nat} (h : m.bit i = true) : i < c * w := by
  have hw : i % w < w := BitVec.lt_of_getLsbD h
  have hc : i / w < c := by
    by_contra hc
    simp [bit, word, hc] at h
  calc i = w * (i / w) + i % w := (Nat.div_add_mod i w).symm
    _ < w * (i / w) + w := by omega
    _ = (i / w + 1) * w := by ring
    _ ≤ c * w := Nat.mul_le_mul_right w hc

theorem getLsbD_word {m : Bitmap w c} {a k : Nat} (hk : k < w) :
    (m.word a).getLsbD k = m.bit (a * w + k) := by
  have hd : (a * w + k) / w = a := by
    rw [Nat.mul_comm, Nat.mul_add_div (by omega), Nat.div_eq_of_lt hk, Nat.add_zero]
  have hm : (a * w + k) % w = k := by
    rw [Nat.mul_comm, Nat.mul_add_mod, Nat.mod_eq_of_lt hk]
  rw [bit, hd, hm]

theorem word_eq_zero_iff {m : Bitmap w c} {a : Nat} :
    m.word a = 0 ↔ ∀ k < w, m.bit (a * w + k) = false := by
  constructor
  · intro h k hk
    simp [← getLsbD_word hk, h]
  · intro h
    apply BitVec.eq_of_getLsbD_eq
    intro k hk
    simp [getLsbD_word hk, h k hk]

theorem isZero_iff {m : Bitmap w c} : m.isZero = true ↔ ∀ i, m.bit i = false := by
  simp only [isZero, List.all_eq_true, List.mem_range, beq_iff_eq]
  constructor
  · intro h i
    by_contra hb
    have hb : m.bit i = true := by simpa using hb
    have hc : i / w < c := by
      have := bit_lt hb
      exact Nat.div_lt_of_lt_mul (by rwa [Nat.mul_comm])
    simp [bit, h _ hc] at hb
  · intro h a _
    exact word_eq_zero_iff.2 fun k _ => h _

theorem isZero_eq_false_iff {m : Bitmap w c} : m.isZero = false ↔ ∃ i, m.bit i = true := by
  rw [← Bool.not_eq_true, isZero_iff]
  simp

theorem getLsbD_one_shiftLeft {k : Nat} (hk : k < w) (j : Nat) :
    (1#w <<< k).getLsbD j = decide (j = k) := by
  rw [BitVec.getLsbD_shiftLeft, Bool.eq_iff_iff]
  simp only [BitVec.getLsbD_one, Bool.and_eq_true, decide_eq_true_eq, Bool.not_eq_true',
    decide_eq_false_iff_not]
  omega

/-- Masking a word with one bit tells whether that bit is set. -/
theorem and_bit_ne_zero {x : BitVec w} {k : Nat} (hk : k < w) :
    x &&& 1#w <<< k ≠ 0 ↔ x.getLsbD k = true := by
  have hand (j : Nat) : (x &&& 1#w <<< k).getLsbD j = (x.getLsbD j && decide (j = k)) := by
    rw [BitVec.getLsbD_and, getLsbD_one_shiftLeft hk]
  constructor
  · intro h
    by_contra hb
    apply h
    apply BitVec.eq_of_getLsbD_eq
    intro j _
    rw [hand]
    by_cases hjk : j = k
    · subst hjk
      simpa using hb
    · simp [hjk]
  · intro h h0
    have := hand k
    rw [h0] at this
    simp [h] at this

theorem word_and_bit_ne_zero {m : Bitmap w c} {a k : Nat} (hk : k < w) :
    m.word a &&& 1#w <<< k ≠ 0 ↔ m.bit (a * w + k) = true := by
  rw [and_bit_ne_zero hk, getLsbD_word hk]

private theorem bit_setWord {m : Bitmap w c} {a : Nat} (ha : a < c) (v : BitVec w) (i : Nat) :
    (m.setWord a v).bit i = if i / w = a then v.getLsbD (i % w) else m.bit i := by
  by_cases hi : i / w = a
  · simp [bit, word_setWord, hi, ha]
  · have : ¬ a = i / w := fun h => hi h.symm
    simp [bit, word_setWord, hi, this]

private theorem eq_mul_add_iff {a k i : Nat} (hk : k < w) :
    i = a * w + k ↔ i / w = a ∧ i % w = k := by
  constructor
  · rintro rfl
    refine ⟨?_, ?_⟩
    · rw [Nat.mul_comm, Nat.mul_add_div (by omega), Nat.div_eq_of_lt hk, Nat.add_zero]
    · rw [Nat.mul_comm, Nat.mul_add_mod, Nat.mod_eq_of_lt hk]
  · rintro ⟨rfl, rfl⟩
    rw [Nat.mul_comm]
    exact (Nat.div_add_mod i w).symm

/-- Clearing the bits of `word a &&& bit` clears that one bit. -/
theorem bit_clear {m : Bitmap w c} {a k : Nat} (ha : a < c) (hk : k < w) (i : Nat) :
    (m.setWord a (m.word a &&& ~~~(m.word a &&& 1#w <<< k))).bit i =
      (m.bit i && !decide (i = a * w + k)) := by
  have hw : i % w < w := Nat.mod_lt i (by omega)
  rw [bit_setWord ha]
  simp only [eq_mul_add_iff hk, bit]
  by_cases hi : i / w = a
  · rw [if_pos hi, hi, BitVec.getLsbD_and, BitVec.getLsbD_not, BitVec.getLsbD_and,
      getLsbD_one_shiftLeft hk, decide_eq_true hw]
    cases (m.word a).getLsbD (i % w) <;> simp
  · simp [hi]

/-- Setting a mask of one bit sets that bit. -/
theorem bit_set {m : Bitmap w c} {a k : Nat} (ha : a < c) (hk : k < w) (i : Nat) :
    (m.setWord a (m.word a ||| 1#w <<< k)).bit i = (m.bit i || decide (i = a * w + k)) := by
  rw [bit_setWord ha]
  simp only [eq_mul_add_iff hk, bit]
  by_cases hi : i / w = a
  · rw [if_pos hi, BitVec.getLsbD_or, getLsbD_one_shiftLeft hk, hi]
    simp
  · simp [hi]

@[simp] theorem bit_ones (i : Nat) : (ones w c).bit i = decide (i < c * w) := by
  by_cases hc : i / w < c ∧ 0 < w
  · have hm : i % w < w := Nat.mod_lt i hc.2
    have hi : i < c * w := (Nat.div_lt_iff_lt_mul hc.2).1 hc.1
    simp [bit, word, ones, hc.1, hm, hi]
  · have hi : ¬ i < c * w := by
      intro hi
      have hw : 0 < w := Nat.pos_of_mul_pos_left (Nat.zero_lt_of_lt hi)
      exact hc ⟨(Nat.div_lt_iff_lt_mul hw).2 hi, hw⟩
    rw [decide_eq_false hi]
    by_contra hb
    exact hi (bit_lt (by simpa using hb))

theorem firstWord_eq_some {m : Bitmap w c} {a : Nat} (h : m.firstWord = some a) :
    a < c ∧ m.word a ≠ 0 ∧ ∀ b < a, m.word b = 0 := by
  have h := h
  rw [firstWord, List.find?_range_eq_some] at h
  obtain ⟨hp, ha, hb⟩ := h
  exact ⟨by simpa using ha, by simpa using hp, fun b hba => by simpa using hb b hba⟩

theorem firstWord_eq_none {m : Bitmap w c} : m.firstWord = none ↔ m.isZero = true := by
  simp [firstWord, isZero]

/-- The lowest set bit of the first nonzero word is the lowest set bit of all. -/
theorem bit_lowest {m : Bitmap w c} {a : Nat} (h : m.firstWord = some a) :
    m.bit (a * w + (m.word a).ctz.toNat) = true ∧
      ∀ j < a * w + (m.word a).ctz.toNat, m.bit j = false := by
  obtain ⟨-, hne, hzero⟩ := firstWord_eq_some h
  have hk : (m.word a).ctz.toNat < w := by
    simpa [BitVec.lt_def] using BitVec.ctz_lt_iff_ne_zero.2 hne
  refine ⟨by rw [← getLsbD_word hk, BitVec.getLsbD_true_ctz_of_ne_zero hne], fun j hj => ?_⟩
  have hj' : j = j / w * w + j % w := (Nat.div_add_mod' j w).symm
  have hjw : j % w < w := Nat.mod_lt j (by omega)
  by_cases hja : j / w = a
  · have hlow : j % w < (m.word a).ctz.toNat := by
      rw [hj', hja] at hj
      omega
    rw [hj', hja, ← getLsbD_word hjw]
    exact BitVec.getLsbD_false_of_lt_ctz hlow
  · have hlt : j / w < a := by
      refine Nat.lt_of_le_of_ne ?_ hja
      exact Nat.lt_succ_iff.1 (Nat.div_lt_of_lt_mul (by rw [Nat.mul_succ, Nat.mul_comm]; omega))
    rw [hj', ← getLsbD_word hjw, hzero _ hlt]
    simp

theorem ext_bit {m m' : Bitmap w c} (h : ∀ i, m.bit i = m'.bit i) : m = m' := by
  refine Vector.ext fun a ha => ?_
  have hword (m : Bitmap w c) : m.word a = m[a] := by simp [word, ha]
  rw [← hword m, ← hword m']
  refine BitVec.eq_of_getLsbD_eq fun k hk => ?_
  rw [getLsbD_word hk, getLsbD_word hk, h]

end Bitmap

end TinyLittleOs.Lib
