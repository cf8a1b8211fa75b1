import TinyLittleOs.Lib.ByteMem
import TinyLittleOs.Lib.Bitmap

/-!
# Bit sets

`ds::bitset<bits>` of `bitset.hpp`, an array of 32-bit words at an address in memory. The
operations index the array without a bound, so that an index of a multiple of 32 may reach the
word behind it.
-/

namespace TinyLittleOs.Ds.Bitset

open Lib

/-- `int_count` -/
def intCount (bits : Nat) : Nat := (bits + 31) / 32

variable (m : ByteMem) (a : Nat)

/-- `m_set[i]` of the set at `a`. -/
def word (i : Nat) : BitVec 32 := BitVec.ofNat 32 (m.load32 (a + 4 * i))

def setWord (i : Nat) (v : BitVec 32) : ByteMem := m.store32 (a + 4 * i) v.toNat

/-- `set_bit` -/
def setBit (index : Nat) : ByteMem :=
  setWord m a (index >>> 5) (word m a (index >>> 5) ||| 1#32 <<< (index &&& 0x1F))

/-- `clear_bit` -/
def clearBit (index : Nat) : ByteMem :=
  setWord m a (index >>> 5) (word m a (index >>> 5) &&& ~~~(1#32 <<< (index &&& 0x1F)))

/-- `find_bit`: the lowest set bit, or -1. -/
def findBit (bits : Nat) : Nat :=
  match (List.range (intCount bits)).find? fun i => word m a i ≠ 0 with
  | some i => i <<< 5 + (word m a i).ctz.toNat
  | none => 0xFFFFFFFF

/-- `clear_all` -/
def clearAll (bits : Nat) : ByteMem :=
  (List.range (intCount bits)).foldl (fun m i => setWord m a i 0) m

/-- `set_all_until` -/
def setAllUntil (index : Nat) : ByteMem :=
  let m := (List.range (index >>> 5)).foldl (fun m i => setWord m a i 0xFFFFFFFF#32) m
  setWord m a (index >>> 5) (1#32 <<< (index &&& 0x1F) - 1#32)

/-- `all_clear_until` -/
def allClearUntil (index : Nat) : Bool :=
  if (List.range (index >>> 5)).any fun i => word m a i ≠ 0 then
    false
  else
    word m a (index >>> 5) &&& (1#32 <<< (index &&& 0x1F) - 1#32) = 0

/-! ## Single bits -/

/-- Bit `i` of the set. -/
def bit (i : Nat) : Bool := (word m a (i / 32)).getLsbD (i % 32)

variable {m a}

theorem word_setWord (i j : Nat) (v : BitVec 32) :
    word (setWord m a i v) a j = if j = i then v else word m a j := by
  rw [word, setWord]
  split_ifs with h
  · rw [h, ByteMem.load32_store32 v.isLt, BitVec.ofNat_toNat, BitVec.setWidth_eq]
  · rw [ByteMem.load32_store32_of_apart (by omega), word]

theorem bit_setWord (k i : Nat) (v : BitVec 32) :
    bit (setWord m a k v) a i = if i / 32 = k then v.getLsbD (i % 32) else bit m a i := by
  rw [bit, word_setWord]
  split_ifs <;> rfl

/-- A set depends on its own words only. -/
theorem word_congr {m' : ByteMem} {c i : Nat} (hi : i < c)
    (h : ∀ x, a ≤ x → x < a + 4 * c → m' x = m x) : word m' a i = word m a i := by
  rw [word, ByteMem.load32_congr fun x hx hx' => h x (by omega) (by omega), word]

theorem bit_congr {m' : ByteMem} {c i : Nat} (hi : i < 32 * c)
    (h : ∀ x, a ≤ x → x < a + 4 * c → m' x = m x) : bit m' a i = bit m a i := by
  rw [bit, bit, word_congr (by omega : i / 32 < c) h]

theorem setWord_of_out {i x : Nat} {v : BitVec 32} (h : x < a + 4 * i ∨ a + 4 * i + 4 ≤ x) :
    setWord m a i v x = m x :=
  ByteMem.store32_of_out h

theorem shiftRight_five (i : Nat) : i >>> 5 = i / 32 := by
  simp [Nat.shiftRight_eq_div_pow]

theorem and_mask (i : Nat) : i &&& 0x1F = i % 32 :=
  Nat.and_two_pow_sub_one_eq_mod i 5

theorem mod_eq_iff {i k : Nat} (h : i / 32 = k / 32) : i % 32 = k % 32 ↔ i = k := by
  omega

theorem bit_setBit (k i : Nat) : bit (setBit m a k) a i = (bit m a i || decide (i = k)) := by
  have hk : k % 32 < 32 := Nat.mod_lt k (by norm_num)
  rw [setBit, shiftRight_five, and_mask, bit_setWord]
  split_ifs with h
  · rw [BitVec.getLsbD_or, Bitmap.getLsbD_one_shiftLeft hk, bit, h]
    rw [decide_eq_decide.2 (mod_eq_iff h)]
  · have hne : i ≠ k := fun he => h (by rw [he])
    simp [hne]

theorem bit_clearBit (k i : Nat) : bit (clearBit m a k) a i = (bit m a i && !decide (i = k)) := by
  have hk : k % 32 < 32 := Nat.mod_lt k (by norm_num)
  have hi : i % 32 < 32 := Nat.mod_lt i (by norm_num)
  rw [clearBit, shiftRight_five, and_mask, bit_setWord]
  split_ifs with h
  · rw [BitVec.getLsbD_and, BitVec.getLsbD_not, Bitmap.getLsbD_one_shiftLeft hk, bit, h,
      decide_eq_true hi, Bool.true_and]
    rw [decide_eq_decide.2 (mod_eq_iff h)]
  · have hne : i ≠ k := fun he => h (by rw [he])
    simp [hne]

theorem setBit_of_out {k x : Nat} (h : x < a + 4 * (k / 32) ∨ a + 4 * (k / 32) + 4 ≤ x) :
    setBit m a k x = m x := by
  rw [setBit, shiftRight_five]
  exact setWord_of_out h

theorem clearBit_of_out {k x : Nat} (h : x < a + 4 * (k / 32) ∨ a + 4 * (k / 32) + 4 ≤ x) :
    clearBit m a k x = m x := by
  rw [clearBit, shiftRight_five]
  exact setWord_of_out h

/-! ## Whole sets -/

theorem bit_mul_add {k j : Nat} (hj : j < 32) : bit m a (32 * k + j) = (word m a k).getLsbD j := by
  rw [bit, (by omega : (32 * k + j) / 32 = k), (by omega : (32 * k + j) % 32 = j)]

theorem word_eq_zero_iff {k : Nat} : word m a k = 0 ↔ ∀ i, i / 32 = k → bit m a i = false := by
  constructor
  · rintro h i rfl
    rw [bit, h]
    exact BitVec.getLsbD_zero
  · intro h
    refine BitVec.eq_of_getLsbD_eq fun j hj => ?_
    have hbit := h (32 * k + j) (by omega)
    rw [bit_mul_add hj] at hbit
    simp [hbit]

/-- A set bit is found if there is one. -/
theorem findBit_spec (bits : Nat) {i : Nat} (hi : i < 32 * intCount bits)
    (hbit : bit m a i = true) :
    findBit m a bits < 32 * intCount bits ∧ bit m a (findBit m a bits) = true := by
  have hne : word m a (i / 32) ≠ 0 := by
    intro h
    simp [word_eq_zero_iff.1 h i rfl] at hbit
  rw [findBit]
  cases hfind : (List.range (intCount bits)).find? fun i => word m a i ≠ 0 with
  | none =>
    have hmem : i / 32 ∈ List.range (intCount bits) := List.mem_range.2 (by omega)
    exact absurd hne (by simpa using List.find?_eq_none.1 hfind _ hmem)
  | some k =>
    have hk : k < intCount bits := List.mem_range.1 (List.mem_of_find?_eq_some hfind)
    have hword : word m a k ≠ 0 := by simpa using List.find?_some hfind
    have hctz : (word m a k).ctz.toNat < 32 := by
      simpa [BitVec.lt_def] using BitVec.ctz_lt_iff_ne_zero.2 hword
    have hshift : k <<< 5 = 32 * k := by rw [Nat.shiftLeft_eq, Nat.mul_comm]
    dsimp only
    rw [hshift]
    refine ⟨by omega, ?_⟩
    rw [bit_mul_add hctz]
    exact BitVec.getLsbD_true_ctz_of_ne_zero hword

/-- The loops of `clear_all` and `set_all_until`. -/
theorem bit_foldl (v : BitVec 32) (n i : Nat) :
    bit ((List.range n).foldl (fun m j => setWord m a j v) m) a i =
      if i / 32 < n then v.getLsbD (i % 32) else bit m a i := by
  induction n with
  | zero => simp
  | succ n ih =>
    rw [List.range_succ, List.foldl_append, List.foldl_cons, List.foldl_nil, bit_setWord, ih]
    split_ifs <;> first | rfl | omega

theorem foldl_of_out (v : BitVec 32) (n : Nat) {x : Nat} (h : x < a ∨ a + 4 * n ≤ x) :
    (List.range n).foldl (fun m j => setWord m a j v) m x = m x := by
  induction n with
  | zero => simp
  | succ n ih =>
    rw [List.range_succ, List.foldl_append, List.foldl_cons, List.foldl_nil,
      setWord_of_out (by omega), ih (by omega)]

theorem bit_clearAll {bits i : Nat} (hi : i < 32 * intCount bits) :
    bit (clearAll m a bits) a i = false := by
  rw [clearAll, bit_foldl, if_pos (by omega)]
  exact BitVec.getLsbD_zero

theorem clearAll_of_out {bits x : Nat} (h : x < a ∨ a + 4 * intCount bits ≤ x) :
    clearAll m a bits x = m x :=
  foldl_of_out 0 _ h

/-- The low `k` bits. -/
theorem getLsbD_mask {k : Nat} (hk : k < 32) (i : Nat) :
    (1#32 <<< k - 1#32).getLsbD i = decide (i < k) := by
  have hpow : 2 ^ k < 2 ^ 32 := Nat.pow_lt_pow_right (by norm_num) hk
  have hpos : 0 < 2 ^ k := Nat.two_pow_pos k
  have hmask : (1#32 <<< k - 1#32).toNat = 2 ^ k - 1 := by
    rw [BitVec.toNat_sub, BitVec.toNat_shiftLeft, BitVec.toNat_ofNat, Nat.shiftLeft_eq]
    rw [Nat.mod_eq_of_lt (by norm_num : (1 : Nat) < 2 ^ 32), Nat.one_mul, Nat.mod_eq_of_lt hpow]
    omega
  rw [BitVec.getLsbD, hmask, Nat.testBit_two_pow_sub_one]

/-- Behind a cleared set the words from `index` on stay clear. -/
theorem bit_setAllUntil (n i : Nat) (hi : i / 32 ≤ n / 32) :
    bit (setAllUntil m a n) a i = decide (i < n) := by
  have hmod : i % 32 < 32 := Nat.mod_lt i (by norm_num)
  rw [setAllUntil, shiftRight_five, and_mask]
  rw [bit_setWord, bit_foldl]
  split_ifs with h h'
  · rw [getLsbD_mask (Nat.mod_lt n (by norm_num))]
    congr 1
    rw [eq_iff_iff]
    omega
  · rw [(by decide : 0xFFFFFFFF#32 = BitVec.allOnes 32), BitVec.getLsbD_allOnes]
    congr 1
    rw [eq_iff_iff]
    omega
  · omega

theorem bit_setAllUntil_above (n i : Nat) (hi : n / 32 < i / 32) :
    bit (setAllUntil m a n) a i = bit m a i := by
  rw [setAllUntil, shiftRight_five]
  rw [bit_setWord, bit_foldl, if_neg (by omega), if_neg (by omega)]

theorem setAllUntil_of_out {n x : Nat} (h : x < a ∨ a + 4 * (n / 32 + 1) ≤ x) :
    setAllUntil m a n x = m x := by
  rw [setAllUntil, shiftRight_five]
  rw [setWord_of_out (by omega), foldl_of_out _ _ (by omega)]

theorem allClearUntil_iff {n : Nat} :
    allClearUntil m a n = true ↔ ∀ i < n, bit m a i = false := by
  have hmask (k : Nat) : word m a k &&& (1#32 <<< (n % 32) - 1#32) = 0 ↔
      ∀ j < n % 32, bit m a (32 * k + j) = false := by
    have hn : n % 32 < 32 := Nat.mod_lt n (by norm_num)
    constructor
    · intro h j hj
      have hj' := congrArg (fun w => w.getLsbD j) h
      simp only [BitVec.getLsbD_and, getLsbD_mask hn, decide_eq_true hj,
        Bool.and_true] at hj'
      rw [bit_mul_add (by omega), hj']
      exact BitVec.getLsbD_zero
    · intro h
      refine BitVec.eq_of_getLsbD_eq fun j hj => ?_
      rw [BitVec.getLsbD_and, getLsbD_mask hn, ← bit_mul_add hj]
      by_cases hjn : j < n % 32
      · rw [h j hjn]
        simp
      · simp [hjn]
  rw [allClearUntil, shiftRight_five, and_mask]
  split_ifs with hany
  · refine iff_of_false (by simp) fun h => ?_
    obtain ⟨k, hk, hword⟩ := List.any_eq_true.1 hany
    have hzero : word m a k = 0 := word_eq_zero_iff.2 fun i hi => h i (by
      rw [List.mem_range] at hk
      omega)
    simp [hzero] at hword
  · have hzero : ∀ k < n / 32, word m a k = 0 := by simpa using hany
    rw [decide_eq_true_eq, hmask]
    constructor
    · intro h i hi
      by_cases hk : i / 32 < n / 32
      · exact word_eq_zero_iff.1 (hzero _ hk) i rfl
      · have hj := h (i % 32) (by omega)
        rwa [(by omega : 32 * (n / 32) + i % 32 = i)] at hj
    · exact fun h j hj => h _ (by omega)

end TinyLittleOs.Ds.Bitset
