import TinyLittleOs.Ds.Bitset
import Mathlib.Data.Set.Insert
import Mathlib.Order.Bounds.Basic

/-!
# The bounds of bit sets

The operations of `ds::bitset<bits>` again, now on an array of `c = int_count` words, where an
access outside the array gives `none`. Inside they are those of `Bitset`. A set is read through
`has_bit`.
-/

namespace TinyLittleOs.Ds.Bitset.Checked

open Lib

/-- `int_count`, computed in a `size_t` of 32 bits. -/
def size (bits : Nat) : Nat := (bits + 31) % 2 ^ 32 / 32

variable (c : Nat) (m : ByteMem) (a : Nat)

/-- A read of `m_set[i]`. -/
def word (i : Nat) : Option (BitVec 32) := if i < c then some (Bitset.word m a i) else none

/-- A write to `m_set[i]`. -/
def setWord (i : Nat) (v : BitVec 32) : Option ByteMem :=
  if i < c then some (Bitset.setWord m a i v) else none

def setBit (index : Nat) : Option ByteMem := do
  let w ← word c m a (index >>> 5)
  setWord c m a (index >>> 5) (w ||| 1#32 <<< (index &&& 0x1F))

def clearBit (index : Nat) : Option ByteMem := do
  let w ← word c m a (index >>> 5)
  setWord c m a (index >>> 5) (w &&& ~~~(1#32 <<< (index &&& 0x1F)))

def hasBit (index : Nat) : Option Bool := do
  let w ← word c m a (index >>> 5)
  return w &&& 1#32 <<< (index &&& 0x1F) ≠ 0

/-- The loop of `find_bit` over the words `l`. -/
def findLoop : List Nat → Option Nat
  | [] => some 0xFFFFFFFF
  | i :: l => do
    let w ← word c m a i
    if w ≠ 0 then return i <<< 5 + w.ctz.toNat else findLoop l

def findBit : Option Nat := findLoop c m a (List.range c)

/-- The loop that stores `v` in the words before `n`. -/
def fill (n : Nat) (v : BitVec 32) : Option ByteMem :=
  (List.range n).foldlM (fun m i => setWord c m a i v) m

def setAllUntil (index : Nat) : Option ByteMem := do
  let m ← fill c m a (index >>> 5) 0xFFFFFFFF
  setWord c m a (index >>> 5) (1#32 <<< (index &&& 0x1F) - 1#32)

def clearAll : Option ByteMem := fill c m a c 0

/-- The loop that returns false at the first of the words `l` that is not `v`. -/
def allWords (v : BitVec 32) : List Nat → Option Bool
  | [] => some true
  | i :: l => do
    let w ← word c m a i
    if w ≠ v then return false else allWords v l

/-- The body shared by `all_set_until` and `all_clear_until`, where `rest` is what the last word is
compared with under the mask. -/
def allUntil (v : BitVec 32) (rest : BitVec 32 → BitVec 32) (index : Nat) : Option Bool := do
  if ← allWords c m a v (List.range (index >>> 5)) then
    let mask := 1#32 <<< (index &&& 0x1F) - 1#32
    let w ← word c m a (index >>> 5)
    return w &&& mask = rest mask
  else
    return false

def allSetUntil (index : Nat) : Option Bool := allUntil c m a 0xFFFFFFFF (fun mask => mask) index

def allClearUntil (index : Nat) : Option Bool := allUntil c m a 0 (fun _ => 0) index

def allClear : Option Bool := allWords c m a 0 (List.range c)

/-- The set of the indices that have their bit. -/
def members : Set Nat := {i | hasBit c m a i = some true}

variable {c m a}

/-! ## Inside the array -/

theorem word_eq {i : Nat} (hi : i < c) : word c m a i = some (Bitset.word m a i) := if_pos hi

theorem setWord_eq {i : Nat} (hi : i < c) (v : BitVec 32) :
    setWord c m a i v = some (Bitset.setWord m a i v) := if_pos hi

theorem setBit_eq {n : Nat} (hn : n / 32 < c) : setBit c m a n = some (Bitset.setBit m a n) := by
  rw [setBit, shiftRight_five, word_eq hn, Bitset.setBit, shiftRight_five]
  exact setWord_eq hn _

theorem clearBit_eq {n : Nat} (hn : n / 32 < c) :
    clearBit c m a n = some (Bitset.clearBit m a n) := by
  rw [clearBit, shiftRight_five, word_eq hn, Bitset.clearBit, shiftRight_five]
  exact setWord_eq hn _

theorem hasBit_eq {n : Nat} (hn : n / 32 < c) : hasBit c m a n = some (bit m a n) := by
  have hmod : n % 32 < 32 := Nat.mod_lt n (by decide)
  have hbit : (Bitset.word m a (n / 32) &&& 1#32 <<< (n % 32) ≠ 0) ↔ bit m a n = true :=
    Bitmap.and_bit_ne_zero hmod
  rw [hasBit, shiftRight_five, word_eq hn, and_mask]
  refine congrArg some ?_
  rw [Bool.eq_iff_iff, decide_eq_true_eq]
  exact hbit

theorem hasBit_none {n : Nat} (hn : ¬ n / 32 < c) : hasBit c m a n = none := by
  rw [hasBit, shiftRight_five, word, if_neg hn]
  rfl

theorem mem_members {i : Nat} : i ∈ members c m a ↔ i / 32 < c ∧ bit m a i = true := by
  change hasBit c m a i = some true ↔ _
  by_cases hi : i / 32 < c
  · rw [hasBit_eq hi, Option.some.injEq]
    exact (and_iff_right hi).symm
  · rw [hasBit_none hi]
    exact iff_of_false (by simp) fun h => hi h.1

theorem fill_eq {n : Nat} (hn : n ≤ c) (v : BitVec 32) :
    fill c m a n v = some ((List.range n).foldl (fun m i => Bitset.setWord m a i v) m) := by
  induction n with
  | zero => rfl
  | succ n ih =>
    have ih := ih (by omega)
    have hlast (m : ByteMem) : setWord c m a n v = some (Bitset.setWord m a n v) :=
      setWord_eq (by omega) v
    rw [fill] at ih ⊢
    rw [List.range_succ, List.foldlM_append, ih, List.foldl_append]
    simp [hlast]

theorem setAllUntil_eq {n : Nat} (hn : n / 32 < c) :
    setAllUntil c m a n = some (Bitset.setAllUntil m a n) := by
  rw [setAllUntil, shiftRight_five, fill_eq hn.le, Bitset.setAllUntil, shiftRight_five]
  exact setWord_eq hn _

theorem allWords_eq {l : List Nat} (hl : ∀ i ∈ l, i < c) (v : BitVec 32) :
    allWords c m a v l = some (l.all fun i => Bitset.word m a i == v) := by
  induction l with
  | nil => rfl
  | cons i l ih =>
    have ih := ih fun j hj => hl j (List.mem_cons_of_mem i hj)
    rw [allWords, word_eq (hl i List.mem_cons_self), List.all_cons]
    by_cases hv : Bitset.word m a i = v
    · simp [hv, ih]
    · simp [hv]

/-- `find_bit` goes to the first word that is not zero. -/
theorem findLoop_eq {l : List Nat} (hl : ∀ i ∈ l, i < c) :
    findLoop c m a l = some (match l.find? fun i => Bitset.word m a i ≠ 0#32 with
      | some i => i <<< 5 + (Bitset.word m a i).ctz.toNat
      | none => 0xFFFFFFFF) := by
  induction l with
  | nil => rfl
  | cons i l ih =>
    have ih := ih fun j hj => hl j (List.mem_cons_of_mem i hj)
    rw [findLoop, word_eq (hl i List.mem_cons_self), List.find?_cons]
    by_cases hv : Bitset.word m a i = 0#32
    · simp [hv, ih]
    · simp [hv]

/-! ## What the operations compute -/

/-- All words before `n`, and the low bits of the next one, are those of `v`. -/
theorem allUntil_spec {n : Nat} (hn : n / 32 < c) {v : BitVec 32} {rest : BitVec 32 → BitVec 32}
    {b : Bool} (hv : ∀ j < 32, v.getLsbD j = b) (hrest : ∀ mask, rest mask = v &&& mask) :
    ∃ r, allUntil c m a v rest n = some r ∧ (r = true ↔ ∀ i < n, bit m a i = b) := by
  have hmod : n % 32 < 32 := Nat.mod_lt n (by decide)
  have hword (k : Nat) : Bitset.word m a k = v ↔ ∀ j < 32, bit m a (32 * k + j) = b := by
    constructor
    · rintro rfl j hj
      rw [bit_mul_add hj, hv j hj]
    · intro h
      refine BitVec.eq_of_getLsbD_eq fun j hj => ?_
      rw [hv j hj, ← h j hj, bit_mul_add hj]
  have hmask (k : Nat) : Bitset.word m a k &&& (1#32 <<< (n % 32) - 1#32) =
      v &&& (1#32 <<< (n % 32) - 1#32) ↔ ∀ j < n % 32, bit m a (32 * k + j) = b := by
    constructor
    · intro h j hj
      have hj' := congrArg (fun w => w.getLsbD j) h
      simp only [BitVec.getLsbD_and, getLsbD_mask hmod, decide_eq_true hj, Bool.and_true] at hj'
      rw [bit_mul_add (by omega), hj', hv j (by omega)]
    · intro h
      refine BitVec.eq_of_getLsbD_eq fun j hj => ?_
      rw [BitVec.getLsbD_and, BitVec.getLsbD_and, getLsbD_mask hmod]
      by_cases hjn : j < n % 32
      · rw [← bit_mul_add hj, h j hjn, hv j hj]
      · simp [hjn]
  have hall : ((List.range (n / 32)).all fun i => Bitset.word m a i == v) = true ↔
      ∀ k < n / 32, Bitset.word m a k = v := by
    simp
  rw [allUntil, shiftRight_five, and_mask, allWords_eq fun i hi => (List.mem_range.1 hi).trans hn]
  by_cases hfull : ∀ k < n / 32, Bitset.word m a k = v
  · refine ⟨decide (Bitset.word m a (n / 32) &&& (1#32 <<< (n % 32) - 1#32) =
      rest (1#32 <<< (n % 32) - 1#32)), ?_, ?_⟩
    · rw [hall.2 hfull, word_eq hn]
      rfl
    · rw [decide_eq_true_eq, hrest, hmask]
      constructor
      · intro h i hi
        by_cases hk : i / 32 < n / 32
        · have hbit := (hword _).1 (hfull _ hk) (i % 32) (Nat.mod_lt i (by decide))
          rwa [Nat.div_add_mod] at hbit
        · have hbit := h (i % 32) (by omega)
          rwa [(by omega : 32 * (n / 32) + i % 32 = i)] at hbit
      · exact fun h j hj => h _ (by omega)
  · refine ⟨false, ?_, iff_of_false Bool.false_ne_true fun h => hfull fun k hk => ?_⟩
    · rw [Bool.eq_false_iff.2 fun h => hfull (hall.1 h)]
      rfl
    · exact (hword k).2 fun j hj => h _ (by omega)

/-- The least index, where -1 stands for none. -/
theorem findBit_spec (hc : 32 * c < 0xFFFFFFFF) :
    ∃ r, findBit c m a = some r ∧ (r = 0xFFFFFFFF ↔ members c m a = ∅) ∧
      (r ≠ 0xFFFFFFFF → IsLeast (members c m a) r) := by
  refine ⟨_, findLoop_eq fun i hi => List.mem_range.1 hi, ?_⟩
  cases hfind : (List.range c).find? fun i => Bitset.word m a i ≠ 0#32 with
  | none =>
    have hempty : members c m a = ∅ := by
      refine Set.eq_empty_iff_forall_notMem.2 fun i hi => ?_
      obtain ⟨hlt, hbit⟩ := mem_members.1 hi
      have hzero : Bitset.word m a (i / 32) = 0#32 := by
        simpa using List.find?_eq_none.1 hfind _ (List.mem_range.2 hlt)
      rw [word_eq_zero_iff.1 hzero i rfl] at hbit
      exact Bool.false_ne_true hbit
    exact ⟨iff_of_true rfl hempty, fun h => absurd rfl h⟩
  | some k =>
    obtain ⟨hne, hk, hzero⟩ := List.find?_range_eq_some.1 hfind
    have hne : Bitset.word m a k ≠ 0#32 := by simpa using hne
    have hk : k < c := List.mem_range.1 hk
    have hzero : ∀ j < k, Bitset.word m a j = 0#32 := by simpa using hzero
    have hctz : (Bitset.word m a k).ctz.toNat < 32 := by
      simpa [BitVec.lt_def] using BitVec.ctz_lt_iff_ne_zero.2 hne
    have hshift : k <<< 5 = 32 * k := by rw [Nat.shiftLeft_eq, Nat.mul_comm]
    dsimp only
    rw [hshift]
    have hmem : 32 * k + (Bitset.word m a k).ctz.toNat ∈ members c m a := by
      rw [mem_members, bit_mul_add hctz]
      exact ⟨by omega, BitVec.getLsbD_true_ctz_of_ne_zero hne⟩
    have hnot : 32 * k + (Bitset.word m a k).ctz.toNat ≠ 0xFFFFFFFF := by omega
    refine ⟨iff_of_false hnot (Set.Nonempty.ne_empty ⟨_, hmem⟩), fun _ => ⟨hmem, fun i hi => ?_⟩⟩
    obtain ⟨-, hbit⟩ := mem_members.1 hi
    by_contra hle
    have hlt : i < 32 * k + (Bitset.word m a k).ctz.toNat := Nat.lt_of_not_le hle
    by_cases hik : i / 32 = k
    · have hlow : (Bitset.word m a k).getLsbD (i % 32) = false :=
        BitVec.getLsbD_false_of_lt_ctz (by omega)
      rw [bit, hik, hlow] at hbit
      exact Bool.false_ne_true hbit
    · have hword : Bitset.word m a (i / 32) = 0#32 := hzero (i / 32) (by omega)
      rw [word_eq_zero_iff.1 hword i rfl] at hbit
      exact Bool.false_ne_true hbit

theorem members_clearAll : ∃ m', clearAll c m a = some m' ∧ members c m' a = ∅ := by
  refine ⟨_, fill_eq (Nat.le_refl c) 0, Set.eq_empty_iff_forall_notMem.2 fun i hi => ?_⟩
  obtain ⟨hlt, hbit⟩ := mem_members.1 hi
  rw [bit_foldl, if_pos hlt] at hbit
  exact Bool.false_ne_true (BitVec.getLsbD_zero.symm.trans hbit)

theorem allClear_spec : ∃ r, allClear c m a = some r ∧ (r = true ↔ members c m a = ∅) := by
  refine ⟨_, allWords_eq (fun i hi => List.mem_range.1 hi) 0, ?_⟩
  rw [List.all_eq_true, Set.eq_empty_iff_forall_notMem]
  constructor
  · intro h i hi
    obtain ⟨hlt, hbit⟩ := mem_members.1 hi
    have hzero : Bitset.word m a (i / 32) = 0 := by simpa using h _ (List.mem_range.2 hlt)
    rw [word_eq_zero_iff.1 hzero i rfl] at hbit
    exact Bool.false_ne_true hbit
  · intro h k hk
    have hzero : Bitset.word m a k = 0 := by
      refine word_eq_zero_iff.2 fun i hi => Bool.eq_false_iff.2 fun hbit => ?_
      exact h i (mem_members.2 ⟨hi ▸ List.mem_range.1 hk, hbit⟩)
    exact beq_iff_eq.2 hzero

/-- The operations with the argument `n` stay in the array, and do to the set what they are for. -/
structure Works (c : Nat) (m : ByteMem) (a n : Nat) : Prop where
  setBit : ∃ m', setBit c m a n = some m' ∧ members c m' a = insert n (members c m a)
  clearBit : ∃ m', clearBit c m a n = some m' ∧ members c m' a = members c m a \ {n}
  hasBit : ∃ b, hasBit c m a n = some b
  setAllUntil : ∃ m', setAllUntil c m a n = some m' ∧
    (members c m a = ∅ → members c m' a = {i | i < n})
  allSetUntil : ∃ b, allSetUntil c m a n = some b ∧ (b = true ↔ ∀ i < n, i ∈ members c m a)
  allClearUntil : ∃ b, allClearUntil c m a n = some b ∧ (b = true ↔ ∀ i < n, i ∉ members c m a)
  findBit : ∃ r, findBit c m a = some r ∧ (r = 0xFFFFFFFF ↔ members c m a = ∅) ∧
    (r ≠ 0xFFFFFFFF → IsLeast (members c m a) r)
  clearAll : ∃ m', clearAll c m a = some m' ∧ members c m' a = ∅
  allClear : ∃ b, allClear c m a = some b ∧ (b = true ↔ members c m a = ∅)

theorem works_of_lt {n : Nat} (hc : 32 * c < 0xFFFFFFFF) (hn : n / 32 < c) : Works c m a n where
  setBit := by
    refine ⟨_, setBit_eq hn, Set.ext fun i => ?_⟩
    rw [Set.mem_insert_iff, mem_members, mem_members, bit_setBit, Bool.or_eq_true,
      decide_eq_true_eq]
    constructor
    · rintro ⟨hi, hbit | rfl⟩
      · exact .inr ⟨hi, hbit⟩
      · exact .inl rfl
    · rintro (rfl | ⟨hi, hbit⟩)
      · exact ⟨hn, .inr rfl⟩
      · exact ⟨hi, .inl hbit⟩
  clearBit := by
    refine ⟨_, clearBit_eq hn, Set.ext fun i => ?_⟩
    rw [Set.mem_sdiff, Set.mem_singleton_iff, mem_members, mem_members, bit_clearBit,
      Bool.and_eq_true,
      Bool.not_eq_true', decide_eq_false_iff_not, and_assoc]
  hasBit := ⟨_, hasBit_eq hn⟩
  setAllUntil := by
    refine ⟨_, setAllUntil_eq hn, fun hempty => Set.ext fun i => ?_⟩
    rw [mem_members]
    change _ ↔ i < n
    by_cases hi : i / 32 ≤ n / 32
    · rw [bit_setAllUntil n i hi, decide_eq_true_eq]
      exact and_iff_right (by omega)
    · rw [bit_setAllUntil_above n i (by omega)]
      refine iff_of_false (fun h => ?_) (by omega)
      exact Set.notMem_empty i (hempty ▸ mem_members.2 h)
  allSetUntil := by
    have hones : ∀ j < 32, (0xFFFFFFFF#32).getLsbD j = true := by decide
    obtain ⟨r, hr, hiff⟩ := allUntil_spec hn hones fun mask => (BitVec.allOnes_and ..).symm
    refine ⟨r, hr, hiff.trans (forall₂_congr fun i hi => ?_)⟩
    rw [mem_members]
    exact (and_iff_right (by omega)).symm
  allClearUntil := by
    have hzeros : ∀ j < 32, (0#32).getLsbD j = false := by decide
    obtain ⟨r, hr, hiff⟩ := allUntil_spec hn hzeros fun mask => (BitVec.zero_and ..).symm
    refine ⟨r, hr, hiff.trans (forall₂_congr fun i hi => ?_)⟩
    rw [mem_members, not_and, Bool.not_eq_true]
    exact ⟨fun h _ => h, fun h => h (by omega)⟩
  findBit := findBit_spec hc
  clearAll := members_clearAll
  allClear := allClear_spec

theorem size_lt (bits : Nat) : 32 * size bits < 0xFFFFFFFF := by
  rw [size]
  omega

/-- The operations work for `n` exactly when the word of `n` is in the array. -/
theorem works_iff (bits : Nat) (m : ByteMem) (a n : Nat) :
    Works (size bits) m a n ↔ n / 32 < size bits := by
  constructor
  · intro h
    by_contra hn
    obtain ⟨b, hb⟩ := h.hasBit
    rw [hasBit_none hn] at hb
    cases hb
  · intro hn
    exact works_of_lt (size_lt bits) hn

/-- That is everywhere before the end of the set, and at the end if the last word is not full. -/
theorem inside_iff {bits n : Nat} (hbits : bits + 31 < 2 ^ 32) (hn : n ≤ bits) :
    n / 32 < size bits ↔ n < bits ∨ bits % 32 ≠ 0 := by
  rw [size, Nat.mod_eq_of_lt hbits]
  omega

/-- A set of 32 bits has no second word for `n = 32`. -/
theorem full_not_works : ¬ ∀ (bits : Nat) (m : ByteMem) (a n : Nat), n ≤ bits →
    Works (size bits) m a n := by
  intro h
  obtain ⟨m', hm', -⟩ := (h 32 (fun _ => 0) 0 32 (Nat.le_refl 32)).setAllUntil
  have hnone : setAllUntil (size 32) (fun _ => 0) 0 32 = none := rfl
  rw [hnone] at hm'
  cases hm'

end TinyLittleOs.Ds.Bitset.Checked
