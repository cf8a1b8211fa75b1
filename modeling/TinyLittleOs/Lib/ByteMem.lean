import Mathlib.Tactic.Ring

/-!
# Byte-addressed memory

A memory is a function from addresses to bytes. A 32-bit word is stored with its low byte
first. Each write is one layer over the memory before it, and its lemmas say what a later
read finds inside and outside the written range. A singly linked list may be threaded through
the first words of the objects that it links; `Chain` says which.
-/

namespace TinyLittleOs.Lib

abbrev ByteMem := Nat → BitVec 8

namespace ByteMem

def load32 (m : ByteMem) (a : Nat) : Nat :=
  (m a).toNat + 2 ^ 8 * (m (a + 1)).toNat + 2 ^ 16 * (m (a + 2)).toNat + 2 ^ 24 * (m (a + 3)).toNat

def store32 (m : ByteMem) (a v : Nat) : ByteMem := fun x =>
  if a ≤ x ∧ x < a + 4 then BitVec.ofNat 8 (v / 2 ^ (8 * (x - a))) else m x

def store8 (m : ByteMem) (a : Nat) (v : BitVec 8) : ByteMem := Function.update m a v

/-- `memset` -/
def fill (m : ByteMem) (a : Nat) (v : BitVec 8) (n : Nat) : ByteMem := fun x =>
  if a ≤ x ∧ x < a + n then v else m x

/-- `memcpy` between ranges that do not overlap. -/
def copy (m : ByteMem) (a b n : Nat) : ByteMem := fun x =>
  if a ≤ x ∧ x < a + n then m (b + (x - a)) else m x

variable {m : ByteMem}

theorem load32_lt (m : ByteMem) (a : Nat) : m.load32 a < 2 ^ 32 := by
  have h₀ := (m a).isLt
  have h₁ := (m (a + 1)).isLt
  have h₂ := (m (a + 2)).isLt
  have h₃ := (m (a + 3)).isLt
  unfold load32
  omega

/-- A word depends on its four bytes only. -/
theorem load32_congr {m' : ByteMem} {a : Nat} (h : ∀ x, a ≤ x → x < a + 4 → m' x = m x) :
    m'.load32 a = m.load32 a := by
  unfold load32
  rw [h a (by omega) (by omega), h (a + 1) (by omega) (by omega), h (a + 2) (by omega) (by omega),
    h (a + 3) (by omega) (by omega)]

theorem store32_of_out {a v x : Nat} (h : x < a ∨ a + 4 ≤ x) : m.store32 a v x = m x := by
  rw [store32, if_neg (by omega)]

theorem load32_store32 {a v : Nat} (h : v < 2 ^ 32) : (m.store32 a v).load32 a = v := by
  have h0 : m.store32 a v a = BitVec.ofNat 8 v := by simp [store32]
  have h1 : m.store32 a v (a + 1) = BitVec.ofNat 8 (v / 2 ^ 8) := by simp [store32]
  have h2 : m.store32 a v (a + 2) = BitVec.ofNat 8 (v / 2 ^ 16) := by simp [store32]
  have h3 : m.store32 a v (a + 3) = BitVec.ofNat 8 (v / 2 ^ 24) := by simp [store32]
  simp only [load32, h0, h1, h2, h3, BitVec.toNat_ofNat]
  omega

theorem load32_store32_of_apart {a b v : Nat} (h : b + 4 ≤ a ∨ a + 4 ≤ b) :
    (m.store32 a v).load32 b = m.load32 b :=
  load32_congr fun x _ _ => store32_of_out (by omega)

theorem fill_of_mem {a n x : Nat} {v : BitVec 8} (h : a ≤ x) (h' : x < a + n) :
    m.fill a v n x = v := by
  rw [fill, if_pos ⟨h, h'⟩]

theorem fill_of_out {a n x : Nat} {v : BitVec 8} (h : x < a ∨ a + n ≤ x) :
    m.fill a v n x = m x := by
  rw [fill, if_neg (by omega)]

theorem load32_fill_of_apart {a n b : Nat} {v : BitVec 8} (h : b + 4 ≤ a ∨ a + n ≤ b) :
    (m.fill a v n).load32 b = m.load32 b :=
  load32_congr fun x _ _ => fill_of_out (by omega)

theorem load32_copy {a b n i : Nat} (h : i + 4 ≤ n) :
    (m.copy a b n).load32 (a + i) = m.load32 (b + i) := by
  have hbyte : ∀ k < 4, m.copy a b n (a + i + k) = m (b + i + k) := fun k hk => by
    rw [copy, if_pos (by omega)]
    congr 1
    omega
  unfold load32
  rw [hbyte 1 (by omega), hbyte 2 (by omega), hbyte 3 (by omega), ← Nat.add_zero (a + i),
    hbyte 0 (by omega)]
  rfl

theorem load32_copy_of_apart {a b n c : Nat} (h : c + 4 ≤ a ∨ a + n ≤ c) :
    (m.copy a b n).load32 c = m.load32 c :=
  load32_congr fun x _ _ => by rw [copy, if_neg (by omega)]

/-! ## The lowest bit of a word -/

theorem store32_self_mod_two (a v : Nat) : (m.store32 a v a).toNat % 2 = v % 2 := by
  have h : m.store32 a v a = BitVec.ofNat 8 v := by simp [store32]
  rw [h, BitVec.toNat_ofNat]
  omega

theorem load32_and_one (m : ByteMem) (a : Nat) : m.load32 a &&& 1 = (m a).toNat % 2 := by
  rw [Nat.and_one_is_mod, load32]
  omega

/-! ## Lists in memory -/

/-- From the pointer `p` the first words of the objects lead through a list to null. -/
def Chain (m : ByteMem) : Nat → List Nat → Prop
  | p, [] => p = 0
  | p, x :: l => p = x ∧ x ≠ 0 ∧ m.Chain (m.load32 x) l

/-- A chain depends on the first words of its objects only. -/
theorem Chain.congr {m' : ByteMem} {p : Nat} {l : List Nat} (h : m.Chain p l)
    (hm : ∀ x ∈ l, m'.load32 x = m.load32 x) : m'.Chain p l := by
  induction l generalizing p with
  | nil => exact h
  | cons x l ih =>
    obtain ⟨hp, hx, htail⟩ := h
    refine ⟨hp, hx, ?_⟩
    rw [hm x List.mem_cons_self]
    exact ih htail fun y hy => hm y (List.mem_cons_of_mem x hy)

theorem Chain.eq_nil {l : List Nat} (h : m.Chain 0 l) : l = [] := by
  cases l with
  | nil => rfl
  | cons x l => exact absurd h.1.symm h.2.1

theorem Chain.eq_cons {p : Nat} {l : List Nat} (h : m.Chain p l) (hp : p ≠ 0) :
    ∃ l', l = p :: l' ∧ m.Chain (m.load32 p) l' := by
  cases l with
  | nil => exact absurd h hp
  | cons x l =>
    obtain ⟨rfl, -, htail⟩ := h
    exact ⟨l, rfl, htail⟩

end ByteMem

end TinyLittleOs.Lib
