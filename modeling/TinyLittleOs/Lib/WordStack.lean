import Mathlib.Data.BitVec
import TinyLittleOs.Lib.ByteMem

/-!
# Words in memory and a stack of them

The words of a list, one behind the other in a byte-addressed memory, and the stack that grows
down to them. Pushing a list leaves it in memory with the last word first.
-/

namespace TinyLittleOs.Lib

abbrev Word := BitVec 32

namespace ByteMem

variable {m m' : ByteMem} {a : Nat} {w : Word} {ws : List Word}

/-- From the address `a` on, the memory holds a list of words. -/
def Words (m : ByteMem) : Nat → List Word → Prop
  | _, [] => True
  | a, w :: ws => BitVec.ofNat 32 (m.load32 a) = w ∧ m.Words (a + 4) ws

theorem Words.congr (h : m.Words a ws) (hm : ∀ x, a ≤ x → x < a + 4 * ws.length → m' x = m x) :
    m'.Words a ws := by
  induction ws generalizing a with
  | nil => trivial
  | cons w ws ih =>
    rw [List.length_cons] at hm
    refine ⟨?_, ih h.2 fun x hx hx' => hm x (by omega) (by omega)⟩
    rw [load32_congr fun x hx hx' => hm x hx (by omega)]
    exact h.1

theorem word_store32 : BitVec.ofNat 32 ((m.store32 a w.toNat).load32 a) = w := by
  rw [load32_store32 w.isLt, BitVec.ofNat_toNat, BitVec.setWidth_eq]

theorem Words.store_out {b : Nat} (h : m.Words a ws) (hb : b + 4 ≤ a ∨ a + 4 * ws.length ≤ b) :
    (m.store32 b w.toNat).Words a ws :=
  h.congr fun x _ _ => store32_of_out (by omega)

/-- A word goes in front. -/
theorem Words.cons (h : m.Words (a + 4) ws) : (m.store32 a w.toNat).Words a (w :: ws) :=
  ⟨word_store32, h.store_out (Or.inl (Nat.le_refl _))⟩

theorem words_append {u : List Word} :
    m.Words a (u ++ ws) ↔ m.Words a u ∧ m.Words (a + 4 * u.length) ws := by
  induction u generalizing a with
  | nil => simp [Words]
  | cons v u ih =>
    have he : a + 4 + 4 * u.length = a + 4 * (u.length + 1) := by omega
    simp only [List.cons_append, Words, ih, List.length_cons, he, and_assoc]

theorem words_fill_zero {n k : Nat} (h : 4 * n ≤ k) :
    (m.fill a 0 k).Words a (List.replicate n 0) := by
  induction n generalizing a k m with
  | zero => trivial
  | succ n ih =>
    have hbyte : ∀ i < 4, m.fill a 0 k (a + i) = 0 := fun i hi => fill_of_mem (by omega) (by omega)
    refine ⟨?_, ?_⟩
    · have hfirst : m.fill a 0 k a = 0 := hbyte 0 (by omega)
      rw [load32, hfirst, hbyte 1 (by omega), hbyte 2 (by omega), hbyte 3 (by omega)]
      rfl
    · refine (ih (a := a + 4) (k := k - 4) (m := m) (by omega)).congr fun x hx hx' => ?_
      rw [List.length_replicate] at hx'
      rw [fill_of_mem (by omega) (by omega), fill_of_mem (by omega) (by omega)]

/-- A word in the middle is replaced. -/
theorem Words.set {u : List Word} {v : Word} (h : m.Words a (u ++ v :: ws)) :
    (m.store32 (a + 4 * u.length) w.toNat).Words a (u ++ w :: ws) := by
  obtain ⟨hus, -, hws⟩ := words_append.1 h
  exact words_append.2 ⟨hus.store_out (Or.inr (Nat.le_refl _)), hws.cons⟩

end ByteMem

/-- The top of a stack that grows down. -/
structure WordStack where
  mem : ByteMem
  sp : Word

namespace WordStack

variable {s : WordStack} {vs ws : List Word}

def push (s : WordStack) (v : Word) : WordStack :=
  ⟨s.mem.store32 (s.sp - 4).toNat v.toNat, s.sp - 4⟩

def top (s : WordStack) : Word := .ofNat 32 (s.mem.load32 s.sp.toNat)

def drop (s : WordStack) : WordStack := ⟨s.mem, s.sp + 4⟩

def pushes (s : WordStack) (vs : List Word) : WordStack := vs.foldl push s

theorem toNat_sub_four {a : Word} (h : 4 ≤ a.toNat) : (a - 4).toNat = a.toNat - 4 := by
  have hle : (4 : Word) ≤ a := by
    rw [BitVec.le_def]
    exact h
  rw [BitVec.toNat_sub_of_le hle]
  rfl

/-- The pushed words are in memory, and nothing but their bytes has changed. -/
theorem pushes_spec (hsp : 4 * vs.length ≤ s.sp.toNat) (hws : s.mem.Words s.sp.toNat ws) :
    (s.pushes vs).sp.toNat = s.sp.toNat - 4 * vs.length ∧
    (s.pushes vs).mem.Words (s.sp.toNat - 4 * vs.length) (vs.reverse ++ ws) ∧
    ∀ x, x < s.sp.toNat - 4 * vs.length ∨ s.sp.toNat ≤ x → (s.pushes vs).mem x = s.mem x := by
  induction vs generalizing s ws with
  | nil => exact ⟨rfl, hws, fun _ _ => rfl⟩
  | cons v vs ih =>
    rw [List.length_cons] at hsp ⊢
    have hpush : (s.push v).sp.toNat = s.sp.toNat - 4 := toNat_sub_four (by omega)
    have hcons : (s.push v).mem.Words (s.push v).sp.toNat (v :: ws) := by
      refine ByteMem.Words.cons ?_
      have he : (s.push v).sp.toNat + 4 = s.sp.toNat := by omega
      exact he ▸ hws
    obtain ⟨hend, hwords, hout⟩ := ih (by omega) hcons
    have he : s.sp.toNat - 4 - 4 * vs.length = s.sp.toNat - 4 * (vs.length + 1) := by omega
    rw [hpush, he] at hend hwords
    refine ⟨hend, ?_, fun x hx => ?_⟩
    · rw [List.reverse_cons, List.append_assoc]
      exact hwords
    · refine (hout x (by omega)).trans (ByteMem.store32_of_out ?_)
      have : (s.sp - 4).toNat = s.sp.toNat - 4 := hpush
      omega

theorem top_of_words {w : Word} (h : s.mem.Words s.sp.toNat (w :: ws)) : s.top = w := h.1

theorem toNat_add_four {a : Word} (h : a.toNat + 4 < 2 ^ 32) : (a + 4).toNat = a.toNat + 4 := by
  rw [BitVec.toNat_add]
  exact Nat.mod_eq_of_lt h

theorem words_drop {w : Word} (h : s.mem.Words s.sp.toNat (w :: ws))
    (hsp : s.sp.toNat + 4 < 2 ^ 32) : s.drop.mem.Words s.drop.sp.toNat ws := by
  have he : s.drop.sp.toNat = s.sp.toNat + 4 := toNat_add_four hsp
  rw [he]
  exact h.2

end WordStack

end TinyLittleOs.Lib
