import Mathlib.Data.Nat.Digits.Lemmas
import Mathlib.Logic.Function.Basic

/-!
# Numerals in a buffer

A loop of divisions writes the digits of a number with the last one first, and a loop of swaps puts
them in order. A numeral is read back from the left.
-/

namespace TinyLittleOs.Lib

open Function

variable {V β : Type}

/-! ## Segments -/

/-- The first `n` characters of a buffer. -/
def segment (out : Nat → β) (n : Nat) : List β := (List.range n).map out

section Segment

variable {out out' : Nat → β} {n : Nat}

@[simp] theorem length_segment (out : Nat → β) (n : Nat) : (segment out n).length = n := by
  rw [segment, List.length_map, List.length_range]

theorem segment_succ (out : Nat → β) (n : Nat) :
    segment out (n + 1) = segment out n ++ [out n] := by
  rw [segment, List.range_succ, List.map_append]
  rfl

theorem segment_congr (h : ∀ k < n, out' k = out k) : segment out' n = segment out n :=
  List.map_congr_left fun k hk => h k (List.mem_range.1 hk)

theorem segment_update {i : Nat} (h : n ≤ i) (c : β) : segment (update out i c) n = segment out n :=
  segment_congr fun _ hk => update_of_ne (by omega) ..

theorem segment_update_succ (out : Nat → β) (n : Nat) (c : β) :
    segment (update out n c) (n + 1) = segment out n ++ [c] := by
  rw [segment_succ, segment_update (Nat.le_refl n), update_self]

end Segment

/-! ## The digits, the last one first -/

/-- Write the digits of `val` from `i` on. -/
def digitLoop [Zero V] [DecidableEq V] (digit : V → β) (rest : V → V) :
    Nat → V → Nat → (Nat → β) → Option ((Nat → β) × Nat)
  | 0, _, _, _ => none
  | fuel + 1, val, i, out =>
    if val ≠ 0 then digitLoop digit rest fuel (rest val) (i + 1) (update out i (digit val))
    else some (out, i)

/-- `digit` and `rest` are the remainder and the quotient by `b` of the numbers that `V`
represents. -/
structure Divides [Zero V] (b : Nat) (of : Nat → V) (ch : Nat → β) (digit : V → β) (rest : V → V) :
    Prop where
  zero : of 0 = 0
  ne_zero : ∀ n, n ≠ 0 → of n ≠ 0
  digit : ∀ n, digit (of n) = ch (n % b)
  rest : ∀ n, rest (of n) = of (n / b)

/-- The loop appends the digits to what is in the buffer. -/
theorem Divides.digitLoop [Zero V] [DecidableEq V] {b : Nat} {of : Nat → V} {ch : Nat → β}
    {digit : V → β} {rest : V → V} (h : Divides b of ch digit rest) (hb : 1 < b) (n i : Nat)
    (out : Nat → β) :
    ∃ out', (∀ fuel, (Nat.digits b n).length < fuel →
        digitLoop digit rest fuel (of n) i out = some (out', i + (Nat.digits b n).length)) ∧
      segment out' (i + (Nat.digits b n).length) = segment out i ++ (Nat.digits b n).map ch ∧
      ∀ k, i + (Nat.digits b n).length ≤ k → out' k = out k := by
  induction n using Nat.strongRecOn generalizing i out with
  | ind n ih =>
    by_cases hn : n = 0
    · subst hn
      rw [Nat.digits_zero]
      refine ⟨out, fun fuel hfuel => ?_, ?_, fun _ _ => rfl⟩
      · cases fuel with
        | zero => exact absurd hfuel (Nat.not_lt_zero _)
        | succ fuel =>
          rw [Lib.digitLoop, h.zero, if_neg (not_not_intro rfl)]
          rfl
      · rw [List.map_nil, List.append_nil]
        rfl
    · have hdigits : Nat.digits b n = n % b :: Nat.digits b (n / b) :=
        Nat.digits_eq_cons_digits_div hb hn
      have hlen (l : Nat) : i + (l + 1) = i + 1 + l := by omega
      obtain ⟨out', hrun, hsegment, hframe⟩ :=
        ih (n / b) (Nat.div_lt_self (Nat.pos_of_ne_zero hn) hb)
        (i + 1) (update out i (ch (n % b)))
      rw [hdigits, List.length_cons, hlen]
      refine ⟨out', fun fuel hfuel => ?_, ?_, fun k hk => ?_⟩
      · cases fuel with
        | zero => exact absurd hfuel (Nat.not_lt_zero _)
        | succ fuel =>
          rw [Lib.digitLoop, if_pos (h.ne_zero n hn), h.rest, h.digit]
          exact hrun fuel (by omega)
      · rw [hsegment, segment_update_succ, List.map_cons, List.append_assoc]
        rfl
      · rw [hframe k hk, update_of_ne (by omega)]

/-! ## Reversal in place -/

/-- The swap of `out[j]` and `out[i - j - 1]`. -/
def swapEnds (i j : Nat) (out : Nat → β) : Nat → β :=
  update (update out j (out (i - j - 1))) (i - j - 1) (out j)

/-- The first `n` swaps. -/
def swaps (i n : Nat) (out : Nat → β) : Nat → β :=
  (List.range n).foldl (fun out j => swapEnds i j out) out

theorem swaps_succ (i n : Nat) (out : Nat → β) :
    swaps i (n + 1) out = swapEnds i n (swaps i n out) := by
  rw [swaps, List.range_succ, List.foldl_append]
  rfl

/-- The `n` characters at either end are exchanged, and those between them are in place. -/
theorem swaps_apply {i n : Nat} (hn : n ≤ i / 2) (out : Nat → β) (k : Nat) :
    swaps i n out k = if k < n ∨ i - n ≤ k ∧ k < i then out (i - k - 1) else out k := by
  induction n generalizing k with
  | zero =>
    rw [if_neg (by omega)]
    rfl
  | succ n ih =>
    have ih := ih (by omega)
    rw [swaps_succ, swapEnds]
    by_cases hlast : k = i - n - 1
    · rw [hlast, update_self, ih, if_neg (by omega), if_pos (by omega)]
      rw [show i - (i - n - 1) - 1 = n by omega]
    · rw [update_of_ne hlast]
      by_cases hfirst : k = n
      · rw [hfirst, update_self, ih, if_neg (by omega), if_pos (by omega)]
      · rw [update_of_ne hfirst, ih]
        by_cases hin : k < n ∨ i - n ≤ k ∧ k < i
        · rw [if_pos hin, if_pos (by omega)]
        · rw [if_neg hin, if_neg (by omega)]

/-- Half of the length many swaps reverse the segment, whether the length is even or odd. -/
theorem segment_swaps (i : Nat) (out : Nat → β) :
    segment (swaps i (i / 2) out) i = (segment out i).reverse := by
  apply List.ext_getElem
  · rw [List.length_reverse, length_segment, length_segment]
  · intro k hk hk'
    rw [length_segment] at hk
    rw [List.getElem_reverse]
    simp only [segment, List.getElem_map, List.getElem_range, List.length_map, List.length_range]
    rw [swaps_apply (Nat.le_refl _)]
    split_ifs with hin
    · congr 1
      omega
    · congr 1
      omega

/-! ## Reading a numeral -/

/-- The value in base `b` of the digits that `value` gives the characters. -/
def decode (value : β → Option Nat) (b : Nat) (s : List β) : Option Nat :=
  s.foldlM (fun v c => (value c).map (b * v + ·)) 0

/-- The numeral of `v` in base `b`: it consists of digits, its value is `v`, and only that of 0 has
a leading zero. -/
structure Numeral (value : β → Option Nat) (b : Nat) (s : List β) (v : Nat) : Prop where
  digits : ∀ c ∈ s, ∃ d < b, value c = some d
  decodes : decode value b s = some v
  nonempty : s ≠ []
  leading : ∀ c, s.head? = some c → value c = some 0 → s = [c]

/-- A string is the numeral of one number at most. -/
theorem Numeral.unique {value : β → Option Nat} {b v w : Nat} {s : List β} (h : Numeral value b s v)
    (h' : Numeral value b s w) : v = w :=
  Option.some.inj (h.decodes.symm.trans h'.decodes)

theorem decode_concat {value : β → Option Nat} {b v d : Nat} {s : List β} {c : β}
    (hs : decode value b s = some v) (hc : value c = some d) :
    decode value b (s ++ [c]) = some (b * v + d) := by
  rw [decode] at hs ⊢
  rw [List.foldlM_append, hs]
  simp [hc]

/-- The digits in order are the numeral. -/
theorem numeral_digits {value : β → Option Nat} {b : Nat} {ch : Nat → β} (hb : 1 < b)
    (hvalue : ∀ d < b, value (ch d) = some d) {n : Nat} (hn : n ≠ 0) :
    Numeral value b ((Nat.digits b n).map ch).reverse n := by
  have hlt : ∀ d ∈ Nat.digits b n, d < b := fun d hd => Nat.digits_lt_base hb hd
  have hne : Nat.digits b n ≠ [] := Nat.digits_ne_nil_iff_ne_zero.2 hn
  refine ⟨fun c hc => ?_, ?_, ?_, fun c hc hzero => ?_⟩
  · obtain ⟨d, hd, rfl⟩ := List.mem_map.1 (List.mem_reverse.1 hc)
    exact ⟨d, hlt d hd, hvalue d (hlt d hd)⟩
  · have hread : ∀ ds : List Nat, (∀ d ∈ ds, d < b) →
        decode value b (ds.map ch).reverse = some (Nat.ofDigits b ds) := by
      intro ds hds
      induction ds with
      | nil => rfl
      | cons d ds ih =>
        rw [List.map_cons, List.reverse_cons, Nat.ofDigits_cons, Nat.add_comm]
        exact decode_concat (ih fun e he => hds e (List.mem_cons_of_mem _ he))
          (hvalue d (hds d List.mem_cons_self))
    rw [hread _ hlt, Nat.ofDigits_digits]
  · rwa [Ne, List.reverse_eq_nil_iff, List.map_eq_nil_iff]
  · exfalso
    have hlast := Nat.getLast_digit_ne_zero b hn
    rw [List.head?_reverse, List.getLast?_map, List.getLast?_eq_getLast_of_ne_nil hne] at hc
    cases hc
    rw [hvalue _ (hlt _ (List.getLast_mem hne)), Option.some.injEq] at hzero
    exact hlast hzero

end TinyLittleOs.Lib
