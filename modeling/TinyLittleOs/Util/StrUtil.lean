import TinyLittleOs.Lib.ByteMem
import TinyLittleOs.Lib.Numerals

/-!
# The numerals of `str_util`

`dec` and `hex` write into the buffer `out` of the caller, an `int_to_str_stack_buf` of 21 bytes. An
`int` is a value of `Int` between `-2 ^ 31` and `2 ^ 31`, and the negation wraps as that of the
processor.
-/

namespace TinyLittleOs.Util

open Lib Function

/-- `string_buf`, with the bytes of `out` after the call. -/
structure StringBuf where
  data : ByteMem
  length : Nat

def StringBuf.string (r : StringBuf) : List (BitVec 8) := segment r.data r.length

/-- `"0"` -/
def zeroString (out : ByteMem) : StringBuf := ⟨update (update out 0 0x30) 1 0, 1⟩

/-- The `i` characters are reversed, and the NUL is put behind them. -/
def finish (out : ByteMem) (i : Nat) : StringBuf := ⟨update (swaps i (i >>> 1) out) i 0, i⟩

/-- `'0' + remainder` -/
def decDigit (val : Int) : BitVec 8 := BitVec.ofInt 8 (0x30 + val.tmod 10)

/-- `dec_impl`, where `wrap` brings a negation back into the type of `val`. -/
def decImpl (wrap : Int → Int) (fuel : Nat) (val : Int) (out : ByteMem) : Option StringBuf :=
  if val = 0 then some (zeroString out)
  else
    let negative := decide (val < 0)
    let val := if negative then wrap (-val) else val
    (digitLoop decDigit (·.tdiv 10) fuel val 0 out).map fun r =>
      if negative then finish (update r.1 r.2 0x2D) (r.2 + 1) else finish r.1 r.2

/-- `dec(int)` -/
def decInt (fuel : Nat) (val : BitVec 32) (out : ByteMem) : Option StringBuf :=
  decImpl (·.bmod (2 ^ 32)) fuel val.toInt out

/-- `dec(uint)` -/
def decUint (fuel : Nat) (val : BitVec 32) (out : ByteMem) : Option StringBuf :=
  decImpl (· % 2 ^ 32) fuel val.toNat out

def hexDigit (val : Nat) : BitVec 8 :=
  let remainder := val &&& 0b1111
  if remainder < 10 then BitVec.ofNat 8 (0x30 + remainder)
  else BitVec.ofNat 8 (0x61 - 10 + remainder)

def hex (fuel : Nat) (val : BitVec 32) (out : ByteMem) : Option StringBuf :=
  if val.toNat = 0 then some (zeroString out)
  else (digitLoop hexDigit (· >>> 4) fuel val.toNat 0 out).map fun r => finish r.1 r.2

/-! ## What is returned -/

/-- With enough fuel the call returns `r`. -/
def Gives (f : Nat → Option StringBuf) (r : StringBuf) :
    Prop := ∃ fuel₀, ∀ fuel ≥ fuel₀, f fuel = some r

/-- The NUL is right behind the string, both fit in the buffer, and nothing behind the NUL has
changed. -/
structure Terminated (out : ByteMem) (r : StringBuf) : Prop where
  nul : r.data r.length = 0
  fits : r.length + 1 ≤ 21
  frame : ∀ k, r.length < k → r.data k = out k

/-- A decimal digit. -/
def decValue (c : BitVec 8) : Option Nat :=
  if 0x30 ≤ c.toNat ∧ c.toNat ≤ 0x39 then some (c.toNat - 0x30) else none

/-- A hexadecimal digit, in lower case. -/
def hexValue (c : BitVec 8) : Option Nat :=
  if 0x30 ≤ c.toNat ∧ c.toNat ≤ 0x39 then some (c.toNat - 0x30)
  else if 0x61 ≤ c.toNat ∧ c.toNat ≤ 0x66 then some (c.toNat - 0x61 + 10) else none

/-- The decimal numeral of an `int`, with a sign if it is negative. -/
def Canonical (s : List (BitVec 8)) (v : Int) : Prop :=
  ∃ ds, s = (if v < 0 then [0x2D] else []) ++ ds ∧ Numeral decValue 10 ds v.natAbs

theorem Gives.unique {f : Nat → Option StringBuf} {r r' : StringBuf} (h : Gives f r)
    (h' : Gives f r') :
    r = r' := by
  obtain ⟨fuel, hr⟩ := h
  obtain ⟨fuel', hr'⟩ := h'
  have heq := hr (max fuel fuel') (Nat.le_max_left ..)
  rw [hr' _ (Nat.le_max_right ..), Option.some.injEq] at heq
  exact heq.symm

section Strings

variable {out out' : ByteMem} {len : Nat}

theorem finish_string (out : ByteMem) (i : Nat) :
    (finish out i).string = (segment out i).reverse := by
  rw [StringBuf.string, finish, segment_update (Nat.le_refl i), Nat.shiftRight_one]
  exact segment_swaps i out

theorem finish_terminated (hlen : len + 1 ≤ 21) (hframe : ∀ k, len ≤ k → out' k = out k) :
    Terminated out (finish out' len) := by
  have hdata (k : Nat) :
      (finish out' len).data k = if k = len then 0 else swaps len (len / 2) out' k := by
    rw [← Nat.shiftRight_one, ← update_apply]
    rfl
  refine ⟨(hdata len).trans (if_pos rfl), hlen, fun k hk => ?_⟩
  have hlt : len < k := hk
  rw [hdata, if_neg (by omega), swaps_apply (Nat.le_refl _), if_neg (by omega)]
  exact hframe k (by omega)

theorem zeroString_terminated (out : ByteMem) : Terminated out (zeroString out) := by
  have hdata (k : Nat) :
      (zeroString out).data k = if k = 1 then 0 else if k = 0 then 0x30 else out k := by
    rw [← update_apply out, ← update_apply]
    rfl
  refine ⟨hdata 1, (by decide : 1 + 1 ≤ 21), fun k hk => ?_⟩
  have hlt : 1 < k := hk
  rw [hdata, if_neg (by omega), if_neg (by omega)]

theorem zeroString_numeral {value : BitVec 8 → Option Nat} {b : Nat} (hb : 0 < b)
    (hzero : value 0x30 = some 0) (out : ByteMem) : Numeral value b (zeroString out).string 0 := by
  have hstring : (zeroString out).string = [0x30] := by
    rw [StringBuf.string, zeroString, segment_update (Nat.le_refl 1), segment_update_succ]
    rfl
  rw [hstring]
  refine ⟨fun c hc => ?_, ?_, List.cons_ne_nil _ _, fun c hc _ => ?_⟩
  · rw [List.mem_singleton] at hc
    exact ⟨0, hb, hc ▸ hzero⟩
  · simpa [decode] using hzero
  · cases hc
    rfl

end Strings

/-! ## The digits -/

/-- The character of a digit of a number that is not negative. -/
def decChar (d : Nat) : BitVec 8 := BitVec.ofNat 8 (0x30 + d)

/-- What comes of a digit where the number is negative. -/
def negChar (d : Nat) : BitVec 8 := BitVec.ofInt 8 (0x30 - d)

def hexChar (d : Nat) : BitVec 8 :=
  if d < 10 then BitVec.ofNat 8 (0x30 + d) else BitVec.ofNat 8 (0x61 - 10 + d)

theorem decValue_decChar : ∀ d < 10, decValue (decChar d) = some d := by decide

theorem hexValue_hexChar : ∀ d < 16, hexValue (hexChar d) = some d := by decide

theorem divides_dec : Divides 10 (fun n : Nat => (n : Int)) decChar decDigit (·.tdiv 10) where
  zero := rfl
  ne_zero n hn := Int.natCast_ne_zero.2 hn
  digit n := by
    have hmod : (n : Int).tmod 10 = ((n % 10 : Nat) : Int) := rfl
    have hsum : (0x30 : Int) + ((n % 10 : Nat) : Int) = ((0x30 + n % 10 : Nat) : Int) := rfl
    rw [decDigit, hmod, hsum, BitVec.ofInt_natCast, decChar]
  rest n := rfl

theorem divides_neg : Divides 10 (fun n : Nat => -(n : Int)) negChar decDigit (·.tdiv 10) where
  zero := rfl
  ne_zero n hn := by omega
  digit n := by
    have hmod : (-(n : Int)).tmod 10 = -((n % 10 : Nat) : Int) := Int.neg_tmod ..
    rw [decDigit, hmod, negChar, Int.sub_eq_add_neg]
  rest n := Int.neg_tdiv ..

theorem divides_hex : Divides 16 (fun n : Nat => n) hexChar hexDigit (· >>> 4) where
  zero := rfl
  ne_zero n hn := hn
  digit n := by
    have hand : n &&& 0b1111 = n % 16 := Nat.and_two_pow_sub_one_eq_mod n 4
    rw [hexDigit, hand, hexChar]
  rest n := Nat.shiftRight_eq_div_pow n 4

theorem length_digits_dec {n : Nat} (hn : n < 2 ^ 32) : (Nat.digits 10 n).length ≤ 10 :=
  (Nat.digits_length_le_iff (by decide) n).2 (Nat.lt_trans hn (by decide))

theorem length_digits_hex {n : Nat} (hn : n < 2 ^ 32) : (Nat.digits 16 n).length ≤ 8 :=
  (Nat.digits_length_le_iff (by decide) n).2 (Nat.lt_of_lt_of_le hn (by decide))

/-! ## The calls -/

section Calls

variable {V : Type} [Zero V] [DecidableEq V] {b : Nat} {of : Nat → V} {ch : Nat → BitVec 8}
  {digit : V → BitVec 8} {rest : V → V} {wrap : Int → Int}

/-- The loop from the start of the buffer. -/
theorem digitLoop_start (h : Divides b of ch digit rest) (hb : 1 < b) (n : Nat) (out : ByteMem) :
    ∃ out', (∀ fuel, (Nat.digits b n).length < fuel →
        digitLoop digit rest fuel (of n) 0 out = some (out', (Nat.digits b n).length)) ∧
      segment out' (Nat.digits b n).length = (Nat.digits b n).map ch ∧
      ∀ k, (Nat.digits b n).length ≤ k → out' k = out k := by
  obtain ⟨out', hrun, hsegment, hframe⟩ := h.digitLoop hb n 0 out
  rw [Nat.zero_add] at hrun hsegment hframe
  exact ⟨out', hrun, hsegment, hframe⟩

theorem decImpl_nat {n : Nat} (hn : n < 2 ^ 32) (out : ByteMem) :
    ∃ r, Gives (fun fuel => decImpl wrap fuel n out) r ∧ Numeral decValue 10 r.string n ∧
      Terminated out r := by
  by_cases hzero : n = 0
  · subst hzero
    exact ⟨zeroString out, ⟨0, fun _ _ => rfl⟩, zeroString_numeral (by decide) (by decide) out,
      zeroString_terminated out⟩
  · have hlen := length_digits_dec hn
    obtain ⟨out', hrun, hsegment, hframe⟩ := digitLoop_start divides_dec (by decide) n out
    refine ⟨finish out' (Nat.digits 10 n).length, ⟨11, fun fuel hfuel => ?_⟩, ?_,
      finish_terminated (by omega) hframe⟩
    · have hneg : decide ((n : Int) < 0) = false := decide_eq_false (by omega)
      beta_reduce
      rw [decImpl, if_neg (by omega)]
      simp only [hneg, Bool.false_eq_true, if_false]
      rw [hrun fuel (by omega)]
      rfl
    · rw [finish_string, hsegment]
      exact numeral_digits (by decide) decValue_decChar hzero

/-- A negative number, where `of` says what the negation makes of its magnitude. -/
theorem decImpl_neg {of : Nat → Int} (h : Divides 10 of ch decDigit (·.tdiv 10)) {n : Nat}
    (hpos : n ≠ 0) (hn : n < 2 ^ 32) (hwrap : wrap n = of n) (out : ByteMem) :
    ∃ r, Gives (fun fuel => decImpl wrap fuel (-n) out) r ∧
      r.string = 0x2D :: ((Nat.digits 10 n).map ch).reverse ∧ Terminated out r := by
  have hlen := length_digits_dec hn
  obtain ⟨out', hrun, hsegment, hframe⟩ := digitLoop_start h (by decide) n out
  refine ⟨finish (update out' (Nat.digits 10 n).length 0x2D) ((Nat.digits 10 n).length + 1),
    ⟨11, fun fuel hfuel => ?_⟩, ?_, finish_terminated (by omega) fun k hk => ?_⟩
  · have hneg : decide (-(n : Int) < 0) = true := decide_eq_true (by omega)
    beta_reduce
    rw [decImpl, if_neg (by omega)]
    simp only [hneg, if_true, Int.neg_neg, hwrap]
    rw [hrun fuel (by omega)]
    rfl
  · rw [finish_string, segment_update_succ, hsegment, List.reverse_append]
    rfl
  · rw [update_of_ne (by omega)]
    exact hframe k (by omega)

theorem hex_gives (v : BitVec 32) (out : ByteMem) :
    ∃ r, Gives (fun fuel => hex fuel v out) r ∧ Numeral hexValue 16 r.string v.toNat ∧
      Terminated out r := by
  have hv := v.isLt
  by_cases hzero : v.toNat = 0
  · refine ⟨zeroString out, ⟨0, fun fuel _ => if_pos hzero⟩, ?_, zeroString_terminated out⟩
    rw [hzero]
    exact zeroString_numeral (by decide) (by decide) out
  · have hlen := length_digits_hex hv
    obtain ⟨out', hrun, hsegment, hframe⟩ := digitLoop_start divides_hex (by decide) v.toNat out
    refine ⟨finish out' (Nat.digits 16 v.toNat).length, ⟨9, fun fuel hfuel => ?_⟩, ?_,
      finish_terminated (by omega) hframe⟩
    · beta_reduce
      rw [hex, if_neg hzero, hrun fuel (by omega)]
      rfl
    · rw [finish_string, hsegment]
      exact numeral_digits (by decide) hexValue_hexChar hzero

theorem decUint_gives (v : BitVec 32) (out : ByteMem) :
    ∃ r, Gives (fun fuel => decUint fuel v out) r ∧ Numeral decValue 10 r.string v.toNat ∧
      Terminated out r :=
  decImpl_nat v.isLt out

end Calls

/-! ## The numerals -/

/-- The negation of the least `int` is itself, and its digits are negative. -/
theorem decInt_min (out : ByteMem) :
    ∃ r, Gives (fun fuel => decInt fuel (BitVec.intMin 32) out) r ∧
      ¬ Canonical r.string (BitVec.intMin 32).toInt := by
  obtain ⟨r, hr, hstring, -⟩ :=
    @decImpl_neg negChar (·.bmod (2 ^ 32)) _ divides_neg (2 ^ 31) (by decide)
    (by decide) (by decide) out
  refine ⟨r, hr, ?_⟩
  rintro ⟨ds, hds, hnumeral⟩
  have hdigits : Nat.digits 10 (2 ^ 31) = [8, 4, 6, 3, 8, 4, 7, 4, 1, 2] := by norm_num
  rw [hstring, hdigits, if_pos (by decide), List.singleton_append, List.cons.injEq] at hds
  have hmem : negChar 8 ∈ ds := by
    rw [← hds.2]
    decide
  obtain ⟨d, -, hd⟩ := hnumeral.digits _ hmem
  exact absurd hd (by decide +revert)

theorem decInt_nonneg {v : BitVec 32} (hv : 0 ≤ v.toInt) (out : ByteMem) :
    ∃ r, Gives (fun fuel => decInt fuel v out) r ∧ Canonical r.string v.toInt ∧
    Terminated out r := by
  obtain ⟨n, hn⟩ := Int.eq_ofNat_of_zero_le hv
  have hlt := v.toInt_lt
  obtain ⟨r, hr, hnumeral, hend⟩ := @decImpl_nat (·.bmod (2 ^ 32)) n (by omega) out
  refine ⟨r, ?_, ⟨r.string, ?_, ?_⟩, hend⟩
  · rwa [← hn] at hr
  · rw [if_neg (by omega), List.nil_append]
  · rwa [hn, Int.natAbs_natCast]

theorem decInt_neg {v : BitVec 32} (hv : v.toInt < 0) (hmin : v.toInt ≠ -2 ^ 31) (out : ByteMem) :
    ∃ r, Gives (fun fuel => decInt fuel v out) r ∧ Canonical r.string v.toInt ∧
    Terminated out r := by
  obtain ⟨n, hn⟩ := Int.eq_ofNat_of_zero_le (by omega : 0 ≤ -v.toInt)
  have hle := v.le_toInt
  have hval : v.toInt = -(n : Int) := by omega
  have hwrap : (n : Int).bmod (2 ^ 32) = n := Int.bmod_eq_of_le (by omega) (by omega)
  obtain ⟨r, hr, hstring, hend⟩ := @decImpl_neg decChar (·.bmod (2 ^ 32)) _ divides_dec n (by omega)
    (by omega) hwrap out
  refine ⟨r, ?_, ⟨((Nat.digits 10 n).map decChar).reverse, ?_, ?_⟩, hend⟩
  · rwa [← hval] at hr
  · rw [if_pos hv, hstring]
    rfl
  · rw [hval, Int.natAbs_neg, Int.natAbs_natCast]
    exact numeral_digits (by decide) decValue_decChar (by omega)

/-- `dec(int)` gives the decimal numeral of every value but the least one. -/
theorem decInt_canonical_iff (v : BitVec 32) (out : ByteMem) :
    ∃ r, Gives (fun fuel => decInt fuel v out) r ∧
      (Canonical r.string v.toInt ∧ Terminated out r ↔ v.toInt ≠ -2 ^ 31) := by
  by_cases hmin : v.toInt = -2 ^ 31
  · obtain rfl : v = BitVec.intMin 32 := BitVec.eq_of_toInt_eq hmin
    obtain ⟨r, hr, hnot⟩ := decInt_min out
    exact ⟨r, hr, iff_of_false (fun h => hnot h.1) (not_not_intro hmin)⟩
  · rcases lt_or_ge v.toInt 0 with hneg | hnonneg
    · obtain ⟨r, hr, h⟩ := decInt_neg hneg hmin out
      exact ⟨r, hr, iff_of_true h hmin⟩
    · obtain ⟨r, hr, h⟩ := decInt_nonneg hnonneg out
      exact ⟨r, hr, iff_of_true h hmin⟩

example : (decInt 11 (-305) fun _ => 0).map StringBuf.string = some [0x2D, 0x33, 0x30, 0x35] := by
  decide

theorem decInt_least :
    ¬ ∀ (v : BitVec 32) (out : ByteMem), ∃ r, Gives (fun fuel => decInt fuel v out) r ∧
    Canonical r.string v.toInt ∧ Terminated out r := by
  intro hclaim
  obtain ⟨r, hr, hcanonical, -⟩ := hclaim (BitVec.intMin 32) fun _ => 0
  obtain ⟨r', hr', hnot⟩ := decInt_min fun _ => 0
  rw [hr'.unique hr] at hnot
  exact hnot hcanonical

/-- Both numerals of an unsigned value read back as that value. -/
theorem hex_dec_numerals (v : BitVec 32) (out : ByteMem) :
    (∃ r, Gives (fun fuel => hex fuel v out) r ∧ Numeral hexValue 16 r.string v.toNat ∧
      Terminated out r ∧ ∀ w out' r', Gives (fun fuel => hex fuel w out') r' →
        r.string = r'.string → v = w) ∧
    ∃ r, Gives (fun fuel => decUint fuel v out) r ∧ Numeral decValue 10 r.string v.toNat ∧
      Terminated out r ∧ ∀ w out' r', Gives (fun fuel => decUint fuel w out') r' →
        r.string = r'.string → v = w := by
  refine ⟨?_, ?_⟩
  · obtain ⟨r, hr, hnumeral, hend⟩ := hex_gives v out
    refine ⟨r, hr, hnumeral, hend, fun w out' r' hr' hstring => ?_⟩
    obtain ⟨r'', hr'', hnumeral', -⟩ := hex_gives w out'
    rw [hr''.unique hr', ← hstring] at hnumeral'
    exact BitVec.eq_of_toNat_eq (hnumeral.unique hnumeral')
  · obtain ⟨r, hr, hnumeral, hend⟩ := decUint_gives v out
    refine ⟨r, hr, hnumeral, hend, fun w out' r' hr' hstring => ?_⟩
    obtain ⟨r'', hr'', hnumeral', -⟩ := decUint_gives w out'
    rw [hr''.unique hr', ← hstring] at hnumeral'
    exact BitVec.eq_of_toNat_eq (hnumeral.unique hnumeral')

end TinyLittleOs.Util
