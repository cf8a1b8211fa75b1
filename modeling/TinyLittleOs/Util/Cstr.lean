import TinyLittleOs.Lib.ByteMem
import Mathlib.Logic.Function.Basic

/-!
# Memory and strings

`memmove`, `strlen` and `strcpy` of `cstr.cpp`, byte by byte, with 32-bit pointers.
-/

namespace TinyLittleOs.Util

open Lib Function

/-- The address of `p[i]`. -/
def index (p i : Nat) : Nat := (p + i) % 2 ^ 32

theorem index_eq {p i : Nat} (h : p + i < 2 ^ 32) : index p i = p + i := Nat.mod_eq_of_lt h

/-! ## memmove -/

/-- `dst[i] = src[i]` -/
def copyByte (dst src i : Nat) (m : ByteMem) : ByteMem :=
  update m (index dst i) (m (index src i))

/-- The first loop of `memmove`, for the indices below `size`. -/
def copyUp (dst src size : Nat) (m : ByteMem) : ByteMem :=
  (List.range size).foldl (fun m i => copyByte dst src i m) m

/-- The second loop of `memmove`, from `i` down. -/
def copyDown (dst src : Nat) : Nat → ByteMem → ByteMem
  | 0, m => m
  | i + 1, m => copyDown dst src i (copyByte dst src i m)

def memmove (dst src size : Nat) (m : ByteMem) : ByteMem :=
  if dst < src then copyUp dst src size m else copyDown dst src size m

section Memmove

variable {dst src size : Nat} {m : ByteMem}

/-- The first `n` bytes of `dst` are those that `src` held in `m`, and the others are the old
ones. -/
structure Moved (dst src n : Nat) (m m' : ByteMem) : Prop where
  moved : ∀ i < n, m' (dst + i) = m (src + i)
  frame : ∀ x, x < dst ∨ dst + n ≤ x → m' x = m x

/-- The next byte. -/
theorem Moved.succ {n : Nat} {m' : ByteMem} (h : Moved dst src n m m') :
    Moved dst src (n + 1) m (update m' (dst + n) (m (src + n))) := by
  refine ⟨fun i hi => ?_, fun x hx => ?_⟩
  · by_cases he : i = n
    · rw [he, update_self]
    · rw [update_of_ne (by omega)]
      exact h.moved i (by omega)
  · rw [update_of_ne (by omega)]
    exact h.frame x (by omega)

theorem copyByte_eq {i : Nat} (hdst : dst + size ≤ 2 ^ 32) (hsrc : src + size ≤ 2 ^ 32)
    (hi : i < size) : copyByte dst src i m = update m (dst + i) (m (src + i)) := by
  rw [copyByte, index_eq (by omega), index_eq (by omega)]

/-- The source bytes that the first loop has still to read lie above those that it has written. -/
theorem copyUp_moved (hdst : dst + size ≤ 2 ^ 32) (hsrc : src + size ≤ 2 ^ 32) (hlt : dst < src)
    {n : Nat} (hn : n ≤ size) : Moved dst src n m (copyUp dst src n m) := by
  induction n with
  | zero => exact ⟨fun i hi => absurd hi (Nat.not_lt_zero i), fun _ _ => rfl⟩
  | succ n ih =>
    have ih := ih (by omega)
    have hread : copyUp dst src n m (src + n) = m (src + n) := ih.frame _ (by omega)
    have hstep : copyUp dst src (n + 1) m =
        update (copyUp dst src n m) (dst + n) (m (src + n)) := by
      rw [copyUp, List.range_succ, List.foldl_append, List.foldl_cons, List.foldl_nil]
      rw [copyByte_eq hdst hsrc (by omega)]
      rw [← hread, copyUp]
    rw [hstep]
    exact ih.succ

/-- Those of the second loop lie below the ones that it has written. -/
theorem copyDown_moved (hdst : dst + size ≤ 2 ^ 32) (hsrc : src + size ≤ 2 ^ 32) (hle : src ≤ dst)
    {n : Nat} (hn : n ≤ size) : Moved dst src n m (copyDown dst src n m) := by
  induction n generalizing m with
  | zero => exact ⟨fun i hi => absurd hi (Nat.not_lt_zero i), fun _ _ => rfl⟩
  | succ n ih =>
    obtain ⟨hmoved, hframe⟩ := ih (m := update m (dst + n) (m (src + n))) (by omega)
    rw [copyDown, copyByte_eq hdst hsrc (by omega)]
    refine ⟨fun i hi => ?_, fun x hx => ?_⟩
    · by_cases he : i = n
      · rw [he, hframe _ (by omega), update_self]
      · rw [hmoved i (by omega), update_of_ne (by omega)]
    · rw [hframe x (by omega), update_of_ne (by omega)]

/-- However the two ranges overlap. -/
theorem memmove_moves (hdst : dst + size ≤ 2 ^ 32) (hsrc : src + size ≤ 2 ^ 32) :
    (∀ i < size, memmove dst src size m (dst + i) = m (src + i)) ∧
      ∀ x, x < dst ∨ dst + size ≤ x → memmove dst src size m x = m x := by
  have hmoved : Moved dst src size m (memmove dst src size m) := by
    rw [memmove]
    split_ifs with hlt
    · exact copyUp_moved hdst hsrc hlt (Nat.le_refl _)
    · exact copyDown_moved hdst hsrc (Nat.le_of_not_lt hlt) (Nat.le_refl _)
  exact ⟨hmoved.moved, hmoved.frame⟩

/-- Three bytes move up by one. -/
theorem memmove_moves_three :
    (∀ i < 3, memmove 1 0 3 (BitVec.ofNat 8) (1 + i) = BitVec.ofNat 8 (0 + i)) ∧
      ∀ x, x < 1 ∨ 1 + 3 ≤ x → memmove 1 0 3 (BitVec.ofNat 8) x = BitVec.ofNat 8 x :=
  memmove_moves (by decide) (by decide)

end Memmove

/-! ## strlen -/

/-- The loop of `strlen`. -/
def strlenLoop (m : ByteMem) (s : Nat) : Nat → Nat → Option Nat
  | 0, _ => none
  | fuel + 1, len => if m (index s len) ≠ 0 then strlenLoop m s fuel (len + 1) else some len

def strlen (fuel : Nat) (m : ByteMem) (s : Nat) : Option Nat := strlenLoop m s fuel 0

/-- At `s` is a string of `len` bytes and the NUL behind them. -/
structure IsString (m : ByteMem) (s len : Nat) : Prop where
  bytes : ∀ i < len, m (s + i) ≠ 0
  nul : m (s + len) = 0
  fits : s + len < 2 ^ 32

theorem IsString.strlenLoop {m : ByteMem} {s len : Nat} (h : IsString m s len) {k fuel : Nat}
    (hk : k ≤ len) (hfuel : len - k < fuel) : strlenLoop m s fuel k = some len := by
  induction fuel generalizing k with
  | zero => omega
  | succ fuel ih =>
    have hfits := h.fits
    rw [Util.strlenLoop, index_eq (by omega)]
    by_cases he : k = len
    · rw [he, if_neg (not_not_intro h.nul)]
    · rw [if_pos (h.bytes k (by omega))]
      exact ih (by omega) (by omega)

theorem IsString.strlen {m : ByteMem} {s len : Nat} (h : IsString m s len) {fuel : Nat}
    (hfuel : len < fuel) : strlen fuel m s = some len :=
  h.strlenLoop (Nat.zero_le _) (by omega)

/-! ## strcpy -/

/-- What a call has done: the memory, and the addresses that it has read and written. -/
structure Trace where
  mem : ByteMem
  reads : List Nat
  writes : List Nat

/-- A round of the loop of `strcpy`, with the read of the next byte in its test. -/
def copyChar (dest src : Nat) (t : Trace) : Trace where
  mem := update t.mem dest (t.mem src)
  reads := t.reads ++ [src, index src 1]
  writes := t.writes ++ [dest]

/-- The loop of `strcpy`. -/
def strcpyLoop : Nat → Nat → Nat → Trace → Option Trace
  | 0, _, _, _ => none
  | fuel + 1, tmpDest, src, t =>
    let t := copyChar tmpDest src t
    if t.mem (index src 1) ≠ 0 then strcpyLoop fuel (index tmpDest 1) (index src 1) t else some t

def strcpy (fuel : Nat) (m : ByteMem) (dest src : Nat) : Option Trace :=
  strcpyLoop fuel dest src ⟨m, [], []⟩

/-- The bytes of the string and its NUL are at `dest`, nothing else has changed, and nothing behind
the NUL was read. -/
structure Copies (m : ByteMem) (dest src len : Nat) (t : Trace) : Prop where
  bytes : ∀ i ≤ len, t.mem (dest + i) = m (src + i)
  frame : ∀ x, x < dest ∨ dest + len < x → t.mem x = m x
  reads : ∀ x ∈ t.reads, src ≤ x ∧ x ≤ src + len
  length : ∀ fuel, len < fuel → strlen fuel t.mem dest = some len

section Strcpy

variable {m : ByteMem} {dest src len fuel : Nat} {t t' : Trace}

/-- The loop from the character `k` on, when the ones before are copied. -/
theorem IsString.strcpyLoop (h : IsString m src len) (hdest : dest + len < 2 ^ 32)
    (hapart : src + len < dest ∨ dest + len < src) {k : Nat} (hk : k < len)
    (hmoved : Moved dest src k m t.mem) (hfuel : len - k ≤ fuel) :
    ∃ t', strcpyLoop fuel (dest + k) (src + k) t = some t' ∧ Moved dest src len m t'.mem ∧
      (∀ x ∈ t'.reads, x ∈ t.reads ∨ src ≤ x ∧ x ≤ src + len) ∧
      ∀ x ∈ t'.writes, x ∈ t.writes ∨ x < dest + len := by
  have hfits := h.fits
  induction fuel generalizing k t with
  | zero => omega
  | succ fuel ih =>
    have hsrc : index (src + k) 1 = src + (k + 1) := index_eq (by omega)
    have hread : t.mem (src + k) = m (src + k) := hmoved.frame _ (by omega)
    have hmoved' : Moved dest src (k + 1) m (copyChar (dest + k) (src + k) t).mem := by
      rw [copyChar, hread]
      exact hmoved.succ
    have htest : (copyChar (dest + k) (src + k) t).mem (src + (k + 1)) = m (src + (k + 1)) :=
      hmoved'.frame _ (by omega)
    have hreads (x : Nat) (hx : x ∈ (copyChar (dest + k) (src + k) t).reads) :
        x ∈ t.reads ∨ src ≤ x ∧ x ≤ src + len := by
      rw [copyChar, hsrc, List.mem_append] at hx
      rcases hx with hx | hx
      · exact .inl hx
      · simp only [List.mem_cons, List.not_mem_nil, or_false] at hx
        omega
    have hwrites (x : Nat) (hx : x ∈ (copyChar (dest + k) (src + k) t).writes) :
        x ∈ t.writes ∨ x < dest + len := by
      rw [copyChar, List.mem_append, List.mem_singleton] at hx
      rcases hx with hx | rfl
      · exact .inl hx
      · exact .inr (by omega)
    rw [Util.strcpyLoop]
    rw [hsrc, htest]
    by_cases hlast : k + 1 = len
    · rw [hlast, if_neg (not_not_intro h.nul)]
      exact ⟨_, rfl, hlast ▸ hmoved', hreads, hwrites⟩
    · rw [if_pos (h.bytes (k + 1) (by omega)), index_eq (by omega : dest + k + 1 < 2 ^ 32),
        Nat.add_assoc]
      obtain ⟨t', hrun, hmem, hr, hw⟩ := ih (k := k + 1) (by omega) hmoved' (by omega)
      refine ⟨t', hrun, hmem, fun x hx => ?_, fun x hx => ?_⟩
      · rcases hr x hx with hx | hx
        · exact hreads x hx
        · exact .inr hx
      · rcases hw x hx with hx | hx
        · exact hwrites x hx
        · exact .inr hx

theorem strcpyLoop_mono {fuel' tmpDest s : Nat} (hle : fuel ≤ fuel')
    (hrun : strcpyLoop fuel tmpDest s t = some t') : strcpyLoop fuel' tmpDest s t = some t' := by
  induction fuel generalizing fuel' tmpDest s t with
  | zero => cases hrun
  | succ fuel ih =>
    obtain ⟨k, rfl⟩ : ∃ k, fuel' = k + 1 := ⟨fuel' - 1, by omega⟩
    rw [strcpyLoop] at hrun ⊢
    split_ifs at hrun ⊢
    · exact ih (by omega) hrun
    · exact hrun

theorem strcpyLoop_reads {x tmpDest s : Nat} (hrun : strcpyLoop fuel tmpDest s t = some t')
    (hx : x ∈ t.reads) : x ∈ t'.reads := by
  induction fuel generalizing tmpDest s t with
  | zero => cases hrun
  | succ fuel ih =>
    have hmem : x ∈ (copyChar tmpDest s t).reads := List.mem_append_left _ hx
    rw [strcpyLoop] at hrun
    split_ifs at hrun
    · exact ih hrun hmem
    · cases hrun
      exact hmem

/-- The test of the first round reads the byte behind the first. -/
theorem strcpy_reads (hrun : strcpy fuel m dest src = some t) : index src 1 ∈ t.reads := by
  cases fuel with
  | zero => cases hrun
  | succ fuel =>
    have hmem : index src 1 ∈ (copyChar dest src ⟨m, [], []⟩).reads := by
      simp [copyChar]
    rw [strcpy, strcpyLoop] at hrun
    split_ifs at hrun
    · exact strcpyLoop_reads hrun hmem
    · cases hrun
      exact hmem

/-- The string is at `dest` exactly when it is not empty and a zero byte was there before for its
NUL: no call writes the NUL without a read behind it. -/
theorem strcpy_copies_iff (h : IsString m src len) (hdest : dest + len < 2 ^ 32)
    (hapart : src + len < dest ∨ dest + len < src) :
    ((∃ fuel₀ t, (∀ fuel ≥ fuel₀, strcpy fuel m dest src = some t) ∧ Copies m dest src len t) ↔
      len ≠ 0 ∧ m (dest + len) = 0) ∧
    ∀ fuel t, strcpy fuel m dest src = some t →
      ¬ ((∀ x ∈ t.reads, src ≤ x ∧ x ≤ src + len) ∧ dest + len ∈ t.writes) := by
  have hfits := h.fits
  have hstart : Moved dest src 0 m (Trace.mem ⟨m, [], []⟩) :=
    ⟨fun i hi => absurd hi (Nat.not_lt_zero i), fun _ _ => rfl⟩
  have hrun (hne : len ≠ 0) : ∃ t, (∀ fuel ≥ len, strcpy fuel m dest src = some t) ∧
      Moved dest src len m t.mem ∧ (∀ x ∈ t.reads, src ≤ x ∧ x ≤ src + len) ∧
      ∀ x ∈ t.writes, x < dest + len := by
    obtain ⟨t, ht, hmoved, hreads, hwrites⟩ :=
      h.strcpyLoop hdest hapart (Nat.pos_of_ne_zero hne) hstart
      (Nat.le_refl (len - 0))
    refine ⟨t, fun fuel hfuel => strcpyLoop_mono hfuel ht, hmoved, fun x hx => ?_, fun x hx => ?_⟩
    · exact (hreads x hx).resolve_left List.not_mem_nil
    · exact (hwrites x hx).resolve_left List.not_mem_nil
  have hnonempty {fuel : Nat} {t : Trace} (ht : strcpy fuel m dest src = some t)
      (hreads : ∀ x ∈ t.reads, src ≤ x ∧ x ≤ src + len) : len ≠ 0 := by
    rintro rfl
    have hle := hreads _ (strcpy_reads ht)
    rw [index] at hle
    omega
  refine ⟨⟨?_, ?_⟩, fun fuel t ht hclaim => ?_⟩
  · rintro ⟨fuel₀, t, hsettles, hcopies⟩
    have hne : len ≠ 0 :=
      hnonempty (hsettles fuel₀ (Nat.le_refl _)) hcopies.reads
    refine ⟨hne, ?_⟩
    obtain ⟨t', ht', hmoved, -⟩ := hrun hne
    have hsame := ht' (max fuel₀ len) (Nat.le_max_right ..)
    rw [hsettles _ (Nat.le_max_left ..), Option.some.injEq] at hsame
    rw [← hmoved.frame (dest + len) (by omega), ← hsame, hcopies.bytes len (Nat.le_refl _)]
    exact h.nul
  · rintro ⟨hne, hnul⟩
    obtain ⟨t, ht, hmoved, hreads, -⟩ := hrun hne
    have hend : t.mem (dest + len) = 0 := (hmoved.frame _ (by omega)).trans hnul
    have hcopy : IsString t.mem dest len := by
      refine ⟨fun i hi => ?_, hend, hdest⟩
      rw [hmoved.moved i hi]
      exact h.bytes i hi
    refine ⟨len, t, ht, fun i hi => ?_, fun x hx => hmoved.frame x (by omega), hreads,
      fun fuel hfuel => hcopy.strlen hfuel⟩
    by_cases he : i = len
    · rw [he, hend, h.nul]
    · exact hmoved.moved i (by omega)
  · obtain ⟨hreads, hmem⟩ := hclaim
    obtain ⟨t', ht', -, -, hwrites⟩ := hrun (hnonempty ht hreads)
    have hsame := ht' (max fuel len) (Nat.le_max_right ..)
    rw [strcpy, strcpyLoop_mono (Nat.le_max_left ..) ht, Option.some.injEq] at hsame
    rw [hsame] at hmem
    exact Nat.lt_irrefl _ (hwrites _ hmem)

/-- The memory with the string `s` at 16, and `x` in all other bytes. -/
def withString (s : List (BitVec 8)) (x : BitVec 8) : ByteMem := fun a =>
  if 16 ≤ a then (s ++ [0]).getD (a - 16) x else x

theorem withString_isString : IsString (withString [0x61, 0x62] 0) 16 2 :=
  ⟨by decide, by decide, by decide⟩

theorem strcpy_copies_two :
    (∃ fuel₀ t, (∀ fuel ≥ fuel₀, strcpy fuel (withString [0x61, 0x62] 0) 0 16 =
      some t) ∧ Copies (withString [0x61, 0x62] 0) 0 16 2 t) ∧
    ∀ fuel t, strcpy fuel (withString [0x61, 0x62] 0) 0 16 = some t →
      ¬ ((∀ x ∈ t.reads, 16 ≤ x ∧ x ≤ 16 + 2) ∧ 0 + 2 ∈ t.writes) := by
  obtain ⟨hiff, hnul⟩ := @strcpy_copies_iff _ 0 16 2 withString_isString (by decide) (by decide)
  exact ⟨hiff.2 ⟨by decide, by decide⟩, hnul⟩

/-- The destination held other bytes before. -/
theorem strcpy_no_nul : ¬ ∀ (m : ByteMem) (dest src len : Nat), IsString m src len →
    dest + len < 2 ^ 32 → src + len < dest ∨ dest + len < src →
    ∃ fuel₀ t, (∀ fuel ≥ fuel₀, strcpy fuel m dest src = some t) ∧ Copies m dest src len t := by
  intro hclaim
  have hstring : IsString (withString [0x61] 0x7A) 16 1 := ⟨by decide, by decide, by decide⟩
  obtain ⟨fuel₀, t, ht, hcopies⟩ := hclaim _ 0 16 1 hstring (by decide) (by decide)
  have hrun : ((strcpy 9 (withString [0x61] 0x7A) 0 16).any fun t => t.mem 1 = 0x7A) = true := by
    decide
  obtain ⟨t', ht', hbyte⟩ := (Option.any_eq_true _ _).1 hrun
  have hsame := ht (max fuel₀ 9) (Nat.le_max_left ..)
  rw [strcpy, strcpyLoop_mono (Nat.le_max_right ..) ht', Option.some.injEq] at hsame
  have hnul := hcopies.bytes 1 (Nat.le_refl _)
  rw [← hsame, of_decide_eq_true hbyte] at hnul
  exact absurd hnul (by decide)

end Strcpy

end TinyLittleOs.Util
