import TinyLittleOs.Devices.Tty
import TinyLittleOs.Lib.Bitmap

/-!
# The keyboard

`devices/keyboard.cpp`. A scan code is a key and whether it goes down. What is on the screen after
some scan codes is a function of the scan codes alone: which keys are held, and the characters of
the keys that went down.
-/

namespace TinyLittleOs.Devices

open Lib

/-- The characters of a string, which are all ASCII here. -/
def ascii (s : String) : List (BitVec 8) := s.toList.map fun c => BitVec.ofNat 8 c.toNat

def zeros (n : Nat) : List (BitVec 8) := List.replicate n 0

def kbdUs : List (BitVec 8) :=
  [0, 27] ++ ascii "1234567890-=" ++ [8, 9] ++
  ascii "qwertyuiop[]\n" ++ [0] ++
  ascii "asdfghjkl;'`" ++ [0] ++ ascii "\\" ++
  ascii "zxcvbnm,./" ++ [0] ++ ascii "*" ++ [0] ++
  ascii " " ++ zeros 16 ++
  ascii "-" ++ zeros 3 ++ ascii "+" ++ zeros 49

example : kbdUs.length = 128 := by rfl

/-- `is_down` -/
abbrev IsDown := Bitmap 32 4

namespace IsDown

/-- The index of the word of a scan code, and the mask of its bit. -/
def index (scanCode : BitVec 8) : Nat := (scanCode >>> 5).toNat

def mask (scanCode : BitVec 8) : BitVec 32 := 1#32 <<< (scanCode &&& 0x1F).toNat

def shift (k : IsDown) : Prop := k.word 1 &&& 1024 ≠ 0

instance (k : IsDown) : Decidable k.shift := inferInstanceAs (Decidable (_ ≠ _))

end IsDown

/-- The indices of `is_down` and `kbd_us` are in range. -/
def InRange (scanCode : BitVec 8) : Prop :=
  if scanCode &&& 0x80 ≠ 0 then IsDown.index (scanCode ^^^ 0x80) < 4
  else IsDown.index scanCode < 4 ∧ scanCode.toNat < kbdUs.length

instance (scanCode : BitVec 8) : Decidable (InRange scanCode) :=
  inferInstanceAs (Decidable (ite _ _ _))

/-- `on_scan_code` up to the call of `tty::put`, and the character for it. -/
def scan (scanCode : BitVec 8) (k : IsDown) : IsDown × Option (BitVec 8) :=
  if scanCode &&& 0x80 ≠ 0 then
    let scanCode := scanCode ^^^ 0x80
    (k.setWord (IsDown.index scanCode) (k.word (IsDown.index scanCode) &&& ~~~IsDown.mask scanCode),
      none)
  else
    let k : IsDown :=
      k.setWord (IsDown.index scanCode) (k.word (IsDown.index scanCode) ||| IsDown.mask scanCode)
    let usChar := kbdUs.getD scanCode.toNat 0
    if usChar ≠ 0 then
      (k, some (if 0x61 ≤ usChar ∧ usChar ≤ 0x7A ∧ k.shift then usChar - 32 else usChar))
    else (k, none)

/-- What `on_scan_code` works on. -/
structure Console where
  isDown : IsDown
  tty : Tty

def Console.onScanCode (scanCode : BitVec 8) (s : Console) : Except BadIndex Console :=
  if ¬ InRange scanCode then .error (.key scanCode)
  else
    let (isDown, c) := scan scanCode s.isDown
    match c with
    | none => .ok ⟨isDown, s.tty⟩
    | some c => do
      let tty ← s.tty.put c
      .ok ⟨isDown, tty⟩

def Console.scanCodes (l : List (BitVec 8)) (s : Console) : Except BadIndex Console :=
  l.foldlM (fun s scanCode => s.onScanCode scanCode) s

/-! ## What was typed -/

/-- The key of a scan code. -/
def key (scanCode : BitVec 8) : Nat := scanCode.toNat % 128

def GoesDown (scanCode : BitVec 8) : Prop := scanCode.toNat < 128

instance (scanCode : BitVec 8) : Decidable (GoesDown scanCode) :=
  inferInstanceAs (Decidable (_ < _))

/-- After these scan codes the key is held: it went down last. -/
def Held (past : List (BitVec 8)) (k : Nat) : Prop :=
  ∃ c ∈ (past.filter fun c => key c = k).getLast?, GoesDown c

instance (past : List (BitVec 8)) (k : Nat) : Decidable (Held past k) :=
  match h : (past.filter fun c => key c = k).getLast? with
  | none => isFalse (by rw [Held, h]; simp)
  | some c => decidable_of_iff (GoesDown c) (by rw [Held, h]; simp)

/-- The left shift key. -/
def shiftKey : Nat := 42

/-- The character of a scan code after others, if there is one. -/
def typed (past : List (BitVec 8)) (scanCode : BitVec 8) : Option (BitVec 8) :=
  let usChar := kbdUs.getD (key scanCode) 0
  if GoesDown scanCode ∧ usChar ≠ 0 then
    some (if 0x61 ≤ usChar ∧ usChar ≤ 0x7A ∧ Held past shiftKey then usChar - 32 else usChar)
  else none

/-- The characters of some scan codes after others. -/
def typedText (past : List (BitVec 8)) : List (BitVec 8) → List (BitVec 8)
  | [] => []
  | c :: l => (typed past c).toList ++ typedText (past ++ [c]) l

section Held

variable {past : List (BitVec 8)} {c : BitVec 8} {k : Nat}

theorem held_nil : ¬ Held [] k := by
  rintro ⟨c, hc, -⟩
  cases hc

theorem held_append_of_ne (h : key c ≠ k) : Held (past ++ [c]) k ↔ Held past k := by
  simp [Held, h]

theorem held_append_self : Held (past ++ [c]) (key c) ↔ GoesDown c := by
  simp [Held]

theorem held_append :
    Held (past ++ [c]) k ↔ (Held past k ∧ key c ≠ k) ∨ (key c = k ∧ GoesDown c) := by
  by_cases h : key c = k
  · subst h
    simp [held_append_self]
  · simp [held_append_of_ne h, h]

end Held

/-! ## The words of `is_down` -/

/-- The bits are set for the keys that are held. -/
def Follows (k : IsDown) (past : List (BitVec 8)) : Prop := ∀ i < 128, k.bit i = true ↔ Held past i

theorem follows_nil {k : IsDown} (h : k.isZero = true) : Follows k [] := by
  intro i _
  rw [Bitmap.isZero_iff.1 h i]
  exact ⟨fun hbit => absurd hbit Bool.false_ne_true, fun hheld => absurd hheld held_nil⟩

theorem and_not_and {w : Nat} (x y : BitVec w) : x &&& ~~~(x &&& y) = x &&& ~~~y := by
  apply BitVec.eq_of_getLsbD_eq
  intro i hi
  simp only [BitVec.getLsbD_and, BitVec.getLsbD_not, hi, decide_true, Bool.true_and]
  cases x.getLsbD i <;> simp

/-- The index of a key is in range. -/
theorem index_spec {c : BitVec 8} (h : c.toNat < 128) :
    IsDown.index c = c.toNat / 32 ∧ IsDown.index c < 4 ∧
    (c &&& 0x1F).toNat = c.toNat % 32 ∧ IsDown.index c * 32 + (c &&& 0x1F).toNat = c.toNat := by
  have hindex : IsDown.index c = c.toNat / 32 := by
    rw [IsDown.index, BitVec.toNat_ushiftRight, Nat.shiftRight_eq_div_pow]
  have hmask : (c &&& 0x1F).toNat = c.toNat % 32 := by
    rw [BitVec.toNat_and]
    exact Nat.and_two_pow_sub_one_eq_mod _ 5
  rw [hindex, hmask]
  omega

theorem toNat_and_80 (c : BitVec 8) : c &&& 0x80 ≠ 0 ↔ ¬ GoesDown c := by
  rw [GoesDown]
  revert c
  decide

theorem toNat_xor_80 (c : BitVec 8) (h : ¬ GoesDown c) : (c ^^^ 0x80).toNat = key c := by
  rw [GoesDown, key] at *
  revert c
  decide

theorem key_lt (c : BitVec 8) : key c < 128 := Nat.mod_lt _ (by decide)

theorem key_of_goesDown {c : BitVec 8} (h : GoesDown c) : key c = c.toNat := Nat.mod_eq_of_lt h

theorem inRange (c : BitVec 8) : InRange c := by
  rw [InRange]
  split
  · rename_i hup
    refine (index_spec ?_).2.1
    rw [toNat_xor_80 c ((toNat_and_80 c).1 hup)]
    exact key_lt c
  · rename_i hup
    have hdown : GoesDown c := by
      by_contra hnot
      exact hup ((toNat_and_80 c).2 hnot)
    exact ⟨(index_spec hdown).2.1, hdown⟩

section Scan

variable {k : IsDown} {past : List (BitVec 8)} (h : Follows k past) (c : BitVec 8)
include h

theorem Follows.shift_iff : k.shift ↔ Held past shiftKey :=
  (Bitmap.word_and_bit_ne_zero (m := k) (a := 1) (k := 10) (by decide)).trans
    (h shiftKey (by decide))

/-- A scan code sets or clears the bit of its key. -/
theorem Follows.scan : Follows (scan c k).1 (past ++ [c]) := by
  intro i hi
  rw [held_append]
  by_cases hup : c &&& 0x80 ≠ 0
  · rw [Devices.scan, if_pos hup]
    have hnot := (toNat_and_80 c).1 hup
    have hkey := toNat_xor_80 c hnot
    generalize c ^^^ 0x80 = d at hkey ⊢
    obtain ⟨-, hlt, hlow, hbit⟩ := index_spec (show d.toNat < 128 by rw [hkey]; exact key_lt c)
    have hmask : (d &&& 0x1F).toNat < 32 := by omega
    have hclear := Bitmap.bit_clear (m := k) hlt hmask i
    rw [and_not_and, hbit, hkey] at hclear
    dsimp only
    rw [IsDown.mask, hclear, Bool.and_eq_true, h i hi]
    grind
  · rw [Devices.scan, if_neg hup]
    have hdown : GoesDown c := by
      by_contra hnot
      exact hup ((toNat_and_80 c).2 hnot)
    obtain ⟨-, hlt, hlow, hbit⟩ := index_spec hdown
    have hmask : (c &&& 0x1F).toNat < 32 := by omega
    have hset := Bitmap.bit_set (m := k) hlt hmask i
    rw [hbit] at hset
    have hboth : (k.setWord (IsDown.index c) (k.word (IsDown.index c) ||| IsDown.mask c)).bit i =
        true ↔
        (Held past i ∧ key c ≠ i) ∨ (key c = i ∧ GoesDown c) := by
      rw [IsDown.mask, hset, Bool.or_eq_true, h i hi, key_of_goesDown hdown]
      simp only [decide_eq_true_eq, hdown, and_true, eq_comm (a := i)]
      tauto
    dsimp only
    split <;> exact hboth

/-- The character depends on the keys that are held. -/
theorem Follows.scan_char : (Devices.scan c k).2 = typed past c := by
  by_cases hup : c &&& 0x80 ≠ 0
  · have hnot := (toNat_and_80 c).1 hup
    rw [Devices.scan, if_pos hup, typed, if_neg fun hboth => hnot hboth.1]
  · have hdown : GoesDown c := by
      by_contra hnot
      exact hup ((toNat_and_80 c).2 hnot)
    have hfollows := h.scan c
    have hshift : kbdUs.getD c.toNat 0 ≠ 0 → key c ≠ shiftKey := by
      intro hchar heq
      rw [key_of_goesDown hdown] at heq
      rw [heq] at hchar
      exact hchar (by decide)
    rw [Devices.scan, if_neg hup] at hfollows ⊢
    rw [typed, key_of_goesDown hdown]
    dsimp only at hfollows ⊢
    generalize kbdUs.getD c.toNat 0 = usChar at hfollows hshift ⊢
    by_cases hchar : usChar = 0
    · rw [if_neg (not_not.2 hchar), if_neg fun hboth => hboth.2 hchar]
    · rw [if_pos hchar] at hfollows ⊢
      have hheld := hfollows.shift_iff.trans (held_append_of_ne (hshift hchar))
      have hboth : GoesDown c ∧ usChar ≠ 0 := ⟨hdown, hchar⟩
      dsimp only at hheld ⊢
      rw [if_pos hboth]
      simp only [hheld]

end Scan

/-- After `past`, the console shows `t` and knows the keys that are held. -/
structure Console.After (past : List (BitVec 8)) (t : Terminal) (s : Console) : Prop where
  follows : Follows s.isDown past
  shows : Shows s.tty t

section Console

variable {past : List (BitVec 8)} {t : Terminal} {s : Console}

theorem Console.After.onScanCode (h : s.After past t) (c : BitVec 8) :
    ∃ s', s.onScanCode c = .ok s' ∧
    s'.After (past ++ [c]) ((typed past c).toList.foldl (fun t c => t.put c) t) := by
  have hfollows := h.follows.scan c
  have hchar := h.follows.scan_char c
  rw [Console.onScanCode, if_neg (not_not_intro (inRange c))]
  generalize scan c s.isDown = r at hfollows hchar
  obtain ⟨isDown, usChar⟩ := r
  dsimp only at hfollows hchar ⊢
  rw [← hchar]
  cases usChar with
  | none => exact ⟨_, rfl, hfollows, h.shows⟩
  | some usChar =>
    obtain ⟨tty, hput, hshows, -⟩ := h.shows.put usChar
    dsimp only
    rw [hput]
    exact ⟨_, rfl, hfollows, hshows⟩

/-- No index is out of range, the keys that are held are known, and the characters are shown in
order. -/
theorem Console.After.scanCodes (h : s.After past t) (l : List (BitVec 8)) :
    ∃ s', s.scanCodes l = .ok s' ∧
    s'.After (past ++ l) ((typedText past l).foldl (fun t c => t.put c) t) := by
  induction l generalizing past t s with
  | nil => exact ⟨s, rfl, by simpa [typedText] using h⟩
  | cons c l ih =>
    obtain ⟨s₁, hc, h₁⟩ := h.onScanCode c
    obtain ⟨s', hl, h'⟩ := ih h₁
    refine ⟨s', ?_, ?_⟩
    · rw [Console.scanCodes, List.foldlM_cons, hc]
      exact hl
    · rw [List.append_assoc] at h'
      rw [typedText, List.foldl_append]
      exact h'

/-- The left shift key and the key of the letter, and the letter again without the shift key. -/
theorem Console.After.scanCodes_letters : ∃ (tty : Tty) (s' : Console),
    Tty.initializeTty ⟨0, 0, 0, fun _ => 0, fun _ => 0, 0, fun _ => 0⟩ = .ok tty ∧
    Console.scanCodes [0x2A, 0x1E, 0xAA, 0x1E] ⟨Vector.replicate 4 0, tty⟩ = .ok s' ∧
    s'.After [0x2A, 0x1E, 0xAA, 0x1E] ((Terminal.initial.put 0x41).put 0x61) := by
  obtain ⟨tty, htty, hshows⟩ := shows_initial ⟨0, 0, 0, fun _ => 0, fun _ => 0, 0, fun _ => 0⟩
  have hkeys : Bitmap.isZero (Vector.replicate 4 0 : IsDown) = true := by decide
  have hstart : Console.After [] Terminal.initial ⟨Vector.replicate 4 0, tty⟩ :=
    ⟨follows_nil hkeys, hshows⟩
  obtain ⟨s', hcodes, hafter⟩ := Console.After.scanCodes hstart [0x2A, 0x1E, 0xAA, 0x1E]
  have htext : typedText [] [0x2A, 0x1E, 0xAA, 0x1E] = [0x41, 0x61] := by decide
  rw [htext] at hafter
  exact ⟨tty, s', htty, hcodes, hafter⟩

end Console

end TinyLittleOs.Devices
