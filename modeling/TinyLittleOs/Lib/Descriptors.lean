import Mathlib.Data.List.Basic
import Mathlib.Data.Nat.Notation
import Mathlib.Tactic.Ring

/-!
# Descriptor tables

Tables of segments and of gates as the processor reads them, eight bytes for each entry, and the
checks it makes before it enters a handler.
-/

namespace TinyLittleOs.Lib

abbrev DescriptorTable := List (BitVec 8)

/-- The bytes of an entry, where the table has it. -/
def entryAt (t : DescriptorTable) (i : Nat) : Option (Nat → Nat) :=
  if 8 * i + 8 ≤ t.length then some fun j => (t.getD (8 * i + j) 0).toNat else none

/-- The privilege level of an entry, and whether it is there. -/
def levelOf (access : Nat) : Nat := access / 32 % 4

def isPresent (access : Nat) : Prop := 128 ≤ access

instance (access : Nat) : Decidable (isPresent access) := inferInstanceAs (Decidable (_ ≤ _))

@[ext]
structure Segment where
  base : Nat
  limit : Nat
  access : Nat
  flags : Nat
  deriving DecidableEq

namespace Segment

def decode (b : Nat → Nat) : Segment where
  base := b 2 + b 3 * 2 ^ 8 + b 4 * 2 ^ 16 + b 7 * 2 ^ 24
  limit := b 0 + b 1 * 2 ^ 8 + b 6 % 16 * 2 ^ 16
  access := b 5
  flags := b 6 / 16

def level (s : Segment) : Nat := levelOf s.access

def IsCode (s : Segment) : Prop := s.access / 8 % 4 = 3

def IsWritable (s : Segment) : Prop := s.access / 8 % 4 = 2 ∧ s.access / 2 % 2 = 1

def IsConforming (s : Segment) : Prop := s.access / 4 % 2 = 1

/-- The segment begins at 0 and has all of the 4 GiB. -/
def IsFlat (s : Segment) : Prop := s.base = 0 ∧ s.limit = 2 ^ 20 - 1 ∧ 8 ≤ s.flags

instance (s : Segment) : Decidable s.IsCode := inferInstanceAs (Decidable (_ = _))
instance (s : Segment) : Decidable s.IsWritable := inferInstanceAs (Decidable (_ ∧ _))
instance (s : Segment) : Decidable s.IsConforming := inferInstanceAs (Decidable (_ = _))
instance (s : Segment) : Decidable s.IsFlat := inferInstanceAs (Decidable (_ ∧ _))

end Segment

@[ext]
structure Gate where
  offset : Nat
  selector : Nat
  attributes : Nat
  deriving DecidableEq

namespace Gate

def decode (b : Nat → Nat) : Gate where
  offset := b 0 + b 1 * 2 ^ 8 + b 6 * 2 ^ 16 + b 7 * 2 ^ 24
  selector := b 2 + b 3 * 2 ^ 8
  attributes := b 5

def level (g : Gate) : Nat := levelOf g.attributes

/-- An interrupt gate, which disables interrupts, or a trap gate, of 32 bits. Others are not in use
here. -/
def IsInterrupt (g : Gate) : Prop := g.attributes % 32 = 0x0E
def IsTrap (g : Gate) : Prop := g.attributes % 32 = 0x0F

instance (g : Gate) : Decidable g.IsInterrupt := inferInstanceAs (Decidable (_ = _))
instance (g : Gate) : Decidable g.IsTrap := inferInstanceAs (Decidable (_ = _))

end Gate

def segmentAt (t : DescriptorTable) (i : Nat) : Option Segment := (entryAt t i).map Segment.decode

def gateAt (t : DescriptorTable) (i : Nat) : Option Gate := (entryAt t i).map Gate.decode

/-- An exception of the processor, with its error code. -/
structure GateFault where
  vector : Nat
  error : Nat
  deriving DecidableEq

/-- Why the processor enters a handler. -/
inductive Cause where
  /-- A device. -/
  | external (vector : Nat)
  /-- The instruction `int`. -/
  | software (vector : Nat)
  /-- The processor itself, for some vectors with an error code. -/
  | exception (vector : Nat) (error : Option Nat)
  deriving DecidableEq

namespace Cause

def vector : Cause → Nat
  | external v | software v | exception v _ => v

def isSoftware : Cause → Bool
  | software _ => true
  | _ => false

/-- The bit of an error code that says that the cause is not in the program. -/
def ext : Cause → Nat
  | software _ => 0
  | _ => 1

def error : Cause → Option Nat
  | exception _ e => e
  | _ => none

end Cause

/-- The gate for a cause, at the privilege level `cpl`. -/
def gateFor (idt : DescriptorTable) (c : Cause) (cpl : Nat) : Except GateFault Gate :=
  match gateAt idt c.vector with
  | none => .error ⟨13, c.vector * 8 + 2 + c.ext⟩
  | some g =>
    if ¬ g.IsInterrupt ∧ ¬ g.IsTrap then .error ⟨13, c.vector * 8 + 2 + c.ext⟩
    else if c.isSoftware ∧ g.level < cpl then .error ⟨13, c.vector * 8 + 2⟩
    else if ¬ isPresent g.attributes then .error ⟨11, c.vector * 8 + 2 + c.ext⟩
    else .ok g

/-- The code segment of a gate, and the privilege level of the handler. -/
def codeFor (gdt : DescriptorTable) (selector ext cpl : Nat) : Except GateFault Nat :=
  if selector / 4 = 0 then .error ⟨13, ext⟩
  else match segmentAt gdt (selector / 8) with
    | none => .error ⟨13, selector / 4 * 4 + ext⟩
    | some s =>
      if ¬ s.IsCode ∨ cpl < s.level then .error ⟨13, selector / 4 * 4 + ext⟩
      else if ¬ isPresent s.access then .error ⟨11, selector / 4 * 4 + ext⟩
      else .ok (if s.IsConforming then cpl else s.level)

/-- Whether the stack of a handler at the privilege level `level` can be used. -/
def stackFor (gdt : DescriptorTable) (selector ext level : Nat) : Except GateFault Unit :=
  if selector / 4 = 0 then .error ⟨10, ext⟩
  else match segmentAt gdt (selector / 8) with
    | none => .error ⟨10, selector / 4 * 4 + ext⟩
    | some s =>
      if selector % 4 ≠ level ∨ s.level ≠ level ∨
        ¬ s.IsWritable then .error ⟨10, selector / 4 * 4 + ext⟩
      else if ¬ isPresent s.access then .error ⟨12, selector / 4 * 4 + ext⟩
      else .ok ()

/-- What the processor can access with a selector, unless it is null or one of a local table. -/
def dataFor (gdt : DescriptorTable) (selector : Nat) : Option Segment :=
  if selector / 4 = 0 ∨ selector / 4 % 2 = 1 then none else segmentAt gdt (selector / 8)

/-- All of memory can be read and written with a selector that a program at the privilege level
`cpl` loads. -/
def FlatData (gdt : DescriptorTable) (cpl selector : Nat) : Prop :=
  ∃ s, dataFor gdt selector = some s ∧ s.IsFlat ∧ s.IsWritable ∧ isPresent s.access ∧ cpl ≤ s.level

instance (gdt : DescriptorTable) (cpl selector : Nat) : Decidable (FlatData gdt cpl selector) :=
  match h : dataFor gdt selector with
  | none => isFalse (by rintro ⟨s, hs, -⟩; rw [h] at hs; cases hs)
  | some s => decidable_of_iff (s.IsFlat ∧ s.IsWritable ∧ isPresent s.access ∧ cpl ≤ s.level) (by
      rw [FlatData, h]
      simp)

theorem FlatData.mono {gdt : DescriptorTable} {cpl cpl' selector : Nat}
    (h : FlatData gdt cpl selector)
    (hle : cpl' ≤ cpl) : FlatData gdt cpl' selector := by
  obtain ⟨s, hs, hflat, hwritable, hpresent, hlevel⟩ := h
  exact ⟨s, hs, hflat, hwritable, hpresent, Nat.le_trans hle hlevel⟩

/-! ## Tables of entries -/

section Entries

variable {α : Type} {f : α → List (BitVec 8)} (hf : ∀ a, (f a).length = 8)
include hf

theorem length_flatMap_eight (l : List α) : (l.flatMap f).length = 8 * l.length := by
  induction l with
  | nil => rfl
  | cons a l ih =>
    rw [List.flatMap_cons, List.length_append, hf, ih, List.length_cons]
    omega

theorem getD_flatMap_eight {l : List α} {i : Nat} {a : α} (h : l[i]? = some a) {j : Nat}
    (hj : j < 8) :
    (l.flatMap f).getD (8 * i + j) 0 = (f a).getD j 0 := by
  rw [List.getD_eq_getElem?_getD, List.getD_eq_getElem?_getD]
  congr 1
  induction l generalizing i with
  | nil => cases h
  | cons b l ih =>
    rw [List.flatMap_cons]
    cases i with
    | zero =>
      obtain rfl := Option.some.inj h
      rw [List.getElem?_append_left (by rw [hf]; omega), Nat.mul_zero, Nat.zero_add]
    | succ i =>
      rw [List.getElem?_append_right (by rw [hf]; omega), hf]
      have hi : 8 * (i + 1) + j - 8 = 8 * i + j := by omega
      rw [hi]
      exact ih h

/-- The entries of a table that is put together from its entries. -/
theorem entryAt_flatMap {β : Type} {decode : (Nat → Nat) → β} {l : List α} {i : Nat}
    (hdecode : ∀ b b' : Nat → Nat, (∀ j < 8, b j = b' j) → decode b = decode b') :
    (entryAt (l.flatMap f) i).map decode = l[i]?.map fun a => decode fun j =>
    ((f a).getD j 0).toNat := by
  rw [entryAt, length_flatMap_eight hf]
  by_cases hi : i < l.length
  · rw [if_pos (by omega), List.getElem?_eq_getElem hi]
    refine congrArg some (hdecode _ _ fun j hj => ?_)
    rw [getD_flatMap_eight hf (List.getElem?_eq_getElem hi) hj]
  · rw [if_neg (by omega), List.getElem?_eq_none (by omega)]
    rfl

/-- A table of segments, from what each of its entries is. -/
theorem segmentAt_flatMap {l : List α} {g : α → Segment}
    (hg : ∀ a ∈ l, (Segment.decode fun j => ((f a).getD j 0).toNat) = g a) (i : Nat) :
    segmentAt (l.flatMap f) i = l[i]?.map g := by
  have hcongr (b b' : Nat → Nat) (h : ∀ j < 8, b j = b' j) : Segment.decode b =
      Segment.decode b' := by
    simp [Segment.decode, h]
  apply (entryAt_flatMap hf hcongr).trans
  cases hi : l[i]? with
  | none => rw [Option.map_none, Option.map_none]
  | some a => rw [Option.map_some, Option.map_some, hg a (List.mem_of_getElem? hi)]

/-- A table of gates. -/
theorem gateAt_flatMap {l : List α} {g : α → Gate}
    (hg : ∀ a ∈ l, (Gate.decode fun j => ((f a).getD j 0).toNat) = g a) (i : Nat) :
    gateAt (l.flatMap f) i = l[i]?.map g := by
  have hcongr (b b' : Nat → Nat) (h : ∀ j < 8, b j = b' j) : Gate.decode b = Gate.decode b' := by
    simp [Gate.decode, h]
  apply (entryAt_flatMap hf hcongr).trans
  cases hi : l[i]? with
  | none => rw [Option.map_none, Option.map_none]
  | some a => rw [Option.map_some, Option.map_some, hg a (List.mem_of_getElem? hi)]

end Entries

end TinyLittleOs.Lib
