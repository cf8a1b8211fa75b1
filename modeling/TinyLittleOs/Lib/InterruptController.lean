import Mathlib.Data.BitVec
import Mathlib.Data.Fin.Basic
import Mathlib.Data.List.FinRange

/-!
# A pair of interrupt controllers

Two 8259 chips, the second one behind line 2 of the first. Requests are edge triggered, the line
with the lowest number goes first, and a line that is in service holds back itself and the lines
behind it until the end of its interrupt.
-/

namespace TinyLittleOs.Lib

/-- The line of a word that goes first. -/
def firstLine (w : BitVec 8) : Option (Fin 8) := (List.finRange 8).find? fun i => w.getLsbD i

def lineBit (i : Fin 8) : BitVec 8 := 1#8 <<< i.val

theorem firstLine_eq_none {w : BitVec 8} : firstLine w = none ↔ w = 0 := by
  rw [firstLine, List.find?_eq_none]
  constructor
  · intro h
    refine BitVec.eq_of_getLsbD_eq fun i hi => ?_
    exact (Bool.eq_false_of_not_eq_true (h ⟨i, hi⟩ (List.mem_finRange _))).trans
      BitVec.getLsbD_zero.symm
  · rintro rfl i -
    simp

theorem firstLine_eq_some {w : BitVec 8} {i : Fin 8} :
    firstLine w = some i ↔ w.getLsbD i = true ∧ ∀ j < i, w.getLsbD j = false := by
  rw [firstLine, List.find?_eq_some_iff_getElem]
  refine and_congr_right fun _ => ⟨?_, fun hbefore => ?_⟩
  · rintro ⟨n, hn, rfl, hbefore⟩ j hj
    rw [List.getElem_finRange] at hj
    simpa using hbefore j hj
  · refine ⟨i, by simp, by simp, fun j hj => ?_⟩
    simpa using hbefore ⟨j, by omega⟩ hj

theorem firstLine_spec {w : BitVec 8} {i : Fin 8} (h : firstLine w = some i) : w.getLsbD i = true :=
  (firstLine_eq_some.1 h).1

/-- What is raised is first itself or behind the first. -/
theorem firstLine_le {w : BitVec 8} {i : Fin 8} (h : w.getLsbD i = true) :
    ∃ j, firstLine w = some j ∧ j ≤ i := by
  cases hfirst : firstLine w with
  | none =>
    rw [firstLine_eq_none.1 hfirst] at h
    simp at h
  | some j =>
    refine ⟨j, rfl, not_lt.1 fun hlt => ?_⟩
    rw [(firstLine_eq_some.1 hfirst).2 i hlt] at h
    cases h

theorem getLsbD_lineBit (i j : Fin 8) : (lineBit j).getLsbD i = decide (i = j) := by
  rw [lineBit, BitVec.getLsbD_shiftLeft, BitVec.getLsbD_one]
  grind

theorem set_line (w : BitVec 8) (i j : Fin 8) :
    (w ||| lineBit j).getLsbD i = (w.getLsbD i || decide (i = j)) := by
  rw [BitVec.getLsbD_or, getLsbD_lineBit]

theorem clear_line (w : BitVec 8) (i j : Fin 8) :
    (w &&& ~~~lineBit j).getLsbD i = (w.getLsbD i && !decide (i = j)) := by
  rw [BitVec.getLsbD_and, BitVec.getLsbD_not, getLsbD_lineBit, decide_eq_true i.isLt, Bool.true_and]

/-- A line in front of all others is the first, and without it the others are left. -/
theorem firstLine_or {w : BitVec 8} {i : Fin 8} (h : ∀ j, firstLine w = some j → i < j) :
    firstLine (w ||| lineBit i) = some i ∧ (w ||| lineBit i) &&& ~~~lineBit i = w := by
  have hclear : ∀ k ≤ i, w.getLsbD k = false := by
    intro k hk
    by_contra hset
    obtain ⟨j, hj, hle⟩ := firstLine_le (Bool.eq_true_of_not_eq_false hset)
    exact absurd (h j hj) (not_lt.2 (hle.trans hk))
  constructor
  · refine firstLine_eq_some.2 ⟨?_, fun j hj => ?_⟩
    · rw [set_line, decide_eq_true rfl, Bool.or_true]
    · rw [set_line, hclear j hj.le, decide_eq_false hj.ne, Bool.or_false]
  · refine BitVec.eq_of_getLsbD_eq fun k hk => ?_
    rw [clear_line _ ⟨k, hk⟩, set_line _ ⟨k, hk⟩]
    by_cases hki : (⟨k, hk⟩ : Fin 8) = i
    · rw [decide_eq_true hki, Bool.not_true, Bool.and_false]
      exact (hclear ⟨k, hk⟩ hki.le).symm
    · rw [decide_eq_false hki, Bool.not_false, Bool.and_true, Bool.or_false]

structure Chip where
  /-- The vector of line 0. -/
  base : BitVec 8
  imr : BitVec 8
  irr : BitVec 8
  isr : BitVec 8
  /-- The initialization word that comes next, 0 outside the initialization. -/
  icw : Nat
  single : Bool
  icw4 : Bool
  autoEnd : Bool
  deriving DecidableEq

namespace Chip

/-- A device raises a line. -/
def raise (i : Fin 8) (c : Chip) : Chip := { c with irr := c.irr ||| lineBit i }

/-- The line that the chip asks the processor to serve. -/
def request (c : Chip) : Option (Fin 8) :=
  if c.icw = 0 then
    match firstLine (c.irr &&& ~~~c.imr) with
    | none => none
    | some i => if ∀ j, firstLine c.isr = some j → i < j then some i else none
  else none

def vector (i : Fin 8) (c : Chip) : BitVec 8 := c.base &&& 0xF8 ||| BitVec.ofNat 8 i

/-- The processor takes the line. -/
def acknowledge (i : Fin 8) (c : Chip) : Chip :=
  { c with irr := c.irr &&& ~~~lineBit i, isr := if c.autoEnd then c.isr else c.isr ||| lineBit i }

/-- The first line that is in service is no longer. -/
def endOfInterrupt (c : Chip) : Chip :=
  match firstLine c.isr with
  | none => c
  | some i => { c with isr := c.isr &&& ~~~lineBit i }

/-- A byte for the port of commands: the first initialization word, or the command that ends an
interrupt. Other commands have no effect here. -/
def outCommand (b : BitVec 8) (c : Chip) : Chip :=
  if b.getLsbD 4 then
    { c with
      imr := 0
      irr := 0
      isr := 0
      icw := 2
      single := b.getLsbD 1
      icw4 := b.getLsbD 0
      autoEnd := false }
  else if b = 0x20 then c.endOfInterrupt
  else c

/-- A byte for the port of data: the other initialization words, or the mask. -/
def outData (b : BitVec 8) (c : Chip) : Chip :=
  match c.icw with
  | 0 => { c with imr := b }
  | 2 => { c with base := b, icw := if c.single then (if c.icw4 then 4 else 0) else 3 }
  | 3 => { c with icw := if c.icw4 then 4 else 0 }
  | _ => { c with autoEnd := b.getLsbD 1, icw := 0 }

section

variable {c : Chip} {i : Fin 8}

theorem request_spec (h : c.request = some i) : c.irr.getLsbD i = true ∧ c.imr.getLsbD i = false ∧
    ∀ j, firstLine c.isr = some j → i < j := by
  rw [request] at h
  split_ifs at h with hicw
  cases hfirst : firstLine (c.irr &&& ~~~c.imr) with
  | none => simp [hfirst] at h
  | some k =>
    simp only [hfirst] at h
    split_ifs at h with hlater
    obtain rfl := Option.some.inj h
    have hset := firstLine_spec hfirst
    rw [BitVec.getLsbD_and, BitVec.getLsbD_not] at hset
    simp only [Bool.and_eq_true, Bool.not_eq_true'] at hset
    exact ⟨hset.1, hset.2.2, hlater⟩

/-- A chip that serves nothing asks for a line as long as one is raised that is not masked. -/
theorem request_of_idle (hicw : c.icw = 0) (hisr : c.isr = 0) (hirr : c.irr.getLsbD i = true)
    (himr : c.imr.getLsbD i = false) : ∃ j, c.request = some j := by
  have hne : firstLine (c.irr &&& ~~~c.imr) ≠ none := by
    intro hnone
    have hzero := congrArg (fun w => w.getLsbD i) (firstLine_eq_none.1 hnone)
    rw [BitVec.getLsbD_and, BitVec.getLsbD_not, hirr, himr] at hzero
    simp at hzero
  obtain ⟨j, hj⟩ := Option.ne_none_iff_exists'.1 hne
  refine ⟨j, ?_⟩
  have hfree : ∀ k, firstLine c.isr = some k → j < k := by
    intro k hk
    rw [firstLine_eq_none.2 hisr] at hk
    cases hk
  rw [request, if_pos hicw, hj]
  exact if_pos hfree

/-- The end of an interrupt ends the one that was taken last. -/
theorem endOfInterrupt_acknowledge (h : c.request = some i) (hauto : c.autoEnd = false) :
    (c.acknowledge i).endOfInterrupt = { c with irr := c.irr &&& ~~~lineBit i } := by
  obtain ⟨-, -, hlater⟩ := request_spec h
  obtain ⟨hfirst, hrest⟩ := firstLine_or hlater
  have hack : c.acknowledge i =
      { c with irr := c.irr &&& ~~~lineBit i, isr := c.isr ||| lineBit i } := by
    rw [acknowledge, hauto]
    rfl
  rw [hack, endOfInterrupt]
  dsimp only
  rw [hfirst]
  dsimp only
  rw [hrest]

theorem raise_irr (j : Fin 8) : (c.raise j).irr.getLsbD i = (c.irr.getLsbD i || decide (i = j)) :=
  set_line _ _ _

end

end Chip

/-! ## Both chips -/

structure Pic where
  master : Chip
  slave : Chip
  deriving DecidableEq

namespace Pic

/-- A byte for a port. -/
def out (port : Nat) (b : BitVec 8) (p : Pic) : Pic :=
  if port = 0x20 then { p with master := p.master.outCommand b }
  else if port = 0x21 then { p with master := p.master.outData b }
  else if port = 0xA0 then { p with slave := p.slave.outCommand b }
  else if port = 0xA1 then { p with slave := p.slave.outData b }
  else p

/-- A device raises one of the lines of the master, but for line 2, or of the slave. -/
def raise (n : Fin 16) (p : Pic) : Pic :=
  if h : n.val < 8 then
    if n.val = 2 then p else { p with master := p.master.raise ⟨n.val, h⟩ }
  else { p with slave := p.slave.raise ⟨n.val - 8, by omega⟩ }

/-- The master with line 2 as the slave has it. -/
def wired (p : Pic) : Chip := if p.slave.request.isSome then p.master.raise 2 else p.master

/-- The processor takes an interrupt: its vector. -/
def acknowledge (p : Pic) : Option (BitVec 8 × Pic) :=
  match p.wired.request with
  | none => none
  | some i =>
    if i = 2 then
      match p.slave.request with
      | none => none
      | some j => some (p.slave.vector j, ⟨p.wired.acknowledge i, p.slave.acknowledge j⟩)
    else some (p.master.vector i, ⟨p.wired.acknowledge i, p.slave⟩)

section

variable {p p' : Pic} {v : BitVec 8}

theorem wired_eq : ∃ irr, p.wired = { p.master with irr := irr } ∧
    ∀ i : Fin 8, i ≠ 2 → irr.getLsbD i = p.master.irr.getLsbD i := by
  rw [wired]
  split
  · refine ⟨(p.master.raise 2).irr, rfl, fun i hi => ?_⟩
    rw [Chip.raise_irr, decide_eq_false hi, Bool.or_false]
  · exact ⟨p.master.irr, rfl, fun i _ => rfl⟩

theorem raise_irr (n : Fin 16) (i : Fin 8) : (p.raise n).master.irr.getLsbD i =
    (p.master.irr.getLsbD i || decide (i.val = n.val ∧ i ≠ 2)) := by
  rw [raise]
  split_ifs with hmaster hslave
  · rw [decide_eq_false (by omega), Bool.or_false]
  · refine (Chip.raise_irr _).trans (congrArg _ (decide_eq_decide.2 ⟨?_, fun h => Fin.ext h.1⟩))
    rintro rfl
    exact ⟨rfl, fun h => hslave (congrArg Fin.val h)⟩
  · rw [decide_eq_false (by omega), Bool.or_false]

theorem ne_of_mask {w : BitVec 8} {i j : Fin 8} (hi : w.getLsbD i = false)
    (hj : w.getLsbD j = true) : i ≠ j := by
  rintro rfl
  exact Bool.false_ne_true (hi.symm.trans hj)

/-- With the slave masked, an interrupt is a line of the master that is raised and not masked. -/
theorem acknowledge_master (h : p.acknowledge = some (v, p'))
    (hslave : p.master.imr.getLsbD (2 : Fin 8) = true) :
    ∃ i, p.wired.request = some i ∧ i ≠ 2 ∧ p.master.irr.getLsbD i = true ∧
    p.master.imr.getLsbD i = false ∧
      v = p.master.vector i ∧ p' = ⟨p.wired.acknowledge i, p.slave⟩ := by
  rw [acknowledge] at h
  cases hrequest : p.wired.request with
  | none => simp [hrequest] at h
  | some i =>
    obtain ⟨irr, hwired, hirr⟩ := p.wired_eq
    obtain ⟨hraised, hmask, -⟩ := Chip.request_spec hrequest
    rw [hwired] at hraised hmask
    have hi := ne_of_mask hmask hslave
    simp only [hrequest, if_neg hi, Option.some.injEq, Prod.mk.injEq] at h
    refine ⟨i, rfl, hi, ?_, hmask, h.1.symm, h.2.symm⟩
    rw [← hirr i hi]
    exact hraised

/-- The master asks as long as a line is raised that it does not mask. -/
theorem acknowledge_of_idle (hicw : p.master.icw = 0) (hisr : p.master.isr = 0)
    (hslave : p.master.imr.getLsbD (2 : Fin 8) = true) {i : Fin 8}
    (hirr : p.master.irr.getLsbD i = true)
    (himr : p.master.imr.getLsbD i = false) : ∃ v p', p.acknowledge = some (v, p') := by
  obtain ⟨irr, hwired, hsame⟩ := p.wired_eq
  have hi := ne_of_mask himr hslave
  obtain ⟨j, hj⟩ : ∃ j, p.wired.request = some j := by
    rw [hwired]
    exact Chip.request_of_idle hicw hisr ((hsame i hi).trans hirr) himr
  have hmask := (Chip.request_spec hj).2.1
  rw [hwired] at hmask
  have hj2 := ne_of_mask hmask hslave
  refine ⟨p.master.vector j, ⟨p.wired.acknowledge j, p.slave⟩, ?_⟩
  rw [acknowledge, hj]
  exact if_neg hj2

end

end Pic

end TinyLittleOs.Lib
