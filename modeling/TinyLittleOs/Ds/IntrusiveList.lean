import TinyLittleOs.Lib.Ring
import Mathlib.Logic.Relation

/-!
# The intrusive list

`ds::intrusive_doubly_linked_node` of `list.hpp`, whose pointers are `Rings`, with the iterator of a
range-for. However nodes are added and unlinked, every node is in one ring.
-/

namespace TinyLittleOs.Ds.IntrusiveList

open Lib Rings Relation

variable {ι : Type*}

/-- `iterator`. The flag tells `begin` from `end`, which are at the same node. -/
structure Iterator (ι : Type*) where
  firstTime : Bool
  node : ι
  deriving DecidableEq

/-- `operator++` -/
def Iterator.increment (R : Rings ι) (it : Iterator ι) : Iterator ι := ⟨false, R.next it.node⟩

/-- `begin` -/
def beginAt (x : ι) : Iterator ι := ⟨true, x⟩

/-- `end` -/
def endAt (x : ι) : Iterator ι := ⟨false, x⟩

variable [DecidableEq ι]

/-- The nodes from the iterator `it` to `stop`. -/
def iterate (R : Rings ι) (stop : Iterator ι) : Nat → Iterator ι → Option (List ι)
  | 0, _ => none
  | fuel + 1, it =>
    if it = stop then some []
    else (iterate R stop fuel (it.increment R)).map fun l => it.node :: l

/-- The nodes that `for (T &t : x)` visits. -/
def rangeFor (R : Rings ι) (fuel : Nat) (x : ι) : Option (List ι) :=
  iterate R (endAt x) fuel (beginAt x)

/-- `add_after_self` of a node that is alone, and `unlink` of any node. -/
inductive Step : Rings ι → Rings ι → Prop
  | addAfterSelf {R : Rings ι} {x n : ι} : R.Lonely n → Step R (R.addAfterSelf x n)
  | unlink {R : Rings ι} {y : ι} : Step R (R.unlink y)

/-- Every node goes round a ring. -/
def Ringed (R : Rings ι) : Prop := ∀ x, ∃ l, R.Cycle x l

/-- `y` is in the ring of `x`. -/
def SameRing (R : Rings ι) (x y : ι) : Prop := ∃ l, R.Cycle x l ∧ y ∈ x :: l

variable {R R' : Rings ι} {x y n : ι} {l m : List ι}

/-! ## Steps -/

omit [DecidableEq ι] in
theorem Ringed.cycle_nil (h : Ringed R) (hx : R.Lonely x) : R.Cycle x [] := by
  obtain ⟨l, hl⟩ := h x
  obtain rfl := hl.lonely_iff.1 hx
  exact hl

/-- A node that is alone is not moved by being added after itself. -/
theorem Ringed.addAfterSelf_self (h : Ringed R) (hx : R.Lonely x) : R.addAfterSelf x x = R := by
  obtain ⟨hnext, hprev⟩ := Rings.cycle_nil.1 (h.cycle_nil hx)
  have hn : (R.addAfterSelf x x).next = R.next := by
    funext z
    rw [addAfterSelf_next]
    grind
  have hp : (R.addAfterSelf x x).prev = R.prev := by
    funext z
    rw [addAfterSelf_prev]
    grind
  exact congrArg₂ Rings.mk hn hp

omit [DecidableEq ι] in
/-- A node that is alone is in no other ring. -/
theorem Ringed.notMem_of_lonely (h : Ringed R) (hn : R.Lonely n) (hne : n ≠ x) (hx : R.Cycle x l) :
    n ∉ x :: l := by
  intro hm
  have hperm := hx.perm_of_mem (h.cycle_nil hn) hm List.mem_cons_self
  have hxn : x = n := by
    simpa using hperm.mem_iff.1 List.mem_cons_self
  exact hne hxn.symm

/-- The ring of the receiver grows by the argument, and all other rings stay. -/
theorem Ringed.addAfterSelf (h : Ringed R) (hn : R.Lonely n) (hne : n ≠ x) (hx : R.Cycle x l) :
    (R.addAfterSelf x n).Cycle x (n :: l) ∧
      ∀ y m, R.Cycle y m → y ≠ n → y ∉ x :: l → (R.addAfterSelf x n).Cycle y m := by
  have hout := h.notMem_of_lonely hn hne hx
  refine ⟨hx.addAfterSelf hout, fun y m hy hyn hyx => ?_⟩
  apply hx.addAfterSelf_other hy
  intro z hz hm
  rcases List.mem_cons.1 hm with rfl | hm
  · exact h.notMem_of_lonely hn hyn.symm hy hz
  · exact hx.disjoint hy hyx z hz hm

/-- The rings after a node is unlinked. -/
theorem Ringed.unlink (h : Ringed R) (y : ι) :
    (R.unlink y).Cycle y [] ∧ (∀ x a b, R.Cycle x (a ++ y :: b) → (R.unlink y).Cycle x (a ++ b)) ∧
      ∀ x l, R.Cycle x l → y ∉ x :: l → (R.unlink y).Cycle x l := by
  refine ⟨unlink_self, fun x a b hx => hx.unlink, fun x l hx hout => ?_⟩
  obtain ⟨m, hm⟩ := h y
  apply hx.unlink_other hm
  intro z hz hz'
  exact hx.disjoint hm hout z hz' hz

theorem Ringed.step (h : Ringed R) (hs : Step R R') : Ringed R' := by
  cases hs with
  | @addAfterSelf x n hn =>
    by_cases hne : n = x
    · rw [hne, h.addAfterSelf_self (hne ▸ hn)]
      exact h
    · obtain ⟨l, hl⟩ := h x
      obtain ⟨hcycle, hother⟩ := h.addAfterSelf hn hne hl
      intro y
      by_cases hy : y ∈ x :: n :: l
      · obtain ⟨k, hk, -⟩ := hcycle.at_mem hy
        exact ⟨k, hk⟩
      · obtain ⟨m, hm⟩ := h y
        simp only [List.mem_cons, not_or] at hy
        exact ⟨m, hother y m hm hy.2.1 (by simp [hy])⟩
  | @unlink y =>
    obtain ⟨halone, hring, hother⟩ := h.unlink y
    intro x
    obtain ⟨l, hl⟩ := h x
    by_cases hy : y ∈ x :: l
    · rcases List.mem_cons.1 hy with rfl | hy
      · exact ⟨_, halone⟩
      · obtain ⟨a, b, rfl⟩ := List.append_of_mem hy
        exact ⟨_, hring x a b hl⟩
    · exact ⟨l, hother x l hl hy⟩

theorem Ringed.run (hr : ReflTransGen Step Rings.alone R) : Ringed R := by
  induction hr with
  | refl => exact fun x => ⟨[], Rings.cycle_nil.2 ⟨rfl, rfl⟩⟩
  | tail _ hs ih => exact ih.step hs

/-! ## The iterator -/

/-- From a node on, the loop visits what is before the end. -/
theorem iterate_path (hp : R.Path x l y) (hy : y ∉ l) {fuel : Nat} (hf : l.length < fuel) :
    iterate R (endAt y) fuel (Iterator.increment R ⟨true, x⟩) = some l := by
  induction l generalizing x fuel with
  | nil =>
    obtain ⟨fuel, rfl⟩ : ∃ f, fuel = f + 1 := ⟨fuel - 1, by omega⟩
    rw [Iterator.increment, iterate, hp.1]
    exact if_pos rfl
  | cons z l ih =>
    obtain ⟨fuel, rfl⟩ : ∃ f, fuel = f + 1 := ⟨fuel - 1, by omega⟩
    obtain ⟨hx, -, htail⟩ := hp
    simp only [List.mem_cons, not_or] at hy
    have hne : (⟨false, z⟩ : Iterator ι) ≠ endAt y := by
      simp [endAt, Ne.symm hy.1]
    rw [Iterator.increment, hx, iterate, if_neg hne]
    have hlen : l.length < fuel := by
      rw [List.length_cons] at hf
      omega
    have hrest := ih htail hy.2 hlen
    rw [Iterator.increment] at hrest
    rw [Iterator.increment, hrest, Option.map_some]

/-- A range-for visits the ring once, in its order. -/
theorem rangeFor_cycle (h : R.Cycle x l) {fuel : Nat} (hf : l.length + 1 < fuel) :
    rangeFor R fuel x = some (x :: l) := by
  obtain ⟨fuel, rfl⟩ : ∃ f, fuel = f + 1 := ⟨fuel - 1, by omega⟩
  have hrest := iterate_path h.path (List.nodup_cons.1 h.nodup).1 (show l.length < fuel by omega)
  have hne : beginAt x ≠ endAt x := by
    simp [beginAt, endAt]
  rw [rangeFor, iterate, if_neg hne, beginAt, hrest, Option.map_some]

/-! ## Runs -/

omit [DecidableEq ι] in
theorem Ringed.equivalence (h : Ringed R) : Equivalence (SameRing R) where
  refl x := by
    obtain ⟨l, hl⟩ := h x
    exact ⟨l, hl, List.mem_cons_self⟩
  symm := by
    rintro x y ⟨l, hl, hy⟩
    obtain ⟨k, hk, hperm⟩ := hl.at_mem hy
    exact ⟨k, hk, hperm.mem_iff.2 List.mem_cons_self⟩
  trans := by
    rintro x y z ⟨l, hl, hy⟩ ⟨m, hm, hz⟩
    exact ⟨l, hl, (hl.perm_of_mem hm hy List.mem_cons_self).mem_iff.2 hz⟩

/-- The rings that add and unlink work on. -/
structure Sound (R : Rings ι) : Prop where
  inverse : Function.LeftInverse R.prev R.next ∧ Function.RightInverse R.prev R.next
  ring : ∀ x, ∃ l, R.Cycle x l ∧ ∀ l', R.Cycle x l' → l' = l
  partition : Equivalence (SameRing R)
  addAfterSelf : ∀ x n l, R.Cycle x l → R.Lonely n → n ≠ x →
    (R.addAfterSelf x n).Cycle x (n :: l) ∧
      ∀ y m, R.Cycle y m → y ≠ n → y ∉ x :: l → (R.addAfterSelf x n).Cycle y m
  addAfterSelf_self : ∀ x, R.Lonely x → R.addAfterSelf x x = R
  unlink : ∀ y, (R.unlink y).Cycle y [] ∧
    (∀ x a b, R.Cycle x (a ++ y :: b) → (R.unlink y).Cycle x (a ++ b)) ∧
      ∀ x l, R.Cycle x l → y ∉ x :: l → (R.unlink y).Cycle x l
  lonely : ∀ x l, R.Cycle x l → (R.Lonely x ↔ l = [])
  rangeFor : ∀ x l, R.Cycle x l → ∀ fuel > l.length + 1, rangeFor R fuel x = some (x :: l)

theorem Ringed.sound (h : Ringed R) : Sound R where
  inverse := by
    constructor <;> intro x <;> obtain ⟨l, hl⟩ := h x
    · exact hl.prev_next
    · exact hl.next_prev
  ring x := by
    obtain ⟨l, hl⟩ := h x
    exact ⟨l, hl, fun l' hl' => hl'.unique hl⟩
  partition := h.equivalence
  addAfterSelf x n l hx hn hne := h.addAfterSelf hn hne hx
  addAfterSelf_self x hx := h.addAfterSelf_self hx
  unlink y := h.unlink y
  lonely x l hx := hx.lonely_iff
  rangeFor x l hx fuel hf := rangeFor_cycle hx hf

/-- Whatever was added and unlinked, the nodes are in rings. -/
theorem list_sound (hr : ReflTransGen Step (Rings.alone : Rings ι) R) : Sound R :=
  (Ringed.run hr).sound

theorem list_sound_two : Sound ((Rings.alone : Rings Nat).addAfterSelf 0 1) :=
  list_sound (.single (.addAfterSelf rfl))

end TinyLittleOs.Ds.IntrusiveList
