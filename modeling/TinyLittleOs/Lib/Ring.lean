import Mathlib.Data.List.Basic
import Mathlib.Data.List.Nodup
import Mathlib.Logic.Function.Basic

/-!
# Circular doubly linked lists

An intrusive list without a head cell: every node has a `next` and a `prev` pointer, and a
node that is in no list points at itself. `Cycle x l` says that going round from the node `x`
visits the nodes of `l`, both ways. An edit at one cycle leaves all others alone.
-/

namespace TinyLittleOs.Lib

/-- The pointers of all nodes. -/
structure Rings (ι : Type*) where
  next : ι → ι
  prev : ι → ι

namespace Rings

variable {ι : Type*} [DecidableEq ι]

/-- Every node on its own. -/
def alone : Rings ι := ⟨id, id⟩

def setNext (R : Rings ι) (x y : ι) : Rings ι := { R with next := Function.update R.next x y }

def setPrev (R : Rings ι) (x y : ι) : Rings ι := { R with prev := Function.update R.prev x y }

/-- Both pointers of a node are set to the node. -/
def makeLonely (R : Rings ι) (x : ι) : Rings ι := (R.setPrev x x).setNext x x

/-- Join the neighbours of `x` and leave it on its own. -/
def unlink (R : Rings ι) (x : ι) : Rings ι :=
  let R := R.setNext (R.prev x) (R.next x)
  let R := R.setPrev (R.next x) (R.prev x)
  R.makeLonely x

/-- Insert `n` after `x`. -/
def addAfterSelf (R : Rings ι) (x n : ι) : Rings ι :=
  let R := R.setNext n (R.next x)
  let R := R.setPrev n x
  let R := R.setPrev (R.next x) n
  R.setNext x n

def Lonely (R : Rings ι) (x : ι) : Prop := R.next x = x

instance (R : Rings ι) (x : ι) : Decidable (R.Lonely x) := inferInstanceAs (Decidable (_ = _))

omit [DecidableEq ι] in
/-- From `x` through `l` to `y`, forwards by `next` and backwards by `prev`. -/
def Path (R : Rings ι) : ι → List ι → ι → Prop
  | x, [], y => R.next x = y ∧ R.prev y = x
  | x, z :: l, y => R.next x = z ∧ R.prev z = x ∧ R.Path z l y

/-- Going round from `x` visits `l`. -/
structure Cycle (R : Rings ι) (x : ι) (l : List ι) : Prop where
  nodup : (x :: l).Nodup
  path : R.Path x l x

/-! ## Paths -/

section Path

variable {R R' : Rings ι} {x y : ι} {l : List ι}

omit [DecidableEq ι]

theorem path_append {a b : List ι} {z : ι} :
    R.Path x (a ++ z :: b) y ↔ R.Path x a z ∧ R.Path z b y := by
  induction a generalizing x with
  | nil => simp [Path, and_assoc]
  | cons w a ih => simp [Path, ih, and_assoc]

/-- A path depends on the pointers of its nodes only. -/
theorem Path.congr (h : R.Path x l y) (hnext : ∀ z ∈ x :: l, R'.next z = R.next z)
    (hprev : ∀ z ∈ l ++ [y], R'.prev z = R.prev z) : R'.Path x l y := by
  induction l generalizing x with
  | nil => exact ⟨(hnext x (by simp)).trans h.1, (hprev y (by simp)).trans h.2⟩
  | cons z l ih =>
    obtain ⟨hx, hz, htail⟩ := h
    refine ⟨(hnext x (by simp)).trans hx, (hprev z (by simp)).trans hz, ih htail ?_ ?_⟩
    · exact fun w hw => hnext w (List.mem_cons_of_mem x hw)
    · exact fun w hw => hprev w (List.mem_cons_of_mem z hw)

theorem Path.unique {l' : List ι} (h : R.Path x l y) (h' : R.Path x l' y) (hy : y ∉ l)
    (hy' : y ∉ l') : l = l' := by
  induction l generalizing x l' with
  | nil =>
    cases l' with
    | nil => rfl
    | cons z l' =>
      have hz : y = z := h.1.symm.trans h'.1
      simp [hz] at hy'
  | cons z l ih =>
    cases l' with
    | nil =>
      have hz : z = y := h.1.symm.trans h'.1
      simp [hz] at hy
    | cons z' l' =>
      obtain rfl : z = z' := h.1.symm.trans h'.1
      rw [ih h.2.2 h'.2.2 (fun hm => hy (List.mem_cons_of_mem z hm))
        fun hm => hy' (List.mem_cons_of_mem z hm)]

theorem Path.next (h : R.Path x l y) : R.next x = l.head?.getD y := by
  cases l with
  | nil => exact h.1
  | cons z l => exact h.1

theorem Path.prev (h : R.Path x l y) : R.prev y = l.getLast?.getD x := by
  rcases List.eq_nil_or_concat l with rfl | ⟨a, z, rfl⟩
  · exact h.2
  · rw [List.concat_eq_append] at h ⊢
    rw [path_append] at h
    simpa using h.2.2

end Path

/-! ## Cycles -/

section Cycle

variable {R R' : Rings ι} {x y n : ι} {l m : List ι}

omit [DecidableEq ι] in
theorem cycle_nil : R.Cycle x [] ↔ R.next x = x ∧ R.prev x = x :=
  ⟨fun h => h.path, fun h => ⟨by simp, h⟩⟩

omit [DecidableEq ι] in
theorem Cycle.unique (h : R.Cycle x l) (h' : R.Cycle x m) : l = m :=
  h.path.unique h'.path (List.nodup_cons.1 h.nodup).1 (List.nodup_cons.1 h'.nodup).1

omit [DecidableEq ι] in
/-- The same cycle seen from another of its nodes. -/
theorem Cycle.rotate {a b : List ι} (h : R.Cycle x (a ++ y :: b)) : R.Cycle y (b ++ x :: a) := by
  obtain ⟨hxy, hyx⟩ := path_append.1 h.path
  have hperm : (y :: (b ++ x :: a)).Perm (x :: (a ++ y :: b)) := by
    have h₁ : (y :: (b ++ x :: a)).Perm ((y :: b) ++ (x :: a)) := .refl _
    exact h₁.trans List.perm_append_comm
  exact ⟨hperm.nodup_iff.2 h.nodup, path_append.2 ⟨hyx, hxy⟩⟩

omit [DecidableEq ι] in
theorem Cycle.congr (h : R.Cycle x l) (hnext : ∀ z ∈ x :: l, R'.next z = R.next z)
    (hprev : ∀ z ∈ x :: l, R'.prev z = R.prev z) : R'.Cycle x l :=
  ⟨h.nodup, h.path.congr hnext fun z hz => hprev z (by simpa [or_comm] using hz)⟩

omit [DecidableEq ι] in
theorem Cycle.lonely_iff (h : R.Cycle x l) : R.Lonely x ↔ l = [] := by
  rw [Lonely, h.path.next]
  cases l with
  | nil => simp
  | cons z l =>
    have hne : z ≠ x := fun he => (List.nodup_cons.1 h.nodup).1 (by simp [he])
    simp [hne]

omit [DecidableEq ι] in
theorem Cycle.next_mem (h : R.Cycle x l) : R.next x ∈ x :: l := by
  rw [h.path.next]
  cases l <;> simp

omit [DecidableEq ι] in
theorem Cycle.prev_mem (h : R.Cycle x l) : R.prev x ∈ x :: l := by
  rw [h.path.prev]
  rcases List.eq_nil_or_concat l with rfl | ⟨a, z, rfl⟩ <;> simp

omit [DecidableEq ι] in
theorem Cycle.prev_next (h : R.Cycle x l) : R.prev (R.next x) = x := by
  cases l with
  | nil => rw [h.path.1, h.path.2]
  | cons z l => rw [h.path.1, h.path.2.1]

omit [DecidableEq ι] in
theorem Cycle.next_prev (h : R.Cycle x l) : R.next (R.prev x) = x := by
  have hpath := h.path
  rcases List.eq_nil_or_concat l with rfl | ⟨a, z, rfl⟩
  · rw [hpath.2, hpath.1]
  · rw [List.concat_eq_append, path_append] at hpath
    rw [hpath.2.2, hpath.2.1]

omit [DecidableEq ι] in
/-- Seen from a node of the cycle, its nodes are the same. -/
theorem Cycle.at_mem (h : R.Cycle x l) (hy : y ∈ x :: l) :
    ∃ m, R.Cycle y m ∧ (y :: m).Perm (x :: l) := by
  rcases List.mem_cons.1 hy with rfl | hy
  · exact ⟨l, h, .refl _⟩
  · obtain ⟨a, b, rfl⟩ := List.append_of_mem hy
    refine ⟨b ++ x :: a, h.rotate, ?_⟩
    have h₁ : (y :: (b ++ x :: a)).Perm ((y :: b) ++ (x :: a)) := .refl _
    exact h₁.trans List.perm_append_comm

omit [DecidableEq ι] in
/-- Two rings with a common node have the same nodes. -/
theorem Cycle.perm_of_mem (h : R.Cycle x l) (h' : R.Cycle y m) {z : ι} (hz : z ∈ x :: l)
    (hz' : z ∈ y :: m) : (x :: l).Perm (y :: m) := by
  obtain ⟨k, hk, hperm⟩ := h.at_mem hz
  obtain ⟨k', hk', hperm'⟩ := h'.at_mem hz'
  obtain rfl := hk.unique hk'
  exact hperm.symm.trans hperm'

omit [DecidableEq ι] in
/-- A ring from outside has no node in common. -/
theorem Cycle.disjoint (h : R.Cycle x l) (h' : R.Cycle y m) (hy : y ∉ x :: l) :
    ∀ z ∈ y :: m, z ∉ x :: l := by
  intro z hz hz'
  exact hy ((h.perm_of_mem h' hz' hz).mem_iff.2 List.mem_cons_self)

/-! ### Insertion -/

theorem addAfterSelf_next (z : ι) : (R.addAfterSelf x n).next z =
    if z = x then n else if z = n then R.next x else R.next z := by
  simp only [addAfterSelf, setNext, setPrev, Function.update_apply]

theorem addAfterSelf_prev (z : ι) : (R.addAfterSelf x n).prev z =
    if z = R.next x then n else if z = n then x else R.prev z := by
  simp only [addAfterSelf, setNext, setPrev, Function.update_apply, ite_self]

theorem Cycle.addAfterSelf (h : R.Cycle x l) (hn : n ∉ x :: l) :
    (R.addAfterSelf x n).Cycle x (n :: l) := by
  have hxn : x ≠ n := fun he => hn (by simp [he])
  have hnext := addAfterSelf_next (R := R) (x := x) (n := n)
  have hprev := addAfterSelf_prev (R := R) (x := x) (n := n)
  have hnodup := h.nodup
  refine ⟨?_, by simp [hnext], ?_, ?_⟩
  · rw [List.nodup_cons, List.nodup_cons] at *
    simp only [List.mem_cons, not_or] at *
    tauto
  · rw [hprev, if_neg, if_pos rfl]
    exact fun he => hn (he ▸ h.next_mem)
  · cases l with
    | nil =>
      have hx := h.path.1
      exact ⟨by rw [hnext, if_neg hxn.symm, if_pos rfl, hx], by rw [hprev, if_pos hx.symm]⟩
    | cons z l =>
      obtain ⟨hx, hz, htail⟩ := h.path
      simp only [List.nodup_cons, List.mem_cons, not_or] at hnodup hn
      refine ⟨by rw [hnext, if_neg hxn.symm, if_pos rfl, hx], by rw [hprev, if_pos hx.symm],
        htail.congr (fun w hw => ?_) fun w hw => ?_⟩
      · rw [hnext, if_neg, if_neg]
        · rintro rfl
          simp [hn] at hw
        · rintro rfl
          simp [hnodup] at hw
      · rw [hprev, hx, if_neg, if_neg]
        · rintro rfl
          simp [hn] at hw
        · rintro rfl
          simp only [List.mem_append, List.mem_singleton] at hw
          rcases hw with hw | rfl
          exacts [hnodup.2.1 hw, hnodup.1.1 rfl]

/-- A node that comes behind the last one is the new last one. -/
theorem Cycle.addAfterPrev (h : R.Cycle x l) (hn : n ∉ x :: l) :
    (R.addAfterSelf (R.prev x) n).Cycle x (l ++ [n]) := by
  have hprev := h.path.prev
  rcases List.eq_nil_or_concat l with rfl | ⟨a, p, rfl⟩
  · rw [List.getLast?_nil, Option.getD_none] at hprev
    rw [hprev]
    exact h.addAfterSelf hn
  · rw [List.concat_eq_append] at *
    rw [List.getLast?_concat, Option.getD_some] at hprev
    -- seen from the last node, the new one comes first
    have hlast : R.Cycle p (x :: a) := h.rotate
    have hadded : (R.addAfterSelf p n).Cycle p ([n] ++ x :: a) := by
      apply hlast.addAfterSelf
      simp only [List.mem_cons, List.mem_append, List.not_mem_nil, or_false, not_or] at hn ⊢
      exact ⟨hn.2.2, hn.1, hn.2.1⟩
    rw [hprev, List.append_assoc]
    exact hadded.rotate

/-- Other cycles stay. -/
theorem Cycle.addAfterSelf_other (h : R.Cycle x l) (h' : R.Cycle y m)
    (hdisj : ∀ z ∈ y :: m, z ∉ n :: x :: l) : (R.addAfterSelf x n).Cycle y m := by
  have hout : ∀ z ∈ y :: m, z ≠ x ∧ z ≠ n ∧ z ≠ R.next x := fun z hz =>
    ⟨fun he => hdisj z hz (by simp [he]), fun he => hdisj z hz (by simp [he]),
      fun he => hdisj z hz (List.mem_cons_of_mem n (he ▸ h.next_mem))⟩
  refine h'.congr (fun z hz => ?_) fun z hz => ?_
  · rw [addAfterSelf_next, if_neg (hout z hz).1, if_neg (hout z hz).2.1]
  · rw [addAfterSelf_prev, if_neg (hout z hz).2.2, if_neg (hout z hz).2.1]

/-- Setting the pointers of a node outside. -/
theorem Cycle.makeLonely_other (h : R.Cycle x l) (hy : y ∉ x :: l) :
    (R.makeLonely y).Cycle x l := by
  have hne : ∀ z ∈ x :: l, z ≠ y := fun z hz he => hy (he ▸ hz)
  refine h.congr (fun z hz => ?_) fun z hz => ?_ <;>
    simp only [makeLonely, setNext, setPrev, Function.update_of_ne (hne z hz)]

/-! ### Removal -/

theorem unlink_next (z : ι) : (R.unlink y).next z =
    if z = y then y else if z = R.prev y then R.next y else R.next z := by
  simp only [unlink, makeLonely, setNext, setPrev, Function.update_apply]

theorem unlink_prev (z : ι) : (R.unlink y).prev z =
    if z = y then y else if z = R.next y then R.prev y else R.prev z := by
  simp only [unlink, makeLonely, setNext, setPrev, Function.update_apply, ite_self]

/-- A node that is not alone leaves its cycle. -/
theorem Cycle.unlink_head (h : R.Cycle y (x :: l)) : (R.unlink y).Cycle x l := by
  have hprev := unlink_prev (R := R) (y := y)
  have hnext := unlink_next (R := R) (y := y)
  have hnodup := h.nodup
  obtain ⟨hy, hx, htail⟩ := h.path
  refine ⟨hnodup.sublist (by simp), ?_⟩
  have hxy : x ≠ y := by
    rintro rfl
    simp at hnodup
  rcases List.eq_nil_or_concat l with rfl | ⟨d, p, rfl⟩
  · obtain ⟨-, hyx⟩ := htail
    exact ⟨by rw [hnext, if_neg hxy, if_pos hyx.symm, hy], by
      rw [hprev, if_neg hxy, if_pos hy.symm, hyx]⟩
  · rw [List.concat_eq_append] at *
    obtain ⟨hxp, -, hyp⟩ := path_append.1 htail
    simp only [List.nodup_cons, List.mem_cons, List.mem_append, List.not_mem_nil, or_false,
      not_or, List.nodup_append, List.nodup_nil, not_false_eq_true, and_true, true_and] at hnodup
    obtain ⟨⟨-, hyd, hyp'⟩, ⟨hxd, hxp'⟩, -, hdp⟩ := hnodup
    refine path_append.2 ⟨hxp.congr (fun z hz => ?_) fun z hz => ?_, ?_, ?_⟩
    · rw [hnext, hyp, if_neg, if_neg]
      · rintro rfl
        rcases List.mem_cons.1 hz with rfl | hz
        exacts [hxp' rfl, hdp z hz z (by simp) rfl]
      · rintro rfl
        rcases List.mem_cons.1 hz with rfl | hz
        exacts [hxy rfl, hyd hz]
    · rw [hprev, hy, if_neg, if_neg]
      · rintro rfl
        rcases List.mem_append.1 hz with hz | hz
        exacts [hxd hz, hxp' (by simpa using hz)]
      · rintro rfl
        rcases List.mem_append.1 hz with hz | hz
        exacts [hyd hz, hyp' (by simpa using hz)]
    · rw [hnext, if_neg (Ne.symm hyp'), if_pos hyp.symm, hy]
    · rw [hprev, if_neg hxy, if_pos hy.symm, hyp]

/-- A node leaves the cycle and is on its own. -/
theorem Cycle.unlink {a b : List ι} (h : R.Cycle x (a ++ y :: b)) :
    (R.unlink y).Cycle x (a ++ b) := by
  cases b with
  | nil =>
    have hhead : (R.unlink y).Cycle x a := h.rotate.unlink_head
    rwa [List.append_nil]
  | cons w b => exact (h.rotate.unlink_head (x := w) (l := b ++ x :: a)).rotate

theorem unlink_self : (R.unlink y).Cycle y [] := by
  rw [cycle_nil, unlink_next, unlink_prev, if_pos rfl, if_pos rfl]
  exact ⟨rfl, rfl⟩

/-- Other cycles stay. -/
theorem Cycle.unlink_other (h : R.Cycle x l) (h' : R.Cycle y m) (hdisj : ∀ z ∈ x :: l, z ∉ y :: m) :
    (R.unlink y).Cycle x l := by
  have hout : ∀ z ∈ x :: l, z ≠ y ∧ z ≠ R.next y ∧ z ≠ R.prev y := fun z hz =>
    ⟨fun he => hdisj z hz (by simp [he]), fun he => hdisj z hz (he ▸ h'.next_mem),
      fun he => hdisj z hz (he ▸ h'.prev_mem)⟩
  refine h.congr (fun z hz => ?_) fun z hz => ?_
  · rw [unlink_next, if_neg (hout z hz).1, if_neg (hout z hz).2.2]
  · rw [unlink_prev, if_neg (hout z hz).1, if_neg (hout z hz).2.1]

end Cycle

end Rings

end TinyLittleOs.Lib
