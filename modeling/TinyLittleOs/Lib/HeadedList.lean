import Mathlib.Data.List.Basic
import Mathlib.Data.List.Nodup
import Mathlib.Data.Set.Insert
import Mathlib.Logic.Function.Basic

/-!
# Doubly linked lists with a head cell

An intrusive list over nodes `ι`. The head cell has a `next` pointer only, a node
has `next` and `prev`, and both ends are null. A *cell* is an `Option ι`: `none` is
the head, `some x` the node `x`. A node that exists and is in no list has both pointers
null; memory that holds no node yet may have any contents.

`IsList` says which list the `next` pointers spell; of the back pointers of its nodes
it only asks that they lead to some cell. `Tight` is the list whose back pointers are
all exact. A node can be unlinked safely when its own back pointer is exact, which
`Settled` says without naming the list.
-/

namespace TinyLittleOs.Lib

/-- The pointers of one list: `next` of the head cell and of every node, `prev` of
every node. A null `prev` is `none`, a `prev` pointing at the cell `c` is `some c`. -/
structure Links (ι : Type*) where
  next : Option ι → Option ι
  prev : ι → Option (Option ι)

namespace Links

variable {ι : Type*} [DecidableEq ι]

def setNext (L : Links ι) (c : Option ι) (y : Option ι) : Links ι :=
  { L with next := Function.update L.next c y }

def setPrev (L : Links ι) (x : ι) (p : Option (Option ι)) : Links ι :=
  { L with prev := Function.update L.prev x p }

/-- Write the back pointer of the node that `y` points at, if any. -/
def setPrevOf (L : Links ι) (y : Option ι) (p : Option (Option ι)) : Links ι :=
  match y with
  | some z => L.setPrev z p
  | none => L

/-- Write the forward pointer of the cell that `p` points at, if any. -/
def setNextOf (L : Links ι) (p : Option (Option ι)) (y : Option ι) : Links ι :=
  match p with
  | some c => L.setNext c y
  | none => L

/-- Join the two neighbours of `x` and clear both of its pointers. -/
def unlink (L : Links ι) (x : ι) : Links ι :=
  let L₁ := L.setNextOf (L.prev x) (L.next (some x))
  let L₂ := L₁.setPrevOf (L₁.next (some x)) (L₁.prev x)
  (L₂.setNext (some x) none).setPrev x none

/-- Insert `x` after the head cell. -/
def pushFront (L : Links ι) (x : ι) : Links ι :=
  let L₁ := L.setNext (some x) (L.next none)
  let L₂ := L₁.setPrevOf (L₁.next (some x)) (some (some x))
  (L₂.setPrev x (some none)).setNext none (some x)

/-- Insert `x` after the head cell, leaving the back pointer of the old first node. -/
def pushFrontStale (L : Links ι) (x : ι) : Links ι :=
  ((L.setPrev x (some none)).setNext (some x) (L.next none)).setNext none (some x)

/-- From the cell `c` the `next` pointers visit the nodes of the list and then give `e`. -/
def Seg (L : Links ι) : Option ι → List ι → Option ι → Prop
  | c, [], e => L.next c = e
  | c, x :: l, e => L.next c = some x ∧ L.Seg (some x) l e

/-- The last cell on the way from `c` through a list. -/
def lastCell : Option ι → List ι → Option ι
  | c, [] => c
  | _, x :: l => lastCell (some x) l

/-- The back pointers of the nodes after `c` name their predecessors. -/
def Backs (L : Links ι) : Option ι → List ι → Prop
  | _, [] => True
  | c, x :: l => L.prev x = some c ∧ L.Backs (some x) l

/-- The head cell's `next` pointers spell `l`, a list of nodes of `S`; the nodes of `S`
outside are cleared. -/
structure IsList (L : Links ι) (S : Set ι) (l : List ι) : Prop where
  nodup : l.Nodup
  seg : L.Seg none l none
  sub : ∀ x ∈ l, x ∈ S
  in_prev : ∀ x ∈ l, ∃ c, L.prev x = some c ∧ ∀ y ∈ c, y ∈ S
  out_prev : ∀ x ∈ S, x ∉ l → L.prev x = none
  out_next : ∀ x ∈ S, x ∉ l → L.next (some x) = none

/-- A list whose back pointers are exact. -/
structure Tight (L : Links ι) (S : Set ι) (l : List ι) : Prop extends IsList L S l where
  backs : L.Backs none l

/-- The cell that the back pointer of `x` names has `x` as its next node. -/
def Settled (L : Links ι) (x : ι) : Prop := ∃ c, L.prev x = some c ∧ L.next c = some x

/-- From the head cell and the nodes of `S` the list leads to nodes of `S` only. -/
def Inside (L : Links ι) (S : Set ι) : Prop :=
  ∀ c : Option ι, (∀ x ∈ c, x ∈ S) → ∀ y ∈ L.next c, y ∈ S

/-! ## Segments -/

omit [DecidableEq ι]

theorem lastCell_some_ne_none (x : ι) (l : List ι) : lastCell (some x) l ≠ none := by
  induction l generalizing x with
  | nil => simp [lastCell]
  | cons y l ih => exact ih y

theorem lastCell_mem {c : Option ι} {l : List ι} {y : ι} (h : lastCell c l = some y) :
    c = some y ∨ y ∈ l := by
  induction l generalizing c with
  | nil => exact .inl h
  | cons x l ih =>
    rcases ih h with h | h
    · exact .inr (by simp_all)
    · exact .inr (List.mem_cons_of_mem x h)

theorem seg_append (L : Links ι) (c : Option ι) (a : List ι) (x : ι) (b : List ι) (e : Option ι) :
    L.Seg c (a ++ x :: b) e ↔ L.Seg c a (some x) ∧ L.Seg (some x) b e := by
  induction a generalizing c with
  | nil => rfl
  | cons y a ih => simp [Seg, ih (some y), and_assoc]

theorem Seg.next_lastCell {L : Links ι} {c : Option ι} {l : List ι} {e : Option ι}
    (h : L.Seg c l e) : L.next (lastCell c l) = e := by
  induction l generalizing c with
  | nil => exact h
  | cons x l ih => exact ih h.2

/-- The pointers spell one list only. -/
theorem Seg.unique {L : Links ι} {c : Option ι} {l l' : List ι} (h : L.Seg c l none)
    (h' : L.Seg c l' none) : l = l' := by
  induction l generalizing c l' with
  | nil =>
    cases l' with
    | nil => rfl
    | cons y l' => simp [Seg] at h h'; simp [h] at h'
  | cons x l ih =>
    cases l' with
    | nil => simp [Seg] at h h'; simp [h'] at h
    | cons y l' =>
      obtain rfl := Option.some.inj (h.1.symm.trans h'.1)
      rw [ih h.2 h'.2]

/-- Segments only read the forward pointers of their cells. -/
theorem Seg.congr {L M : Links ι} {c : Option ι} {l : List ι} {e : Option ι} (h : L.Seg c l e)
    (hc : M.next c = L.next c) (hl : ∀ x ∈ l, M.next (some x) = L.next (some x)) :
    M.Seg c l e := by
  induction l generalizing c with
  | nil => exact hc.trans h
  | cons x l ih =>
    refine ⟨hc.trans h.1, ih h.2 (hl x (by simp)) fun y hy => hl y (by simp [hy])⟩

theorem Backs.congr {L M : Links ι} {c : Option ι} {l : List ι} (h : L.Backs c l)
    (hl : ∀ x ∈ l, M.prev x = L.prev x) : M.Backs c l := by
  induction l generalizing c with
  | nil => trivial
  | cons x l ih =>
    exact ⟨(hl x (by simp)).trans h.1, ih h.2 fun y hy => hl y (by simp [hy])⟩

theorem backs_append (L : Links ι) (c : Option ι) (a : List ι) (x : ι) (b : List ι) :
    L.Backs c (a ++ x :: b) ↔
      L.Backs c a ∧ L.prev x = some (lastCell c a) ∧ L.Backs (some x) b := by
  induction a generalizing c with
  | nil => simp [Backs, lastCell]
  | cons y a ih => simp [Backs, lastCell, ih (some y), and_assoc]

/-- Every cell of a segment points at a node of the segment or at its end. -/
theorem Seg.next_mem {L : Links ι} {c : Option ι} {l : List ι} {e : Option ι} (h : L.Seg c l e)
    {d : Option ι} (hd : d = c ∨ ∃ z ∈ l, d = some z) :
    L.next d = e ∨ ∃ y ∈ l, L.next d = some y := by
  induction l generalizing c with
  | nil =>
    rcases hd with rfl | ⟨z, hz, _⟩
    · exact .inl h
    · simp at hz
  | cons x l ih =>
    by_cases hc : d = c
    · exact .inr ⟨x, by simp, hc ▸ h.1⟩
    · have hd' : d = some x ∨ ∃ z ∈ l, d = some z := by
        rcases hd with hd | ⟨z, hz, rfl⟩
        · exact absurd hd hc
        · rcases List.mem_cons.1 hz with rfl | hz
          · exact .inl rfl
          · exact .inr ⟨z, hz, rfl⟩
      rcases ih h.2 hd' with he | ⟨y, hy, he⟩
      · exact .inl he
      · exact .inr ⟨y, by simp [hy], he⟩

/-- In a segment without repetition only one cell points at `x`. -/
theorem Seg.eq_lastCell {L : Links ι} {c : Option ι} {a : List ι} {x : ι} {b : List ι}
    (h : L.Seg c (a ++ x :: b) none) (hn : (a ++ x :: b).Nodup) {d : Option ι}
    (hd : d = c ∨ ∃ z ∈ a ++ x :: b, d = some z) (hx : L.next d = some x) : d = lastCell c a := by
  induction a generalizing c with
  | nil =>
    by_contra hc
    have hd' : d = some x ∨ ∃ z ∈ b, d = some z := by
      rcases hd with hd | ⟨z, hz, rfl⟩
      · exact absurd hd hc
      · simpa using hz
    have hb : x ∉ b := (List.nodup_cons.1 hn).1
    rcases h.2.next_mem hd' with he | ⟨y, hy, he⟩
    · simp [he] at hx
    · exact hb (Option.some.inj (he.symm.trans hx) ▸ hy)
  | cons y a ih =>
    have hy : y ≠ x := by
      rintro rfl
      simp at hn
    refine ih h.2 (List.nodup_cons.1 hn).2 ?_
    rcases hd with rfl | ⟨z, hz, rfl⟩
    · exact absurd (Option.some.inj (h.1.symm.trans hx)) hy
    · simpa using hz

variable [DecidableEq ι]

/-- Redirecting the last cell of a segment changes where the segment ends. -/
theorem Seg.redirect {L : Links ι} {c : Option ι} {l : List ι} {e : Option ι} (h : L.Seg c l e)
    (hn : l.Nodup) (hc : ∀ x ∈ l, c ≠ some x) (e' : Option ι) :
    (L.setNext (lastCell c l) e').Seg c l e' := by
  induction l generalizing c with
  | nil => simp [Seg, lastCell, setNext]
  | cons x l ih =>
    have hx : ∀ y ∈ l, some x ≠ some y := by
      intro y hy he
      exact (List.nodup_cons.1 hn).1 (Option.some.inj he ▸ hy)
    refine ⟨?_, ih h.2 (List.nodup_cons.1 hn).2 hx⟩
    have hl : c ≠ lastCell (some x) l := by
      cases hcl : lastCell (some x) l with
      | none => exact absurd hcl (lastCell_some_ne_none x l)
      | some y =>
        rcases lastCell_mem hcl with he | he
        · exact fun hcy => hc x (by simp) (hcy.trans he.symm)
        · exact fun hcy => hc y (by simp [he]) hcy
    simpa [lastCell, setNext, Function.update_of_ne hl] using h.1

/-! ## Field equations -/

@[simp] theorem setPrevOf_next (L : Links ι) (y : Option ι) (p : Option (Option ι)) :
    (L.setPrevOf y p).next = L.next := by
  cases y <;> rfl

theorem setPrevOf_prev_of_ne (L : Links ι) {y : Option ι} (p : Option (Option ι)) {x : ι}
    (h : y ≠ some x) : (L.setPrevOf y p).prev x = L.prev x := by
  cases y with
  | none => rfl
  | some z =>
    have hx : x ≠ z := fun he => h (he ▸ rfl)
    exact Function.update_of_ne hx _ _

@[simp] theorem setPrevOf_prev_self (L : Links ι) (x : ι) (p : Option (Option ι)) :
    (L.setPrevOf (some x) p).prev x = p := Function.update_self _ _ _

@[simp] theorem setNext_prev (L : Links ι) (c y : Option ι) : (L.setNext c y).prev = L.prev := rfl

@[simp] theorem setPrev_next (L : Links ι) (x : ι) (p : Option (Option ι)) :
    (L.setPrev x p).next = L.next := rfl

@[simp] theorem setNextOf_some (L : Links ι) (c y : Option ι) :
    L.setNextOf (some c) y = L.setNext c y := rfl

/-- A node that is in no list is left as it is. -/
theorem unlink_of_null {L : Links ι} {x : ι} (hp : L.prev x = none) (hn : L.next (some x) = none) :
    L.unlink x = L := by
  have hnext : Function.update L.next (some x) none = L.next := by
    rw [← hn]; exact Function.update_eq_self _ _
  have hprev : Function.update L.prev x none = L.prev := by
    rw [← hp]; exact Function.update_eq_self _ _
  simp [unlink, hp, hn, setNextOf, setPrevOf, setNext, setPrev, hnext, hprev]

theorem IsList.settled_iff {L : Links ι} {S : Set ι} {a : List ι} {x : ι} {b : List ι}
    (h : L.IsList S (a ++ x :: b)) : L.Settled x ↔ L.prev x = some (lastCell none a) := by
  have hs := ((seg_append L none a x b none).1 h.seg).1
  constructor
  · rintro ⟨c, hp, hc⟩
    have hd : c = none ∨ ∃ z ∈ a ++ x :: b, c = some z := by
      obtain ⟨c', hp', hS⟩ := h.in_prev x (by simp)
      obtain rfl : c' = c := Option.some.inj (hp'.symm.trans hp)
      cases c' with
      | none => exact .inl rfl
      | some y =>
        refine .inr ⟨y, ?_, rfl⟩
        by_contra hy
        simp [h.out_next y (hS y rfl) hy] at hc
    rw [hp, h.seg.eq_lastCell h.nodup hd hc]
  · intro hp
    exact ⟨_, hp, hs.next_lastCell⟩

theorem Tight.settled {L : Links ι} {S : Set ι} {l : List ι} (h : L.Tight S l) {x : ι}
    (hx : x ∈ l) :
    L.Settled x := by
  obtain ⟨a, b, rfl⟩ := List.append_of_mem hx
  exact h.toIsList.settled_iff.2 ((backs_append L none a x b).1 h.backs).2.1

/-! ## Operations -/

/-- What `unlink` does to the pointers of a settled member. -/
theorem unlink_next {L : Links ι} {x : ι} {c : Option ι} (hp : L.prev x = some c)
    (hc : c ≠ some x) : (L.unlink x).next =
      Function.update (Function.update L.next c (L.next (some x))) (some x) none := by
  simp [unlink, hp, setNext, Function.update_of_ne hc.symm]

theorem unlink_prev_self (L : Links ι) (x : ι) : (L.unlink x).prev x = none := by
  simp [unlink, setPrev]

theorem unlink_prev_of_ne {L : Links ι} {x y : ι} {c : Option ι} (hp : L.prev x = some c)
    (hc : c ≠ some x) (hxy : y ≠ x) : (L.unlink x).prev y =
      if L.next (some x) = some y then some c else L.prev y := by
  have hn : (L.setNext c (L.next (some x))).next (some x) = L.next (some x) :=
    Function.update_of_ne hc.symm _ _
  simp only [unlink, hp, setNextOf_some, hn, setNext_prev]
  by_cases hy : L.next (some x) = some y
  · simp [hy, setPrev, setNext, Function.update_of_ne hxy]
  · have := setPrevOf_prev_of_ne (L.setNext c (L.next (some x))) (some c) hy
    simpa [hy, setPrev, Function.update_of_ne hxy] using this

omit [DecidableEq ι] in
theorem lastCell_ne_of_nodup {a : List ι} {x : ι} {b : List ι} (hn : (a ++ x :: b).Nodup) :
    lastCell none a ≠ some x := by
  intro h
  rcases lastCell_mem h with h | h
  · simp at h
  · exact (List.nodup_append.1 hn).2.2 x h x (by simp) rfl

/-- Unlinking a settled member removes it from the list and from nothing else. -/
theorem IsList.unlink {L : Links ι} {S : Set ι} {a : List ι} {x : ι} {b : List ι}
    (h : L.IsList S (a ++ x :: b)) (hx : L.Settled x) : (L.unlink x).IsList S (a ++ b) := by
  have hp := h.settled_iff.1 hx
  have hc := lastCell_ne_of_nodup h.nodup
  obtain ⟨ha, hxb⟩ := (seg_append L none a x b none).1 h.seg
  obtain ⟨hna, hnxb, hdis⟩ := List.nodup_append.1 h.nodup
  have hxa : x ∉ a := fun hm => hdis x hm x (by simp) rfl
  have hx_b : x ∉ b := (List.nodup_cons.1 hnxb).1
  have hnext := unlink_next hp hc
  -- the part before `x` now ends where `x` pointed
  have hseg : (L.unlink x).Seg none a (L.next (some x)) := by
    refine (ha.redirect hna (by simp) (L.next (some x))).congr ?_ fun y hy => ?_ <;> rw [hnext]
    · rfl
    · have : some y ≠ some x := fun he => hxa (Option.some.inj he ▸ hy)
      simp [setNext, Function.update_of_ne this]
  have hkeep : ∀ y ∈ b, (L.unlink x).next (some y) = L.next (some y) := by
    intro y hy
    have hyx : some y ≠ some x := fun he => hx_b (Option.some.inj he ▸ hy)
    have hyc : some y ≠ lastCell none a := by
      intro he
      rcases lastCell_mem he.symm with hm | hm
      · simp at hm
      · exact hdis y hm y (by simp [hy]) rfl
    simp [hnext, Function.update_of_ne hyx, Function.update_of_ne hyc]
  have hmem : ∀ y, y ≠ x → (y ∈ a ++ b ↔ y ∈ a ++ x :: b) := by
    intro y hy
    simp [hy]
  refine ⟨h.nodup.sublist (by simp), ?_, ?_, ?_, ?_, ?_⟩
  · cases b with
    | nil => simpa [hxb.next_lastCell, lastCell, show L.next (some x) = none from hxb] using hseg
    | cons y b =>
      rw [show L.next (some x) = some y from hxb.1] at hseg
      refine (seg_append _ none a y b none).2 ⟨hseg, hxb.2.congr ?_ fun z hz => ?_⟩
      · exact hkeep y (by simp)
      · exact hkeep z (by simp [hz])
  · exact fun y hy => h.sub y (by grind)
  · intro y hy
    have hyx : y ≠ x := by
      rintro rfl
      rcases List.mem_append.1 hy with hm | hm
      exacts [hxa hm, hx_b hm]
    rw [unlink_prev_of_ne hp hc hyx]
    split
    · refine ⟨_, rfl, fun z hz => h.sub z ?_⟩
      rcases lastCell_mem hz with hm | hm
      · simp at hm
      · simp [hm]
    · exact h.in_prev y ((hmem y hyx).1 hy)
  · intro y hS hy
    by_cases hyx : y = x
    · exact hyx ▸ unlink_prev_self L x
    · have hout : y ∉ a ++ x :: b := fun hm => hy ((hmem y hyx).2 hm)
      rw [unlink_prev_of_ne hp hc hyx, if_neg]
      · exact h.out_prev y hS hout
      · intro he
        rcases hxb.next_mem (.inl rfl) with hn | ⟨z, hz, hn⟩
        · simp [he] at hn
        · exact hout (by simp [Option.some.inj (he.symm.trans hn) ▸ hz])
  · intro y hS hy
    by_cases hyx : y = x
    · simp [hnext, hyx]
    · have hout : y ∉ a ++ x :: b := fun hm => hy ((hmem y hyx).2 hm)
      have hyc : some y ≠ lastCell none a := by
        intro he
        rcases lastCell_mem he.symm with hm | hm
        · simp at hm
        · exact hout (by simp [hm])
      have hyx' : some y ≠ some x := fun he => hyx (Option.some.inj he)
      rw [hnext, Function.update_of_ne hyx', Function.update_of_ne hyc]
      exact h.out_next y hS hout

/-- Unlinking keeps exact back pointers exact. -/
theorem Tight.unlink {L : Links ι} {S : Set ι} {a : List ι} {x : ι} {b : List ι}
    (h : L.Tight S (a ++ x :: b)) : (L.unlink x).Tight S (a ++ b) := by
  have hset := h.settled (x := x) (by simp)
  have hp := h.toIsList.settled_iff.1 hset
  have hc := lastCell_ne_of_nodup h.nodup
  obtain ⟨hba, -, hbb⟩ := (backs_append L none a x b).1 h.backs
  obtain ⟨-, hxb⟩ := (seg_append L none a x b none).1 h.seg
  obtain ⟨-, hnxb, hdis⟩ := List.nodup_append.1 h.nodup
  refine ⟨h.toIsList.unlink hset, ?_⟩
  have hfar : ∀ y, y ≠ x → L.next (some x) ≠ some y → (L.unlink x).prev y = L.prev y := by
    intro y hy hn
    rw [unlink_prev_of_ne hp hc hy, if_neg hn]
  have hmem : ∀ y ∈ a, L.next (some x) ≠ some y := by
    intro y hy he
    rcases hxb.next_mem (.inl rfl) with hn | ⟨z, hz, hn⟩
    · simp [he] at hn
    · exact hdis y hy z (by simp [hz]) (Option.some.inj (he.symm.trans hn))
  have ha : (L.unlink x).Backs none a :=
    hba.congr fun y hy => hfar y (fun he => hdis y hy x (by simp) he) (hmem y hy)
  cases b with
  | nil => simpa using ha
  | cons y b =>
    have hyx : y ≠ x := fun he => (List.nodup_cons.1 hnxb).1 (by simp [he])
    refine (backs_append _ none a y b).2 ⟨ha, ?_, hbb.2.congr fun z hz => hfar z ?_ ?_⟩
    · rw [unlink_prev_of_ne hp hc hyx, if_pos hxb.1]
    · exact fun he => (List.nodup_cons.1 hnxb).1 (by simp [← he, hz])
    · rw [hxb.1]
      intro he
      have := (List.nodup_cons.1 (List.nodup_cons.1 hnxb).2).1
      exact this (Option.some.inj he ▸ hz)

omit [DecidableEq ι] in
theorem IsList.next_none {L : Links ι} {S : Set ι} {l : List ι} (h : L.IsList S l) :
    L.next none = l.head? := by
  cases l with
  | nil => exact h.seg
  | cons y l => exact h.seg.1

theorem pushFront_next (L : Links ι) (x : ι) : (L.pushFront x).next =
    Function.update (Function.update L.next (some x) (L.next none)) none (some x) := by
  simp [pushFront, setNext]

theorem pushFront_prev (L : Links ι) (x y : ι) : (L.pushFront x).prev y =
    if y = x then some none else if L.next none = some y then some (some x) else L.prev y := by
  by_cases hy : y = x
  · simp [pushFront, setPrev, hy]
  · by_cases hn : L.next none = some y
    · simp [pushFront, setPrev, setNext, hy, hn]
    · have := setPrevOf_prev_of_ne (L.setNext (some x) (L.next none)) (some (some x)) hn
      simpa [pushFront, setPrev, hy, hn, setNext, Function.update_of_ne hy] using this

/-- Both ways of inserting at the front spell the same list. -/
private theorem isList_cons {L M : Links ι} {S : Set ι} {l : List ι} (h : L.IsList S l) {x : ι}
    (hx : x ∉ l)
    (hnext : M.next = Function.update (Function.update L.next (some x) (L.next none)) none (some x))
    (hin : ∀ y ∈ x :: l, ∃ c, M.prev y = some c ∧ ∀ z ∈ c, z ∈ insert x S)
    (hout : ∀ y ∉ x :: l, M.prev y = L.prev y) :
    M.IsList (insert x S) (x :: l) := by
  have hold : ∀ y ∈ l, M.next (some y) = L.next (some y) := by
    intro y hy
    have hyx : some y ≠ some x := fun he => hx (Option.some.inj he ▸ hy)
    simp [hnext, Function.update_of_ne hyx]
  refine ⟨List.nodup_cons.2 ⟨hx, h.nodup⟩, ⟨by simp [hnext], ?_⟩, ?_, hin, ?_, ?_⟩
  · cases l with
    | nil => simpa [Seg, hnext] using h.seg
    | cons y l =>
      refine ⟨by simpa [hnext] using h.seg.1, h.seg.2.congr (hold y (by simp)) fun z hz => ?_⟩
      exact hold z (by simp [hz])
  · intro y hy
    rcases List.mem_cons.1 hy with rfl | hy
    · exact Set.mem_insert y S
    · exact Set.mem_insert_of_mem x (h.sub y hy)
  · intro y hS hy
    have hyx : y ≠ x := fun he => hy (by simp [he])
    rw [hout y hy]
    exact h.out_prev y (hS.resolve_left hyx) fun hm => hy (by simp [hm])
  · intro y hS hy
    have hyx : y ≠ x := fun he => hy (by simp [he])
    have hyx' : some y ≠ some x := fun he => hyx (Option.some.inj he)
    simpa [hnext, Function.update_of_ne hyx'] using
      h.out_next y (hS.resolve_left hyx) fun hm => hy (by simp [hm])

theorem IsList.pushFront {L : Links ι} {S : Set ι} {l : List ι} (h : L.IsList S l) {x : ι}
    (hx : x ∉ l) : (L.pushFront x).IsList (insert x S) (x :: l) := by
  refine isList_cons h hx (pushFront_next L x) (fun y hy => ?_) fun y hy => ?_
  · rw [pushFront_prev]
    split_ifs with h₁ h₂
    · exact ⟨none, rfl, by simp⟩
    · exact ⟨some x, rfl, by simp⟩
    · obtain ⟨c, hc, hS⟩ := h.in_prev y (by simpa [h₁] using hy)
      exact ⟨c, hc, fun z hz => Set.mem_insert_of_mem x (hS z hz)⟩
  · have hyx : y ≠ x := fun he => hy (by simp [he])
    rw [pushFront_prev, if_neg hyx, if_neg]
    intro hn
    rw [h.next_none] at hn
    exact hy (List.mem_cons_of_mem x (List.mem_of_mem_head? hn))

theorem Tight.pushFront {L : Links ι} {S : Set ι} {l : List ι} (h : L.Tight S l) {x : ι}
    (hx : x ∉ l) : (L.pushFront x).Tight (insert x S) (x :: l) := by
  refine ⟨h.toIsList.pushFront hx, by simp [pushFront_prev], ?_⟩
  cases l with
  | nil => trivial
  | cons y l =>
    have hyx : y ≠ x := fun he => hx (by simp [he])
    refine ⟨by simp [pushFront_prev, hyx, h.toIsList.next_none], h.backs.2.congr fun z hz => ?_⟩
    have hzx : z ≠ x := fun he => hx (by simp [← he, hz])
    have hzy : y ≠ z := fun he => (List.nodup_cons.1 h.nodup).1 (he ▸ hz)
    simp [pushFront_prev, hzx, h.toIsList.next_none, hzy]

theorem IsList.pushFrontStale {L : Links ι} {S : Set ι} {l : List ι} (h : L.IsList S l) {x : ι}
    (hx : x ∉ l) : (L.pushFrontStale x).IsList (insert x S) (x :: l) := by
  refine isList_cons h hx rfl (fun y hy => ?_) fun y hy => ?_
  · by_cases hyx : y = x
    · exact ⟨none, by simp [Links.pushFrontStale, setPrev, setNext, hyx], by simp⟩
    · obtain ⟨c, hc, hS⟩ := h.in_prev y (by simpa [hyx] using hy)
      refine ⟨c, ?_, fun z hz => Set.mem_insert_of_mem x (hS z hz)⟩
      simpa [Links.pushFrontStale, setPrev, setNext, Function.update_of_ne hyx] using hc
  · have hyx : y ≠ x := fun he => hy (by simp [he])
    simp [Links.pushFrontStale, setPrev, setNext, Function.update_of_ne hyx]

/-- The stale insertion is exact on an empty list only. -/
theorem Tight.pushFrontStale_iff {L : Links ι} {S : Set ι} {l : List ι} (h : L.Tight S l) {x : ι}
    (hx : x ∉ l) : (L.pushFrontStale x).Tight (insert x S) (x :: l) ↔ l = [] := by
  constructor
  · intro ht
    cases l with
    | nil => rfl
    | cons y l =>
      have hyx : y ≠ x := fun he => hx (by simp [he])
      have hback : (L.pushFrontStale x).prev y = some (some x) := ht.backs.2.1
      have hold : L.prev y = some none := h.backs.1
      simp [Links.pushFrontStale, setPrev, setNext, Function.update_of_ne hyx, hold] at hback
  · rintro rfl
    exact ⟨h.toIsList.pushFrontStale hx, by simp [Backs, Links.pushFrontStale, setPrev, setNext]⟩

/-! ## Where the list leads, whatever its back pointers are -/

theorem Inside.setNext {L : Links ι} {S : Set ι} (h : L.Inside S) (c : Option ι) {z : Option ι}
    (hz : ∀ y ∈ z, y ∈ S) : (L.setNext c z).Inside S := by
  intro c' hc' y hy
  dsimp only [Links.setNext] at hy
  by_cases hc : c' = c
  · rw [hc, Function.update_self] at hy
    exact hz y hy
  · rw [Function.update_of_ne hc] at hy
    exact h c' hc' y hy

theorem Inside.unlink {L : Links ι} {S : Set ι} (h : L.Inside S) {x : ι} (hx : x ∈ S) :
    (L.unlink x).Inside S := by
  have hnext := h (some x) fun y hy => by
    obtain rfl := Option.some.inj hy
    exact hx
  have hfirst : (L.setNextOf (L.prev x) (L.next (some x))).Inside S := by
    cases L.prev x with
    | none => exact h
    | some c => exact h.setNext c hnext
  have hsame : ((L.setNextOf (L.prev x) (L.next (some x))).setPrevOf
      ((L.setNextOf (L.prev x) (L.next (some x))).next (some x))
      ((L.setNextOf (L.prev x) (L.next (some x))).prev x)).Inside S := by
    rw [Inside, setPrevOf_next]
    exact hfirst
  exact hsame.setNext (some x) fun y hy => by cases hy

theorem Inside.pushFront {L : Links ι} {S : Set ι} (h : L.Inside S) {x : ι} (hx : x ∈ S) :
    (L.pushFront x).Inside S := by
  have hhead := h none fun y hy => by cases hy
  rw [Inside, pushFront_next]
  exact (h.setNext (some x) hhead).setNext none fun y hy => by
    obtain rfl := Option.some.inj hy
    exact hx

/-- The new node leads to the old ones. -/
theorem Inside.pushFrontStale {L : Links ι} {S : Set ι} (h : L.Inside S) (x : ι) :
    (L.pushFrontStale x).Inside (insert x S) := by
  intro c hc y hy
  rw [Links.pushFrontStale, Links.setNext, Links.setNext, setPrev_next] at hy
  dsimp only at hy
  by_cases hnone : c = none
  · rw [hnone, Function.update_self] at hy
    obtain rfl := Option.some.inj hy
    exact Set.mem_insert _ _
  · rw [Function.update_of_ne hnone] at hy
    by_cases hx : c = some x
    · rw [hx, Function.update_self] at hy
      exact Set.mem_insert_of_mem _ (h none (fun z hz => by cases hz) y hy)
    · rw [Function.update_of_ne hx] at hy
      refine Set.mem_insert_of_mem _ (h c (fun z hz => ?_) y hy)
      exact (hc z hz).resolve_left fun hzx => hx (hzx ▸ hz)

end Links

end TinyLittleOs.Lib
