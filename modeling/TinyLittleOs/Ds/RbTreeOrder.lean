import TinyLittleOs.Ds.RbTreeRuns

/-!
# The order of the search tree

`first` and `next_node`, `last` and `prev_node`. Both pairs are one function with a direction: the
neighbour of a node is at the near end of the subtree on that side, or the first node above that is
left to the other side.
-/

namespace TinyLittleOs.Ds.RbTree

open Lib TreeLinks Relation

variable {ι : Type} [DecidableEq ι] {K : Type*} [LinearOrder K] {keyOf : ι → K}

/-- The loop of `prev_or_next` that goes up. -/
def climb (t : TreeLinks ι) (dir : Dir) : Nat → ι → Option (Option ι)
  | 0, _ => none
  | fuel + 1, node =>
    match t.parent node with
    | none => some none
    | some parent =>
      if t.child parent dir = some node then climb t dir fuel parent else some (some parent)

/-- `prev_or_next<dir>` -/
def prevOrNext (t : TreeLinks ι) (dir : Dir) (fuel : Nat) (node : ι) : Option (Option ι) :=
  match t.child node dir with
  | some child => (descend t dir.other fuel child).map some
  | none => climb t dir fuel node

def prevNode (t : TreeLinks ι) : Nat → ι → Option (Option ι) := prevOrNext t .left

def nextNode (t : TreeLinks ι) : Nat → ι → Option (Option ι) := prevOrNext t .right

/-- The node at the end of the tree in a direction. -/
def endmost (t : TreeLinks ι) (dir : Dir) (fuel : Nat) : Option (Option ι) :=
  match t.root with
  | none => some none
  | some node => (descend t dir fuel node).map some

def first (t : TreeLinks ι) : Nat → Option (Option ι) := endmost t .left

def last (t : TreeLinks ι) : Nat → Option (Option ι) := endmost t .right

/-- The nodes from `p` on, following `step` to null. -/
def walk (step : ι → Option (Option ι)) : Nat → Option ι → Option (List ι)
  | _, none => some []
  | 0, some _ => none
  | fuel + 1, some node => ((step node).bind (walk step fuel)).map fun l => node :: l

/-! ## Neighbours -/

variable {t : TreeLinks ι} {p q : Option ι} {s : Shape ι} {C : List (Frame ι)} {x : ι}
  {d : Dir} {fuel : Nat}

omit [DecidableEq ι] in
/-- The loop that goes down ends at the node that comes first going back. -/
theorem descend_head (h : t.Repr (some x) q s) (hf : s.toList.length ≤ fuel) :
    descend t d.other fuel x = (d.order s.toList).head? := by
  obtain ⟨C, z, sub, hz, rfl, hnil, hdir⟩ := descend_spec (d := d.other) h hf
  rw [hz, Frame.order_fillAll, Shape.order_node, hnil, Frame.beyond_of_dir hdir]
  cases d <;> rfl

/-- The loop that goes up ends at the node that comes next behind the place. -/
theorem climb_head (hC : t.Within (some x) q C) (hq : t.parent x = q) (hnodup : (nodes C).Nodup)
    (hx : x ∉ nodes C) (hf : C.length < fuel) :
    climb t d fuel x = some (Frame.beyond d C).head? := by
  induction C generalizing x q fuel with
  | nil =>
    obtain ⟨fuel, rfl⟩ : ∃ f, fuel = f + 1 := ⟨fuel - 1, by omega⟩
    obtain ⟨-, rfl⟩ := hC
    rw [climb, hq]
    cases d <;> rfl
  | cons f C ih =>
    obtain ⟨fuel, rfl⟩ : ∃ f, fuel = f + 1 := ⟨fuel - 1, by omega⟩
    obtain ⟨rfl, hchild, hsib, hup⟩ := hC
    obtain ⟨-, hfC, hCnodup⟩ := nodup_nodes_cons hnodup
    rw [climb, hq]
    dsimp only
    rcases d.eq_or_other f.dir with rfl | hd
    · -- the place is on the far side of the parent
      rw [if_pos hchild, Frame.beyond_cons_self]
      apply ih hup rfl hCnodup hfC
      rw [List.length_cons] at hf
      omega
    · have hne : t.child f.node d ≠ some x := by
        intro he
        rw [hd, Dir.other_other, he] at hsib
        exact hx (mem_nodes_cons.2 (.inr (.inl hsib.root_mem)))
      rw [if_neg hne, Frame.beyond_cons_other hd]
      rfl

omit [DecidableEq ι] in
theorem length_le_fillAll (C : List (Frame ι)) (s : Shape ι) :
    C.length + s.toList.length ≤ (fillAll C s).toList.length := by
  induction C generalizing s with
  | nil => simp [fillAll]
  | cons f C ih =>
    have hfill : s.toList.length + 1 ≤ (f.fill s).toList.length := by
      obtain ⟨y, d, sib⟩ := f
      cases d <;> simp [Frame.fill]
    have hlen := ih (f.fill s)
    rw [fillAll, List.length_cons]
    omega

/-- `prev_or_next` finds the next node in the order of the direction. -/
theorem prevOrNext_spec {sub : Dir → Shape ι} (hC : t.Within (some x) q C)
    (hx : t.Repr (some x) q (.node x sub)) (hnodup : (fillAll C (.node x sub)).toList.Nodup)
    (hf : (fillAll C (.node x sub)).toList.length ≤ fuel) :
    prevOrNext t d fuel x = some (d.order (sub d).toList ++ Frame.beyond d C).head? := by
  obtain ⟨hCnodup, -, hdisj⟩ := nodup_fillAll hnodup
  have hlen := (length_le_fillAll C (.node x sub)).trans hf
  rw [Shape.toList_node, List.length_append, List.length_cons] at hlen
  rw [prevOrNext]
  cases hchild : t.child x d with
  | none =>
    rw [(child_eq_none hx d).1 hchild]
    have hup := climb_head (d := d) hC hx.2.1 hCnodup
      (hdisj x (Shape.mem_node.2 (.inl rfl))) (show C.length < fuel by omega)
    cases d <;> exact hup
  | some y =>
    have hsub := hx.2.2 d
    rw [hchild] at hsub
    have hsub_len : (sub d).toList.length ≤ fuel := by
      cases d <;> omega
    dsimp only
    rw [descend_head hsub hsub_len]
    -- the subtree has a first node
    have hy : y ∈ d.order (sub d).toList := (d.order_perm _).mem_iff.2 hsub.root_mem
    obtain ⟨z, l, hl⟩ := List.exists_cons_of_ne_nil (List.ne_nil_of_mem hy)
    rw [hl]
    rfl

/-- The node behind `x` in the order of the direction. -/
theorem prevOrNext_eq (h : t.Repr t.root none s) (hnodup : s.toList.Nodup)
    (hf : s.toList.length ≤ fuel)
    {u v : List ι} (hsplit : d.order s.toList = u ++ x :: v) :
    prevOrNext t d fuel x = some v.head? := by
  have hmem : x ∈ s.toList := by
    rw [← (d.order_perm _).mem_iff, hsplit]
    simp
  obtain ⟨C, sub, rfl⟩ := exists_fillAll hmem
  obtain ⟨p, q, hC, hx⟩ := repr_fillAll.1 h
  obtain rfl : p = some x := hx.1
  rw [prevOrNext_spec hC hx hnodup hf]
  -- the list splits at `x` in one way
  have hnodup' : (u ++ x :: v).Nodup := by
    rw [← hsplit]
    exact (d.order_perm _).nodup_iff.2 hnodup
  obtain ⟨-, hxv, hxu⟩ := List.nodup_append.1 hnodup'
  have hu : x ∉ u := fun hm => hxu x hm x List.mem_cons_self rfl
  have hv : x ∉ v := (List.nodup_cons.1 hxv).1
  rw [Frame.order_fillAll, Shape.order_node, ← List.append_assoc, List.append_assoc,
    List.cons_append] at hsplit
  rw [((List.append_cons_inj_of_notMem hu hv).1 hsplit.symm).2.2]

omit [DecidableEq ι] in
/-- The first node in the order of the other direction. -/
theorem endmost_eq (h : t.Repr t.root none s) (hf : s.toList.length ≤ fuel) :
    endmost t d.other fuel = some (d.order s.toList).head? := by
  rw [endmost]
  cases hroot : t.root with
  | none =>
    rw [hroot] at h
    cases s with
    | nil => cases d <;> rfl
    | node x sub => exact absurd h.1 (by simp)
  | some x =>
    rw [hroot] at h
    dsimp only
    rw [descend_head h hf]
    have hx : x ∈ d.order s.toList := (d.order_perm _).mem_iff.2 h.root_mem
    obtain ⟨z, l, hl⟩ := List.exists_cons_of_ne_nil (List.ne_nil_of_mem hx)
    rw [hl]
    rfl

/-! ## Walks -/

omit [DecidableEq ι] in
/-- A walk whose steps lead through a list. -/
theorem walk_eq {step : ι → Option (Option ι)} {l : List ι} {fuel : Nat}
    (hstep : ∀ u x v, l = u ++ x :: v → step x = some v.head?) (hf : l.length ≤ fuel) :
    walk step fuel l.head? = some l := by
  induction l generalizing fuel with
  | nil => cases fuel <;> rfl
  | cons x l ih =>
    obtain ⟨fuel, rfl⟩ : ∃ f, fuel = f + 1 := by
      rw [List.length_cons] at hf
      exact ⟨fuel - 1, by omega⟩
    rw [List.head?_cons, walk, hstep [] x l rfl, Option.bind_some, ih, Option.map_some]
    · intro u y v hl
      apply hstep (x :: u) y v
      rw [hl, List.cons_append]
    · rw [List.length_cons] at hf
      omega

/-- The walk through the tree in a direction. -/
theorem walk_endmost (h : t.Repr t.root none s) (hnodup : s.toList.Nodup)
    (hf : s.toList.length ≤ fuel) :
    (endmost t d.other fuel).bind (walk (prevOrNext t d fuel) fuel) = some (d.order s.toList) := by
  rw [endmost_eq h hf, Option.bind_some]
  apply walk_eq
  · intro u x v hsplit
    exact prevOrNext_eq h hnodup hf hsplit
  · rw [(d.order_perm _).length_eq]
    exact hf

/-- Following the neighbours leads back. -/
theorem prevOrNext_other (h : t.Repr t.root none s) (hnodup : s.toList.Nodup)
    (hf : s.toList.length ≤ fuel) {a b : ι} (ha : a ∈ s.toList)
    (hab : prevOrNext t d fuel a = some (some b)) :
    prevOrNext t d.other fuel b = some (some a) := by
  obtain ⟨u, v, hsplit⟩ := List.append_of_mem ((d.order_perm _).mem_iff.2 ha)
  rw [prevOrNext_eq h hnodup hf hsplit, Option.some.injEq, List.head?_eq_some_iff] at hab
  obtain ⟨w, rfl⟩ := hab
  -- the same list, backwards
  have hback : d.other.order s.toList = w.reverse ++ b :: (a :: u.reverse) := by
    rw [Dir.order_other, hsplit]
    simp
  rw [prevOrNext_eq h hnodup hf hback]
  rfl

/-- From the first item to the last, and back. -/
theorem rbtree_walks {t₀ : TreeLinks ι} {c : Client ι} (hroot : t₀.root = none)
    (hr : ReflTransGen (Step keyOf) ⟨t₀, []⟩ c) : ∃ fuel₀, ∀ fuel ≥ fuel₀,
      (∃ l, (first c.tree fuel).bind (walk (nextNode c.tree fuel) fuel) = some l ∧
        l.Perm c.items ∧ l.Pairwise fun x y => keyOf x < keyOf y) ∧
      (∃ l, (last c.tree fuel).bind (walk (prevNode c.tree fuel) fuel) = some l ∧
        l.Perm c.items ∧ l.Pairwise fun x y => keyOf y < keyOf x) ∧
      ∀ a ∈ c.items, ∀ b ∈ c.items,
        nextNode c.tree fuel a = some (some b) ↔ prevNode c.tree fuel b = some (some a) := by
  obtain ⟨s, h⟩ := Inv.run hroot hr
  have hnodup := h.sorted.nodup
  refine ⟨s.toList.length, fun fuel hf =>
    ⟨⟨_, walk_endmost (d := .right) h.repr hnodup hf, h.items, h.sorted⟩,
    ⟨_, walk_endmost (d := .left) h.repr hnodup hf, ?_, ?_⟩, fun a ha b hb =>
    ⟨fun hab => ?_, fun hba => ?_⟩⟩⟩
  · exact (Dir.left.order_perm _).trans h.items
  · rw [Dir.order, List.pairwise_reverse]
    exact h.sorted
  · exact prevOrNext_other (d := .right) h.repr hnodup hf (h.items.mem_iff.2 ha) hab
  · exact prevOrNext_other (d := .left) h.repr hnodup hf (h.items.mem_iff.2 hb) hba

theorem rbtree_walks_noNodes : ∃ (t : TreeLinks Nat) (fuel : Nat), t.root = some 1 ∧
    ∃ l, (first t fuel).bind (walk (nextNode t fuel) fuel) = some l ∧ l.Perm [2, 1] := by
  have hcalls : ∃ t, insert noNodes (fun x : Nat => x) 1 1 1 = some (true, t) ∧
      ∃ t', insert t (fun x : Nat => x) 2 2 2 = some (true, t') ∧ t'.root = some 1 :=
    ⟨_, rfl, _, rfl, rfl⟩
  obtain ⟨t, ht, t', ht', hroot⟩ := hcalls
  have hnull : noNodes.root = none := rfl
  obtain ⟨fuel, hfuel⟩ := rbtree_walks hnull (.tail (.single (.insert ht)) (.insert ht'))
  obtain ⟨⟨l, hl, hperm, -⟩, -⟩ := hfuel fuel le_rfl
  exact ⟨t', fuel, hroot, l, hl, hperm⟩

end TinyLittleOs.Ds.RbTree
