import TinyLittleOs.Lib.TreeLinks
import Mathlib.Order.Lattice
import Mathlib.Order.Lattice.Nat
import Mathlib.Logic.Relation

/-!
# The intrusive search tree

`ds::rbtree` of `rbtree.hpp`, which is an unbalanced binary search tree. The nodes are the
items. A failed assertion or a null pointer that is followed is `none`; the fuel bounds the
rounds of a loop.
-/

namespace TinyLittleOs.Ds.RbTree

open Lib TreeLinks Relation

variable {ι : Type} [DecidableEq ι] {K : Type*} [LinearOrder K]

/-- `dir_of_child` -/
def dirOfChild (t : TreeLinks ι) (x child : ι) : Option Dir :=
  if t.child x .left = some child then some .left
  else if t.child x .right = some child then some .right
  else none

/-- `intrusive_rb_node::insert` -/
def insertNode (t : TreeLinks ι) (node : ι) (parent : Option ι) (dir : Dir) : TreeLinks ι :=
  let t := t.setParent node parent
  let t := t.setChild node .left none
  let t := t.setChild node .right none
  match parent with
  | none => { t with root := some node }
  | some parent => t.setChild parent dir (some node)

/-- Follow the child pointers in direction `dir` while they are not null. -/
def descend (t : TreeLinks ι) (dir : Dir) : Nat → ι → Option ι
  | 0, _ => none
  | fuel + 1, node =>
    match t.child node dir with
    | none => some node
    | some node => descend t dir fuel node

/-- The end of `remove_me`: replace `me` with `replaced`. -/
def replaceMe (t : TreeLinks ι) (me replaced : ι) : Option (TreeLinks ι) :=
  let t := t.setParent replaced (t.parent me)
  let t := t.setChild replaced .left (t.child me .left)
  let t := t.adopt (t.child me .left) (some replaced)
  let t := t.setChild replaced .right (t.child me .right)
  let t := t.adopt (t.child me .right) (some replaced)
  match t.parent me with
  | some parent => (dirOfChild t parent me).map fun dir => t.setChild parent dir (some replaced)
  | none => some { t with root := some replaced }

/-- `remove_me` -/
def removeMe (t : TreeLinks ι) (fuel : Nat) (me : ι) : Option (TreeLinks ι) :=
  if t.root = some me ∧ t.child me .left = none ∧ t.child me .right = none then
    some { t with root := none }
  else if t.child me .left = none ∧ t.child me .right = none then do
    let parent ← t.parent me
    let dir ← dirOfChild t parent me
    some (t.setChild parent dir none)
  else do
    let childDir := if t.child me .left = none then Dir.right else Dir.left
    let child ← t.child me childDir
    let replaced ← descend t childDir.other fuel child
    let replacedChild :=
      if (t.child replaced .left).isSome then t.child replaced .left else t.child replaced .right
    let replacedParent ← t.parent replaced
    let dir ← dirOfChild t replacedParent replaced
    let t := t.setChild replacedParent dir replacedChild
    let t := t.adopt replacedChild (some replacedParent)
    replaceMe t me replaced

/-- `find`; `item->compare(key)` is negative when `key` is below `keyOf item` and positive when it
is above. -/
def find (t : TreeLinks ι) (keyOf : ι → K) (key : K) : Nat → Option ι → Option (Option ι)
  | 0, _ => none
  | _ + 1, none => some none
  | fuel + 1, some node =>
    if key < keyOf node then find t keyOf key fuel (t.child node .left)
    else if keyOf node < key then find t keyOf key fuel (t.child node .right)
    else some (some node)

/-- The loop of `insert`, which ends at the parent and direction of the new node, or at a node
with the key. -/
def locate (t : TreeLinks ι) (keyOf : ι → K) (key : K) :
    Nat → Option ι → Option ι → Dir → Option (Option (Option ι × Dir))
  | 0, _, _, _ => none
  | _ + 1, none, parent, dir => some (some (parent, dir))
  | fuel + 1, some node, _, _ =>
    if key < keyOf node then locate t keyOf key fuel (t.child node .left) (some node) .left
    else if keyOf node < key then locate t keyOf key fuel (t.child node .right) (some node) .right
    else some none

/-- `insert` -/
def insert (t : TreeLinks ι) (keyOf : ι → K) (fuel : Nat) (key : K) (item : ι) :
    Option (Bool × TreeLinks ι) :=
  (locate t keyOf key fuel t.root none .left).map fun
    | none => (false, t)
    | some (parent, dir) => (true, insertNode t item parent dir)

/-! ## Search -/

variable {t : TreeLinks ι} {keyOf : ι → K} {key : K} {p q : Option ι} {s : Shape ι}
  {C : List (Frame ι)}

/-- The keys of a search tree increase from left to right. -/
def Sorted (keyOf : ι → K) (s : Shape ι) : Prop := s.toList.Pairwise fun x y => keyOf x < keyOf y

omit [DecidableEq ι] in
theorem sorted_node {x : ι} {sub : Dir → Shape ι} : Sorted keyOf (.node x sub) ↔
    (∀ d, Sorted keyOf (sub d)) ∧ (∀ y ∈ (sub .left).toList, keyOf y < keyOf x) ∧
      (∀ y ∈ (sub .right).toList, keyOf x < keyOf y) := by
  simp only [Sorted, Shape.toList_node, List.pairwise_append, List.pairwise_cons, List.mem_cons]
  constructor
  · rintro ⟨hl, ⟨hx, hr⟩, hlr⟩
    exact ⟨fun d => by cases d <;> assumption, fun y hy => hlr y hy x (.inl rfl), hx⟩
  · rintro ⟨hsub, hlx, hxr⟩
    refine ⟨hsub .left, ⟨hxr, hsub .right⟩, fun y hy z hz => ?_⟩
    rcases hz with rfl | hz
    exacts [hlx y hy, (hlx y hy).trans (hxr z hz)]

omit [DecidableEq ι] in
theorem Sorted.nodup (h : Sorted keyOf s) : s.toList.Nodup :=
  List.Pairwise.imp (fun hlt he => absurd hlt (by rw [he]; exact lt_irrefl _)) h

omit [DecidableEq ι] in
/-- With a round for each node, and one more, the loop finds the node with the key. -/
theorem find_spec (key : K) (h : t.Repr p q s) (hs : Sorted keyOf s) {fuel : Nat}
    (hf : s.toList.length < fuel) :
    ∃ r, find t keyOf key fuel p = some r ∧ ∀ x, r = some x ↔ x ∈ s.toList ∧ keyOf x = key := by
  induction s generalizing p q fuel with
  | nil =>
    obtain ⟨fuel, rfl⟩ : ∃ f, fuel = f + 1 := ⟨fuel - 1, by omega⟩
    obtain rfl : p = none := h
    exact ⟨none, rfl, by simp⟩
  | node y sub ih =>
    obtain ⟨fuel, rfl⟩ : ∃ f, fuel = f + 1 := ⟨fuel - 1, by omega⟩
    obtain ⟨rfl, -, hsub⟩ := h
    obtain ⟨hsorted, hl, hr⟩ := sorted_node.1 hs
    rw [Shape.toList_node, List.length_append, List.length_cons] at hf
    rw [find]
    rcases lt_trichotomy key (keyOf y) with hcmp | hcmp | hcmp
    · rw [if_pos hcmp]
      obtain ⟨r, hr', hspec⟩ := ih .left (hsub .left) (hsorted .left) (by omega : _ < fuel)
      refine ⟨r, hr', fun x => ?_⟩
      rw [hspec, Shape.toList_node, List.mem_append, List.mem_cons]
      constructor
      · exact fun hx => ⟨.inl hx.1, hx.2⟩
      · rintro ⟨hx | rfl | hx, rfl⟩
        · exact ⟨hx, rfl⟩
        · exact absurd hcmp (lt_irrefl _)
        · exact absurd (hcmp.trans (hr x hx)) (lt_irrefl _)
    · rw [if_neg hcmp.not_lt, if_neg hcmp.symm.not_lt]
      refine ⟨some y, rfl, fun x => ?_⟩
      rw [Shape.toList_node, List.mem_append, List.mem_cons, Option.some.injEq]
      constructor
      · rintro rfl
        exact ⟨.inr (.inl rfl), hcmp.symm⟩
      · rintro ⟨hx | rfl | hx, hk⟩
        · exact absurd (hl x hx) (by rw [hk, hcmp]; exact lt_irrefl _)
        · rfl
        · exact absurd (hr x hx) (by rw [hk, hcmp]; exact lt_irrefl _)
    · rw [if_neg hcmp.not_gt, if_pos hcmp]
      obtain ⟨r, hr', hspec⟩ := ih .right (hsub .right) (hsorted .right) (by omega : _ < fuel)
      refine ⟨r, hr', fun x => ?_⟩
      rw [hspec, Shape.toList_node, List.mem_append, List.mem_cons]
      constructor
      · exact fun hx => ⟨.inr (.inr hx.1), hx.2⟩
      · rintro ⟨hx | rfl | hx, rfl⟩
        · exact absurd (hcmp.trans (hl x hx)) (lt_irrefl _)
        · exact absurd hcmp (lt_irrefl _)
        · exact ⟨hx, rfl⟩

omit [DecidableEq ι] in
/-- The loop of `insert` finds the key, or the empty place between the smaller and the larger
keys. -/
theorem locate_spec (key : K) (hC : t.Within p q C) (h : t.Repr p q s) (hs : Sorted keyOf s)
    (hl : ∀ x ∈ Frame.befores C, keyOf x < key) (hr : ∀ x ∈ Frame.afters C, key < keyOf x)
    {fuel : Nat}
    (hf : s.toList.length < fuel) :
    (locate t keyOf key fuel p q (lastDir C) = some none ∧ ∃ x ∈ s.toList, keyOf x = key) ∨
    ∃ C' q', locate t keyOf key fuel p q (lastDir C) = some (some (q', lastDir C')) ∧
      t.Within none q' C' ∧ fillAll C' .nil = fillAll C s ∧
      (∀ x ∈ Frame.befores C', keyOf x < key) ∧ (∀ x ∈ Frame.afters C', key < keyOf x) ∧
      ∀ x ∈ s.toList, keyOf x ≠ key := by
  induction s generalizing p q C fuel with
  | nil =>
    obtain ⟨fuel, rfl⟩ : ∃ f, fuel = f + 1 := ⟨fuel - 1, by omega⟩
    obtain rfl : p = none := h
    exact .inr ⟨C, q, rfl, hC, rfl, hl, hr, by simp⟩
  | node y sub ih =>
    obtain ⟨fuel, rfl⟩ : ∃ f, fuel = f + 1 := ⟨fuel - 1, by omega⟩
    obtain ⟨rfl, hq, hsub⟩ := h
    obtain ⟨hsorted, hyl, hyr⟩ := sorted_node.1 hs
    rw [Shape.toList_node, List.length_append, List.length_cons] at hf
    -- the frame of `y` for either direction
    have hframe (d : Dir) : t.Within (t.child y d) (some y) (⟨y, d, sub d.other⟩ :: C) :=
      ⟨rfl, rfl, hsub d.other, hq ▸ hC⟩
    have hfill (d : Dir) : fillAll (⟨y, d, sub d.other⟩ :: C) (sub d) = fillAll C (.node y sub) :=
      congrArg (fillAll C) (Frame.fill_sub y d sub)
    rw [locate]
    rcases lt_trichotomy key (keyOf y) with hcmp | hcmp | hcmp
    · rw [if_pos hcmp]
      have hr' : ∀ x ∈ Frame.afters (⟨y, .left, sub .right⟩ :: C), key < keyOf x := by
        simp only [Frame.afters, Frame.after, List.cons_append, List.forall_mem_cons,
          List.forall_mem_append]
        exact ⟨hcmp, fun x hx => hcmp.trans (hyr x hx), hr⟩
      have hl' : ∀ x ∈ Frame.befores (⟨y, .left, sub .right⟩ :: C), keyOf x < key := by
        simpa [Frame.befores, Frame.before] using hl
      rcases ih .left (hframe .left) (hsub .left) (hsorted .left) hl' hr' (by omega : _ < fuel) with
        ⟨hloc, x, hx, hk⟩ | ⟨C', q', hloc, hW, hC', hl₁, hr₁, hne⟩
      · exact .inl ⟨hloc, x, Shape.mem_node.2 (.inr ⟨_, hx⟩), hk⟩
      · refine .inr ⟨C', q', hloc, hW, hC'.trans (hfill .left), hl₁, hr₁, fun x hx => ?_⟩
        rw [Shape.toList_node, List.mem_append, List.mem_cons] at hx
        rcases hx with hx | rfl | hx
        exacts [hne x hx, hcmp.ne', (hcmp.trans (hyr x hx)).ne']
    · rw [if_neg hcmp.not_lt, if_neg hcmp.symm.not_lt]
      exact .inl ⟨rfl, y, Shape.mem_node.2 (.inl rfl), hcmp.symm⟩
    · rw [if_neg hcmp.not_gt, if_pos hcmp]
      have hl' : ∀ x ∈ Frame.befores (⟨y, .right, sub .left⟩ :: C), keyOf x < key := by
        simp only [Frame.befores, Frame.before, List.forall_mem_append, List.forall_mem_singleton]
        exact ⟨hl, fun x hx => (hyl x hx).trans hcmp, hcmp⟩
      have hr' : ∀ x ∈ Frame.afters (⟨y, .right, sub .left⟩ :: C), key < keyOf x := by
        simpa [Frame.afters, Frame.after] using hr
      rcases ih .right (hframe .right) (hsub .right) (hsorted .right) hl' hr'
        (by omega : _ < fuel) with
        ⟨hloc, x, hx, hk⟩ | ⟨C', q', hloc, hW, hC', hl₁, hr₁, hne⟩
      · exact .inl ⟨hloc, x, Shape.mem_node.2 (.inr ⟨_, hx⟩), hk⟩
      · refine .inr ⟨C', q', hloc, hW, hC'.trans (hfill .right), hl₁, hr₁, fun x hx => ?_⟩
        rw [Shape.toList_node, List.mem_append, List.mem_cons] at hx
        rcases hx with hx | rfl | hx
        exacts [((hyl x hx).trans hcmp).ne, hcmp.ne, hne x hx]

/-! ## Insertion -/

/-- A node outside is put into an empty place. -/
theorem insertNode_spec {x : ι} (hC : t.Within none q C) (hnodup : (nodes C).Nodup)
    (hx : x ∉ nodes C) :
    (insertNode t x q (lastDir C)).Repr (insertNode t x q (lastDir C)).root none
      (fillAll C (.node x fun _ => .nil)) := by
  have h₁ : (((t.setParent x q).setChild x .left none).setChild x .right none).Within none q C :=
    ((hC.setParent hx q).setChild hx .left none).setChild hx .right none
  have hs : (((t.setParent x q).setChild x .left none).setChild x .right none).Repr (some x) q
      (.node x fun _ => .nil) := by
    refine ⟨rfl, (setParent_parent x x q).trans (if_pos rfl), fun d => ?_⟩
    cases d with
    | left =>
      refine (setChild_child_other (by simp) none).trans (setChild_child_self _ _ _)
    | right => exact setChild_child_self _ _ _
  have hhang : insertNode t x q (lastDir C) =
      (((t.setParent x q).setChild x .left none).setChild x .right none).hang q (lastDir C)
      (some x) := by
    cases q <;> rfl
  rw [hhang]
  refine repr_fillAll.2 ⟨some x, q, h₁.hang hnodup (some x), hs.hang h₁ fun y hy => ?_⟩
  obtain rfl : y = x := by simpa using hy
  exact hx

/-! ## Removal -/

theorem dirOfChild_spec {x : ι} {f : Frame ι} (h : t.Within (some x) q (f :: C))
    (hx : x ∉ f.sibling.toList) : dirOfChild t f.node x = some f.dir := by
  obtain ⟨-, hchild, hsib, -⟩ := h
  obtain ⟨y, d, sib⟩ := f
  cases d with
  | left => exact if_pos hchild
  | right =>
    have hne : t.child y .left ≠ some x := fun he => by
      rw [Dir.other, he] at hsib
      exact hx hsib.root_mem
    exact (if_neg hne).trans (if_pos hchild)

omit [DecidableEq ι] in
/-- The loop ends at the last node in the direction. -/
theorem descend_spec {x : ι} {d : Dir} (h : t.Repr (some x) q s) {fuel : Nat}
    (hf : s.toList.length ≤ fuel) : ∃ C z sub, descend t d fuel x = some z ∧
      s = fillAll C (.node z sub) ∧ sub d = .nil ∧ ∀ f ∈ C, f.dir = d := by
  induction s generalizing x q fuel with
  | nil => exact absurd h.root_mem (by simp)
  | node y sub ih =>
    obtain ⟨hp, -, hsub⟩ := h
    obtain rfl : x = y := Option.some.inj hp
    obtain ⟨fuel, rfl⟩ : ∃ f, fuel = f + 1 := by
      rw [Shape.toList_node, List.length_append, List.length_cons] at hf
      exact ⟨fuel - 1, by omega⟩
    rw [descend]
    cases hchild : t.child x d with
    | none =>
      have hnil := hsub d
      rw [hchild] at hnil
      refine ⟨[], x, sub, rfl, rfl, ?_, by simp⟩
      cases hd : sub d with
      | nil => rfl
      | node y' sub' =>
        rw [hd] at hnil
        exact absurd hnil.1 (by simp)
    | some z =>
      have hlen : (sub d).toList.length ≤ fuel := by
        rw [Shape.toList_node, List.length_append, List.length_cons] at hf
        cases d <;> omega
      have hz := hsub d
      rw [hchild] at hz
      obtain ⟨C, w, sub', hloop, hfill, hnil, hdir⟩ := ih d hz hlen
      refine ⟨C ++ [⟨x, d, sub d.other⟩], w, sub', hloop, ?_, hnil, ?_⟩
      · rw [Frame.fillAll_append, ← hfill]
        exact (Frame.fill_sub x d sub).symm
      · intro f hf
        rcases List.mem_append.1 hf with hf | hf
        · exact hdir f hf
        · rw [List.mem_singleton.1 hf]

omit [DecidableEq ι] in
theorem child_eq_none {x : ι} {sub : Dir → Shape ι} (h : t.Repr p q (.node x sub)) (d : Dir) :
    t.child x d = none ↔ sub d = .nil := by
  obtain ⟨-, -, hsub⟩ := h
  have hd := hsub d
  cases hs : sub d with
  | nil =>
    rw [hs] at hd
    exact iff_of_true hd rfl
  | node y sub' =>
    rw [hs] at hd
    rw [hd.1]
    simp

omit [DecidableEq ι] in
theorem nodup_fillAll (h : (fillAll C s).toList.Nodup) :
    (nodes C).Nodup ∧ s.toList.Nodup ∧ ∀ x ∈ s.toList, x ∉ nodes C := by
  rw [Frame.toList_fillAll, List.append_assoc, List.nodup_append, List.nodup_append] at h
  obtain ⟨hb, ⟨hs, ha, hsa⟩, hbsa⟩ := h
  refine ⟨List.nodup_append.2 ⟨hb, ha, fun x hx y hy => hbsa x hx y (List.mem_append_right _ hy)⟩,
    hs,
    fun x hx hm => ?_⟩
  rcases List.mem_append.1 hm with hm | hm
  · exact hbsa x hm x (List.mem_append_left _ hx) rfl
  · exact hsa x hx x hm rfl

/-- A leaf is cut off. -/
theorem removeMe_leaf {x : ι} {sub : Dir → Shape ι} (fuel : Nat) (hC : t.Within (some x) q C)
    (h : t.Repr (some x) q (.node x sub)) (hleaf : ∀ d, sub d = .nil)
    (hnodup : (fillAll C (.node x sub)).toList.Nodup) :
    ∃ t', removeMe t fuel x = some t' ∧ t'.Repr t'.root none (fillAll C .nil) := by
  obtain ⟨hnodup, -, hx⟩ := nodup_fillAll hnodup
  have hnone : t.child x .left = none ∧ t.child x .right = none :=
    ⟨(child_eq_none h _).2 (hleaf _), (child_eq_none h _).2 (hleaf _)⟩
  have hxC : x ∉ nodes C := hx x (Shape.mem_node.2 (.inl rfl))
  rw [removeMe]
  cases C with
  | nil =>
    rw [if_pos ⟨hC.1, hnone⟩]
    exact ⟨_, rfl, rfl⟩
  | cons f C =>
    have hroot : t.root ≠ some x := fun he => by
      have hwhole := repr_fillAll.2 ⟨_, _, hC, h⟩
      rw [he] at hwhole
      have hparent := hwhole.parent_root
      rw [h.2.1, hC.1] at hparent
      exact absurd hparent (by simp)
    have hdir := dirOfChild_spec hC fun hm => hxC (mem_nodes_cons.2 (.inr (.inl hm)))
    rw [if_neg (fun he => hroot he.1), if_pos hnone, h.2.1, hC.1]
    simp only [Option.bind_eq_bind, Option.bind_some, hdir]
    refine ⟨_, rfl, ?_⟩
    have hhang := hC.hang hnodup none
    rw [hC.1] at hhang
    exact repr_fillAll.2 ⟨none, _, hhang, rfl⟩

/-- A node outside takes the place of `x`. -/
theorem replaceMe_spec {x z : ι} {sub : Dir → Shape ι}
    (h : t.Repr t.root none (fillAll C (.node x sub)))
    (hnodup : (fillAll C (.node x sub)).toList.Nodup)
    (hz : z ∉ (fillAll C (.node x sub)).toList) :
    ∃ t', replaceMe t x z = some t' ∧ t'.Repr t'.root none (fillAll C (.node z sub)) := by
  obtain ⟨p, q, hC, hx⟩ := repr_fillAll.1 h
  obtain rfl : p = some x := hx.1
  obtain ⟨hCnodup, hxnodup, hdisj⟩ := nodup_fillAll hnodup
  have hz' : z ∉ (Shape.node x sub).toList ∧ z ∉ nodes C := by
    rw [Frame.toList_fillAll] at hz
    simp only [nodes, List.mem_append, not_or] at hz ⊢
    tauto
  have hxC : x ∉ nodes C := hdisj x (Shape.mem_node.2 (.inl rfl))
  obtain ⟨hC', hz₁⟩ := hC.takeOver hx hxnodup hdisj hz'.1 hz'.2
  have hparent := (takeOver_parent hx hxnodup hz'.1).trans hx.2.1
  have hreplace : replaceMe t x z = match (t.takeOver x z).parent x with
      | some parent => (dirOfChild (t.takeOver x z) parent x).map fun dir =>
          (t.takeOver x z).setChild parent dir (some z)
      | none => some { t.takeOver x z with root := some z } := rfl
  have hsame : replaceMe t x z = some ((t.takeOver x z).hang q (lastDir C) (some z)) := by
    rw [hreplace, hparent]
    cases C with
    | nil =>
      obtain ⟨-, rfl⟩ := hC
      rfl
    | cons f C =>
      rw [hC.1] at hC' ⊢
      dsimp only
      rw [dirOfChild_spec hC' fun hm => hxC (mem_nodes_cons.2 (.inr (.inl hm)))]
      rfl
  refine ⟨_, hsame,
    repr_fillAll.2 ⟨some z, q, hC'.hang hCnodup (some z), hz₁.hang hC' fun y hy => ?_⟩⟩
  rcases Shape.mem_node.1 hy with rfl | hy
  · exact hz'.2
  · exact hdisj y (Shape.mem_node.2 (.inr hy))

/-- A node with a child is replaced by its neighbour on that side, whose own place goes to the
one child it can have. -/
theorem removeMe_inner {x : ι} {sub : Dir → Shape ι} {fuel : Nat} (hC : t.Within (some x) q C)
    (h : t.Repr (some x) q (.node x sub)) (hinner : ∃ d, sub d ≠ .nil)
    (hnodup : (fillAll C (.node x sub)).toList.Nodup)
    (hf : (Shape.node x sub).toList.length ≤ fuel) :
    ∃ t' s', removeMe t fuel x = some t' ∧ t'.Repr t'.root none (fillAll C s') ∧
      s'.toList = (sub .left).toList ++ (sub .right).toList := by
  have hnone := fun d => child_eq_none h d
  have hnot : ¬ (t.child x .left = none ∧ t.child x .right = none) := by
    rintro ⟨hl, hr⟩
    obtain ⟨d, hd⟩ := hinner
    cases d with
    | left => exact hd ((hnone _).1 hl)
    | right => exact hd ((hnone _).1 hr)
  rw [removeMe, if_neg (fun he => hnot he.2), if_neg hnot]
  generalize hd : (if t.child x .left = none then Dir.right else Dir.left) = d
  have hsome : t.child x d ≠ none := by
    rw [← hd]
    split_ifs with hl
    · exact fun hr => hnot ⟨hl, hr⟩
    · exact hl
  obtain ⟨y, hy⟩ := Option.ne_none_iff_exists'.1 hsome
  have hlen : (sub d).toList.length ≤ fuel := by
    rw [Shape.toList_node, List.length_append, List.length_cons] at hf
    cases d <;> omega
  have hsubd := h.2.2 d
  rw [hy] at hsubd
  obtain ⟨C', z, sub', hloop, hfill, hnil, hdir⟩ := descend_spec hsubd hlen (d := d.other)
  simp only [Option.bind_eq_bind, hy, Option.bind_some, hloop]
  -- the frames around `z`
  have hfill' : fillAll (C' ++ ⟨x, d, sub d.other⟩ :: C) (.node z sub') =
      fillAll C (.node x sub) := by
    rw [Frame.fillAll_append, ← hfill]
    exact congrArg (fillAll C) (Frame.fill_sub x d sub)
  have hwhole := repr_fillAll.2 ⟨_, _, hC, h⟩
  rw [← hfill'] at hwhole hnodup
  obtain ⟨p, q', hW, hz⟩ := repr_fillAll.1 hwhole
  obtain rfl : p = some z := hz.1
  obtain ⟨hWnodup, hznodup, hzW⟩ := nodup_fillAll hnodup
  have hzself : z ∉ nodes (C' ++ ⟨x, d, sub d.other⟩ :: C) := hzW z (Shape.mem_node.2 (.inl rfl))
  have hchild : (if (t.child z .left).isSome then t.child z .left else t.child z .right) =
      t.child z d := by
    have hother := (child_eq_none hz d.other).2 hnil
    cases d with
    | left =>
      rw [Dir.other] at hother
      cases hc : t.child z .left <;> simp [hother]
    | right =>
      rw [Dir.other] at hother
      simp [hother]
  rw [hchild, hz.2.1]
  -- `z` leaves its place to its child
  have hsplice := hW.splice (hz.2.2 d) hWnodup ((Shape.nodup_node.1 hznodup).1 d)
    fun y hy => hzW y (Shape.mem_node.2 (.inr ⟨d, hy⟩))
  obtain ⟨f, W, hf⟩ : ∃ f W, C' ++ ⟨x, d, sub d.other⟩ :: C = f :: W := by
    cases C' with
    | nil => exact ⟨_, _, rfl⟩
    | cons f C' => exact ⟨_, _, rfl⟩
  have hdirz : dirOfChild t f.node z = some f.dir := by
    rw [hf] at hW hzself
    exact dirOfChild_spec hW fun hm => hzself (mem_nodes_cons.2 (.inr (.inl hm)))
  have hq : q' = some f.node := by
    rw [hf] at hW
    exact hW.1
  subst hq
  simp only [Option.bind_some, hdirz]
  have hwhole' := repr_fillAll.2 ⟨_, _, hsplice.1, hsplice.2⟩
  have hhang : t.hang (some f.node) (lastDir (C' ++ ⟨x, d, sub d.other⟩ :: C)) (t.child z d) =
      t.setChild f.node f.dir (t.child z d) := by
    rw [hf]
    rfl
  have hperm : (fillAll (C' ++ ⟨x, d, sub d.other⟩ :: C) (.node z sub')).toList.Perm
      (z :: (fillAll (C' ++ ⟨x, d, sub d.other⟩ :: C) (sub' d)).toList) := by
    have hsub' : (Shape.node z sub').toList.Perm (z :: (sub' d).toList) := by
      cases d <;> simp [Dir.other] at hnil <;> simp [hnil]
    rw [Frame.toList_fillAll, Frame.toList_fillAll, List.append_assoc, List.append_assoc]
    exact ((hsub'.append_right _).append_left _).trans List.perm_middle
  have hnodup' := List.nodup_cons.1 (hperm.nodup_iff.1 hnodup)
  rw [hhang] at hwhole'
  rw [Frame.fillAll_append] at hwhole' hnodup'
  -- `z` takes the place of `x`
  obtain ⟨t', ht', hrepr⟩ := replaceMe_spec hwhole' hnodup'.2 hnodup'.1
  refine ⟨t', _, ht', hrepr, ?_⟩
  cases d with
  | left =>
    rw [Dir.other] at hnil hdir
    have hafters : Frame.afters C' = [] := Frame.beyond_of_dir hdir
    simp [hfill, Frame.toList_fillAll, hafters, hnil, Dir.other]
  | right =>
    rw [Dir.other] at hnil hdir
    have hbefores : Frame.befores C' = [] := List.reverse_eq_nil_iff.1 (Frame.beyond_of_dir hdir)
    simp [hfill, Frame.toList_fillAll, hbefores, hnil, Dir.other]

/-- `remove` takes a node out of the tree, and leaves the order of the others as it is. -/
theorem removeMe_spec {x : ι} {sub : Dir → Shape ι} {fuel : Nat}
    (h : t.Repr t.root none (fillAll C (.node x sub)))
    (hnodup : (fillAll C (.node x sub)).toList.Nodup)
    (hf : (Shape.node x sub).toList.length ≤ fuel) :
    ∃ t' s', removeMe t fuel x = some t' ∧ t'.Repr t'.root none s' ∧
      s'.toList = (fillAll C (.node x sub)).toList.erase x := by
  have herase (s' : Shape ι) (hs' : s'.toList = (sub .left).toList ++ (sub .right).toList) :
      (fillAll C s').toList = (fillAll C (.node x sub)).toList.erase x := by
    rw [Frame.toList_fillAll, Shape.toList_node] at hnodup
    rw [Frame.toList_fillAll, Frame.toList_fillAll, Shape.toList_node, hs']
    grind
  obtain ⟨p, q, hC, hx⟩ := repr_fillAll.1 h
  obtain rfl : p = some x := hx.1
  by_cases hleaf : ∀ d, sub d = .nil
  · obtain ⟨t', ht', hrepr⟩ := removeMe_leaf fuel hC hx hleaf hnodup
    exact ⟨t', _, ht', hrepr, herase .nil (by simp [hleaf])⟩
  · push Not at hleaf
    obtain ⟨t', s', ht', hrepr, hs'⟩ := removeMe_inner hC hx hleaf hnodup hf
    exact ⟨t', _, ht', hrepr, herase s' hs'⟩

end TinyLittleOs.Ds.RbTree
