import Mathlib.Data.List.Basic
import Mathlib.Data.List.Nodup
import Mathlib.Logic.Function.Basic

/-!
# Binary trees kept in pointers

Every node has a parent pointer and a child pointer for each direction. `Repr` says which shape
is below a pointer, and `Within` which shape is around it. A pointer that changes is the child
pointer between the two or a parent pointer at the root of the inner one, so that an edit of a
tree is a change of one of the parts.
-/

namespace TinyLittleOs.Lib

inductive Dir where
  | left
  | right
  deriving DecidableEq

namespace Dir

def other : Dir → Dir
  | left => right
  | right => left

@[simp] theorem other_ne (d : Dir) : d.other ≠ d := by cases d <;> simp [other]

@[simp] theorem ne_other (d : Dir) : d ≠ d.other := (other_ne d).symm

@[simp] theorem other_other (d : Dir) : d.other.other = d := by cases d <;> rfl

theorem eq_or_other (d d' : Dir) : d' = d ∨ d' = d.other := by cases d <;> cases d' <;> simp [other]

end Dir

inductive Shape (ι : Type*) where
  | nil
  | node (x : ι) (sub : Dir → Shape ι)

namespace Shape

variable {ι : Type*}

/-- The nodes from left to right. -/
def toList : Shape ι → List ι
  | nil => []
  | node x sub => (sub .left).toList ++ x :: (sub .right).toList

@[simp] theorem toList_nil : (nil : Shape ι).toList = [] := rfl

@[simp] theorem toList_node (x : ι) (sub : Dir → Shape ι) :
    (node x sub).toList = (sub .left).toList ++ x :: (sub .right).toList := rfl

theorem mem_node {x y : ι} {sub : Dir → Shape ι} :
    y ∈ (node x sub).toList ↔ y = x ∨ ∃ d, y ∈ (sub d).toList := by
  rw [toList_node, List.mem_append, List.mem_cons]
  constructor
  · rintro (h | h | h)
    exacts [.inr ⟨_, h⟩, .inl h, .inr ⟨_, h⟩]
  · rintro (h | ⟨d | d, h⟩)
    exacts [.inr (.inl h), .inl h, .inr (.inr h)]

/-- What the nodes of a shape without repetition are apart from. -/
theorem nodup_node {x : ι} {sub : Dir → Shape ι} :
    (node x sub).toList.Nodup ↔ (∀ d, (sub d).toList.Nodup) ∧ (∀ d, x ∉ (sub d).toList) ∧
      ∀ d, ∀ y ∈ (sub d).toList, y ∉ (sub d.other).toList := by
  rw [toList_node, List.nodup_append, List.nodup_cons]
  constructor
  · rintro ⟨hl, ⟨hxr, hr⟩, hne⟩
    refine ⟨fun d => by cases d <;> assumption, fun d => ?_, fun d y hy hy' => ?_⟩
    · cases d with
      | left => exact fun hx => hne x hx x (by simp) rfl
      | right => exact hxr
    · cases d with
      | left => exact hne y hy y (List.mem_cons_of_mem x hy') rfl
      | right => exact hne y hy' y (List.mem_cons_of_mem x hy) rfl
  · rintro ⟨hnodup, hx, hne⟩
    refine ⟨hnodup _, ⟨hx _, hnodup _⟩, fun y hy z hz he => ?_⟩
    subst he
    rcases List.mem_cons.1 hz with rfl | hz
    · exact hx _ hy
    · exact hne .left y hy hz

end Shape

/-- A node on the way down: the direction taken, and the other subtree. -/
structure Frame (ι : Type*) where
  node : ι
  dir : Dir
  sibling : Shape ι

namespace Frame

variable {ι : Type*}

def fill (f : Frame ι) (s : Shape ι) : Shape ι :=
  .node f.node fun d => if d = f.dir then s else f.sibling

/-- The nodes to the left of the place where the way down leads, and those to the right. -/
def before (f : Frame ι) : List ι :=
  match f.dir with
  | .left => []
  | .right => f.sibling.toList ++ [f.node]

def after (f : Frame ι) : List ι :=
  match f.dir with
  | .left => f.node :: f.sibling.toList
  | .right => []

theorem toList_fill (f : Frame ι) (s : Shape ι) :
    (f.fill s).toList = f.before ++ s.toList ++ f.after := by
  obtain ⟨x, d, sib⟩ := f
  cases d <;> simp [fill, before, after]

/-- The frame that leads from a node down to one of its subtrees. -/
theorem fill_sub (x : ι) (d : Dir) (sub : Dir → Shape ι) :
    fill ⟨x, d, sub d.other⟩ (sub d) = .node x sub := by
  rw [fill]
  congr 1
  funext d'
  rcases d.eq_or_other d' with rfl | rfl <;> simp

end Frame

/-- The frames from the place up to the root, filled. -/
def fillAll {ι : Type*} : List (Frame ι) → Shape ι → Shape ι
  | [], s => s
  | f :: C, s => fillAll C (f.fill s)

namespace Frame

variable {ι : Type*}

def befores : List (Frame ι) → List ι
  | [] => []
  | f :: C => befores C ++ f.before

def afters : List (Frame ι) → List ι
  | [] => []
  | f :: C => f.after ++ afters C

theorem toList_fillAll (C : List (Frame ι)) (s : Shape ι) :
    (fillAll C s).toList = befores C ++ s.toList ++ afters C := by
  induction C generalizing s with
  | nil => simp [fillAll, befores, afters]
  | cons f C ih => simp [fillAll, befores, afters, ih, toList_fill]

theorem fillAll_append (C C' : List (Frame ι)) (s : Shape ι) :
    fillAll (C ++ C') s = fillAll C' (fillAll C s) := by
  induction C generalizing s with
  | nil => rfl
  | cons f C ih => exact ih (f.fill s)

end Frame

/-- The pointers of all nodes. -/
structure TreeLinks (ι : Type*) where
  root : Option ι
  parent : ι → Option ι
  child : ι → Dir → Option ι

namespace TreeLinks

variable {ι : Type*}

/-- The shape below pointer `p`, whose parent pointer is `q`. -/
def Repr (t : TreeLinks ι) (p q : Option ι) : Shape ι → Prop
  | .nil => p = none
  | .node x sub => p = some x ∧ t.parent x = q ∧ ∀ d, Repr t (t.child x d) (some x) (sub d)

/-- The frames around pointer `p`, which is the child pointer of `q` or the root pointer. -/
def Within (t : TreeLinks ι) (p q : Option ι) : List (Frame ι) → Prop
  | [] => t.root = p ∧ q = none
  | f :: C => q = some f.node ∧ t.child f.node f.dir = p ∧
      t.Repr (t.child f.node f.dir.other) (some f.node) f.sibling ∧
      Within t (some f.node) (t.parent f.node) C

variable {t t' : TreeLinks ι} {p q : Option ι} {s : Shape ι} {C : List (Frame ι)}

theorem repr_fill {f : Frame ι} :
    t.Repr p q (f.fill s) ↔ p = some f.node ∧ t.parent f.node = q ∧
      t.Repr (t.child f.node f.dir) (some f.node) s ∧
      t.Repr (t.child f.node f.dir.other) (some f.node) f.sibling := by
  rw [Frame.fill, Repr]
  refine and_congr_right fun _ => and_congr_right fun _ => ⟨fun h => ?_, fun h d => ?_⟩
  · have h₁ := h f.dir
    have h₂ := h f.dir.other
    simp only [if_true, Dir.other_ne, if_false] at h₁ h₂
    exact ⟨h₁, h₂⟩
  · rcases f.dir.eq_or_other d with rfl | rfl
    · simpa using h.1
    · simpa using h.2

/-- A tree is a shape within its frames. -/
theorem repr_fillAll : t.Repr t.root none (fillAll C s) ↔ ∃ p q, t.Within p q C ∧ t.Repr p q s := by
  induction C generalizing s with
  | nil =>
    constructor
    · exact fun h => ⟨_, _, ⟨rfl, rfl⟩, h⟩
    · rintro ⟨p, q, ⟨rfl, rfl⟩, h⟩
      exact h
  | cons f C ih =>
    rw [fillAll, ih]
    constructor
    · rintro ⟨p, q, hC, hs⟩
      obtain ⟨rfl, rfl, hs, hsib⟩ := repr_fill.1 hs
      exact ⟨_, _, ⟨rfl, rfl, hsib, hC⟩, hs⟩
    · rintro ⟨p, q, ⟨rfl, rfl, hsib, hC⟩, hs⟩
      exact ⟨_, _, hC, repr_fill.2 ⟨rfl, rfl, hs, hsib⟩⟩

/-- A shape depends on the pointers of its nodes only. -/
theorem Repr.congr (h : t.Repr p q s) (hparent : ∀ x ∈ s.toList, t'.parent x = t.parent x)
    (hchild : ∀ x ∈ s.toList, t'.child x = t.child x) : t'.Repr p q s := by
  induction s generalizing p q with
  | nil => exact h
  | node x sub ih =>
    obtain ⟨hp, hq, hsub⟩ := h
    refine ⟨hp, (hparent x (Shape.mem_node.2 (.inl rfl))).trans hq, fun d => ?_⟩
    rw [hchild x (Shape.mem_node.2 (.inl rfl))]
    exact ih d (hsub d) (fun y hy => hparent y (Shape.mem_node.2 (.inr ⟨d, hy⟩)))
      fun y hy => hchild y (Shape.mem_node.2 (.inr ⟨d, hy⟩))

theorem Repr.root_mem {x : ι} (h : t.Repr (some x) q s) : x ∈ s.toList := by
  cases s with
  | nil => exact absurd h (by simp [Repr])
  | node y sub =>
    rw [Option.some.inj h.1]
    exact Shape.mem_node.2 (.inl rfl)

theorem Repr.parent_root {x : ι} (h : t.Repr (some x) q s) : t.parent x = q := by
  cases s with
  | nil => exact absurd h (by simp [Repr])
  | node y sub =>
    rw [Option.some.inj h.1]
    exact h.2.1

/-- The nodes of the frames. -/
def nodes (C : List (Frame ι)) : List ι := Frame.befores C ++ Frame.afters C

theorem mem_nodes_cons {f : Frame ι} {x : ι} :
    x ∈ nodes (f :: C) ↔ x = f.node ∨ x ∈ f.sibling.toList ∨ x ∈ nodes C := by
  obtain ⟨y, d, sib⟩ := f
  cases d <;> simp [nodes, Frame.befores, Frame.afters, Frame.before, Frame.after] <;> tauto

theorem nodup_nodes_cons {f : Frame ι} (h : (nodes (f :: C)).Nodup) :
    f.node ∉ f.sibling.toList ∧ f.node ∉ nodes C ∧ (nodes C).Nodup := by
  obtain ⟨x, d, sib⟩ := f
  cases d <;> simp [nodes, Frame.befores, Frame.afters, Frame.before, Frame.after,
    List.nodup_append] at h ⊢ <;> grind

theorem Within.congr (h : t.Within p q C) (hroot : t'.root = t.root)
    (hparent : ∀ x ∈ nodes C, t'.parent x = t.parent x)
    (hchild : ∀ x ∈ nodes C, t'.child x = t.child x) : t'.Within p q C := by
  induction C generalizing p q with
  | nil => exact ⟨hroot.trans h.1, h.2⟩
  | cons f C ih =>
    obtain ⟨hq, hp, hsib, hC⟩ := h
    have hf : f.node ∈ nodes (f :: C) := mem_nodes_cons.2 (.inl rfl)
    refine ⟨hq, ?_, ?_, ?_⟩
    · rw [hchild _ hf, hp]
    · rw [hchild _ hf]
      exact hsib.congr (fun x hx => hparent x (mem_nodes_cons.2 (.inr (.inl hx))))
        fun x hx => hchild x (mem_nodes_cons.2 (.inr (.inl hx)))
    · rw [hparent _ hf]
      exact ih hC (fun x hx => hparent x (mem_nodes_cons.2 (.inr (.inr hx))))
        fun x hx => hchild x (mem_nodes_cons.2 (.inr (.inr hx)))

/-! ## Edits -/

variable [DecidableEq ι]

def setParent (t : TreeLinks ι) (x : ι) (q : Option ι) : TreeLinks ι :=
  { t with parent := Function.update t.parent x q }

def setChild (t : TreeLinks ι) (x : ι) (d : Dir) (p : Option ι) : TreeLinks ι :=
  { t with child := Function.update t.child x (Function.update (t.child x) d p) }

/-- The parent pointer of a child that may be null. -/
def adopt (t : TreeLinks ι) (p q : Option ι) : TreeLinks ι :=
  match p with
  | none => t
  | some x => t.setParent x q

/-- The pointer to a child of `q`, or the root pointer. -/
def hang (t : TreeLinks ι) (q : Option ι) (d : Dir) (p : Option ι) : TreeLinks ι :=
  match q with
  | none => { t with root := p }
  | some x => t.setChild x d p

@[simp] theorem setParent_root (x : ι) (q : Option ι) : (t.setParent x q).root = t.root := rfl

@[simp] theorem setParent_child (x : ι) (q : Option ι) : (t.setParent x q).child = t.child := rfl

@[simp] theorem setChild_root (x : ι) (d : Dir) (p : Option ι) :
    (t.setChild x d p).root = t.root := rfl

@[simp] theorem setChild_parent (x : ι) (d : Dir) (p : Option ι) :
    (t.setChild x d p).parent = t.parent := rfl

theorem setParent_parent (x y : ι) (q : Option ι) :
    (t.setParent x q).parent y = if y = x then q else t.parent y :=
  Function.update_apply t.parent x q y

theorem setChild_child_of_ne {x y : ι} (h : y ≠ x) (d : Dir) (p : Option ι) :
    (t.setChild x d p).child y = t.child y :=
  Function.update_of_ne h _ _

@[simp] theorem setChild_child_self (x : ι) (d : Dir) (p : Option ι) :
    (t.setChild x d p).child x d = p := by
  simp [setChild]

theorem setChild_child_other {x : ι} {d d' : Dir} (h : d' ≠ d) (p : Option ι) :
    (t.setChild x d p).child x d' = t.child x d' := by
  simp [setChild, h]

@[simp] theorem adopt_root (p q : Option ι) : (t.adopt p q).root = t.root := by cases p <;> rfl

@[simp] theorem adopt_child (p q : Option ι) : (t.adopt p q).child = t.child := by cases p <;> rfl

theorem adopt_parent_of_ne {x : ι} (h : p ≠ some x) : (t.adopt p q).parent x = t.parent x := by
  cases p with
  | none => rfl
  | some y => exact Function.update_of_ne (fun he => h (by rw [he])) _ _

/-- A subtree gets another parent. -/
theorem Repr.adopt (h : t.Repr p q s) (hs : s.toList.Nodup) (q' : Option ι) :
    (t.adopt p q').Repr p q' s := by
  cases s with
  | nil => exact h
  | node x sub =>
    obtain ⟨rfl, -, hsub⟩ := h
    obtain ⟨-, hx, -⟩ := Shape.nodup_node.1 hs
    refine ⟨rfl, (setParent_parent x x q').trans (if_pos rfl), fun d => ?_⟩
    refine (hsub d).congr (fun y hy => ?_) fun y _ => rfl
    refine adopt_parent_of_ne fun he => hx d ?_
    rwa [Option.some.inj he]

/-- The direction of the pointer that the frames surround. -/
def lastDir : List (Frame ι) → Dir
  | [] => .left
  | f :: _ => f.dir

/-- Another subtree is put in the place. -/
theorem Within.hang (h : t.Within p q C) (hC : (nodes C).Nodup) (p' : Option ι) :
    (t.hang q (lastDir C) p').Within p' q C := by
  cases C with
  | nil =>
    obtain ⟨-, rfl⟩ := h
    exact ⟨rfl, rfl⟩
  | cons f C =>
    obtain ⟨rfl, -, hsib, hup⟩ := h
    obtain ⟨hsibling, hup', -⟩ := nodup_nodes_cons hC
    refine ⟨rfl, setChild_child_self _ _ _, ?_, ?_⟩
    · rw [TreeLinks.hang, lastDir, setChild_child_other (by simp)]
      exact hsib.congr (fun x _ => rfl) fun x hx =>
        setChild_child_of_ne (ne_of_mem_of_not_mem hx hsibling) _ _
    · exact hup.congr rfl (fun x _ => rfl) fun x hx =>
        setChild_child_of_ne (ne_of_mem_of_not_mem hx hup') _ _

theorem hang_parent (d : Dir) (p' : Option ι) : (t.hang q d p').parent = t.parent := by
  cases q <;> rfl

omit [DecidableEq ι] in
/-- The frames surround what the parent of the place is. -/
theorem Within.parent_mem {x : ι} (h : t.Within p (some x) C) : x ∈ nodes C := by
  cases C with
  | nil => exact absurd h.2 (by simp)
  | cons f C =>
    rw [Option.some.inj h.1]
    exact mem_nodes_cons.2 (.inl rfl)

/-- Hanging a pointer changes nothing in a shape apart from the frames. -/
theorem Repr.hang {p' q' p'' : Option ι} {d : Dir} (h : t.Repr p q s) (hC : t.Within p' q' C)
    (hdisj : ∀ x ∈ s.toList, x ∉ nodes C) : (t.hang q' d p'').Repr p q s := by
  refine h.congr (fun x _ => by rw [hang_parent]) fun x hx => ?_
  cases q' with
  | none => rfl
  | some y => exact setChild_child_of_ne (ne_of_mem_of_not_mem hC.parent_mem (hdisj x hx)).symm _ _

theorem Repr.setParent (h : t.Repr p q s) {z : ι} (hz : z ∉ s.toList) (q' : Option ι) :
    (t.setParent z q').Repr p q s :=
  h.congr (fun x hx => (setParent_parent z x q').trans (if_neg (ne_of_mem_of_not_mem hx hz)))
    fun _ _ => rfl

theorem Repr.setChild (h : t.Repr p q s) {z : ι} (hz : z ∉ s.toList) (d : Dir) (p' : Option ι) :
    (t.setChild z d p').Repr p q s :=
  h.congr (fun _ _ => rfl) fun _ hx => setChild_child_of_ne (ne_of_mem_of_not_mem hx hz) d p'

theorem Repr.adopt_other {p' q' : Option ι} {s' : Shape ι} (h : t.Repr p q s)
    (h' : t.Repr p' q' s') (hdisj : ∀ x ∈ s.toList, x ∉ s'.toList) (q'' : Option ι) :
    (t.adopt p' q'').Repr p q s := by
  refine h.congr (fun _ hx => adopt_parent_of_ne ?_) fun _ _ => by rw [adopt_child]
  rintro rfl
  exact hdisj _ hx h'.root_mem

theorem Within.setParent (h : t.Within p q C) {z : ι} (hz : z ∉ nodes C) (q' : Option ι) :
    (t.setParent z q').Within p q C :=
  h.congr rfl (fun x hx => (setParent_parent z x q').trans (if_neg (ne_of_mem_of_not_mem hx hz)))
    fun _ _ => rfl

theorem Within.setChild (h : t.Within p q C) {z : ι} (hz : z ∉ nodes C) (d : Dir) (p' : Option ι) :
    (t.setChild z d p').Within p q C :=
  h.congr rfl (fun _ _ => rfl) fun _ hx => setChild_child_of_ne (ne_of_mem_of_not_mem hx hz) d p'

theorem Within.adopt (h : t.Within p q C) {p' q' : Option ι} (hs : t.Repr p' q' s)
    (hdisj : ∀ x ∈ s.toList, x ∉ nodes C) (q'' : Option ι) : (t.adopt p' q'').Within p q C := by
  refine h.congr (adopt_root _ _) (fun _ hx => ?_) fun _ _ => by rw [adopt_child]
  refine adopt_parent_of_ne ?_
  rintro rfl
  exact hdisj _ hs.root_mem hx

/-- A shape apart from the frames is put into their place. -/
theorem Within.splice {p' q' : Option ι} (hC : t.Within p q C) (hs : t.Repr p' q' s)
    (hnodup : (nodes C).Nodup) (hs' : s.toList.Nodup) (hdisj : ∀ x ∈ s.toList, x ∉ nodes C) :
    ((t.hang q (lastDir C) p').adopt p' q).Within p' q C ∧
      ((t.hang q (lastDir C) p').adopt p' q).Repr p' q s := by
  have hhang : (t.hang q (lastDir C) p').Repr p' q' s := hs.hang hC hdisj
  exact ⟨(hC.hang hnodup p').adopt hhang hdisj q, hhang.adopt hs' q⟩

/-- The child pointer `d` of node `z` is set to that of node `x`, and the child follows. -/
def takeChild (t : TreeLinks ι) (x z : ι) (d : Dir) : TreeLinks ι :=
  let t := t.setChild z d (t.child x d)
  t.adopt (t.child x d) (some z)

theorem takeChild_child_of_ne {x y z : ι} (h : y ≠ z) (d : Dir) :
    (t.takeChild x z d).child y = t.child y := by
  rw [takeChild, adopt_child, setChild_child_of_ne h]

theorem Within.takeChild {x z : ι} {d : Dir} {q' : Option ι} (h : t.Within p q C) (hzx : x ≠ z)
    (hz : z ∉ nodes C) (hs : t.Repr (t.child x d) q' s) (hzs : z ∉ s.toList)
    (hdisj : ∀ y ∈ s.toList, y ∉ nodes C) :
    (t.takeChild x z d).Within p q C := by
  rw [TreeLinks.takeChild, setChild_child_of_ne hzx]
  exact (h.setChild hz d _).adopt (hs.setChild hzs d _) hdisj _

theorem Repr.takeChild {x z : ι} {d : Dir} (hzx : x ≠ z) (hs : t.Repr (t.child x d) q s)
    (hzs : z ∉ s.toList) (hnodup : s.toList.Nodup) :
    (t.takeChild x z d).Repr ((t.takeChild x z d).child z d) (some z) s := by
  rw [TreeLinks.takeChild, adopt_child, setChild_child_self, setChild_child_of_ne hzx]
  exact (hs.setChild hzs d _).adopt hnodup _

theorem Repr.takeChild_other {x z : ι} {d : Dir} {s' : Shape ι} {p' q' : Option ι} (hzx : x ≠ z)
    (h : t.Repr p' q' s') (hz : z ∉ s'.toList) (hs : t.Repr (t.child x d) q s) (hzs : z ∉ s.toList)
    (hdisj : ∀ y ∈ s'.toList, y ∉ s.toList) : (t.takeChild x z d).Repr p' q' s' := by
  rw [TreeLinks.takeChild, setChild_child_of_ne hzx]
  exact (h.setChild hz d _).adopt_other (hs.setChild hzs d _) hdisj _

theorem takeChild_parent_self {x z : ι} {d : Dir} (hzx : x ≠ z) (hs : t.Repr (t.child x d) q s)
    (hzs : z ∉ s.toList) : (t.takeChild x z d).parent z = t.parent z := by
  rw [takeChild, setChild_child_of_ne hzx, adopt_parent_of_ne, setChild_parent]
  intro he
  rw [he] at hs
  exact hzs hs.root_mem

/-- The pointers of node `z` are set to those of node `x`. -/
def takeOver (t : TreeLinks ι) (x z : ι) : TreeLinks ι :=
  ((t.setParent z (t.parent x)).takeChild x z .left).takeChild x z .right

/-- A node outside takes the place of a node. -/
theorem Within.takeOver {x z : ι} {sub : Dir → Shape ι} (hC : t.Within p q C)
    (hx : t.Repr (some x) q (.node x sub)) (hnodup : (Shape.node x sub).toList.Nodup)
    (hdisj : ∀ y ∈ (Shape.node x sub).toList, y ∉ nodes C) (hz : z ∉ (Shape.node x sub).toList)
    (hzC : z ∉ nodes C) : (t.takeOver x z).Within p q C ∧
      (t.takeOver x z).Repr (some z) q (.node z sub) := by
  obtain ⟨-, rfl, hsub⟩ := hx
  obtain ⟨hnodup, -, hsides⟩ := Shape.nodup_node.1 hnodup
  have hzx : x ≠ z := fun he => hz (he ▸ Shape.mem_node.2 (.inl rfl))
  have hzsub : ∀ d, z ∉ (sub d).toList := fun d hm => hz (Shape.mem_node.2 (.inr ⟨d, hm⟩))
  have hsubC : ∀ d, ∀ y ∈ (sub d).toList, y ∉ nodes C := fun d y hy =>
    hdisj y (Shape.mem_node.2 (.inr ⟨d, hy⟩))
  -- the parent pointer of `z`
  have hC₁ := hC.setParent hzC (t.parent x)
  have hsub₁ : ∀ d, (t.setParent z (t.parent x)).Repr ((t.setParent z (t.parent x)).child x d)
      (some x) (sub d) := fun d => (hsub d).setParent (hzsub d) _
  have hpar₁ : (t.setParent z (t.parent x)).parent z = t.parent x :=
    (setParent_parent z z _).trans (if_pos rfl)
  rw [TreeLinks.takeOver]
  generalize t.setParent z (t.parent x) = t₁ at *
  -- the left child
  have hC₂ := hC₁.takeChild hzx hzC (hsub₁ .left) (hzsub .left) (hsubC .left)
  have hleft₂ := Repr.takeChild hzx (hsub₁ .left) (hzsub .left) (hnodup .left)
  have hright₂ := (hsub₁ .right).takeChild_other hzx (hzsub .right) (hsub₁ .left) (hzsub .left)
    (hsides .right)
  rw [← takeChild_child_of_ne hzx .left] at hright₂
  have hpar₂ := (takeChild_parent_self hzx (hsub₁ .left) (hzsub .left)).trans hpar₁
  generalize t₁.takeChild x z .left = t₂ at *
  -- the right child
  refine ⟨hC₂.takeChild hzx hzC hright₂ (hzsub .right) (hsubC .right), rfl,
    (takeChild_parent_self hzx hright₂ (hzsub .right)).trans hpar₂, fun d => ?_⟩
  cases d with
  | left =>
    have hchild : (t₂.takeChild x z .right).child z .left = t₂.child z .left := by
      rw [TreeLinks.takeChild, adopt_child, setChild_child_other (by simp)]
    rw [hchild]
    exact hleft₂.takeChild_other hzx (hzsub .left) hright₂ (hzsub .right) (hsides .left)
  | right => exact Repr.takeChild hzx hright₂ (hzsub .right) (hnodup .right)

theorem takeChild_parent_other {x z : ι} {d : Dir} (hzx : x ≠ z) (hs : t.Repr (t.child x d) q s)
    (hx : x ∉ s.toList) : (t.takeChild x z d).parent x = t.parent x := by
  rw [takeChild, setChild_child_of_ne hzx, adopt_parent_of_ne, setChild_parent]
  intro he
  rw [he] at hs
  exact hx hs.root_mem

theorem takeOver_parent {x z : ι} {sub : Dir → Shape ι} (hx : t.Repr p q (.node x sub))
    (hnodup : (Shape.node x sub).toList.Nodup) (hz : z ∉ (Shape.node x sub).toList) :
    (t.takeOver x z).parent x = t.parent x := by
  obtain ⟨-, -, hsub⟩ := hx
  obtain ⟨-, hxsub, hsides⟩ := Shape.nodup_node.1 hnodup
  have hzx : x ≠ z := fun he => hz (he ▸ Shape.mem_node.2 (.inl rfl))
  have hzsub : ∀ d, z ∉ (sub d).toList := fun d hm => hz (Shape.mem_node.2 (.inr ⟨d, hm⟩))
  have hsub₁ : ∀ d, (t.setParent z (t.parent x)).Repr ((t.setParent z (t.parent x)).child x d)
      (some x) (sub d) := fun d => (hsub d).setParent (hzsub d) _
  have hright₂ := (hsub₁ .right).takeChild_other hzx (hzsub .right) (hsub₁ .left) (hzsub .left)
    (hsides .right)
  rw [← takeChild_child_of_ne hzx .left] at hright₂
  rw [takeOver, takeChild_parent_other hzx hright₂ (hxsub .right),
    takeChild_parent_other hzx (hsub₁ .left) (hxsub .left), setParent_parent, if_neg hzx]

/-! ## Ways down -/

omit [DecidableEq ι]

/-- The frames above a node of a shape. -/
theorem exists_fillAll {x : ι} (h : x ∈ s.toList) : ∃ C sub, s = fillAll C (.node x sub) := by
  induction s with
  | nil => simp at h
  | node y sub ih =>
    rcases Shape.mem_node.1 h with rfl | ⟨d, hd⟩
    · exact ⟨[], sub, rfl⟩
    · obtain ⟨C, sub', hC⟩ := ih d hd
      refine ⟨C ++ [⟨y, d, sub d.other⟩], sub', ?_⟩
      rw [Frame.fillAll_append, ← hC]
      exact (Frame.fill_sub y d sub).symm

end TreeLinks

/-! ## The order in a direction -/

variable {ι : Type*} {s : Shape ι} {C : List (Frame ι)}

/-- A list as it is passed going in a direction. -/
def Dir.order {α : Type*} : Dir → List α → List α
  | left, l => l.reverse
  | right, l => l

namespace Dir

variable {α : Type*} {l l' : List α}

theorem order_perm (d : Dir) (l : List α) : (d.order l).Perm l := by
  cases d with
  | left => exact l.reverse_perm
  | right => exact .refl l

theorem order_other (d : Dir) (l : List α) : d.other.order l = (d.order l).reverse := by
  cases d with
  | left => exact l.reverse_reverse.symm
  | right => rfl

end Dir

theorem Shape.order_node (d : Dir) (x : ι) (sub : Dir → Shape ι) :
    d.order (node x sub).toList = d.order (sub d.other).toList ++ x :: d.order (sub d).toList := by
  cases d <;> simp [Dir.order, Dir.other]

namespace Frame

/-- What is passed behind the place, going in a direction. -/
def beyond : Dir → List (Frame ι) → List ι
  | .left, C => (befores C).reverse
  | .right, C => afters C

theorem order_fillAll (d : Dir) (C : List (Frame ι)) (s : Shape ι) :
    d.order (fillAll C s).toList = (beyond d.other C).reverse ++ d.order s.toList ++
    beyond d C := by
  cases d <;> simp [Dir.order, Dir.other, beyond, toList_fillAll]

theorem beyond_cons_self (f : Frame ι) (C : List (Frame ι)) :
    beyond f.dir (f :: C) = beyond f.dir C := by
  obtain ⟨x, d, sib⟩ := f
  cases d <;> simp [beyond, befores, afters, before, after]

theorem beyond_cons_other {d : Dir} {f : Frame ι} (h : f.dir = d.other) (C : List (Frame ι)) :
    beyond d (f :: C) = f.node :: (d.order f.sibling.toList ++ beyond d C) := by
  obtain ⟨x, d', sib⟩ := f
  obtain rfl : d' = d.other := h
  cases d <;> simp [Dir.other, Dir.order, beyond, befores, afters, before, after]

/-- On the way down in one direction nothing is behind. -/
theorem beyond_of_dir {d : Dir} (h : ∀ f ∈ C, f.dir = d) : beyond d C = [] := by
  induction C with
  | nil => cases d <;> rfl
  | cons f C ih =>
    obtain rfl := h f List.mem_cons_self
    rw [beyond_cons_self]
    exact ih fun g hg => h g (List.mem_cons_of_mem f hg)

end Frame

end TinyLittleOs.Lib
