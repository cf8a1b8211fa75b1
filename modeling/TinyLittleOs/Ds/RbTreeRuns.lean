import TinyLittleOs.Ds.RbTree

/-!
# Runs of the search tree

Any calls of `insert`, `remove` and `find` on a tree. The items are those inserted with
result true and not removed since, and the tree is a search tree of these nodes.
-/

namespace TinyLittleOs.Ds.RbTree

open Lib TreeLinks Relation

variable {ι : Type} [DecidableEq ι] {K : Type*} [LinearOrder K] {keyOf : ι → K}

/-! ## Fuel -/

section Fuel

variable {t : TreeLinks ι} {fuel fuel' : Nat} (hle : fuel ≤ fuel')
include hle

omit [DecidableEq ι] in
theorem find_mono {key : K} {p r : Option ι} (h : find t keyOf key fuel p = some r) :
    find t keyOf key fuel' p = some r := by
  induction fuel generalizing p fuel' with
  | zero => simp [find] at h
  | succ fuel ih =>
    obtain ⟨fuel', rfl⟩ : ∃ f, fuel' = f + 1 := ⟨fuel' - 1, by omega⟩
    cases p with
    | none => exact h
    | some x =>
      rw [find] at h ⊢
      split_ifs at h ⊢
      exacts [ih (by omega) h, ih (by omega) h, h]

omit [DecidableEq ι] in
theorem locate_mono {key : K} {p q : Option ι} {d : Dir} {r : Option (Option ι × Dir)}
    (h : locate t keyOf key fuel p q d = some r) : locate t keyOf key fuel' p q d = some r := by
  induction fuel generalizing p q d fuel' with
  | zero => simp [locate] at h
  | succ fuel ih =>
    obtain ⟨fuel', rfl⟩ : ∃ f, fuel' = f + 1 := ⟨fuel' - 1, by omega⟩
    cases p with
    | none => exact h
    | some x =>
      rw [locate] at h ⊢
      split_ifs at h ⊢
      exacts [ih (by omega) h, ih (by omega) h, h]

theorem insert_mono {key : K} {x : ι} {r : Bool × TreeLinks ι}
    (h : insert t keyOf fuel key x = some r) : insert t keyOf fuel' key x = some r := by
  rw [insert, Option.map_eq_some_iff] at h ⊢
  obtain ⟨r', hr', rfl⟩ := h
  exact ⟨r', locate_mono hle hr', rfl⟩

omit [DecidableEq ι] in
theorem descend_mono {d : Dir} {x y : ι} (h : descend t d fuel x = some y) :
    descend t d fuel' x = some y := by
  induction fuel generalizing x fuel' with
  | zero => simp [descend] at h
  | succ fuel ih =>
    obtain ⟨fuel', rfl⟩ : ∃ f, fuel' = f + 1 := ⟨fuel' - 1, by omega⟩
    rw [descend] at h ⊢
    cases hchild : t.child x d with
    | none =>
      rw [hchild] at h
      exact h
    | some z =>
      rw [hchild] at h
      exact ih (by omega) h

theorem removeMe_mono {x : ι} {t' : TreeLinks ι} (h : removeMe t fuel x = some t') :
    removeMe t fuel' x = some t' := by
  rw [removeMe] at h ⊢
  split_ifs at h ⊢ with h₁ h₂
  · exact h
  · exact h
  all_goals
    simp only [Option.bind_eq_bind, Option.bind_eq_some_iff] at h ⊢
    obtain ⟨child, hchild, z, hz, hrest⟩ := h
    exact ⟨child, hchild, z, descend_mono hle hz, hrest⟩

end Fuel

/-! ## The invariant -/

/-- The tree, and the items that are in it by the results of the calls. -/
structure Client (ι : Type) where
  tree : TreeLinks ι
  items : List ι

/-- `insert` of an item under its key, and `remove` of an item of the tree. -/
inductive Step (keyOf : ι → K) : Client ι → Client ι → Prop
  | insert {c : Client ι} {fuel : Nat} {x : ι} {b : Bool} {t : TreeLinks ι} :
      insert c.tree keyOf fuel (keyOf x) x = some (b, t) →
      Step keyOf c ⟨t, if b then x :: c.items else c.items⟩
  | remove {c : Client ι} {fuel : Nat} {x : ι} {t : TreeLinks ι} : x ∈ c.items →
      removeMe c.tree fuel x = some t → Step keyOf c ⟨t, c.items.erase x⟩

/-- The tree is a search tree whose nodes are the items. -/
structure Inv (keyOf : ι → K) (c : Client ι) (s : Shape ι) : Prop where
  repr : c.tree.Repr c.tree.root none s
  sorted : Sorted keyOf s
  items : s.toList.Perm c.items

variable {c c' : Client ι} {s : Shape ι}

/-- `insert` adds an item whose key is not there. -/
theorem Inv.insert (h : Inv keyOf c s) {x : ι} {fuel : Nat} (hf : s.toList.length < fuel) :
    (RbTree.insert c.tree keyOf fuel (keyOf x) x = some (false, c.tree) ∧
      ∃ y ∈ c.items, keyOf y = keyOf x) ∨
    ∃ t s', RbTree.insert c.tree keyOf fuel (keyOf x) x = some (true, t) ∧
      Inv keyOf ⟨t, x :: c.items⟩ s' ∧ ∀ y ∈ c.items, keyOf y ≠ keyOf x := by
  have hC : c.tree.Within c.tree.root none [] := ⟨rfl, rfl⟩
  rcases locate_spec (keyOf x) hC h.repr h.sorted (by simp [Frame.befores])
    (by simp [Frame.afters]) hf with ⟨hloc, y, hy, hk⟩ | ⟨C, q, hloc, hW, hfill, hl, hr, hne⟩
  · refine .inl ⟨?_, y, h.items.mem_iff.1 hy, hk⟩
    rw [lastDir] at hloc
    rw [RbTree.insert, hloc]
    rfl
  · have hfill : fillAll C .nil = s := hfill
    rw [lastDir] at hloc
    have hlist : s.toList = Frame.befores C ++ Frame.afters C := by
      rw [← hfill, Frame.toList_fillAll]
      simp
    have hnodup : (nodes C).Nodup := by
      rw [nodes, ← hlist]
      exact h.sorted.nodup
    have hx : x ∉ nodes C := fun hm => hne x (by rwa [hlist, ← nodes]) rfl
    refine .inr ⟨_, _, ?_, ⟨insertNode_spec hW hnodup hx, ?_, ?_⟩, fun y hy =>
      hne y (h.items.mem_iff.2 hy)⟩
    · rw [RbTree.insert, hloc]
      rfl
    · have hsorted := h.sorted
      rw [Sorted, hlist, List.pairwise_append] at hsorted
      obtain ⟨hb, ha, hba⟩ := hsorted
      rw [Sorted, Frame.toList_fillAll]
      simp only [Shape.toList_node, Shape.toList_nil, List.nil_append, List.append_assoc,
        List.pairwise_append, List.singleton_append, List.pairwise_cons, List.mem_cons]
      refine ⟨hb, ⟨hr, ha⟩, fun y hy z hz => ?_⟩
      rcases hz with rfl | hz
      exacts [hl y hy, hba y hy z hz]
    · rw [Frame.toList_fillAll, List.append_assoc]
      refine List.perm_middle.trans (List.Perm.cons x ?_)
      have hitems := h.items
      rwa [hlist] at hitems

/-- `remove` takes an item out. -/
theorem Inv.remove (h : Inv keyOf c s) {x : ι} (hx : x ∈ c.items) {fuel : Nat}
    (hf : s.toList.length ≤ fuel) :
    ∃ t s', removeMe c.tree fuel x = some t ∧ Inv keyOf ⟨t, c.items.erase x⟩ s' := by
  obtain ⟨C, sub, rfl⟩ := exists_fillAll (h.items.mem_iff.2 hx)
  have hlen : (Shape.node x sub).toList.length ≤ fuel := by
    rw [Frame.toList_fillAll, List.length_append, List.length_append] at hf
    omega
  obtain ⟨t, s', ht, hrepr, hs'⟩ := removeMe_spec h.repr h.sorted.nodup hlen
  refine ⟨t, s', ht, hrepr, ?_, ?_⟩
  · rw [Sorted, hs']
    exact h.sorted.sublist List.erase_sublist
  · rw [hs']
    exact h.items.erase x

theorem Inv.step (h : Inv keyOf c s) (hs : Step keyOf c c') : ∃ s', Inv keyOf c' s' := by
  cases hs with
  | @insert fuel x b t ht =>
    have hmono := insert_mono (Nat.le_max_left fuel (s.toList.length + 1)) ht
    have hf : s.toList.length < max fuel (s.toList.length + 1) := by omega
    rcases h.insert (x := x) hf with
      ⟨hins, -⟩ | ⟨t', s', hins, hinv, -⟩
    · rw [hmono] at hins
      obtain ⟨rfl, rfl⟩ := Prod.mk.inj (Option.some.inj hins)
      exact ⟨s, h⟩
    · rw [hmono] at hins
      obtain ⟨rfl, rfl⟩ := Prod.mk.inj (Option.some.inj hins)
      exact ⟨s', hinv⟩
  | @remove fuel x t hx ht =>
    have hmono := removeMe_mono (Nat.le_max_left fuel s.toList.length) ht
    obtain ⟨t', s', hrem, hinv⟩ := h.remove hx (Nat.le_max_right fuel s.toList.length)
    rw [hmono] at hrem
    obtain rfl := Option.some.inj hrem
    exact ⟨s', hinv⟩

theorem Inv.run {t₀ : TreeLinks ι} (hroot : t₀.root = none)
    (hr : ReflTransGen (Step keyOf) ⟨t₀, []⟩ c) : ∃ s, Inv keyOf c s := by
  induction hr with
  | refl => exact ⟨.nil, hroot, .nil, .refl _⟩
  | tail _ hs ih =>
    obtain ⟨s, h⟩ := ih
    exact h.step hs

/-- What the callers rely on. -/
structure Client.Sound (keyOf : ι → K) (c : Client ι) : Prop where
  /-- The pointers agree and form a search tree of the items. -/
  tree : ∃ s, c.tree.Repr c.tree.root none s ∧ Sorted keyOf s ∧ ∀ x, x ∈ s.toList ↔ x ∈ c.items
  nodup : c.items.Nodup
  find : ∀ key, ∃ fuel₀ r, (∀ fuel ≥ fuel₀, find c.tree keyOf key fuel c.tree.root = some r) ∧
    ∀ x, r = some x ↔ x ∈ c.items ∧ keyOf x = key
  /-- `insert` fails exactly when the key is there, and then changes nothing. -/
  insert : ∀ x, ∃ fuel₀ b t, (∀ fuel ≥ fuel₀, insert c.tree keyOf fuel (keyOf x) x = some (b, t)) ∧
    (b = false ↔ ∃ y ∈ c.items, keyOf y = keyOf x) ∧ (b = false → t = c.tree)
  remove : ∀ x ∈ c.items, ∃ fuel₀ t, ∀ fuel ≥ fuel₀, removeMe c.tree fuel x = some t

theorem Inv.sound (h : Inv keyOf c s) : c.Sound keyOf where
  tree := ⟨s, h.repr, h.sorted, fun x => h.items.mem_iff⟩
  nodup := h.items.nodup_iff.1 h.sorted.nodup
  find key := by
    obtain ⟨r, hr, hspec⟩ := find_spec key h.repr h.sorted (Nat.lt_succ_self _)
    refine ⟨_, r, fun fuel hf => find_mono hf hr, fun x => ?_⟩
    rw [hspec, h.items.mem_iff]
  insert x := by
    rcases h.insert (x := x) (Nat.lt_succ_self _) with ⟨hins, hy⟩ | ⟨t, s', hins, -, hne⟩
    · exact ⟨_, _, _, fun fuel hf => insert_mono hf hins, iff_of_true rfl hy, fun _ => rfl⟩
    · refine ⟨_, _, _, fun fuel hf => insert_mono hf hins, iff_of_false (by simp) ?_, by simp⟩
      rintro ⟨y, hy, hk⟩
      exact hne y hy hk
  remove x hx := by
    obtain ⟨t, s', hrem, -⟩ := h.remove hx (Nat.le_refl _)
    exact ⟨_, t, fun fuel hf => removeMe_mono hf hrem⟩

/-- Whatever the calls were, the tree is a search tree of the items. -/
theorem rbtree_sound {t₀ : TreeLinks ι} (hroot : t₀.root = none)
    (hr : ReflTransGen (Step keyOf) ⟨t₀, []⟩ c) : c.Sound keyOf := by
  obtain ⟨s, h⟩ := Inv.run hroot hr
  exact h.sound

/-- A tree without nodes. -/
def noNodes : TreeLinks Nat := ⟨none, fun _ => none, fun _ _ => none⟩

theorem rbtree_sound_noNodes : ∃ t : TreeLinks Nat,
    t.root = some 1 ∧ Client.Sound (fun x : Nat => x) ⟨t, [1]⟩ := by
  have hcalls : ∃ t, insert noNodes (fun x : Nat => x) 1 2 2 = some (true, t) ∧
      ∃ t', insert t (fun x : Nat => x) 2 1 1 = some (true, t') ∧
        ∃ t'', removeMe t' 1 2 = some t'' ∧ t''.root = some 1 :=
    ⟨_, rfl, _, rfl, _, rfl, rfl⟩
  obtain ⟨t, ht, t', ht', t'', ht'', hroot⟩ := hcalls
  have hnull : noNodes.root = none := rfl
  refine ⟨t'', hroot, rbtree_sound hnull ?_⟩
  exact .tail (.tail (.single (.insert ht)) (.insert ht')) (.remove (x := 2) (by simp) ht'')

end TinyLittleOs.Ds.RbTree
