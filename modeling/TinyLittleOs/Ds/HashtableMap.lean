import TinyLittleOs.Ds.Hashtable

/-!
# The hash table as a finite map

A table represents the map `bound` through the chains `C` of its buckets: the links of bucket
`h` are the slot and the chain `C h`. The slot is empty only when it is alone. Every link that
the allocator handed out is in one chain and holds one binding.
-/

namespace TinyLittleOs.Ds.Hashtable

open Lib Relation

variable {N : Nat} {α : Type*}

/-! ## The search -/

theorem find_mono {t : Hashtable N α} {key : BitVec 32} {head : HtLink N} {fuel fuel' : Nat}
    (hle : fuel ≤ fuel') {x : HtLink N} {r : Option (HtLink N)}
    (h : t.find key head fuel x = some r) : t.find key head fuel' x = some r := by
  induction fuel generalizing x fuel' with
  | zero => simp [find] at h
  | succ fuel ih =>
    obtain ⟨fuel', rfl⟩ : ∃ f, fuel' = f + 1 := ⟨fuel' - 1, by omega⟩
    rw [find] at h ⊢
    split_ifs at h ⊢
    · exact h
    · exact h
    · exact ih (by omega) h

/-- With a round for each link the loop finds the first link with the key. -/
theorem find_path {t : Hashtable N α} {key : BitVec 32} {x head : HtLink N} {l : List (HtLink N)}
    (hp : t.ring.Path x l head) (hhead : head ∉ l) {fuel : Nat} (hf : l.length < fuel) :
    t.find key head fuel x = some ((x :: l).find? fun y => t.key y = key) := by
  induction l generalizing x fuel with
  | nil =>
    obtain ⟨fuel, rfl⟩ : ∃ f, fuel = f + 1 := ⟨fuel - 1, by omega⟩
    rw [find, hp.1]
    by_cases hx : t.key x = key <;> simp [hx]
  | cons y l ih =>
    obtain ⟨fuel, rfl⟩ : ∃ f, fuel = f + 1 := ⟨fuel - 1, by omega⟩
    obtain ⟨hxy, -, htail⟩ := hp
    have hy : y ≠ head := fun he => hhead (by simp [he])
    rw [find, hxy, if_neg hy]
    by_cases hx : t.key x = key
    · simp [hx]
    · rw [if_neg hx, List.find?_cons_of_neg (by simpa using hx)]
      exact ih htail (fun hm => hhead (List.mem_cons_of_mem y hm))
        (by rw [List.length_cons] at hf; omega)

/-! ## The invariant -/

/-- The links of bucket `b`, whose chain is `c`. -/
def links (b : Fin N) (c : List Nat) : List (HtLink N) := .slot b :: c.map .chain

theorem mem_links_chain {b : Fin N} {c : List Nat} {a : Nat} :
    HtLink.chain a ∈ links b c ↔ a ∈ c := by
  simp [links]

theorem mem_links_slot {b b' : Fin N} {c : List Nat} : HtLink.slot b' ∈ links b c ↔ b' = b := by
  simp [links]

variable [NeZero N]

/-- Bucket `b` holds the bindings of the keys that hash to `b`; the slot is empty only when it is
alone. -/
structure Bucket (t : Hashtable N α) (b : Fin N) (c : List Nat) (bound : BitVec 32 → Option α) :
    Prop where
  cycle : t.ring.Cycle (.slot b) (c.map .chain)
  empty : t.obj (.slot b) = none → c = []
  object : ∀ a ∈ c, t.obj (.chain a) ≠ none
  keys : ((links b c).map t.key).Nodup
  hash : ∀ l ∈ links b c, t.obj l ≠ none → hash N (t.key l) = b
  bound : ∀ k, Hashtable.hash N k = b → ∀ v,
    bound k = some v ↔ ∃ l ∈ links b c, t.key l = k ∧ t.obj l = some v

/-- Every bucket is in order, and the links that are handed out are those of the chains. -/
structure Maps (t : Hashtable N α) (C : Fin N → List Nat) (bound : BitVec 32 → Option α) :
    Prop where
  bucket : ∀ b, t.Bucket b (C b) bound
  disjoint : ∀ b b' a, a ∈ C b → a ∈ C b' → b = b'
  nodup : t.allocated.Nodup
  mem : ∀ a, a ∈ t.allocated ↔ ∃ b, a ∈ C b

variable {t t' : Hashtable N α} {C : Fin N → List Nat} {bound bound' : BitVec 32 → Option α}

theorem maps_construct (t : Hashtable N α) : t.construct.Maps (fun _ => []) (fun _ => none) where
  bucket b :=
    { cycle := Rings.cycle_nil.2 ⟨rfl, rfl⟩
      empty := fun _ => rfl
      object := by simp
      keys := by simp [links]
      hash := fun l hl ho => by
        obtain rfl : l = .slot b := by simpa [links] using hl
        exact absurd rfl ho
      bound := by simp [links, construct] }
  disjoint := by simp
  nodup := List.nodup_nil
  mem := by simp [construct]

section Bucket

variable {b : Fin N} {c : List Nat} (h : t.Bucket b c bound)
include h

/-- A bucket depends on its own links only. -/
theorem Bucket.congr (hcycle : t'.ring.Cycle (.slot b) (c.map .chain))
    (hkey : ∀ l ∈ links b c, t'.key l = t.key l) (hobj : ∀ l ∈ links b c, t'.obj l = t.obj l)
    (hbound : ∀ k, Hashtable.hash N k = b → bound' k = bound k) : t'.Bucket b c bound' := by
  refine ⟨hcycle, fun ho => ?_, fun a ha => ?_, ?_, fun l hl ho => ?_, fun k hk v => ?_⟩
  · exact h.empty ((hobj _ (by simp [links])).symm.trans ho)
  · rw [hobj _ (mem_links_chain.2 ha)]
    exact h.object a ha
  · rw [List.map_congr_left hkey]
    exact h.keys
  · rw [hkey l hl]
    exact h.hash l hl (hobj l hl ▸ ho)
  · rw [hbound k hk, h.bound k hk]
    refine exists_congr fun l => and_congr_right fun hl => ?_
    rw [hkey l hl, hobj l hl]

theorem Bucket.lookupInternal {fuel : Nat} {k : BitVec 32} (hf : c.length < fuel) :
    t.lookupInternal fuel k b = some ((links b c).find? fun l => t.key l = k) :=
  find_path h.cycle.path (List.nodup_cons.1 h.cycle.nodup).1 (by simpa using hf)

/-- Two links of a bucket with the same key are one. -/
theorem Bucket.eq_of_key {l l' : HtLink N} (hl : l ∈ links b c) (hl' : l' ∈ links b c)
    (hk : t.key l = t.key l') : l = l' :=
  List.inj_on_of_nodup_map h.keys hl hl' hk

/-- A key that is not bound is at most the stale key of an empty slot. -/
theorem Bucket.unbound {k : BitVec 32} (hk : Hashtable.hash N k = b) (hb : bound k = none)
    {l : HtLink N} (hl : l ∈ links b c) (hlk : t.key l = k) : t.obj l = none := by
  by_contra hne
  obtain ⟨v, hv⟩ := Option.ne_none_iff_exists'.1 hne
  have hsome := (h.bound k hk v).2 ⟨l, hl, hlk, hv⟩
  simp [hb] at hsome

/-- The object of the first link with the key is the binding. -/
theorem Bucket.find_obj {k : BitVec 32} (hk : Hashtable.hash N k = b) :
    (match (links b c).find? fun l => t.key l = k with
      | none => none
      | some l => t.obj l) = bound k := by
  cases hfind : (links b c).find? fun l => t.key l = k with
  | none =>
    rw [List.find?_eq_none] at hfind
    symm
    rw [Option.eq_none_iff_forall_ne_some]
    intro v hv
    obtain ⟨l, hl, hlk, -⟩ := (h.bound k hk v).1 hv
    exact hfind l hl (by simpa using hlk)
  | some l =>
    have hl := List.mem_of_find?_eq_some hfind
    have hlk : t.key l = k := by simpa using List.find?_some hfind
    dsimp only
    cases ho : t.obj l with
    | some v => exact ((h.bound k hk v).2 ⟨l, hl, hlk, ho⟩).symm
    | none =>
      symm
      rw [Option.eq_none_iff_forall_ne_some]
      intro v hv
      obtain ⟨l', hl', hlk', ho'⟩ := (h.bound k hk v).1 hv
      obtain rfl := h.eq_of_key hl hl' (hlk.trans hlk'.symm)
      simp [ho] at ho'

/-- The links of a bucket after its key `k` is gone: `c'` holds the other bindings. -/
theorem Bucket.edit {c' : List Nat} {k : BitVec 32} {o : Option α} (hk : Hashtable.hash N k = b)
    (hcycle : t'.ring.Cycle (.slot b) (c'.map .chain))
    (hempty : t'.obj (.slot b) = none → c' = [])
    (hobject : ∀ a ∈ c', t'.obj (.chain a) ≠ none)
    (hkeys : ((links b c').map t'.key).Nodup)
    (hother : ∀ k' ≠ k, ∀ v, (∃ l ∈ links b c', t'.key l = k' ∧ t'.obj l = some v) ↔
      ∃ l ∈ links b c, t.key l = k' ∧ t.obj l = some v)
    (hself : ∀ v, (∃ l ∈ links b c', t'.key l = k ∧ t'.obj l = some v) ↔ o = some v) :
    t'.Bucket b c' (Function.update bound k o) := by
  refine ⟨hcycle, hempty, hobject, hkeys, fun l hl ho => ?_, fun k' hk' v => ?_⟩
  · obtain ⟨v, hv⟩ := Option.ne_none_iff_exists'.1 ho
    by_cases hlk : t'.key l = k
    · rw [hlk, hk]
    · obtain ⟨l', hl', hlk', ho'⟩ := (hother _ hlk v).1 ⟨l, hl, rfl, hv⟩
      rw [← hlk']
      exact h.hash l' hl' (by simp [ho'])
  · by_cases he : k' = k
    · subst he
      rw [Function.update_self]
      exact (hself v).symm
    · rw [Function.update_of_ne he, hother k' he v]
      exact h.bound k' hk' v

/-! ## The operations on one bucket -/

/-- A binding enters an empty slot. -/
theorem Bucket.insert_slot {k : BitVec 32} (hk : Hashtable.hash N k = b)
    (ho : t.obj (.slot b) = none) (v : α) :
    (t.setLink (.slot b) k (some v)).Bucket b c (Function.update bound k (some v)) := by
  obtain rfl := h.empty ho
  refine h.edit hk h.cycle (fun _ => rfl) (by simp) (by simp [links])
    (fun k' hk' w => ?_) fun w => ?_
  · simp [links, setLink_key, ho, Ne.symm hk']
  · simp [links, setLink_key, setLink_obj]

/-- A binding enters the chain, in a fresh link. -/
theorem Bucket.insert_chain {k : BitVec 32} (hk : Hashtable.hash N k = b)
    (ho : t.obj (.slot b) ≠ none) (hb : bound k = none) (v : α) {a : Nat} (ha : a ∉ c)
    {r : Rings (HtLink N)}
    (hr : r.Cycle (.slot b) ((a :: c).map .chain)) {l : List Nat} :
    ({ t.setLink (.chain a) k (some v) with ring := r, allocated := l } : Hashtable N α).Bucket b
      (a :: c) (Function.update bound k (some v)) := by
  have hne : ∀ l ∈ links b c, l ≠ .chain a := by
    rintro l hl rfl
    exact ha (mem_links_chain.1 hl)
  have hslot : HtLink.slot b ∈ links b c := by simp [links]
  have hsome : ∀ l ∈ links b c, t.obj l ≠ none := by
    intro l hl
    rcases List.mem_cons.1 hl with rfl | hl
    · exact ho
    · obtain ⟨x, hx, rfl⟩ := List.mem_map.1 hl
      exact h.object x hx
  have hnew : ∀ l ∈ links b c, t.key l ≠ k := fun l hl hlk => hsome l hl (h.unbound hk hb hl hlk)
  have hperm : (links b (a :: c)).Perm (.chain a :: links b c) := List.Perm.swap _ _ _
  refine h.edit hk hr (fun hn => ?_) (fun x hx => ?_) ?_ (fun k' hk' w => ?_) fun w => ?_
  · rw [setLink_obj, if_neg (hne _ hslot)] at hn
    exact absurd hn ho
  · rw [setLink_obj]
    split_ifs with hxa
    · simp
    · exact hsome _
        (mem_links_chain.2 (by simpa using (List.mem_cons.1 hx).resolve_left (by simpa using hxa)))
  · rw [(hperm.map _).nodup_iff, List.map_cons, List.nodup_cons, setLink_key, if_pos rfl]
    rw [List.map_congr_left fun l hl => by rw [setLink_key, if_neg (hne l hl)]]
    refine ⟨fun hm => ?_, h.keys⟩
    obtain ⟨l, hl, hlk⟩ := List.mem_map.1 hm
    exact hnew l hl hlk
  · simp only [hperm.mem_iff, List.mem_cons, exists_eq_or_imp, setLink_key, setLink_obj, if_pos]
    simp only [Ne.symm hk', false_and, false_or]
    refine exists_congr fun l => and_congr_right fun hl => ?_
    rw [if_neg (hne l hl), if_neg (hne l hl)]
  · simp only [hperm.mem_iff, List.mem_cons, exists_eq_or_imp, setLink_key, setLink_obj,
      if_pos, true_and]
    refine or_iff_left ?_
    rintro ⟨l, hl, hlk, -⟩
    rw [if_neg (hne l hl)] at hlk
    exact hnew l hl hlk

/-- The object of the slot is dropped. -/
theorem Bucket.remove_slot {k : BitVec 32} (hk : Hashtable.hash N k = b)
    (hkey : t.key (.slot b) = k) (hc : c = []) :
    ({ t with obj := Function.update t.obj (.slot b) none } : Hashtable N α).Bucket b c
      (Function.update bound k none) := by
  subst hc
  refine h.edit hk h.cycle (fun _ => rfl) (by simp) (by simp [links])
    (fun k' hk' w => ?_) fun w => ?_
  · have hne : k ≠ k' := Ne.symm hk'
    simp [links, hkey, hne]
  · simp [links]

/-- The first binding of the chain moves into the slot. -/
theorem Bucket.remove_head {k : BitVec 32} (hk : Hashtable.hash N k = b) {a : Nat} {c' : List Nat}
    (hkey : t.key (.slot b) = k) (hc : c = a :: c') {r : Rings (HtLink N)}
    (hr : r.Cycle (.slot b) (c'.map .chain)) {l : List Nat} :
    ({ t.setLink (.slot b) (t.key (.chain a)) (t.obj (.chain a)) with
        ring := r, allocated := l } : Hashtable N α).Bucket b c'
        (Function.update bound k none) := by
  subst hc
  have hkeys := h.keys
  simp only [links, List.map_cons, List.nodup_cons, List.mem_cons, not_or, hkey] at hkeys
  obtain ⟨⟨hka, hkc⟩, hac, hnodup⟩ := hkeys
  have hmap :
      (c'.map HtLink.chain).map (t.setLink (.slot b) (t.key (.chain a)) (t.obj (.chain a))).key
      = (c'.map HtLink.chain).map t.key := by
    refine List.map_congr_left fun l hl => ?_
    obtain ⟨x, -, rfl⟩ := List.mem_map.1 hl
    rw [setLink_key, if_neg (by simp)]
  refine h.edit hk hr (fun hn => ?_) (fun x hx => ?_) ?_ (fun k' hk' w => ?_) fun w => ?_
  · rw [setLink_obj, if_pos rfl] at hn
    exact absurd hn (h.object a (by simp))
  · rw [setLink_obj, if_neg (by simp)]
    exact h.object x (List.mem_cons_of_mem a hx)
  · rw [links, List.map_cons, hmap, setLink_key, if_pos rfl, List.nodup_cons]
    exact ⟨hac, hnodup⟩
  · have hne : k ≠ k' := Ne.symm hk'
    simp [links, setLink_key, setLink_obj, hkey, hne]
  · have hnone : ∀ x ∈ c', t.key (.chain x) ≠ k := fun x hx hxk =>
      hkc (List.mem_map.2 ⟨.chain x, by simpa using hx, hxk⟩)
    simp only [links, List.mem_cons, exists_eq_or_imp, setLink_key, setLink_obj,
      if_pos, List.mem_map,
      exists_exists_and_eq_and, reduceCtorEq, if_false, iff_false, not_or, not_exists, not_and]
    exact ⟨fun he => absurd he.symm hka, fun x hx hxk => absurd hxk (hnone x hx)⟩

/-- A binding leaves the chain with its link. -/
theorem Bucket.remove_chain {k : BitVec 32} (hk : Hashtable.hash N k = b) {a : Nat} {u v : List Nat}
    (hkey : t.key (.chain a) = k) (hc : c = u ++ a :: v) {r : Rings (HtLink N)}
    (hr : r.Cycle (.slot b) ((u ++ v).map .chain)) {l : List Nat} :
    ({ t with ring := r, allocated := l } : Hashtable N α).Bucket b (u ++ v)
      (Function.update bound k none) := by
  subst hc
  have hperm : (links b (u ++ a :: v)).Perm (.chain a :: links b (u ++ v)) := by
    rw [links, links]
    exact ((List.perm_middle.map _).cons _).trans (List.Perm.swap _ _ _)
  have hkeys := h.keys
  rw [(hperm.map _).nodup_iff, List.map_cons, List.nodup_cons, hkey] at hkeys
  refine h.edit hk hr (fun hn => ?_) (fun x hx => ?_) hkeys.2 (fun k' hk' w => ?_) fun w => ?_
  · exact absurd (h.empty hn) (by simp)
  · exact h.object x (by grind)
  · have hne : k ≠ k' := Ne.symm hk'
    simp only [hperm.mem_iff, List.mem_cons, exists_eq_or_imp, hkey, hne, false_and, false_or]
  · simp only [reduceCtorEq, iff_false, not_exists, not_and]
    exact fun l hl hlk => absurd (List.mem_map.2 ⟨l, hl, hlk⟩) hkeys.1

end Bucket

/-! ## The operations on the table -/

section Maps

variable (h : t.Maps C bound)
include h

theorem Maps.lookup {fuel : Nat} {k : BitVec 32} (hf : (C (Hashtable.hash N k)).length < fuel) :
    t.lookup fuel k = some (bound k) := by
  have hfind := (h.bucket (Hashtable.hash N k)).find_obj (k := k) rfl
  rw [Hashtable.lookup, (h.bucket _).lookupInternal hf, Option.map_some]
  exact congrArg some hfind

/-- The links of two buckets are different. -/
theorem Maps.links_ne {b b' : Fin N} (hb : b' ≠ b) {x : HtLink N} (hx : x ∈ links b' (C b')) :
    x ∉ links b (C b) := by
  intro hx'
  cases x with
  | slot i => exact hb ((mem_links_slot.1 hx).symm.trans (mem_links_slot.1 hx'))
  | chain a => exact hb (h.disjoint _ _ a (mem_links_chain.1 hx) (mem_links_chain.1 hx'))

/-- The other buckets stay when their links do. -/
theorem Maps.edit {b : Fin N} {c' : List Nat} {k : BitVec 32} {o : Option α}
    (hk : Hashtable.hash N k = b) (hb : t'.Bucket b c' (Function.update bound k o))
    (hcycle : ∀ b' ≠ b, t'.ring.Cycle (.slot b') ((C b').map .chain))
    (hlink : ∀ b' ≠ b, ∀ x ∈ links b' (C b'), t'.key x = t.key x ∧ t'.obj x = t.obj x)
    (hold : ∀ a ∈ c', a ∈ C b ∨ a ∉ t.allocated) (hnodup : t'.allocated.Nodup)
    (hmem : ∀ a, a ∈ t'.allocated ↔ a ∈ c' ∨ a ∈ t.allocated ∧ a ∉ C b) :
    t'.Maps (Function.update C b c') (Function.update bound k o) := by
  have hother : ∀ b' ≠ b, ∀ a ∈ c', a ∉ C b' := fun b' hne a ha ha' => by
    rcases hold a ha with ha | ha
    · exact hne (h.disjoint _ _ a ha' ha)
    · exact ha ((h.mem a).2 ⟨b', ha'⟩)
  refine ⟨fun b' => ?_, fun b₁ b₂ a h₁ h₂ => ?_, hnodup, fun a => ?_⟩
  · by_cases he : b' = b
    · subst he
      rwa [Function.update_self]
    · rw [Function.update_of_ne he]
      refine (h.bucket b').congr (hcycle b' he) (fun x hx => (hlink b' he x hx).1)
        (fun x hx => (hlink b' he x hx).2) fun k' hk' => ?_
      exact Function.update_of_ne (by rintro rfl; exact he (hk'.symm.trans hk)) _ _
  · rw [Function.update_apply] at h₁ h₂
    split_ifs at h₁ h₂ with e₁ e₂ e₂
    · rw [e₁, e₂]
    · exact absurd h₂ (hother b₂ e₂ a h₁)
    · exact absurd h₁ (hother b₁ e₁ a h₂)
    · exact h.disjoint b₁ b₂ a h₁ h₂
  · rw [hmem, h.mem]
    constructor
    · rintro (ha | ⟨⟨b', ha⟩, hne⟩)
      · exact ⟨b, by rwa [Function.update_self]⟩
      · exact ⟨b', by rwa [Function.update_of_ne (by rintro rfl; exact hne ha)]⟩
    · rintro ⟨b', ha⟩
      by_cases he : b' = b
      · subst he
        rw [Function.update_self] at ha
        exact .inl ha
      · rw [Function.update_of_ne he] at ha
        exact .inr ⟨⟨b', ha⟩, fun ha' => he (h.disjoint _ _ a ha ha')⟩

theorem Maps.mem_of_chain {b : Fin N} {a : Nat} (ha : a ∈ C b) : a ∈ t.allocated :=
  (h.mem a).2 ⟨b, ha⟩

omit [NeZero N] h in
theorem allocate_setLink (t : Hashtable N α) (a : Nat) (k : BitVec 32) (o : Option α) :
    (t.allocate a).setLink (.chain a) k o = { t.setLink (.chain a) k o with
      ring := t.ring.makeLonely (.chain a)
      allocated := a :: t.allocated } := by
  simp [allocate, setLink]

/-- An insertion adds the binding, and takes a link from the allocator unless the slot is empty. -/
theorem Maps.insert {k : BitVec 32} (hb : bound k = none) (v : α) {a : Nat} (ha : a ∉ t.allocated) :
    ∃ t', t.insert k (some v) a = some t' ∧
      (∃ C', t'.Maps C' (Function.update bound k (some v))) ∧
      (t'.allocated = t.allocated ∨ t'.allocated = a :: t.allocated ∧ t'.key (.chain a) = k) := by
  have hbucket := h.bucket (Hashtable.hash N k)
  have hout : ∀ b, ∀ x ∈ links b (C b), x ≠ .chain a := by
    rintro b x hx rfl
    exact ha (h.mem_of_chain (mem_links_chain.1 hx))
  rw [Hashtable.insert]
  simp only [Option.isNone_some, Bool.false_eq_true, if_false]
  by_cases ho : t.obj (.slot (Hashtable.hash N k)) = none
  · rw [if_pos (by simp [ho])]
    refine ⟨_, rfl, ⟨_, h.edit rfl (hbucket.insert_slot rfl ho v) (fun b' _ => (h.bucket b').cycle)
      (fun b' hne x hx => ?_) (fun a ha => .inl ha) h.nodup fun a => ?_⟩, .inl rfl⟩
    · have hx' : x ≠ .slot (Hashtable.hash N k) := by
        rintro rfl
        exact hne (mem_links_slot.1 hx).symm
      exact t.setLink_of_ne hx' _ _
    · have hmem := h.mem_of_chain (b := Hashtable.hash N k) (a := a)
      rw [setLink_allocated]
      tauto
  · rw [if_neg (by simpa using ho), allocate_setLink]
    have hcycle : ∀ b, (t.ring.makeLonely (.chain a)).Cycle (.slot b) ((C b).map .chain) := fun b =>
      (h.bucket b).cycle.makeLonely_other fun hm => hout b _ hm rfl
    have hchain : a ∉ C (Hashtable.hash N k) := fun hm => ha (h.mem_of_chain hm)
    have hring := (hcycle (Hashtable.hash N k)).addAfterSelf (n := .chain a)
      fun hm => hout _ _ hm rfl
    refine ⟨_, rfl,
      ⟨_, h.edit rfl (hbucket.insert_chain rfl ho hb v hchain hring) (fun b' hne => ?_)
      (fun b' hne x hx => ?_) (fun x hx => ?_) (List.nodup_cons.2 ⟨ha, h.nodup⟩) fun x => ?_⟩,
      .inr ⟨rfl, ?_⟩⟩
    · refine (hcycle _).addAfterSelf_other (hcycle b') fun x hx hm => ?_
      rcases List.mem_cons.1 hm with rfl | hm
      · exact hout b' _ hx rfl
      · exact h.links_ne hne hx hm
    · exact t.setLink_of_ne (hout b' x hx) _ _
    · rcases List.mem_cons.1 hx with rfl | hx
      · exact .inr ha
      · exact .inl hx
    · have hmem := h.mem_of_chain (b := Hashtable.hash N k) (a := x)
      simp only [List.mem_cons]
      tauto
    · exact (setLink_key t _ k (some v) _).trans (if_pos rfl)

/-- A link is unlinked from its chain and freed. -/
theorem Maps.unlink {k : BitVec 32} {a : Nat} {u v : List Nat}
    (hc : C (Hashtable.hash N k) = u ++ a :: v) (hring : t'.ring = t.ring.unlink (.chain a))
    (hlink : ∀ b' ≠ Hashtable.hash N k, ∀ x ∈ links b' (C b'), t'.key x = t.key x ∧
      t'.obj x = t.obj x)
    (hallocated : t'.allocated = t.allocated.erase a)
    (hb : t'.ring.Cycle (.slot (Hashtable.hash N k)) ((u ++ v).map .chain) →
      t'.Bucket (Hashtable.hash N k) (u ++ v) (Function.update bound k none)) :
    ∃ C', t'.Maps C' (Function.update bound k none) := by
  have hcycle := (h.bucket (Hashtable.hash N k)).cycle
  have hnodup : (u ++ a :: v).Nodup := (hc ▸ (List.nodup_cons.1 hcycle.nodup).2).of_map _
  rw [hc, List.map_append, List.map_cons] at hcycle
  refine ⟨_, h.edit rfl (hb ?_) (fun b' hne => ?_) hlink (fun x hx => .inl ?_) ?_ fun x => ?_⟩
  · rw [hring, List.map_append]
    exact hcycle.unlink
  · obtain ⟨m, hm, hperm⟩ := hcycle.at_mem (y := .chain a) (by simp)
    rw [hring]
    refine (h.bucket b').cycle.unlink_other hm fun x hx hx' => h.links_ne hne hx ?_
    rw [links, hc, List.map_append, List.map_cons]
    exact hperm.mem_iff.1 hx'
  · rw [hc]
    grind
  · rw [hallocated]
    exact h.nodup.erase a
  · have hmem := h.mem_of_chain (b := Hashtable.hash N k) (a := x)
    rw [hallocated, h.nodup.mem_erase_iff]
    rw [hc] at hmem ⊢
    grind

end Maps

/-- What a removal does to the links: the link of the binding is freed, or the link whose binding
moves into the slot in its place. -/
def Removed (t t' : Hashtable N α) (k : BitVec 32) : Prop :=
  (t'.allocated = t.allocated ∧ ∀ a ∈ t.allocated, t.key (.chain a) ≠ k) ∨
  ∃ a ∈ t.allocated, t'.allocated = t.allocated.erase a ∧
    (t.key (.chain a) = k ∨
      t.key (.slot (Hashtable.hash N k)) = k ∧
        t'.key (.slot (Hashtable.hash N k)) = t.key (.chain a) ∧
        t'.obj (.slot (Hashtable.hash N k)) = t.obj (.chain a))

/-- A key that no link of its bucket has is the key of no link that is handed out. -/
theorem Maps.key_ne (h : t.Maps C bound) {k : BitVec 32}
    (hno : ∀ a ∈ C (Hashtable.hash N k), t.key (.chain a) ≠ k) :
    ∀ a ∈ t.allocated, t.key (.chain a) ≠ k := by
  intro a ha hk
  obtain ⟨b, hb⟩ := (h.mem a).1 ha
  have hhash := (h.bucket b).hash _ (mem_links_chain.2 hb) ((h.bucket b).object a hb)
  rw [hk] at hhash
  exact hno a (hhash ▸ hb) hk

/-- A removal takes the binding away. -/
theorem Maps.remove (h : t.Maps C bound) {k : BitVec 32} {fuel : Nat}
    (hf : (C (Hashtable.hash N k)).length < fuel) :
    ∃ r t', t.remove fuel k = some (r, t') ∧ (∃ C', t'.Maps C' (Function.update bound k none)) ∧
      t.Removed t' k := by
  have hbucket := h.bucket (Hashtable.hash N k)
  have hfind := hbucket.find_obj rfl
  rw [Hashtable.remove, hbucket.lookupInternal hf]
  simp only [Option.bind_some]
  cases hr : (links (Hashtable.hash N k) (C (Hashtable.hash N k))).find? fun l => t.key l = k with
  | none =>
    rw [hr] at hfind
    have hsame : Function.update bound k none = bound := Function.update_eq_self_iff.2 hfind
    refine ⟨_, _, rfl, ⟨C, hsame.symm ▸ h⟩, .inl ⟨rfl, h.key_ne fun a ha => ?_⟩⟩
    simpa using List.find?_eq_none.1 hr _ (mem_links_chain.2 ha)
  | some link =>
    have hlink := List.mem_of_find?_eq_some hr
    have hkey : t.key link = k := by simpa using List.find?_some hr
    cases link with
    | chain a =>
      have ha := mem_links_chain.1 hlink
      have hmem := h.mem_of_chain ha
      obtain ⟨u, v, hc⟩ := List.append_of_mem ha
      simp only [reduceCtorEq, if_false, free, if_pos hmem, Option.map_some]
      refine ⟨_, _, rfl, h.unlink hc rfl (fun _ _ _ _ => ⟨rfl, rfl⟩) rfl fun hcycle => ?_,
        .inr ⟨a, hmem, rfl, .inl hkey⟩⟩
      exact hbucket.remove_chain rfl hkey hc hcycle
    | slot b =>
      obtain rfl := mem_links_slot.1 hlink
      simp only [if_true]
      cases hc : C (Hashtable.hash N k) with
      | nil =>
        have hlonely : t.ring.next (.slot (Hashtable.hash N k)) = .slot (Hashtable.hash N k) :=
          hbucket.cycle.lonely_iff.2 (by simp [hc])
        rw [if_pos hlonely]
        refine ⟨_, _, rfl, ⟨_, h.edit rfl (hbucket.remove_slot rfl hkey hc)
          (fun b' _ => (h.bucket b').cycle) (fun b' hne x hx => ⟨rfl, ?_⟩) (fun a ha => .inl ha)
          h.nodup fun a => ?_⟩, .inl ⟨rfl, h.key_ne (by simp [hc])⟩⟩
        · refine Function.update_of_ne ?_ _ _
          rintro rfl
          exact hne (mem_links_slot.1 hx).symm
        · simp [hc]
      | cons a c' =>
        have hcycle := hbucket.cycle
        have hmem := h.mem_of_chain (b := Hashtable.hash N k) (a := a) (by simp [hc])
        have hnext : t.ring.next (.slot (Hashtable.hash N k)) = .chain a := by
          rw [hcycle.path.next, hc]
          rfl
        simp only [hnext, reduceCtorEq, if_false, free, setLink_allocated, if_pos hmem,
          Option.map_some]
        refine ⟨_, _, rfl, h.unlink (u := []) hc rfl (fun b' hne x hx => ?_) rfl fun hcycle => ?_,
          .inr ⟨a, hmem, rfl, .inr ⟨hkey, ?_, ?_⟩⟩⟩
        · have hx' : x ≠ .slot (Hashtable.hash N k) := by
            rintro rfl
            exact hne (mem_links_slot.1 hx).symm
          exact t.setLink_of_ne hx' _ _
        · exact hbucket.remove_head rfl hkey hc hcycle
        · exact (setLink_key t _ _ (t.obj (.chain a)) _).trans (if_pos rfl)
        · exact (setLink_obj t _ (t.key (.chain a)) _ _).trans (if_pos rfl)

theorem remove_mono {k : BitVec 32} {fuel fuel' : Nat} (hle : fuel ≤ fuel')
    {x : Bool × Hashtable N α} (hx : t.remove fuel k = some x) : t.remove fuel' k = some x := by
  rw [Hashtable.remove, Option.bind_eq_some_iff] at hx ⊢
  obtain ⟨r, hr, hx⟩ := hx
  exact ⟨r, find_mono hle hr, hx⟩

/-! ## Runs -/

/-- The table, and the bindings that the calls have made. -/
structure Client (N : Nat) (α : Type*) where
  table : Hashtable N α
  bound : BitVec 32 → Option α

/-- `insert` of a key that is not bound, where the allocator returns a link that is not handed
out, and `remove` of any key. -/
inductive Step : Client N α → Client N α → Prop
  | insert {c : Client N α} {k : BitVec 32} {v : α} {a : Nat} {t : Hashtable N α} :
      c.bound k = none → a ∉ c.table.allocated → c.table.insert k (some v) a = some t →
      Step c ⟨t, Function.update c.bound k (some v)⟩
  | remove {c : Client N α} {k : BitVec 32} {fuel : Nat} {r : Bool} {t : Hashtable N α} :
      c.table.remove fuel k = some (r, t) → Step c ⟨t, Function.update c.bound k none⟩

theorem Maps.step {c c' : Client N α} {C : Fin N → List Nat} (h : c.table.Maps C c.bound)
    (hs : Step c c') : ∃ C', c'.table.Maps C' c'.bound := by
  cases hs with
  | insert hk ha ht =>
    obtain ⟨t', ht', hmaps, -⟩ := h.insert hk _ ha
    rw [ht] at ht'
    obtain rfl := Option.some.inj ht'
    exact hmaps
  | @remove k fuel r t ht =>
    have hf : (C (Hashtable.hash N k)).length < max fuel ((C (Hashtable.hash N k)).length + 1) := by
      omega
    obtain ⟨r', t', ht', hmaps, -⟩ := h.remove hf
    rw [remove_mono (Nat.le_max_left _ _) ht] at ht'
    obtain ⟨-, rfl⟩ := Prod.mk.inj (Option.some.inj ht')
    exact hmaps

theorem Maps.run {t₀ : Hashtable N α} {c : Client N α}
    (hr : ReflTransGen Step ⟨t₀.construct, fun _ => none⟩ c) : ∃ C, c.table.Maps C c.bound := by
  induction hr with
  | refl => exact ⟨_, maps_construct t₀⟩
  | tail _ hs ih =>
    obtain ⟨C, h⟩ := ih
    exact h.step hs

/-- The table answers like the map, its calls succeed, and a link is handed out exactly as long as
it holds a binding. -/
structure Client.Sound (c : Client N α) : Prop where
  lookup : ∀ k, ∃ fuel₀, ∀ fuel ≥ fuel₀, c.table.lookup fuel k = some (c.bound k)
  insert : ∀ k v a, c.bound k = none → a ∉ c.table.allocated →
    ∃ t, c.table.insert k (some v) a = some t ∧
      (t.allocated = c.table.allocated ∨
        t.allocated = a :: c.table.allocated ∧ t.key (.chain a) = k)
  remove : ∀ k, ∃ fuel₀ r t, (∀ fuel ≥ fuel₀, c.table.remove fuel k = some (r, t)) ∧
    c.table.Removed t k
  nodup : c.table.allocated.Nodup
  holds : ∀ a ∈ c.table.allocated, ∃ v, c.table.obj (.chain a) = some v ∧
    c.bound (c.table.key (.chain a)) = some v
  keys : ∀ a ∈ c.table.allocated, ∀ a' ∈ c.table.allocated,
    c.table.key (.chain a) = c.table.key (.chain a') → a = a'

theorem Maps.sound {c : Client N α} {C : Fin N → List Nat} (h : c.table.Maps C c.bound) :
    c.Sound where
  lookup k := ⟨(C (Hashtable.hash N k)).length + 1, fun fuel hf => h.lookup hf⟩
  insert k v a hk ha := by
    obtain ⟨t, ht, -, hl⟩ := h.insert hk v ha
    exact ⟨t, ht, hl⟩
  remove k := by
    obtain ⟨r, t, ht, -, hl⟩ := h.remove (k := k) (Nat.lt_succ_self _)
    exact ⟨_, r, t, fun fuel hf => remove_mono hf ht, hl⟩
  nodup := h.nodup
  holds a ha := by
    obtain ⟨b, hb⟩ := (h.mem a).1 ha
    have hlink : HtLink.chain a ∈ links b (C b) := mem_links_chain.2 hb
    have hobj := (h.bucket b).object a hb
    obtain ⟨v, hv⟩ := Option.ne_none_iff_exists'.1 hobj
    exact ⟨v, hv, ((h.bucket b).bound _ ((h.bucket b).hash _ hlink hobj) v).2 ⟨_, hlink, rfl, hv⟩⟩
  keys a ha a' ha' hk := by
    obtain ⟨b, hb⟩ := (h.mem a).1 ha
    obtain ⟨b', hb'⟩ := (h.mem a').1 ha'
    have hhash := (h.bucket b).hash _ (mem_links_chain.2 hb) ((h.bucket b).object a hb)
    have hhash' := (h.bucket b').hash _ (mem_links_chain.2 hb') ((h.bucket b').object a' hb')
    obtain rfl : b = b' := by rw [← hhash, hk, hhash']
    exact HtLink.chain.inj
      ((h.bucket b).eq_of_key (mem_links_chain.2 hb) (mem_links_chain.2 hb') hk)

/-- Whatever the calls were, the table is the map that they describe. -/
theorem hashtable_sound {t₀ : Hashtable N α} {c : Client N α}
    (hr : ReflTransGen Step ⟨t₀.construct, fun _ => none⟩ c) : c.Sound := by
  obtain ⟨C, h⟩ := Maps.run hr
  exact h.sound

/-! ## What a removal tells -/

/-- Whether `remove` returns true is whether `lookup` has returned a value just before. -/
def RemoveTells (t : Hashtable N α) (k : BitVec 32) : Prop :=
  ∃ fuel₀, ∀ fuel ≥ fuel₀, ∃ r t' o, t.remove fuel k = some (r, t') ∧ t.lookup fuel k = some o ∧
    (r = true ↔ o ≠ none)

/-- A removal returns whether the search has found a link. -/
theorem remove_fst {k : BitVec 32} {fuel : Nat} {l : Option (HtLink N)} {r : Bool}
    (hl : t.lookupInternal fuel k (Hashtable.hash N k) = some l)
    (hr : t.remove fuel k = some (r, t')) :
    r = l.isSome := by
  rw [Hashtable.remove, hl, Option.bind_some] at hr
  cases l with
  | none => exact (Prod.mk.inj (Option.some.inj hr)).1.symm
  | some link =>
    dsimp only at hr
    split_ifs at hr
    · exact (Prod.mk.inj (Option.some.inj hr)).1.symm
    · obtain ⟨_, -, heq⟩ := Option.map_eq_some_iff.1 hr
      exact (Prod.mk.inj heq).1.symm
    · obtain ⟨_, -, heq⟩ := Option.map_eq_some_iff.1 hr
      exact (Prod.mk.inj heq).1.symm

/-- A link that has the key and no object is the slot of an empty bucket. -/
theorem Bucket.find_isSome {b : Fin N} {c : List Nat} (h : t.Bucket b c bound) {k : BitVec 32}
    (hk : Hashtable.hash N k = b) :
    (((links b c).find? fun l => t.key l = k).isSome = true ↔ bound k ≠ none) ↔
      ¬ (t.obj (.slot b) = none ∧ t.key (.slot b) = k) := by
  have hfind := h.find_obj hk
  cases hr : (links b c).find? fun l => t.key l = k with
  | none =>
    rw [hr] at hfind
    have hslot : t.key (.slot b) ≠ k := by
      simpa using List.find?_eq_none.1 hr _ List.mem_cons_self
    simp [← hfind, hslot]
  | some link =>
    rw [hr] at hfind
    dsimp only at hfind
    have hlink := List.mem_of_find?_eq_some hr
    have hkey : t.key link = k := by simpa using List.find?_some hr
    rw [← hfind]
    cases link with
    | slot b' =>
      obtain rfl := mem_links_slot.1 hlink
      simp [hkey]
    | chain a =>
      have ha := mem_links_chain.1 hlink
      have hslot : t.obj (.slot b) ≠ none := fun ho => List.ne_nil_of_mem ha (h.empty ho)
      simp [h.object a ha, hslot]

theorem Maps.removeTells_iff (h : t.Maps C bound) (k : BitVec 32) :
    t.RemoveTells k ↔
      ¬ (t.obj (.slot (Hashtable.hash N k)) = none ∧ t.key (.slot (Hashtable.hash N k)) = k) := by
  have hbucket := h.bucket (Hashtable.hash N k)
  rw [← hbucket.find_isSome rfl]
  -- with enough fuel both calls end, and the removal returns what the search does
  have hcalls : ∀ fuel > (C (Hashtable.hash N k)).length, ∃ t',
      t.remove fuel k = some (((links (Hashtable.hash N k) (C (Hashtable.hash N k))).find?
        fun l => t.key l = k).isSome, t') ∧ t.lookup fuel k = some (bound k) := by
    intro fuel hf
    obtain ⟨r, t', hr, -⟩ := h.remove hf
    obtain rfl := remove_fst (hbucket.lookupInternal hf) hr
    exact ⟨t', hr, h.lookup hf⟩
  constructor
  · rintro ⟨fuel₀, htells⟩
    obtain ⟨t', hr, hl⟩ := hcalls (fuel₀ + (C (Hashtable.hash N k)).length + 1) (by omega)
    obtain ⟨r, t'', o, hr', hl', hiff⟩ :=
      htells (fuel₀ + (C (Hashtable.hash N k)).length + 1) (by omega)
    rw [hr] at hr'
    rw [hl] at hl'
    obtain ⟨rfl, -⟩ := Prod.mk.inj (Option.some.inj hr')
    obtain rfl := Option.some.inj hl'
    exact hiff
  · intro hiff
    refine ⟨(C (Hashtable.hash N k)).length + 1, fun fuel hf => ?_⟩
    obtain ⟨t', hr, hl⟩ := hcalls fuel hf
    exact ⟨_, t', _, hr, hl, hiff⟩

/-- In every table that calls lead to, `remove` tells whether the key was bound, unless the bucket
is empty and its slot still has the key, be it the first key zero or one that was removed. -/
theorem remove_tells_iff {t₀ : Hashtable N α} {c : Client N α}
    (hr : ReflTransGen Step ⟨t₀.construct, fun _ => none⟩ c) (k : BitVec 32) :
    c.table.RemoveTells k ↔ ¬ (c.table.obj (.slot (Hashtable.hash N k)) = none ∧
      c.table.key (.slot (Hashtable.hash N k)) = k) := by
  obtain ⟨C, h⟩ := Maps.run hr
  exact h.removeTells_iff k

/-- A table with one bucket, where all keys collide. -/
def oneBucket : Hashtable 1 Nat := ⟨.alone, fun _ => 0, fun _ => none, []⟩

/-- Two keys of the bucket are inserted, and the first is removed. -/
theorem oneBucket_run : ∃ t : Hashtable 1 Nat,
    ReflTransGen Step ⟨oneBucket.construct, fun _ => none⟩
      ⟨t, Function.update (Function.update (Function.update (fun _ => none) 0 (some 7))
        1 (some 8)) 0 none⟩ ∧
    t.allocated = [] ∧ t.obj (.slot 0) = some 8 ∧ t.key (.slot 0) = 1 := by
  have hcalls : ∃ t, oneBucket.construct.insert 0 (some 7) 16 = some t ∧
      ∃ t', t.insert 1 (some 8) 16 = some t' ∧
        ∃ r t'', t'.remove 2 0 = some (r, t'') ∧ t.allocated = [] ∧ t''.allocated = [] ∧
          t''.obj (.slot 0) = some 8 ∧ t''.key (.slot 0) = 1 :=
    ⟨_, rfl, _, rfl, _, _, rfl, rfl, rfl, rfl, rfl⟩
  obtain ⟨t, ht, t', ht', r, t'', ht'', hnone, hnone', hslot⟩ := hcalls
  refine ⟨t'', .tail (.tail (.single (.insert rfl ?_ ht)) (.insert rfl ?_ ht')) (.remove ht''),
    hnone', hslot⟩
  · exact List.not_mem_nil
  · rw [hnone]
    exact List.not_mem_nil

theorem hashtable_sound_oneBucket : ∃ t : Hashtable 1 Nat, t.allocated = [] ∧
    Client.Sound ⟨t, Function.update (Function.update (Function.update (fun _ => none) 0 (some 7))
      1 (some 8)) 0 none⟩ := by
  obtain ⟨t, hrun, hnone, -⟩ := oneBucket_run
  exact ⟨t, hnone, hashtable_sound hrun⟩

theorem remove_tells_oneBucket : ∃ t : Hashtable 1 Nat,
    t.obj (.slot 0) = some 8 ∧ t.RemoveTells 0 ∧ t.RemoveTells 1 := by
  obtain ⟨t, hrun, -, hobj, -⟩ := oneBucket_run
  have hfull (k : BitVec 32) : ¬ (t.obj (.slot (Hashtable.hash 1 k)) = none ∧
      t.key (.slot (Hashtable.hash 1 k)) = k) := by
    intro h
    rw [Subsingleton.elim (Hashtable.hash 1 k) 0, hobj] at h
    exact absurd h.1 (by simp)
  exact ⟨t, hobj, (remove_tells_iff hrun 0).2 (hfull 0), (remove_tells_iff hrun 1).2 (hfull 1)⟩

/-- In a new table, zero is removed without having been bound. -/
theorem remove_not_tells : ¬ ∀ (t₀ : Hashtable 256 Nat) (c : Client 256 Nat),
    ReflTransGen Step ⟨t₀.construct, fun _ => none⟩ c → ∀ k, c.table.RemoveTells k := by
  intro h
  obtain ⟨fuel₀, htells⟩ := h ⟨.alone, fun _ => 0, fun _ => none, []⟩ _ .refl 0
  obtain ⟨r, t, o, hr, hl, hiff⟩ := htells (fuel₀ + 1) (Nat.le_succ _)
  obtain rfl : true = r := (Prod.mk.inj (Option.some.inj hr)).1
  obtain rfl : none = o := Option.some.inj hl
  exact hiff.1 rfl rfl

end TinyLittleOs.Ds.Hashtable
