import Mathlib.Algebra.Group.Pi.Basic
import Mathlib.Data.Finset.Card
import Mathlib.Data.Finset.Range
import Mathlib.Logic.Function.Basic
import Mathlib.Tactic.Ring

/-!
# Forests of counted objects

Objects with a reference count of 32 bits, each of which may hold a reference to a parent.
Releasing the last reference to an object frees it, and releases the one it held. Releases
commute, and a release undoes taking or making a reference. The counts stay equal to the
references. A count of `2 ^ 31` is negative as a number with a sign: such an object can be
neither taken nor released any more.
-/

namespace TinyLittleOs.Lib

open Function

/-- The objects carry their count, and the object they hold a reference to. -/
class Counted (β : Type) where
  rc : β → BitVec 32
  parent : β → Option Nat
  setRc : BitVec 32 → β → β
  rc_setRc : ∀ n b, rc (setRc n b) = n
  parent_setRc : ∀ n b, parent (setRc n b) = parent b
  setRc_setRc : ∀ n k b, setRc n (setRc k b) = setRc n b
  setRc_rc : ∀ b, setRc (rc b) b = b

attribute [simp] Counted.rc_setRc Counted.parent_setRc Counted.setRc_setRc Counted.setRc_rc

/-- A count that is positive as a number with a sign. -/
theorem toInt_pos {x : BitVec 32} : 0 < x.toInt ↔ 0 < x.toNat ∧ x.toNat < 2 ^ 31 := by
  rw [BitVec.toInt_eq_toNat_cond]
  omega

theorem toNat_succ {x : BitVec 32} (h : x.toNat ≤ 2 ^ 31) : (x + 1).toNat = x.toNat + 1 := by
  rw [BitVec.toNat_add]
  exact Nat.mod_eq_of_lt (by simp; omega)

theorem toNat_pred {x : BitVec 32} (h : 0 < x.toNat) : (x - 1).toNat = x.toNat - 1 :=
  BitVec.toNat_sub_of_le (by rw [BitVec.le_def]; exact h)

/-- The live objects. -/
abbrev Forest (β : Type) := Nat → Option β

namespace Forest

open Counted

variable {β : Type} [Counted β] {f f' g : Forest β} {a c n : Nat} {b : β} {x y : Option Nat}

/-- `Released f x f'`: releasing the reference `x`, if there is one, leads from `f` to `f'`. -/
inductive Released : Forest β → Option Nat → Forest β → Prop
  | none (f : Forest β) : Released f none f
  | keep {f : Forest β} {a : Nat} {b : β} (ha : f a = some b) (hpos : 0 < (rc b).toInt)
      (hrc : rc b ≠ 1) : Released f (some a) (update f a (some (setRc (rc b - 1) b)))
  | last {f f' : Forest β} {a : Nat} {b : β} (ha : f a = some b) (hrc : rc b = 1)
      (hparent : Released (update f a none) (parent b) f') : Released f (some a) f'

/-- One more reference to the object `b` at `a`. -/
def take (f : Forest β) (a : Nat) (b : β) : Forest β := update f a (some (setRc (rc b + 1) b))

/-! ## Releasing -/

namespace Released

/-- No object comes to life. -/
theorem dead (h : Released f x f') (ha : f a = .none) : f' a = .none := by
  induction h with
  | none f => exact ha
  | @keep f c b hc =>
    have hne : a ≠ c := fun he => by simp [← he, ha] at hc
    rwa [update_of_ne hne]
  | @last f f' c b _ _ _ ih =>
    apply ih
    by_cases he : a = c
    · rw [he, update_self]
    · rwa [update_of_ne he]

theorem live (h : Released f (some a) f') : ∃ b, f a = some b ∧ 0 < (rc b).toInt := by
  cases h with
  | keep ha hpos => exact ⟨_, ha, hpos⟩
  | last ha hrc => exact ⟨_, ha, by rw [hrc]; decide⟩

/-- A release changes the object. -/
theorem ne (h : Released f (some a) f') : f' ≠ f := by
  intro he
  cases h with
  | @keep _ _ b ha hpos =>
    have hself := congrFun he a
    rw [update_self, ha, Option.some.injEq] at hself
    have hcount := congrArg (BitVec.toNat ∘ rc) hself
    simp only [comp_apply, rc_setRc] at hcount
    rw [toInt_pos] at hpos
    rw [toNat_pred hpos.1] at hcount
    omega
  | last ha _ hp =>
    have hdead := hp.dead (update_self ..)
    rw [he, ha] at hdead
    cases hdead

/-- The objects that stay are the same, or have one reference less. -/
theorem stays (h : Released f x f') {d : β} (ha : f' a = some d) :
    ∃ b, f a = some b ∧ d = setRc (rc d) b ∧
      (d = b ∨ 0 < (rc b).toInt ∧ rc b ≠ 1 ∧ rc d = rc b - 1) := by
  induction h with
  | none f => exact ⟨d, ha, (setRc_rc d).symm, .inl rfl⟩
  | @keep f c b hc hpos hrc =>
    by_cases he : a = c
    · subst he
      rw [update_self, Option.some.injEq] at ha
      subst ha
      exact ⟨b, hc, by simp, .inr ⟨hpos, hrc, by simp⟩⟩
    · rw [update_of_ne he] at ha
      exact ⟨d, ha, (setRc_rc d).symm, .inl rfl⟩
  | @last f f' c b hc _ _ ih =>
    obtain ⟨b', hb', hd⟩ := ih ha
    have he : a ≠ c := fun he => by simp [he] at hb'
    rw [update_of_ne he] at hb'
    exact ⟨b', hb', hd⟩

/-- The objects that are freed have one reference. -/
theorem gone (h : Released f x f') (ha : f a = some b) (hgone : f' a = .none) : rc b = 1 := by
  induction h with
  | none f => simp [ha] at hgone
  | @keep f c d hc =>
    by_cases he : a = c
    · simp [he] at hgone
    · simp [update_of_ne he, ha] at hgone
  | @last f f' c d hc hrc _ ih =>
    by_cases he : a = c
    · subst he
      obtain rfl := Option.some.inj (ha.symm.trans hc)
      exact hrc
    · exact ih (by rwa [update_of_ne he]) hgone

/-- A release does not reach an object whose count is not positive. -/
theorem frame (h : Released f x f') (ha : ∀ b, f a = some b → (rc b).toInt ≤ 0) (o : Option β) :
    f' a = f a ∧ Released (update f a o) x (update f' a o) := by
  induction h with
  | none f => exact ⟨rfl, .none _⟩
  | @keep f c d hc hpos hrc =>
    have hne : c ≠ a := by
      rintro rfl
      have := ha d hc
      omega
    rw [update_comm hne]
    exact ⟨update_of_ne (Ne.symm hne) .., .keep (by rwa [update_of_ne hne]) hpos hrc⟩
  | @last f f' c d hc hrc _ ih =>
    have hne : c ≠ a := by
      rintro rfl
      have := ha d hc
      rw [hrc] at this
      exact absurd this (by decide)
    obtain ⟨hself, hframe⟩ := ih fun b hb => ha b (by rwa [update_of_ne (Ne.symm hne)] at hb)
    rw [update_of_ne (Ne.symm hne)] at hself
    refine ⟨hself, .last (by rwa [update_of_ne hne]) hrc ?_⟩
    rwa [update_comm (Ne.symm hne)]

/-- It does not reach the objects that are younger than the first one. -/
theorem above (h : Released f x f') (hx : ∀ c, x = some c → c < a)
    (hold : ∀ c b p, f c = some b → parent b = some p → p < c) : f' a = f a := by
  induction h with
  | none f => rfl
  | keep _ _ _ => exact update_of_ne (Nat.ne_of_gt (hx _ rfl)) ..
  | @last f f' c b hc _ _ ih =>
    have hlt := hx c rfl
    rw [ih (fun p hp => Nat.lt_trans (hold c b p hc hp) hlt) fun d k p hd hp => ?_,
      update_of_ne (Nat.ne_of_gt hlt)]
    by_cases hdc : d = c
    · simp [hdc] at hd
    · rw [update_of_ne hdc] at hd
      exact hold d k p hd hp

/-- What is released and stays has one reference less. -/
theorem pred (h : Released f (some a) f') {d : β} (ha : f' a = some d) :
    ∃ b, f a = some b ∧ 0 < (rc b).toInt ∧ rc d = rc b - 1 := by
  cases h with
  | keep hb hpos =>
    rw [update_self, Option.some.injEq] at ha
    exact ⟨_, hb, hpos, by rw [← ha, rc_setRc]⟩
  | last _ _ hp =>
    rw [hp.dead (update_self ..)] at ha
    cases ha

theorem det (h : Released f x f') (h' : Released f x g) : f' = g := by
  induction h with
  | none f =>
    cases h'
    rfl
  | keep ha _ hrc =>
    cases h' with
    | keep ha' =>
      obtain rfl := Option.some.inj (ha.symm.trans ha')
      rfl
    | last ha' hrc' =>
      obtain rfl := Option.some.inj (ha.symm.trans ha')
      exact absurd hrc' hrc
  | last ha hrc _ ih =>
    cases h' with
    | keep ha' _ hrc' =>
      obtain rfl := Option.some.inj (ha.symm.trans ha')
      exact absurd hrc hrc'
    | last ha' hrc' hp =>
      obtain rfl := Option.some.inj (ha.symm.trans ha')
      exact ih hp

/-- A release that frees nothing commutes with another one. -/
theorem keep_comm (ha : f a = some b) (hpos : 0 < (rc b).toInt) (hrc : rc b ≠ 1)
    (h : Released (update f a (some (setRc (rc b - 1) b))) y g) :
    ∃ f', Released f y f' ∧ Released f' (some a) g := by
  generalize hk : update f a (some (setRc (rc b - 1) b)) = k at h
  induction h generalizing f with
  | none =>
    subst hk
    exact ⟨f, .none f, .keep ha hpos hrc⟩
  | @keep k c d hc hpos' hrc' =>
    subst hk
    by_cases he : c = a
    · subst he
      rw [update_self, Option.some.injEq] at hc
      subst hc
      exact ⟨_, .keep ha hpos hrc, .keep (by simp) hpos' hrc'⟩
    · rw [update_of_ne he] at hc
      refine ⟨_, .keep hc hpos' hrc', ?_⟩
      rw [update_comm (Ne.symm he)]
      exact .keep (by rwa [update_of_ne (Ne.symm he)]) hpos hrc
  | @last k k' c d hc hrc' hp ih =>
    subst hk
    by_cases he : c = a
    · subst he
      rw [update_self, Option.some.injEq] at hc
      subst hc
      exact ⟨_, .keep ha hpos hrc, .last (by simp) hrc' hp⟩
    · rw [update_of_ne he] at hc
      obtain ⟨f', hf, hf'⟩ := ih (f := update f c .none) (by rwa [update_of_ne (Ne.symm he)])
        (update_comm he _ _ _)
      exact ⟨f', .last hc hrc' hf, hf'⟩

/-- The order of two releases does not matter. -/
theorem comm (h : Released f x f') (h' : Released f' y g) :
    ∃ k, Released f y k ∧ Released k x g := by
  induction h generalizing g with
  | none f => exact ⟨g, h', .none g⟩
  | keep ha hpos hrc => exact keep_comm ha hpos hrc h'
  | @last f f' a b ha hrc hp ih =>
    obtain ⟨k, hk, hk'⟩ := ih h'
    refine ⟨update k a (some b), ?_, .last (update_self ..) hrc ?_⟩
    · have hframe := (hk.frame (a := a) (fun c hc => by simp at hc) (some b)).2
      rw [update_idem] at hframe
      have hself : update f a (some b) = f := by rw [← ha, update_eq_self]
      rwa [hself] at hframe
    · have hdead : k a = .none := hk.dead (update_self ..)
      rwa [update_idem, ← hdead, update_eq_self]

end Released

/-- A release of the reference that was taken gives the objects from before, if it ends. -/
theorem Released.of_take (h : Released (take f a b) (some a) g) (ha : f a = some b)
    (hrc : rc b ≠ 0) : g = f := by
  have hself : take f a b a = some (setRc (rc b + 1) b) := update_self ..
  cases h with
  | @keep _ _ d hd =>
    rw [hself, Option.some.injEq] at hd
    subst hd
    rw [rc_setRc, setRc_setRc, BitVec.add_sub_cancel, setRc_rc, take, update_idem, ← ha,
      update_eq_self]
  | @last _ _ _ d hd hone =>
    rw [hself, Option.some.injEq] at hd
    subst hd
    rw [rc_setRc] at hone
    exact absurd (by simpa using hone) hrc

/-- It ends as long as the count is positive. -/
theorem take_released (ha : f a = some b) (hrc : rc b ≠ 0) (hlt : (rc b).toNat + 1 < 2 ^ 31) :
    Released (take f a b) (some a) f := by
  have hpos : 0 < (rc b).toNat := by
    rw [Nat.pos_iff_ne_zero]
    exact fun he => hrc (BitVec.eq_of_toNat_eq he)
  have hsucc : (rc b + 1).toNat = (rc b).toNat + 1 := toNat_succ (by omega)
  have h := Released.keep (f := take f a b) (b := setRc (rc b + 1) b) (update_self ..)
    (by rw [rc_setRc, toInt_pos]; omega) fun he => by
      rw [rc_setRc] at he
      rw [he] at hsucc
      have : (1 : BitVec 32).toNat = 1 := rfl
      omega
  rwa [rc_setRc, setRc_setRc, BitVec.add_sub_cancel, setRc_rc, take, update_idem, ← ha,
    update_eq_self] at h

/-- A reference beyond the range of the count stays: no release sees the object any more. -/
theorem Released.of_full {x : Option Nat} {f₀ : Forest β} (h : Released (take f a b) x g)
    (ha : f a = some b) (hneg : (rc b + 1).toInt ≤ 0) (hown : Released f x f₀) :
    f₀ a = some b ∧ g a = some (setRc (rc b + 1) b) := by
  have hself : take f a b a = some (setRc (rc b + 1) b) := update_self ..
  have hframe := h.frame (a := a) (fun d hd => by
    obtain rfl := Option.some.inj (hself.symm.trans hd)
    rwa [rc_setRc]) (some b)
  have hsame : update (take f a b) a (some b) = f := by
    rw [take, update_idem, ← ha, update_eq_self]
  have hback := hframe.2
  rw [hsame] at hback
  refine ⟨?_, hframe.1.trans hself⟩
  rw [← hback.det hown, update_self]

/-- The only reference to a new object, which took a reference to its parent. -/
theorem Released.of_new {d : β} (h : Released (update (take f a b) c (some d)) (some c) g)
    (hc : f c = .none) (ha : f a = some b) (hrc : rc b ≠ 0) (hd : rc d = 1)
    (hparent : parent d = some a) : g = f := by
  have hne : c ≠ a := fun he => by simp [← he, hc] at ha
  have hnone : take f a b c = .none := by rwa [take, update_of_ne hne]
  cases h with
  | @keep _ _ k hk _ hone =>
    rw [update_self, Option.some.injEq] at hk
    exact absurd (hk ▸ hd) hone
  | @last _ _ _ k hk _ hp =>
    rw [update_self, Option.some.injEq] at hk
    subst hk
    rw [update_idem, ← hnone, update_eq_self, hparent] at hp
    exact hp.of_take ha hrc

theorem new_released (hc : f c = none) (ha : f a = some b) (hrc : rc b ≠ 0)
    (hlt : (rc b).toNat + 1 < 2 ^ 31) {d : β} (hd : rc d = 1) (hparent : parent d = some a) :
    Released (update (take f a b) c (some d)) (some c) f := by
  have hne : c ≠ a := fun he => by simp [← he, hc] at ha
  have hnone : take f a b c = none := by rwa [take, update_of_ne hne]
  refine .last (update_self ..) hd ?_
  rw [update_idem, ← hnone, update_eq_self, hparent]
  exact take_released ha hrc hlt

/-! ## Counting the references -/

/-- The references that `x` stands for. -/
def one (x : Option Nat) (a : Nat) : Nat := if x = some a then 1 else 0

@[simp] theorem one_none : one none a = 0 := rfl

@[simp] theorem one_self : one (some a) a = 1 := if_pos rfl

theorem one_of_ne (h : c ≠ a) : one (some c) a = 0 := if_neg (by simpa using h)

/-- The objects below `n` that hold a reference to `a`. -/
def children (n : Nat) (f : Forest β) (a : Nat) : Nat :=
  ((Finset.range n).filter fun c => (f c).bind parent = some a).card

theorem children_congr (h : ∀ c, (f c).bind parent = (g c).bind parent) :
    children n f a = children n g a := by
  simp only [children, h]

theorem children_setRc (ha : f a = some b) (k : BitVec 32) :
    children n (update f a (some (setRc k b))) c = children n f c := by
  apply children_congr
  intro d
  by_cases hd : d = a
  · simp [hd, ha]
  · rw [update_of_ne hd]

theorem children_erase (ha : f a = some b) (hn : a < n) :
    children n f c = children n (update f a none) c + one (parent b) c := by
  have herase : (Finset.range n).filter (fun d => (update f a none d).bind parent = some c) =
      ((Finset.range n).filter fun d => (f d).bind parent = some c).erase a := by
    ext d
    by_cases hd : d = a <;> simp [hd]
  by_cases hp : parent b = some c
  · have hmem : a ∈ (Finset.range n).filter fun d => (f d).bind parent = some c := by
      simp [hn, ha, hp]
    rw [children, children, herase, one, if_pos hp, Finset.card_erase_add_one hmem]
  · have hmem : a ∉ (Finset.range n).filter fun d => (f d).bind parent = some c := by
      simp [ha, hp]
    rw [children, children, herase, one, if_neg hp, Finset.erase_eq_of_notMem hmem, Nat.add_zero]

theorem children_succ (hn : f n = none) : children (n + 1) f c = children n f c := by
  rw [children, Finset.range_add_one, Finset.filter_insert, if_neg (by simp [hn]), children]

theorem children_new (hn : f n = none) (d : β) :
    children (n + 1) (update f n (some d)) c = children n f c + one (parent d) c := by
  have hself : update f n none = f := by rw [← hn, update_eq_self]
  rw [children_erase (update_self ..) (Nat.lt_succ_self n), update_idem, hself,
    children_succ hn]

/-- The objects are made below `n`, the counts are the references: `e` from outside, and those
of the children. -/
structure Balanced (n : Nat) (f : Forest β) (e : Nat → Nat) : Prop where
  bound : ∀ c, n ≤ c → f c = none
  count : ∀ a b, f a = some b → (rc b).toNat = e a + children n f a
  pos : ∀ a b, f a = some b → 0 < (rc b).toNat
  le : ∀ a b, f a = some b → (rc b).toNat ≤ 2 ^ 31
  ext_live : ∀ a, f a = none → e a = 0
  parent_live : ∀ c d p, f c = some d → parent d = some p → p < c ∧ f p ≠ none

namespace Balanced

variable {e : Nat → Nat}

theorem empty : Balanced 0 (fun _ => (none : Option β)) fun _ => 0 where
  bound _ _ := rfl
  count _ _ h := by cases h
  pos _ _ h := by cases h
  le _ _ h := by cases h
  ext_live _ _ := rfl
  parent_live _ _ _ h := by cases h

theorem lt (h : Balanced n f e) (ha : f a = some b) : a < n := by
  by_contra hn
  simp [h.bound a (by omega)] at ha

theorem children_dead (h : Balanced n f e) (ha : f a = none) : children n f a = 0 := by
  rw [children, Finset.card_eq_zero, Finset.filter_eq_empty_iff]
  intro c _ hc
  obtain ⟨d, hd, hp⟩ := Option.bind_eq_some_iff.1 hc
  exact (h.parent_live c d a hd hp).2 ha

/-- An object is live exactly while there are references to it. -/
theorem live_iff (h : Balanced n f e) : f a ≠ none ↔ 0 < e a + children n f a := by
  constructor
  · intro ha
    obtain ⟨b, hb⟩ := Option.ne_none_iff_exists'.1 ha
    have hcount := h.count a b hb
    have hpos := h.pos a b hb
    omega
  · intro hpos ha
    rw [h.ext_live a ha, h.children_dead ha] at hpos
    omega

/-- An object stays live as long as it keeps its references from outside and its children. -/
theorem lives {m : Nat} {e' : Nat → Nat} (h : Balanced n f e) (h' : Balanced m f' e')
    (hle : ∀ a, e a ≤ e' a)
    (hparent : ∀ c b d, f c = some b → f' c = some d → parent d = parent b) (ha : f a ≠ none) :
    f' a ≠ none := by
  -- the children are younger
  induction hk : n - a using Nat.strong_induction_on generalizing a with
  | _ k ih =>
    have hpos := h.live_iff.1 ha
    rw [h'.live_iff]
    by_cases he : 0 < e a
    · exact Nat.add_pos_left (he.trans_le (hle a)) _
    · have hchild : 0 < children n f a := by omega
      obtain ⟨c, hc⟩ := Finset.card_pos.1 hchild
      obtain ⟨b, hb, hp⟩ := Option.bind_eq_some_iff.1 (Finset.mem_filter.1 hc).2
      have hlt := (h.parent_live c b a hb hp).1
      have hcn := h.lt hb
      obtain ⟨d, hd⟩ := Option.ne_none_iff_exists'.1
        (ih (n - c) (by omega) (by simp [hb]) rfl)
      have hmem : c ∈ (Finset.range m).filter fun c => (f' c).bind parent = some a := by
        simp [h'.lt hd, hd, hparent c b d hb hd, hp]
      exact Nat.add_pos_right _ (Finset.card_pos.2 ⟨c, hmem⟩)

/-- Another count, as long as one more or less reference from outside goes with it. -/
theorem setCount (h : Balanced n f e) (ha : f a = some b) {k : BitVec 32} {e' : Nat → Nat}
    (hk : 0 < k.toNat) (hle : k.toNat ≤ 2 ^ 31) (hcount : k.toNat + e a = (rc b).toNat + e' a)
    (hother : ∀ c, c ≠ a → e' c = e c) : Balanced n (update f a (some (setRc k b))) e' where
  bound c hc := by
    rw [update_of_ne (by have := h.lt ha; omega)]
    exact h.bound c hc
  count c d hd := by
    rw [children_setRc ha]
    by_cases hc : c = a
    · subst hc
      rw [update_self, Option.some.injEq] at hd
      subst hd
      have hb := h.count c b ha
      rw [rc_setRc]
      omega
    · rw [update_of_ne hc] at hd
      rw [hother c hc]
      exact h.count c d hd
  pos c d hd := by
    by_cases hc : c = a
    · subst hc
      rw [update_self, Option.some.injEq] at hd
      subst hd
      simpa using hk
    · rw [update_of_ne hc] at hd
      exact h.pos c d hd
  le c d hd := by
    by_cases hc : c = a
    · subst hc
      rw [update_self, Option.some.injEq] at hd
      subst hd
      simpa using hle
    · rw [update_of_ne hc] at hd
      exact h.le c d hd
  ext_live c hc := by
    by_cases hca : c = a
    · simp [hca] at hc
    · rw [update_of_ne hca] at hc
      rw [hother c hca]
      exact h.ext_live c hc
  parent_live c d p hd hp := by
    have hlive : f p ≠ none → update f a (some (setRc k b)) p ≠ none := by
      intro hne
      by_cases hpa : p = a
      · simp [hpa]
      · rwa [update_of_ne hpa]
    by_cases hc : c = a
    · subst hc
      rw [update_self, Option.some.injEq] at hd
      subst hd
      rw [parent_setRc] at hp
      exact ⟨(h.parent_live c b p ha hp).1, hlive (h.parent_live c b p ha hp).2⟩
    · rw [update_of_ne hc] at hd
      exact ⟨(h.parent_live c d p hd hp).1, hlive (h.parent_live c d p hd hp).2⟩

theorem congr {e' : Nat → Nat} (h : Balanced n f e) (he : ∀ a, e' a = e a) : Balanced n f e' := by
  rwa [funext he]

theorem take (h : Balanced n f e) (ha : f a = some b) (hpos : 0 < (rc b).toInt) :
    Balanced n (take f a b) fun c => e c + one (some a) c := by
  rw [toInt_pos] at hpos
  have hsucc : (rc b + 1).toNat = (rc b).toNat + 1 := toNat_succ (by omega)
  refine h.setCount ha (by omega) (by omega) ?_ fun c hc => ?_
  · rw [hsucc, one_self]
    omega
  · rw [one_of_ne hc.symm, Nat.add_zero]

/-- A new object, all of whose count stands for references from outside. It takes over the reference
to its parent. -/
theorem new_counted {x : Option Nat} (h : Balanced n f fun c => e c + one x c) {d : β}
    (hpos : 0 < (rc d).toNat) (hle : (rc d).toNat ≤ 2 ^ 31) (hp : parent d = x) :
    Balanced (n + 1) (update f n (some d)) fun c => e c + (rc d).toNat * one (some n) c := by
  have hn : f n = none := h.bound n (Nat.le_refl n)
  have hdead := h.children_dead hn
  have hext := h.ext_live n hn
  have hne : ∀ c b, f c = some b → c ≠ n := fun c b hc he => by simp [he, hn] at hc
  have hold : ∀ c b, update f n (some d) c = some b → c = n ∧ b = d ∨ c ≠ n ∧ f c = some b := by
    intro c b hc
    by_cases hcn : c = n
    · rw [hcn, update_self, Option.some.injEq] at hc
      exact .inl ⟨hcn, hc.symm⟩
    · rw [update_of_ne hcn] at hc
      exact .inr ⟨hcn, hc⟩
  refine ⟨fun c hc => ?_, fun a b ha => ?_, fun a b ha => ?_, fun a b ha => ?_, fun a ha => ?_,
    fun c b p hc hb => ?_⟩
  · rw [update_of_ne (by omega)]
    exact h.bound c (by omega)
  · rw [children_new hn, hp]
    rcases hold a b ha with ⟨rfl, rfl⟩ | ⟨han, ha⟩
    · rw [one_self, Nat.mul_one]
      omega
    · rw [one_of_ne (Ne.symm han), Nat.mul_zero, h.count a b ha]
      omega
  · rcases hold a b ha with ⟨rfl, rfl⟩ | ⟨-, ha⟩
    · exact hpos
    · exact h.pos a b ha
  · rcases hold a b ha with ⟨rfl, rfl⟩ | ⟨-, ha⟩
    · exact hle
    · exact h.le a b ha
  · by_cases han : a = n
    · simp [han] at ha
    · rw [update_of_ne han] at ha
      have hzero := h.ext_live a ha
      rw [one_of_ne (Ne.symm han), Nat.mul_zero]
      omega
  · rcases hold c b hc with ⟨rfl, rfl⟩ | ⟨-, hc⟩
    · have hlive : f p ≠ none := by
        intro hnone
        have hzero := h.ext_live p hnone
        rw [← hp, hb, one_self] at hzero
        omega
      obtain ⟨q, hq⟩ := Option.ne_none_iff_exists'.1 hlive
      refine ⟨h.lt hq, ?_⟩
      rwa [update_of_ne (hne p q hq)]
    · obtain ⟨hlt, hlive⟩ := h.parent_live c b p hc hb
      refine ⟨hlt, ?_⟩
      obtain ⟨q, hq⟩ := Option.ne_none_iff_exists'.1 hlive
      rwa [update_of_ne (hne p q hq)]

/-- A new object with one reference from outside, which takes over the reference to its parent. -/
theorem new {x : Option Nat} (h : Balanced n f fun c => e c + one x c) {d : β} (hd : rc d = 1)
    (hp : parent d = x) :
    Balanced (n + 1) (update f n (some d)) fun c => e c + one (some n) c := by
  have hone : (rc d).toNat = 1 := by rw [hd]; rfl
  refine (h.new_counted (by omega) (by omega) hp).congr fun c => ?_
  rw [hone, Nat.one_mul]

/-- The object with the last reference is freed, and its reference to the parent is left over. -/
theorem erase (h : Balanced n f fun c => e c + one (some a) c) (ha : f a = some b)
    (hrc : rc b = 1) : Balanced n (update f a none) fun c => e c + one (parent b) c := by
  have hcount := h.count a b ha
  rw [hrc, one_self] at hcount
  replace hcount : 1 = e a + 1 + children n f a := hcount
  have hchild : ∀ p, children n f p = children n (update f a none) p + one (parent b) p :=
    fun p => children_erase ha (h.lt ha)
  have hself : parent b ≠ some a := fun hp => by
    have := (h.parent_live a b a ha hp).1
    omega
  have hkept : ∀ c d, update f a none c = some d → c ≠ a ∧ f c = some d := by
    intro c d hc
    have hca : c ≠ a := fun he => by simp [he] at hc
    rw [update_of_ne hca] at hc
    exact ⟨hca, hc⟩
  refine ⟨fun c hc => ?_, fun c d hc => ?_, fun c d hc => h.pos c d (hkept c d hc).2,
    fun c d hc => h.le c d (hkept c d hc).2, fun c hc => ?_, fun c d p hc hp => ?_⟩
  · by_cases hca : c = a
    · rw [hca, update_self]
    · rw [update_of_ne hca]
      exact h.bound c hc
  · obtain ⟨hca, hc⟩ := hkept c d hc
    have hold := h.count c d hc
    rw [one_of_ne (Ne.symm hca), hchild] at hold
    omega
  · by_cases hca : c = a
    · subst hca
      rw [one, if_neg hself]
      omega
    · rw [update_of_ne hca] at hc
      have hzero := h.ext_live c hc
      have hpar : one (parent b) c = 0 := if_neg fun hp => (h.parent_live a b c ha hp).2 hc
      rw [one_of_ne (Ne.symm hca)] at hzero
      omega
  · replace hc := (hkept c d hc).2
    obtain ⟨hlt, hlive⟩ := h.parent_live c d p hc hp
    refine ⟨hlt, ?_⟩
    have hpa : p ≠ a := by
      rintro rfl
      have hmem : c ∈ (Finset.range n).filter fun c => (f c).bind parent = some p := by
        simp [h.lt hc, hc, hp]
      have hpos : 0 < children n f p := Finset.card_pos.2 ⟨c, hmem⟩
      omega
    rwa [update_of_ne hpa]

/-- A reference from outside is released. -/
theorem released {x : Option Nat} (hr : Released f x f')
    (h : Balanced n f fun c => e c + one x c) : Balanced n f' e := by
  induction hr with
  | none f => exact h.congr fun a => by simp
  | @keep f a b ha hpos hrc =>
    rw [toInt_pos] at hpos
    have hne : (rc b).toNat ≠ 1 := fun he => hrc (BitVec.eq_of_toNat_eq he)
    have hpred := toNat_pred hpos.1
    refine h.setCount ha (by omega) (by omega) ?_ fun c hc => ?_
    · rw [one_self]
      omega
    · rw [one_of_ne (Ne.symm hc), Nat.add_zero]
  | last ha hrc _ ih => exact ih (h.erase ha hrc)

/-- As long as no count has overflowed, a reference from outside can be released. -/
theorem exists_released {x : Option Nat} (h : Balanced n f fun c => e c + one x c)
    (hlt : ∀ a b, f a = some b → (rc b).toNat < 2 ^ 31) : ∃ f', Released f x f' := by
  cases x with
  | none => exact ⟨f, .none f⟩
  | some a =>
    -- the parents are older
    induction a using Nat.strong_induction_on generalizing f with
    | _ a ih =>
      have hlive : f a ≠ none := by
        intro hnone
        have hzero := h.ext_live a hnone
        rw [one_self] at hzero
        omega
      obtain ⟨b, hb⟩ := Option.ne_none_iff_exists'.1 hlive
      by_cases hrc : rc b = 1
      · have herase := h.erase hb hrc
        have hparent : ∃ f', Released (update f a none) (parent b) f' := by
          cases hp : parent b with
          | none => exact ⟨_, .none _⟩
          | some p =>
            rw [hp] at herase
            refine ih p (h.parent_live a b p hb hp).1 (fun c d hd => ?_) herase
            by_cases hc : c = a
            · simp [hc] at hd
            · rw [update_of_ne hc] at hd
              exact hlt c d hd
        obtain ⟨f', hf'⟩ := hparent
        exact ⟨f', .last hb hrc hf'⟩
      · exact ⟨_, .keep hb (toInt_pos.2 ⟨h.pos a b hb, hlt a b hb⟩) hrc⟩

end Balanced

end Forest

end TinyLittleOs.Lib
