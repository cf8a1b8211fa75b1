import Mathlib.Data.Set.Insert
import Mathlib.Logic.Function.Basic

/-!
# Two-level page tables

A memory is a family of pages with entries. A page may be a directory, whose entries lead to
tables, and several directories may share tables. `walk` is the entry that a directory has for an
address, zero where it has no table. A set of directories is `Separate` when no table is a
directory and a table always stands at one index, so that a write to an entry of a table is a
change at one address.
-/

namespace TinyLittleOs.Lib

/-- The entries of each page. -/
abbrev PageMem (P I W : Type*) := P → I → W

namespace PageMem

variable {P I W : Type*}

/-- Write one entry. -/
def set [DecidableEq P] [DecidableEq I] (m : PageMem P I W) (p : P) (i : I) (w : W) :
    PageMem P I W :=
  Function.update m p (Function.update (m p) i w)

section

variable [DecidableEq P] [DecidableEq I] {m : PageMem P I W} {p q : P} {i j : I} {w : W}

theorem set_self : m.set p i w p i = w := by
  rw [set, Function.update_self, Function.update_self]

theorem set_of_ne_index (h : j ≠ i) : m.set p i w p j = m p j := by
  rw [set, Function.update_self, Function.update_of_ne h]

theorem set_of_ne (h : q ≠ p) : m.set p i w q = m q := by
  rw [set, Function.update_of_ne h]

theorem set_of_not (h : ¬ (q = p ∧ j = i)) : m.set p i w q j = m q j := by
  by_cases hq : q = p
  · subst hq
    exact set_of_ne_index fun hj => h ⟨rfl, hj⟩
  · rw [set_of_ne hq]

end

variable (next : W → Option P)

/-- The entry for the index `i` in the directory `a` and `j` in the table, where `next` is the page
that a directory entry leads to. -/
def walk [Zero W] (m : PageMem P I W) (a : P) (i j : I) : W :=
  match next (m a i) with
  | some t => m t j
  | none => 0

/-- The directories and their tables. -/
def Refs (D : Set P) (m : PageMem P I W) (p : P) : Prop :=
  p ∈ D ∨ ∃ a ∈ D, ∃ i, next (m a i) = some p

/-- Tables are no directories, and each stands at one index. -/
structure Separate (D : Set P) (m : PageMem P I W) : Prop where
  table : ∀ a ∈ D, ∀ i t, next (m a i) = some t → t ∉ D
  index : ∀ a ∈ D, ∀ b ∈ D, ∀ i j t, next (m a i) = some t → next (m b j) = some t → i = j

section Walk

variable {next} {D : Set P} {m m' : PageMem P I W} {a b q t : P} {i j : I}

theorem walk_of_some [Zero W] (h : next (m a i) = some t) : m.walk next a i j = m t j := by
  rw [walk, h]

theorem walk_of_none [Zero W] (h : next (m a i) = none) : m.walk next a i j = 0 := by
  rw [walk, h]

theorem refs_dir (h : a ∈ D) : m.Refs next D a := Or.inl h

theorem refs_table (h : a ∈ D) (ht : next (m a i) = some t) : m.Refs next D t :=
  Or.inr ⟨a, h, i, ht⟩

/-! ## Writes elsewhere -/

section Agree

variable (h : ∀ p, m.Refs next D p → m' p = m p)
include h

theorem walk_congr [Zero W] (ha : a ∈ D) (i j : I) : m'.walk next a i j = m.walk next a i j := by
  rw [walk, walk, h a (refs_dir ha)]
  cases ht : next (m a i) with
  | none => rfl
  | some t => exact congrFun (h t (refs_table ha ht)) j

theorem refs_congr (p : P) : m'.Refs next D p ↔ m.Refs next D p := by
  rw [Refs, Refs]
  apply or_congr_right
  constructor
  · rintro ⟨a, ha, i, ht⟩
    rw [h a (refs_dir ha)] at ht
    exact ⟨a, ha, i, ht⟩
  · rintro ⟨a, ha, i, ht⟩
    rw [← h a (refs_dir ha)] at ht
    exact ⟨a, ha, i, ht⟩

theorem Separate.congr (hs : m.Separate next D) : m'.Separate next D := by
  refine ⟨fun a ha i t ht => ?_, fun a ha b hb i j t hi hj => ?_⟩
  · rw [h a (refs_dir ha)] at ht
    exact hs.table a ha i t ht
  · rw [h a (refs_dir ha)] at hi
    rw [h b (refs_dir hb)] at hj
    exact hs.index a ha b hb i j t hi hj

end Agree

/-! ## Fewer and more directories -/

theorem Refs.mono {D' : Set P} (h : m.Refs next D' q) (hD : D' ⊆ D) : m.Refs next D q := by
  rcases h with hq | ⟨a, ha, i, ht⟩
  · exact refs_dir (hD hq)
  · exact refs_table (hD ha) ht

theorem Separate.mono {D' : Set P} (hs : m.Separate next D) (hD : D' ⊆ D) : m.Separate next D' :=
  ⟨fun a ha i t ht hin => hs.table a (hD ha) i t ht (hD hin),
    fun a ha b hb i j t hi hj => hs.index a (hD ha) b (hD hb) i j t hi hj⟩

section Copy

variable (hagree : ∀ p, m.Refs next D p → m' p = m p) (ha : a ∈ D) (hcopy : m' q = m a)
include hagree ha hcopy

/-- A page that becomes a copy of a directory shares its tables. -/
theorem next_of_copy (hb : b ∈ insert q D) (h : next (m' b i) = some t) :
    ∃ c ∈ D, next (m c i) = some t := by
  rcases hb with rfl | hb
  · rw [hcopy] at h
    exact ⟨a, ha, h⟩
  · rw [hagree b (refs_dir hb)] at h
    exact ⟨b, hb, h⟩

theorem refs_of_copy {p : P} (h : m'.Refs next (insert q D) p) : m.Refs next D p ∨ p = q := by
  rcases h with (rfl | hp) | ⟨b, hb, i, ht⟩
  · exact Or.inr rfl
  · exact Or.inl (refs_dir hp)
  · obtain ⟨c, hc, ht⟩ := next_of_copy hagree ha hcopy hb ht
    exact Or.inl (refs_table hc ht)

theorem Separate.copy (hs : m.Separate next D) (hq : ¬ m.Refs next D q) :
    m'.Separate next (insert q D) := by
  refine ⟨fun b hb i t ht => ?_, fun b hb c hc i j t hi hj => ?_⟩
  · obtain ⟨c, hc, ht⟩ := next_of_copy hagree ha hcopy hb ht
    rintro (rfl | hin)
    · exact hq (refs_table hc ht)
    · exact hs.table c hc i t ht hin
  · obtain ⟨b', hb', hi⟩ := next_of_copy hagree ha hcopy hb hi
    obtain ⟨c', hc', hj⟩ := next_of_copy hagree ha hcopy hc hj
    exact hs.index b' hb' c' hc' i j t hi hj

end Copy

variable [DecidableEq P] [DecidableEq I] {w : W}

/-! ## An entry of a table -/

section Entry

variable (hs : m.Separate next D) (ha : a ∈ D) (ht : next (m a i) = some t)
include hs ha ht

/-- Directories stay as they are. -/
theorem Separate.set_dir (hb : b ∈ D) : m.set t j w b = m b :=
  set_of_ne fun heq => hs.table a ha i t ht (heq ▸ hb)

theorem Separate.set_refs (p : P) : (m.set t j w).Refs next D p ↔ m.Refs next D p := by
  rw [Refs, Refs]
  apply or_congr_right
  constructor
  · rintro ⟨b, hb, k, hp⟩
    rw [hs.set_dir ha ht hb] at hp
    exact ⟨b, hb, k, hp⟩
  · rintro ⟨b, hb, k, hp⟩
    rw [← hs.set_dir ha ht (j := j) (w := w) hb] at hp
    exact ⟨b, hb, k, hp⟩

theorem Separate.set : (m.set t j w).Separate next D := by
  refine ⟨fun b hb k p hp => ?_, fun b hb c hc k l p hk hl => ?_⟩
  · rw [hs.set_dir ha ht hb] at hp
    exact hs.table b hb k p hp
  · rw [hs.set_dir ha ht hb] at hk
    rw [hs.set_dir ha ht hc] at hl
    exact hs.index b hb c hc k l p hk hl

theorem Separate.walk_set_self [Zero W] : (m.set t j w).walk next a i j = w := by
  have ht' : next ((m.set t j w) a i) = some t := by
    rw [hs.set_dir ha ht ha]
    exact ht
  rw [walk_of_some ht', set_self]

/-- Every other address keeps its entry, in all directories. -/
theorem Separate.walk_set_of_ne [Zero W] (hb : b ∈ D) {k l : I} (hne : ¬ (k = i ∧ l = j)) :
    (m.set t j w).walk next b k l = m.walk next b k l := by
  rw [walk, walk, hs.set_dir ha ht hb]
  cases hk : next (m b k) with
  | none => rfl
  | some u =>
    dsimp only
    by_cases hu : u = t
    · subst hu
      have hki : k = i := hs.index b hb a ha k i u hk ht
      exact set_of_ne_index fun hl => hne ⟨hki, hl⟩
    · rw [set_of_ne hu]

end Entry

/-! ## A new table -/

section Table

variable (hs : m.Separate next D) (ha : a ∈ D) (hi : next (m a i) = none)
  (hq : ¬ m.Refs next D q) (hw : next w = some q)
include ha hi hq hw

omit hq in
theorem next_set_dir {k : I} {p : P} (h : next (m.set a i w b k) = some p) :
    b = a ∧ k = i ∧ p = q ∨ next (m b k) = some p ∧ ¬ (b = a ∧ k = i) := by
  by_cases hat : b = a ∧ k = i
  · obtain ⟨rfl, rfl⟩ := hat
    rw [set_self, hw] at h
    exact Or.inl ⟨rfl, rfl, (Option.some.inj h).symm⟩
  · rw [set_of_not hat] at h
    exact Or.inr ⟨h, hat⟩

theorem refs_set_dir (p : P) : (m.set a i w).Refs next D p ↔ m.Refs next D p ∨ p = q := by
  constructor
  · rintro (hp | ⟨b, hb, k, hp⟩)
    · exact Or.inl (refs_dir hp)
    · rcases next_set_dir ha hi hw hp with ⟨-, -, hpq⟩ | ⟨hp, -⟩
      · exact Or.inr hpq
      · exact Or.inl (refs_table hb hp)
  · rintro ((hp | ⟨b, hb, k, hp⟩) | rfl)
    · exact refs_dir hp
    · have hne : ¬ (b = a ∧ k = i) := by
        rintro ⟨rfl, rfl⟩
        rw [hi] at hp
        cases hp
      exact refs_table hb (i := k) (by rw [set_of_not hne, hp])
    · exact refs_table ha (i := i) (by rw [set_self, hw])

include hs in
theorem Separate.set_table : (m.set a i w).Separate next D := by
  have hnot : ∀ b ∈ D, ∀ k, next (m b k) ≠ some q := fun b hb k hk => hq (refs_table hb hk)
  refine ⟨fun b hb k p hp => ?_, fun b hb c hc k l p hk hl => ?_⟩
  · rcases next_set_dir ha hi hw hp with ⟨-, -, rfl⟩ | ⟨hp, -⟩
    · exact fun hD => hq (refs_dir hD)
    · exact hs.table b hb k p hp
  · rcases next_set_dir ha hi hw hk with ⟨-, rfl, rfl⟩ | ⟨hk, -⟩
    · rcases next_set_dir ha hi hw hl with ⟨-, rfl, -⟩ | ⟨hl, -⟩
      · rfl
      · exact absurd hl (hnot c hc l)
    · rcases next_set_dir ha hi hw hl with ⟨-, -, rfl⟩ | ⟨hl, -⟩
      · exact absurd hk (hnot b hb k)
      · exact hs.index b hb c hc k l p hk hl

/-- A table of zeros shows nothing. -/
theorem walk_set_table [Zero W] (hzero : ∀ j, m q j = 0) (hb : b ∈ D) (hs : m.Separate next D)
    (k l : I) : (m.set a i w).walk next b k l = m.walk next b k l := by
  have hqa : q ≠ a := fun h => hq (h ▸ refs_dir ha)
  by_cases hat : b = a ∧ k = i
  · obtain ⟨rfl, rfl⟩ := hat
    have hnext : next (m.set b k w b k) = some q := by rw [set_self, hw]
    rw [walk_of_some hnext, walk_of_none hi, set_of_ne hqa, hzero]
  · rw [walk, walk, set_of_not hat]
    cases hk : next (m b k) with
    | none => rfl
    | some t =>
      have hta : t ≠ a := fun h => hs.table b hb k t hk (h ▸ ha)
      dsimp only
      rw [set_of_ne hta]

end Table

end Walk

end PageMem

end TinyLittleOs.Lib
