import Mathlib.Logic.Relation

/-!
# Loops by rounds

A loop with fuel that either returns or goes on to a next state. It ends when a measure of the
states falls in every round, and then no state is visited twice.
-/

namespace TinyLittleOs.Lib

variable {S R : Type} {loop : Nat → S → Option R} {round : S → S → Prop} {need : Nat}
  {ok : S → Prop}

/-- The states that the rounds reach from `x`. -/
abbrev Visits (round : S → S → Prop) (x y : S) : Prop := Relation.ReflTransGen round x y

/-- With some fuel left over, the loop returns from a state, or goes on in a round. -/
structure Loops (loop : Nat → S → Option R) (round : S → S → Prop) (need : Nat) (ok : S → Prop) :
    Prop where
  step : ∀ fuel x, need ≤ fuel → ok x →
    (∃ r, loop (fuel + 1) x = some r) ∨ ∃ y, round x y ∧ loop (fuel + 1) x = loop fuel y
  mono : ∀ fuel fuel' x r, fuel ≤ fuel' → loop fuel x = some r → loop fuel' x = some r

/-- The loop returns the same from some fuel on. -/
def Settles (loop : Nat → S → Option R) (x : S) :
    Prop := ∃ fuel₀ r, ∀ fuel ≥ fuel₀, loop fuel x = some r

/-- The measure falls in every round from `x` on. -/
def Falls (round : S → S → Prop) (measure : S → Nat) (x : S) : Prop :=
  ∀ y z, Visits round x y → round y z → measure z < measure y

variable {measure : S → Nat} {x : S}

theorem Falls.next (h : Falls round measure x) {y : S} (hy : round x y) : Falls round measure y :=
  fun _ _ hv hr => h _ _ (.head hy hv) hr

theorem Falls.lt (h : Falls round measure x) {y z : S} (hy : Visits round x y)
    (hz : Relation.TransGen round y z) : measure z < measure y := by
  induction hz with
  | single hr => exact h _ _ hy hr
  | tail hz hr ih => exact Nat.lt_trans (h _ _ (hy.trans hz.to_reflTransGen) hr) ih

theorem Loops.some_of_falls (h : Loops loop round need ok) {n : Nat} (hn : measure x ≤ n)
    (hok : ∀ y, Visits round x y → ok y) (hfall : Falls round measure x) {fuel : Nat}
    (hfuel : need + n < fuel) : ∃ r, loop fuel x = some r := by
  induction n generalizing x fuel with
  | zero =>
    obtain ⟨fuel, rfl⟩ : ∃ k, fuel = k + 1 := ⟨fuel - 1, by omega⟩
    rcases h.step fuel x (by omega) (hok x .refl) with hr | ⟨y, hy, -⟩
    · exact hr
    · have hlt := hfall x y .refl hy
      omega
  | succ n ih =>
    obtain ⟨fuel, rfl⟩ : ∃ k, fuel = k + 1 := ⟨fuel - 1, by omega⟩
    rcases h.step fuel x (by omega) (hok x .refl) with hr | ⟨y, hy, hnext⟩
    · exact hr
    · have hlt := hfall x y .refl hy
      rw [hnext]
      exact ih (by omega) (fun z hz => hok z (.head hy hz)) (hfall.next hy) (by omega)

theorem Loops.settles (h : Loops loop round need ok) (hok : ∀ y, Visits round x y → ok y)
    (hfall : Falls round measure x) : Settles loop x := by
  obtain ⟨r, hr⟩ := h.some_of_falls (Nat.le_refl _) hok hfall (Nat.lt_succ_self _)
  exact ⟨_, r, fun fuel hfuel => h.mono _ fuel x r hfuel hr⟩

end TinyLittleOs.Lib
