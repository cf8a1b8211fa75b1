import Mathlib.Init

/-!
# Programs that restore a state

A program over a state that does what a pure one does, and leaves the state as it was. Brackets
whose end takes back what their beginning did restore the state around any body that does.
-/

namespace TinyLittleOs.Lib

variable {σ α β : Type}

/-- A run of the program returns what `o` does, and the state as it was. -/
def Restores (k : StateT σ Option α) (o : Option α) : Prop :=
  ∀ s r s', k s = some (r, s') → o = some r ∧ s' = s

/-- The body between its beginning and its end. -/
def bracket (up down : StateT σ Option Unit) (body : StateT σ Option α) : StateT σ Option α := do
  up
  let r ← body
  down
  pure r

/-- The end takes back what the beginning did. -/
def Undoes (down up : StateT σ Option Unit) : Prop :=
  ∀ s s₁ s₂, up s = some ((), s₁) → down s₁ = some ((), s₂) → s₂ = s

theorem stateT_bind_eq_some {k : StateT σ Option α} {f : α → StateT σ Option β} {s : σ} {r : β × σ}
    (h : (k >>= f) s = some r) : ∃ a s', k s = some (a, s') ∧ f a s' = some r := by
  obtain ⟨⟨a, s'⟩, hk, hf⟩ := Option.bind_eq_some_iff.1 h
  exact ⟨a, s', hk, hf⟩

namespace Restores

theorem pure (a : α) : Restores (Pure.pure a : StateT σ Option α) (some a) := by
  intro s r s' h
  cases h
  exact ⟨rfl, rfl⟩

theorem lift (o : Option α) : Restores (StateT.lift o : StateT σ Option α) o := by
  intro s r s' h
  cases o with
  | none => cases h
  | some a =>
    cases h
    exact ⟨rfl, rfl⟩

theorem bind {k : StateT σ Option α} {f : α → StateT σ Option β} {o : Option α}
    {g : α → Option β} (hk : Restores k o) (hf : ∀ a, Restores (f a) (g a)) :
    Restores (k >>= f) (o >>= g) := by
  intro s r s' h
  obtain ⟨a, s₁, hk', hf'⟩ := stateT_bind_eq_some h
  obtain ⟨rfl, rfl⟩ := hk _ _ _ hk'
  exact hf a _ _ _ hf'

/-- A program that returns `a`, and then one that goes on with it. -/
theorem bind_of_some {k : StateT σ Option α} {a : α} {f : α → StateT σ Option β} {o : Option β}
    (hk : Restores k (some a)) (hf : Restores (f a) o) : Restores (k >>= f) o := by
  intro s r s' h
  obtain ⟨b, s₁, hk', hf'⟩ := stateT_bind_eq_some h
  obtain ⟨he, rfl⟩ := hk _ _ _ hk'
  obtain rfl := Option.some.inj he
  exact hf _ _ _ hf'

theorem bracket {up down : StateT σ Option Unit} (h : Undoes down up) {k : StateT σ Option α}
    {o : Option α} (hk : Restores k o) : Restores (Lib.bracket up down k) o := by
  intro s r s' hrun
  obtain ⟨⟨⟩, s₁, hup, hrun⟩ := stateT_bind_eq_some hrun
  obtain ⟨a, s₂, hbody, hrun⟩ := stateT_bind_eq_some hrun
  obtain ⟨⟨⟩, s₃, hdown, hrun⟩ := stateT_bind_eq_some hrun
  cases hrun
  obtain ⟨rfl, rfl⟩ := hk _ _ _ hbody
  exact ⟨rfl, h _ _ _ hup hdown⟩

end Restores

end TinyLittleOs.Lib
