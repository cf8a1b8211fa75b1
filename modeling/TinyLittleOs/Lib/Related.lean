import TinyLittleOs.Lib.Outcome

/-!
# Two computations side by side

`Related R x y` says that `x` and `y` fail with the same error or return values that `R` relates.
The rules follow the structure of a `do` block, as those of `Outcome` do.
-/

namespace TinyLittleOs.Lib

universe u v

variable {ε : Type u} {α β γ δ : Type v}

/-- `x` and `y` end in the same way. -/
def Related (R : α → β → Prop) (x : Except ε α) (y : Except ε β) : Prop :=
  match x, y with
  | .ok a, .ok b => R a b
  | .error e, .error e' => e = e'
  | _, _ => False

namespace Related

variable {R R' : α → β → Prop} {S : γ → δ → Prop} {x : Except ε α} {y : Except ε β}

@[simp] theorem ok_iff {a : α} {b : β} : Related R (.ok a : Except ε α) (.ok b) ↔ R a b := Iff.rfl

@[simp] theorem error_iff {e e' : ε} :
    Related R (.error e : Except ε α) (.error e' : Except ε β) ↔ e = e' := Iff.rfl

theorem pure {a : α} {b : β} (h : R a b) :
    Related R (Pure.pure a : Except ε α) (Pure.pure b) := h

theorem error (e : ε) : Related R (.error e : Except ε α) (.error e : Except ε β) := rfl

theorem of_ok (h : Related R x y) {a : α} (hx : x = .ok a) : ∃ b, y = .ok b ∧ R a b := by
  subst hx
  cases y with
  | ok b => exact ⟨b, rfl, h⟩
  | error e => exact h.elim

theorem of_ok' (h : Related R x y) {b : β} (hy : y = .ok b) : ∃ a, x = .ok a ∧ R a b := by
  subst hy
  cases x with
  | ok a => exact ⟨a, rfl, h⟩
  | error e => exact h.elim

theorem of_error (h : Related R x y) {e : ε} (hx : x = .error e) : y = .error e := by
  subst hx
  cases y with
  | ok b => exact h.elim
  | error e' => exact congrArg Except.error (Eq.symm h)

theorem mono (h : Related R x y) (hR : ∀ a b, R a b → R' a b) : Related R' x y := by
  cases x with
  | ok a =>
    cases y with
    | ok b => exact hR a b h
    | error e => exact h
  | error e =>
    cases y with
    | ok b => exact h
    | error e' => exact h

theorem bind (h : Related R x y) {f : α → Except ε γ} {g : β → Except ε δ}
    (hf : ∀ a b, R a b → Related S (f a) (g b)) : Related S (x >>= f) (y >>= g) := by
  cases x with
  | ok a =>
    cases y with
    | ok b => exact hf a b h
    | error e => exact h.elim
  | error e =>
    cases y with
    | ok b => exact h.elim
    | error e' => exact h

theorem ite {c c' : Prop} [Decidable c] [Decidable c'] {x' : Except ε α} {y' : Except ε β}
    (hc : c ↔ c') (h : c → Related R x y) (h' : ¬ c → Related R x' y') :
    Related R (if c then x else x') (if c' then y else y') := by
  by_cases hin : c
  · rw [if_pos hin, if_pos (hc.1 hin)]
    exact h hin
  · rw [if_neg hin, if_neg (mt hc.2 hin)]
    exact h' hin

theorem mapError {ε' : Type u} (h : Related R x y) (f : ε → ε') :
    Related R (x.mapError f) (y.mapError f) := by
  cases x with
  | ok a =>
    cases y with
    | ok b => exact h
    | error e => exact h.elim
  | error e =>
    cases y with
    | ok b => exact h.elim
    | error e' => exact congrArg f h

/-- A loop whose rounds keep the relation. -/
theorem foldlM {f : α → γ → Except ε α} {g : β → γ → Except ε β} {l : List γ}
    (hf : ∀ a b, ∀ i ∈ l, R a b → Related R (f a i) (g b i)) {a : α} {b : β} (h : R a b) :
    Related R (l.foldlM f a) (l.foldlM g b) := by
  induction l generalizing a b with
  | nil => exact h
  | cons i l ih =>
    rw [List.foldlM_cons, List.foldlM_cons]
    refine (hf a b i List.mem_cons_self h).bind fun a' b' h' => ?_
    exact ih (fun a b j hj => hf a b j (List.mem_cons_of_mem i hj)) h'

end Related

end TinyLittleOs.Lib
