import Mathlib.Tactic.Common

/-!
# Postconditions of computations that may fail

`Outcome x Q E` says that `x` returns a value with `Q` or fails with an error in `E`. The
rules follow the structure of a `do` block: `pure`, `throw`, sequencing, a choice and a fold.
-/

namespace TinyLittleOs.Lib

universe u v

variable {ε : Type u} {α β : Type v}

@[simp] theorem ok_bind (a : α) (f : α → Except ε β) : (Except.ok a >>= f) = f a := rfl

@[simp] theorem error_bind (e : ε) (f : α → Except ε β) :
    ((Except.error e : Except ε α) >>= f) = .error e := rfl

theorem bind_eq_ok {x : Except ε α} {f : α → Except ε β} {b : β} :
    (x >>= f) = .ok b ↔ ∃ a, x = .ok a ∧ f a = .ok b := by
  cases x <;> simp

theorem mapError_eq_ok {ε' : Type u} {x : Except ε α} {f : ε → ε'} {a : α} :
    x.mapError f = .ok a ↔ x = .ok a := by
  cases x <;> simp [Except.mapError]

theorem eq_ok_of_toOption {x : Except ε α} {a : α} (h : x.toOption = some a) : x = .ok a := by
  cases x with
  | ok b => exact congrArg Except.ok (Option.some.inj h)
  | error e => simp [Except.toOption] at h

/-- `x` returns a value that satisfies `Q`, or fails with an error that satisfies `E`. -/
def Outcome (x : Except ε α) (Q : α → Prop) (E : ε → Prop) : Prop :=
  match x with
  | .ok a => Q a
  | .error e => E e

namespace Outcome

variable {Q Q' : α → Prop} {R : β → Prop} {E E' : ε → Prop}

@[simp] theorem ok_iff {a : α} : Outcome (.ok a) Q E ↔ Q a := Iff.rfl

@[simp] theorem error_iff {e : ε} : Outcome (.error e : Except ε α) Q E ↔ E e := Iff.rfl

theorem of_ok {x : Except ε α} (h : Outcome x Q E) {a : α} (hx : x = .ok a) : Q a := by
  subst hx
  exact h

theorem of_error {x : Except ε α} (h : Outcome x Q E) {e : ε} (hx : x = .error e) : E e := by
  subst hx
  exact h

theorem intro {x : Except ε α} (hQ : ∀ a, x = .ok a → Q a) (hE : ∀ e, x = .error e → E e) :
    Outcome x Q E := by
  cases x with
  | ok a => exact hQ a rfl
  | error e => exact hE e rfl

theorem mono {x : Except ε α} (h : Outcome x Q E) (hQ : ∀ a, Q a → Q' a) (hE : ∀ e, E e → E' e) :
    Outcome x Q' E' := by
  cases x with
  | ok a => exact hQ a h
  | error e => exact hE e h

theorem and {x : Except ε α} (h : Outcome x Q E) (h' : Outcome x Q' E') :
    Outcome x (fun a => Q a ∧ Q' a) (fun e => E e ∧ E' e) := by
  cases x with
  | ok a => exact ⟨h, h'⟩
  | error e => exact ⟨h, h'⟩

/-- Two postconditions where any error will do. -/
theorem both {x : Except ε α} (h : Outcome x Q fun _ => True) (h' : Outcome x Q' fun _ => True) :
    Outcome x (fun a => Q a ∧ Q' a) fun _ => True :=
  (h.and h').mono (fun _ h => h) fun _ _ => trivial

theorem bind {x : Except ε α} {f : α → Except ε β} (hx : Outcome x Q E)
    (hf : ∀ a, Q a → Outcome (f a) R E) : Outcome (x >>= f) R E := by
  cases x with
  | ok a => exact hf a hx
  | error e => exact hx

theorem ite {c : Prop} [Decidable c] {x y : Except ε α} (hx : c → Outcome x Q E)
    (hy : ¬ c → Outcome y Q E) : Outcome (if c then x else y) Q E := by
  split
  · exact hx ‹_›
  · exact hy ‹_›

/-- A loop, where `Q i` holds after `i` rounds. -/
theorem foldlM_index {f : α → β → Except ε α} {l : List β} {Q : Nat → α → Prop} {k : Nat}
    (hf : ∀ a i (h : i < l.length), Q (k + i) a → Outcome (f a l[i]) (Q (k + i + 1)) E) {a : α}
    (ha : Q k a) : Outcome (l.foldlM f a) (Q (k + l.length)) E := by
  induction l generalizing a k with
  | nil => exact ha
  | cons x l ih =>
    rw [List.foldlM_cons]
    refine (hf a 0 (by simp) ha).bind fun b hb => ?_
    have htail := ih (k := k + 1) (a := b) ?_ hb
    · rwa [List.length_cons, ← Nat.add_assoc, Nat.add_right_comm]
    · intro c i hi hc
      have := hf c (i + 1) (by simpa using hi)
      rw [← Nat.add_assoc, Nat.add_right_comm] at this
      exact this hc

/-- A loop keeps what each of its rounds keeps. -/
theorem foldlM {f : α → β → Except ε α} {l : List β} (hf : ∀ a, ∀ i ∈ l, Q a → Outcome (f a i) Q E)
    {a : α} (ha : Q a) : Outcome (l.foldlM f a) Q E :=
  foldlM_index (Q := fun _ => Q) (k := 0) (fun a i hi => hf a l[i] (List.getElem_mem hi)) ha

end Outcome

end TinyLittleOs.Lib
