import Mathlib.Tactic.Basic

/-!
# Outcomes of fallible code

`Ensures E Q x` says of a computation `x` that may fail that an error satisfies `E` and a result
satisfies `Q`.  The rules follow the structure of `do` blocks.
-/

namespace Outcome

variable {ε α β : Type} {E : ε → Prop} {Q R : α → Prop}

/-- A result satisfies `Q`, an error satisfies `E`. -/
def Ensures (E : ε → Prop) (Q : α → Prop) : Except ε α → Prop
  | .ok a => Q a
  | .error e => E e

theorem Ensures.ok {a : α} (h : Q a) : Ensures E Q (.ok a) := h

theorem Ensures.error {e : ε} (h : E e) : Ensures E Q (.error e : Except ε α) := h

theorem Ensures.mono {x : Except ε α} (h : Ensures E Q x) (hQ : ∀ a, Q a → R a) :
    Ensures E R x := by
  cases x with
  | ok a => apply hQ a h
  | error e => apply h

/-- Sequencing. -/
theorem Ensures.bind
    {x : Except ε α} {f : α → Except ε β} {S : β → Prop} (h : Ensures E Q x)
    (hf : ∀ a, Q a → Ensures E S (f a)) :
  Ensures E S (x >>= f)
  := by
  cases x with
  | ok a => apply hf a h
  | error e => apply h

/-- What is ensured of a computation holds of its result. -/
theorem Ensures.of_eq_ok {x : Except ε α} (h : Ensures E Q x) {a : α} (hx : x = .ok a) : Q a := by
  subst hx
  apply h

end Outcome
