import Mathlib.Data.List.Nodup
import Mathlib.Logic.Function.Basic

/-!
# Queues and owners

A family of queues whose elements have one link each, so that an element may be on one queue at a
time (`Placed`), and things that have one owner at a time (`Owned`).  A step moves one element, or
one party takes or gives up one thing.
-/

namespace Custody

section Queues

variable {Q α : Type} [DecidableEq Q] [DecidableEq α]

/-- Put an element at the end of a queue. -/
def enqueue (f : Q → List α) (q : Q) (x : α) : Q → List α := Function.update f q (f q ++ [x])

/-- Take an element off a queue. -/
def dequeue (f : Q → List α) (q : Q) (x : α) : Q → List α := Function.update f q ((f q).erase x)

/-- Every element is on the queue its place says, once, and on no other. -/
structure Placed (f : Q → List α) (place : α → Option Q) : Prop where
  nodup : ∀ q, (f q).Nodup
  mem : ∀ {q x}, x ∈ f q ↔ place x = some q

variable {f : Q → List α} {place place' : α → Option Q} {q : Q} {x : α}

theorem Placed.enqueue
    (h : Placed f place) (hx : place x = none) :
  Placed (enqueue f q x) (Function.update place x (some q))
  := by
  have hout : ∀ p, x ∉ f p := by
    intro p hp
    rw [h.mem, hx] at hp
    cases hp
  refine ⟨?_, ?_⟩
  · intro p
    by_cases hp : p = q
    · subst hp
      rw [Custody.enqueue, Function.update_self, List.nodup_append]
      refine ⟨h.nodup p, List.nodup_singleton x, ?_⟩
      intro a ha b hb hab
      rw [List.mem_singleton.mp hb] at hab
      exact hout p (hab ▸ ha)
    · rw [Custody.enqueue, Function.update_of_ne hp]
      exact h.nodup p
  · intro p y
    by_cases hy : y = x
    · subst hy
      rw [Function.update_self, Option.some.injEq]
      by_cases hp : p = q
      · subst hp
        simp [Custody.enqueue]
      · rw [Custody.enqueue, Function.update_of_ne hp]
        exact ⟨fun hin => absurd hin (hout p), fun heq => absurd heq.symm hp⟩
    · rw [Function.update_of_ne hy, ← h.mem]
      by_cases hp : p = q
      · subst hp
        simp [Custody.enqueue, hy]
      · rw [Custody.enqueue, Function.update_of_ne hp]

theorem Placed.dequeue
    (h : Placed f place) (hx : place x = some q) :
  Placed (dequeue f q x) (Function.update place x none)
  := by
  refine ⟨?_, ?_⟩
  · intro p
    by_cases hp : p = q
    · subst hp
      rw [Custody.dequeue, Function.update_self]
      exact (h.nodup p).erase x
    · rw [Custody.dequeue, Function.update_of_ne hp]
      exact h.nodup p
  · intro p y
    by_cases hy : y = x
    · subst hy
      rw [Function.update_self]
      by_cases hp : p = q
      · subst hp
        rw [Custody.dequeue, Function.update_self]
        simp [(h.nodup p).not_mem_erase]
      · rw [Custody.dequeue, Function.update_of_ne hp, h.mem, hx]
        simp [Ne.symm hp]
    · rw [Function.update_of_ne hy, ← h.mem]
      by_cases hp : p = q
      · subst hp
        rw [Custody.dequeue, Function.update_self, List.mem_erase_of_ne hy]
      · rw [Custody.dequeue, Function.update_of_ne hp]

/-- What becomes of the queues when one element goes from a place to another. -/
inductive Shifts (f f' : Q → List α) (x : α) : Option Q → Option Q → Prop
  | same {o : Option Q} (h : f' = f) : Shifts f f' x o o
  | on {q : Q} (h : f' = enqueue f q x) : Shifts f f' x none (some q)
  | off {q : Q} (h : f' = dequeue f q x) : Shifts f f' x (some q) none

theorem Placed.shifts
    (h : Placed f place) {f' : Q → List α} {o o' : Option Q} (hx : place x = o)
    (hs : Shifts f f' x o o') :
  Placed f' (Function.update place x o')
  := by
  cases hs with
  | same heq =>
      rw [heq, ← hx, Function.update_eq_self]
      exact h
  | on heq =>
      rw [heq]
      exact h.enqueue hx
  | off heq =>
      rw [heq]
      exact h.dequeue hx

end Queues

section Owners

variable {ι K : Type} [DecidableEq ι] [DecidableEq K]

/-- The owners of things and what each party holds agree. -/
def Owned (own : K → Option ι) (holds : ι → Option K) : Prop :=
  ∀ k i, own k = some i ↔ holds i = some k

variable {own : K → Option ι} {holds : ι → Option K} {i : ι} {k : K}

/-- A party takes a thing nobody owns. -/
theorem Owned.take
    (h : Owned own holds) (hk : own k = none) (hi : holds i = none) :
  Owned (Function.update own k (some i)) (Function.update holds i (some k))
  := by
  intro l j
  by_cases hl : l = k
  · subst hl
    by_cases hj : j = i
    · subst hj
      simp
    · rw [Function.update_self, Function.update_of_ne hj, ← h, hk]
      simp [Ne.symm hj]
  · by_cases hj : j = i
    · subst hj
      rw [Function.update_self, Function.update_of_ne hl, h, hi]
      simp [Ne.symm hl]
    · rw [Function.update_of_ne hl, Function.update_of_ne hj]
      exact h l j

/-- A party gives up what it holds. -/
theorem Owned.drop
    (h : Owned own holds) (hi : holds i = some k) :
  Owned (Function.update own k none) (Function.update holds i none)
  := by
  have hk : own k = some i := (h k i).mpr hi
  intro l j
  by_cases hl : l = k
  · subst hl
    by_cases hj : j = i
    · subst hj
      simp
    · rw [Function.update_self, Function.update_of_ne hj, ← h, hk]
      simp [Ne.symm hj]
  · by_cases hj : j = i
    · subst hj
      rw [Function.update_self, Function.update_of_ne hl, h, hi]
      simp [Ne.symm hl]
    · rw [Function.update_of_ne hl, Function.update_of_ne hj]
      exact h l j

/-- What becomes of the owners when a party goes from holding one thing, or none, to another. -/
inductive Passes (own own' : K → Option ι) (i : ι) : Option K → Option K → Prop
  | same {o : Option K} (h : own' = own) : Passes own own' i o o
  | take {k : K} (hk : own k = none) (h : own' = Function.update own k (some i)) :
      Passes own own' i none (some k)
  | drop {k : K} (h : own' = Function.update own k none) : Passes own own' i (some k) none

omit [DecidableEq ι] in
theorem Passes.of_eq
    {own' : K → Option ι} {o o' : Option K} (ho : o = o') (h : own' = own) :
  Passes own own' i o o'
  := by
  subst ho
  exact .same h

theorem Owned.passes
    (h : Owned own holds) {own' : K → Option ι} {o o' : Option K} (hi : holds i = o)
    (hp : Passes own own' i o o') :
  Owned own' (Function.update holds i o')
  := by
  cases hp with
  | same heq =>
      rw [heq, ← hi, Function.update_eq_self]
      exact h
  | take hk heq =>
      rw [heq]
      exact h.take hk hi
  | drop heq =>
      rw [heq]
      exact h.drop hi

end Owners

end Custody
