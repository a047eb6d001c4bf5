import UDepot.Lib.Transition
import Mathlib.Order.SetNotation

/-!
# Locks taken in order

Threads that take locks one at a time.  A thread has a task, and the locks of a task are taken in
the order in which `locks` lists them; when it has them all it works, and then gives them all back.
A lock that is not free makes a thread wait.

If the list of every task is ascending, no threads wait for each other in a circle
(`State.Inv.no_deadlock`): a thread that waits for a lock waits for one above all it has.
-/

namespace OrderedLocks

open Transition

variable {κ : Type}

/-- A thread: its task, the locks it has, and those it has still to take. -/
structure Thread (κ : Type) where
  task : κ
  held : List Nat
  todo : List Nat

/-- The threads, and the owners of the locks. -/
structure State (κ : Type) where
  threads : Nat → Option (Thread κ)
  owner : Nat → Option Nat

inductive Act (κ : Type)
  | start (i : Nat) (task : κ)
  | take (i : Nat)
  | giveBack (i : Nat)

namespace State

/-- No thread has begun. -/
def init : State κ := ⟨fun _ => none, fun _ => none⟩

def step (locks : κ → List Nat) (s : State κ) : Act κ → Option (State κ)
  | .start i task =>
      match s.threads i with
      | some _ => none
      | none => some { s with threads := Function.update s.threads i (some ⟨task, [], locks task⟩) }
  | .take i =>
      match s.threads i with
      | some ⟨task, held, l :: todo⟩ =>
          if s.owner l = none then
            some ⟨Function.update s.threads i (some ⟨task, l :: held, todo⟩),
              Function.update s.owner l (some i)⟩
          else none
      | _ => none
  | .giveBack i =>
      match s.threads i with
      | some ⟨_, held, []⟩ =>
          some ⟨Function.update s.threads i none, fun l => if l ∈ held then none else s.owner l⟩
      | _ => none

/-- A thread waits for a lock that another has. -/
def WaitsFor (s : State κ) (i j : Nat) : Prop :=
  ∃ t l todo, s.threads i = some t ∧ t.todo = l :: todo ∧ s.owner l = some j

/-- A thread has all locks of its task. -/
def Works (s : State κ) (i : Nat) (task : κ) : Prop :=
  ∃ held, s.threads i = some ⟨task, held, []⟩

/-- What is kept: a lock has the owner that holds it, and a thread has taken the first locks of its
task. -/
structure Inv (locks : κ → List Nat) (s : State κ) : Prop where
  owner : ∀ {l i}, s.owner l = some i ↔ ∃ t, s.threads i = some t ∧ l ∈ t.held
  order : ∀ {i t}, s.threads i = some t → t.held.reverse ++ t.todo = locks t.task

variable {locks : κ → List Nat} {s s' : State κ} {a : Act κ}

theorem Inv.init : Inv locks (init : State κ) where
  owner := ⟨nofun, nofun⟩
  order := nofun

/-- A thread after one of them has changed. -/
theorem update_eq_some
    {i j : Nat} {o : Option (Thread κ)} {t : Thread κ}
    (h : Function.update s.threads i o j = some t) :
  j = i ∧ o = some t ∨ j ≠ i ∧ s.threads j = some t
  := by
  by_cases hj : j = i
  · subst hj
    rw [Function.update_self] at h
    exact .inl ⟨rfl, h⟩
  · rw [Function.update_of_ne hj] at h
    exact .inr ⟨hj, h⟩

theorem Inv.start
    (h : s.Inv locks) {i : Nat} {task : κ} (hi : s.threads i = none) :
  Inv locks { s with threads := Function.update s.threads i (some ⟨task, [], locks task⟩) }
  where
  owner := by
    intro l j
    rw [h.owner]
    constructor
    · rintro ⟨t, ht, hl⟩
      have hj : j ≠ i := by
        rintro rfl
        cases hi.symm.trans ht
      exact ⟨t, (Function.update_of_ne hj _ _).trans ht, hl⟩
    · rintro ⟨t, ht, hl⟩
      obtain ⟨rfl, ⟨⟩⟩ | ⟨-, ht⟩ := update_eq_some ht
      · cases hl
      · exact ⟨t, ht, hl⟩
  order := by
    intro j t ht
    obtain ⟨rfl, ⟨⟩⟩ | ⟨-, ht⟩ := update_eq_some ht
    · rfl
    · exact h.order ht

theorem Inv.take
    (h : s.Inv locks) {i l : Nat} {task : κ} {held todo : List Nat}
    (hi : s.threads i = some ⟨task, held, l :: todo⟩) (hl : s.owner l = none) :
  Inv locks ⟨Function.update s.threads i (some ⟨task, l :: held, todo⟩),
    Function.update s.owner l (some i)⟩
  where
  owner := by
    intro l' j
    simp only
    by_cases hll : l' = l
    · subst hll
      rw [Function.update_self]
      constructor
      · rintro ⟨⟩
        exact ⟨_, Function.update_self .., .head _⟩
      · rintro ⟨t, ht, hin⟩
        obtain ⟨rfl, -⟩ | ⟨-, ht⟩ := update_eq_some ht
        · rfl
        · cases hl.symm.trans (h.owner.mpr ⟨t, ht, hin⟩)
    · rw [Function.update_of_ne hll, h.owner]
      constructor
      · rintro ⟨t, ht, hin⟩
        by_cases hj : j = i
        · subst hj
          obtain rfl := Option.some.inj (hi.symm.trans ht)
          exact ⟨_, Function.update_self .., .tail _ hin⟩
        · exact ⟨t, (Function.update_of_ne hj _ _).trans ht, hin⟩
      · rintro ⟨t, ht, hin⟩
        obtain ⟨rfl, ⟨⟩⟩ | ⟨-, ht⟩ := update_eq_some ht
        · obtain rfl | hin := List.mem_cons.mp hin
          · exact absurd rfl hll
          · exact ⟨_, hi, hin⟩
        · exact ⟨t, ht, hin⟩
  order := by
    intro j t ht
    obtain ⟨rfl, ⟨⟩⟩ | ⟨-, ht⟩ := update_eq_some ht
    · have horder := h.order hi
      rw [List.reverse_cons, List.append_assoc]
      exact horder
    · exact h.order ht

theorem Inv.giveBack
    (h : s.Inv locks) {i : Nat} {task : κ} {held : List Nat}
    (hi : s.threads i = some ⟨task, held, []⟩) :
  Inv locks ⟨Function.update s.threads i none, fun l => if l ∈ held then none else s.owner l⟩
  where
  owner := by
    intro l j
    simp only
    split
    · rename_i hin
      constructor
      · nofun
      · rintro ⟨t, ht, hl⟩
        obtain ⟨-, ⟨⟩⟩ | ⟨hj, ht⟩ := update_eq_some ht
        have hown := h.owner.mpr ⟨_, hi, hin⟩
        cases hown.symm.trans (h.owner.mpr ⟨t, ht, hl⟩)
        exact absurd rfl hj
    · rename_i hout
      rw [h.owner]
      constructor
      · rintro ⟨t, ht, hl⟩
        have hj : j ≠ i := by
          rintro rfl
          obtain rfl := Option.some.inj (hi.symm.trans ht)
          exact hout hl
        exact ⟨t, (Function.update_of_ne hj _ _).trans ht, hl⟩
      · rintro ⟨t, ht, hl⟩
        obtain ⟨-, ⟨⟩⟩ | ⟨-, ht⟩ := update_eq_some ht
        exact ⟨t, ht, hl⟩
  order := by
    intro j t ht
    obtain ⟨-, ⟨⟩⟩ | ⟨-, ht⟩ := update_eq_some ht
    exact h.order ht

theorem Inv.step (h : s.Inv locks) (hs : s.step locks a = some s') : s'.Inv locks := by
  cases a with
  | start i task =>
      rw [State.step] at hs
      split at hs
      · cases hs
      · rename_i hi
        cases hs
        exact h.start hi
  | take i =>
      rw [State.step] at hs
      split at hs
      · rename_i hi
        obtain ⟨hl, ⟨⟩⟩ := Option.ite_none_right_eq_some.mp hs
        exact h.take hi hl
      · cases hs
  | giveBack i =>
      rw [State.step] at hs
      split at hs
      · rename_i hi
        cases hs
        exact h.giveBack hi
      · cases hs

theorem Inv.of_reach
    (hr : Reach (State.step locks) (fun _ _ => True) State.init s) :
  s.Inv locks
  := hr.invariant .init fun _ _ _ h _ hs => h.step hs

/-- Threads that work and have a lock in common are one. -/
theorem Inv.excludes
    (h : s.Inv locks) {i j l : Nat} {k k' : κ} (hi : s.Works i k) (hj : s.Works j k')
    (hl : l ∈ locks k) (hl' : l ∈ locks k') :
  i = j
  := by
  have hown : ∀ {i k}, s.Works i k → l ∈ locks k → s.owner l = some i := by
    rintro i k ⟨held, hi⟩ hl
    have horder := h.order hi
    rw [List.append_nil] at horder
    rw [← horder] at hl
    exact h.owner.mpr ⟨_, hi, List.mem_reverse.mp hl⟩
  exact Option.some.inj ((hown hi hl).symm.trans (hown hj hl'))

/-- If the locks of every task are listed in ascending order and are below a bound, then in no set
of threads every thread waits for one of them. -/
theorem Inv.no_deadlock
    (h : s.Inv locks) (hasc : ∀ k, (locks k).Pairwise (· < ·)) {n : Nat}
    (hbound : ∀ k, ∀ l ∈ locks k, l < n) {W : Set Nat} (hne : W.Nonempty) :
  ¬ ∀ i ∈ W, ∃ j ∈ W, s.WaitsFor i j
  := by
  intro hwait
  -- from a thread that waits for `l` to one that waits for a lock above `l`
  have hup : ∀ {i}, i ∈ W → ∀ m, ∃ j ∈ W, ∃ t l todo, s.threads j = some t ∧ t.todo = l :: todo
      ∧ m ≤ l := by
    intro i hi m
    induction m with
    | zero =>
        obtain ⟨-, -, t, l, todo, ht, htodo, -⟩ := hwait i hi
        exact ⟨i, hi, t, l, todo, ht, htodo, Nat.zero_le _⟩
    | succ m ih =>
        obtain ⟨j, hj, t, l, todo, ht, htodo, hm⟩ := ih
        obtain ⟨k, hk, t', l', todo', ht', htodo', hown⟩ := hwait j hj
        obtain rfl := Option.some.inj (ht.symm.trans ht')
        obtain ⟨rfl, rfl⟩ := List.cons.inj (htodo.symm.trans htodo')
        obtain ⟨-, -, t₁, l₁, todo₁, ht₁, htodo₁, -⟩ := hwait k hk
        obtain ⟨t₂, ht₂, hheld⟩ := h.owner.mp hown
        obtain rfl := Option.some.inj (ht₁.symm.trans ht₂)
        have horder := hasc t₁.task
        rw [← h.order ht₁, List.pairwise_append] at horder
        have hlt := horder.2.2 l (List.mem_reverse.mpr hheld) l₁ (htodo₁ ▸ .head _)
        exact ⟨k, hk, t₁, l₁, todo₁, ht₁, htodo₁, by omega⟩
  obtain ⟨i, hi⟩ := hne
  obtain ⟨j, -, t, l, todo, ht, htodo, hn⟩ := hup hi n
  have hin : l ∈ locks t.task := by
    rw [← h.order ht, htodo]
    exact List.mem_append_right _ (.head _)
  exact absurd (hbound _ l hin) (Nat.not_lt.mpr hn)

end State

end OrderedLocks
