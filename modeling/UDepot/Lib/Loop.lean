import Mathlib.Logic.Relation
import Mathlib.Tactic.Basic

/-!
# Loops that return a result

A loop body takes a state and either returns or goes round again with another state.  `run` goes
round at most a given number of times.  A loop whose states descend ends (`run_ends`), and
what it returns is what the body returns in a state that it gets to (`run_eq_some`), the only one
where the body returns (`run_unique`).
-/

namespace Loop

variable {σ ρ : Type}

/-- What a loop body does: return a result, or go round again. -/
inductive Turn (σ ρ : Type) where
  | done (r : ρ)
  | again (s : σ)
  deriving DecidableEq, Repr

/-- The result of a loop that goes round less than `n` times. -/
def run (body : σ → Turn σ ρ) : Nat → σ → Option ρ
  | 0, _ => none
  | n + 1, s =>
      match body s with
      | .done r => some r
      | .again s' => run body n s'

/-- The states a loop gets to. -/
def Gets (body : σ → Turn σ ρ) : σ → σ → Prop :=
  Relation.ReflTransGen fun s s' => body s = .again s'

variable {body : σ → Turn σ ρ} {n : Nat} {s t : σ} {r : ρ}

theorem Gets.mono
    {body' : σ → Turn σ ρ} (h : Gets body s t)
    (hbody : ∀ s t, body s = .again t → body' s = .again t) :
  Gets body' s t
  := by
  induction h with
  | refl => apply Relation.ReflTransGen.refl
  | tail _ hstep ih => apply ih.tail (hbody _ _ hstep)

theorem run_done (h : body s = .done r) : run body (n + 1) s = some r := by
  rw [run, h]

theorem run_again (h : body s = .again t) : run body (n + 1) s = run body n t := by
  rw [run, h]

/-- A loop ends if going round again makes a number smaller. -/
theorem run_ends
    (size : σ → Nat) (hsize : ∀ s t, body s = .again t → size t < size s) :
  ∀ {n : Nat} {s : σ}, size s < n → ∃ r, run body n s = some r
  | n + 1, s, hn => by
      cases hbody : body s with
      | done r =>
          use r
          apply run_done hbody
      | again t =>
          rw [run_again hbody]
          apply run_ends size hsize
          have hlt := hsize s t hbody
          omega

/-- The result of a loop is that of the body in a state it gets to. -/
theorem run_eq_some :
  ∀ {n : Nat} {s : σ}, run body n s = some r → ∃ t, Gets body s t ∧ body t = .done r
  | n + 1, s, h => by
      cases hbody : body s with
      | done r' =>
          rw [run_done hbody] at h
          cases h
          exact ⟨s, .refl, hbody⟩
      | again s' =>
          rw [run_again hbody] at h
          obtain ⟨t, hgets, ht⟩ := run_eq_some h
          exact ⟨t, .head hbody hgets, ht⟩

/-- The body returns in one state only of those a loop gets to. -/
theorem run_unique
    {r' : ρ} (hgets : Gets body s t) (ht : body t = .done r') (h : run body n s = some r) :
  r = r'
  := by
  induction hgets using Relation.ReflTransGen.head_induction_on generalizing n with
  | refl =>
      obtain _ | n := n
      · cases h
      · rw [run_done ht] at h
        exact (Option.some.inj h).symm
  | head hstep _ ih =>
      obtain _ | n := n
      · cases h
      · rw [run_again hstep] at h
        apply ih h

end Loop
