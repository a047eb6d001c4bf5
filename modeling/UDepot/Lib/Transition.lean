import Mathlib.Logic.Function.Iterate
import Mathlib.Tactic.Use

/-!
# Runs of a transition system

A system is a partial step function: an action taken in a state leads to a state or is not
possible there.  `Reach step ok s₀ s` says that `s` is reached from `s₀` by steps that all meet
the condition `ok` in the state they are taken in.

A machine is a total step function.  `Stutters` relates a machine to one that takes fewer steps; the
two go through the same states, as far as the second sees them (`Stutters.forth`, `Stutters.back`).
-/

namespace Transition

variable {S A : Type} (step : S → A → Option S)

/-- The state a list of actions leads to. -/
def run : S → List A → Option S
  | s, [] => some s
  | s, a :: as =>
      match step s a with
      | none => none
      | some s' => run s' as

/-- The states reached by steps that meet a condition. -/
inductive Reach (ok : S → A → Prop) (s₀ : S) : S → Prop
  | refl : Reach ok s₀ s₀
  | tail {s s' : S} {a : A} (h : Reach ok s₀ s) (hok : ok s a) (hstep : step s a = some s') :
      Reach ok s₀ s'

variable {step}

/-- What holds at first and is kept by every step that meets the condition holds in every
state reached. -/
theorem Reach.invariant
    {ok : S → A → Prop} {s₀ s : S} (h : Reach step ok s₀ s) {I : S → Prop} (hinit : I s₀)
    (hstep : ∀ s a s', I s → ok s a → step s a = some s' → I s') :
  I s
  := by
  induction h with
  | refl => apply hinit
  | tail _ hok hs ih => apply hstep _ _ _ ih hok hs

/-- Reaching under a condition is reaching under a weaker one. -/
theorem Reach.mono
    {ok ok' : S → A → Prop} {s₀ s : S} (h : Reach step ok s₀ s) (himp : ∀ s a, ok s a → ok' s a) :
  Reach step ok' s₀ s
  := by
  induction h with
  | refl => apply Reach.refl
  | tail _ hok hs ih => apply Reach.tail ih (himp _ _ hok) hs

/-- Runs compose. -/
theorem Reach.trans
    {ok : S → A → Prop} {s₀ s s' : S} (h : Reach step ok s₀ s) (h' : Reach step ok s s') :
  Reach step ok s₀ s'
  := by
  induction h' with
  | refl => apply h
  | tail _ hok hs ih => apply Reach.tail ih hok hs

/-- A run that is possible starts with a step that is. -/
theorem run_cons_eq_some
    {a : A} {as : List A} {s s' : S} (h : run step s (a :: as) = some s') :
  ∃ s₁, step s a = some s₁ ∧ run step s₁ as = some s'
  := by
  rw [run] at h
  cases hs : step s a with
  | none =>
      rw [hs] at h
      cases h
  | some s₁ =>
      rw [hs] at h
      exact ⟨s₁, rfl, h⟩

/-- A run whose actions meet the condition in every state reaches the state it leads to. -/
theorem Reach.of_run
    {ok : S → A → Prop} {s₀ : S} :
  ∀ {as : List A} {s s' : S}, Reach step ok s₀ s → (∀ a ∈ as, ∀ s, ok s a) →
    run step s as = some s' → Reach step ok s₀ s'
  | [], s, s', h, _, hrun => by
      cases hrun
      apply h
  | a :: as, s, s', h, hok, hrun => by
      obtain ⟨s₁, hs, hrun⟩ := run_cons_eq_some hrun
      apply Reach.of_run (Reach.tail h (hok a List.mem_cons_self s) hs) _ hrun
      intro b hb
      apply hok b (List.mem_cons_of_mem a hb)

/-- A run whose first action meets the condition where it is taken, and whose others do in every
state. -/
theorem Reach.of_run_cons
    {ok : S → A → Prop} {s s' : S} {a : A} {as : List A} (hok : ok s a)
    (hrest : ∀ b ∈ as, ∀ s, ok s b) (hrun : run step s (a :: as) = some s') :
  Reach step ok s s'
  := by
  obtain ⟨s₁, hs, hrun⟩ := run_cons_eq_some hrun
  exact .of_run (.tail .refl hok hs) hrest hrun

/-- The state a possible run leads to is reached. -/
theorem Reach.of_run_isSome
    {ok : S → A → Prop} {s₀ : S} {as : List A} (hrun : (run step s₀ as).isSome = true)
    (hok : ∀ a ∈ as, ∀ s, ok s a) :
  Reach step ok s₀ ((run step s₀ as).getD s₀)
  := by
  obtain ⟨s, hs⟩ := Option.isSome_iff_exists.mp hrun
  rw [hs, Option.getD_some]
  apply Reach.of_run .refl hok hs

/-- A run that stops at an action that does not meet the condition. -/
def guarded (step : S → A → Option S) (ok : S → A → Prop) [∀ s a, Decidable (ok s a)] (s : S)
    (as : List A) : Option S :=
  run (fun s a => if ok s a then step s a else none) s as

theorem Reach.of_guarded
    {ok : S → A → Prop} [∀ s a, Decidable (ok s a)] :
  ∀ {as : List A} {s s' : S}, guarded step ok s as = some s' → Reach step ok s s'
  | [], s, s', h => by
      cases h
      apply Reach.refl
  | a :: as, s, s', h => by
      obtain ⟨s₁, hs, h⟩ := run_cons_eq_some h
      obtain ⟨hok, hs⟩ := (Option.ite_none_right_eq_some ..).mp hs
      exact .trans (.tail .refl hok hs) (Reach.of_guarded h)

/-- A list of actions, each meeting the condition where it is taken, leads from one state to
another. -/
inductive Path (step : S → A → Option S) (ok : S → A → Prop) : S → List A → S → Prop
  | nil {s : S} : Path step ok s [] s
  | cons {s s₁ s' : S} {a : A} {as : List A} (hok : ok s a) (hs : step s a = some s₁)
      (h : Path step ok s₁ as s') : Path step ok s (a :: as) s'

/-- A run whose actions meet the condition in every state is a path. -/
theorem Path.of_run
    {ok : S → A → Prop} :
  ∀ {as : List A} {s s' : S}, (∀ a ∈ as, ∀ s, ok s a) → run step s as = some s' →
    Path step ok s as s'
  | [], s, s', _, hrun => by
      cases hrun
      apply Path.nil
  | a :: as, s, s', hok, hrun => by
      obtain ⟨s₁, hs, hrun⟩ := run_cons_eq_some hrun
      refine .cons (hok a List.mem_cons_self s) hs (Path.of_run ?_ hrun)
      intro b hb
      apply hok b (List.mem_cons_of_mem a hb)

/-- What is kept by every step is kept by a path. -/
theorem Path.invariant
    {ok : S → A → Prop} {s s' : S} {as : List A} (h : Path step ok s as s') {I : S → Prop}
    (hinit : I s) (hstep : ∀ {s a s'}, I s → ok s a → step s a = some s' → I s') :
  I s'
  := by
  induction h with
  | nil => apply hinit
  | cons hok hs _ ih => apply ih (hstep hinit hok hs)

/-- Steps of a kind lower a rank and no step raises it, until a goal is met.  A path with as many
steps of the kind as the rank says meets the goal. -/
theorem Path.met
    {ok : S → A → Prop} {s s' : S} {as : List A} (h : Path step ok s as s') {I G : S → Prop}
    {r : S → Nat} {p : A → Bool} (hinit : I s)
    (hinv : ∀ {s a s'}, I s → ok s a → step s a = some s' → I s')
    (hgoal : ∀ {s a s'}, G s → step s a = some s' → G s')
    (hpos : ∀ s, 0 < r s)
    (hrank : ∀ {s a s'}, I s → ok s a → step s a = some s' → ¬ G s →
      G s' ∨ r s' + (if p a then 1 else 0) ≤ r s)
    (hle : G s ∨ r s ≤ as.countP p) :
  G s'
  := by
  induction h with
  | nil =>
      rcases hle with hmet | hle
      · apply hmet
      · exact absurd hle (Nat.not_le.mpr (hpos _))
  | @cons s s₁ s' a as hok hs _ ih =>
      apply ih (hinv hinit hok hs)
      by_cases hmet : G s
      · exact .inl (hgoal hmet hs)
      · have hcount := hle.resolve_left hmet
        rw [List.countP_cons] at hcount
        rcases hrank hinit hok hs hmet with hmet' | hlow
        · exact .inl hmet'
        · right
          omega

/-- If short of a goal there is always a step that lowers a rank, there is a path to the goal. -/
theorem Path.exists_goal
    {ok : S → A → Prop} {s : S} {I G : S → Prop} {r : S → Nat} (hinit : I s)
    (hstep : ∀ s, I s → ¬ G s → ∃ a s', ok s a ∧ step s a = some s' ∧ I s' ∧ r s' < r s) :
  ∃ as s', Path step ok s as s' ∧ I s' ∧ G s'
  := by
  induction hr : r s using Nat.strongRecOn generalizing s with
  | ind n ih =>
      by_cases hmet : G s
      · exact ⟨[], s, .nil, hinit, hmet⟩
      · obtain ⟨a, s₁, hok, hs, hinit₁, hlt⟩ := hstep s hinit hmet
        obtain ⟨as, s', hpath, hend⟩ := ih _ (hr ▸ hlt) hinit₁ rfl
        exact ⟨a :: as, s', .cons hok hs hpath, hend⟩

/-! ### Machines that stutter -/

/-- A machine makes the steps of another, or steps the other does not see; of those it makes only
so many in a row. -/
structure Stutters {S T : Type} (f : S → S) (g : T → T) (abs : S → T) (I : S → Prop)
    (fuel : S → Nat) : Prop where
  keeps : ∀ {s}, I s → I (f s)
  step : ∀ {s}, I s → abs (f s) = g (abs s) ∨ abs (f s) = abs s ∧ fuel (f s) < fuel s

section

variable {S T : Type} {f : S → S} {g : T → T} {abs : S → T} {I : S → Prop} {fuel : S → Nat}
    (h : Stutters f g abs I fuel) {s : S} (hs : I s)

include h hs

theorem Stutters.inv (n : Nat) : I (f^[n] s) := by
  induction n with
  | zero => apply hs
  | succ n ih =>
      rw [Function.iterate_succ_apply']
      apply h.keeps ih

/-- Every state of the machine is seen as a state of the other. -/
theorem Stutters.forth (n : Nat) : ∃ m, abs (f^[n] s) = g^[m] (abs s) := by
  induction n with
  | zero => exact ⟨0, rfl⟩
  | succ n ih =>
      obtain ⟨m, hm⟩ := ih
      rw [Function.iterate_succ_apply']
      obtain hstep | ⟨hsame, -⟩ := h.step (h.inv hs n)
      · use m + 1
        rw [hstep, hm, Function.iterate_succ_apply']
      · use m
        rw [hsame, hm]

/-- The machine comes to the other's next step. -/
theorem Stutters.progress : ∃ n, abs (f^[n] s) = g (abs s) := by
  induction hfuel : fuel s using Nat.strongRecOn generalizing s with
  | ind k ih =>
      obtain hstep | ⟨hsame, hlt⟩ := h.step hs
      · exact ⟨1, hstep⟩
      · obtain ⟨n, hn⟩ := ih _ (hfuel ▸ hlt) (h.keeps hs) rfl
        use n + 1
        rw [Function.iterate_succ_apply, hn, hsame]

/-- Every state of the other machine is come to. -/
theorem Stutters.back (m : Nat) : ∃ n, abs (f^[n] s) = g^[m] (abs s) := by
  induction m with
  | zero => exact ⟨0, rfl⟩
  | succ m ih =>
      obtain ⟨n, hn⟩ := ih
      obtain ⟨k, hk⟩ := h.progress (h.inv hs n)
      use k + n
      rw [Function.iterate_add_apply, hk, hn, Function.iterate_succ_apply']

end

end Transition
