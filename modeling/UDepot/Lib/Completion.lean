import Mathlib.Data.List.Count
import Mathlib.Logic.Function.Basic

/-!
# Requests and their completions

Requests are numbered as they are made.  One that is taken is queued, handed to the other side,
answered, collected by a poll and resumed with its answer; one that is not taken is resumed at once
with an error.  Polls may be nested: a request that is resumed may poll again.

Whatever order this happens in, every request is in one place until it is resumed, once, with the
answer it was given (`Pipe.Ok`).
-/

namespace Completion

variable {β : Type}

/-! ### Coming back once -/

/-- Of the requests made, numbered below `n`, each is in one place or has come back once. -/
def Conserved (n : Nat) (places : Nat → Nat) (results : Nat → List β) : Prop :=
  ∀ r, places r + (results r).length = if r < n then 1 else 0

/-- A request comes back with a result. -/
def record (results : Nat → List β) (r : Nat) (b : β) : Nat → List β :=
  Function.update results r (results r ++ [b])

theorem length_record (results : Nat → List β) (r q : Nat) (b : β) :
    (record results r b q).length = (results q).length + if q = r then 1 else 0 := by
  by_cases hq : q = r
  · subst hq
    rw [record, Function.update_self, List.length_append, if_pos rfl]
    rfl
  · rw [record, Function.update_of_ne hq, if_neg hq]
    rfl

theorem count_cons_ite (r q : Nat) (l : List Nat) :
    (r :: l).count q = l.count q + if q = r then 1 else 0 := by
  rw [List.count_cons]
  by_cases hq : q = r
  · subst hq
    simp
  · have hbeq : (r == q) = false := by simpa using Ne.symm hq
    simp [hq, hbeq]

theorem mem_record
    {results : Nat → List β} {r q : Nat} {b c : β} (h : c ∈ record results r b q) :
  c ∈ results q ∨ q = r ∧ c = b
  := by
  by_cases hq : q = r
  · subst hq
    rw [record, Function.update_self, List.mem_append, List.mem_singleton] at h
    exact h.imp_right fun hc => ⟨rfl, hc⟩
  · rw [record, Function.update_of_ne hq] at h
    exact .inl h

section

variable {n : Nat} {places places' : Nat → Nat} {results : Nat → List β}

/-- Requests that go from place to place. -/
theorem Conserved.move (h : Conserved n places results) (hp : ∀ r, places' r = places r) :
    Conserved n places' results := by
  intro r
  rw [hp]
  exact h r

/-- A request is made and has a place. -/
theorem Conserved.take
    (h : Conserved n places results) (hp : ∀ r, places' r = places r + if r = n then 1 else 0) :
  Conserved (n + 1) places' results
  := by
  intro r
  have hr := h r
  rw [hp]
  split at hr <;> split <;> split <;> omega

/-- A request is made and comes back at once. -/
theorem Conserved.refuse
    {b : β} (h : Conserved n places results) (hp : ∀ r, places' r = places r) :
  Conserved (n + 1) places' (record results n b)
  := by
  intro r
  have hr := h r
  rw [hp, length_record]
  split at hr <;> split <;> split <;> omega

/-- A request leaves its place and comes back. -/
theorem Conserved.land
    {r : Nat} {b : β} (h : Conserved n places results)
    (hp : ∀ q, places q = places' q + if q = r then 1 else 0) :
  Conserved n places' (record results r b)
  := by
  intro q
  have hq := h q
  rw [hp] at hq
  rw [length_record]
  omega

theorem Conserved.init : Conserved 0 (fun _ => 0) (fun _ => ([] : List β)) := fun _ => rfl

/-- A request that was made and is nowhere has come back. -/
theorem Conserved.back
    {r : Nat} (h : Conserved n places results) (hr : r < n) (hp : places r = 0) :
  ∃ b, results r = [b]
  := by
  have hlen := h r
  rw [hp, if_pos hr, Nat.zero_add] at hlen
  exact List.length_eq_one_iff.mp hlen

end

/-! ### Pipes -/

/-- Requests on their way: queued, with the other side, answered, and collected by the polls under
way, the innermost first.  `pending` is how many the caller thinks are queued, with the other side
or answered; `answers` and `results` record what happened. -/
structure Pipe (β : Type) where
  nr : Nat
  queued : List Nat
  under : List Nat
  answered : List (Nat × β)
  polls : List (List (Nat × β))
  pending : Nat
  answers : Nat → Option β
  results : Nat → List β

namespace Pipe

variable (p : Pipe β)

def empty : Pipe β where
  nr := 0
  queued := []
  under := []
  answered := []
  polls := []
  pending := 0
  answers := fun _ => none
  results := fun _ => []

/-- A request is not taken. -/
def refuse (b : β) : Pipe β := { p with nr := p.nr + 1, results := record p.results p.nr b }

/-- A request is queued. -/
def accept : Pipe β :=
  { p with nr := p.nr + 1, queued := p.queued ++ [p.nr], pending := p.pending + 1 }

/-- The first requests of the queue are handed over. -/
def push (k : Nat) : Pipe β :=
  { p with queued := p.queued.drop k, under := p.under ++ p.queued.take k }

/-- The other side answers a request. -/
def answer (r : Nat) (b : β) : Option (Pipe β) :=
  if r ∈ p.under then
    some { p with
      under := p.under.erase r
      answered := p.answered ++ [(r, b)]
      answers := Function.update p.answers r (some b) }
  else none

/-- A poll collects the first answers. -/
def reap (k : Nat) : Pipe β :=
  { p with
    answered := p.answered.drop k
    polls := p.answered.take k :: p.polls
    pending := p.pending - k }

/-- The innermost poll resumes the next request. -/
def resume : Option (Pipe β) :=
  match p.polls with
  | ((r, b) :: rest) :: ps => some { p with polls := rest :: ps, results := record p.results r b }
  | _ => none

/-- The innermost poll returns. -/
def ret : Option (Pipe β) :=
  match p.polls with
  | [] :: ps => some { p with polls := ps }
  | _ => none

/-- What is queued, with the other side or answered is given up. -/
def abandon : Pipe β := { p with queued := [], under := [], answered := [] }

/-- What has an answer and has not been resumed. -/
def back : List (Nat × β) := p.answered ++ p.polls.flatten

/-- In how many places a request is. -/
def places (r : Nat) : Nat := p.queued.count r + p.under.count r + (p.back.map (·.1)).count r

/-- Every request is in one place or was resumed once, with the answer it was given or with an
error. -/
structure Ok (bad : β → Prop) (p : Pipe β) : Prop where
  conserved : Conserved p.nr p.places p.results
  pending : p.pending = p.queued.length + p.under.length + p.answered.length
  told : ∀ x ∈ p.back, p.answers x.1 = some x.2
  unmade : ∀ r, p.nr ≤ r → p.answers r = none
  results : ∀ r b, b ∈ p.results r → p.answers r = some b ∨ p.answers r = none ∧ bad b

variable {p} {bad : β → Prop} {k r : Nat} {b : β}

theorem Ok.empty : (empty : Pipe β).Ok bad where
  conserved := .init
  pending := rfl
  told := by
    rintro x ⟨⟩
  unmade := fun _ _ => rfl
  results := by
    rintro r b ⟨⟩

theorem Ok.refuse (h : p.Ok bad) (hb : bad b) : (p.refuse b).Ok bad where
  conserved := h.conserved.refuse fun _ => rfl
  pending := h.pending
  told := h.told
  unmade := fun r hr => h.unmade r (Nat.le_of_succ_le hr)
  results := by
    intro r c hc
    obtain hc | ⟨rfl, rfl⟩ := mem_record hc
    · exact h.results r c hc
    · exact .inr ⟨h.unmade _ (Nat.le_refl _), hb⟩

theorem Ok.accept (h : p.Ok bad) : p.accept.Ok bad where
  conserved := by
    apply h.conserved.take
    intro r
    simp only [places, Pipe.accept, List.count_append, count_cons_ite, List.count_nil, back]
    omega
  pending := by
    simp only [Pipe.accept, List.length_append, List.length_singleton, h.pending]
    omega
  told := h.told
  unmade := fun r hr => h.unmade r (Nat.le_of_succ_le hr)
  results := h.results

theorem Ok.push (h : p.Ok bad) (k : Nat) : (p.push k).Ok bad where
  conserved := by
    apply h.conserved.move
    intro r
    have hcount : p.queued.count r = (p.queued.take k).count r + (p.queued.drop k).count r := by
      rw [← List.count_append, List.take_append_drop]
    simp only [places, Pipe.push, List.count_append, hcount, back]
    omega
  pending := by
    have hlen := congrArg List.length (List.take_append_drop k p.queued)
    rw [List.length_append] at hlen
    have hpending := h.pending
    simp only [Pipe.push, List.length_append]
    omega
  told := h.told
  unmade := h.unmade
  results := h.results

/-- A request has at most one place. -/
theorem Ok.places_le (h : p.Ok bad) (r : Nat) : p.places r ≤ 1 := by
  have hr := h.conserved r
  split at hr <;> omega

theorem Ok.answer
    {p' : Pipe β} (h : p.Ok bad) (hs : p.answer r b = some p') : p'.Ok bad := by
  obtain ⟨hr, ⟨⟩⟩ := Option.ite_none_right_eq_some.mp hs
  have hpos : 0 < p.under.count r := List.count_pos_iff.mpr hr
  have hplaces := h.places_le r
  -- the request is with the other side, so nothing else speaks of it
  have hback : ∀ x ∈ p.back, x.1 ≠ r := by
    rintro x hx rfl
    have hin : 0 < (p.back.map (·.1)).count x.1 :=
      List.count_pos_iff.mpr (List.mem_map_of_mem hx)
    simp only [places] at hplaces
    omega
  have hlt : r < p.nr := by
    by_contra hge
    have hr := h.conserved r
    rw [if_neg hge] at hr
    simp only [places] at hr
    omega
  have hresults : p.results r = [] := by
    have hr := h.conserved r
    rw [if_pos hlt] at hr
    simp only [places] at hr
    rw [← List.length_eq_zero_iff]
    omega
  constructor
  · apply h.conserved.move
    intro q
    have hcount : p.under.count q = (p.under.erase r).count q + if q = r then 1 else 0 := by
      by_cases hq : q = r
      · subst hq
        rw [List.count_erase_self, if_pos rfl]
        omega
      · rw [List.count_erase_of_ne (Ne.symm (Ne.symm hq)), if_neg hq]
        rfl
    simp only [places, back, List.map_append, List.count_append, List.map_cons, List.map_nil,
      hcount, count_cons_ite, List.count_nil]
    omega
  · have hlen := List.length_erase_of_mem hr
    have hpos := List.length_pos_of_mem hr
    simp only [List.length_append, List.length_singleton, h.pending]
    omega
  · intro x hx
    simp only [back, List.mem_append, List.mem_singleton] at hx
    by_cases hxr : x.1 = r
    · obtain (hx | rfl) | hx := hx
      · exact absurd hxr (hback x (List.mem_append_left _ hx))
      · exact Function.update_self ..
      · exact absurd hxr (hback x (List.mem_append_right _ hx))
    · apply (Function.update_of_ne hxr _ _).trans
      obtain (hx | rfl) | hx := hx
      · exact h.told x (List.mem_append_left _ hx)
      · exact absurd rfl hxr
      · exact h.told x (List.mem_append_right _ hx)
  · intro q hq
    have hne : q ≠ r := Ne.symm (Nat.ne_of_lt (Nat.lt_of_lt_of_le hlt hq))
    exact (Function.update_of_ne hne _ _).trans (h.unmade q hq)
  · intro q c hc
    have hne : q ≠ r := by
      rintro rfl
      rw [hresults] at hc
      cases hc
    have hsame : Function.update p.answers r (some b) q = p.answers q :=
      Function.update_of_ne hne ..
    simp only [hsame]
    exact h.results q c hc

/-- Answers go from place to place. -/
theorem Ok.move
    {p' : Pipe β} (h : p.Ok bad) (hnr : p'.nr = p.nr) (hqueued : p'.queued = p.queued)
    (hunder : p'.under = p.under) (hanswers : p'.answers = p.answers)
    (hresults : p'.results = p.results) (hback : p'.back.Perm p.back)
    (hpending : p'.pending = p.queued.length + p.under.length + p'.answered.length) :
  p'.Ok bad
  where
  conserved := by
    rw [hnr, hresults]
    apply h.conserved.move
    intro r
    rw [places, places, hqueued, hunder, (hback.map _).count_eq]
  pending := by rw [hpending, hqueued, hunder]
  told := by
    intro x hx
    rw [hanswers]
    exact h.told x (hback.mem_iff.mp hx)
  unmade := by
    rw [hnr, hanswers]
    exact h.unmade
  results := by
    rw [hanswers, hresults]
    exact h.results

theorem Ok.reap (h : p.Ok bad) (hk : k ≤ p.answered.length) : (p.reap k).Ok bad := by
  refine h.move rfl rfl rfl rfl rfl ?_ ?_
  · simp only [back, Pipe.reap, List.flatten_cons]
    refine (List.perm_append_comm_assoc ..).trans ?_
    rw [← List.append_assoc, List.take_append_drop]
  · simp only [Pipe.reap, List.length_drop, h.pending]
    omega

/-- The result of a request that comes back with its answer. -/
theorem Ok.record
    (h : p.Ok bad) (hr : p.answers r = some b) :
  ∀ q c, c ∈ Completion.record p.results r b q → p.answers q = some c ∨ p.answers q = none ∧ bad c
  := by
  intro q c hc
  obtain hc | ⟨rfl, rfl⟩ := mem_record hc
  · exact h.results q c hc
  · exact .inl hr

theorem Ok.resume {p' : Pipe β} (h : p.Ok bad) (hs : p.resume = some p') : p'.Ok bad := by
  rw [Pipe.resume] at hs
  split at hs
  · rename_i r b rest ps hpolls
    cases hs
    have hin : (r, b) ∈ p.back := by
      simp only [back, hpolls, List.flatten_cons, List.cons_append, List.mem_append, List.mem_cons,
        true_or, or_true]
    refine ⟨h.conserved.land ?_, h.pending, ?_, h.unmade, h.record (h.told _ hin)⟩
    · intro q
      simp only [places, back, hpolls, List.flatten_cons, List.cons_append, List.map_append,
        List.map_cons, List.count_append, count_cons_ite]
      omega
    · intro x hx
      apply h.told
      simp only [back, hpolls, List.flatten_cons, List.cons_append, List.mem_append,
        List.mem_cons] at hx ⊢
      tauto
  · cases hs

theorem Ok.ret {p' : Pipe β} (h : p.Ok bad) (hs : p.ret = some p') : p'.Ok bad := by
  rw [Pipe.ret] at hs
  split at hs
  · rename_i ps hpolls
    cases hs
    refine h.move rfl rfl rfl rfl rfl ?_ h.pending
    simp only [back, hpolls, List.flatten_cons, List.nil_append]
    exact .refl _
  · cases hs

/-! ### What the steps leave as it is -/

theorem answer_frame
    {p' : Pipe β} (hs : p.answer r b = some p') :
  p'.nr = p.nr ∧ p'.pending = p.pending ∧ p'.polls = p.polls
  := by
  obtain ⟨-, ⟨⟩⟩ := Option.ite_none_right_eq_some.mp hs
  exact ⟨rfl, rfl, rfl⟩

theorem resume_frame
    {p' : Pipe β} (hs : p.resume = some p') :
  p'.nr = p.nr ∧ p'.pending = p.pending
  := by
  rw [resume] at hs
  split at hs
  · cases hs
    exact ⟨rfl, rfl⟩
  · cases hs

theorem ret_frame
    {p' : Pipe β} (hs : p.ret = some p') :
  p'.nr = p.nr ∧ p'.pending = p.pending
  := by
  rw [ret] at hs
  split at hs
  · cases hs
    exact ⟨rfl, rfl⟩
  · cases hs

/-! ### What a caller may rely on -/

/-- Nothing is queued, with the other side or answered if nothing is pending. -/
theorem Ok.idle
    (h : p.Ok bad) (hp : p.pending = 0) : p.queued = [] ∧ p.under = [] ∧ p.answered = [] := by
  have hpending := h.pending
  rw [hp] at hpending
  refine ⟨List.length_eq_zero_iff.mp ?_, List.length_eq_zero_iff.mp ?_,
    List.length_eq_zero_iff.mp ?_⟩
  all_goals omega

/-- Nothing is lost when a pipe with nothing pending is given up. -/
theorem Ok.abandon_eq (h : p.Ok bad) (hp : p.pending = 0) : p.abandon = p := by
  obtain ⟨hqueued, hunder, hanswered⟩ := h.idle hp
  cases p
  simp only [abandon, mk.injEq, true_and, and_true]
  exact ⟨hqueued.symm, hunder.symm, hanswered.symm⟩

/-- Each request is on its way and not resumed, or was resumed once. -/
theorem Ok.once
    (h : p.Ok bad) (hr : r < p.nr) :
  p.places r = 1 ∧ p.results r = []
    ∨ p.places r = 0 ∧ ∃ b, p.results r = [b] ∧ (p.answers r = some b ∨ p.answers r = none ∧ bad b)
  := by
  have hlen := h.conserved r
  rw [if_pos hr] at hlen
  by_cases hplace : p.places r = 0
  · obtain ⟨b, hb⟩ := h.conserved.back hr hplace
    refine .inr ⟨hplace, b, hb, h.results r b ?_⟩
    rw [hb]
    exact List.mem_singleton_self b
  · refine .inl ⟨?_, List.length_eq_zero_iff.mp ?_⟩ <;> omega

/-- Nothing is pending or collected. -/
def Done (p : Pipe β) : Prop := p.pending = 0 ∧ p.polls = []

theorem Ok.places_of_done (h : p.Ok bad) (hd : p.Done) : p.places r = 0 := by
  obtain ⟨hp, hpolls⟩ := hd
  obtain ⟨hqueued, hunder, hanswered⟩ := h.idle hp
  rw [places, back, hqueued, hunder, hanswered, hpolls]
  rfl

/-- What there is to do short of the end. -/
theorem Ok.unfinished
    (h : p.Ok bad) (hnot : ¬ p.Done) :
  (∃ p', p.resume = some p') ∨ (∃ p', p.ret = some p')
    ∨ p.polls = [] ∧ (p.queued ≠ [] ∨ p.under ≠ [] ∨ p.answered ≠ [])
  := by
  cases hpolls : p.polls with
  | cons top polls =>
      cases top with
      | nil => exact .inr (.inl ⟨{ p with polls := polls }, by rw [Pipe.ret, hpolls]⟩)
      | cons x rest =>
          exact .inl ⟨{ p with
            polls := rest :: polls
            results := Completion.record p.results x.1 x.2 }, by rw [Pipe.resume, hpolls]⟩
  | nil =>
      refine .inr (.inr ⟨rfl, ?_⟩)
      by_contra hcon
      simp only [not_or, ne_eq, not_not] at hcon
      obtain ⟨hqueued, hunder, hanswered⟩ := hcon
      have hpending := h.pending
      rw [hqueued, hunder, hanswered] at hpending
      exact hnot ⟨hpending, hpolls⟩

/-- How much there is to do until nothing is on its way. -/
def work (p : Pipe β) : Nat :=
  5 * p.queued.length + 4 * p.under.length + 3 * p.answered.length + p.polls.flatten.length
    + p.polls.length

theorem push_work (hpos : 0 < k) (hk : k ≤ p.queued.length) : (p.push k).work < p.work := by
  simp only [work, push, List.length_drop, List.length_append, List.length_take]
  omega

theorem answer_work {p' : Pipe β} (hs : p.answer r b = some p') : p'.work < p.work := by
  obtain ⟨hr, ⟨⟩⟩ := Option.ite_none_right_eq_some.mp hs
  have hlen := List.length_erase_of_mem hr
  have hpos := List.length_pos_of_mem hr
  simp only [work, List.length_append, List.length_singleton]
  omega

theorem reap_work (hpos : 0 < k) (hk : k ≤ p.answered.length) : (p.reap k).work < p.work := by
  simp only [work, reap, List.length_drop, List.flatten_cons, List.length_append, List.length_take,
    List.length_cons]
  omega

theorem resume_work {p' : Pipe β} (hs : p.resume = some p') : p'.work < p.work := by
  rw [resume] at hs
  split at hs
  · rename_i hpolls
    cases hs
    simp only [work, hpolls, List.flatten_cons, List.length_append, List.length_cons]
    omega
  · cases hs

theorem ret_work {p' : Pipe β} (hs : p.ret = some p') : p'.work < p.work := by
  rw [ret] at hs
  split at hs
  · rename_i hpolls
    cases hs
    simp only [work, hpolls, List.flatten_cons, List.length_append, List.length_nil,
      List.length_cons]
    omega
  · cases hs

end Pipe

end Completion
