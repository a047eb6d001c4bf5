import Mathlib.Tactic.Basic

/-!
# Programs that ask and are answered

A program asks queries of its surroundings and goes on with the answers.  It may have a loop, which
it enters once and whose body it can start over.  A `Thread` is a program in execution: what is left
of it, and the body of the loop it is in.

A thread that runs alone is answered by a function that moves a state (`Thread.exec`), and ends in
at most one state (`Thread.Ends.unique`).

`Obeys` is a logic for such programs.  The queries and their answers move a state of the reader's
choosing: a query is allowed in a state, and its answer leads to another.  A program that obeys does
only what is allowed, whatever the answers are (`Thread.Obeys.next`).
-/

namespace Interaction

section

variable {Q : Type} (A : Q → Type)

inductive Prog (α : Type) where
  | ret (a : α)
  | ask (q : Q) (k : A q → Prog α)
  | loop (body : Prog α)
  | again

/-- What is left of a program, and where it goes when it starts over. -/
structure Thread where
  head : Prog A Unit
  cur : Prog A Unit

/-- What a thread does next. -/
inductive Next where
  | done
  | jump (t : Thread A)
  | asks (q : Q) (k : A q → Thread A)

end

section

variable {Q : Type} {A : Q → Type} {α β : Type}

namespace Prog

def bind : Prog A α → (α → Prog A β) → Prog A β
  | .ret a, f => f a
  | .ask q k, f => .ask q fun a => (k a).bind f
  | .loop body, f => .loop (body.bind f)
  | .again, _ => .again

instance : Monad (Prog A) where
  pure := .ret
  bind := bind

/-- A query on its own. -/
def query (q : Q) : Prog A (A q) := .ask q .ret

end Prog

namespace Thread

def start (p : Prog A Unit) : Thread A := ⟨.again, p⟩

def next : Thread A → Next A
  | ⟨_, .ret ()⟩ => .done
  | ⟨head, .ask q k⟩ => .asks q fun a => ⟨head, k a⟩
  | ⟨_, .loop body⟩ => .jump ⟨body, body⟩
  | ⟨head, .again⟩ => .jump ⟨head, head⟩

/-! ### A thread that runs alone -/

section

variable {S : Type} (handle : S → (q : Q) → A q × S)

/-- The state a thread ends in, if it ends within `n` steps. -/
def exec : Nat → Thread A → S → Option S
  | 0, _, _ => none
  | n + 1, t, s =>
      match t.next with
      | .done => some s
      | .jump t' => exec n t' s
      | .asks q k => exec n (k (handle s q).1) (handle s q).2

def Ends (t : Thread A) (s s' : S) : Prop := ∃ n, exec handle n t s = some s'

variable {handle} {t : Thread A} {s s' s'' : S}

/-- More steps make no difference once a thread has ended. -/
theorem exec_mono
    {n m : Nat} (h : exec handle n t s = some s') (hle : n ≤ m) :
  exec handle m t s = some s'
  := by
  induction n generalizing t s m with
  | zero => cases h
  | succ n ih =>
      obtain ⟨m, rfl⟩ := Nat.exists_eq_add_of_le' (Nat.lt_of_lt_of_le n.succ_pos hle)
      rw [exec] at h ⊢
      cases hnext : t.next with
      | done =>
          rw [hnext] at h
          exact h
      | jump t' =>
          rw [hnext] at h
          apply ih h
          apply Nat.le_of_succ_le_succ hle
      | asks q k =>
          rw [hnext] at h
          apply ih h
          apply Nat.le_of_succ_le_succ hle

theorem Ends.unique (h : t.Ends handle s s') (h' : t.Ends handle s s'') : s' = s'' := by
  obtain ⟨n, hn⟩ := h
  obtain ⟨m, hm⟩ := h'
  apply Option.some.inj
  rw [← exec_mono hn (Nat.le_max_left n m), ← exec_mono hm (Nat.le_max_right n m)]

theorem Ends.done {head : Prog A Unit} : Ends handle ⟨head, .ret ()⟩ s s := ⟨1, rfl⟩

theorem Ends.ask
    {head : Prog A Unit} {q : Q} {k : A q → Prog A Unit}
    (h : Ends handle ⟨head, k (handle s q).1⟩ (handle s q).2 s') :
  Ends handle ⟨head, .ask q k⟩ s s'
  := by
  obtain ⟨n, hn⟩ := h
  exact ⟨n + 1, hn⟩

theorem Ends.loop
    {head body : Prog A Unit} (h : Ends handle ⟨body, body⟩ s s') :
  Ends handle ⟨head, .loop body⟩ s s'
  := by
  obtain ⟨n, hn⟩ := h
  exact ⟨n + 1, hn⟩

theorem Ends.again
    {head : Prog A Unit} (h : Ends handle ⟨head, head⟩ s s') :
  Ends handle ⟨head, .again⟩ s s'
  := by
  obtain ⟨n, hn⟩ := h
  exact ⟨n + 1, hn⟩

end

end Thread

/-! ### What a program is allowed to do -/

/-- The queries that are allowed in a state, where their answers lead, the states in which a loop
may start over and those in which the program may end. -/
structure Rules (A : Q → Type) (G : Type) where
  pre : G → Q → Prop
  post : G → (q : Q) → A q → G
  inv : G → Prop
  fin : G → Prop

variable {G : Type} (R : Rules A G)

def Prog.Obeys : Prog A Unit → G → Prop
  | .ret _, g => R.fin g
  | .ask q k, g => R.pre g q ∧ ∀ a, (k a).Obeys (R.post g q a)
  | .loop body, g => R.inv g ∧ ∀ g', R.inv g' → body.Obeys g'
  | .again, g => R.inv g

structure Thread.Obeys (t : Thread A) (g : G) : Prop where
  cur : t.cur.Obeys R g
  head : ∀ {g'}, R.inv g' → t.head.Obeys R g'

variable {R}

theorem Thread.Obeys.start {p : Prog A Unit} {g : G} (h : p.Obeys R g) : (start p).Obeys R g :=
  ⟨h, fun hinv => hinv⟩

/-- A thread that obeys asks only what is allowed, and still obeys when it is answered. -/
theorem Thread.Obeys.next
    {t : Thread A} {g : G} (h : t.Obeys R g) :
  match t.next with
  | .done => R.fin g
  | .jump t' => t'.Obeys R g
  | .asks q k => R.pre g q ∧ ∀ a, (k a).Obeys R (R.post g q a)
  := by
  obtain ⟨head, cur⟩ := t
  cases cur with
  | ret => exact h.cur
  | ask q k => exact ⟨h.cur.1, fun a => ⟨h.cur.2 a, h.head⟩⟩
  | loop body => exact ⟨h.cur.2 g h.cur.1, fun hinv => h.cur.2 _ hinv⟩
  | again => exact ⟨h.head h.cur, h.head⟩

end

end Interaction
