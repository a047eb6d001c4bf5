import UDepot.Io.Transfer
import UDepot.Lib.Completion
import UDepot.Lib.Transition

/-!
# The io_uring backend

A thread has a ring of its own.  An I/O takes an entry of the submission queue and is pushed to the
kernel with a batch or at the thread's next poll; the kernel may refuse a push for now.  A poll
takes completions off the ring and resumes their coroutines, which may submit more I/O and poll
again.

Every I/O is resumed exactly once, with the result the kernel gave it or with the error for which it
was not taken (`resumed_once`).  `pending` is the number of I/Os in the ring, so a ring is only
replaced when it is empty (`ring_replaced`), and polling goes on until every I/O is done
(`poll_drains`).
-/

namespace UDepot.Io.Uring

open Completion Transition

/-- The SQEs that are pushed together, `kSubmitBatch`. -/
def kSubmitBatch : Nat := 128

/-- The completions a poll takes at most, `kMaxCqes`. -/
def kMaxCqes : Nat := 64

/-- What `io_uring_submit` comes to: so many entries are taken, the call is interrupted, or the
kernel refuses for now (`EBUSY`, `EAGAIN`).  With any other error the process aborts. -/
inductive Answer where
  | took (n : Nat)
  | interrupted
  | busy
  deriving DecidableEq, Repr

/-- A ring: the depth it was asked for and the entries of its submission queue. -/
structure Ring where
  depth : Nat
  entries : Nat
  deriving DecidableEq, Repr

/-- `UringThread`, with the I/Os under way. -/
structure State where
  ring : Option Ring
  pipe : Pipe Int

def State.init : State := ⟨none, .empty⟩

/-- `UringThread::submit`: push until the queue is empty or the kernel refuses. -/
def submit (p : Pipe Int) : List Answer → Option (Pipe Int)
  | [] => if p.queued = [] then some p else none
  | a :: answers =>
      if p.queued = [] then none
      else match a with
        | .took n => if n ≤ p.queued.length then submit (p.push n) answers else none
        | .interrupted => submit p answers
        | .busy => if answers = [] then some p else none

/-- What became of a new ring: an error, or the entries of its submission queue. -/
abbrev Setup := Except { rc : Int // rc < 0 } Nat

/-- An I/O gets an entry, and a full batch is pushed. -/
def queue (p : Pipe Int) (batch : List Answer) : Option (Pipe Int) :=
  if kSubmitBatch ≤ p.accept.queued.length then submit p.accept batch else some p.accept

/-- `await_suspend` on a ring.  If every entry waits for a batch, they are pushed; the I/O fails
with `EAGAIN` if there is no entry then. -/
def issueOn (entries : Nat) (p : Pipe Int) (full batch : List Answer) : Option (Pipe Int) :=
  if p.queued.length < entries then queue p batch
  else if 0 < p.queued.length then
    (submit p full).bind fun p' =>
      if p'.queued.length < entries then queue p' batch else some (p'.refuse (-eagain))
  else some (p.refuse (-eagain))

inductive Act where
  | openStore (depth : Nat) (setup : Setup)
  | issue (newRingDepth : Nat) (setup : Setup) (full batch : List Answer)
  | complete (io : Nat) (res : Int)
  | poll (answers : List Answer) (n : Nat)
  | resume
  | ret

/-- A poll that finds I/Os pending: it pushes what is queued and takes completions. -/
def pollPending (p : Pipe Int) (answers : List Answer) (n : Nat) : Option (Pipe Int) :=
  (if p.queued = [] then some p else submit p answers).bind fun p' =>
    if n ≤ kMaxCqes ∧ n ≤ p'.answered.length then
      if n = 0 then some p' else some (p'.reap n)
    else none

namespace State

variable (s : State)

/-- Whether `open` makes a ring for its depth. -/
def wantsRing (depth : Nat) : Bool :=
  match s.ring with
  | none => true
  | some ring => ring.depth ≠ depth && s.pipe.pending == 0

def step : Act → Option State
  | .openStore depth setup =>
      if s.wantsRing depth then
        match setup with
        | .error _ => some s
        | .ok entries => some ⟨some ⟨depth, entries⟩, s.pipe.abandon⟩
      else some s
  | .issue newRingDepth setup full batch =>
      match s.ring, setup with
      | some ring, _ => (issueOn ring.entries s.pipe full batch).map fun p => { s with pipe := p }
      | none, .error rc => some { s with pipe := s.pipe.refuse rc }
      | none, .ok entries =>
          (issueOn entries s.pipe full batch).map fun p => ⟨some ⟨newRingDepth, entries⟩, p⟩
  | .complete io res => (s.pipe.answer io res).map fun p => { s with pipe := p }
  | .poll answers n =>
      if s.pipe.pending = 0 then some s
      else (pollPending s.pipe answers n).map fun p => { s with pipe := p }
  | .resume => s.pipe.resume.map fun p => { s with pipe := p }
  | .ret => s.pipe.ret.map fun p => { s with pipe := p }

end State

/-- The errors an I/O fails with when it is not taken. -/
def Refused (b : Int) : Prop := b < 0

/-! ### Every step keeps the I/Os -/

variable {p p' : Pipe Int} {answers full batch : List Answer} {entries n : Nat}

theorem submit_spec
    (h : p.Ok Refused) (hs : submit p answers = some p') :
  p'.Ok Refused ∧ p'.nr = p.nr
  := by
  induction answers generalizing p with
  | nil =>
      obtain ⟨-, ⟨⟩⟩ := Option.ite_none_right_eq_some.mp hs
      exact ⟨h, rfl⟩
  | cons a answers ih =>
      unfold submit at hs
      obtain ⟨-, hs⟩ := Option.ite_none_left_eq_some.mp hs
      cases a with
      | took n =>
          obtain ⟨-, hs⟩ := Option.ite_none_right_eq_some.mp hs
          obtain ⟨hok, hnr⟩ := ih (h.push n) hs
          exact ⟨hok, hnr⟩
      | interrupted => exact ih h hs
      | busy =>
          obtain ⟨-, ⟨⟩⟩ := Option.ite_none_right_eq_some.mp hs
          exact ⟨h, rfl⟩

theorem queue_spec
    (h : p.Ok Refused) (hs : queue p batch = some p') : p'.Ok Refused := by
  rw [queue] at hs
  split at hs
  · exact (submit_spec h.accept hs).1
  · cases hs
    exact h.accept

theorem refused_eagain : Refused (-eagain) := by
  unfold Refused
  decide

theorem issueOn_spec
    (h : p.Ok Refused) (hs : issueOn entries p full batch = some p') :
  p'.Ok Refused
  := by
  rw [issueOn] at hs
  split at hs
  · exact queue_spec h hs
  · split at hs
    · obtain ⟨p₁, hsubmit, hs⟩ := Option.bind_eq_some_iff.mp hs
      obtain ⟨h₁, -⟩ := submit_spec h hsubmit
      split at hs
      · exact queue_spec h₁ hs
      · cases hs
        exact h₁.refuse refused_eagain
    · cases hs
      exact h.refuse refused_eagain

theorem pollPending_spec
    (h : p.Ok Refused) (hs : pollPending p answers n = some p') :
  p'.Ok Refused ∧ p'.nr = p.nr
  := by
  obtain ⟨p₁, hsubmit, hs⟩ := Option.bind_eq_some_iff.mp hs
  have h₁ : p₁.Ok Refused ∧ p₁.nr = p.nr := by
    split at hsubmit
    · cases hsubmit
      exact ⟨h, rfl⟩
    · exact submit_spec h hsubmit
  obtain ⟨⟨-, hn⟩, hs⟩ := Option.ite_none_right_eq_some.mp hs
  split at hs
  · cases hs
    exact h₁
  · cases hs
    exact ⟨h₁.1.reap hn, h₁.2⟩

/-- The I/Os are accounted for, and none is pending without a ring. -/
structure State.Inv (s : State) : Prop where
  pipe : s.pipe.Ok Refused
  ring : s.ring = none → s.pipe.pending = 0

variable {s s' : State} {a : Act} {r : Nat}

theorem State.Inv.init : State.init.Inv := ⟨.empty, fun _ => rfl⟩

theorem State.Inv.pending_of_wantsRing
    {depth : Nat} (h : s.Inv) (hw : s.wantsRing depth = true) : s.pipe.pending = 0 := by
  rw [State.wantsRing] at hw
  split at hw
  · rename_i hring
    exact h.ring hring
  · simp only [ne_eq, Bool.and_eq_true, beq_iff_eq] at hw
    exact hw.2

/-- A ring that is replaced has nothing in it. -/
theorem State.Inv.openStore
    {depth : Nat} {setup : Setup} (h : s.Inv) (hs : s.step (.openStore depth setup) = some s') :
  s'.pipe = s.pipe ∧ (s' = s ∨ s'.ring ≠ none ∧ s.pipe.pending = 0)
  := by
  simp only [State.step] at hs
  split at hs
  · rename_i hw
    have hp := h.pending_of_wantsRing hw
    split at hs
    · cases hs
      exact ⟨rfl, .inl rfl⟩
    · cases hs
      exact ⟨h.pipe.abandon_eq hp, .inr ⟨by rintro ⟨⟩, hp⟩⟩
  · cases hs
    exact ⟨rfl, .inl rfl⟩

theorem State.Inv.issue
    {depth : Nat} {setup : Setup} (h : s.Inv)
    (hs : s.step (.issue depth setup full batch) = some s') :
  s'.Inv
  := by
  simp only [State.step] at hs
  split at hs
  · rename_i ring setup' hring
    obtain ⟨p, hp, rfl⟩ := Option.map_eq_some_iff.mp hs
    refine ⟨issueOn_spec h.pipe hp, fun hnone => ?_⟩
    rw [hring] at hnone
    cases hnone
  · rename_i rc hring
    cases hs
    exact ⟨h.pipe.refuse rc.2, h.ring⟩
  · obtain ⟨p, hp, rfl⟩ := Option.map_eq_some_iff.mp hs
    exact ⟨issueOn_spec h.pipe hp, by rintro ⟨⟩⟩

/-- What makes the I/Os go on: the kernel, and the thread's polls. -/
def Act.Drives : Act → Prop
  | .openStore _ _ | .issue _ _ _ _ => False
  | _ => True

theorem State.Inv.drive
    (h : s.Inv) (ha : a.Drives) (hs : s.step a = some s') : s'.Inv ∧ s'.pipe.nr = s.pipe.nr := by
  cases a with
  | openStore depth setup => exact ha.elim
  | issue depth setup full batch => exact ha.elim
  | complete io res =>
      obtain ⟨p, hp, rfl⟩ := Option.map_eq_some_iff.mp hs
      obtain ⟨hnr, hpending, -⟩ := Pipe.answer_frame hp
      exact ⟨⟨h.pipe.answer hp, fun hn => hpending.trans (h.ring hn)⟩, hnr⟩
  | poll answers n =>
      simp only [State.step] at hs
      split at hs
      · cases hs
        exact ⟨h, rfl⟩
      · rename_i hpending
        obtain ⟨p, hp, rfl⟩ := Option.map_eq_some_iff.mp hs
        obtain ⟨hok, hnr⟩ := pollPending_spec h.pipe hp
        exact ⟨⟨hok, fun hn => absurd (h.ring hn) hpending⟩, hnr⟩
  | resume =>
      obtain ⟨p, hp, rfl⟩ := Option.map_eq_some_iff.mp hs
      obtain ⟨hnr, hpending⟩ := Pipe.resume_frame hp
      exact ⟨⟨h.pipe.resume hp, fun hn => hpending.trans (h.ring hn)⟩, hnr⟩
  | ret =>
      obtain ⟨p, hp, rfl⟩ := Option.map_eq_some_iff.mp hs
      obtain ⟨hnr, hpending⟩ := Pipe.ret_frame hp
      exact ⟨⟨h.pipe.ret hp, fun hn => hpending.trans (h.ring hn)⟩, hnr⟩

theorem State.Inv.step (h : s.Inv) (hs : s.step a = some s') : s'.Inv := by
  cases a with
  | openStore depth setup =>
      obtain ⟨hpipe, rfl | ⟨hring, -⟩⟩ := h.openStore hs
      · exact h
      · exact ⟨hpipe ▸ h.pipe, fun hn => absurd hn hring⟩
  | issue depth setup full batch => exact h.issue hs
  | complete io res => exact (h.drive (a := .complete io res) trivial hs).1
  | poll answers n => exact (h.drive (a := .poll answers n) trivial hs).1
  | resume => exact (h.drive (a := .resume) trivial hs).1
  | ret => exact (h.drive (a := .ret) trivial hs).1

/-! ### What the callers may rely on -/

/-- The states of a thread. -/
def Reachable (s : State) : Prop := Reach State.step (fun _ _ => True) .init s

theorem Reachable.inv (h : Reachable s) : s.Inv :=
  h.invariant .init fun _ _ _ hinv _ hs => hinv.step hs

/-- Each I/O issued is on its way and not resumed, or was resumed once, with the kernel's answer or
with the error for which it was not taken. -/
theorem resumed_once
    (h : Reachable s) (hr : r < s.pipe.nr) :
  (s.pipe.places r = 1 ∧ s.pipe.results r = []
    ∨ s.pipe.places r = 0 ∧ ∃ b, s.pipe.results r = [b]
      ∧ (s.pipe.answers r = some b ∨ s.pipe.answers r = none ∧ b < 0))
    ∧ s.pipe.pending = s.pipe.queued.length + s.pipe.under.length + s.pipe.answered.length
  :=
  ⟨h.inv.pipe.once hr, h.inv.pipe.pending⟩

/-- Three I/Os on a ring of two entries, of which two complete, in another order. -/
def threeIos : State :=
  (run State.step .init [.openStore 2 (.ok 2), .issue 2 (.ok 2) [] [], .issue 2 (.ok 2) [] [],
    .issue 2 (.ok 2) [.interrupted, .took 2] [], .complete 1 512, .complete 0 (-5),
    .poll [.took 1] 2, .resume]).getD .init

theorem threeIos_reachable : Reachable threeIos :=
  Reach.of_run_isSome (by decide) fun _ _ _ => trivial

theorem threeIos_resumed :
    threeIos.pipe.results 1 = [512] ∧ threeIos.pipe.results 0 = []
      ∧ (threeIos.pipe.places 0 = 1 ∧ threeIos.pipe.results 0 = []
        ∨ threeIos.pipe.places 0 = 0 ∧ ∃ b, threeIos.pipe.results 0 = [b]
          ∧ (threeIos.pipe.answers 0 = some b ∨ threeIos.pipe.answers 0 = none ∧ b < 0)) :=
  ⟨by decide, by decide, (resumed_once threeIos_reachable (by decide)).1⟩

/-- A ring that `open` replaces has no I/O in it, and none is lost. -/
theorem ring_replaced
    {depth : Nat} {setup : Setup} (h : Reachable s)
    (hs : s.step (.openStore depth setup) = some s') (hring : s'.ring ≠ s.ring) :
  (s.pipe.queued = [] ∧ s.pipe.under = [] ∧ s.pipe.answered = []) ∧ s'.pipe = s.pipe
  := by
  obtain ⟨hpipe, rfl | ⟨-, hp⟩⟩ := h.inv.openStore hs
  · exact absurd rfl hring
  · exact ⟨h.inv.pipe.idle hp, hpipe⟩

/-- The three I/Os run to their end. -/
def threeIosDone : State :=
  (run State.step threeIos [.resume, .complete 2 4096, .ret, .poll [] 1, .resume, .ret]).getD
    threeIos

theorem threeIosDone_reachable : Reachable threeIosDone := by
  have hr : Reach State.step (fun _ _ => True) threeIos threeIosDone :=
    Reach.of_run_isSome (by decide) fun _ _ _ => trivial
  exact threeIos_reachable.trans hr

/-- Each of the three was issued, completed and resumed before `open` asks for another depth. -/
theorem threeIosDone_ring_replaced :
    (threeIosDone.pipe.results 0 = [-5] ∧ threeIosDone.pipe.results 1 = [512]
        ∧ threeIosDone.pipe.results 2 = [4096])
      ∧ threeIosDone.ring = some ⟨2, 2⟩
      ∧ ∃ s', threeIosDone.step (.openStore 4 (.ok 4)) = some s' ∧ s'.ring = some ⟨4, 4⟩
        ∧ (threeIosDone.pipe.queued = [] ∧ threeIosDone.pipe.under = []
          ∧ threeIosDone.pipe.answered = []) ∧ s'.pipe = threeIosDone.pipe := by
  have hring : threeIosDone.ring = some ⟨2, 2⟩ := by decide
  have hs : ((threeIosDone.step (.openStore 4 (.ok 4))).map State.ring) = some (some ⟨4, 4⟩) := by
    decide
  obtain ⟨s', hs, hring'⟩ := Option.map_eq_some_iff.mp hs
  refine ⟨by decide, hring, s', hs, hring', ring_replaced threeIosDone_reachable hs ?_⟩
  rw [hring, hring']
  decide

theorem submit_took (hne : p.queued ≠ []) :
    submit p [.took p.queued.length] = some (p.push p.queued.length) := by
  have hempty : (p.push p.queued.length).queued = [] := List.drop_length
  simp only [submit, if_neg hne, Nat.le_refl, if_true, if_pos hempty]

/-- Short of the end, the kernel or a poll has something to do. -/
theorem State.Inv.exists_drive
    (h : s.Inv) (hnot : ¬ s.pipe.Done) :
  ∃ a s', a.Drives ∧ s.step a = some s' ∧ s'.pipe.work < s.pipe.work
  := by
  obtain ⟨p, hp⟩ | ⟨p, hp⟩ | ⟨-, hrest⟩ := h.pipe.unfinished hnot
  · exact ⟨.resume, ⟨s.ring, p⟩, trivial, by rw [State.step, hp]; rfl, Pipe.resume_work hp⟩
  · exact ⟨.ret, ⟨s.ring, p⟩, trivial, by rw [State.step, hp]; rfl, Pipe.ret_work hp⟩
  · have hpending := h.pipe.pending
    by_cases hqueued : s.pipe.queued = []
    · by_cases hunder : s.pipe.under = []
      · have hanswered : s.pipe.answered ≠ [] := by
          obtain hne | hne | hne := hrest
          · exact absurd hqueued hne
          · exact absurd hunder hne
          · exact hne
        have hpos := List.length_pos_iff.mpr hanswered
        have hpoll : pollPending s.pipe [] 1 = some (s.pipe.reap 1) := by
          rw [pollPending, if_pos hqueued, Option.bind_some, if_pos ⟨by decide, hpos⟩,
            if_neg Nat.one_ne_zero]
        refine ⟨.poll [] 1, ⟨s.ring, s.pipe.reap 1⟩, trivial, ?_, Pipe.reap_work Nat.one_pos hpos⟩
        rw [State.step, if_neg (by omega), hpoll]
        rfl
      · obtain ⟨io, hio⟩ := List.exists_mem_of_ne_nil _ hunder
        have hanswer : s.pipe.answer io 0 = some _ := if_pos hio
        refine ⟨.complete io 0, ⟨s.ring, _⟩, trivial, ?_, Pipe.answer_work hanswer⟩
        rw [State.step, hanswer]
        rfl
    · have hpos := List.length_pos_iff.mpr hqueued
      have hpoll : pollPending s.pipe [.took s.pipe.queued.length] 0
          = some (s.pipe.push s.pipe.queued.length) := by
        rw [pollPending, if_neg hqueued, submit_took hqueued, Option.bind_some,
          if_pos ⟨Nat.zero_le _, Nat.zero_le _⟩, if_pos rfl]
      refine ⟨.poll [.took s.pipe.queued.length] 0, ⟨s.ring, _⟩, trivial, ?_,
        Pipe.push_work hpos (Nat.le_refl _)⟩
      rw [State.step, if_neg (by omega), hpoll]
      rfl

/-- From every state the kernel's completions and the thread's polls alone can bring every I/O to
its result. -/
theorem poll_drains
    (h : Reachable s) :
  ∃ acts s', Path State.step (fun _ a => a.Drives) s acts s' ∧ s'.pipe.pending = 0
    ∧ ∀ r < s.pipe.nr, ∃ b, s'.pipe.results r = [b]
  := by
  have hend : ∃ acts s', Path State.step (fun _ a => a.Drives) s acts s'
      ∧ (s'.Inv ∧ s'.pipe.nr = s.pipe.nr) ∧ s'.pipe.Done := by
    refine Path.exists_goal (r := fun s' => s'.pipe.work) ⟨h.inv, rfl⟩ ?_
    rintro t ⟨hinv, hnr⟩ hnot
    obtain ⟨a, t', ha, hs, hwork⟩ := hinv.exists_drive hnot
    obtain ⟨hinv', hnr'⟩ := hinv.drive ha hs
    exact ⟨a, t', ha, hs, ⟨hinv', hnr'.trans hnr⟩, hwork⟩
  obtain ⟨acts, s', hpath, ⟨hinv, hnr⟩, hdone⟩ := hend
  refine ⟨acts, s', hpath, hdone.1, fun r hr => ?_⟩
  exact hinv.pipe.conserved.back (hnr ▸ hr) (hinv.pipe.places_of_done hdone)

theorem threeIos_drain :
    ∃ acts s', Path State.step (fun _ a => a.Drives) threeIos acts s' ∧ s'.pipe.pending = 0
      ∧ ∀ r < threeIos.pipe.nr, ∃ b, s'.pipe.results r = [b] :=
  poll_drains threeIos_reachable

end UDepot.Io.Uring
