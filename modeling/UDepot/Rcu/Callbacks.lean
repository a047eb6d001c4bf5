import UDepot.Rcu

/-!
# Deferred callbacks

`Rcu::call` queues a callback.  The reclaimer takes the whole queue, waits for one grace period and
runs what it took, one callback after the other; it counts them back by their number, which is what
`Rcu::barrier` waits for.  The destructor stops the reclaimer, which first runs what is queued.

What is done under `cb_mu_` is one step.  Callbacks are numbered as they are queued, and those that
have finished, those taken and those queued are in the order of their numbers (`Callbacks.Inv`).
-/

namespace UDepot.Rcu

open Transition

variable {n : Nat} {s s' : State}

/-! ### What a step does to sections and grace periods -/

/-- A section that is inside was inside before or is new.  A call of `synchronize` goes on, and one
that has returned stays so; a new one has before it the sections that are inside. -/
structure Evolves (a : Act) (s s' : State) : Prop where
  nextId : s.nextId ≤ s'.nextId
  inside : ∀ x ∈ s'.inside, x ∈ s.inside ∨ s.nextId ≤ x.1
  kept : ∀ {k y}, s.syncs k = some y → ∃ y', s'.syncs k = some y' ∧ y'.before = y.before
    ∧ (y.pc = .done → y'.pc = .done)
  begun : ∀ {k y}, s.syncs k = none → s'.syncs k = some y →
    a = .synchronize k ∧ y = ⟨s.inside, .begun⟩

theorem Evolves.of_eq
    {a : Act} (hnext : s.nextId ≤ s'.nextId)
    (hinside : ∀ x ∈ s'.inside, x ∈ s.inside ∨ s.nextId ≤ x.1) (hsyncs : s'.syncs = s.syncs) :
  Evolves a s s'
  where
  nextId := hnext
  inside := hinside
  kept := by
    intro k y hk
    rw [hsyncs]
    exact ⟨y, hk, rfl, id⟩
  begun := by
    intro k y hk hk'
    rw [hsyncs, hk] at hk'
    cases hk'

/-- One call of `synchronize` goes on. -/
theorem Evolves.of_setSync
    {a : Act} {k : Nat} {y : Sync} {pc : SyncPc} (hnext : s'.nextId = s.nextId)
    (hinside : s'.inside = s.inside) (hk : s.syncs k = some y) (hpc : y.pc ≠ .done)
    (hsyncs : s'.syncs = Function.update s.syncs k (some { y with pc := pc })) :
  Evolves a s s'
  where
  nextId := hnext.ge
  inside := by
    rw [hinside]
    intro x hx
    left
    apply hx
  kept := by
    intro k' y' hk'
    rw [hsyncs]
    by_cases hkk : k' = k
    · subst hkk
      obtain rfl := Option.some.inj (hk.symm.trans hk')
      exact ⟨_, Function.update_self .., rfl, fun hdone => absurd hdone hpc⟩
    · rw [Function.update_of_ne hkk]
      exact ⟨y', hk', rfl, id⟩
  begun := by
    intro k' y' hk' hk''
    rw [hsyncs] at hk''
    by_cases hkk : k' = k
    · subst hkk
      rw [hk] at hk'
      cases hk'
    · rw [Function.update_of_ne hkk, hk'] at hk''
      cases hk''

theorem State.thisThreadSlot_frame (n : Nat) (s : State) (t : Nat) :
    (s.thisThreadSlot n t).2.inside = s.inside ∧ (s.thisThreadSlot n t).2.nextId = s.nextId
      ∧ (s.thisThreadSlot n t).2.syncs = s.syncs := by
  rw [thisThreadSlot]
  simp only
  split
  · exact ⟨rfl, rfl, rfl⟩
  · split
    · exact ⟨rfl, rfl, rfl⟩
    · split
      · exact ⟨rfl, rfl, rfl⟩
      · exact ⟨rfl, rfl, rfl⟩

theorem State.enter_evolves (a : Act) (t slot idx count : Nat) :
    Evolves a s (s.enter t slot idx count) := by
  apply Evolves.of_eq
  · apply Nat.le_succ
  · intro x hx
    rcases Finset.mem_insert.mp hx with rfl | hx
    · right
      apply le_rfl
    · left
      apply hx
  · rfl

theorem State.leave_evolves (a : Act) (t slot : Nat) (sec : Section) (count : Nat) :
    Evolves a s (s.leave t slot sec count) := by
  apply Evolves.of_eq
  · apply le_rfl
  · intro x hx
    left
    apply Finset.mem_of_mem_erase hx
  · rfl

theorem State.threadStep_evolves {t : Nat} {a : Act} (hs : s.threadStep n t = some s') :
    Evolves a s s' := by
  have hset : ∀ th, Evolves a s (s.setThread t th) :=
    fun th => .of_eq le_rfl (fun x hx => .inl hx) rfl
  rw [threadStep] at hs
  split at hs
  · cases hs
  · cases hs
    apply hset
  · split at hs
    · cases hs
      apply enter_evolves
    · cases hs
      apply hset
  · cases hs
    apply enter_evolves
  · split at hs
    · cases hs
      apply leave_evolves
    · cases hs
      apply hset
  · cases hs
    apply leave_evolves

theorem State.syncStep_evolves
    {k : Nat} {y : Sync} {a : Act} (hk : s.syncs k = some y) (hs : s.syncStep n k y = some s') :
  Evolves a s s'
  := by
  have hset : ∀ {pc : SyncPc}, y.pc ≠ .done → s'.nextId = s.nextId → s'.inside = s.inside →
      s'.syncs = Function.update s.syncs k (some { y with pc := pc }) → Evolves a s s' :=
    fun hpc hnext hinside hsyncs => .of_setSync hnext hinside hk hpc hsyncs
  rw [syncStep] at hs
  cases hpc : y.pc with
  | begun =>
      rw [hpc] at hs hset
      obtain ⟨-, ⟨⟩⟩ := Option.ite_none_right_eq_some.mp hs
      exact hset (by rintro ⟨⟩) rfl rfl rfl
  | locked | flip =>
      rw [hpc] at hs hset
      cases hs
      exact hset (by rintro ⟨⟩) rfl rfl rfl
  | drainOther | drainCur =>
      rw [hpc] at hs hset
      simp only at hs
      split at hs
      all_goals
        cases hs
        exact hset (by rintro ⟨⟩) rfl rfl rfl
  | done =>
      rw [hpc] at hs
      cases hs

theorem State.step_evolves {a : Act} (hs : s.step n a = some s') : Evolves a s s' := by
  cases a with
  | readLock t =>
      simp only [step, Option.ite_none_right_eq_some, Option.some.injEq] at hs
      obtain ⟨-, rfl⟩ := hs
      obtain ⟨hinside, hnext, hsyncs⟩ := s.thisThreadSlot_frame n t
      apply Evolves.of_eq
      · apply hnext.ge
      · intro x hx
        left
        rw [← hinside]
        apply hx
      · apply hsyncs
  | readUnlock t sec =>
      simp only [step, Option.ite_none_right_eq_some, Option.some.injEq] at hs
      obtain ⟨-, rfl⟩ := hs
      obtain ⟨hinside, hnext, hsyncs⟩ := s.thisThreadSlot_frame n t
      apply Evolves.of_eq
      · apply hnext.ge
      · intro x hx
        left
        rw [← hinside]
        apply hx
      · apply hsyncs
  | thread t => apply threadStep_evolves hs
  | otherInstance t =>
      obtain ⟨-, ⟨⟩⟩ := Option.ite_none_right_eq_some.mp hs
      exact .of_eq le_rfl (fun x hx => .inl hx) rfl
  | exit t =>
      obtain ⟨-, hs⟩ := Option.ite_none_right_eq_some.mp hs
      split at hs
      · cases hs
        exact .of_eq le_rfl (fun x hx => .inl hx) rfl
      · cases hs
        exact .of_eq le_rfl (fun x hx => .inl hx) rfl
  | synchronize k =>
      obtain ⟨hnone, ⟨⟩⟩ := Option.ite_none_right_eq_some.mp hs
      rw [Option.isNone_iff_eq_none] at hnone
      refine ⟨le_rfl, fun x hx => .inl hx, ?_, ?_⟩
      · intro k' y hk
        have hkk : k' ≠ k := by
          rintro rfl
          rw [hnone] at hk
          cases hk
        exact ⟨y, (Function.update_of_ne hkk ..).trans hk, rfl, id⟩
      · intro k' y hk hk'
        by_cases hkk : k' = k
        · subst hkk
          simp only [setSync, Function.update_self, Option.some.injEq] at hk'
          exact ⟨rfl, hk'.symm⟩
        · cases hk.symm.trans ((Function.update_of_ne hkk ..).symm.trans hk')
  | sync k =>
      obtain ⟨y, hk, hs⟩ := Option.bind_eq_some_iff.mp hs
      apply syncStep_evolves hk hs

/-! ### The queue of callbacks -/

namespace Callbacks

/-- Where the reclaimer is in `reclaim_loop`.  It has not been started, waits, is about to look at
the queue, has taken a batch, waits for a grace period, runs callbacks of a batch of some size, or
has returned. -/
inductive Reclaimer where
  | absent
  | asleep
  | awake
  | taken (batch : List Nat)
  | syncing (k : Nat) (batch : List Nat)
  | running (size : Nat) (current : Option Nat) (rest : List Nat)
  | returned
  deriving DecidableEq, Repr

/-- A thread that waits is notified. -/
def Reclaimer.notified : Reclaimer → Reclaimer
  | .asleep => .awake
  | r => r

/-- The thread is started if it is not there. -/
def Reclaimer.started : Reclaimer → Reclaimer
  | .absent => .awake
  | r => r

/-- A call of `barrier`, with the number of callbacks it waits for. -/
structure Barrier where
  target : Nat
  returned : Bool
  deriving DecidableEq, Repr

/-- Where the destructor is.  It leaves once it has joined the reclaimer or found none. -/
inductive Destructor where
  | notCalled
  | stopped
  | notified
  | joining
  | leaving
  | returned
  deriving DecidableEq, Repr

/-- The state of an `Rcu` with callbacks: those that have finished, how many were queued when each
call of `synchronize` began, and the sections that were inside when each callback was queued. -/
structure State where
  rcu : Rcu.State
  queue : List Nat
  queued : Nat
  done : Nat
  stop : Bool
  reclaimer : Reclaimer
  barriers : Nat → Option Barrier
  destructor : Destructor
  ran : List Nat
  begun : Nat → Nat
  insideAt : Nat → Finset Section

def State.init : State where
  rcu := .init
  queue := []
  queued := 0
  done := 0
  stop := false
  reclaimer := .absent
  barriers := fun _ => none
  destructor := .notCalled
  ran := []
  begun := fun _ => 0
  insideAt := fun _ => ∅

/-- A step of a read section or of `synchronize`, a call of `call` or of `barrier`, a look of a
barrier at the count, a wakeup without a notification, and steps of the reclaimer, which gives a
call of `synchronize` its number, and of the destructor. -/
inductive Act where
  | rcu (a : Rcu.Act)
  | call
  | barrier (b : Nat)
  | recheck (b : Nat)
  | wake
  | reclaim (k : Nat)
  | destroy

namespace State

variable (n : Nat) (s : State)

/-- A call of `synchronize` that begins has the callbacks before it that are queued. -/
def began : Rcu.Act → Nat → Nat
  | .synchronize k => Function.update s.begun k s.queued
  | _ => s.begun

def rcuStep (a : Rcu.Act) : Option State :=
  (s.rcu.step n a).map fun rcu => { s with rcu := rcu, begun := s.began a }

/-- The reclaimer looks at the queue. -/
def look : State :=
  if s.queue = [] then { s with reclaimer := if s.stop then .returned else .asleep }
  else { s with queue := [], reclaimer := .taken s.queue }

def reclaim (k : Nat) : Option State :=
  match s.reclaimer with
  | .awake => some s.look
  | .taken batch =>
      (s.rcuStep n (.synchronize k)).map fun s' => { s' with reclaimer := .syncing k batch }
  | .syncing k batch =>
      if (s.rcu.syncs k).map Sync.pc = some .done then
        some { s with reclaimer := .running batch.length none batch }
      else none
  | .running size (some c) rest =>
      some { s with ran := s.ran ++ [c], reclaimer := .running size none rest }
  | .running size none (c :: rest) => some { s with reclaimer := .running size (some c) rest }
  | .running size none [] => some { s with done := s.done + size, reclaimer := .awake }.look
  | .absent | .asleep | .returned => none

/-- A thread that is joined is not there any more.  The destructor of a thread that is there does
not return. -/
def destroy : Option State :=
  match s.destructor with
  | .notCalled => some { s with stop := true, destructor := .stopped }
  | .stopped => some { s with reclaimer := s.reclaimer.notified, destructor := .notified }
  | .notified =>
      some { s with destructor := if s.reclaimer = .absent then .leaving else .joining }
  | .joining =>
      if s.reclaimer = .returned then some { s with reclaimer := .absent, destructor := .leaving }
      else none
  | .leaving => if s.reclaimer = .absent then some { s with destructor := .returned } else none
  | .returned => none

def call : State :=
  { s with
    queue := s.queue ++ [s.queued]
    queued := s.queued + 1
    reclaimer := s.reclaimer.started.notified
    insideAt := Function.update s.insideAt s.queued s.rcu.inside }

def setBarrier (b target : Nat) : State :=
  { s with
    barriers := Function.update s.barriers b (some ⟨target, decide (target ≤ s.done)⟩) }

/-- There is nothing once the destructor has returned. -/
def step (a : Act) : Option State :=
  if s.destructor = .returned then none
  else
    match a with
    | .rcu a => s.rcuStep n a
    | .call => some s.call
    | .barrier b => if (s.barriers b).isNone then some (s.setBarrier b s.queued) else none
    | .recheck b =>
        match s.barriers b with
        | some ⟨target, false⟩ => some (s.setBarrier b target)
        | _ => none
    | .wake => if s.reclaimer = .asleep then some { s with reclaimer := .awake } else none
    | .reclaim k => s.reclaim n k
    | .destroy => s.destroy

end State

/-! ### Invariants -/

/-- The callbacks that are taken and have not finished. -/
def Reclaimer.pending : Reclaimer → List Nat
  | .taken batch | .syncing _ batch => batch
  | .running _ current rest => current.toList ++ rest
  | .absent | .asleep | .awake | .returned => []

/-- The callback that runs. -/
def Reclaimer.current : Reclaimer → Option Nat
  | .running _ current _ => current
  | _ => none

/-- The size of the batch that is taken. -/
def Reclaimer.size : Reclaimer → Nat
  | .taken batch | .syncing _ batch => batch.length
  | .running size _ _ => size
  | .absent | .asleep | .awake | .returned => 0

/-- The reclaimer does not look at the queue before it is started or notified. -/
def Reclaimer.Idle : Reclaimer → Prop
  | .absent | .asleep | .returned => True
  | _ => False

theorem Reclaimer.pending_notified (r : Reclaimer) : r.notified.pending = r.pending := by
  cases r <;> rfl

theorem Reclaimer.pending_started (r : Reclaimer) : r.started.pending = r.pending := by
  cases r <;> rfl

theorem Reclaimer.size_notified (r : Reclaimer) : r.notified.size = r.size := by
  cases r <;> rfl

theorem Reclaimer.size_started (r : Reclaimer) : r.started.size = r.size := by
  cases r <;> rfl

/-- A call of `synchronize` that began after a callback was queued has returned. -/
def State.Graced (s : State) (c : Nat) : Prop :=
  ∃ k y, s.rcu.syncs k = some y ∧ y.pc = .done ∧ c < s.begun k

/-- The grace period of a batch has begun after it was queued, and has ended if callbacks of it
run. -/
def Reclaimer.Ok (s : State) : Reclaimer → Prop
  | .syncing k batch => (s.rcu.syncs k).isSome = true ∧ ∀ c ∈ batch, c < s.begun k
  | .running _ current rest => ∀ c ∈ current.toList ++ rest, s.Graced c
  | _ => True

variable (n) in
structure Inv (s : State) : Prop where
  rcu : Rcu.Inv n s.rcu
  order : s.ran ++ (s.reclaimer.pending ++ s.queue) = List.range s.queued
  counted : s.done + s.reclaimer.size = s.ran.length + s.reclaimer.pending.length
  sized : s.reclaimer.pending.length ≤ s.reclaimer.size
  idle : s.reclaimer.Idle → s.queue = []
  barriers : ∀ {b x}, s.barriers b = some x → x.target ≤ s.queued
    ∧ (x.returned = true → x.target ≤ s.done)
  leaving : s.destructor = .leaving ∨ s.destructor = .returned → s.reclaimer = .absent
  graced : ∀ c ∈ s.ran, s.Graced c
  reclaimer : s.reclaimer.Ok s
  begun : ∀ k, s.begun k ≤ s.queued
  fresh : ∃ N, ∀ k, N ≤ k → s.rcu.syncs k = none
  ids : ∀ {c}, ∀ x ∈ s.insideAt c, x.1 < s.rcu.nextId
  inside : ∀ {k y c}, s.rcu.syncs k = some y → c < s.begun k →
    ∀ x ∈ s.insideAt c, x ∈ y.before ∨ x ∉ s.rcu.inside

variable {s s' : State}

theorem Inv.init : Inv n .init where
  rcu := .init
  order := rfl
  counted := rfl
  sized := le_rfl
  idle := fun _ => rfl
  barriers := nofun
  leaving := nofun
  graced := nofun
  reclaimer := trivial
  begun := fun _ => le_rfl
  fresh := ⟨0, fun _ _ => rfl⟩
  ids := nofun
  inside := nofun

/-- The callbacks that have finished are the first ones. -/
theorem Inv.mem_ran (h : Inv n s) {c : Nat} : c ∈ s.ran ↔ c < s.ran.length := by
  have hrange : s.ran = List.range s.ran.length := by
    have htake := congrArg (List.take s.ran.length) h.order
    rw [List.take_left, List.take_range] at htake
    have hle := congrArg List.length h.order
    rw [List.length_append, List.length_range] at hle
    rw [min_eq_left (by omega)] at htake
    apply htake
  rw [hrange, List.mem_range, List.length_range]

theorem Inv.length_le (h : Inv n s) :
    s.ran.length + s.reclaimer.pending.length + s.queue.length = s.queued := by
  have hlen := congrArg List.length h.order
  rw [List.length_append, List.length_append, List.length_range] at hlen
  omega

theorem Inv.lt_queued (h : Inv n s) {c : Nat} (hc : c ∈ s.reclaimer.pending) : c < s.queued := by
  rw [← List.mem_range, ← h.order]
  apply List.mem_append_right _ (List.mem_append_left _ hc)

/-! ### Steps -/

theorem State.began_le (hle : ∀ k, s.begun k ≤ s.queued) (a : Rcu.Act) (k : Nat) :
    s.began a k ≤ s.queued := by
  cases a with
  | synchronize k' =>
      rw [began, Function.update_apply]
      split
      · apply le_rfl
      · apply hle
  | _ => apply hle

theorem State.began_eq
    {a : Rcu.Act} {rcu : Rcu.State} {k : Nat} {y : Sync} (hs : s.rcu.step n a = some rcu)
    (hk : s.rcu.syncs k = some y) :
  s.began a k = s.begun k
  := by
  cases a with
  | synchronize k' =>
      obtain ⟨hnone, -⟩ := Option.ite_none_right_eq_some.mp hs
      rw [began, Function.update_of_ne]
      rintro rfl
      rw [hk] at hnone
      cases hnone
  | _ => rfl

theorem State.Graced.rcuStep
    {a : Rcu.Act} {rcu : Rcu.State} {c : Nat} (h : s.Graced c) (hs : s.rcu.step n a = some rcu) :
  State.Graced { s with rcu := rcu, begun := s.began a } c
  := by
  obtain ⟨k, y, hk, hdone, hlt⟩ := h
  obtain ⟨y', hk', -, hdone'⟩ := (Rcu.State.step_evolves hs).kept hk
  exact ⟨k, y', hk', hdone' hdone, hlt.trans_eq (State.began_eq hs hk).symm⟩

theorem Reclaimer.Ok.rcuStep
    {a : Rcu.Act} {rcu : Rcu.State} {r : Reclaimer} (h : r.Ok s) (hs : s.rcu.step n a = some rcu) :
  r.Ok { s with rcu := rcu, begun := s.began a }
  := by
  cases r with
  | syncing k batch =>
      obtain ⟨hsome, hlt⟩ := h
      obtain ⟨y, hk⟩ := Option.isSome_iff_exists.mp hsome
      obtain ⟨y', hk', -⟩ := (Rcu.State.step_evolves hs).kept hk
      exact ⟨Option.isSome_iff_exists.mpr ⟨y', hk'⟩,
        fun c hc => (hlt c hc).trans_eq (State.began_eq hs hk).symm⟩
  | running size current rest => exact fun c hc => (h c hc).rcuStep hs
  | _ => trivial

/-- Sections that were inside when a callback was queued are before every grace period that begins
later, or have been left. -/
theorem Inv.inside_rcuStep
    (h : Inv n s) {a : Rcu.Act} {rcu : Rcu.State} (hs : s.rcu.step n a = some rcu)
    {k c : Nat} {y : Sync} (hk : rcu.syncs k = some y) (hlt : c < s.began a k) (x : Section)
    (hx : x ∈ s.insideAt c) :
  x ∈ y.before ∨ x ∉ rcu.inside
  := by
  have hev := Rcu.State.step_evolves hs
  have hout : x ∉ s.rcu.inside → x ∉ rcu.inside := by
    intro hout hin
    rcases hev.inside x hin with hin | hnew
    · exact hout hin
    · exact absurd (h.ids x hx) (Nat.not_lt.mpr hnew)
  cases hold : s.rcu.syncs k with
  | none =>
      obtain ⟨-, rfl⟩ := hev.begun hold hk
      by_cases hin : x ∈ s.rcu.inside
      · exact .inl hin
      · exact .inr (hout hin)
  | some y₀ =>
      obtain ⟨y', hk', hbefore, -⟩ := hev.kept hold
      obtain rfl := Option.some.inj (hk.symm.trans hk')
      rw [State.began_eq hs hold] at hlt
      rw [hbefore]
      exact (h.inside hold hlt x hx).imp_right hout

theorem Inv.rcuStep (h : Inv n s) {a : Rcu.Act} (hs : s.rcuStep n a = some s') : Inv n s' := by
  obtain ⟨rcu, hstep, rfl⟩ := Option.map_eq_some_iff.mp hs
  have hev := Rcu.State.step_evolves hstep
  exact {
    rcu := h.rcu.step hstep
    order := h.order
    counted := h.counted
    sized := h.sized
    idle := h.idle
    barriers := h.barriers
    leaving := h.leaving
    graced := fun c hc => (h.graced c hc).rcuStep hstep
    reclaimer := h.reclaimer.rcuStep hstep
    begun := State.began_le h.begun a
    fresh := by
      obtain ⟨N, hN⟩ := h.fresh
      use match a with
        | .synchronize k => max N (k + 1)
        | _ => N
      intro k hle
      have hold : s.rcu.syncs k = none := hN k (by cases a <;> simp only at hle <;> omega)
      cases hnew : rcu.syncs k with
      | none => rfl
      | some y =>
          obtain ⟨rfl, -⟩ := hev.begun hold hnew
          simp only at hle
          omega
    ids := fun x hx => (h.ids x hx).trans_le hev.nextId
    inside := fun hk hlt => h.inside_rcuStep hstep hk hlt }

/-- A callback is queued while the reclaimer has not returned and may be waited for. -/
theorem Inv.call
    (h : Inv n s) (hreturned : s.reclaimer ≠ .returned) (hleaving : s.destructor ≠ .leaving)
    (hdone : s.destructor ≠ .returned) :
  Inv n s.call
  where
  rcu := h.rcu
  order := by
    simp only [State.call, Reclaimer.pending_notified, Reclaimer.pending_started]
    rw [List.range_succ, ← h.order, List.append_assoc, List.append_assoc]
  counted := by
    simp only [State.call, Reclaimer.pending_notified, Reclaimer.pending_started,
      Reclaimer.size_notified, Reclaimer.size_started]
    apply h.counted
  sized := by
    simp only [State.call, Reclaimer.pending_notified, Reclaimer.pending_started,
      Reclaimer.size_notified, Reclaimer.size_started]
    apply h.sized
  idle := by
    intro hidle
    cases hrec : s.reclaimer with
    | returned => exact absurd hrec hreturned
    | _ =>
        rw [State.call, hrec] at hidle
        cases hidle
  barriers := fun hb => ⟨(h.barriers hb).1.trans (Nat.le_succ _), (h.barriers hb).2⟩
  leaving := fun hd => absurd hd (not_or.mpr ⟨hleaving, hdone⟩)
  graced := h.graced
  reclaimer := by
    have hok := h.reclaimer
    show s.reclaimer.started.notified.Ok _
    cases hrec : s.reclaimer <;> rw [hrec] at hok <;> exact hok
  begun := fun k => (h.begun k).trans (Nat.le_succ _)
  fresh := h.fresh
  ids := by
    intro c x hx
    simp only [State.call, Function.update_apply] at hx
    split at hx
    · apply (h.rcu.ids x hx).1
    · apply h.ids x hx
  inside := by
    intro k y c hk hlt x hx
    have hne : c ≠ s.queued := ((show c < s.begun k from hlt).trans_le (h.begun k)).ne
    simp only [State.call, Function.update_of_ne hne] at hx
    apply h.inside hk hlt x hx

theorem Inv.setBarrier (h : Inv n s) {b target : Nat} (hle : target ≤ s.queued) :
    Inv n (s.setBarrier b target) :=
  { h with
    barriers := by
      intro b' x hb
      simp only [State.setBarrier, Function.update_apply] at hb
      split at hb
      · cases hb
        exact ⟨hle, fun hdone => of_decide_eq_true hdone⟩
      · apply h.barriers hb }

/-- The reclaimer goes on without a callback that finishes or a queue that is taken. -/
theorem Inv.setReclaimer
    (h : Inv n s) {r : Reclaimer} (hpending : r.pending = s.reclaimer.pending)
    (hsize : r.size = s.reclaimer.size) (hidle : r.Idle → s.queue = [])
    (hok : r.Ok s) (hleaving : s.destructor = .leaving ∨ s.destructor = .returned → r = .absent) :
  Inv n { s with reclaimer := r }
  :=
  { h with
    order := by
      show s.ran ++ (r.pending ++ s.queue) = _
      rw [hpending]
      apply h.order
    counted := by
      show s.done + r.size = s.ran.length + r.pending.length
      rw [hpending, hsize]
      apply h.counted
    sized := by
      show r.pending.length ≤ r.size
      rw [hpending, hsize]
      apply h.sized
    idle := hidle
    leaving := hleaving
    reclaimer := by
      cases r <;> exact hok }

theorem Inv.not_leaving (h : Inv n s) (hr : s.reclaimer ≠ .absent) {r : Reclaimer} :
    s.destructor = .leaving ∨ s.destructor = .returned → r = .absent :=
  fun hd => absurd (h.leaving hd) hr

theorem Inv.look (h : Inv n s) (hawake : s.reclaimer = .awake) : Inv n s.look := by
  have hleaving : ∀ {r : Reclaimer}, s.destructor = .leaving ∨ s.destructor = .returned →
      r = .absent := h.not_leaving (hawake ▸ nofun)
  rw [State.look]
  split
  · rename_i hqueue
    apply h.setReclaimer
    · rw [hawake]
      cases s.stop <;> rfl
    · rw [hawake]
      cases s.stop <;> rfl
    · exact fun _ => hqueue
    · cases s.stop <;> trivial
    · exact hleaving
  · have horder := h.order
    have hcounted := h.counted
    rw [hawake] at horder hcounted
    refine { h with order := ?_, counted := ?_, sized := le_rfl, idle := nofun,
                    leaving := hleaving, reclaimer := trivial }
    · rw [← horder]
      exact congrArg (s.ran ++ ·) (List.append_nil _)
    · exact congrArg (· + s.queue.length) hcounted

/-- The reclaimer begins a grace period for the batch it has taken. -/
theorem Inv.synchronize
    (h : Inv n s) {k : Nat} {batch : List Nat} {s₁ : State} (hr : s.reclaimer = .taken batch)
    (hs : s.rcuStep n (.synchronize k) = some s₁) :
  Inv n { s₁ with reclaimer := .syncing k batch }
  := by
  have h₁ := h.rcuStep hs
  obtain ⟨rcu, hstep, rfl⟩ := Option.map_eq_some_iff.mp hs
  obtain ⟨-, ⟨⟩⟩ := Option.ite_none_right_eq_some.mp hstep
  apply h₁.setReclaimer
  · rw [hr]
    rfl
  · rw [hr]
    rfl
  · rintro ⟨⟩
  · constructor
    · simp [Rcu.State.setSync]
    · intro c hc
      simp only [State.began, Function.update_self]
      apply h.lt_queued
      rw [hr]
      exact hc
  · apply h.not_leaving
    rw [hr]
    rintro ⟨⟩

/-- A callback finishes. -/
theorem Inv.finish
    (h : Inv n s) {size c : Nat} {rest : List Nat}
    (hr : s.reclaimer = .running size (some c) rest) :
  Inv n { s with ran := s.ran ++ [c], reclaimer := .running size none rest }
  := by
  have horder := h.order
  have hcounted := h.counted
  have hsized := h.sized
  have hok := h.reclaimer
  rw [hr] at horder hcounted hsized hok
  refine { h with order := ?_, counted := ?_, sized := (Nat.le_succ _).trans hsized,
                  idle := nofun, leaving := ?_, graced := ?_, reclaimer := ?_ }
  · rw [← horder]
    exact List.append_assoc _ _ _
  · simp only [Reclaimer.size, Reclaimer.pending, Option.toList, List.length_append,
      List.length_cons, List.length_nil] at hcounted ⊢
    omega
  · apply h.not_leaving
    rw [hr]
    nofun
  · intro c' hc'
    rcases List.mem_append.mp hc' with hc' | hc'
    · apply h.graced c' hc'
    · obtain rfl := List.mem_singleton.mp hc'
      apply hok c' List.mem_cons_self
  · intro c' hc'
    apply hok c' (List.mem_cons_of_mem c hc')

/-- A batch is counted. -/
theorem Inv.count
    (h : Inv n s) {size : Nat} (hr : s.reclaimer = .running size none []) :
  Inv n { s with done := s.done + size, reclaimer := .awake }
  := by
  have horder := h.order
  have hcounted := h.counted
  rw [hr] at horder hcounted
  refine { h with order := horder, counted := hcounted, sized := le_rfl, idle := nofun,
                  barriers := ?_, leaving := ?_, reclaimer := trivial }
  · intro b x hb
    exact ⟨(h.barriers hb).1, fun hret => ((h.barriers hb).2 hret).trans (Nat.le_add_right _ _)⟩
  · apply h.not_leaving
    rw [hr]
    nofun

theorem Inv.reclaim (h : Inv n s) {k : Nat} (hs : s.reclaim n k = some s') : Inv n s' := by
  rw [State.reclaim] at hs
  split at hs
  · rename_i hr
    cases hs
    apply h.look hr
  · rename_i batch hr
    obtain ⟨s₁, hs₁, rfl⟩ := Option.map_eq_some_iff.mp hs
    apply h.synchronize hr hs₁
  · rename_i k batch hr
    obtain ⟨hdone, ⟨⟩⟩ := Option.ite_none_right_eq_some.mp hs
    obtain ⟨y, hk, hpc⟩ := Option.map_eq_some_iff.mp hdone
    have hok := h.reclaimer
    rw [hr] at hok
    apply h.setReclaimer
    · rw [hr]
      rfl
    · rw [hr]
      rfl
    · exact nofun
    · exact fun c hc => ⟨k, y, hk, hpc, hok.2 c hc⟩
    · apply h.not_leaving
      rw [hr]
      nofun
  · rename_i size c rest hr
    cases hs
    apply h.finish hr
  · rename_i size c rest hr
    have hok := h.reclaimer
    rw [hr] at hok
    cases hs
    apply h.setReclaimer
    · rw [hr]
      rfl
    · rw [hr]
      rfl
    · exact nofun
    · exact hok
    · apply h.not_leaving
      rw [hr]
      nofun
  · rename_i size hr
    cases hs
    apply (h.count hr).look rfl
  all_goals cases hs

theorem Inv.destroy (h : Inv n s) (hs : s.destroy = some s') : Inv n s' := by
  rw [State.destroy] at hs
  split at hs
  · cases hs
    exact { h with leaving := nofun }
  · cases hs
    have h₁ : Inv n { s with destructor := .notified } := { h with leaving := nofun }
    apply h₁.setReclaimer
    · apply s.reclaimer.pending_notified
    · apply s.reclaimer.size_notified
    · intro hidle
      apply h.idle
      cases hr : s.reclaimer with
      | asleep => trivial
      | _ =>
          rw [hr] at hidle
          exact hidle
    · have hok := h.reclaimer
      cases hr : s.reclaimer <;> rw [hr] at hok <;> exact hok
    · exact nofun
  · cases hs
    refine { h with leaving := ?_ }
    split
    · rename_i hr
      exact fun _ => hr
    · exact nofun
  · obtain ⟨hr, ⟨⟩⟩ := Option.ite_none_right_eq_some.mp hs
    have hqueue := h.idle (by rw [hr]; trivial)
    have horder := h.order
    have hcounted := h.counted
    rw [hr] at horder hcounted
    exact { h with order := horder, counted := hcounted, sized := le_rfl,
                   idle := fun _ => hqueue, leaving := fun _ => rfl, reclaimer := trivial }
  · obtain ⟨hr, ⟨⟩⟩ := Option.ite_none_right_eq_some.mp hs
    exact { h with leaving := fun _ => hr }
  · cases hs

/-- No callback is queued once the reclaimer has returned, or while the destructor leaves, which has
joined it or found none. -/
def CallOk (s : State) : Act → Prop
  | .call => s.reclaimer ≠ .returned ∧ s.destructor ≠ .leaving
  | _ => True

instance (s : State) : (a : Act) → Decidable (CallOk s a)
  | .call => inferInstanceAs (Decidable (_ ∧ _))
  | .rcu _ | .barrier _ | .recheck _ | .wake | .reclaim _ | .destroy =>
      inferInstanceAs (Decidable True)

theorem Inv.step
    (h : Inv n s) {a : Act} (hok : CallOk s a) (hs : s.step n a = some s') :
  Inv n s'
  := by
  obtain ⟨hdone, hs⟩ := Option.ite_none_left_eq_some.mp hs
  cases a with
  | rcu a => apply h.rcuStep hs
  | call =>
      cases hs
      apply h.call hok.1 hok.2 hdone
  | barrier b =>
      obtain ⟨-, ⟨⟩⟩ := Option.ite_none_right_eq_some.mp hs
      apply h.setBarrier le_rfl
  | recheck b =>
      simp only at hs
      split at hs
      · rename_i target hb
        cases hs
        apply h.setBarrier (h.barriers hb).1
      · cases hs
  | wake =>
      obtain ⟨hr, ⟨⟩⟩ := Option.ite_none_right_eq_some.mp hs
      apply h.setReclaimer
      · rw [hr]
        rfl
      · rw [hr]
        rfl
      · exact nofun
      · trivial
      · apply h.not_leaving
        rw [hr]
        nofun
  | reclaim k => apply h.reclaim hs
  | destroy => apply h.destroy hs

/-! ### Progress -/

/-- A step of the reclaimer. -/
def Act.isReclaim : Act → Bool
  | .reclaim _ => true
  | _ => false

/-- The steps of the reclaimer before it comes to a callback that is some places behind the one it
comes to next, if those between took none: it has to take it first if it is not in the batch. -/
def Reclaimer.movesTo (place : Nat) : Reclaimer → Nat
  | .running _ (some _) rest => if place < rest.length + 1 then 1 else 4
  | .running _ none rest => if place < rest.length then 2 else 5
  | .syncing _ batch => if place < batch.length then 3 else 6
  | .taken batch => if place < batch.length then 4 else 7
  | .absent | .asleep | .awake | .returned => 5

/-- The steps of the reclaimer until a callback has finished.  A callback takes two. -/
def State.movesLeft (s : State) (c : Nat) : Nat :=
  2 * (c - s.ran.length) + s.reclaimer.movesTo (c - s.ran.length)

theorem Reclaimer.movesTo_pos (place : Nat) (r : Reclaimer) : 0 < r.movesTo place := by
  fun_cases movesTo <;> decide

theorem State.movesLeft_pos (s : State) (c : Nat) : 0 < s.movesLeft c := by
  rw [movesLeft]
  apply Nat.add_pos_right _ (Reclaimer.movesTo_pos _ _)

theorem Reclaimer.Idle.pending {r : Reclaimer} (h : r.Idle) : r.pending = [] := by
  cases r with
  | absent | asleep | returned => rfl
  | _ => cases h

/-- The reclaimer is not idle while there is a callback that has not finished. -/
theorem Inv.not_idle
    (h : Inv n s) {c : Nat} (hc : c < s.queued) (hran : c ∉ s.ran) :
  ¬ s.reclaimer.Idle
  := by
  intro hidle
  have hlen := h.length_le
  rw [h.idle hidle, hidle.pending] at hlen
  rw [h.mem_ran] at hran
  simp only [List.length_nil] at hlen
  omega

theorem Reclaimer.notified_of_not_idle {r : Reclaimer} (h : ¬ r.Idle) : r.notified = r := by
  cases r with
  | asleep => exact absurd trivial h
  | _ => rfl

theorem Reclaimer.started_notified_of_not_idle {r : Reclaimer} (h : ¬ r.Idle) :
    r.started.notified = r := by
  cases r with
  | absent | asleep => exact absurd trivial h
  | _ => rfl

theorem State.rcuStep_frame {a : Rcu.Act} (hs : s.rcuStep n a = some s') :
    s'.queued = s.queued ∧ s'.ran = s.ran ∧ s'.reclaimer = s.reclaimer
      ∧ s'.queue = s.queue := by
  obtain ⟨rcu, -, rfl⟩ := Option.map_eq_some_iff.mp hs
  exact ⟨rfl, rfl, rfl, rfl⟩

theorem State.look_frame (s : State) : s.look.queued = s.queued ∧ s.look.ran = s.ran := by
  rw [look]
  split
  · exact ⟨rfl, rfl⟩
  · exact ⟨rfl, rfl⟩

/-- Steps of others finish no callback and leave the reclaimer as it is while it is not idle. -/
theorem State.step_frame
    {a : Act} (ha : a.isReclaim = false) (hs : s.step n a = some s') :
  s.queued ≤ s'.queued ∧ s'.ran = s.ran ∧ (¬ s.reclaimer.Idle → s'.reclaimer = s.reclaimer)
  := by
  obtain ⟨-, hs⟩ := Option.ite_none_left_eq_some.mp hs
  cases a with
  | rcu a =>
      obtain ⟨hqueued, hran, hr, -⟩ := rcuStep_frame hs
      exact ⟨hqueued.ge, hran, fun _ => hr⟩
  | call =>
      cases hs
      exact ⟨Nat.le_succ _, rfl, Reclaimer.started_notified_of_not_idle⟩
  | barrier b =>
      obtain ⟨-, ⟨⟩⟩ := Option.ite_none_right_eq_some.mp hs
      exact ⟨le_rfl, rfl, fun _ => rfl⟩
  | recheck b =>
      simp only at hs
      split at hs
      · cases hs
        exact ⟨le_rfl, rfl, fun _ => rfl⟩
      · cases hs
  | wake =>
      obtain ⟨hr, ⟨⟩⟩ := Option.ite_none_right_eq_some.mp hs
      rw [hr]
      exact ⟨le_rfl, rfl, fun hidle => absurd trivial hidle⟩
  | reclaim k => cases ha
  | destroy =>
      simp only [destroy] at hs
      split at hs
      · cases hs
        exact ⟨le_rfl, rfl, fun _ => rfl⟩
      · cases hs
        exact ⟨le_rfl, rfl, Reclaimer.notified_of_not_idle⟩
      · cases hs
        exact ⟨le_rfl, rfl, fun _ => rfl⟩
      · obtain ⟨hr, ⟨⟩⟩ := Option.ite_none_right_eq_some.mp hs
        rw [hr]
        exact ⟨le_rfl, rfl, fun hidle => absurd trivial hidle⟩
      · obtain ⟨-, ⟨⟩⟩ := Option.ite_none_right_eq_some.mp hs
        exact ⟨le_rfl, rfl, fun _ => rfl⟩
      · cases hs

theorem State.reclaim_grows {k : Nat} (hs : s.reclaim n k = some s') :
    s'.queued = s.queued ∧ ∀ c ∈ s.ran, c ∈ s'.ran := by
  rw [reclaim] at hs
  split at hs
  · cases hs
    obtain ⟨hqueued, hran⟩ := s.look_frame
    exact ⟨hqueued, fun c hc => hran.symm ▸ hc⟩
  · obtain ⟨s₁, hs₁, rfl⟩ := Option.map_eq_some_iff.mp hs
    obtain ⟨hqueued, hran, -⟩ := rcuStep_frame hs₁
    exact ⟨hqueued, fun c hc => hran.symm ▸ hc⟩
  · obtain ⟨-, ⟨⟩⟩ := Option.ite_none_right_eq_some.mp hs
    exact ⟨rfl, fun c hc => hc⟩
  · cases hs
    exact ⟨rfl, fun c hc => List.mem_append_left _ hc⟩
  · cases hs
    exact ⟨rfl, fun c hc => hc⟩
  · cases hs
    obtain ⟨hqueued, hran⟩ := look_frame _
    exact ⟨hqueued, fun c hc => hran.symm ▸ hc⟩
  all_goals cases hs

/-- What has finished stays so. -/
theorem State.step_grows {a : Act} (hs : s.step n a = some s') :
    s.queued ≤ s'.queued ∧ ∀ c ∈ s.ran, c ∈ s'.ran := by
  cases a with
  | reclaim k =>
      obtain ⟨-, hs⟩ := Option.ite_none_left_eq_some.mp hs
      obtain ⟨hqueued, hran⟩ := reclaim_grows hs
      exact ⟨hqueued.ge, hran⟩
  | _ =>
      obtain ⟨hqueued, hran, -⟩ := step_frame rfl hs
      exact ⟨hqueued, fun c hc => hran.symm ▸ hc⟩

/-- The reclaimer takes the queue a callback is in. -/
theorem Inv.movesLeft_look
    (h : Inv n s) (hr : s.reclaimer = .awake) {c : Nat} (hc : c < s.queued) (hran : c ∉ s.ran) :
  s.look.movesLeft c + 1 ≤ 2 * (c - s.ran.length) + 5
  := by
  have hlen := h.length_le
  rw [hr] at hlen
  rw [h.mem_ran] at hran
  simp only [Reclaimer.pending, List.length_nil] at hlen
  have hqueue : s.queue ≠ [] := by
    intro hnil
    rw [hnil, List.length_nil] at hlen
    omega
  rw [State.look, if_neg hqueue]
  simp only [State.movesLeft, Reclaimer.movesTo]
  rw [if_pos (by omega)]

/-- Every step of the reclaimer brings it nearer to a callback. -/
theorem Inv.movesLeft_reclaim
    (h : Inv n s) {c k : Nat} (hc : c < s.queued) (hran : c ∉ s.ran)
    (hs : s.reclaim n k = some s') :
  c ∈ s'.ran ∨ s'.movesLeft c + 1 ≤ s.movesLeft c
  := by
  rw [State.reclaim] at hs
  split at hs
  · rename_i hr
    cases hs
    have hleft : s.movesLeft c = 2 * (c - s.ran.length) + 5 := by
      rw [State.movesLeft, hr]
      rfl
    right
    rw [hleft]
    apply h.movesLeft_look hr hc hran
  · rename_i batch hr
    obtain ⟨s₁, hs₁, rfl⟩ := Option.map_eq_some_iff.mp hs
    obtain ⟨-, hran₁, -⟩ := State.rcuStep_frame hs₁
    right
    simp only [State.movesLeft, hr, hran₁, Reclaimer.movesTo]
    split <;> rfl
  · rename_i k batch hr
    obtain ⟨-, ⟨⟩⟩ := Option.ite_none_right_eq_some.mp hs
    right
    simp only [State.movesLeft, hr, Reclaimer.movesTo]
    split <;> rfl
  · rename_i size c' rest hr
    cases hs
    have hran' := (h.finish hr).mem_ran (c := c)
    rw [hran']
    rw [h.mem_ran] at hran
    simp only [State.movesLeft, hr, Reclaimer.movesTo, List.length_append, List.length_cons,
      List.length_nil]
    split <;> split <;> omega
  · rename_i size c' rest hr
    cases hs
    right
    simp only [State.movesLeft, hr, Reclaimer.movesTo, List.length_cons]
    split <;> rfl
  · rename_i size hr
    cases hs
    have hleft : s.movesLeft c = 2 * (c - s.ran.length) + 5 := by
      rw [State.movesLeft, hr]
      rfl
    right
    rw [hleft]
    exact (h.count hr).movesLeft_look rfl hc hran
  all_goals cases hs

/-- A callback that is queued finishes after so many steps of the reclaimer, whatever others do. -/
theorem Inv.mem_ran_of_path
    (h : Inv n s) {c : Nat} (hc : c < s.queued) {as : List Act}
    (hpath : Path (State.step n) CallOk s as s')
    (hle : s.movesLeft c ≤ as.countP Act.isReclaim) :
  c ∈ s'.ran
  := by
  apply hpath.met (I := fun s => Inv n s ∧ c < s.queued) (G := fun s => c ∈ s.ran)
    (r := fun s => s.movesLeft c) (p := Act.isReclaim) ⟨h, hc⟩ _ _ _ _ (.inr hle)
  · rintro s a s' ⟨h, hc⟩ hok hs
    exact ⟨h.step hok hs, hc.trans_le (State.step_grows hs).1⟩
  · intro s a s' hmem hs
    apply (State.step_grows hs).2 c hmem
  · intro s
    apply s.movesLeft_pos
  · rintro s a s' ⟨h, hc⟩ hok hs hran
    cases a with
    | reclaim k =>
        obtain ⟨-, hs⟩ := Option.ite_none_left_eq_some.mp hs
        apply h.movesLeft_reclaim hc hran hs
    | _ =>
        obtain ⟨-, hran', hr⟩ := State.step_frame rfl hs
        right
        rw [State.movesLeft, State.movesLeft, hran', hr (h.not_idle hc hran)]
        exact le_rfl

/-- The reclaimer can go on while there is a callback that has not finished, unless its grace period
has not ended. -/
theorem Inv.can_reclaim
    (h : Inv n s) {c : Nat} (hc : c < s.queued) (hran : c ∉ s.ran) :
  (∃ k, (s.step n (.reclaim k)).isSome = true)
    ∨ ∃ k batch y, s.reclaimer = .syncing k batch ∧ s.rcu.syncs k = some y ∧ y.pc ≠ .done
  := by
  have hidle := h.not_idle hc hran
  have hdone : s.destructor ≠ .returned := by
    intro hd
    rw [h.leaving (.inr hd)] at hidle
    exact hidle trivial
  simp only [State.step, if_neg hdone, State.reclaim]
  have hok := h.reclaimer
  cases hr : s.reclaimer with
  | absent | asleep | returned =>
      rw [hr] at hidle
      exact absurd trivial hidle
  | awake => exact .inl ⟨0, rfl⟩
  | taken batch =>
      obtain ⟨N, hN⟩ := h.fresh
      left
      use N
      simp [State.rcuStep, Rcu.State.step, hN N le_rfl]
  | syncing k batch =>
      rw [hr] at hok
      obtain ⟨y, hk⟩ := Option.isSome_iff_exists.mp hok.1
      by_cases hpc : y.pc = .done
      · left
        use 0
        simp [hk, hpc]
      · exact .inr ⟨k, batch, y, rfl, hk, hpc⟩
  | running size current rest =>
      left
      use 0
      cases current with
      | some c => rfl
      | none =>
          cases rest with
          | nil => rfl
          | cons c rest => rfl

/-! ### Runs -/

/-- The callbacks that have begun are in order, none twice. -/
theorem Inv.started
    (h : Inv n s) :
  ∃ rest, (s.ran ++ s.reclaimer.current.toList) ++ rest = List.range s.queued
  := by
  have hpending : ∃ rest, s.reclaimer.pending = s.reclaimer.current.toList ++ rest := by
    cases s.reclaimer with
    | running size current rest => exact ⟨rest, rfl⟩
    | _ => exact ⟨_, rfl⟩
  obtain ⟨rest, hrest⟩ := hpending
  use rest ++ s.queue
  rw [← h.order, hrest, List.append_assoc, List.append_assoc]

theorem Inv.graced_of_started
    (h : Inv n s) {c : Nat} (hc : c ∈ s.ran ++ s.reclaimer.current.toList) :
  s.Graced c
  := by
  have hok := h.reclaimer
  rcases List.mem_append.mp hc with hc | hc
  · apply h.graced c hc
  · cases hr : s.reclaimer with
    | running size current rest =>
        rw [hr] at hok hc
        apply hok c (List.mem_append_left _ hc)
    | _ =>
        rw [hr] at hc
        cases hc

/-- The sections that were inside when a callback was queued have been left when a grace period that
began later ends. -/
theorem Inv.not_inside
    (h : Inv n s) {c : Nat} (hc : s.Graced c) (x : Section) (hx : x ∈ s.insideAt c) :
  x ∉ s.rcu.inside
  := by
  obtain ⟨k, y, hk, hdone, hlt⟩ := hc
  have hgone := (h.rcu.syncs hk).pc
  rw [hdone] at hgone
  rcases h.inside hk hlt x hx with hbefore | hout
  · apply hgone x hbefore
  · apply hout

/-- In every run in which no callback is queued once the reclaimer has returned or the destructor
leaves: no callback begins twice, and one that has begun was queued before a call of `synchronize`
began that has returned; the sections that were inside when it was queued have been left.  A barrier
that has returned has all callbacks finished that were queued before it, and so has the destructor
all.  A callback that has not finished does so after `movesLeft` steps of the reclaimer, whatever
others do, and the reclaimer can make its next step unless it waits for its grace period. -/
theorem callbacks_run
    (hr : Reach (State.step n) CallOk .init s) :
  (s.ran ++ s.reclaimer.current.toList).Nodup
    ∧ (∀ c ∈ s.ran ++ s.reclaimer.current.toList,
      c < s.queued ∧ s.Graced c ∧ ∀ x ∈ s.insideAt c, x ∉ s.rcu.inside)
    ∧ (∀ {b x}, s.barriers b = some x → x.returned = true → ∀ c < x.target, c ∈ s.ran)
    ∧ (s.destructor = .returned → ∀ c < s.queued, c ∈ s.ran)
    ∧ ∀ c < s.queued, c ∉ s.ran →
      (∀ {as s'}, Path (State.step n) CallOk s as s' →
        s.movesLeft c ≤ as.countP Act.isReclaim → c ∈ s'.ran)
      ∧ ((∃ k, (s.step n (.reclaim k)).isSome = true)
        ∨ ∃ k batch y, s.reclaimer = .syncing k batch ∧ s.rcu.syncs k = some y ∧ y.pc ≠ .done)
  := by
  have h : Inv n s := hr.invariant .init fun _ _ _ h hok hs => h.step hok hs
  obtain ⟨rest, hrest⟩ := h.started
  refine ⟨?_, ?_, ?_, ?_, ?_⟩
  · have hnodup := List.nodup_range (n := s.queued)
    rw [← hrest] at hnodup
    apply hnodup.of_append_left
  · intro c hc
    have hgraced := h.graced_of_started hc
    refine ⟨?_, hgraced, h.not_inside hgraced⟩
    rw [← List.mem_range, ← hrest]
    apply List.mem_append_left _ hc
  · intro b x hb hret c hc
    have hcounted := h.counted
    have hsized := h.sized
    have hle := (h.barriers hb).2 hret
    rw [h.mem_ran]
    omega
  · intro hd c hc
    by_contra hran
    apply h.not_idle hc hran
    rw [h.leaving (.inr hd)]
    trivial
  · intro c hc hran
    exact ⟨fun hpath hle => h.mem_ran_of_path hc hpath hle, h.can_reclaim hc hran⟩

/-- The steps of a call of `synchronize` that runs alone and finds no section inside. -/
def quietSync (n k : Nat) : List Act := List.replicate (4 * n + 11) (.rcu (.sync k))

/-- A callback is queued and taken, and a barrier waits for it.  While it runs it queues another,
and the destructor is called; the barrier returns while the second waits for its grace period. -/
def twoCallbacks : Option State :=
  guarded (State.step 1) CallOk .init (([.call, .reclaim 0, .barrier 0, .reclaim 0] : List Act)
    ++ quietSync 1 0
    ++ ([.reclaim 0, .reclaim 0, .call, .destroy, .reclaim 0, .reclaim 0, .recheck 0, .reclaim 1]
      : List Act)
    ++ quietSync 1 1 ++ List.replicate 4 (Act.reclaim 0) ++ List.replicate 4 Act.destroy)

theorem twoCallbacks_run :
    ∃ s, twoCallbacks = some s ∧ s.destructor = .returned ∧ s.queued = 2
      ∧ s.barriers 0 = some ⟨1, true⟩ ∧ 0 ∈ s.ran ∧ 1 ∈ s.ran := by
  have hsome : twoCallbacks.isSome = true := by decide +kernel
  have hend : twoCallbacks.map (fun s => (s.destructor, s.queued, s.barriers 0))
      = some (.returned, 2, some ⟨1, true⟩) := by decide +kernel
  obtain ⟨s, hs⟩ := Option.isSome_iff_exists.mp hsome
  rw [hs, Option.map_some, Option.some.injEq, Prod.mk.injEq, Prod.mk.injEq] at hend
  obtain ⟨hdtor, hqueued, hbarrier⟩ := hend
  obtain ⟨-, -, hbarriers, hran, -⟩ := callbacks_run (.of_guarded hs)
  refine ⟨s, hs, hdtor, hqueued, hbarrier, ?_, ?_⟩
  · apply hbarriers hbarrier rfl 0 Nat.one_pos
  · apply hran hdtor 1
    rw [hqueued]
    exact Nat.one_lt_two

/-- The slots of `rcu.h`. -/
def kMaxThreads : Nat := 256

/-- The reclaimer has run a callback and returned, since the destructor has told it to stop, when
another thread queues a callback. -/
def lateCall : Option State :=
  run (State.step kMaxThreads) .init (([.call, .reclaim 0, .reclaim 0] : List Act)
    ++ quietSync kMaxThreads 0 ++ List.replicate 3 (Act.reclaim 0)
    ++ ([.destroy, .reclaim 0, .call] : List Act) ++ List.replicate 4 Act.destroy)

/-- A callback that is queued so late never runs, though the destructor returns. -/
theorem lateCall_lost :
    ∃ s, lateCall = some s ∧ s.destructor = .returned ∧ s.queued = 2 ∧ s.ran = [0] := by
  have hend : lateCall.map (fun s => (s.destructor, s.queued, s.ran))
      = some (.returned, 2, [0]) := by decide +kernel
  obtain ⟨s, hs, hend⟩ := Option.map_eq_some_iff.mp hend
  rw [Prod.mk.injEq, Prod.mk.injEq] at hend
  exact ⟨s, hs, hend⟩

end Callbacks

end UDepot.Rcu
