import UDepot.Salsa.Invariant

/-!
# What a step does

A frontend sees of a segment whether it is free, taken for an allocator, has grains to be handed
out, is closed, is to be relocated, or may be reused (`Seen`).

A step moves one segment, in the hands of one call (`Move`), or changes the counters of a segment
wherever that is, or neither (`Stay`); and what the frontend sees of the segment takes a turn of a
few kinds, or none (`Turns`).  Whatever does so keeps the segments in order (`Does.inv`).
-/

namespace UDepot.Salsa

open Custody

/-! ### What a frontend sees -/

/-- What a frontend sees of a segment: it is told when a segment is taken for an allocator, gets
grains of it, is asked to relocate it, and told when it may be reused. -/
inductive Seen where
  | free
  | stamping (a : Nat)
  | opened (a pos : Nat)
  | closed
  | victim
  | deferred
  deriving DecidableEq, Repr

def Phase.seen : Phase → Seen
  | .prepare _ _ _ | .putFree _ => .free
  | .segMd a _ _ | .toStage a _ _ => .stamping a
  | .reloc _ => .victim
  | _ => .closed

def Spot.seen (cfg : Config) (x : Nat) (rs : List Grains) : Spot → Seen
  | .on .free | .on .freeRel | .absent => .free
  | .on (.stage a) => .opened a (cfg.segToGrain x + total rs)
  | .deferred => .deferred
  | _ => .closed

def seenAt (cfg : Config) (x : Nat) (rs : List Grains) (sp : Spot) (ph : Phase) : Seen :=
  match sp with
  | .hand _ => ph.seen
  | sp => sp.seen cfg x rs

/-- What a frontend sees of a segment. -/
def State.seen (cfg : Config) (s : State) (x : Nat) : Seen :=
  match s.spot x with
  | .hand i => (s.phase i).seen
  | sp => sp.seen cfg x (s.grains x)

/-- The grains of a segment are out of use. -/
def Unused (rs : List Grains) : Prop := held rs = 0 ∧ live rs = 0

/-- What becomes of a segment and its grains, as a frontend sees it. -/
inductive Turns (cfg : Config) (x : Nat) : Seen → List Grains → Seen → List Grains → Prop
  | same {v : Seen} {rs : List Grains} : Turns cfg x v rs v rs
  | take {a : Nat} {rs : List Grains} (ha : a < cfg.streamNr) (h : Unused rs) :
      Turns cfg x .free rs (.stamping a) []
  | stage {a : Nat} : Turns cfg x (.stamping a) [] (.opened a (cfg.segToGrain x)) []
  | handOut {a pos len : Nat} {rs : List Grains} (hlen : 0 < len)
      (hroom : pos + len + cfg.reservedPerSeg ≤ cfg.segToGrain x + cfg.segSize) :
      Turns cfg x (.opened a pos) rs (.opened a (pos + len)) (rs ++ [⟨pos, len, false, true⟩])
  | fill {a pos len : Nat} {rs : List Grains} (hlen : 0 < len)
      (hroom : pos + len + cfg.reservedPerSeg ≤ cfg.segToGrain x + cfg.segSize) :
      Turns cfg x (.opened a pos) rs .closed (rs ++ [⟨pos, len, false, true⟩])
  | close {a pos : Nat} {rs : List Grains} : Turns cfg x (.opened a pos) rs .closed rs
  | release {v : Seen} {rs : List Grains} {k : Nat} {r : Grains} (hv : v ≠ .free)
      (hk : rs[k]? = some r) (hr : r.released = false) :
      Turns cfg x v rs v (rs.modify k fun r => { r with released := true })
  | invalidate {v : Seen} {rs : List Grains} {k : Nat} {r : Grains} (hv : v ≠ .free)
      (hk : rs[k]? = some r) (hr : r.valid = true) :
      Turns cfg x v rs v (rs.modify k fun r => { r with valid := false })
  | pick {rs : List Grains} (hheld : held rs = 0) : Turns cfg x .closed rs .victim rs
  | putBack {rs : List Grains} : Turns cfg x .victim rs .closed rs
  | defer {rs : List Grains} (h : Unused rs) : Turns cfg x .closed rs .deferred rs
  | free {v : Seen} {rs : List Grains} (hv : v = .closed ∨ v = .victim ∨ v = .deferred)
      (h : Unused rs) : Turns cfg x v rs .free rs

/-! ### Moves -/

/-- A call moves a segment. -/
structure Move (cfg : Config) (s s' : State) (i x : Nat) (ph₀ ph : Phase)
    (sp₀ sp : Spot) : Prop where
  phase₀ : s.phase i = ph₀
  spot₀ : s.spot x = sp₀
  phase : s'.phase = Function.update s.phase i ph
  spot : s'.spot = Function.update s.spot x sp
  rest : ∀ y, y ≠ x → s'.segs y = s.segs y ∧ s'.grains y = s.grains y
  grip₀ : Grip i x sp₀ ph₀
  grip : Grip i x sp ph
  queues : Shifts s.queues s'.queues x (lifeAt sp₀ ph₀).place (lifeAt sp ph).place
  segLock : Custody.Passes s.segLock s'.segLock i ph₀.segLock ph.segLock
  stageLock : Custody.Passes s.stageLock s'.stageLock i ph₀.stageLock ph.stageLock
  allocating : Custody.Passes s.allocating s'.allocating i ph₀.allocating ph.allocating
  ok : ph.Ok cfg s'.queues
  seg : SegOk cfg x (lifeAt sp ph) (s'.segs x) (s'.grains x)
  turns : Turns cfg x (seenAt cfg x (s.grains x) sp₀ ph₀) (s.grains x)
    (seenAt cfg x (s'.grains x) sp ph) (s'.grains x)

/-- A call that has no segment in hand goes on. -/
structure Stay (cfg : Config) (s s' : State) (i : Nat) (ph₀ ph : Phase) : Prop where
  phase₀ : s.phase i = ph₀
  hand₀ : ph₀.hand = none
  phase : s'.phase = Function.update s.phase i ph
  spot : s'.spot = s.spot
  segs : s'.segs = s.segs
  grains : s'.grains = s.grains
  queues : s'.queues = s.queues
  hand : ph.hand = none
  segLock : Custody.Passes s.segLock s'.segLock i ph₀.segLock ph.segLock
  stageLock : Custody.Passes s.stageLock s'.stageLock i ph₀.stageLock ph.stageLock
  allocating : Custody.Passes s.allocating s'.allocating i ph₀.allocating ph.allocating
  ok : ph.Ok cfg s'.queues

/-- The counters of a segment change. -/
structure Recount (cfg : Config) (s s' : State) (x : Nat) (g : Segment)
    (rs : List Grains) : Prop where
  eq : s' = { s with
    segs := Function.update s.segs x g
    grains := Function.update s.grains x rs }
  seg : SegOk cfg x (s.life x) g rs
  total_eq : total rs = total (s.grains x)
  turns : Turns cfg x (s.seen cfg x) (s.grains x) (s.seen cfg x) rs

/-- What a step does. -/
inductive Does (cfg : Config) : State → State → Prop
  | move {s s' : State} {i x : Nat} {ph₀ ph : Phase} {sp₀ sp : Spot}
      (h : Move cfg s s' i x ph₀ ph sp₀ sp) : Does cfg s s'
  | stay {s s' : State} {i : Nat} {ph₀ ph : Phase} (h : Stay cfg s s' i ph₀ ph) : Does cfg s s'
  | recount {s s' : State} {x : Nat} {g : Segment} {rs : List Grains}
      (h : Recount cfg s s' x g rs) : Does cfg s s'
  | trans {s t s' : State} (h : Does cfg s t) (h' : Does cfg t s') : Does cfg s s'

section

variable {cfg : Config} {s s' : State} {i x a : Nat} {ph₀ ph : Phase} {sp₀ sp : Spot}

/-! ### What holds after a move -/

theorem lifeAt_spot (h : sp.Rests) (ph : Phase) : lifeAt sp ph = sp.life := by
  cases sp with
  | hand j => exact h.elim
  | _ => rfl

theorem seenAt_spot (h : sp.Rests) (rs : List Grains) (ph : Phase) :
    seenAt cfg x rs sp ph = sp.seen cfg x rs := by
  cases sp with
  | hand j => exact h.elim
  | _ => rfl

theorem seenAt_opened
    {rs : List Grains} {pos : Nat} (h : seenAt cfg x rs sp ph = .opened a pos) :
  sp = .on (.stage a)
  := by
  cases sp with
  | hand j => cases ph <;> cases h
  | on q =>
      cases q with
      | stage a' =>
          cases h
          rfl
      | _ => cases h
  | _ => cases h

theorem seenAt_stamping
    {rs : List Grains} (h : seenAt cfg x rs sp ph = .stamping a) : ph.awaits = some a := by
  cases sp with
  | hand j =>
      cases ph <;> cases h
      · rfl
      · rfl
  | on q => cases q <;> cases h
  | _ => cases h

/-- A segment that comes to a stage was taken for its allocator. -/
theorem Turns.awaits
    {rs rs' : List Grains}
    (h : Turns cfg x (seenAt cfg x rs sp₀ ph₀) rs (seenAt cfg x rs' sp ph) rs')
    (hto : (lifeAt sp ph).place = some (.stage a)) (hfrom : (lifeAt sp₀ ph₀).place = none) :
  ph₀.awaits = some a
  := by
  have hopened : ∃ pos, seenAt cfg x rs' sp ph = .opened a pos := by
    cases sp with
    | hand j =>
        obtain hnone | ⟨b, hb⟩ := ph.place_life
        · cases hnone.symm.trans hto
        · cases hb.symm.trans hto
    | on q =>
        cases q <;> cases hto
        exact ⟨_, rfl⟩
    | _ => cases hto
  obtain ⟨pos, hopened⟩ := hopened
  -- it was not on the stage before
  have hnot : ∀ a' pos', seenAt cfg x rs sp₀ ph₀ ≠ .opened a' pos' := by
    intro a' pos' hseen
    rw [seenAt_opened hseen] at hfrom
    cases hfrom
  generalize hv : seenAt cfg x rs sp₀ ph₀ = v at h hnot
  rw [hopened] at h
  cases h with
  | stage => exact seenAt_stamping hv
  | same | handOut | release | invalidate => exact absurd rfl (hnot _ _)

namespace Move

variable (h : Inv cfg s) (m : Move cfg s s' i x ph₀ ph sp₀ sp)

include h m

/-- No other segment is in the hands of the call. -/
theorem spot_ne {y : Nat} (hy : y ≠ x) : s.spot y ≠ .hand i := by
  intro hspot
  have hhand := h.hand_of_spot hspot
  rw [m.phase₀] at hhand
  cases m.grip₀ with
  | hand hx' =>
      rw [hx'] at hhand
      exact hy (Option.some.inj hhand).symm
  | spot _ hnone =>
      rw [hnone] at hhand
      cases hhand

theorem life_of_ne {y : Nat} (hy : y ≠ x) : s'.life y = s.life y := by
  rw [State.life, State.life, m.spot, Function.update_of_ne hy]
  split
  · rename_i j hj
    rw [m.phase, Function.update_of_ne]
    rintro rfl
    exact m.spot_ne h hy hj
  · rfl

omit h in
theorem life_eq : s'.life x = lifeAt sp ph :=
  m.grip.life_eq (by rw [m.phase, Function.update_self]) (by rw [m.spot, Function.update_self])

theorem placed : Custody.Placed s'.queues fun y => (s'.life y).place := by
  have hlives : (fun y => (s'.life y).place)
      = Function.update (fun y => (s.life y).place) x (lifeAt sp ph).place := by
    funext y
    by_cases hy : y = x
    · subst hy
      rw [Function.update_self, m.life_eq]
    · rw [Function.update_of_ne hy, m.life_of_ne h hy]
  rw [hlives]
  exact h.placed.shifts (congrArg Life.place (m.grip₀.life_eq m.phase₀ m.spot₀)) m.queues

theorem hands : Owned s'.holder fun j => (s'.phase j).hand := by
  intro y j
  change (s'.spot y).holder = some j ↔ (s'.phase j).hand = some y
  rw [m.phase, m.spot, Spot.holder_eq_some]
  by_cases hy : y = x
  · subst hy
    rw [Function.update_self]
    by_cases hj : j = i
    · subst hj
      rw [Function.update_self]
      cases m.grip with
      | hand hhand => simp [hhand]
      | spot hnot hnone => simp [hnone, hnot.ne_hand]
    · rw [Function.update_of_ne hj, ← h.hands]
      have hnot : s.holder y ≠ some j := by
        intro hhold
        rw [State.holder, m.spot₀, Spot.holder_eq_some] at hhold
        cases m.grip₀ with
        | hand _ => exact hj (Spot.hand.inj hhold).symm
        | spot hnot _ => exact hnot.ne_hand j hhold
      cases m.grip with
      | hand _ => simp [hnot, Ne.symm hj]
      | spot hnot' _ => simp [hnot, hnot'.ne_hand]
  · rw [Function.update_of_ne hy]
    by_cases hj : j = i
    · subst hj
      rw [Function.update_self]
      cases m.grip with
      | hand hhand => simp [hhand, m.spot_ne h hy, Ne.symm hy]
      | spot _ hnone => simp [hnone, m.spot_ne h hy]
    · rw [Function.update_of_ne hj, ← h.hands, State.holder, Spot.holder_eq_some]

/-- A segment is staged for an allocator that has none, by the call that took it. -/
theorem staged (a : Nat) :
    (s'.queues (.stage a)).length ≤ 1
      ∧ ∀ j, j ≠ i → (s.phase j).awaits = some a → s'.queues (.stage a) = [] := by
  have hempty : ∀ j, (s.phase j).awaits = some a → s.queues (.stage a) = [] :=
    fun j => (h.phase j).await a
  have hq := m.queues
  generalize hfrom : (lifeAt sp₀ ph₀).place = o at hq
  generalize hto : (lifeAt sp ph).place = o' at hq
  cases hq with
  | same heq =>
      rw [heq]
      exact ⟨h.oneStaged a, fun j _ => hempty j⟩
  | @on q heq =>
      rw [heq, Custody.enqueue]
      by_cases hqa : q = .stage a
      · subst hqa
        have hawaits := m.turns.awaits hto hfrom
        rw [Function.update_self, hempty i (by rw [m.phase₀, hawaits])]
        refine ⟨Nat.le_refl 1, fun j hj hj' => absurd ?_ hj⟩
        -- the allocator gets a segment through one call
        have hi' : (s.phase i).awaits = some a := by rw [m.phase₀, hawaits]
        exact Option.some.inj (((h.allocating a j).mpr (Phase.allocating_of_awaits hj')).symm.trans
          ((h.allocating a i).mpr (Phase.allocating_of_awaits hi')))
      · rw [Function.update_of_ne (Ne.symm hqa)]
        exact ⟨h.oneStaged a, fun j _ => hempty j⟩
  | @off q heq =>
      rw [heq, Custody.dequeue]
      by_cases hqa : q = .stage a
      · subst hqa
        rw [Function.update_self]
        refine ⟨Nat.le_trans (List.length_erase_le ..) (h.oneStaged a), fun j _ hj => ?_⟩
        rw [hempty j hj]
        rfl
      · rw [Function.update_of_ne (Ne.symm hqa)]
        exact ⟨h.oneStaged a, fun j _ => hempty j⟩

theorem inv : Inv cfg s' := by
  have hphase : ∀ {j}, j ≠ i → s'.phase j = s.phase j := by
    intro j hj
    rw [m.phase, Function.update_of_ne hj]
  have hphasei : s'.phase i = ph := by rw [m.phase, Function.update_self]
  refine ⟨m.placed h, m.hands h, ?_, ?_, ?_, ?_, fun a => (m.staged h a).1, ?_, ?_⟩
  · rw [m.phase, holds_update]
    exact h.segLocks.passes (congrArg Phase.segLock m.phase₀) m.segLock
  · rw [m.phase, holds_update]
    exact h.stageLocks.passes (congrArg Phase.stageLock m.phase₀) m.stageLock
  · rw [m.phase, holds_update]
    exact h.allocating.passes (congrArg Phase.allocating m.phase₀) m.allocating
  · intro j
    by_cases hj : j = i
    · subst hj
      rw [hphasei]
      exact m.ok
    · rw [hphase hj]
      exact ⟨(h.phase j).bin, (h.phase j).len, fun a => (m.staged h a).2 j hj⟩
  · intro y
    rw [← h.absent, m.spot]
    by_cases hy : y = x
    · subst hy
      rw [Function.update_self, m.spot₀]
      exact ⟨fun h => absurd h m.grip.ne_absent, fun h => absurd h m.grip₀.ne_absent⟩
    · rw [Function.update_of_ne hy]
  · intro y
    by_cases hy : y = x
    · subst hy
      rw [m.life_eq]
      exact m.seg
    · rw [m.life_of_ne h hy, (m.rest y hy).1, (m.rest y hy).2]
      exact h.seg y

end Move

/-- A call that goes on without a segment leaves all segments where they are. -/
theorem Stay.life_eq (h : Inv cfg s) (m : Stay cfg s s' i ph₀ ph) : s'.life = s.life := by
  funext y
  rw [State.life, State.life, m.spot]
  split
  · rename_i j hj
    rw [m.phase, Function.update_of_ne]
    rintro rfl
    have hhand := h.hand_of_spot hj
    rw [m.phase₀, m.hand₀] at hhand
    cases hhand
  · rfl

theorem Stay.inv (h : Inv cfg s) (m : Stay cfg s s' i ph₀ ph) : Inv cfg s' := by
  refine ⟨?_, ?_, ?_, ?_, ?_, ?_, ?_, ?_, ?_⟩
  · rw [m.life_eq h, m.queues]
    exact h.placed
  · have hholder : s'.holder = s.holder := by
      funext y
      rw [State.holder, State.holder, m.spot]
    rw [m.phase, holds_update, hholder, m.hand]
    exact h.hands.passes (by rw [m.phase₀, m.hand₀]) (.same rfl)
  · rw [m.phase, holds_update]
    exact h.segLocks.passes (congrArg Phase.segLock m.phase₀) m.segLock
  · rw [m.phase, holds_update]
    exact h.stageLocks.passes (congrArg Phase.stageLock m.phase₀) m.stageLock
  · rw [m.phase, holds_update]
    exact h.allocating.passes (congrArg Phase.allocating m.phase₀) m.allocating
  · intro j
    by_cases hj : j = i
    · subst hj
      rw [m.phase, Function.update_self]
      exact m.ok
    · rw [m.phase, Function.update_of_ne hj, m.queues]
      exact h.phase j
  · rw [m.queues]
    exact h.oneStaged
  · rw [m.spot]
    exact h.absent
  · intro y
    rw [m.life_eq h, m.segs, m.grains]
    exact h.seg y

theorem Recount.inv
    {g : Segment} {rs : List Grains} (h : Inv cfg s) (m : Recount cfg s s' x g rs) :
  Inv cfg s' := by
  rw [m.eq]
  refine ⟨h.placed, h.hands, h.segLocks, h.stageLocks, h.allocating, h.phase, h.oneStaged,
    h.absent, ?_⟩
  intro y
  by_cases hy : y = x
  · subst hy
    simp only [Function.update_self]
    exact m.seg
  · simp only [Function.update_of_ne hy]
    exact h.seg y

theorem Does.inv (h : Inv cfg s) (hd : Does cfg s s') : Inv cfg s' := by
  induction hd with
  | move m | stay m | recount m => exact m.inv h
  | trans _ _ ih ih' => exact ih' (ih h)

/-- A call that has no segment in hand goes on, with the locks it has. -/
theorem Does.goto
    (hi : s.phase i = ph₀) (hnone : ph₀.hand = none) (hto : ph.hand = none)
    (hsegLock : ph₀.segLock = ph.segLock) (hstage : ph₀.stageLock = ph.stageLock)
    (halloc : ph₀.allocating = ph.allocating) (hok : ph.Ok cfg s.queues) :
  Does cfg s (s.goto i ph)
  :=
  .stay ⟨hi, hnone, rfl, rfl, rfl, rfl, rfl, hto, .of_eq hsegLock rfl, .of_eq hstage rfl,
    .of_eq halloc rfl, hok⟩

/-! ### Moves of three kinds -/

/-- A call goes on with a segment in its hands. -/
theorem Inv.keep
    (h : Inv cfg s) (hi : s.phase i = ph₀) (hhand : ph₀.hand = some x)
    (hphase : s'.phase = Function.update s.phase i ph) (hspot : s'.spot = s.spot)
    (hrest : ∀ y, y ≠ x → s'.segs y = s.segs y ∧ s'.grains y = s.grains y)
    (hto : ph.hand = some x)
    (hqueues : Shifts s.queues s'.queues x ph₀.life.place ph.life.place)
    (hsegLock : Custody.Passes s.segLock s'.segLock i ph₀.segLock ph.segLock)
    (hstage : Custody.Passes s.stageLock s'.stageLock i ph₀.stageLock ph.stageLock)
    (halloc : Custody.Passes s.allocating s'.allocating i ph₀.allocating ph.allocating)
    (hok : ph.Ok cfg s'.queues)
    (hseg : SegOk cfg x ph₀.life (s.segs x) (s.grains x) →
      SegOk cfg x ph.life (s'.segs x) (s'.grains x)
        ∧ Turns cfg x ph₀.seen (s.grains x) ph.seen (s'.grains x)) :
  Does cfg s s'
  := by
  have hx : s.spot x = .hand i := h.spot_of_hand (by rw [hi, hhand])
  have hspot' : s'.spot = Function.update s.spot x (.hand i) := by
    rw [hspot, ← hx, Function.update_eq_self]
  have hseg₀ := h.seg x
  rw [State.life_hand hx, hi] at hseg₀
  obtain ⟨hseg', hturns⟩ := hseg hseg₀
  exact .move ⟨hi, hx, hphase, hspot', hrest, .hand hhand, .hand hto, hqueues, hsegLock, hstage,
    halloc, hok, hseg', hturns⟩

/-- A call takes a segment that is in nobody's hands. -/
theorem Inv.pick
    (h : Inv cfg s) (hi : s.phase i = ph₀) (hnone : ph₀.hand = none) (hx : s.spot x = sp₀)
    (hnot : sp₀.Rests) (hphase : s'.phase = Function.update s.phase i ph)
    (hspot : s'.spot = Function.update s.spot x (.hand i))
    (hrest : ∀ y, y ≠ x → s'.segs y = s.segs y ∧ s'.grains y = s.grains y)
    (hto : ph.hand = some x)
    (hqueues : Shifts s.queues s'.queues x sp₀.life.place ph.life.place)
    (hsegLock : Custody.Passes s.segLock s'.segLock i ph₀.segLock ph.segLock)
    (hstage : Custody.Passes s.stageLock s'.stageLock i ph₀.stageLock ph.stageLock)
    (halloc : Custody.Passes s.allocating s'.allocating i ph₀.allocating ph.allocating)
    (hok : ph.Ok cfg s'.queues)
    (hseg : SegOk cfg x sp₀.life (s.segs x) (s.grains x) →
      SegOk cfg x ph.life (s'.segs x) (s'.grains x)
        ∧ Turns cfg x (sp₀.seen cfg x (s.grains x)) (s.grains x) ph.seen (s'.grains x)) :
  Does cfg s s'
  := by
  have hlife : s.life x = sp₀.life := by rw [State.life_spot (hx.symm ▸ hnot.ne_hand), hx]
  obtain ⟨hseg', hturns⟩ := hseg (hlife ▸ h.seg x)
  refine .move ⟨hi, hx, hphase, hspot, hrest, .spot hnot hnone, .hand hto, ?_, hsegLock, hstage,
    halloc, hok, hseg', ?_⟩
  · rw [lifeAt_spot hnot]
    exact hqueues
  · rw [seenAt_spot hnot]
    exact hturns

/-- A call puts down the segment it has in hand. -/
theorem Inv.put
    (h : Inv cfg s) (hi : s.phase i = ph₀) (hhand : ph₀.hand = some x)
    (hphase : s'.phase = Function.update s.phase i ph)
    (hspot : s'.spot = Function.update s.spot x sp) (hnot : sp.Rests)
    (hrest : ∀ y, y ≠ x → s'.segs y = s.segs y ∧ s'.grains y = s.grains y)
    (hto : ph.hand = none)
    (hqueues : Shifts s.queues s'.queues x ph₀.life.place sp.life.place)
    (hsegLock : Custody.Passes s.segLock s'.segLock i ph₀.segLock ph.segLock)
    (hstage : Custody.Passes s.stageLock s'.stageLock i ph₀.stageLock ph.stageLock)
    (halloc : Custody.Passes s.allocating s'.allocating i ph₀.allocating ph.allocating)
    (hok : ph.Ok cfg s'.queues)
    (hseg : SegOk cfg x ph₀.life (s.segs x) (s.grains x) →
      SegOk cfg x sp.life (s'.segs x) (s'.grains x)
        ∧ Turns cfg x ph₀.seen (s.grains x) (sp.seen cfg x (s'.grains x)) (s'.grains x)) :
  Does cfg s s'
  := by
  have hx : s.spot x = .hand i := h.spot_of_hand (by rw [hi, hhand])
  have hlife : s.life x = ph₀.life := by rw [State.life_hand hx, hi]
  obtain ⟨hseg', hturns⟩ := hseg (hlife ▸ h.seg x)
  refine .move ⟨hi, hx, hphase, hspot, hrest, .hand hhand, .spot hnot hto, ?_, hsegLock, hstage,
    halloc, hok, ?_, ?_⟩
  · rw [lifeAt_spot hnot]
    exact hqueues
  · rw [lifeAt_spot hnot]
    exact hseg'
  · rw [seenAt_spot hnot]
    exact hturns

end

end UDepot.Salsa
