import UDepot.Salsa.State

/-!
# Where the segments are

A segment has a point of its life (`Life`): that of the queue it is on, or of the phase of the call
that has it in hand.  The life says which queue the segment is on, what its state may be, and how
its counters go with the grains that were handed out (`SegOk`).
-/

namespace UDepot.Salsa

open Custody

/-! ### Grains -/

/-- The number of grains that satisfy a condition. -/
def count (p : Grains → Bool) : List Grains → Nat
  | [] => 0
  | r :: rs => (if p r then r.len else 0) + count p rs

def total (rs : List Grains) : Nat := count (fun _ => true) rs

/-- The grains that have not been released. -/
def held (rs : List Grains) : Nat := count (fun r => !r.released) rs

def live (rs : List Grains) : Nat := count (fun r => r.valid) rs

/-- Grains handed out one after the other, from an address on. -/
def Contig : Nat → List Grains → Prop
  | _, [] => True
  | start, r :: rs => r.start = start ∧ 0 < r.len ∧ Contig (start + r.len) rs

section

variable {p : Grains → Bool} {rs : List Grains} {r : Grains} {k start : Nat}

theorem count_append (p : Grains → Bool) (rs : List Grains) (r : Grains) :
    count p (rs ++ [r]) = count p rs + if p r then r.len else 0 := by
  induction rs with
  | nil => simp [count]
  | cons r' rs ih =>
      rw [List.cons_append, count, count, ih]
      omega

theorem contig_append :
    Contig start (rs ++ [r]) ↔ Contig start rs ∧ r.start = start + total rs ∧ 0 < r.len := by
  induction rs generalizing start with
  | nil => simp [Contig, total, count]
  | cons r' rs ih =>
      rw [List.cons_append, Contig, Contig, ih, total, total, count, if_pos rfl, Nat.add_assoc]
      tauto

/-- Grains that no longer satisfy a condition. -/
theorem count_modify
    {f : Grains → Grains} (hk : rs[k]? = some r) (hlen : (f r).len = r.len) (hp : p r = true)
    (hf : p (f r) = false) :
  count p (rs.modify k f) + r.len = count p rs
  := by
  induction rs generalizing k with
  | nil => cases hk
  | cons r' rs ih =>
      cases k with
      | zero =>
          obtain rfl := Option.some.inj hk
          simp [count, hp, hf]
          omega
      | succ k =>
          have hih := ih hk
          simp only [List.modify_succ_cons, count]
          omega

/-- A change that a condition does not see. -/
theorem count_modify_eq
    {f : Grains → Grains} (hlen : ∀ r, (f r).len = r.len) (hp : ∀ r, p (f r) = p r) :
  count p (rs.modify k f) = count p rs
  := by
  induction rs generalizing k with
  | nil => rw [List.modify_nil]
  | cons r rs ih =>
      cases k with
      | zero => simp [count, hp, hlen]
      | succ k => simp [count, ih]

theorem contig_modify
    {f : Grains → Grains} (hlen : ∀ r, (f r).len = r.len) (hstart : ∀ r, (f r).start = r.start) :
  Contig start (rs.modify k f) ↔ Contig start rs
  := by
  induction rs generalizing k start with
  | nil => rw [List.modify_nil]
  | cons r rs ih =>
      cases k with
      | zero => simp [Contig, hlen, hstart]
      | succ k => simp [Contig, ih]

theorem count_le_total (p : Grains → Bool) (rs : List Grains) : count p rs ≤ total rs := by
  induction rs with
  | nil => exact Nat.le_refl _
  | cons r rs ih =>
      rw [total, count, count, if_pos rfl]
      split
      · exact Nat.add_le_add_left ih _
      · exact Nat.add_le_add (Nat.zero_le _) ih

theorem len_le_count (hk : rs[k]? = some r) (hp : p r = true) : r.len ≤ count p rs := by
  induction rs generalizing k with
  | nil => cases hk
  | cons r' rs ih =>
      cases k with
      | zero =>
          cases hk
          rw [count, if_pos hp]
          exact Nat.le_add_right _ _
      | succ k =>
          rw [count]
          exact Nat.le_trans (ih hk) (Nat.le_add_left _ _)

/-- Grains start behind those handed out before. -/
theorem Contig.start_getElem
    (h : Contig start rs) (hk : rs[k]? = some r) :
  r.start = start + total (rs.take k) ∧ 0 < r.len ∧ total (rs.take k) + r.len ≤ total rs
  := by
  induction rs generalizing k start with
  | nil => cases hk
  | cons r' rs ih =>
      obtain ⟨hstart, hpos, hrest⟩ := h
      cases k with
      | zero =>
          cases hk
          simp [total, count, hstart, hpos]
      | succ k =>
          obtain ⟨hstart', hpos', hle⟩ := ih hrest hk
          simp only [total, List.take_succ_cons, count, if_true] at hstart' hle ⊢
          refine ⟨by omega, hpos', by omega⟩

end

/-! ### The life of a segment -/

/-- Points of a segment's life. -/
inductive Life where
  | free
  | freeRel
  | taken
  | fresh
  | staged (a : Nat)
  | recycled (rem : Nat)
  | filled
  | ended
  | done (a : Nat)
  | detached
  | loose
  | added (b : Nat)
  | binned (b : Nat)
  | pinned (b : Nat)
  | moving
  | xnp
  | deadOn (b : Nat)
  | dead
  | deferred
  | absent
  deriving DecidableEq, Repr

namespace Life

/-- The queue a segment is on. -/
def place : Life → Option QueueId
  | free => some .free
  | freeRel => some .freeRel
  | staged a => some (.stage a)
  | done a => some (.done a)
  | added b | binned b | pinned b | deadOn b => some (.bin b)
  | xnp => some .xnp
  | _ => none

/-- What the state and the bin of a segment may be. -/
def StateOk (cfg : Config) (g : Segment) : Life → Prop
  | free => g.state = .free
  | freeRel => g.state = .freeRel
  | fresh | staged _ | recycled _ | filled | ended | done _ => g.state = .lsaAllocator
  | detached => g.state ≠ .gc ∧ g.state ≠ .gcXnp
  | taken | loose | dead | deferred | absent => g.state ≠ .gc
  | added b | deadOn b => g.state ≠ .gc ∧ g.priv = b ∧ cfg.IsBin b
  | binned b | pinned b => g.state = .gc ∧ g.priv = b ∧ cfg.IsBin b
  | moving => g.state = .gc
  | xnp => g.state = .gcXnp ∧ g.priv = kXnpBinId

/-- How the counters go with the grains that were handed out. -/
def CountsOk (cfg : Config) (g : Segment) (rs : List Grains) : Life → Prop
  | free | freeRel | taken => g.validNr = cfg.segSize ∧ held rs = 0 ∧ live rs = 0
  | fresh => rs = [] ∧ g.nr3 = cfg.reservedPerSeg ∧ g.nr4 + cfg.reservedPerSeg = cfg.segSize
      ∧ g.validNr + cfg.reservedPerSeg = cfg.segSize
  | staged _ => g.nr3 = cfg.reservedPerSeg + total rs ∧ g.nr3 < cfg.segSize
      ∧ g.nr4 + g.nr3 = held rs + cfg.segSize ∧ g.validNr + g.nr3 = live rs + cfg.segSize
  | recycled rem => 0 < rem ∧ g.nr4 = held rs + rem ∧ g.validNr = live rs
  | filled => 0 < held rs ∧ g.nr4 = held rs ∧ g.validNr = live rs
  | deadOn _ | dead | deferred => held rs = 0 ∧ g.nr4 = 0 ∧ live rs = 0 ∧ g.validNr = 0
  | absent => held rs = 0 ∧ live rs = 0
  | _ => held rs = 0 ∧ g.nr4 = 0 ∧ g.validNr = live rs

end Life

/-- What holds for a segment at a point of its life. -/
structure SegOk (cfg : Config) (x : Nat) (life : Life) (g : Segment) (rs : List Grains) : Prop where
  contig : Contig (cfg.segToGrain x) rs
  fits : cfg.reservedPerSeg + total rs ≤ cfg.segSize
  state : life.StateOk cfg g
  counts : life.CountsOk cfg g rs

namespace Cont

/-- What comes after needs the stage locked. -/
def stageLock (a : Nat) : Cont → Option Nat
  | scan _ | drain => some a
  | release => none

def LenOk (cfg : Config) (a : Nat) : Cont → Prop
  | scan len => 0 < len ∧ len + cfg.reservedPerSeg ≤ cfg.segSize ∧ a < cfg.streamNr
  | _ => True

end Cont

namespace Phase

/-- The segment a call has in hand. -/
def hand : Phase → Option Nat
  | recycle _ _ x _ | toDone _ _ x | prepare _ _ x | segMd _ _ x | toStage _ _ x | destaged x
  | pushXnp x | rebin x _ | addToBin x _ | activate x _ | recycleSeg x | putFree x | cherryTake x
  | cherryFree x | cherryAdd x _ | cherryOn x _ | zeroRm x _ | firstRm x _ | firstOff x
  | moveRm x _ _ | moveAdd x _ | moveOn x _ | takeRm x _ | reloc x => some x
  | _ => none

/-- The life of the segment a call has in hand. -/
def life : Phase → Life
  | prepare _ _ _ => .taken
  | segMd _ _ _ | toStage _ _ _ => .fresh
  | recycle _ _ _ rem => .recycled rem
  | toDone _ _ _ | destaged _ => .ended
  | pushXnp _ => .detached
  | activate _ b | cherryOn _ b | takeRm _ b => .added b
  | recycleSeg _ | putFree _ | cherryFree _ => .dead
  | zeroRm _ b => .deadOn b
  | firstRm _ b | moveRm _ b _ | moveOn _ b => .pinned b
  | firstOff _ | moveAdd _ _ => .moving
  | _ => .loose

/-- The segment whose lock a call holds. -/
def segLock : Phase → Option Nat
  | cherryPop x _ | cherryTake x | cherryFree x | cherryUnlock x | cherryAdd x _ | cherryOn x _
  | firstRm x _ | firstOff x | moveRm x _ _ | moveAdd x _ | moveOn x _ => some x
  | _ => none

/-- The allocator whose stage a call has locked. -/
def stageLock : Phase → Option Nat
  | scan a _ | drain a => some a
  | recycle a k _ _ | toDone a k _ => k.stageLock a
  | _ => none

/-- The allocator that a call gets a segment for. -/
def allocating : Phase → Option Nat
  | getSeg a _ | prepare a _ _ | segMd a _ _ | toStage a _ _ | relock a _ | giveUp a => some a
  | _ => none

/-- The allocator that a call gets a segment for, up to where it has staged it. -/
def awaits : Phase → Option Nat
  | getSeg a _ | prepare a _ _ | segMd a _ _ | toStage a _ _ | giveUp a => some a
  | _ => none

theorem allocating_of_awaits {ph : Phase} {a : Nat} (h : ph.awaits = some a) :
    ph.allocating = some a := by
  cases ph <;> first
    | exact h
    | cases h

/-- A call gets a segment only for an allocator that has none staged. -/
def AwaitOk (queues : QueueId → List Nat) (ph : Phase) : Prop :=
  ∀ a, ph.awaits = some a → queues (.stage a) = []

theorem awaitOk_none {queues : QueueId → List Nat} {ph : Phase} (h : ph.awaits = none) :
    ph.AwaitOk queues := by
  intro a ha
  rw [h] at ha
  cases ha

/-- The bin a call is about to use exists. -/
def BinOk (cfg : Config) : Phase → Prop
  | addToBin _ b | cherryAdd _ b | moveRm _ _ b | moveAdd _ b => cfg.IsBin b
  | _ => True

/-- The grains a call hands out are some, and fit in a segment; and there is the allocator. -/
def LenOk (cfg : Config) : Phase → Prop
  | scan a len | getSeg a len | prepare a len _ | segMd a len _ | toStage a len _ | relock a len =>
      0 < len ∧ len + cfg.reservedPerSeg ≤ cfg.segSize ∧ a < cfg.streamNr
  | recycle a k _ _ | toDone a k _ => k.LenOk cfg a
  | _ => True

/-- What is to hold of the phase a call goes on with. -/
structure Ok (cfg : Config) (queues : QueueId → List Nat) (ph : Phase) : Prop where
  bin : ph.BinOk cfg
  len : ph.LenOk cfg
  await : ph.AwaitOk queues

theorem Ok.of
    {cfg : Config} {queues : QueueId → List Nat} {ph : Phase} (hbin : ph.BinOk cfg)
    (hlen : ph.LenOk cfg) (hawait : ph.awaits = none) :
  ph.Ok cfg queues
  := ⟨hbin, hlen, awaitOk_none hawait⟩

end Phase

namespace Spot

/-- The life of a segment that no call has in hand. -/
def life : Spot → Life
  | on .free => .free
  | on .freeRel => .freeRel
  | on (.stage a) => .staged a
  | on (.done a) => .done a
  | on (.bin b) => .binned b
  | on .xnp => .xnp
  | filled => .filled
  | deferred => .deferred
  | absent => .absent
  | hand _ => .loose

def holder : Spot → Option Nat
  | hand i => some i
  | _ => none

/-- A segment is in nobody's hands. -/
def Rests : Spot → Prop
  | hand _ | absent => False
  | _ => True

theorem Rests.ne_hand {sp : Spot} (h : sp.Rests) (j : Nat) : sp ≠ hand j := by
  rintro rfl
  exact h

end Spot

namespace State

variable (s : State)

/-- The life of a segment. -/
def life (x : Nat) : Life :=
  match s.spot x with
  | .hand i => (s.phase i).life
  | sp => sp.life

def holder (x : Nat) : Option Nat := (s.spot x).holder

end State

/-- What every step keeps. -/
structure Inv (cfg : Config) (s : State) : Prop where
  placed : Custody.Placed s.queues fun x => (s.life x).place
  hands : Owned s.holder fun i => (s.phase i).hand
  segLocks : Owned s.segLock fun i => (s.phase i).segLock
  stageLocks : Owned s.stageLock fun i => (s.phase i).stageLock
  allocating : Owned s.allocating fun i => (s.phase i).allocating
  phase : ∀ i, (s.phase i).Ok cfg s.queues
  oneStaged : ∀ a, (s.queues (.stage a)).length ≤ 1
  absent : ∀ x, s.spot x = .absent ↔ cfg.segNr ≤ x
  seg : ∀ x, SegOk cfg x (s.life x) (s.segs x) (s.grains x)

/-! ### Spots and hands -/

section

variable {cfg : Config} {s s' : State} {i x : Nat} {ph : Phase} {sp : Spot}

theorem Spot.holder_eq_some {sp : Spot} : sp.holder = some i ↔ sp = .hand i := by
  cases sp <;> simp [Spot.holder]

theorem State.life_hand (h : s.spot x = .hand i) : s.life x = (s.phase i).life := by
  rw [State.life, h]

theorem State.life_spot (h : ∀ j, s.spot x ≠ .hand j) : s.life x = (s.spot x).life := by
  rw [State.life]
  split
  · rename_i j hj
    exact absurd hj (h j)
  · rfl

/-- A family of what calls hold after one has gone on. -/
theorem holds_update {K : Type} (f : Phase → Option K) (phase : Nat → Phase) (i : Nat)
    (ph : Phase) :
    (fun j => f (Function.update phase i ph j))
      = Function.update (fun j => f (phase j)) i (f ph) := by
  funext j
  by_cases hj : j = i
  · subst hj
    rw [Function.update_self, Function.update_self]
  · rw [Function.update_of_ne hj, Function.update_of_ne hj]

/-- What is in hand of a call is a segment's spot. -/
theorem Inv.spot_of_hand (h : Inv cfg s) (hi : (s.phase i).hand = some x) : s.spot x = .hand i :=
  Spot.holder_eq_some.mp ((h.hands x i).mpr hi)

theorem Inv.hand_of_spot (h : Inv cfg s) (hx : s.spot x = .hand i) : (s.phase i).hand = some x :=
  (h.hands x i).mp (Spot.holder_eq_some.mpr hx)

theorem Inv.phaseOk (h : Inv cfg s) (hi : s.phase i = ph) : ph.Ok cfg s.queues :=
  hi ▸ h.phase i

/-- A call has segments of bins in its hands only. -/
theorem Phase.place_life (ph : Phase) :
    ph.life.place = none ∨ ∃ b, ph.life.place = some (.bin b) := by
  cases ph <;> first
    | exact .inl rfl
    | exact .inr ⟨_, rfl⟩

/-- A segment is in the hands of a call, or in nobody's and the call has none. -/
inductive Grip (i x : Nat) : Spot → Phase → Prop
  | hand {ph : Phase} (h : ph.hand = some x) : Grip i x (.hand i) ph
  | spot {sp : Spot} {ph : Phase} (h : sp.Rests) (hnone : ph.hand = none) : Grip i x sp ph

theorem Grip.ne_absent (h : Grip i x sp ph) : sp ≠ .absent := by
  rintro rfl
  cases h with
  | spot h _ => exact h

/-- The life of a segment in a place, seen by the call that moves it. -/
def lifeAt (sp : Spot) (ph : Phase) : Life :=
  match sp with
  | .hand _ => ph.life
  | sp => sp.life

theorem Grip.life_eq
    {s : State} (h : Grip i x sp ph) (hi : s.phase i = ph) (hx : s.spot x = sp) :
  s.life x = lifeAt sp ph
  := by
  cases h with
  | hand _ =>
      rw [State.life_hand hx, hi]
      rfl
  | spot hnot _ =>
      rw [State.life_spot (hx.symm ▸ hnot.ne_hand), hx]
      cases sp with
      | hand j => exact hnot.elim
      | _ => rfl

end

end UDepot.Salsa
