import UDepot.Lib.Custody
import UDepot.Lib.Transition

/-!
# Salsa's segments

The allocators of the streams and the bins of the garbage collector, step by step, with any number
of calls in progress.  A segment goes from a free queue to an allocator, which stages it and hands
out its grains from the front.  A segment with no room for a request is taken off the stage, and
when the last of its grains is released it is handed to the collector.  There it waits first (`xnp`)
and then is in a bin that goes by the number of its valid grains.  It is free again when a pass of
the collector has moved its valid grains away, or when none of its grains is valid any more.

A segment has one list link, a lock, and a state that says whether it is in a bin.  Lists and
counters change under locks of their own or atomically; a step here is one such change.  What a call
in progress does next is its phase.  The grains handed out, and where each segment is, are recorded
and read by no step.
-/

namespace UDepot.Salsa

open Custody

/-- `enum segment_state`. -/
inductive SegState where
  | invalid
  | free
  | freeRel
  | lsaAllocator
  | gc
  | gcXnp
  deriving DecidableEq, Repr

/-- `struct segment`.  An allocator uses `nr3` for the next grain and `nr4` for the number of grains
that have not been released. -/
structure Segment where
  validNr : Nat
  nr3 : Nat
  nr4 : Nat
  state : SegState
  priv : Nat
  deriving DecidableEq, Repr

/-- Grains that were handed out. -/
structure Grains where
  start : Nat
  len : Nat
  released : Bool
  valid : Bool
  deriving DecidableEq, Repr

/-- The sizes, the number of allocators and which are for relocation, and whether a frontend wants
to delay the reuse of segments. -/
structure Config where
  segNr : Nat
  streamNr : Nat
  segSize : Nat
  reservedPerSeg : Nat
  binNr : Nat
  xnpThr : Nat
  reloc : Nat → Bool
  defers : Bool
  reserved_lt : reservedPerSeg < segSize
  binNr_pos : 0 < binNr
  xnpThr_two : 2 ≤ xnpThr

/-- `SALSA_INVALID_PRIVATE_ID`. -/
def kInvalidPrivateId : Nat := 255

/-- `XNP_BIN_ID`. -/
def kXnpBinId : Nat := kInvalidPrivateId - 2

def kMinRelSegments : Nat := 1

namespace Config

variable (cfg : Config)

/-- `gc_salsa_bin_div`. -/
def binDiv : Nat :=
  if cfg.segSize % cfg.binNr = 0 then cfg.segSize / cfg.binNr else cfg.segSize / cfg.binNr + 1

/-- `gc_salsa_n_seg2bin`: the last bin is for full segments. -/
def seg2bin (validNr : Nat) : Nat :=
  if cfg.segSize = validNr then cfg.binNr else validNr / cfg.binDiv

def cherryPickThr : Nat := cfg.segSize * 10 / 100

def segToGrain (seg : Nat) : Nat := seg * cfg.segSize

/-- There is a bin with this number.  The collector does not look at the last one, which only
segments with no grains for metadata come to. -/
def IsBin (b : Nat) : Prop := b ≤ cfg.binNr ∧ (0 < cfg.reservedPerSeg → b < cfg.binNr)

/-- `allocator_seg_next_range`. -/
def segNextRange (g : Segment) (len : Nat) : Option Nat :=
  if cfg.segSize ≤ g.nr3 ∨ cfg.segSize < g.nr3 + len then none else some g.nr3

end Config

/-- The queues a segment may be on. -/
inductive QueueId where
  | free
  | freeRel
  | stage (a : Nat)
  | done (a : Nat)
  | bin (b : Nat)
  | xnp
  deriving DecidableEq, Repr

/-- What comes after a segment was taken off the stage, or its last grain released. -/
inductive Cont where
  | scan (len : Nat)
  | drain
  | release
  deriving DecidableEq, Repr

/-- What a call in progress does next.  `a` is an allocator and `x` a segment. -/
inductive Phase where
  | idle
  | got (grain : Option Nat)
  -- `allocator_allocate_grains`, `allocator_drain_remaining_grains`, `allocator_release_grains`
  | scan (a len : Nat)
  | drain (a : Nat)
  | recycle (a : Nat) (k : Cont) (x rem : Nat)
  | toDone (a : Nat) (k : Cont) (x : Nat)
  -- `allocator_allocate_segment`
  | getSeg (a len : Nat)
  | prepare (a len x : Nat)
  | segMd (a len x : Nat)
  | toStage (a len x : Nat)
  | relock (a len : Nat)
  | giveUp (a : Nat)
  -- the bins
  | destaged (x : Nat)
  | pushXnp (x : Nat)
  | rebin (x : Nat) (full : Bool)
  | addToBin (x b : Nat)
  | activate (x b : Nat)
  | recycleSeg (x : Nat)
  | putFree (x : Nat)
  -- `gc_salsa_n_xnp_ovrw_page_invalidate`
  | invalidated (x validNr : Nat)
  | cherryLock (x validNr : Nat)
  | cherryPop (x validNr : Nat)
  | cherryTake (x : Nat)
  | cherryFree (x : Nat)
  | cherryUnlock (x : Nat)
  | cherryAdd (x b : Nat)
  | cherryOn (x b : Nat)
  | lookup (x validNr : Nat)
  | zeroRm (x b : Nat)
  | firstRm (x b : Nat)
  | firstOff (x : Nat)
  | moveRm (x b newbin : Nat)
  | moveAdd (x newbin : Nat)
  | moveOn (x b : Nat)
  -- the thread of the collector
  | choose (b : Nat)
  | take (b x : Nat)
  | takeRm (x b : Nat)
  | reloc (x : Nat)
  | popXnp
  deriving DecidableEq, Repr

/-- Where a segment is: on a queue, in the hands of a call, off the stage with grains to be
released, or waiting for the frontend to free it. -/
inductive Spot where
  | on (q : QueueId)
  | hand (i : Nat)
  | filled
  | deferred
  | absent
  deriving DecidableEq, Repr

structure State where
  segs : Nat → Segment
  queues : QueueId → List Nat
  segLock : Nat → Option Nat
  stageLock : Nat → Option Nat
  allocating : Nat → Option Nat
  phase : Nat → Phase
  spot : Nat → Spot
  grains : Nat → List Grains

inductive Act where
  | allocate (i a len : Nat)
  | drain (i a : Nat)
  | release (i a x k : Nat)
  | invalidate (i x k : Nat)
  | invalidateReloc (x k : Nat)
  | popDone (i a : Nat)
  | freeDeferred (i x : Nat)
  | collect (i : Nat)
  | relocated (i : Nat) (ok : Bool)
  | go (i : Nat)
  deriving DecidableEq, Repr

namespace State

variable (cfg : Config) (s : State)

/-- The segments are free; those for relocation come first. -/
def init : State where
  segs := fun x => ⟨cfg.segSize, 0, 0, if x < kMinRelSegments then .freeRel else .free,
    kInvalidPrivateId⟩
  queues := fun
    | .free => (List.range cfg.segNr).filter (kMinRelSegments ≤ ·)
    | .freeRel => (List.range cfg.segNr).filter (· < kMinRelSegments)
    | _ => []
  segLock := fun _ => none
  stageLock := fun _ => none
  allocating := fun _ => none
  phase := fun _ => .idle
  spot := fun x =>
    if x < cfg.segNr then .on (if x < kMinRelSegments then .freeRel else .free) else .absent
  grains := fun _ => []

def goto (i : Nat) (ph : Phase) : State := { s with phase := Function.update s.phase i ph }

def setSeg (x : Nat) (g : Segment) : State := { s with segs := Function.update s.segs x g }

def setSpot (x : Nat) (sp : Spot) : State := { s with spot := Function.update s.spot x sp }

/-- A segment goes to the end of a queue. -/
def enqueue (q : QueueId) (x : Nat) : State :=
  { s.setSpot x (.on q) with queues := Custody.enqueue s.queues q x }

/-- A call takes a segment off a queue. -/
def dequeue (i : Nat) (q : QueueId) (x : Nat) : State :=
  { s.setSpot x (.hand i) with queues := Custody.dequeue s.queues q x }

def lockStage (a i : Nat) : State := { s with stageLock := Function.update s.stageLock a (some i) }

def unlockStage (a : Nat) : State := { s with stageLock := Function.update s.stageLock a none }

def lockSeg (x i : Nat) : State := { s with segLock := Function.update s.segLock x (some i) }

def unlockSeg (x : Nat) : State := { s with segLock := Function.update s.segLock x none }

/-- Change the grains of a segment with one number. -/
def mapGrains (x k : Nat) (f : Grains → Grains) : State :=
  { s with grains := Function.update s.grains x ((s.grains x).modify k f) }

/-- Go on after a segment was taken off the stage. -/
def resume (i a : Nat) : Cont → State
  | .scan len => s.goto i (.scan a len)
  | .drain => (s.unlockStage a).goto i .idle
  | .release => s.goto i .idle

/-! ### The allocators -/

/-- The segment at the front of the stage has too few grains left, or is to be drained: its rest is
not valid, and it is taken off. -/
def recycleHead (i a : Nat) (k : Cont) (p : Nat) : State :=
  let rem := cfg.segSize - (s.segs p).nr3
  ((s.setSeg p { s.segs p with validNr := (s.segs p).validNr - rem }).dequeue i (.stage a) p).goto i
    (.recycle a k p rem)

/-- Grains are handed out from the segment at the front of the stage. -/
def handOut (i a p idx len : Nat) : State :=
  let grain := cfg.segToGrain p + idx - cfg.reservedPerSeg
  let s' : State := { s.setSeg p { s.segs p with nr3 := idx + len } with
    grains := Function.update s.grains p (s.grains p ++ [⟨grain, len, false, true⟩]) }
  let s'' := if cfg.segSize = idx + len then
      { s' with
        queues := Custody.dequeue s'.queues (.stage a) p
        spot := Function.update s'.spot p .filled }
    else s'
  (s''.unlockStage a).goto i (.got (some grain))

/-- A round of the loop of `allocator_allocate_grains`. -/
def scan (i a len : Nat) : State :=
  match s.queues (.stage a) with
  | p :: _ =>
      match cfg.segNextRange (s.segs p) len with
      | some idx => s.handOut cfg i a p idx len
      | none => s.recycleHead cfg i a (.scan len) p
  | [] =>
      if s.allocating a = none then
        { (s.unlockStage a).goto i (.getSeg a len) with
          allocating := Function.update s.allocating a (some i) }
      else (s.unlockStage a).goto i (.got none)

def drainHead (i a : Nat) : State :=
  match s.queues (.stage a) with
  | p :: _ => s.recycleHead cfg i a .drain p
  | [] => (s.unlockStage a).goto i .idle

/-- The rest of a segment counts as released. -/
def releaseRest (i a : Nat) (k : Cont) (x rem : Nat) : State :=
  let nr4 := (s.segs x).nr4 - rem
  let s' := s.setSeg x { s.segs x with nr4 }
  if nr4 = 0 then s'.goto i (.toDone a k x) else (s'.setSpot x .filled).resume i a k

/-- `scm_get_free_seg`. -/
def getFreeSeg (i a len : Nat) : State :=
  let q : QueueId := if cfg.reloc a then .freeRel else .free
  match s.queues q with
  | x :: _ => (s.dequeue i q x).goto i (.prepare a len x)
  | [] => s.goto i (.giveUp a)

/-- A segment is set up with its grains for metadata reserved. -/
def prepareSeg (i a len x : Nat) : State :=
  { (s.setSeg x { s.segs x with
      state := .lsaAllocator
      nr3 := cfg.reservedPerSeg
      nr4 := cfg.segSize - cfg.reservedPerSeg
      validNr := (s.segs x).validNr - cfg.reservedPerSeg }).goto i (.segMd a len x) with
    grains := Function.update s.grains x [] }

/-! ### The free queues -/

/-- `scm_put_free_seg`. -/
def putFreeSeg (x : Nat) : State :=
  let rel := (s.queues .freeRel).length < kMinRelSegments
  (s.setSeg x { s.segs x with
    validNr := cfg.segSize
    state := if rel then .freeRel else .free
    priv := kInvalidPrivateId }).enqueue (if rel then .freeRel else .free) x

/-- `gc_recycle_seg_on_zero_valid_pages`. -/
def recycleZero (x : Nat) : State :=
  if cfg.defers then s.setSpot x .deferred else s.putFreeSeg cfg x

/-! ### The bins -/

def setState (x : Nat) (st : SegState) : State := s.setSeg x { s.segs x with state := st }

/-- `gc_salsa_n_segment_add_to_bin`: the segment stays in the hands of the call. -/
def addToBin (x b : Nat) : State :=
  { s.setSeg x { s.segs x with priv := b } with
    queues := Custody.enqueue s.queues (.bin b) x }

/-- `gc_xnp_pushone_popone`. -/
def pushonePopone (i x : Nat) : State :=
  let s' := (s.setSeg x { s.segs x with state := .gcXnp, priv := kXnpBinId }).enqueue .xnp x
  match s'.queues .xnp with
  | y :: _ =>
      if cfg.xnpThr ≤ (s'.queues .xnp).length then (s'.dequeue i .xnp y).goto i (.rebin y true)
      else s'.goto i .idle
  | [] => s'.goto i .idle

/-- `gc_salsa_n_segment_lock_and_lookup` and what is decided then. -/
def lookup (i x validNr : Nat) : State :=
  let g := s.segs x
  if g.state ≠ .gc then s.goto i .idle
  else if g.validNr = 0 then
    ((s.setState x .invalid).setSpot x (.hand i)).goto i (.zeroRm x g.priv)
  else if cfg.segSize - 1 = validNr then
    ((s.lockSeg x i).setSpot x (.hand i)).goto i (.firstRm x g.priv)
  else if g.priv = cfg.seg2bin g.validNr then s.goto i .idle
  else ((s.lockSeg x i).setSpot x (.hand i)).goto i (.moveRm x g.priv (cfg.seg2bin g.validNr))

/-- What a call in progress does next; it waits for locks that are taken. -/
def go (i : Nat) : Option State :=
  match s.phase i with
  | .idle | .reloc _ => none
  | .got _ => some (s.goto i .idle)
  | .scan a len => some (s.scan cfg i a len)
  | .drain a => some (s.drainHead cfg i a)
  | .recycle a k x rem => some (s.releaseRest i a k x rem)
  | .toDone a k x => some ((s.enqueue (.done a) x).resume i a k)
  | .getSeg a len => some (s.getFreeSeg cfg i a len)
  | .prepare a len x => some (s.prepareSeg cfg i a len x)
  | .segMd a len x => some (s.goto i (.toStage a len x))
  | .toStage a len x =>
      if s.stageLock a = none then some ((s.enqueue (.stage a) x).goto i (.relock a len)) else none
  | .relock a len =>
      if s.stageLock a = none then
        some { (s.lockStage a i).goto i (.scan a len) with
          allocating := Function.update s.allocating a none }
      else none
  | .giveUp a =>
      some { s.goto i (.got none) with allocating := Function.update s.allocating a none }
  | .destaged x =>
      let validNr := (s.segs x).validNr
      if validNr = 0 then some (s.goto i (.recycleSeg x))
      else if cfg.segSize = validNr then some (s.goto i (.addToBin x (cfg.seg2bin validNr)))
      else some (s.goto i (.pushXnp x))
  | .pushXnp x => some (s.pushonePopone cfg i x)
  | .rebin x full =>
      let validNr := (s.segs x).validNr
      some (s.goto i (.addToBin x (if full then cfg.seg2bin validNr else validNr / cfg.binDiv)))
  | .addToBin x b => some ((s.addToBin x b).goto i (.activate x b))
  | .activate x b =>
      if s.segLock x = none then some (((s.setState x .gc).setSpot x (.on (.bin b))).goto i .idle)
      else none
  | .recycleSeg x => some ((s.recycleZero cfg x).goto i .idle)
  | .putFree x => some ((s.putFreeSeg cfg x).goto i .idle)
  | .invalidated x validNr =>
      if validNr < cfg.cherryPickThr ∧ (s.segs x).priv = kXnpBinId then
        some (s.goto i (.cherryLock x validNr))
      else some (s.goto i (.lookup x validNr))
  | .cherryLock x validNr =>
      if s.segLock x = none then
        if (s.segs x).validNr < cfg.cherryPickThr then
          some ((s.lockSeg x i).goto i (.cherryPop x validNr))
        else some (s.goto i (.lookup x validNr))
      else none
  | .cherryPop x validNr =>
      if x ∈ s.queues .xnp then some ((s.dequeue i .xnp x).goto i (.cherryTake x))
      else some ((s.unlockSeg x).goto i (.lookup x validNr))
  | .cherryTake x =>
      if (s.segs x).validNr = 0 then some (s.goto i (.cherryFree x))
      else some (s.goto i (.cherryAdd x (cfg.seg2bin (s.segs x).validNr)))
  | .cherryFree x => some ((s.recycleZero cfg x).goto i (.cherryUnlock x))
  | .cherryUnlock x => some ((s.unlockSeg x).goto i .idle)
  | .cherryAdd x b => some ((s.addToBin x b).goto i (.cherryOn x b))
  | .cherryOn x b =>
      some ((((s.setState x .gc).setSpot x (.on (.bin b))).unlockSeg x).goto i .idle)
  | .lookup x validNr => if s.segLock x = none then some (s.lookup cfg i x validNr) else none
  | .zeroRm x b => some ((s.dequeue i (.bin b) x).goto i (.recycleSeg x))
  | .firstRm x b => some ((s.dequeue i (.bin b) x).goto i (.firstOff x))
  | .firstOff x => some (((s.setState x .invalid).unlockSeg x).goto i (.pushXnp x))
  | .moveRm x b newbin => some ((s.dequeue i (.bin b) x).goto i (.moveAdd x newbin))
  | .moveAdd x newbin => some ((s.addToBin x newbin).goto i (.moveOn x newbin))
  | .moveOn x b => some (((s.setSpot x (.on (.bin b))).unlockSeg x).goto i .idle)
  | .choose b =>
      if b < cfg.binNr then
        match s.queues (.bin b) with
        | x :: _ => some (s.goto i (.take b x))
        | [] => some (s.goto i (.choose (b + 1)))
      else some (s.goto i .popXnp)
  | .take b x =>
      if s.segLock x = none then
        if (s.segs x).state = .gc then
          some (((s.setState x .invalid).setSpot x (.hand i)).goto i (.takeRm x (s.segs x).priv))
        else some (s.goto i (.choose b))
      else none
  | .takeRm x b => some ((s.dequeue i (.bin b) x).goto i (.reloc x))
  | .popXnp =>
      match s.queues .xnp with
      | y :: _ => some ((s.dequeue i .xnp y).goto i (.rebin y false))
      | [] => some (s.goto i .idle)

/-! ### Calls -/

def step (a : Act) : Option State :=
  match a with
  | .allocate i a len =>
      if s.phase i = .idle ∧ s.stageLock a = none then
        some ((s.lockStage a i).goto i (.scan a len))
      else none
  | .drain i a =>
      if s.phase i = .idle ∧ s.stageLock a = none then some ((s.lockStage a i).goto i (.drain a))
      else none
  | .release i a x k =>
      match s.phase i, (s.grains x)[k]? with
      | .idle, some r =>
          let nr4 := (s.segs x).nr4 - r.len
          let s' := (s.setSeg x { s.segs x with nr4 }).mapGrains x k fun r =>
            { r with released := true }
          if nr4 = 0 then some ((s'.setSpot x (.hand i)).goto i (.toDone a .release x)) else some s'
      | _, _ => none
  | .invalidate i x k =>
      match s.phase i, (s.grains x)[k]? with
      | .idle, some r =>
          let validNr := (s.segs x).validNr - r.len
          some (((s.setSeg x { s.segs x with validNr }).mapGrains x k fun r =>
            { r with valid := false }).goto i (.invalidated x validNr))
      | _, _ => none
  | .invalidateReloc x k =>
      (s.grains x)[k]?.map fun r =>
        (s.setSeg x { s.segs x with validNr := (s.segs x).validNr - r.len }).mapGrains x k fun r =>
          { r with valid := false }
  | .popDone i a =>
      match s.phase i, s.queues (.done a) with
      | .idle, x :: _ => some ((s.dequeue i (.done a) x).goto i (.destaged x))
      | _, _ => none
  | .freeDeferred i x =>
      if s.phase i = .idle ∧ s.spot x = .deferred then
        some ((s.setSpot x (.hand i)).goto i (.putFree x))
      else none
  | .collect i => if s.phase i = .idle then some (s.goto i (.choose 0)) else none
  | .relocated i ok =>
      match s.phase i with
      | .reloc x => some (s.goto i (if ok then .putFree x else .rebin x false))
      | _ => none
  | .go i => s.go cfg i

end State

end UDepot.Salsa
