import UDepot.Probe
import UDepot.Recovery

/-!
# The state of a running store

The device, the arrays of the store, salsa's segments and grain ranges, the directory and the
read sections, together with the operations in progress and the garbage collector.

Every operation is at a point of its coroutine (`OpPhase`), the collector at a point of
`gc_callback` (`GcPhase`), and a segment at a point of its life (`SegPhase`).  A segment is free,
is stamped with its metadata, is opened for allocation, is closed, and goes back to the free ones
through a grace period, either after a pass of the collector or when none of its grains is valid
any more.

Some parts of the state record what happened and are read by no step: whom a range was allocated
for and who holds it, the commits made so far, the segment each allocation count went to, the
tombstones dropped, and the records an operation loaded the addresses of in its read section.
-/

namespace UDepot

/-- What the store is built over. -/
structure StoreEnv where
  geo : Geometry
  hashKey : Bytes → Nat
  bucketBits : Nat

/-- An operation, by its number, or the garbage collector. -/
inductive Actor where
  | op (i : Nat)
  | gc
  deriving DecidableEq, Repr

/-- A read section: its number and whose it is. -/
abbrev ReadSection := Nat × Actor

/-- The streams segments are allocated for. -/
inductive Stream where
  | data
  | reloc
  | index
  deriving DecidableEq, Repr

/-- How far the metadata callback of a segment has come: its count is taken, the metadata is
written (or not), and each array is stored. -/
inductive Stage where
  | counted
  | wrote (ok : Bool)
  | tsStored
  | liveStored
  | okStored (ok : Bool)
  deriving DecidableEq, Repr

inductive SegPhase where
  | free
  | stamping (stream : Stream) (ts : Nat) (stage : Stage)
  | opened (stream : Stream) (next : Nat)
  | closed
  | victim
  | deferred (waits : List ReadSection)
  | syncing (waits : List ReadSection)
  | index
  deriving DecidableEq, Repr

/-- Who a valid range is for: the actor it was allocated for, the directory's entry, or the actor
that took the entry away and is to invalidate the range. -/
inductive Holder where
  | writer (a : Actor)
  | entry
  | remover (a : Actor)
  | nobody
  deriving DecidableEq, Repr

/-- A range of grains salsa handed out; its grains are valid as long as it has a holder. -/
structure GrainRange where
  len : Nat
  released : Bool
  user : Actor
  holder : Holder
  deriving DecidableEq, Repr

def GrainRange.valid (r : GrainRange) : Bool := r.holder ≠ .nobody

/-- A complete record on the device; a tombstone has no value. -/
structure Rec where
  key : Bytes
  timestamp : Nat
  value : Option Bytes
  grains : Nat
  deriving DecidableEq, Repr

/-- A record the directory was made to point at. -/
structure Commit where
  key : Bytes
  timestamp : Nat
  pba : Nat
  deriving DecidableEq, Repr

/-- A grow freezes the snapshot and waits for the read sections there are. -/
inductive GrowPhase where
  | idle
  | freezing (waits : List ReadSection)
  deriving DecidableEq, Repr

/-- The segments: their metadata on the device, the arrays of the store, the allocation count and
the segment each count went to, and how far salsa is with each. -/
structure SegTable where
  segMd : Nat → Option SegMd
  segTimestamps : Nat → Nat
  segMdOk : Nat → Bool
  segLive : Nat → Bool
  segAllocNr : Nat
  owner : Nat → Nat
  phase : Nat → SegPhase

/-- What the operations and the collector share. -/
structure Core extends SegTable where
  recs : Nat → Option Rec
  ranges : Nat → Option GrainRange
  snaps : Nat → DirSnapshot
  cur : Nat
  grow : GrowPhase
  sections : List ReadSection
  nextSection : Nat
  committed : List Commit
  dropped : List Commit

/-! ### Operations -/

inductive PutMode where
  | upsert
  | create
  | replace
  deriving DecidableEq, Repr

/-- An operation and its arguments; no version given is `kAnyVersion`. -/
inductive OpKind where
  | put (mode : PutMode) (ifVersion : Option Nat) (value : Bytes)
  | del (ifVersion : Option Nat)
  | get
  deriving DecidableEq, Repr

inductive Rc where
  | ok
  | eexist
  | enoent
  | estale
  | enospc
  | enomem
  | eio
  deriving DecidableEq, Repr

/-- A call of salsa. -/
inductive Call where
  | invalidate (pba len : Nat)
  | release (pba len : Nat)
  | drain (stream : Stream)
  deriving DecidableEq, Repr

/-- What an operation does after its calls: return, or go round its loop again. -/
inductive Next where
  | ret (rc : Rc)
  | again
  deriving DecidableEq, Repr

inductive OpPhase where
  | alloc
  | spaceWait
  | stamp
  | write (ts : Nat)
  | probe
  | look (gen : Nat)
  | verify (e : EntryInfo)
  | commit
  | growWait
  | calls (todo : List Call) (next : Next)
  | version (pba : Nat) (value : Bytes)
  | done (rc : Rc) (result : Option (Bytes × Nat))
  deriving DecidableEq, Repr

structure Op where
  kind : OpKind
  key : Bytes
  sec : ReadSection
  own : Option Nat
  probe : KeyProbe
  loaded : List (Nat × Rec)
  phase : OpPhase
  deriving DecidableEq, Repr

/-! ### The garbage collector -/

/-- What a pass of `gc_callback` works with once it has read the victim. -/
structure GcPass where
  victim : Nat
  victimTs : Nat
  dropTombstones : Bool
  buf : Nat → Option Rec
  grain : Nat

/-- What `gc_record` does after its calls: go on with the next record, fail the pass, or try
another relocation segment. -/
inductive GcNext where
  | advance
  | fail
  | retry (attempt : Nat)
  deriving DecidableEq, Repr

/-- Where `gc_record` is, with the stripes of the record's key locked. -/
inductive GcStage where
  | alloc (attempt : Nat)
  | compare (attempt dst : Nat)
  | check (dst : Nat)
  | stamp (dst : Nat)
  | write (dst ts : Nat)
  | repoint (dst : Nat)
  | calls (todo : List Call) (next : GcNext)
  deriving DecidableEq, Repr

inductive GcPhase where
  | idle
  | scan (victim victimTs i : Nat) (drop sawLive : Bool)
  | walk (pass : GcPass)
  | relocate (pass : GcPass) (r : Rec) (e : EntryInfo) (sec : ReadSection) (stage : GcStage)
  | sync (victim : Nat)

structure State where
  core : Core
  ops : Nat → Option Op
  gc : GcPhase

/-- The hash whose stripes the collector has locked. -/
def GcPhase.locked (env : StoreEnv) : GcPhase → Option Nat
  | .relocate _ r _ _ _ => some (env.hashKey r.key)
  | _ => none

/-! ### Records and entries -/

/-- The grains of a put's record or of a del's tombstone. -/
def Op.grains (env : StoreEnv) (o : Op) : Nat :=
  match o.kind with
  | .put _ _ value => env.geo.kvTotalGrains o.key.length value.length
  | _ => env.geo.kvTotalGrains o.key.length 0

/-- The value a put stores; none for a tombstone. -/
def Op.value (o : Op) : Option Bytes :=
  match o.kind with
  | .put _ _ value => some value
  | _ => none

/-- The size stored in the entry of a record. -/
def Rec.kvSize (r : Rec) : Nat := if r.value.isSome then r.grains else 0

/-- The record of a version: its segment's timestamp above its grain in the segment. -/
def versionOf (geo : Geometry) (segTimestamps : Nat → Nat) (pba : Nat) : Nat :=
  segTimestamps (geo.segOf pba) <<< (geo.segSize.log2 + 1) ||| pba % geo.segSize

/-- Whether the log scan accepts the record at an address. -/
def Core.Recoverable (geo : Geometry) (c : Core) (pba : Nat) (r : Rec) : Prop :=
  c.recs pba = some r ∧ c.segMd (geo.segOf pba) = some ⟨.kv, r.timestamp⟩

/-- The order of recovery on pairs of a segment timestamp and a grain. -/
def NewerPair (ts pba ts' pba' : Nat) : Prop := ts' < ts ∨ ts' = ts ∧ pba' < pba

end UDepot
