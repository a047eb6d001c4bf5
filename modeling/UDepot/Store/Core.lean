import UDepot.Store.State

/-!
# Steps of the shared state

What salsa, the device, the metadata callbacks, the directory and the read sections do to the
shared state.  A step that is not possible gives `none`.
-/

namespace UDepot

/-- How a write to the device ends: done, failed with the device as before, or failed with what
was there destroyed. -/
inductive WriteResult where
  | ok
  | kept
  | torn
  deriving DecidableEq, Repr

namespace Core

variable (geo : Geometry) (c : Core)

def setPhase (seg : Nat) (p : SegPhase) : Core :=
  { c with phase := Function.update c.phase seg p }

/-! ### Metadata callbacks -/

/-- A data or relocation segment is taken, with the next allocation count. -/
def takeSegment (seg : Nat) (stream : Stream) : Option Core :=
  if c.phase seg = .free ∧ seg < geo.numSegments ∧ stream ≠ .index then
    some { c with
      segAllocNr := c.segAllocNr + 1
      phase := Function.update c.phase seg (.stamping stream (c.segAllocNr + 1) .counted)
      owner := Function.update c.owner (c.segAllocNr + 1) seg }
  else none

/-- A segment is taken for an index table; its metadata gets the current count. -/
def takeIndexSegment (seg : Nat) : Option Core :=
  if c.phase seg = .free ∧ seg < geo.numSegments then
    some (c.setPhase seg (.stamping .index c.segAllocNr .counted))
  else none

/-- The owner `persist_seg_md` records. -/
def ctlrOf : Stream → CtlrType
  | .index => .index
  | _ => .kv

/-- `persist_seg_md` of a segment being stamped. -/
def writeSegMd (seg : Nat) (res : WriteResult) : Option Core :=
  match c.phase seg with
  | .stamping stream ts .counted =>
      match res with
      | .ok => some { c with
          segMd := Function.update c.segMd seg (some ⟨ctlrOf stream, ts⟩)
          phase := Function.update c.phase seg (.stamping stream ts (.wrote true)) }
      | .kept => some (c.setPhase seg (.stamping stream ts (.wrote false)))
      | .torn => some { c with
          segMd := Function.update c.segMd seg none
          phase := Function.update c.phase seg (.stamping stream ts (.wrote false)) }
  | _ => none

/-- The store to `seg_timestamps_`. -/
def storeTimestamp (seg : Nat) : Option Core :=
  match c.phase seg with
  | .stamping .index _ _ => none
  | .stamping stream ts (.wrote true) => some { c with
      segTimestamps := Function.update c.segTimestamps seg ts
      phase := Function.update c.phase seg (.stamping stream ts .tsStored) }
  | _ => none

/-- The store to `seg_live_` of a data or relocation segment. -/
def storeLive (seg : Nat) : Option Core :=
  match c.phase seg with
  | .stamping stream ts .tsStored => some { c with
      segLive := Function.update c.segLive seg true
      phase := Function.update c.phase seg (.stamping stream ts .liveStored) }
  | _ => none

/-- The store to `seg_md_ok_`. -/
def storeMdOk (seg : Nat) : Option Core :=
  let stored (stream : Stream) (ts : Nat) (ok : Bool) : Option Core := some { c with
    segMdOk := Function.update c.segMdOk seg ok
    phase := Function.update c.phase seg (.stamping stream ts (.okStored ok)) }
  match c.phase seg with
  | .stamping .index ts (.wrote ok) => stored .index ts ok
  | .stamping stream ts .liveStored => stored stream ts true
  | .stamping stream ts (.wrote false) => stored stream ts false
  | _ => none

/-- The end of a callback.  A data or relocation segment is staged, whether its metadata was
written or not; an index segment loses its `seg_live_`, or goes back if its metadata was not
written. -/
def finishStamp (seg : Nat) : Option Core :=
  match c.phase seg with
  | .stamping .index _ (.okStored true) => some { c with
      segLive := Function.update c.segLive seg false
      phase := Function.update c.phase seg .index }
  | .stamping .index _ (.okStored false) => some (c.setPhase seg .free)
  | .stamping stream _ (.okStored _) => some (c.setPhase seg (.opened stream (geo.segBase seg)))
  | _ => none

/-- A retired table's segment is free. -/
def retireIndexSegment (seg : Nat) : Option Core :=
  match c.phase seg with
  | .index => some (c.setPhase seg .free)
  | _ => none

/-! ### Grain ranges -/

/-- Allocate a range in an opened segment of a stream. -/
def allocate (a : Actor) (stream : Stream) (seg len : Nat) : Option (Core × Nat) :=
  match c.phase seg with
  | .opened stream' pos =>
      if stream' = stream ∧ 0 < len ∧ pos + len ≤ geo.segBase seg + geo.dataGrains then
        some ({ c with
          phase := Function.update c.phase seg (.opened stream (pos + len))
          ranges := Function.update c.ranges pos (some ⟨len, false, a, .writer a⟩) }, pos)
      else none
  | _ => none

/-- Close the opened segments that satisfy `p`. -/
def closeWhere (p : Nat → Stream → Bool) : Core :=
  { c with phase := fun seg =>
      match c.phase seg with
      | .opened stream pos => if p seg stream then .closed else .opened stream pos
      | ph => ph }

/-- `drain_remaining_grains`: the stream's opened segments are closed. -/
def drain (stream : Stream) : Core := c.closeWhere fun _ s => s == stream

/-- A segment is full. -/
def closeSegment (seg : Nat) : Core := c.closeWhere fun s _ => s == seg

/-- Change the range at an address. -/
def mapRange (pba : Nat) (f : GrainRange → GrainRange) : Core :=
  { c with
    ranges := Function.update c.ranges pba ((c.ranges pba).map f) }

/-- Pass a range on. -/
def give (pba : Nat) (h : Holder) : Core := c.mapRange pba fun r => { r with holder := h }

def invalidate (pba : Nat) : Core := c.give pba .nobody

def release (pba : Nat) : Core := c.mapRange pba fun r => { r with released := true }

/-- A call of salsa. -/
def call : Call → Core
  | .invalidate pba _ => c.invalidate pba
  | .release pba _ => c.release pba
  | .drain stream => c.drain stream

/-- Whether every range of a segment satisfies `p`. -/
def allRanges (seg : Nat) (p : GrainRange → Bool) : Bool :=
  (List.range geo.segSize).all fun k => (c.ranges (geo.segBase seg + k)).all p

/-- Forget the ranges of a segment and free it. -/
def freeSegment (seg : Nat) : Core :=
  { c with
    phase := Function.update c.phase seg .free
    ranges := fun pba => if geo.segOf pba = seg then none else c.ranges pba }

/-- The sections of a grace period have ended. -/
def ended (waits : List ReadSection) : Bool := waits.all fun s => !c.sections.contains s

/-- Salsa frees a segment without valid grains: it is handed to `defer_free_seg`. -/
def deferFree (seg : Nat) : Option Core :=
  if c.phase seg = .closed ∧ c.allRanges geo seg (fun r => r.released && !r.valid) then
    some (c.setPhase seg (.deferred c.sections))
  else none

/-- The deferred segment is free after the grace period. -/
def freeDeferred (seg : Nat) : Option Core :=
  match c.phase seg with
  | .deferred waits => if c.ended waits then some (c.freeSegment geo seg) else none
  | _ => none

/-! ### The device -/

/-- Whether a record at `q` shares a grain with the range at `pba`. -/
def overlaps (pba len q : Nat) (r : Rec) : Bool := q < pba + len && pba < q + r.grains

/-- Write a record; the records it overwrites are gone. -/
def writeRec (pba : Nat) (r : Rec) : Core :=
  { c with recs := fun q =>
      if q = pba then some r
      else (c.recs q).filter fun r' => !overlaps pba r.grains q r' }

/-- A failed write of a range destroys some of the records there. -/
def tearRecs (pba len : Nat) (kill : List Nat) : Core :=
  { c with recs := fun q => (c.recs q).filter fun r => !(kill.contains q && overlaps pba len q r) }

/-! ### Sections and the directory -/

/-- A section begins. -/
def enter (a : Actor) : Core × ReadSection :=
  ({ c with sections := (c.nextSection, a) :: c.sections, nextSection := c.nextSection + 1 },
    (c.nextSection, a))

/-- A section ends. -/
def leave (s : ReadSection) : Core := { c with sections := c.sections.erase s }

def curSnap : DirSnapshot := c.snaps c.cur

def setCur (snap : DirSnapshot) : Core :=
  { c with snaps := Function.update c.snaps c.cur snap }

def growFreeze : Option Core :=
  if c.grow = .idle ∧ c.curSnap.tableBits < kMaxTableBits then
    some { c.setCur { c.curSnap with frozen := true } with grow := .freezing c.sections }
  else none

def growPublish : Option Core :=
  match c.grow with
  | .freezing waits =>
      if c.ended waits then
        some { c with
          snaps := Function.update c.snaps (c.cur + 1) c.curSnap.growCopy
          cur := c.cur + 1
          grow := .idle }
      else none
  | .idle => none

/-- Whether a writer in section `s` may go on: the snapshot is not frozen, or the writer saw it
so and is one the grow waits for. -/
def mayWrite (s : ReadSection) (early : Bool) : Bool :=
  !c.curSnap.frozen || early && match c.grow with
    | .freezing waits => waits.contains s
    | .idle => false

/-- Record that the directory points at a record. -/
def recordCommit (key : Bytes) (pba : Nat) : Core :=
  { c with committed :=
      ⟨key, c.segTimestamps (geo.segOf pba), pba⟩ :: c.committed }

end Core

end UDepot
