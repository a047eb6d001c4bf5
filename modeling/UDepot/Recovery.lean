import UDepot.Lib.Newest
import UDepot.Lib.Outcome
import UDepot.Probe
import UDepot.Record

/-!
# Crash recovery

`crash_recovery` walks the segments of the log and builds the directory from the records it
accepts.  A key's entry is found by a probe as at run time; of two records of a key the newer
one wins.

The reads it makes, and the other calls it depends on, fail as an arbitrary `faults` says; the
order in which the segments are walked is arbitrary.  Assertions of the source are tests that
fail with `assertFailed`.
-/

namespace UDepot

open Hopscotch Newest Outcome

/-- The owner of a segment. -/
inductive CtlrType where
  | kv
  | index
  deriving DecidableEq, Repr

/-- The metadata of a segment that `validate_seg_md` accepts. -/
structure SegMd where
  ctlrType : CtlrType
  timestamp : Nat
  deriving DecidableEq, Repr

/-- What recovery finds on a device: the valid segment metadata, and the bytes. -/
structure Image where
  segMd : Nat → Option SegMd
  bytes : Device

inductive RecoveryError where
  | eio
  | enospc
  | assertFailed
  deriving DecidableEq, Repr

/-- What recovery depends on: `faults n` says whether its `n`-th external call fails. -/
structure RecoveryEnv where
  geo : Geometry
  bucketBits : Nat
  hashKey : Bytes → Nat
  crc16 : KvHeader → Nat
  maxCapacity : Nat
  faults : Nat → Bool

structure RecState where
  snap : DirSnapshot
  valid : Nat → Nat
  segTimestamps : Nat → Nat
  segMdOk : Nat → Bool
  segLive : Nat → Bool
  dataSegs : List Nat
  maxTimestamp : Nat
  calls : Nat

variable (env : RecoveryEnv) (img : Image)

/-- Make a call that may fail. -/
def external (s : RecState) : Except RecoveryError RecState :=
  if env.faults s.calls then .error .eio else .ok { s with calls := s.calls + 1 }

/-- Whether the record at an address holds the key. -/
def verifyKeyAtPba (pba kvGrains : Nat) (key : Bytes) (s : RecState) :
    Except RecoveryError (Bool × RecState) :=
  if kvGrains * env.geo.grainSize < kvTotalBytes key.length 0 then .ok (false, s)
  else do
    let s ← external env s
    let off := pba * env.geo.grainSize
    .ok ((readHdr img.bytes off).keySize == key.length
      && readBytes img.bytes (off + kKvHeaderBytes) key.length == key, s)

/-- Read the record of every entry not seen yet. -/
def probeKey (key : Bytes) :
    List HashEntry → KeyProbe → RecState → Except RecoveryError (KeyProbe × RecState)
  | [], probe, s => .ok (probe, s)
  | e :: es, probe, s =>
      match probe.find e.val.pba with
      | some _ => probeKey key es probe s
      | none => do
          let tombGrains := env.geo.kvTotalGrains key.length 0
          let (isMatch, s) ← verifyKeyAtPba env img e.val.pba
            (if e.val.deleted then tombGrains else e.val.kvSize) key s
          probeKey key es (probe.push ⟨e.val.pba, isMatch⟩) s

/-- Add to the valid grains of a segment. -/
def addValid (valid : Nat → Nat) (seg grains : Nat) : Nat → Nat :=
  Function.update valid seg (valid seg + grains)

/-- Take from the valid grains of a segment. -/
def subValid (valid : Nat → Nat) (seg grains : Nat) : Nat → Nat :=
  Function.update valid seg (valid seg - grains)

/-- The grains of the record of an entry for a key. -/
def matchGrains (key : Bytes) (e : EntryInfo) : Nat :=
  if e.deleted then env.geo.kvTotalGrains key.length 0 else e.kvSize

/-- The locked part of `recover_record`, repeated after a grow; in at most `n` rounds. -/
def recoverCommit (r : LogRecord) (probe : KeyProbe) :
    Nat → RecState → Except RecoveryError RecState
  | 0, _ => .error .assertFailed
  | n + 1, s =>
      let hash := env.hashKey r.key
      let newKv := if r.tombstone then 0 else r.grains
      if s.snap.frozen then .error .assertFailed
      else match probeSettled (s.snap.tableForHash hash) hash probe with
        | (false, _) => .error .assertFailed
        | (true, none) =>
            match s.snap.insertLocked hash newKv r.pba with
            | (true, snap) =>
                .ok { s with snap, valid := addValid s.valid (env.geo.segOf r.pba) r.grains }
            | (false, snap) =>
                if kMaxTableBits ≤ snap.tableBits then .error .enospc
                else do
                  let s ← external env { s with snap }
                  recoverCommit r probe n { s with snap := s.snap.growCopy }
        | (true, some m) =>
            if newerThan env.geo s.segTimestamps r.pba m.val.pba then
              let grains := matchGrains env r.key m.val
              let snap := (s.snap.updateLocked hash m.val.pba newKv r.pba).getD s.snap
              if s.valid (env.geo.segOf m.val.pba) < grains then .error .assertFailed
              else .ok { s with
                snap,
                valid := addValid (subValid s.valid (env.geo.segOf m.val.pba) grains)
                  (env.geo.segOf r.pba) r.grains }
            else .ok s

def recoverRecord (r : LogRecord) (s : RecState) : Except RecoveryError RecState := do
  let hash := env.hashKey r.key
  let (probe, s) ← probeKey env img r.key ((s.snap.tableForHash hash).entries hash true) [] s
  recoverCommit env r probe (kMaxTableBits + 1) s

/-- The walk of a segment, in at most `n` steps. -/
def recoverWalk (ts endGrain : Nat) : Nat → Nat → RecState → Except RecoveryError RecState
  | 0, _, s => .ok s
  | n + 1, grain, s =>
      if grain < endGrain then
        match recordAt env.geo env.crc16 img.bytes ts endGrain grain with
        | none => recoverWalk ts endGrain n (grain + 1) s
        | some r => do
            let s ← recoverRecord env img r s
            recoverWalk ts endGrain n (grain + r.grains) s
      else .ok s

/-- The arrays once a data segment was found. -/
def RecState.foundSegment (s : RecState) (seg ts : Nat) : RecState :=
  { s with
    segTimestamps := Function.update s.segTimestamps seg ts
    segMdOk := Function.update s.segMdOk seg true
    segLive := Function.update s.segLive seg true
    maxTimestamp := max s.maxTimestamp ts
    dataSegs := s.dataSegs ++ [seg] }

def recoverSegment (seg : Nat) (s : RecState) : Except RecoveryError RecState := do
  let s ← external env s
  match img.segMd seg with
  | none => .ok s
  | some md =>
      if md.ctlrType ≠ .kv then .ok s
      else do
        let s ← external env (s.foundSegment seg md.timestamp)
        recoverWalk env img md.timestamp (env.geo.segBase seg + env.geo.dataGrains)
          env.geo.dataGrains (env.geo.segBase seg) s

def recoverSegments : List Nat → RecState → Except RecoveryError RecState
  | [], s => .ok s
  | seg :: segs, s => do
      let s ← recoverSegment env img seg s
      recoverSegments segs s

/-- Hand the segments with valid grains back to salsa. -/
def restoreGrainRanges : List Nat → RecState → Except RecoveryError RecState
  | [], s => .ok s
  | seg :: segs, s =>
      if s.valid seg = 0 then restoreGrainRanges segs s
      else do
        let s ← external env s
        restoreGrainRanges segs s

/-- The state recovery starts from. -/
def RecState.init (bucketBits : Nat) : RecState where
  snap := .create bucketBits
  valid := fun _ => 0
  segTimestamps := fun _ => 0
  segMdOk := fun _ => false
  segLive := fun _ => false
  dataSegs := []
  maxTimestamp := 0
  calls := 0

/-- Crash recovery, walking the segments in the given order. -/
def crashRecovery (order : List Nat) : Except RecoveryError RecState := do
  let s ← external env (RecState.init env.bucketBits)
  let s ← recoverSegments env img order s
  if env.maxCapacity < ((List.range env.geo.numSegments).map s.valid).sum then .error .enospc
  else restoreGrainRanges env s.dataSegs s

end UDepot
