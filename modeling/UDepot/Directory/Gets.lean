import UDepot.HashTable.Keys
import UDepot.Directory.Growing
import UDepot.Store.Invariant

/-!
# A get while the directory changes

One get, or `exists`, of a key on a directory with any number of writers and any grows, step by
step.  The get enters a read section.  Each of its lookups loads the current snapshot and goes
through the bucket of the key's hash in it, slot by slot, from a distance `start` on.  For an entry
it finds it reads the record, returns if that is the key's, and otherwise looks up again from the
next distance on, in whatever snapshot is then the current one.

What the store guarantees of the writers and of the device is said of the steps (`GetState.Sound`):
a call inserts an entry for a key that has none, an update keeps the key of an entry, and what an
entry or a call in progress points at is not overwritten.
-/

namespace UDepot.Directory

open Hopscotch Transition

/-- `get` reads whole records, `exists` the header and the key. -/
inductive ReadKind where
  | get
  | existsKey
  deriving DecidableEq, Repr

/-- Where a get is: in front of a lookup, with the distance to start at and the snapshot of the last
one; in a lookup, with its snapshot and the distance of the slot it loads next; reading the record
of an entry of a snapshot; or returned, perhaps with the record it found. -/
inductive GetPhase where
  | idle
  | lookup (start : Nat) (last : Option Nat)
  | scan (gen next : Nat)
  | read (gen : Nat) (e : HashEntry)
  | done (rc : Rc) (found : Option Rec)
  deriving DecidableEq, Repr

def GetPhase.active : GetPhase → Bool
  | .lookup _ _ | .scan _ _ | .read _ _ => true
  | .idle | .done _ _ => false

/-- A directory, the records on the device, and a get. -/
structure GetState where
  dir : State
  recs : Nat → Option Rec
  sec : Nat
  phase : GetPhase

inductive GetAct
  | dir (a : Act)
  | write (pba : Nat) (r : Option Rec)
  | begin
  | load
  | scan
  | read
  | readFails
  | bufferFails

/-- Whether the record at an address is of a key. -/
def isKey (recs : Nat → Option Rec) (key : Bytes) (pba : Nat) : Bool :=
  (recs pba).any (·.key == key)

/-- What `get_record` or `verify_key_at_pba` makes of the record read for an entry: it is the one
asked for if it holds the key and fits in the grains of the entry. -/
def ReadKind.accepts (env : StoreEnv) (kind : ReadKind) (key : Bytes) (e : EntryInfo) (r : Rec) :
    Bool :=
  r.key == key && match kind with
    | .get => r.value.any fun v =>
        kvTotalBytes key.length v.length ≤ e.kvSize * env.geo.grainSize
    | .existsKey => kvTotalBytes key.length 0 ≤ e.kvSize * env.geo.grainSize

namespace GetState

variable (env : StoreEnv) (kind : ReadKind) (key : Bytes) (s : GetState)

/-- A directory of one snapshot that nobody uses. -/
def init (snap : DirSnapshot) (recs : Nat → Option Rec) : GetState := ⟨.init snap, recs, 0, .idle⟩

/-- The table of the key in a snapshot. -/
def table (gen : Nat) : HashTable := (s.dir.snaps gen).tableForHash (env.hashKey key)

/-- The get returns, and its read section ends. -/
def finish (rc : Rc) (found : Option Rec) : GetState :=
  { s with
    dir := (s.dir.step (.leaveReader s.sec)).getD s.dir
    phase := .done rc found }

def step (a : GetAct) : Option GetState :=
  match a, s.phase with
  | .dir a, _ =>
      -- the get leaves its own section when it returns
      if s.phase.active = true ∧ a = .leaveReader s.sec then none
      else (s.dir.step a).map fun dir => { s with dir }
  | .write pba r, _ => some { s with recs := Function.update s.recs pba r }
  | .begin, .idle =>
      (s.dir.step .enterReader).map fun dir =>
        { s with dir, sec := s.dir.nextSec, phase := .lookup 0 none }
  | .load, .lookup start _ => some { s with phase := .scan s.dir.cur start }
  | .scan, .scan gen next =>
      if next < kHopRange then
        match (s.table env key gen).matchAt (env.hashKey key) next false with
        | some e => some { s with phase := .read gen e }
        | none => some { s with phase := .scan gen (next + 1) }
      else some (s.finish .enoent none)
  | .read, .read gen e =>
      match (s.recs e.val.pba).filter (kind.accepts env key e.val) with
      | some r => some (s.finish .ok (some r))
      | none => some { s with phase := .lookup (e.offset + 1) (some gen) }
  | .readFails, .read _ _ => some (s.finish .eio none)
  | .bufferFails, .read _ _ => some (s.finish .enomem none)
  | _, _ => none

/-! ### What the steps are assumed to keep -/

end GetState

/-- A record with its size is at an address. -/
def Fits (env : StoreEnv) (recs : Nat → Option Rec) (kvSize pba : Nat) : Prop :=
  ∃ r, recs pba = some r ∧ kvSize = r.kvSize ∧ r.Shape env.geo pba

/-- An insertion is of a record of a key that has no entry. -/
def Inserts (env : StoreEnv) (recs : Nat → Option Rec) (t : HashTable) : HashTable.Call → Prop
  | .insert hash kvSize pba => Fits env recs kvSize pba
      ∧ ∀ r, recs pba = some r → hash = env.hashKey r.key
        ∧ ∀ e, t.matchAt hash e.offset true = some e → isKey recs r.key e.val.pba = false
  | _ => True

/-- An update replaces a record by one of the same key. -/
def Replaces (env : StoreEnv) (recs : Nat → Option Rec) : HashTable.Call → Prop
  | .update _ oldPba newKvSize newPba => Fits env recs newKvSize newPba
      ∧ (recs oldPba).map Rec.key = (recs newPba).map Rec.key
  | _ => True

/-- An entry of a snapshot has an address. -/
def Shows (snap : DirSnapshot) (pba : Nat) : Prop :=
  ∃ j < snap.size, ∃ idx e, (snap.tables j).slots idx = some e ∧ e.val.pba = pba

namespace GetState

variable (env : StoreEnv) (kind : ReadKind) (key : Bytes) (s : GetState)

/-- The addresses that are in use: of entries of the current snapshot, of insertions in progress,
and of what the get has loaded. -/
def InUse (pba : Nat) : Prop :=
  Shows s.dir.curSnap pba
    ∨ (∃ i p hash kvSize, s.dir.parties i = some p ∧ p.call = .insert hash kvSize pba)
    ∨ match s.phase with
      | .scan gen _ => Shows (s.dir.snaps gen) pba
      | .read _ e => e.val.pba = pba
      | _ => False

/-- What the store guarantees of a step.  A put inserts an entry only if it sees, with the stripes
locked, that its key has none; a put, a del or a relocation updates the entry of its own key; and
nothing in use is overwritten. -/
def Sound : GetAct → Prop
  | .dir (.test i) => ∀ p gen, s.dir.parties i = some p → p.stage = .locked gen →
      (s.dir.snaps gen).frozen = false →
      Inserts env s.recs ((s.dir.snaps gen).tableForHash p.call.hash) p.call
  | .dir (.store i) => ∀ p, s.dir.parties i = some p → Replaces env s.recs p.call
  | .write pba _ => ¬ s.InUse pba
  | _ => True

/-- A lookup in the current snapshot that comes to a distance finds a live entry of the key. -/
def liveAt (d : Nat) : Bool :=
  ((s.table env key s.dir.cur).matchAt (env.hashKey key) d false).any fun e =>
    isKey s.recs key e.val.pba

/-- The key has a live entry. -/
def Live : Prop := ∃ d < kHopRange, s.liveAt env key d = true

/-- A get that loads another snapshot than that of its last lookup does not start above the entry of
the key. -/
def Resumes : GetAct → Prop
  | .load => ∀ start gen, s.phase = .lookup start (some gen) → gen ≠ s.dir.cur →
      ∃ d < kHopRange, start ≤ d ∧ s.liveAt env key d = true
  | _ => True

/-- The entry of the key points at a record. -/
def Points (r : Rec) : Prop :=
  ∃ e, (s.table env key s.dir.cur).matchAt (env.hashKey key) e.offset false = some e
    ∧ s.recs e.val.pba = some r ∧ r.key = key

end GetState

end UDepot.Directory
