import UDepot.Store.Core

/-!
# Steps of operations and of the garbage collector

An operation is split at its suspensions and at every access to shared state another thread could
come between.  The commit under the stripe lock is one step; so is a lookup, which may return any
entry it could find in the snapshot it loaded, whatever the order of the scan.  Calls of salsa are
made one at a time.
-/

namespace UDepot

/-! ### Operations -/

inductive OpAct where
  | allocate (seg : Nat)
  | allocAgain
  | allocFails
  | resume
  | growFails
  | bufferFails
  | loadTimestamp
  | writeRecord
  | writeFails (kill : List Nat)
  | loadSnapshot
  | lookup (slot : Option Nat)
  | read
  | readFails
  | commit (early : Bool)
  | commitStale
  | call
  | loadVersion
  deriving DecidableEq, Repr

/-- The sizes `check_sizes` and the operations admit. -/
def admitted (env : StoreEnv) (kind : OpKind) (key : Bytes) : Bool :=
  key.length ≠ 0 && match kind with
    | .put _ _ value => key.length < 2 ^ 16 && value.length < kTombstoneValSize
        && env.geo.kvTotalGrains key.length value.length ≤ kKvSizeMask
    | .del _ => key.length < 2 ^ 16
    | .get => true

/-- What `commit_put` and `commit_del` come to once the probe is settled. -/
inductive Verdict where
  | refuse (rc : Rc)
  | insert
  | rewrite (e : EntryInfo)
  | replace (e : EntryInfo)
  | needTomb
  deriving DecidableEq, Repr

/-- Whether a version was asked for and is not that of the entry. -/
def staleVersion (geo : Geometry) (segTimestamps : Nat → Nat) (ifVersion : Option Nat)
    (e : EntryInfo) : Bool :=
  ifVersion.any fun v => versionOf geo segTimestamps e.pba != v

/-- Where a new record goes: it is the key's first entry or replaces the one found, unless its
segment is not newer than that entry's. -/
def placement (geo : Geometry) (segTimestamps : Nat → Nat) (pba : Nat) :
    Option EntryInfo → Verdict
  | none => .insert
  | some e => if newerThan geo segTimestamps pba e.pba then .replace e else .rewrite e

/-- The decision of `commit_put` for the entry found. -/
def putVerdict (geo : Geometry) (segTimestamps : Nat → Nat) (mode : PutMode)
    (ifVersion : Option Nat) (pba : Nat) (m : Option EntryInfo) : Verdict :=
  match m.filter (fun e => !e.deleted) with
  | none =>
      if mode = .replace ∨ ifVersion.isSome then .refuse .enoent
      else placement geo segTimestamps pba m
  | some e =>
      if mode = .create then .refuse .eexist
      else if staleVersion geo segTimestamps ifVersion e then .refuse .estale
      else placement geo segTimestamps pba m

/-- The decision of `commit_del` for the entry found. -/
def delVerdict (geo : Geometry) (segTimestamps : Nat → Nat) (ifVersion tomb : Option Nat)
    (m : Option EntryInfo) : Verdict :=
  match m.filter (fun e => !e.deleted) with
  | none => .refuse .enoent
  | some e =>
      if staleVersion geo segTimestamps ifVersion e then .refuse .estale
      else match tomb with
        | none => .needTomb
        | some pba => placement geo segTimestamps pba m

/-- The decision for an operation's kind. -/
def Op.verdict (geo : Geometry) (segTimestamps : Nat → Nat) (o : Op) (m : Option EntryInfo) :
    Option Verdict :=
  match o.kind with
  | .put mode ifVersion _ => o.own.map fun pba => putVerdict geo segTimestamps mode ifVersion pba m
  | .del ifVersion => some (delVerdict geo segTimestamps ifVersion o.own m)
  | .get => none

namespace Op

variable (env : StoreEnv)

/-- The size in the entry an operation makes. -/
def kvSize (o : Op) : Nat := if o.value.isSome then o.grains env else 0

/-- Give back what was allocated, and then more calls. -/
def giveBack (o : Op) (more : List Call) (next : Next) : Op :=
  { o with
    own := none
    phase := .calls ((o.own.elim [] fun pba =>
      [.invalidate pba (o.grains env), .release pba (o.grains env)]) ++ more) next }

/-- Out of the read section: what was probed no longer counts. -/
def unprotected (o : Op) (phase : OpPhase) : Op :=
  { o with
    probe := []
    loaded := []
    phase }

/-- The grains of an entry's record, for the key of the operation. -/
def entryGrains (o : Op) (e : EntryInfo) : Nat :=
  if e.deleted then env.geo.kvTotalGrains o.key.length 0 else e.kvSize

/-- Whether the record read for an entry holds the key. -/
def verifies (c : Core) (o : Op) (e : EntryInfo) : Bool :=
  kvTotalBytes o.key.length 0 ≤ o.entryGrains env e * env.geo.grainSize
    && (c.recs e.pba).any fun r => r.key == o.key

/-- What a get makes of the record read for an entry: the value, if the record holds the key
and a value that fits. -/
def valueRead (c : Core) (o : Op) (e : EntryInfo) : Option Bytes :=
  match c.recs e.pba with
  | none => none
  | some r =>
      if r.key = o.key then
        r.value.filter fun v => kvTotalBytes o.key.length v.length ≤ e.kvSize * env.geo.grainSize
      else none

/-- Carry out a decision. -/
def enact (c : Core) (i : Nat) (o : Op) : Verdict → Option (Core × Op)
  | .refuse rc => some (c, o.giveBack env [] (.ret rc))
  | .needTomb => some (c, { o with phase := .alloc })
  | .rewrite e => o.own.map fun pba =>
      let drains := if env.geo.segOf pba ≠ env.geo.segOf e.pba then [Call.drain .data] else []
      (c, o.giveBack env drains .again)
  | .insert => o.own.bind fun pba =>
      match c.curSnap.insertLocked (env.hashKey o.key) (o.kvSize env) pba with
      | (true, snap) =>
          some (((c.setCur snap).give pba .entry).recordCommit env.geo o.key pba,
            { o with own := none, phase := .calls [.release pba (o.grains env)] (.ret .ok) })
      | (false, snap) =>
          if kMaxTableBits ≤ snap.tableBits then
            some (c.setCur snap, o.giveBack env [] (.ret .enospc))
          else some ((c.setCur snap).leave o.sec, o.unprotected .growWait)
  | .replace e => o.own.map fun pba =>
      let snap := (c.curSnap.updateLocked (env.hashKey o.key) e.pba (o.kvSize env) pba).getD
        c.curSnap
      ((((c.setCur snap).give e.pba (.remover (.op i))).give pba .entry).recordCommit env.geo o.key
          pba,
        { o with
          own := none
          phase := .calls [.invalidate e.pba (o.entryGrains env e), .release pba (o.grains env)]
            (.ret .ok) })

/-- The commit step, in the current snapshot. -/
def tryCommit (locked : Option Nat) (c : Core) (i : Nat) (o : Op) (early : Bool) :
    Option (Core × Op) :=
  let hash := env.hashKey o.key
  if locked.any (c.curSnap.locksMeet hash) then none
  else if !c.mayWrite o.sec early then some (c.leave o.sec, o.unprotected .growWait)
  else match probeSettled (c.curSnap.tableForHash hash) hash o.probe with
    | (false, _) => some (c, { o with phase := .probe })
    | (true, m) =>
        (o.verdict env.geo c.segTimestamps (m.map (·.val))).bind (o.enact env c i)

/-- What an entry found by a lookup leads to. -/
def found (c : Core) (o : Op) (e : EntryInfo) : Op :=
  { o with
    loaded := (c.recs e.pba).elim o.loaded fun r => (e.pba, r) :: o.loaded
    phase := if o.kind ≠ .get ∧ (o.probe.find e.pba).isSome then .probe else .verify e }

/-- A step of an operation. -/
def step (locked : Option Nat) (c : Core) (i : Nat) (o : Op) (a : OpAct) : Option (Core × Op) :=
  match o.phase, a with
  | .alloc, .allocate seg =>
      match c.allocate env.geo (.op i) .data seg (o.grains env) with
      | none => none
      | some (c', pba) =>
          if c.segMdOk seg then some (c', { o with own := some pba, phase := .stamp })
          else some (c', { o with own := some pba }.giveBack env [] (.ret .eio))
  | .alloc, .allocAgain => some (c.leave o.sec, o.unprotected .spaceWait)
  | .alloc, .allocFails => some (c, { o with phase := .calls [] (.ret .enospc) })
  | .spaceWait, .resume =>
      some ((c.enter (.op i)).1, { o with sec := (c.enter (.op i)).2, phase := .alloc })
  | .stamp, .bufferFails =>
      if o.value.isSome then none else some (c, o.giveBack env [] (.ret .enomem))
  | .stamp, .loadTimestamp => o.own.map fun pba =>
      (c, { o with phase := .write (c.segTimestamps (env.geo.segOf pba)) })
  | .write ts, .writeRecord => o.own.map fun pba =>
      (c.writeRec pba ⟨o.key, ts, o.value, o.grains env⟩, { o with phase := .probe })
  | .write _, .writeFails kill => o.own.map fun pba =>
      (c.tearRecs pba (o.grains env) kill, o.giveBack env [] (.ret .eio))
  | .probe, .loadSnapshot => some (c, { o with phase := .look c.cur })
  | .look _, .lookup none =>
      some (c, { o with phase := if o.kind = .get then .calls [] (.ret .enoent) else .commit })
  | .look gen, .lookup (some d) =>
      let hash := env.hashKey o.key
      (((c.snaps gen).tableForHash hash).matchAt hash d (o.kind ≠ .get)).map fun e =>
        (c, o.found c e.val)
  | .verify e, .read =>
      if o.kind = .get then
        some (c, { o with phase := (o.valueRead env c e).elim .probe (.version e.pba) })
      else
        some (c, { o with
          probe := o.probe.push ⟨e.pba, o.verifies env c e⟩
          phase := .probe })
  | .verify _, .bufferFails => some (c, o.giveBack env [] (.ret .enomem))
  | .verify _, .readFails => some (c, o.giveBack env [] (.ret .eio))
  | .commit, .commit early => o.tryCommit env locked c i early
  | .commit, .commitStale => some (c.leave o.sec, o.unprotected .growWait)
  | .growWait, .resume =>
      some ((c.enter (.op i)).1, { o with sec := (c.enter (.op i)).2, phase := .probe })
  | .growWait, .growFails =>
      some ((c.enter (.op i)).1,
        { o with sec := (c.enter (.op i)).2 }.giveBack env [] (.ret .enospc))
  | .calls (x :: todo) next, .call => some (c.call x, { o with phase := .calls todo next })
  | .calls [] (.ret rc), .call => some (c.leave o.sec, o.unprotected (.done rc none))
  | .calls [] .again, .call =>
      some (c, { o with phase := if o.value.isSome then .alloc else .probe })
  | .version pba value, .loadVersion =>
      some (c.leave o.sec,
        o.unprotected (.done .ok (some (value, versionOf env.geo c.segTimestamps pba))))
  | _, _ => none

/-- A finished operation takes no step. -/
theorem step_done
    {env : StoreEnv} {locked : Option Nat} {c : Core} {i : Nat} {o : Op} {rc : Rc}
    {res : Option (Bytes × Nat)} (h : o.phase = .done rc res) (a : OpAct) :
  o.step env locked c i a = none
  := by
  simp [step, h]

end Op

/-! ### The garbage collector -/

inductive GcAct where
  | pick (victim : Nat)
  | scanLive
  | scanTimestamp
  | read
  | readFails
  | walk
  | allocate (seg : Nat)
  | allocFails
  | compare
  | check
  | bufferFails
  | loadTimestamp
  | writeRecord
  | writeFails (kill : List Nat)
  | repoint
  | call
  | synced
  deriving DecidableEq, Repr

namespace GcPhase

variable (env : StoreEnv)

/-- The end of the victim's records. -/
def endGrain (p : GcPass) : Nat := env.geo.segBase p.victim + env.geo.dataGrains

/-- The record the walk finds at its grain. -/
def recordHere (p : GcPass) : Option Rec :=
  (p.buf p.grain).filter fun r =>
    r.key.length ≠ 0 && r.timestamp == p.victimTs && r.grains ≤ kKvSizeMask
      && p.grain + r.grains ≤ endGrain env p

/-- Give the destination back, and then more calls. -/
def dropDst (r : Rec) (dst : Nat) (more : List Call) (next : GcNext) : GcStage :=
  .calls ([.invalidate dst r.grains, .release dst r.grains] ++ more) next

/-- `gc_record` locks the stripes of the record's key and looks for its entry: the record is
not the directory's, or is a tombstone to drop, or is to be relocated. -/
def lockRecord (c : Core) (p : GcPass) (r : Rec) : Option (Core × GcPhase) :=
  let hash := env.hashKey r.key
  let c' := (c.enter .gc).1
  let sec := (c.enter .gc).2
  if c.curSnap.frozen then none
  else match (c.curSnap.tableForHash hash).entryAt hash p.grain with
    | none => some (c, .walk { p with grain := p.grain + r.grains })
    | some e =>
        if e.val.deleted && p.dropTombstones then
          let snap := (c.curSnap.removeLocked hash p.grain).getD c.curSnap
          some ({ (c'.setCur snap).give p.grain (.remover .gc) with
              dropped := ⟨r.key, r.timestamp, p.grain⟩ :: c.dropped },
            .relocate p r e.val sec (.calls [.invalidate p.grain r.grains] .advance))
        else some (c', .relocate p r e.val sec (.alloc 0))

/-- A step of `gc_record` with the stripes locked. -/
def stepRelocate (c : Core) (p : GcPass) (r : Rec) (e : EntryInfo) (sec : ReadSection)
    (stage : GcStage) (a : GcAct) : Option (Core × GcPhase) :=
  let goto (c : Core) (stage : GcStage) : Option (Core × GcPhase) :=
    some (c, .relocate p r e sec stage)
  match stage, a with
  | .alloc attempt, .allocate seg =>
      (c.allocate env.geo .gc .reloc seg r.grains).bind fun (c', dst) =>
        goto c' (.compare attempt dst)
  | .alloc _, .allocFails => goto c (.calls [] .fail)
  | .compare attempt dst, .compare =>
      if r.timestamp < c.segTimestamps (env.geo.segOf dst) then goto c (.check dst)
      else if attempt = 1 then goto c (dropDst r dst [] .fail)
      else goto c (dropDst r dst [.drain .reloc] (.retry (attempt + 1)))
  | .check dst, .check =>
      if c.segMdOk (env.geo.segOf dst) then goto c (.stamp dst) else goto c (dropDst r dst [] .fail)
  | .stamp dst, .bufferFails => goto c (dropDst r dst [] .fail)
  | .stamp dst, .loadTimestamp => goto c (.write dst (c.segTimestamps (env.geo.segOf dst)))
  | .write dst ts, .writeRecord => goto (c.writeRec dst { r with timestamp := ts }) (.repoint dst)
  | .write dst _, .writeFails kill => goto (c.tearRecs dst r.grains kill) (dropDst r dst [] .fail)
  | .repoint dst, .repoint =>
      let snap := (c.curSnap.updateLocked (env.hashKey r.key) p.grain e.kvSize dst).getD c.curSnap
      goto ((((c.setCur snap).give p.grain (.remover .gc)).give dst .entry).recordCommit env.geo
        r.key
          dst)
        (.calls [.release dst r.grains, .invalidate p.grain r.grains] .advance)
  | .calls (x :: todo) next, .call => goto (c.call x) (.calls todo next)
  | .calls [] .advance, .call =>
      some (c.leave sec, .walk { p with grain := p.grain + r.grains })
  | .calls [] .fail, .call => some ((c.leave sec).setPhase p.victim .closed, .idle)
  | .calls [] (.retry attempt), .call => goto c (.alloc attempt)
  | _, _ => none

/-- A step of the garbage collector. -/
def step (c : Core) (g : GcPhase) (a : GcAct) : Option (Core × GcPhase) :=
  match g, a with
  | .idle, .pick v =>
      if c.phase v = .closed ∧ c.allRanges env.geo v (·.released) then
        some (c.setPhase v .victim, .scan v (c.segTimestamps v) 0 true false)
      else none
  | .scan v vts i true false, .scanLive =>
      if i < env.geo.numSegments then
        if i ≠ v ∧ c.segLive i then some (c, .scan v vts i true true)
        else some (c, .scan v vts (i + 1) true false)
      else none
  | .scan v vts i true true, .scanTimestamp =>
      some (c, .scan v vts (i + 1) (vts ≤ c.segTimestamps i) false)
  | .scan v vts i drop false, .read =>
      if i < env.geo.numSegments ∧ drop then none
      else some (c, .walk ⟨v, vts, drop, c.recs, env.geo.segBase v⟩)
  | .scan v _ i drop false, .readFails =>
      if i < env.geo.numSegments ∧ drop then none else some (c.setPhase v .closed, .idle)
  | .walk p, .walk =>
      if p.grain < endGrain env p then
        match recordHere env p with
        | some r => lockRecord env c p r
        | none => some (c, .walk { p with grain := p.grain + 1 })
      else some (c.setPhase p.victim (.syncing c.sections), .sync p.victim)
  | .relocate p r e sec stage, a => stepRelocate env c p r e sec stage a
  | .sync v, .synced =>
      match c.phase v with
      | .syncing waits => if c.ended waits then some (c.freeSegment env.geo v, .idle) else none
      | _ => none
  | _, _ => none

end GcPhase

/-! ### The store -/

inductive Act where
  | takeSegment (seg : Nat) (stream : Stream)
  | takeIndexSegment (seg : Nat)
  | writeSegMd (seg : Nat) (res : WriteResult)
  | storeTimestamp (seg : Nat)
  | storeLive (seg : Nat)
  | storeMdOk (seg : Nat)
  | finishStamp (seg : Nat)
  | retireIndexSegment (seg : Nat)
  | closeSegment (seg : Nat)
  | deferFree (seg : Nat)
  | freeDeferred (seg : Nat)
  | growFreeze
  | growPublish
  | start (i : Nat) (kind : OpKind) (key : Bytes)
  | op (i : Nat) (a : OpAct)
  | gc (a : GcAct)
  deriving DecidableEq, Repr

/-- The steps that no operation and not the collector makes. -/
def Core.envStep (geo : Geometry) (c : Core) : Act → Option Core
  | .takeSegment seg stream => c.takeSegment geo seg stream
  | .takeIndexSegment seg => c.takeIndexSegment geo seg
  | .writeSegMd seg res => c.writeSegMd seg res
  | .storeTimestamp seg => c.storeTimestamp seg
  | .storeLive seg => c.storeLive seg
  | .storeMdOk seg => c.storeMdOk seg
  | .finishStamp seg => c.finishStamp geo seg
  | .retireIndexSegment seg => c.retireIndexSegment seg
  | .closeSegment seg => some (c.closeSegment seg)
  | .deferFree seg => c.deferFree geo seg
  | .freeDeferred seg => c.freeDeferred geo seg
  | .growFreeze => c.growFreeze
  | .growPublish => c.growPublish
  | _ => none

/-- An operation as it begins, in its read section. -/
def Op.init (kind : OpKind) (key : Bytes) (sec : ReadSection) : Op where
  kind := kind
  key := key
  sec := sec
  own := none
  probe := []
  loaded := []
  phase := if kind = .get then .probe else match kind with
    | .put _ _ _ => .alloc
    | _ => .probe

/-- A step of the store. -/
def State.step (env : StoreEnv) (s : State) : Act → Option State
  | .start i kind key =>
      if (s.ops i).isNone ∧ admitted env kind key then
        some { s with
          core := (s.core.enter (.op i)).1
          ops := Function.update s.ops i (some (Op.init kind key (s.core.enter (.op i)).2)) }
      else none
  | .op i a =>
      (s.ops i).bind fun o =>
        (o.step env (s.gc.locked env) s.core i a).map fun (c, o') =>
          { s with core := c, ops := Function.update s.ops i (some o') }
  | .gc a =>
      (GcPhase.step env s.core s.gc a).map fun (c, g) => { s with core := c, gc := g }
  | a => (s.core.envStep env.geo a).map fun c => { s with core := c }

end UDepot
