import UDepot.Store.Step

/-!
# Steps, case by case

`Op.Steps` lists what a step of an operation can be, one case for each way through `Op.step`; the
decision of a commit is kept apart (`Op.Enacts`).  `GcPhase.Steps` does the same for the
collector, and `GcPhase.Relocates` for `gc_record`.  `Core.EnvSteps` is for the steps of no actor,
and `SegTable.Turns` for those of the metadata callbacks among them.  A fact about all steps is
proved by cases on these.
-/

namespace UDepot

namespace Op

variable (env : StoreEnv) (c : Core) (i : Nat) (o : Op)

/-- Carrying out a decision. -/
inductive Enacts : Verdict → Core → Op → Prop
  | refuse (rc : Rc) : Enacts (.refuse rc) c (o.giveBack env [] (.ret rc))
  | needTomb : Enacts .needTomb c { o with phase := .alloc }
  | rewrite {pba : Nat} (e : EntryInfo) (hown : o.own = some pba) :
      Enacts (.rewrite e) c (o.giveBack env
        (if env.geo.segOf pba ≠ env.geo.segOf e.pba then [Call.drain .data] else []) .again)
  | insert {pba : Nat} {snap : DirSnapshot} (hown : o.own = some pba)
      (hins : c.curSnap.insertLocked (env.hashKey o.key) (o.kvSize env) pba = (true, snap)) :
      Enacts .insert (((c.setCur snap).give pba .entry).recordCommit env.geo o.key pba)
        { o with own := none, phase := .calls [.release pba (o.grains env)] (.ret .ok) }
  | insertFull {pba : Nat} {snap : DirSnapshot} (hown : o.own = some pba)
      (hins : c.curSnap.insertLocked (env.hashKey o.key) (o.kvSize env) pba = (false, snap))
      (hmax : kMaxTableBits ≤ snap.tableBits) :
      Enacts .insert (c.setCur snap) (o.giveBack env [] (.ret .enospc))
  | insertGrow {pba : Nat} {snap : DirSnapshot} (hown : o.own = some pba)
      (hins : c.curSnap.insertLocked (env.hashKey o.key) (o.kvSize env) pba = (false, snap))
      (hmax : ¬ kMaxTableBits ≤ snap.tableBits) :
      Enacts .insert ((c.setCur snap).leave o.sec) (o.unprotected .growWait)
  | replace {pba : Nat} (e : EntryInfo) (hown : o.own = some pba) :
      Enacts (.replace e)
        ((((c.setCur ((c.curSnap.updateLocked (env.hashKey o.key) e.pba (o.kvSize env) pba).getD
          c.curSnap)).give e.pba (.remover (.op i))).give pba .entry).recordCommit env.geo o.key
            pba)
        { o with
          own := none
          phase := .calls [.invalidate e.pba (o.entryGrains env e), .release pba (o.grains env)]
            (.ret .ok) }

/-- A step of an operation. -/
inductive Steps (lock : Option Nat) : OpAct → Core → Op → Prop
  | allocate {seg pba : Nat} {c' : Core} (hph : o.phase = .alloc)
      (ha : c.allocate env.geo (.op i) .data seg (o.grains env) = some (c', pba))
      (hok : c.segMdOk seg = true) :
      Steps lock (.allocate seg) c' { o with own := some pba, phase := .stamp }
  | allocateBad {seg pba : Nat} {c' : Core} (hph : o.phase = .alloc)
      (ha : c.allocate env.geo (.op i) .data seg (o.grains env) = some (c', pba))
      (hok : ¬ c.segMdOk seg = true) :
      Steps lock (.allocate seg) c' ({ o with own := some pba }.giveBack env [] (.ret .eio))
  | allocAgain (hph : o.phase = .alloc) :
      Steps lock .allocAgain (c.leave o.sec) (o.unprotected .spaceWait)
  | allocFails (hph : o.phase = .alloc) :
      Steps lock .allocFails c { o with phase := .calls [] (.ret .enospc) }
  | resumeAlloc (hph : o.phase = .spaceWait) :
      Steps lock .resume (c.enter (.op i)).1
        { o with sec := (c.enter (.op i)).2, phase := .alloc }
  | tombFails (hph : o.phase = .stamp) (hval : o.value.isSome = false) :
      Steps lock .bufferFails c (o.giveBack env [] (.ret .enomem))
  | loadTimestamp {pba : Nat} (hph : o.phase = .stamp) (hown : o.own = some pba) :
      Steps lock .loadTimestamp c
        { o with phase := .write (c.segTimestamps (env.geo.segOf pba)) }
  | writeRecord {ts pba : Nat} (hph : o.phase = .write ts) (hown : o.own = some pba) :
      Steps lock .writeRecord (c.writeRec pba ⟨o.key, ts, o.value, o.grains env⟩)
        { o with phase := .probe }
  | writeFails {ts pba : Nat} (kill : List Nat) (hph : o.phase = .write ts)
      (hown : o.own = some pba) :
      Steps lock (.writeFails kill) (c.tearRecs pba (o.grains env) kill)
        (o.giveBack env [] (.ret .eio))
  | loadSnapshot (hph : o.phase = .probe) :
      Steps lock .loadSnapshot c { o with phase := .look c.cur }
  | lookupEnd {gen : Nat} (hph : o.phase = .look gen) :
      Steps lock (.lookup none) c
        { o with phase := if o.kind = .get then .calls [] (.ret .enoent) else .commit }
  | lookup {gen d : Nat} {e : HashEntry} (hph : o.phase = .look gen)
      (he : ((c.snaps gen).tableForHash (env.hashKey o.key)).matchAt (env.hashKey o.key) d
        (o.kind ≠ .get) = some e) :
      Steps lock (.lookup (some d)) c (o.found c e.val)
  | readGet {e : EntryInfo} (hph : o.phase = .verify e) (hget : o.kind = .get) :
      Steps lock .read c
        { o with phase := (o.valueRead env c e).elim .probe (.version e.pba) }
  | readKey {e : EntryInfo} (hph : o.phase = .verify e) (hget : ¬ o.kind = .get) :
      Steps lock .read c
        { o with probe := o.probe.push ⟨e.pba, o.verifies env c e⟩, phase := .probe }
  | bufferFails {e : EntryInfo} (hph : o.phase = .verify e) :
      Steps lock .bufferFails c (o.giveBack env [] (.ret .enomem))
  | readFails {e : EntryInfo} (hph : o.phase = .verify e) :
      Steps lock .readFails c (o.giveBack env [] (.ret .eio))
  | frozen {early : Bool} (hph : o.phase = .commit) (hmay : c.mayWrite o.sec early = false) :
      Steps lock (.commit early) (c.leave o.sec) (o.unprotected .growWait)
  | unsettled {early : Bool} {m : Option HashEntry} (hph : o.phase = .commit)
      (hset : probeSettled (c.curSnap.tableForHash (env.hashKey o.key)) (env.hashKey o.key) o.probe
        = (false, m)) :
      Steps lock (.commit early) c { o with phase := .probe }
  | commit {early : Bool} {m : Option HashEntry} {v : Verdict} {c' : Core} {o' : Op}
      (hph : o.phase = .commit)
      (hlock : lock.any (c.curSnap.locksMeet (env.hashKey o.key)) = false)
      (hmay : c.mayWrite o.sec early = true)
      (hset : probeSettled (c.curSnap.tableForHash (env.hashKey o.key)) (env.hashKey o.key) o.probe
        = (true, m))
      (hv : o.verdict env.geo c.segTimestamps (m.map (·.val)) = some v)
      (h : Enacts env c i o v c' o') : Steps lock (.commit early) c' o'
  | commitStale (hph : o.phase = .commit) :
      Steps lock .commitStale (c.leave o.sec) (o.unprotected .growWait)
  | resumeProbe (hph : o.phase = .growWait) :
      Steps lock .resume (c.enter (.op i)).1
        { o with sec := (c.enter (.op i)).2, phase := .probe }
  | growFails (hph : o.phase = .growWait) :
      Steps lock .growFails (c.enter (.op i)).1
        ({ o with sec := (c.enter (.op i)).2 }.giveBack env [] (.ret .enospc))
  | call {x : Call} {todo : List Call} {next : Next} (hph : o.phase = .calls (x :: todo) next) :
      Steps lock .call (c.call x) { o with phase := .calls todo next }
  | returns {rc : Rc} (hph : o.phase = .calls [] (.ret rc)) :
      Steps lock .call (c.leave o.sec) (o.unprotected (.done rc none))
  | again (hph : o.phase = .calls [] .again) :
      Steps lock .call c { o with phase := if o.value.isSome then .alloc else .probe }
  | loadVersion {pba : Nat} {value : Bytes} (hph : o.phase = .version pba value) :
      Steps lock .loadVersion (c.leave o.sec)
        (o.unprotected (.done .ok (some (value, versionOf env.geo c.segTimestamps pba))))

variable {env c i o} {lock : Option Nat} {a : OpAct} {c' : Core} {o' : Op}

theorem enacts_of_enact {v : Verdict} (hs : o.enact env c i v = some (c', o')) :
    Enacts env c i o v c' o' := by
  cases v with
  | refuse rc =>
      cases hs
      exact .refuse rc
  | needTomb =>
      cases hs
      exact .needTomb
  | rewrite e =>
      obtain ⟨pba, hown, ⟨⟩⟩ := Option.map_eq_some_iff.mp hs
      exact .rewrite e hown
  | replace e =>
      obtain ⟨pba, hown, ⟨⟩⟩ := Option.map_eq_some_iff.mp hs
      exact .replace e hown
  | insert =>
      obtain ⟨pba, hown, hs⟩ := Option.bind_eq_some_iff.mp hs
      rcases hins : c.curSnap.insertLocked (env.hashKey o.key) (o.kvSize env) pba with ⟨ok, snap⟩
      rw [hins] at hs
      cases ok with
      | true =>
          cases hs
          exact .insert hown hins
      | false =>
          simp only at hs
          split at hs
          · rename_i hmax
            cases hs
            exact .insertFull hown hins hmax
          · rename_i hmax
            cases hs
            exact .insertGrow hown hins hmax

theorem steps_of_tryCommit
    {early : Bool} (hph : o.phase = .commit)
    (hs : o.tryCommit env lock c i early = some (c', o')) :
  Steps env c i o lock (.commit early) c' o'
  := by
  simp only [Op.tryCommit] at hs
  split at hs
  · cases hs
  · rename_i hlock
    split at hs
    · rename_i hmay
      cases hs
      exact .frozen hph (by simpa using hmay)
    · rename_i hmay
      split at hs
      · rename_i hset
        cases hs
        exact .unsettled hph hset
      · rename_i m hset
        obtain ⟨v, hv, hs⟩ := Option.bind_eq_some_iff.mp hs
        exact .commit hph (by simpa using hlock) (by simpa using hmay) hset hv
          (enacts_of_enact hs)

/-- Every step is one of the cases. -/
theorem steps_of_step (hs : o.step env lock c i a = some (c', o')) :
    Steps env c i o lock a c' o' := by
  rw [Op.step.eq_def] at hs
  cases hph : o.phase with
  | alloc =>
      rw [hph] at hs
      cases a with
      | allocate seg =>
          simp only at hs
          split at hs
          · cases hs
          · rename_i c₁ pba ha
            split at hs
            · rename_i hok
              cases hs
              exact .allocate hph ha hok
            · rename_i hok
              cases hs
              exact .allocateBad hph ha hok
      | allocAgain =>
          cases hs
          exact .allocAgain hph
      | allocFails =>
          cases hs
          exact .allocFails hph
      | _ => cases hs
  | spaceWait =>
      rw [hph] at hs
      cases a with
      | resume =>
          cases hs
          exact .resumeAlloc hph
      | _ => cases hs
  | stamp =>
      rw [hph] at hs
      cases a with
      | bufferFails =>
          obtain ⟨hval, ⟨⟩⟩ := Option.ite_none_left_eq_some.mp hs
          exact .tombFails hph (by simpa using hval)
      | loadTimestamp =>
          obtain ⟨pba, hown, ⟨⟩⟩ := Option.map_eq_some_iff.mp hs
          exact .loadTimestamp hph hown
      | _ => cases hs
  | write ts =>
      rw [hph] at hs
      cases a with
      | writeRecord =>
          obtain ⟨pba, hown, ⟨⟩⟩ := Option.map_eq_some_iff.mp hs
          exact .writeRecord hph hown
      | writeFails kill =>
          obtain ⟨pba, hown, ⟨⟩⟩ := Option.map_eq_some_iff.mp hs
          exact .writeFails kill hph hown
      | _ => cases hs
  | probe =>
      rw [hph] at hs
      cases a with
      | loadSnapshot =>
          cases hs
          exact .loadSnapshot hph
      | _ => cases hs
  | look gen =>
      rw [hph] at hs
      cases a with
      | lookup slot =>
          cases slot with
          | none =>
              cases hs
              exact .lookupEnd hph
          | some d =>
              obtain ⟨e, he, ⟨⟩⟩ := Option.map_eq_some_iff.mp hs
              exact .lookup hph he
      | _ => cases hs
  | verify e =>
      rw [hph] at hs
      cases a with
      | read =>
          simp only at hs
          split at hs
          · rename_i hget
            cases hs
            exact .readGet hph hget
          · rename_i hget
            cases hs
            exact .readKey hph hget
      | bufferFails =>
          cases hs
          exact .bufferFails hph
      | readFails =>
          cases hs
          exact .readFails hph
      | _ => cases hs
  | commit =>
      rw [hph] at hs
      cases a with
      | commit early => exact steps_of_tryCommit hph hs
      | commitStale =>
          cases hs
          exact .commitStale hph
      | _ => cases hs
  | growWait =>
      rw [hph] at hs
      cases a with
      | resume =>
          cases hs
          exact .resumeProbe hph
      | growFails =>
          cases hs
          exact .growFails hph
      | _ => cases hs
  | calls todo next =>
      rw [hph] at hs
      cases a with
      | call =>
          cases todo with
          | cons x todo =>
              cases hs
              exact .call hph
          | nil =>
              cases next with
              | ret rc =>
                  cases hs
                  exact .returns hph
              | again =>
                  cases hs
                  exact .again hph
      | _ => cases todo <;> cases next <;> cases hs
  | version pba value =>
      rw [hph] at hs
      cases a with
      | loadVersion =>
          cases hs
          exact .loadVersion hph
      | _ => cases hs
  | done rc res =>
      rw [hph] at hs
      cases hs

end Op

namespace GcPhase

variable (env : StoreEnv) (c : Core)

/-- A step of `gc_record` with the stripes locked. -/
inductive Relocates (p : GcPass) (r : Rec) (e : EntryInfo) (sec : ReadSection) :
    GcStage → GcAct → Core → GcPhase → Prop
  | allocate {attempt seg dst : Nat} {c' : Core}
      (ha : c.allocate env.geo .gc .reloc seg r.grains = some (c', dst)) :
      Relocates p r e sec (.alloc attempt) (.allocate seg) c'
        (.relocate p r e sec (.compare attempt dst))
  | allocFails {attempt : Nat} :
      Relocates p r e sec (.alloc attempt) .allocFails c (.relocate p r e sec (.calls [] .fail))
  | later {attempt dst : Nat} (hlt : r.timestamp < c.segTimestamps (env.geo.segOf dst)) :
      Relocates p r e sec (.compare attempt dst) .compare c (.relocate p r e sec (.check dst))
  | stale {dst : Nat} (hlt : ¬ r.timestamp < c.segTimestamps (env.geo.segOf dst)) :
      Relocates p r e sec (.compare 1 dst) .compare c
        (.relocate p r e sec (dropDst r dst [] .fail))
  | again {attempt dst : Nat} (hlt : ¬ r.timestamp < c.segTimestamps (env.geo.segOf dst))
      (hne : attempt ≠ 1) :
      Relocates p r e sec (.compare attempt dst) .compare c
        (.relocate p r e sec (dropDst r dst [.drain .reloc] (.retry (attempt + 1))))
  | mdOk {dst : Nat} (hok : c.segMdOk (env.geo.segOf dst) = true) :
      Relocates p r e sec (.check dst) .check c (.relocate p r e sec (.stamp dst))
  | mdBad {dst : Nat} (hok : ¬ c.segMdOk (env.geo.segOf dst) = true) :
      Relocates p r e sec (.check dst) .check c (.relocate p r e sec (dropDst r dst [] .fail))
  | bufferFails {dst : Nat} :
      Relocates p r e sec (.stamp dst) .bufferFails c
        (.relocate p r e sec (dropDst r dst [] .fail))
  | loadTimestamp {dst : Nat} :
      Relocates p r e sec (.stamp dst) .loadTimestamp c
        (.relocate p r e sec (.write dst (c.segTimestamps (env.geo.segOf dst))))
  | writeRecord {dst ts : Nat} :
      Relocates p r e sec (.write dst ts) .writeRecord (c.writeRec dst { r with timestamp := ts })
        (.relocate p r e sec (.repoint dst))
  | writeFails {dst ts : Nat} (kill : List Nat) :
      Relocates p r e sec (.write dst ts) (.writeFails kill) (c.tearRecs dst r.grains kill)
        (.relocate p r e sec (dropDst r dst [] .fail))
  | repoint {dst : Nat} :
      Relocates p r e sec (.repoint dst) .repoint
        ((((c.setCur ((c.curSnap.updateLocked (env.hashKey r.key) p.grain e.kvSize dst).getD
          c.curSnap)).give p.grain (.remover .gc)).give dst .entry).recordCommit env.geo r.key dst)
        (.relocate p r e sec (.calls [.release dst r.grains, .invalidate p.grain r.grains]
          .advance))
  | call {x : Call} {todo : List Call} {next : GcNext} :
      Relocates p r e sec (.calls (x :: todo) next) .call (c.call x)
        (.relocate p r e sec (.calls todo next))
  | advance :
      Relocates p r e sec (.calls [] .advance) .call (c.leave sec)
        (.walk { p with grain := p.grain + r.grains })
  | fail :
      Relocates p r e sec (.calls [] .fail) .call ((c.leave sec).setPhase p.victim .closed) .idle
  | retry {attempt : Nat} :
      Relocates p r e sec (.calls [] (.retry attempt)) .call c
        (.relocate p r e sec (.alloc attempt))

/-- A step of the garbage collector. -/
inductive Steps : GcPhase → GcAct → Core → GcPhase → Prop
  | pick {v : Nat} (hph : c.phase v = .closed)
      (hall : c.allRanges env.geo v (·.released) = true) :
      Steps .idle (.pick v) (c.setPhase v .victim) (.scan v (c.segTimestamps v) 0 true false)
  | scanLive {v vts i : Nat} (hi : i < env.geo.numSegments) (hne : i ≠ v)
      (hlive : c.segLive i = true) :
      Steps (.scan v vts i true false) .scanLive c (.scan v vts i true true)
  | scanSkip {v vts i : Nat} (hi : i < env.geo.numSegments)
      (hnot : ¬ (i ≠ v ∧ c.segLive i = true)) :
      Steps (.scan v vts i true false) .scanLive c (.scan v vts (i + 1) true false)
  | scanTimestamp {v vts i : Nat} :
      Steps (.scan v vts i true true) .scanTimestamp c
        (.scan v vts (i + 1) (vts ≤ c.segTimestamps i) false)
  | read {v vts i : Nat} {drop : Bool} (hend : ¬ (i < env.geo.numSegments ∧ drop = true)) :
      Steps (.scan v vts i drop false) .read c (.walk ⟨v, vts, drop, c.recs, env.geo.segBase v⟩)
  | readFails {v vts i : Nat} {drop : Bool} (hend : ¬ (i < env.geo.numSegments ∧ drop = true)) :
      Steps (.scan v vts i drop false) .readFails (c.setPhase v .closed) .idle
  | walkEnd {p : GcPass} (hend : ¬ p.grain < endGrain env p) :
      Steps (.walk p) .walk (c.setPhase p.victim (.syncing c.sections)) (.sync p.victim)
  | walkSkip {p : GcPass} (hin : p.grain < endGrain env p) (hnone : recordHere env p = none) :
      Steps (.walk p) .walk c (.walk { p with grain := p.grain + 1 })
  | walkPass {p : GcPass} {r : Rec} (hin : p.grain < endGrain env p)
      (hr : recordHere env p = some r) (hfrozen : ¬ c.curSnap.frozen = true)
      (he : (c.curSnap.tableForHash (env.hashKey r.key)).entryAt (env.hashKey r.key) p.grain
        = none) :
      Steps (.walk p) .walk c (.walk { p with grain := p.grain + r.grains })
  | drop {p : GcPass} {r : Rec} {e : HashEntry} (hin : p.grain < endGrain env p)
      (hr : recordHere env p = some r) (hfrozen : ¬ c.curSnap.frozen = true)
      (he : (c.curSnap.tableForHash (env.hashKey r.key)).entryAt (env.hashKey r.key) p.grain
        = some e) (hdrop : (e.val.deleted && p.dropTombstones) = true) :
      Steps (.walk p) .walk
        { ((c.enter .gc).1.setCur ((c.curSnap.removeLocked (env.hashKey r.key) p.grain).getD
            c.curSnap)).give p.grain (.remover .gc) with
          dropped := ⟨r.key, r.timestamp, p.grain⟩ :: c.dropped }
        (.relocate p r e.val (c.enter .gc).2 (.calls [.invalidate p.grain r.grains] .advance))
  | lock {p : GcPass} {r : Rec} {e : HashEntry} (hin : p.grain < endGrain env p)
      (hr : recordHere env p = some r) (hfrozen : ¬ c.curSnap.frozen = true)
      (he : (c.curSnap.tableForHash (env.hashKey r.key)).entryAt (env.hashKey r.key) p.grain
        = some e) (hdrop : ¬ (e.val.deleted && p.dropTombstones) = true) :
      Steps (.walk p) .walk (c.enter .gc).1 (.relocate p r e.val (c.enter .gc).2 (.alloc 0))
  | relocate {p : GcPass} {r : Rec} {e : EntryInfo} {sec : ReadSection} {stage : GcStage}
      {a : GcAct} {c' : Core} {g' : GcPhase} (h : Relocates env c p r e sec stage a c' g') :
      Steps (.relocate p r e sec stage) a c' g'
  | synced {v : Nat} {waits : List ReadSection} (hph : c.phase v = .syncing waits)
      (hended : c.ended waits = true) :
      Steps (.sync v) .synced (c.freeSegment env.geo v) .idle

variable {env c} {c' : Core} {a : GcAct}

theorem relocates_of_step
    {p : GcPass} {r : Rec} {e : EntryInfo} {sec : ReadSection} {stage : GcStage} {g' : GcPhase}
    (hs : stepRelocate env c p r e sec stage a = some (c', g')) :
  Relocates env c p r e sec stage a c' g'
  := by
  cases stage with
  | alloc attempt =>
      cases a with
      | allocate seg =>
          obtain ⟨⟨c₁, dst⟩, ha, ⟨⟩⟩ := Option.bind_eq_some_iff.mp hs
          exact .allocate ha
      | allocFails =>
          cases hs
          exact .allocFails
      | _ => cases hs
  | compare attempt dst =>
      cases a with
      | compare =>
          simp only [stepRelocate] at hs
          split at hs
          · rename_i hlt
            cases hs
            exact .later hlt
          · rename_i hlt
            split at hs
            · rename_i hattempt
              subst hattempt
              cases hs
              exact .stale hlt
            · rename_i hne
              cases hs
              exact .again hlt hne
      | _ => cases hs
  | check dst =>
      cases a with
      | check =>
          simp only [stepRelocate] at hs
          split at hs
          · rename_i hok
            cases hs
            exact .mdOk hok
          · rename_i hok
            cases hs
            exact .mdBad hok
      | _ => cases hs
  | stamp dst =>
      cases a with
      | bufferFails =>
          cases hs
          exact .bufferFails
      | loadTimestamp =>
          cases hs
          exact .loadTimestamp
      | _ => cases hs
  | write dst ts =>
      cases a with
      | writeRecord =>
          cases hs
          exact .writeRecord
      | writeFails kill =>
          cases hs
          exact .writeFails kill
      | _ => cases hs
  | repoint dst =>
      cases a with
      | repoint =>
          cases hs
          exact .repoint
      | _ => cases hs
  | calls todo next =>
      cases a with
      | call =>
          cases todo with
          | cons x todo =>
              cases hs
              exact .call
          | nil =>
              cases next with
              | advance =>
                  cases hs
                  exact .advance
              | fail =>
                  cases hs
                  exact .fail
              | retry attempt =>
                  cases hs
                  exact .retry
      | _ => cases todo <;> cases next <;> cases hs

theorem steps_of_lockRecord
    {p : GcPass} {r : Rec} {g' : GcPhase} (hin : p.grain < endGrain env p)
    (hr : recordHere env p = some r) (hs : lockRecord env c p r = some (c', g')) :
  Steps env c (.walk p) .walk c' g'
  := by
  simp only [lockRecord] at hs
  split at hs
  · cases hs
  · rename_i hfrozen
    split at hs
    · rename_i he
      cases hs
      exact .walkPass hin hr hfrozen he
    · rename_i e he
      split at hs
      · rename_i hdrop
        cases hs
        exact .drop hin hr hfrozen he hdrop
      · rename_i hdrop
        cases hs
        exact .lock hin hr hfrozen he hdrop

/-- Every step is one of the cases. -/
theorem steps_of_step {g g' : GcPhase} (hs : g.step env c a = some (c', g')) :
    Steps env c g a c' g' := by
  cases g with
  | idle =>
      cases a with
      | pick v =>
          obtain ⟨⟨hph, hall⟩, ⟨⟩⟩ := Option.ite_none_right_eq_some.mp hs
          exact .pick hph hall
      | _ => cases hs
  | scan v vts i drop saw =>
      cases a with
      | scanLive =>
          cases drop <;> cases saw <;> try cases hs
          simp only [step] at hs
          obtain ⟨hi, hs⟩ := Option.ite_none_right_eq_some.mp hs
          split at hs
          · rename_i hlive
            cases hs
            exact .scanLive hi hlive.1 hlive.2
          · rename_i hnot
            cases hs
            exact .scanSkip hi hnot
      | scanTimestamp =>
          cases drop <;> cases saw <;> try cases hs
          exact .scanTimestamp
      | read =>
          cases saw with
          | true => cases drop <;> cases hs
          | false =>
              cases drop <;> obtain ⟨hend, ⟨⟩⟩ := Option.ite_none_left_eq_some.mp hs <;>
                exact .read hend
      | readFails =>
          cases saw with
          | true => cases drop <;> cases hs
          | false =>
              cases drop <;> obtain ⟨hend, ⟨⟩⟩ := Option.ite_none_left_eq_some.mp hs <;>
                exact .readFails hend
      | _ => cases drop <;> cases saw <;> cases hs
  | walk p =>
      cases a with
      | walk =>
          simp only [step] at hs
          split at hs
          · rename_i hin
            split at hs
            · rename_i r hr
              exact steps_of_lockRecord hin hr hs
            · rename_i hnone
              cases hs
              exact .walkSkip hin hnone
          · rename_i hend
            cases hs
            exact .walkEnd hend
      | _ => cases hs
  | relocate p r e sec stage => exact .relocate (relocates_of_step hs)
  | sync v =>
      cases a with
      | synced =>
          simp only [step] at hs
          split at hs
          · rename_i waits hph
            obtain ⟨hended, ⟨⟩⟩ := Option.ite_none_right_eq_some.mp hs
            exact .synced hph hended
          · cases hs
      | _ => cases hs

end GcPhase

/-! ### Steps of no actor -/

/-- The metadata that a write leaves in a segment. -/
def WriteResult.segMd (stream : Stream) (ts : Nat) (old : Option SegMd) :
    WriteResult → Option SegMd
  | .ok => some ⟨Core.ctlrOf stream, ts⟩
  | .kept => old
  | .torn => none

/-- A step of a metadata callback for a segment, or at the end of an index table. -/
inductive SegTable.Turns (geo : Geometry) (t : SegTable) (seg : Nat) : Act → SegTable → Prop
  | take {stream : Stream} (hph : t.phase seg = .free) (hlt : seg < geo.numSegments)
      (hne : stream ≠ .index) :
      Turns geo t seg (.takeSegment seg stream) { t with
        segAllocNr := t.segAllocNr + 1
        phase := Function.update t.phase seg (.stamping stream (t.segAllocNr + 1) .counted)
        owner := Function.update t.owner (t.segAllocNr + 1) seg }
  | takeIndex (hph : t.phase seg = .free) (hlt : seg < geo.numSegments) :
      Turns geo t seg (.takeIndexSegment seg) { t with
        phase := Function.update t.phase seg (.stamping .index t.segAllocNr .counted) }
  | write {stream : Stream} {ts : Nat} (res : WriteResult)
      (hph : t.phase seg = .stamping stream ts .counted) :
      Turns geo t seg (.writeSegMd seg res) { t with
        segMd := Function.update t.segMd seg (res.segMd stream ts (t.segMd seg))
        phase := Function.update t.phase seg (.stamping stream ts (.wrote (res = .ok))) }
  | timestamp {stream : Stream} {ts : Nat} (hph : t.phase seg = .stamping stream ts (.wrote true))
      (hne : stream ≠ .index) :
      Turns geo t seg (.storeTimestamp seg) { t with
        segTimestamps := Function.update t.segTimestamps seg ts
        phase := Function.update t.phase seg (.stamping stream ts .tsStored) }
  | live {stream : Stream} {ts : Nat} (hph : t.phase seg = .stamping stream ts .tsStored) :
      Turns geo t seg (.storeLive seg) { t with
        segLive := Function.update t.segLive seg true
        phase := Function.update t.phase seg (.stamping stream ts .liveStored) }
  | mdOk {stream : Stream} {ts : Nat} {stage : Stage} {ok : Bool}
      (hph : t.phase seg = .stamping stream ts stage)
      (hstage : stage = .wrote ok ∧ (stream = .index ∨ ok = false)
        ∨ stage = .liveStored ∧ ok = true) :
      Turns geo t seg (.storeMdOk seg) { t with
        segMdOk := Function.update t.segMdOk seg ok
        phase := Function.update t.phase seg (.stamping stream ts (.okStored ok)) }
  | opened {stream : Stream} {ts : Nat} {ok : Bool}
      (hph : t.phase seg = .stamping stream ts (.okStored ok)) (hne : stream ≠ .index) :
      Turns geo t seg (.finishStamp seg) { t with
        phase := Function.update t.phase seg (.opened stream (geo.segBase seg)) }
  | index {ts : Nat} (hph : t.phase seg = .stamping .index ts (.okStored true)) :
      Turns geo t seg (.finishStamp seg) { t with
        segLive := Function.update t.segLive seg false
        phase := Function.update t.phase seg .index }
  | back {ts : Nat} (hph : t.phase seg = .stamping .index ts (.okStored false)) :
      Turns geo t seg (.finishStamp seg) { t with phase := Function.update t.phase seg .free }
  | retire (hph : t.phase seg = .index) :
      Turns geo t seg (.retireIndexSegment seg) { t with
        phase := Function.update t.phase seg .free }

namespace Core

/-- A step of no actor: of a metadata callback, of salsa, or of a grow. -/
inductive EnvSteps (geo : Geometry) (c : Core) : Act → Core → Prop
  | turn {seg : Nat} {a : Act} {t : SegTable} (h : c.toSegTable.Turns geo seg a t) :
      EnvSteps geo c a { c with toSegTable := t }
  | closeSegment (seg : Nat) : EnvSteps geo c (.closeSegment seg) (c.closeSegment seg)
  | deferFree {seg : Nat} (hph : c.phase seg = .closed)
      (hall : c.allRanges geo seg (fun r => r.released && !r.valid) = true) :
      EnvSteps geo c (.deferFree seg) (c.setPhase seg (.deferred c.sections))
  | freeDeferred {seg : Nat} {waits : List ReadSection} (hph : c.phase seg = .deferred waits)
      (hend : c.ended waits = true) : EnvSteps geo c (.freeDeferred seg) (c.freeSegment geo seg)
  | growFreeze (hidle : c.grow = .idle) (hbits : c.curSnap.tableBits < kMaxTableBits) :
      EnvSteps geo c .growFreeze
        { c.setCur { c.curSnap with frozen := true } with grow := .freezing c.sections }
  | growPublish {waits : List ReadSection} (hgrow : c.grow = .freezing waits)
      (hend : c.ended waits = true) :
      EnvSteps geo c .growPublish { c with
        snaps := Function.update c.snaps (c.cur + 1) c.curSnap.growCopy
        cur := c.cur + 1
        grow := .idle }

variable {geo : Geometry} {c c' : Core} {seg : Nat}

theorem turns_of_writeSegMd
    {res : WriteResult} (hs : c.writeSegMd seg res = some c') :
  c.EnvSteps geo (.writeSegMd seg res) c'
  := by
  rw [writeSegMd] at hs
  split at hs
  · rename_i hph
    cases res with
    | ok | torn =>
        cases hs
        exact .turn (.write _ hph)
    | kept =>
        cases hs
        have hturn : c.EnvSteps geo _ _ := .turn (.write .kept hph)
        rw [WriteResult.segMd, Function.update_eq_self] at hturn
        exact hturn
  · cases hs

theorem turns_of_storeMdOk (hs : c.storeMdOk seg = some c') :
    c.EnvSteps geo (.storeMdOk seg) c' := by
  simp only [storeMdOk] at hs
  split at hs
  · rename_i hph
    cases hs
    exact .turn (.mdOk hph (.inl ⟨rfl, .inl rfl⟩))
  · rename_i hph
    cases hs
    exact .turn (.mdOk hph (.inr ⟨rfl, rfl⟩))
  · rename_i hph
    cases hs
    exact .turn (.mdOk hph (.inl ⟨rfl, .inr rfl⟩))
  · cases hs

theorem turns_of_finishStamp (hs : c.finishStamp geo seg = some c') :
    c.EnvSteps geo (.finishStamp seg) c' := by
  rw [finishStamp] at hs
  split at hs
  · rename_i hph
    cases hs
    exact .turn (.index hph)
  · rename_i hph
    cases hs
    exact .turn (.back hph)
  · rename_i stream ts ok hnot hnot' hph
    cases hs
    refine .turn (.opened hph ?_)
    rintro rfl
    cases ok with
    | true => exact hnot rfl rfl
    | false => exact hnot' rfl rfl
  · cases hs

/-- Every step is one of the cases. -/
theorem envSteps_of_envStep {a : Act} (hs : c.envStep geo a = some c') :
    c.EnvSteps geo a c' := by
  cases a with
  | takeSegment seg stream =>
      obtain ⟨⟨hph, hlt, hne⟩, ⟨⟩⟩ := Option.ite_none_right_eq_some.mp hs
      exact .turn (.take hph hlt hne)
  | takeIndexSegment seg =>
      obtain ⟨⟨hph, hlt⟩, ⟨⟩⟩ := Option.ite_none_right_eq_some.mp hs
      exact .turn (.takeIndex hph hlt)
  | writeSegMd seg res => exact turns_of_writeSegMd hs
  | storeTimestamp seg =>
      rw [envStep, storeTimestamp] at hs
      split at hs
      · cases hs
      · rename_i hne hph
        cases hs
        exact .turn (.timestamp hph hne)
      · cases hs
  | storeLive seg =>
      rw [envStep, storeLive] at hs
      split at hs
      · rename_i hph
        cases hs
        exact .turn (.live hph)
      · cases hs
  | storeMdOk seg => exact turns_of_storeMdOk hs
  | finishStamp seg => exact turns_of_finishStamp hs
  | retireIndexSegment seg =>
      rw [envStep, retireIndexSegment] at hs
      split at hs
      · rename_i hph
        cases hs
        exact .turn (.retire hph)
      · cases hs
  | closeSegment seg =>
      cases hs
      exact .closeSegment seg
  | deferFree seg =>
      obtain ⟨⟨hph, hall⟩, ⟨⟩⟩ := Option.ite_none_right_eq_some.mp hs
      exact .deferFree hph hall
  | freeDeferred seg =>
      rw [envStep, freeDeferred] at hs
      split at hs
      · rename_i hph
        obtain ⟨hend, ⟨⟩⟩ := Option.ite_none_right_eq_some.mp hs
        exact .freeDeferred hph hend
      · cases hs
  | growFreeze =>
      obtain ⟨⟨hidle, hbits⟩, ⟨⟩⟩ := Option.ite_none_right_eq_some.mp hs
      exact .growFreeze hidle hbits
  | growPublish =>
      rw [envStep, growPublish] at hs
      split at hs
      · rename_i hgrow
        obtain ⟨hend, ⟨⟩⟩ := Option.ite_none_right_eq_some.mp hs
        exact .growPublish hgrow hend
      · cases hs
  | start | op | gc => cases hs

end Core

end UDepot
