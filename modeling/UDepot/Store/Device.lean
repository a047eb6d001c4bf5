import UDepot.Store.Inside

/-!
# What steps change on the device

The device holds the metadata of the segments and the records.  A step writes the metadata of a
segment that is being stamped, or it writes in a range of the operation or of the collector that
makes it, or it leaves the device as it is.  So a committed record stays where it is until the
metadata of its segment is written again (`State.Inv.record_kept`).
-/

namespace UDepot

/-- A step leaves the metadata of the segments, and the records but for a write of its actor. -/
structure Writes (env : StoreEnv) (c c' : Core) (a : Actor) : Prop where
  segMd : c'.segMd = c.segMd
  recs : c'.recs = c.recs ∨ ∃ p len, WriteStep env c a p len c'.recs

section

variable {env : StoreEnv} {c c' : Core} {lock : Option Nat} {i : Nat} {b : Actor}

theorem Writes.none (hmd : c'.segMd = c.segMd) (hrecs : c'.recs = c.recs) : Writes env c c' b :=
  ⟨hmd, .inl hrecs⟩

theorem Writes.call (x : Call) : Writes env c (c.call x) b := by
  cases x <;> exact .none rfl rfl

theorem Writes.allocate
    {a : Actor} {stream : Stream} {seg len pba : Nat}
    (h : c.allocate env.geo a stream seg len = some (c', pba)) :
  Writes env c c' b
  := by
  rw [(Core.allocate_spec h).after]
  exact .none rfl rfl

/-- An operation writes only in its own range. -/
theorem Op.Steps.writes
    {o o' : Op} {a : OpAct} (hinv : c.Inv env) (ho : OpInv env c i o)
    (h : Op.Steps env c i o lock a c' o') :
  Writes env c c' (.op i)
  := by
  cases h with
  | @writeRecord ts p hph hown =>
      obtain ⟨howned, hok, -⟩ := ho.own hown
      have hphase := ho.phaseOk
      rw [hph] at hphase
      exact ⟨rfl, .inr ⟨_, _, Core.writeRec_step howned hok (hphase p hown)
        (ho.shape hinv hown _)⟩⟩
  | writeFails kill hph hown =>
      obtain ⟨howned, hok, -⟩ := ho.own hown
      exact ⟨rfl, .inr ⟨_, _, Core.tearRecs_step howned hok kill⟩⟩
  | allocate _ ha _ | allocateBad _ ha _ => exact .allocate ha
  | call => exact .call _
  | commit _ _ _ _ _ h => cases h <;> exact .none rfl rfl
  | _ => exact .none rfl rfl

/-- The collector writes only in the range it copies a record to. -/
theorem GcPhase.Steps.writes
    {g g' : GcPhase} {a : GcAct} (hinv : c.Inv env) (hg : GcInv env c g)
    (h : GcPhase.Steps env c g a c' g') :
  Writes env c c' .gc
  := by
  cases h with
  | @relocate p r e sec stage a c' g' h =>
      have hreloc : Relocating env c p r e sec stage := hg
      cases h with
      | writeRecord =>
          obtain ⟨-, htarget, rfl⟩ := hreloc.stage
          exact ⟨rfl, .inr ⟨_, _, Core.writeRec_step (r := { r with timestamp := _ })
            htarget.owned htarget.mdOk rfl (hreloc.shape hinv htarget.owned _)⟩⟩
      | writeFails kill =>
          obtain ⟨-, htarget, rfl⟩ := hreloc.stage
          exact ⟨rfl, .inr ⟨_, _, Core.tearRecs_step htarget.owned htarget.mdOk kill⟩⟩
      | allocate ha => exact .allocate ha
      | call => exact .call _
      | _ => exact .none rfl rfl
  | _ => exact .none rfl rfl

/-- The one step of no actor that changes the device is the write of `persist_seg_md`. -/
theorem Core.EnvSteps.segMd
    {a : Act} (h : c.EnvSteps env.geo a c') :
  c'.recs = c.recs ∧ (c'.segMd = c.segMd
    ∨ ∃ seg res stream ts, c.phase seg = .stamping stream ts .counted
      ∧ c'.segMd = Function.update c.segMd seg (WriteResult.segMd stream ts (c.segMd seg) res))
  := by
  cases h with
  | turn hturn =>
      cases hturn with
      | write res hph => exact ⟨rfl, .inr ⟨_, res, _, _, hph, rfl⟩⟩
      | _ => exact ⟨rfl, .inl rfl⟩
  | _ => exact ⟨rfl, .inl rfl⟩

end

/-! ### Every step -/

section

variable {env : StoreEnv} {s s' : State} {a : Act}

/-- A step writes metadata, or it is one of an actor or leaves the device as it is. -/
theorem State.Inv.writes
    (h : s.Inv env) (hs : s.step env a = some s') :
  (∃ b, Writes env s.core s'.core b)
    ∨ s'.core.recs = s.core.recs ∧ ∃ seg res stream ts,
      s.core.phase seg = .stamping stream ts .counted
      ∧ s'.core.segMd
        = Function.update s.core.segMd seg (WriteResult.segMd stream ts (s.core.segMd seg) res)
  := by
  obtain ⟨i, kind, key, rfl, -, -, rfl⟩ | ⟨i, b, o, c', o', rfl, ho, hstep, rfl⟩
    | ⟨b, c', g', rfl, hstep, rfl⟩ | ⟨c', hc', rfl⟩ := State.step_cases hs
  · exact .inl ⟨.gc, .none rfl rfl⟩
  · exact .inl ⟨_, (Op.steps_of_step hstep).writes h.core (h.ops ho)⟩
  · exact .inl ⟨_, (GcPhase.steps_of_step hstep).writes h.core h.gc⟩
  · obtain ⟨hrecs, hmd | hwrite⟩ := (Core.envSteps_of_envStep hc').segMd
    · exact .inl ⟨.gc, .none hmd hrecs⟩
    · exact .inr ⟨hrecs, hwrite⟩

/-- The metadata of a data segment is that from before the step, or has the count with which the
segment is stamped. -/
theorem State.Inv.segMd_of_step
    (h : s.Inv env) (hs : s.step env a = some s') {seg ts : Nat}
    (hmd : s'.core.segMd seg = some ⟨.kv, ts⟩) :
  s.core.segMd seg = some ⟨.kv, ts⟩ ∨ (s.core.phase seg).Stamps ts
  := by
  obtain ⟨b, hw⟩ | ⟨-, seg', res, stream, ts', hph, heq⟩ := h.writes hs
  · rw [hw.segMd] at hmd
    exact .inl hmd
  · rw [heq] at hmd
    by_cases hseg : seg = seg'
    · subst hseg
      rw [Function.update_self] at hmd
      cases res with
      | ok =>
          cases stream with
          | index => cases hmd
          | data | reloc =>
              cases hmd
              right
              rw [hph]
              exact ⟨by rintro ⟨⟩, rfl⟩
      | kept => exact .inl hmd
      | torn => cases hmd
    · rw [Function.update_of_ne hseg] at hmd
      exact .inl hmd

/-- A committed record stays where it is as long as the metadata of its segment does. -/
theorem State.Inv.record_kept
    (h : s.Inv env) (hs : s.step env a = some s') {y : Commit} (hy : y ∈ s.core.committed)
    {r : Rec} (hr : s.core.recs y.pba = some r) (hts : r.timestamp = y.timestamp)
    (hmd : s.core.segMd (env.geo.segOf y.pba) = some ⟨.kv, y.timestamp⟩) :
  s'.core.recs y.pba = some r
  := by
  have hstep : s'.core.recs = s.core.recs
      ∨ ∃ b p len, WriteStep env s.core b p len s'.core.recs := by
    obtain ⟨b, hw⟩ | ⟨heq, -⟩ := h.writes hs
    · exact hw.recs.imp_right fun ⟨p, len, hw⟩ => ⟨b, p, len, hw⟩
    · exact .inl heq
  obtain heq | ⟨b, p, len, hw⟩ := hstep
  · rw [heq]
    exact hr
  · by_cases hseg : env.geo.segOf y.pba = env.geo.segOf p
    · -- the segment is that of the range, so the record is of its present life
      have hranged := h.core.ranges.ranged hw.owned
      have hok := hw.mdOk
      rw [← hseg] at hranged hok
      have hmd' := ((h.core.segs.phase _).ranged hranged hok).1
      have hsegTs : s.core.segTimestamps (env.geo.segOf y.pba) = y.timestamp := by
        simpa using hmd'.symm.trans hmd
      obtain ⟨rg, hrg, hne⟩ := h.core.commits.range hy hranged hok hsegTs
      apply hw.kept_of_range h.core hr (h.core.life hr hranged hok (hsegTs.trans hts.symm))
      rintro rfl
      have howned := hw.owned
      rw [Owned, hrg] at howned
      cases howned
      exact hne _ rfl
    · apply hw.kept hr
      · rintro rfl
        exact hseg rfl
      · exact (h.core.recs.shape hr).apart (h.core.ranges.fits hw.owned) hseg

/-- The metadata of a segment is that of one of the device's. -/
def Core.MdInside (geo : Geometry) (c : Core) : Prop :=
  ∀ seg md, c.segMd seg = some md → seg < geo.numSegments

theorem Core.MdInside.step
    (h : s.core.MdInside env.geo) (hinv : s.Inv env) (hin : s.core.Inside env.geo)
    (hs : s.step env a = some s') :
  s'.core.MdInside env.geo
  := by
  intro seg md hmd
  obtain ⟨b, hw⟩ | ⟨-, seg', res, stream, ts, hph, heq⟩ := hinv.writes hs
  · rw [hw.segMd] at hmd
    exact h seg md hmd
  · by_cases hseg : seg = seg'
    · subst hseg
      apply hin
      rw [hph]
      rintro ⟨⟩
    · rw [heq, Function.update_of_ne hseg] at hmd
      exact h seg md hmd

end

end UDepot
