import UDepot.Store.Operation

/-!
# Writing and probing

The steps of an operation up to its commit: it is handed a range, writes its record with the
timestamp of the range's segment, and looks up the entries of its key's hash, reading the record
of each.
-/

namespace UDepot

/-! ### Entries of a record -/

section

variable {env : StoreEnv} {r : Rec} {p : Nat} (hs : r.Shape env.geo p)

include hs

theorem Rec.Shape.grains_pos : 0 < r.grains := by
  rw [hs.grains]
  apply env.geo.kvTotalGrains_pos

/-- The entry of a record is a deleted one exactly for a tombstone. -/
theorem Rec.Shape.deleted_iff (q : Nat) :
    (env.item r q).2.deleted = true ↔ r.value = none := by
  have hpos := hs.grains_pos
  simp only [StoreEnv.item, EntryInfo.deleted, Rec.kvSize, beq_iff_eq]
  cases r.value with
  | none => simp
  | some v =>
      simp only [Option.isSome_some, if_true, reduceCtorEq, iff_false]
      omega

/-- The grains of an entry's record, for an operation on its key. -/
theorem Rec.Shape.entryGrains {o : Op} {q : Nat} (hkey : r.key = o.key) :
    o.entryGrains env (env.item r q).2 = r.grains := by
  rw [Op.entryGrains]
  cases hv : r.value with
  | none =>
      rw [if_pos ((hs.deleted_iff q).mpr hv), hs.grains, hv, hkey]
      rfl
  | some v =>
      rw [if_neg]
      · simp only [StoreEnv.item, Rec.kvSize, hv, Option.isSome_some, if_true]
      · rw [hs.deleted_iff q, hv]
        simp

end

section

variable {env : StoreEnv} {c c' : Core} {lock : Option Nat} {i : Nat} {o : Op}
    (h : c.Inv env) (ho : OpInv env c i o)

include ho

/-- An operation goes on in its read section, with nothing changed. -/
theorem OpInv.goOn
    {phase : OpPhase} (hactive : o.phase.active = true) (hold : o.phase.writes = false)
    (hwrites : phase.writes = true →
      o.own = none ∧ o.grains env ≤ kKvSizeMask ∧ o.kind ≠ .get)
    (hphase : o.PhaseOk env c phase) (hidle : phase.active = true) :
  OpInv env c i { o with phase }
  where
  admitted := ho.admitted
  sec := ho.sec
  loaded := ho.loaded
  seen := ho.seen
  own := ho.own
  active := fun _ => ho.active hactive
  idle := fun ha => absurd (hidle.symm.trans ha) (by simp)
  small := fun hw => (hwrites hw).2
  written := fun _ _ hp => ho.written hold hp
  phaseOk := by cases phase <;> exact hphase

include h

/-! ### Allocation -/

theorem OpInv.allocate
    {seg pba : Nat} (hph : o.phase = .alloc)
    (ha : Allocates env c c' (.op i) .data seg (o.grains env) pba) :
  Frame env c c' lock (some (.op i))
    ∧ (c.segMdOk seg = true → OpInv env c' i { o with own := some pba, phase := .stamp })
    ∧ OpInv env c' i ({ o with own := some pba }.giveBack env [] (.ret .eio))
  := by
  have hactive : o.phase.active = true := by
    rw [hph]
    rfl
  have hsec := ho.active hactive
  have hf := ha.frame h lock none
  have hv := ho.toOpView.of_frame hf hsec
  have hsec' : o.sec ∈ c'.sections := (hf.tokens (.op i) (by simp)).sections o.sec hsec ho.sec
  use ha.frame h lock (some (.op i))
  constructor
  · intro hok
    have hsmall := ho.small (by rw [hph]; rfl)
    constructor
    · exact ⟨hv.admitted, hv.sec, hv.loaded, hv.seen⟩
    · intro p hp
      cases hp
      refine ⟨ha.owned, ?_, hsmall⟩
      rw [ha.segOf_pos h, ha.after]
      apply hok
    · intro _
      apply hsec'
    · intro hidle
      cases hidle
    · intro _
      apply hsmall
    · intro hw
      cases hw
    · trivial
  · refine OpView.giveBack (o := { o with own := some pba })
      ⟨hv.admitted, hv.sec, hv.loaded, hv.seen⟩ hf.inv hsec' ?_ ?_ _
    · intro p hp
      cases hp
      apply ha.owned
    · intro x hx
      cases hx

/-! ### Writing -/

omit h in
theorem OpInv.loadTimestamp {p : Nat} (hph : o.phase = .stamp) (hp : o.own = some p) :
    OpInv env c i { o with phase := .write (c.segTimestamps (env.geo.segOf p)) } where
  admitted := ho.admitted
  sec := ho.sec
  loaded := ho.loaded
  seen := ho.seen
  own := ho.own
  active := fun _ => ho.active (by rw [hph]; rfl)
  idle := fun ha => nomatch ha
  small := fun _ => ho.small (by rw [hph]; rfl)
  written := fun hw => nomatch hw
  phaseOk := fun q hq => by
    cases hp.symm.trans hq
    rfl

/-- The record of an operation has the shape of a record. -/
theorem OpInv.shape {p : Nat} (hp : o.own = some p) (ts : Nat) :
    (o.record env ts).Shape env.geo p where
  key := by
    have hadm := ho.admitted
    simp only [admitted, Bool.and_eq_true, decide_eq_true_eq] at hadm
    apply hadm.1
  grains := by
    rw [Op.record, Op.grains, Op.value]
    cases o.kind <;> rfl
  small := (ho.own hp).2.2.1
  fits := h.ranges.fits (ho.own hp).1

theorem OpInv.writeRecord {p ts : Nat} (hph : o.phase = .write ts) (hp : o.own = some p) :
    Frame env c (c.writeRec p (o.record env ts)) lock (some (.op i))
      ∧ OpInv env (c.writeRec p (o.record env ts)) i { o with phase := .probe } := by
  obtain ⟨hown, hok, -⟩ := ho.own hp
  have hsec := ho.active (by rw [hph]; rfl)
  have hts : ts = c.segTimestamps (env.geo.segOf p) := by
    have hphase := ho.phaseOk
    rw [hph] at hphase
    apply hphase p hp
  have hf := (Core.writeRec_step (r := o.record env ts) hown hok hts
    (ho.shape h hp ts)).frame h lock
  use hf
  have hv := ho.toOpView.of_frame hf hsec
  constructor
  · exact ⟨hv.admitted, hv.sec, hv.loaded, hv.seen⟩
  · exact ho.own
  · intro _
    apply hsec
  · intro ha
    cases ha
  · intro hw
    cases hw
  · intro _ q hq
    cases hp.symm.trans hq
    simp only [Core.writeRec, if_true]
    rw [hts]
    rfl
  · trivial

theorem OpInv.writeFails
    {p ts : Nat} (hph : o.phase = .write ts) (hp : o.own = some p) (kill : List Nat) :
  Frame env c (c.tearRecs p (o.grains env) kill) lock (some (.op i))
    ∧ OpInv env (c.tearRecs p (o.grains env) kill) i (o.giveBack env [] (.ret .eio))
  := by
  obtain ⟨hown, hok, -⟩ := ho.own hp
  have hsec := ho.active (by rw [hph]; rfl)
  have hf := (Core.tearRecs_step hown hok kill).frame h lock
  use hf
  apply (ho.toOpView.of_frame hf hsec).giveBack hf.inv hsec
  · intro q hq
    apply (ho.own hq).1
  · intro x hx
    cases hx

/-! ### Probing -/

omit h in
/-- The record of an entry found in a snapshot the operation loaded. -/
theorem OpInv.loads
    {gen d : Nat} {e : HashEntry} {incl : Bool} (hph : o.phase = .look gen)
    (he : ((c.snaps gen).tableForHash (env.hashKey o.key)).matchAt (env.hashKey o.key) d incl
      = some e) :
  ∃ r, Loaded env c o.sec e.val.pba r ∧ e.val = (env.item r e.val.pba).2
  := by
  have hsnap := ho.phaseOk
  rw [hph] at hsnap
  obtain ⟨hmem, htag⟩ := (hsnap.wf.tableForHash _).mem_items_of_matchAt he
  rw [hsnap.wf.tagOf] at htag
  obtain ⟨r, hr, hitem⟩ := hsnap.loaded ((hsnap.wf.mem_items_iff htag).mpr hmem)
  exact ⟨r, hr, congrArg Prod.snd hitem⟩

omit h in
/-- An entry found in a snapshot the operation loaded. -/
theorem OpInv.found
    {gen d : Nat} {e : HashEntry} {incl : Bool} (hph : o.phase = .look gen)
    (he : ((c.snaps gen).tableForHash (env.hashKey o.key)).matchAt (env.hashKey o.key) d incl
      = some e) :
  OpInv env c i (o.found c e.val)
  := by
  have hsec := ho.active (by rw [hph]; rfl)
  obtain ⟨r, hr, hentry⟩ := ho.loads hph he
  have hrec := hr.current.record
  simp only [Op.found, hrec, Option.elim_some]
  constructor
  · refine ⟨ho.admitted, ho.sec, ?_, ?_⟩
    · intro p r' hl
      obtain hl | hl := List.mem_cons.mp hl
      · cases hl
        apply hr
      · apply ho.loaded hl
    · intro s hs
      obtain ⟨r', hr', hmatch⟩ := ho.seen hs
      exact ⟨r', List.mem_cons_of_mem _ hr', hmatch⟩
  · exact ho.own
  · intro _
    apply hsec
  · intro ha
    simp only at ha
    split at ha <;> cases ha
  · intro hw
    simp only at hw
    split at hw <;> cases hw
  · intro _ p hp
    apply ho.written (by rw [hph]; rfl) hp
  · simp only
    split
    · trivial
    · exact ⟨r, List.mem_cons_self, hentry⟩

/-- The read of an entry's record tells whether it holds the key. -/
theorem OpInv.verifies_iff
    {e : EntryInfo} {r : Rec} (hr : (e.pba, r) ∈ o.loaded)
    (he : e = (env.item r e.pba).2) :
  o.verifies env c e = true ↔ r.key = o.key
  := by
  have hrec := (ho.loaded hr).current.record
  simp only [Op.verifies, hrec, Option.any_some, Bool.and_eq_true, decide_eq_true_eq,
    beq_iff_eq]
  constructor
  · intro hboth
    apply hboth.2
  · intro hkey
    refine ⟨?_, hkey⟩
    have hshape := h.recs.shape hrec
    rw [he, hshape.entryGrains hkey, hshape.grains, ← hkey]
    apply Nat.le_trans _ (env.geo.kvTotalBytes_le _ _)
    simp only [kvTotalBytes]
    omega

theorem OpInv.verifyRead {e : EntryInfo} (hph : o.phase = .verify e) :
    OpInv env c i { o with
      probe := o.probe.push ⟨e.pba, o.verifies env c e⟩
      phase := .probe } := by
  have hphase := ho.phaseOk
  rw [hph] at hphase
  obtain ⟨r, hr, he⟩ := hphase
  constructor
  · refine ⟨ho.admitted, ho.sec, ho.loaded, ?_⟩
    intro s hs
    obtain rfl | hs := KeyProbe.mem_push hs
    · exact ⟨r, hr, ho.verifies_iff h hr he⟩
    · apply ho.seen hs
  · exact ho.own
  · intro _
    apply ho.active (by rw [hph]; rfl)
  · intro ha
    cases ha
  · intro hw
    cases hw
  · intro _ p hp
    apply ho.written (by rw [hph]; rfl) hp
  · trivial

omit h in
/-- What a get read of an entry's record is the value of a record of its key. -/
theorem OpInv.getRead {e : EntryInfo} (hph : o.phase = .verify e) (hget : o.kind = .get) :
    OpInv env c i { o with phase := (o.valueRead env c e).elim .probe (.version e.pba) } := by
  have hphase := ho.phaseOk
  rw [hph] at hphase
  obtain ⟨r, hr, he⟩ := hphase
  have hactive : o.phase.active = true := by
    rw [hph]
    rfl
  have hwrites : o.phase.writes = false := by
    rw [hph]
    rfl
  cases hval : o.valueRead env c e with
  | none =>
      refine ho.goOn hactive hwrites (fun hw => ?_) trivial rfl
      cases hw
  | some v =>
      refine ho.goOn hactive hwrites (fun hw => nomatch hw) ⟨?_, r, hr, ?_⟩ rfl
      · cases hown : o.own with
        | none => rfl
        | some p => exact absurd hget (ho.own hown).2.2.2
      · rw [Op.valueRead, (ho.loaded hr).current.record] at hval
        simp only [Option.ite_none_right_eq_some, Option.filter_eq_some_iff] at hval
        exact ⟨hval.1, hval.2.1⟩

end

end UDepot
