import UDepot.Store.Collector
import UDepot.Store.Inversion

/-!
# Steps of the garbage collector

Each step of a pass keeps the invariants: the scan for older segments, the walk over the victim,
the copy of a record with the stripes of its key locked, and the grace period at the end.
-/

namespace UDepot

section

variable {env : StoreEnv} {c c' : Core} {g' : GcPhase} (h : c.Inv env)

include h

/-- The collector moves its victim. -/
theorem Core.Inv.moveVictim
    {v : Nat} {ph : SegPhase} (hr : (c.phase v).ranged = true) (hm : Moves env.geo c v ph)
    (lock : Option Nat) :
  Frame env c (c.setPhase v ph) lock (some .gc)
  := by
  apply (h.moveSegment hr hm).frame h lock
  intro hne
  exact absurd rfl hne

/-- A step that leaves the store alone. -/
theorem Core.Inv.gcStays {g : GcPhase} (hg : GcInv env c g') : GcStep env c c g g' :=
  ⟨fun lock => h.refl lock _, hg, .inl .refl⟩

/-! ### The walk -/

section

variable {p : GcPass} {r : Rec} (hw : Walking env c p)
    (hlt : p.grain < GcPhase.endGrain env p) (hr : GcPhase.recordHere env p = some r)

include hw hlt hr

/-- The walk goes past a record that no entry is for. -/
theorem Walking.skip
    (hnone : ∀ {x}, x ∈ c.curSnap.items → x.2.pba ≠ p.grain) :
  Walking env c { p with grain := p.grain + r.grains }
  where
  victim := hw.victim
  timestamp := hw.timestamp
  buf := hw.buf
  base := Nat.le_trans hw.base (Nat.le_add_right _ _)
  rest := fun hx hseg => hw.past h hlt hr hx hseg (hnone hx)

/-- The directory's entry at the record's address. -/
theorem Walking.entryAt
    {e : HashEntry} (he : (c.curSnap.tableForHash (env.hashKey r.key)).entryAt
      (env.hashKey r.key) p.grain = some e) :
  Here env c p r e.val
  := by
  have hwf := h.dir.wf
  obtain ⟨hmem, htag, hpba⟩ := (hwf.tableForHash _).entryAt_eq_some he
  rw [hwf.hashToBucket] at hmem
  rw [hwf.tagOf] at htag
  have hmem' := (hwf.mem_items_iff htag).mpr hmem
  have hitem := hw.entry_eq h hlt hr hmem' hpba
  constructor
  · rw [← hitem]
    apply hmem'
  · rw [← hitem]

theorem Walking.entryAt_none
    (he : (c.curSnap.tableForHash (env.hashKey r.key)).entryAt (env.hashKey r.key) p.grain = none)
    {x : Nat × EntryInfo} (hx : x ∈ c.curSnap.items) :
  x.2.pba ≠ p.grain
  := by
  intro hp
  have hwf := h.dir.wf
  obtain ⟨hrec, -⟩ := hw.record hlt hr
  rw [← hp] at hrec
  obtain ⟨hbucket, htag, -⟩ := h.item_eq hx hrec
  have hmem : (c.curSnap.bucketOf (env.hashKey r.key), x.2) ∈ c.curSnap.items := by
    rw [← hbucket]
    apply hx
  rw [hwf.mem_items_iff htag, ← hwf.hashToBucket] at hmem
  apply (hwf.tableForHash _).entryAt_eq_none he hmem (htag.trans (hwf.tagOf _).symm) hp

/-- The collector drops a tombstone. -/
theorem Walking.drop
    {e : EntryInfo} {snap : DirSnapshot} (hh : Here env c p r e) (hdel : e.deleted = true)
    (hdrop : p.dropTombstones = true)
    (hsnap : c.curSnap.removeLocked (env.hashKey r.key) p.grain = some snap)
    (hc' : c' = { ((c.enter .gc).1.setCur snap).give p.grain (.remover .gc) with
      dropped := ⟨r.key, r.timestamp, p.grain⟩ :: c.dropped }) :
  (∀ lock, Frame env c c' lock (some .gc)) ∧ Drops env c c' p r
    ∧ Relocating env c' p r e (c.enter .gc).2 (.calls [.invalidate p.grain r.grains] .advance)
  := by
  obtain ⟨hrec, -⟩ := hw.record hlt hr
  obtain ⟨hwf, htables, hbits, -, -, y, -, hpba, hitems⟩ := h.dir.wf.removeLocked hsnap
  have hy := hw.entry_eq h hlt hr (by rw [hitems]; apply Multiset.mem_cons_self) hpba
  rw [hy] at hitems
  have hcur : c'.curSnap = snap := by
    rw [hc']
    simp [Core.curSnap, Core.give, Core.mapRange, Core.setCur, Core.enter]
  have hframe : ∀ lock, Frame env c c' lock (some .gc) := by
    intro lock
    have hf₁ := h.enter .gc lock (some .gc)
    have hf₂ := hf₁.inv.removeEntry lock (a := .gc) (x := env.item r p.grain) hwf hbits
      htables hitems (fun hne => absurd rfl hne)
    have hf₃ := hf₁.trans hf₂ id (List.subset_cons_self _ _)
    rw [hc']
    exact hf₃.trans (hf₂.inv.setSections lock (fun _ hs _ => hs) hf₂.inv.grow) id
      (List.subset_cons_self _ _)
  have hpbas := h.dir.pbas
  rw [hitems, Multiset.map_cons, Multiset.nodup_cons] at hpbas
  have hmem : ∀ {x}, x ∈ snap.items → x ∈ c.curSnap.items := by
    intro x hx
    rw [hitems]
    apply Multiset.mem_cons_of_mem hx
  have hdrops : Drops env c c' p r := by
    refine ⟨by rw [hcur, hitems], hrec, ?_, hw, hw.segOf_grain hlt, hdrop, ?_, ?_, ?_, ?_⟩
    · rw [← (h.recs.shape hrec).deleted_iff p.grain, ← hh.entry]
      apply hdel
    all_goals rw [hc']
    all_goals rfl
  refine ⟨hframe, hdrops, ?_⟩
  have hwalk : Walking env c' p := by
    constructor
    · rw [hdrops.segs]
      apply hw.victim
    · rw [hdrops.segs]
      apply hw.timestamp
    · rw [hdrops.recs]
      exact hw.buf
    · apply hw.base
    · rw [hcur]
      intro x hx
      apply hw.rest (hmem hx)
  refine ⟨hwalk, ?_, rfl, hlt, hr, ?_, ?_⟩
  · rw [hc']
    apply List.mem_cons_self
  · obtain ⟨r', hr'⟩ := h.dir.pointed hh.mem
    cases hrec.symm.trans hr'.current.record
    obtain ⟨rg, hrg, hlen⟩ := hr'.current.range
    refine ⟨?_, ?_, List.nodup_singleton _, List.nodup_nil⟩
    · intro q len hq
      simp only [List.mem_singleton, Call.invalidate.injEq] at hq
      obtain ⟨rfl, rfl⟩ := hq
      refine ⟨⟨{ rg with holder := .remover .gc }, ?_, hlen, .inr rfl⟩, ?_⟩
      · rw [hc']
        apply Core.Inv.give_self _ hrg
      · rw [hdrops.segs]
        apply SegPhase.keeps_of_inUse _ hr'.inUse
    · intro q len hq
      simp at hq
  · rw [hcur]
    intro x hx hseg
    apply hw.past h hlt hr (hmem hx) hseg
    intro hp
    exact hpbas.1 (Multiset.mem_map.mpr ⟨x, hx, hp⟩)

/-- The directory has the entry that is to be removed. -/
theorem Walking.exists_removeLocked {e : EntryInfo} (hh : Here env c p r e) :
    ∃ snap, c.curSnap.removeLocked (env.hashKey r.key) p.grain = some snap := by
  obtain ⟨hrec, -⟩ := hw.record hlt hr
  obtain ⟨hbucket, htag, -⟩ := h.item_eq hh.mem hrec
  have hmem := hh.mem
  rw [← Prod.eta (env.item r p.grain), hbucket] at hmem
  exact h.dir.wf.exists_removeLocked hmem htag rfl

end

/-- The walk goes past a grain at which no record begins. -/
theorem Walking.skipGrain
    {p : GcPass} (hw : Walking env c p) (hr : GcPhase.recordHere env p = none) :
  Walking env c { p with grain := p.grain + 1 }
  := by
  refine ⟨hw.victim, hw.timestamp, hw.buf, Nat.le_succ_of_le hw.base, ?_⟩
  intro x hx hseg
  apply Nat.succ_le_of_lt
  apply Nat.lt_of_le_of_ne (hw.rest hx hseg)
  intro hp
  obtain ⟨r, hr'⟩ := Walking.recordHere_of_entry h hw hx hseg hp.symm
  rw [hr] at hr'
  cases hr'

/-! ### Relocating a record -/

section

variable {p : GcPass} {r : Rec} {e : EntryInfo} {sec : ReadSection} {stage : GcStage}
    (hg : Relocating env c p r e sec stage)

include hg

omit h in
/-- The victim is left alone, and the collector goes on with another stage. -/
theorem Relocating.goto
    {stage' : GcStage} (hk : VictimKept env c c' none) (hs : sec ∈ c'.sections)
    (hst : stage'.Ok env c' p r e sec) :
  Relocating env c' p r e sec stage'
  := ⟨hg.toWalking.of_victimKept hk, hs, hg.actor, hg.inside, hg.record, hst⟩

/-- Nothing happens but that the collector goes on with another stage. -/
theorem Relocating.stay {stage' : GcStage} (hst : stage'.Ok env c p r e sec) :
    GcStep env c c (.relocate p r e sec stage) (.relocate p r e sec stage') :=
  ⟨fun lock => h.refl lock _, hg.goto (.of_same rfl rfl rfl) hg.active hst, .inl .refl⟩

/-- The collector gives back the range it was to copy the record to. -/
theorem Relocating.dropDst
    {dst : Nat} {more : List Call} {next : GcNext} (ho : Owned c .gc dst r.grains)
    (hmore : ∀ x ∈ more, ∃ stream, x = Call.drain stream) (hh : Here env c p r e)
    (hnext : next ≠ .advance) :
  (GcPhase.dropDst r dst more next).Ok env c p r e sec
  := by
  rw [← hg.actor] at ho
  use CallsOk.giveBack h ho hmore
  cases next with
  | advance => contradiction
  | fail | retry => apply hh

omit h in
/-- The record under the walk fits wherever the range for it does. -/
theorem Relocating.shape
    (h : c.Inv env) {dst : Nat} (ho : Owned c .gc dst r.grains) (ts : Nat) :
  Rec.Shape env.geo { r with timestamp := ts } dst
  := by
  obtain ⟨hrec, -⟩ := hg.toWalking.record hg.inside hg.record
  have hshape := h.recs.shape hrec
  exact ⟨hshape.key, hshape.grains, hshape.small, h.ranges.fits ho⟩

theorem Relocating.allocate
    {attempt seg dst : Nat} (hstage : stage = .alloc attempt)
    (hs : c.allocate env.geo .gc .reloc seg r.grains = some (c', dst)) :
  GcStep env c c' (.relocate p r e sec stage) (.relocate p r e sec (.compare attempt dst))
  := by
  subst hstage
  have ha := Core.allocate_spec hs
  have hk : ∀ lock, VictimKept env c c' lock := fun lock => (ha.frame h lock none).victim (by simp)
  refine ⟨fun lock => ha.frame h lock _, ?_, .inl ?_⟩
  · refine hg.goto (hk none) ?_ ⟨Here.of_victimKept hg.stage (hk _), ha.owned⟩
    rw [ha.after]
    apply hg.active
  · rw [ha.after]
    exact ⟨rfl, rfl, rfl⟩

theorem Relocating.writeRecord
    {dst ts : Nat} (hstage : stage = .write dst ts) :
  GcStep env c (c.writeRec dst { r with timestamp := ts }) (.relocate p r e sec stage)
    (.relocate p r e sec (.repoint dst))
  := by
  subst hstage
  obtain ⟨hh, htarget, rfl⟩ := hg.stage
  have hstep := Core.writeRec_step
    (r := { r with timestamp := c.segTimestamps (env.geo.segOf dst) }) htarget.owned htarget.mdOk
    rfl (hg.shape h htarget.owned _)
  refine ⟨fun lock => hstep.frame h lock, ?_, .inl ⟨rfl, rfl, rfl⟩⟩
  refine hg.goto (hstep.victimKept h none) hg.active ⟨hh.of_victimKept (hstep.victimKept h _),
    ?_, ?_⟩
  · exact ⟨htarget.owned, htarget.mdOk, htarget.later⟩
  · simp [Core.writeRec]

theorem Relocating.writeFails
    {dst ts : Nat} (hstage : stage = .write dst ts) (kill : List Nat) :
  GcStep env c (c.tearRecs dst r.grains kill) (.relocate p r e sec stage)
    (.relocate p r e sec (GcPhase.dropDst r dst [] .fail))
  := by
  subst hstage
  obtain ⟨hh, htarget, rfl⟩ := hg.stage
  have hstep := Core.tearRecs_step htarget.owned htarget.mdOk kill
  refine ⟨fun lock => hstep.frame h lock, ?_, .inl ⟨rfl, rfl, rfl⟩⟩
  have hh' := hh.of_victimKept (hstep.victimKept h _)
  have hgone : Relocating env (c.tearRecs dst r.grains kill) p r e sec (.calls [] .fail) :=
    hg.goto (hstep.victimKept h none) hg.active ⟨.nil, hh'⟩
  refine hgone.goto (.of_same rfl rfl rfl) hgone.active ?_
  apply hgone.dropDst (hstep.frame h none).inv htarget.owned _ hh' (by simp)
  intro x hx
  cases hx

/-- The entry of the record is replaced by one for its copy. -/
theorem Relocating.repoint
    {dst : Nat} (hstage : stage = .repoint dst)
    (hs : ((((c.setCur ((c.curSnap.updateLocked (env.hashKey r.key) p.grain e.kvSize dst).getD
      c.curSnap)).give p.grain (.remover .gc)).give dst .entry).recordCommit env.geo r.key dst)
      = c') :
  GcStep env c c' (.relocate p r e sec stage) (.relocate p r e sec
    (.calls [.release dst r.grains, .invalidate p.grain r.grains] .advance))
  := by
  subst hstage
  obtain ⟨hh, htarget, hcopy⟩ := hg.stage
  obtain ⟨hrec, hts⟩ := hg.toWalking.record hg.inside hg.record
  have hentry : c.EntryOf env r.key e r := by
    refine ⟨?_, ?_, rfl⟩
    · rw [hh.entry, DirSnapshot.bucketOf, h.dir.bits]
      apply hh.mem
    · rw [hh.entry]
      apply hrec
  have hpba : e.pba = p.grain := by
    rw [hh.entry]
    rfl
  have hsize : e.kvSize = r.kvSize := by
    rw [hh.entry]
    rfl
  have hnewer : newerThan env.geo c.segTimestamps dst e.pba = true := by
    have hlater := htarget.later
    rw [← hts] at hlater
    have hne : env.geo.segOf p.grain ≠ env.geo.segOf dst := by
      intro heq
      rw [heq] at hlater
      exact Nat.lt_irrefl _ hlater
    simp only [newerThan, hpba]
    rw [if_pos hne, decide_eq_true_eq]
    apply hlater
  have ho : Owned c sec.2 dst r.grains := hg.actor ▸ htarget.owned
  have hcommit : ∀ lock, _ := fun lock => h.commitReplace lock (s := sec)
    (r := { r with timestamp := c.segTimestamps (env.geo.segOf dst) }) hentry hnewer ho hcopy rfl
    htarget.mdOk (fun hne => absurd hg.actor hne)
  have hafter : ∀ lock, Frame env c c' lock (some .gc) ∧ Commits env .gc c c' dst
      { r with timestamp := c.segTimestamps (env.geo.segOf dst) } (some (e, r))
      ∧ ToInvalidate env c' sec p.grain r.grains ∧ Unreleased c' .gc dst r.grains := by
    intro lock
    obtain ⟨snap, hsnap, hafter⟩ := hcommit lock
    rw [hsize, ← hpba] at hs
    simp only [Rec.kvSize] at hsnap hs
    rw [hsnap, Option.getD_some] at hs
    rw [hg.actor] at hafter
    rw [← hpba]
    apply hafter hs.symm
  obtain ⟨hf, hc, hinv, hrel⟩ := hafter none
  have hvictim := hg.toWalking.segOf_grain hg.inside
  have hrest : ∀ {x}, x ∈ c'.curSnap.items → env.geo.segOf x.2.pba = p.victim →
      p.grain + r.grains ≤ x.2.pba := by
    intro x hx hseg
    obtain rfl | ⟨hx, hne⟩ := (hc.mem_items h).mp hx
    · have hw := h.ranges.unreleased htarget.owned rfl
      rw [show env.geo.segOf dst = p.victim from hseg, hg.victim] at hw
      cases hw
    · apply hg.toWalking.past h hg.inside hg.record hx hseg
      rw [← hpba]
      apply hne e r rfl
  refine ⟨fun lock => (hafter lock).1, ⟨?_, ?_, hg.actor, hg.inside, hg.record, ?_, hrest⟩,
    .inr (.inl ⟨p, r, e, sec, dst, rfl, hc⟩)⟩
  · constructor
    · rw [hc.segs]
      apply hg.victim
    · rw [hc.segs]
      apply hg.timestamp
    · rw [hc.recs]
      exact hg.buf
    · apply hg.base
    · intro x hx hseg
      apply Nat.le_of_add_right_le (hrest hx hseg)
  · rw [← hs]
    apply hg.active
  · constructor
    · intro q len hq
      simp only [List.mem_cons, Call.invalidate.injEq, reduceCtorEq, List.not_mem_nil, or_false,
        false_or] at hq
      obtain ⟨rfl, rfl⟩ := hq
      apply hinv
    · intro q len hq
      simp only [List.mem_cons, Call.release.injEq, reduceCtorEq, List.not_mem_nil, or_false] at hq
      obtain ⟨rfl, rfl⟩ := hq
      rw [hg.actor]
      apply hrel
    · simp [List.filterMap_cons, Call.invalidated]
    · simp [List.filterMap_cons, Call.released]

omit hg in
/-- A call leaves the victim alone. -/
theorem Core.Inv.call_victimKept (x : Call) (lock : Option Nat) :
    VictimKept env c (c.call x) lock := by
  cases x with
  | invalidate | release => exact .of_same rfl rfl rfl
  | drain =>
      apply Frame.victim (h.closeWhere _ lock none)
      simp

theorem Relocating.call
    {x : Call} {todo : List Call} {next : GcNext} (hstage : stage = .calls (x :: todo) next) :
  GcStep env c (c.call x) (.relocate p r e sec stage) (.relocate p r e sec (.calls todo next))
  := by
  subst hstage
  obtain ⟨hcalls, hnext⟩ := hg.stage
  have hf := fun lock => (hcalls.step h hg.active lock).1
  rw [hg.actor] at hf
  have hk := h.call_victimKept x
  refine ⟨hf, hg.goto (hk none) ?_ ⟨(hcalls.step h hg.active none).2, ?_⟩, .inl ?_⟩
  · cases x <;> exact hg.active
  · cases next with
    | advance =>
        intro x hx hseg
        apply hnext ((hk none).items x hx (by rw [hseg]; apply hg.victim)) hseg
    | fail | retry => exact Here.of_victimKept hnext (hk _)
  · cases x <;> exact ⟨rfl, rfl, rfl⟩

/-- The pass ends early: the victim goes back. -/
theorem Relocating.fail :
    GcStep env c ((c.leave sec).setPhase p.victim .closed) (.relocate p r e sec stage) .idle := by
  refine ⟨?_, trivial, .inl ⟨rfl, rfl, rfl⟩⟩
  intro lock
  have hback := h.moveVictim (by rw [hg.victim]; rfl) (Moves.back hg.victim) lock
  have hout := hback.inv.leave sec lock
  rw [hg.actor] at hout
  refine hback.trans hout ?_ (List.Subset.refl _)
  intro seg huse
  by_cases hseg : seg = p.victim
  · simp only [hseg, Core.setPhase, Function.update_self]
    rfl
  · simp only [Core.setPhase, Function.update_of_ne hseg]
    apply huse

/-- A step of the collector with the stripes of a record's key locked. -/
theorem Relocating.step
    {a : GcAct} (hs : GcPhase.Relocates env c p r e sec stage a c' g') :
  GcStep env c c' (.relocate p r e sec stage) g'
  := by
  have hstage := hg.stage
  have hdrop : ∀ {dst more next}, Owned c .gc dst r.grains → Here env c p r e →
      (∀ x ∈ more, ∃ stream, x = Call.drain stream) → next ≠ .advance →
      GcStep env c c (.relocate p r e sec stage)
        (.relocate p r e sec (GcPhase.dropDst r dst more next)) :=
    fun ho hh hmore hnext => hg.stay h (hg.dropDst h ho hmore hh hnext)
  cases hs with
  | allocate ha => exact hg.allocate h rfl ha
  | allocFails => exact hg.stay h ⟨.nil, hstage⟩
  | later hlt => exact hg.stay h ⟨hstage.1, hstage.2, hlt⟩
  | stale _ => exact hdrop hstage.2 hstage.1 (by simp) (by simp)
  | again _ _ => exact hdrop hstage.2 hstage.1 (by simp) (by simp)
  | mdOk hok => exact hg.stay h ⟨hstage.1, hstage.2.1, hok, hstage.2.2⟩
  | mdBad _ => exact hdrop hstage.2.1 hstage.1 (by simp) (by simp)
  | bufferFails => exact hdrop hstage.2.owned hstage.1 (by simp) (by simp)
  | loadTimestamp => exact hg.stay h ⟨hstage.1, hstage.2, rfl⟩
  | writeRecord => exact hg.writeRecord h rfl
  | writeFails kill => exact hg.writeFails h rfl kill
  | repoint => exact hg.repoint h rfl rfl
  | call => exact hg.call h rfl
  | advance =>
      refine ⟨?_, ?_, .inl ⟨rfl, rfl, rfl⟩⟩
      · rw [← hg.actor]
        apply h.leave sec
      · exact ⟨hg.victim, hg.timestamp, hg.buf, Nat.le_trans hg.base (Nat.le_add_right _ _),
          hstage.2⟩
  | fail => exact hg.fail h
  | retry => exact hg.stay h hstage.2

end

/-! ### Every step -/

/-- Every step of the collector keeps the invariants. -/
theorem GcInv.step
    {g : GcPhase} {a : GcAct} (hg : GcInv env c g) (hs : g.step env c a = some (c', g')) :
  GcStep env c c' g g'
  := by
  cases GcPhase.steps_of_step hs with
  | pick hclosed hall =>
      refine ⟨h.moveVictim (by rw [hclosed]; rfl) ?_, ⟨Function.update_self _ _ _, rfl⟩,
        .inl ⟨rfl, rfl, rfl⟩⟩
      exact .pick hclosed fun hp hrg => Core.Inv.allRanges_spec hall hp hrg
  | scanLive | scanSkip | scanTimestamp => exact h.gcStays hg
  | read =>
      refine h.gcStays ⟨hg.1, hg.2, fun _ => rfl, Nat.le_refl _, ?_⟩
      intro x _ hseg
      obtain ⟨k, -, hplace⟩ := env.geo.exists_place x.2.pba
      simp only at hseg ⊢
      rw [hseg] at hplace
      omega
  | readFails =>
      exact ⟨h.moveVictim (by rw [hg.1]; rfl) (Moves.back hg.1), trivial, .inl ⟨rfl, rfl, rfl⟩⟩
  | walkEnd hend =>
      refine ⟨h.moveVictim (by rw [hg.victim]; rfl) ?_, ⟨_, Function.update_self _ _ _⟩,
        .inl ⟨rfl, rfl, rfl⟩⟩
      exact .sync hg.victim fun _ hx => Walking.none_left h hg hend hx
  | walkSkip _ hnone => exact h.gcStays (Walking.skipGrain h hg hnone)
  | walkPass hin hr _ he =>
      exact h.gcStays (Walking.skip h hg hin hr fun hx => Walking.entryAt_none h hg hin hr he hx)
  | @drop p r e hin hr _ he hdrop =>
      rw [Bool.and_eq_true] at hdrop
      have hh := Walking.entryAt h hg hin hr he
      obtain ⟨snap, hsnap⟩ := Walking.exists_removeLocked h hg hin hr hh
      rw [hsnap, Option.getD_some]
      obtain ⟨hf, hdrops, hrel⟩ := Walking.drop h hg hin hr hh hdrop.1 hdrop.2 hsnap rfl
      exact ⟨hf, hrel, .inr (.inr ⟨p, r, rfl, hdrops⟩)⟩
  | lock hin hr _ he _ =>
      have hh := Walking.entryAt h hg hin hr he
      have hk : ∀ lock, VictimKept env c (c.enter .gc).1 lock := fun _ => .of_same rfl rfl rfl
      exact ⟨fun lock => h.enter .gc lock _, ⟨Walking.of_victimKept hg (hk none),
        List.mem_cons_self, rfl, hin, hr, hh.of_victimKept (hk _)⟩, .inl ⟨rfl, rfl, rfl⟩⟩
  | relocate hs => exact Relocating.step h hg hs
  | synced hv hend =>
      refine ⟨fun lock => ?_, trivial, .inl ⟨rfl, rfl, rfl⟩⟩
      exact h.freeSegment (.inr hv) hend lock fun hne => absurd rfl hne

end

end UDepot
