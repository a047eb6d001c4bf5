import UDepot.Store.Frame
import UDepot.Store.Inversion

/-!
# The life of a segment

The steps that change only the segments: the stamping of a segment, the moves of a segment with
ranges, and the end of its life.  No entry points into a segment that is being stamped and no
range lies there, so stamping disturbs nobody; a move of a segment with ranges leaves its
timestamp alone and keeps it for the read sections there are.
-/

namespace UDepot

variable {env : StoreEnv} {c : Core}

/-- A step of the segments: the ones with ranges keep their arrays and move, and one that comes
to have ranges is opened with the timestamp it was stamped with. -/
structure TableStep (env : StoreEnv) (c : Core) (t : SegTable) : Prop where
  segs : t.Inv
  recs : RecordInv env.geo t c.recs
  counted : ∀ {seg ts}, c.Counted seg ts → t.Counted seg ts
  fresh : ∀ {x seg ts}, x ∈ c.committed → (t.phase seg).Stamps ts → x.timestamp ≠ ts
  stamps : ∀ {seg ts}, (t.phase seg).Stamps ts → (c.phase seg).Stamps ts ∨ c.segAllocNr < ts
  le : c.segAllocNr ≤ t.segAllocNr
  md : ∀ {p r}, c.recs p = some r → t.segMd (env.geo.segOf p) = some ⟨.kv, r.timestamp⟩ →
    c.segMd (env.geo.segOf p) = some ⟨.kv, r.timestamp⟩
  same : ∀ {seg}, (c.phase seg).ranged = true →
    t.segTimestamps seg = c.segTimestamps seg ∧ t.segMdOk seg = c.segMdOk seg
  moves : ∀ {seg}, (c.phase seg).ranged = true → Moves env.geo c seg (t.phase seg)
  opened : ∀ {seg}, (c.phase seg).ranged = false → (t.phase seg).ranged = true →
    (∃ stream, t.phase seg = .opened stream (env.geo.segBase seg))
      ∧ (t.segMdOk seg = true → (c.phase seg).Stamps (t.segTimestamps seg))

namespace TableStep

variable {t : SegTable} (hs : TableStep env c t) (h : c.Inv env)

include hs h

theorem current
    {p : Nat} {r : Rec} (hc : Current env.geo c.toSegTable c.recs c.ranges c.committed p r) :
  Current env.geo t c.recs c.ranges c.committed p r
  := by
  obtain ⟨rg, hrg, hlen⟩ := hc.range
  obtain ⟨hts, hok⟩ := hs.same (h.ranges.ranged hrg)
  exact ⟨hc.record, ⟨rg, hrg, hlen⟩, hts.trans hc.timestamp, hok.trans hc.mdOk, hc.committed⟩

theorem loaded
    {s : ReadSection} (hsec : s ∈ c.sections) {p : Nat} {r : Rec} (hl : Loaded env c s p r) :
  Loaded env { c with toSegTable := t } s p r
  := by
  use hs.current h hl.current
  obtain ⟨rg, hrg, -⟩ := hl.current.range
  apply (hs.moves (h.ranges.ranged hrg)).protects hsec hl.protects

theorem rangeInv : RangeInv env.geo t c.ranges where
  ranged := fun hrg => (hs.moves (h.ranges.ranged hrg)).ranged (h.ranges.ranged hrg)
  pos := h.ranges.pos
  fits := h.ranges.fits
  opened := fun {seg stream next} hseg => by
    cases hr : (c.phase seg).ranged with
    | true => apply h.ranges.opened ((hs.moves hr).opened hseg)
    | false =>
        obtain ⟨⟨stream', hopen⟩, -⟩ := hs.opened hr (by rw [hseg]; rfl)
        rw [hseg] at hopen
        cases hopen
        exact ⟨Nat.le_refl _, Nat.le_add_right _ _⟩
  below := fun hrg hseg => h.ranges.below hrg ((hs.moves (h.ranges.ranged hrg)).opened hseg)
  disjoint := h.ranges.disjoint
  unreleased := fun hrg hrel =>
    (hs.moves (h.ranges.ranged hrg)).writable rfl hrg hrel (h.ranges.unreleased hrg hrel)
  invalid := fun hrg hph =>
    (hs.moves (h.ranges.ranged hrg)).invalid rfl hrg hph fun _ hw => h.ranges.invalid hrg hw

theorem lifeInv : LifeInv env.geo t c.recs c.ranges := by
  intro p r hr hranged hok hts
  cases hold : (c.phase (env.geo.segOf p)).ranged with
  | true =>
      obtain ⟨hts', hok'⟩ := hs.same hold
      apply h.life hr hold (hok'.symm.trans hok) (hts'.symm.trans hts)
  | false =>
      obtain ⟨-, hnew⟩ := hs.opened hold hranged
      have hne := h.recs.fresh hr (hnew hok)
      exact absurd hts.symm hne

theorem commitInv : CommitInv env.geo t c.ranges c.committed where
  counted := fun hx => hs.counted (h.commits.counted hx)
  fresh := hs.fresh
  range := fun {x} hx hranged hok hts => by
    cases hold : (c.phase (env.geo.segOf x.pba)).ranged with
    | true =>
        obtain ⟨hts', hok'⟩ := hs.same hold
        apply h.commits.range hx hold (hok'.symm.trans hok) (hts'.symm.trans hts)
    | false =>
        obtain ⟨-, hnew⟩ := hs.opened hold hranged
        have hne := h.commits.fresh hx (hnew hok)
        exact absurd hts.symm hne

theorem dirInv : DirInv env t c.recs c.ranges c.committed c.curSnap where
  wf := h.dir.wf
  bits := h.dir.bits
  pointed := fun {x} hx => by
    obtain ⟨r, hr⟩ := h.dir.pointed hx
    obtain ⟨rg, hrg, hheld⟩ := hr.held
    use r
    exact ⟨hs.current h hr.current, hr.item,
      (hs.moves (h.ranges.ranged hrg)).inUse hx rfl hrg hheld hr.inUse, rg, hrg, hheld⟩
  pbas := h.dir.pbas
  keys := h.dir.keys

theorem inv : Core.Inv env { c with toSegTable := t } where
  segs := hs.segs
  recs := hs.recs
  ranges := hs.rangeInv h
  life := hs.lifeInv h
  commits := hs.commitInv h
  dir := hs.dirInv h
  grow := h.grow

theorem tokens (a : Actor) : Tokens env c { c with toSegTable := t } a where
  sections := fun _ hsec _ => hsec
  owned := fun ho => ho
  arrays := fun ho => hs.same (h.ranges.ranged ho)
  written := fun _ hr => hr
  unreleased := fun hu => hu
  toInvalidate := fun s hsec _ p len hi => by
    obtain ⟨rg, hrg, hlen, hheld⟩ := hi.range
    have hne : rg.holder ≠ .nobody := by
      obtain hheld | hheld := hheld <;> rw [hheld] <;> simp
    use ⟨rg, hrg, hlen, hheld⟩
    apply (hs.moves (h.ranges.ranged hrg)).keeps hsec rfl hrg hne hi.keeps

theorem ahead {ts : Nat} (ha : Ahead env { c with toSegTable := t } ts) : Ahead env c ts := by
  cases ha with
  | opened hph hok =>
      rename_i seg next stream
      cases hr : (c.phase seg).ranged with
      | true =>
          obtain ⟨hts, hok'⟩ := hs.same hr
          simp only [hts]
          exact Ahead.opened ((hs.moves hr).opened hph) (hok'.symm.trans hok)
      | false =>
          obtain ⟨-, hnew⟩ := hs.opened hr (by rw [hph]; rfl)
          exact Ahead.stamping (hnew hok)
  | unreleased hrg hrel hok =>
      obtain ⟨hts, hok'⟩ := hs.same (h.ranges.ranged hrg)
      simp only [hts]
      exact Ahead.unreleased hrg hrel (hok'.symm.trans hok)
  | stamping hst =>
      obtain hst | hlt := hs.stamps hst
      · exact Ahead.stamping hst
      · exact Ahead.later hlt
  | later hlt => exact Ahead.later (Nat.lt_of_le_of_lt hs.le hlt)

omit h in
theorem around {seg ts : Nat} (ha : Around env { c with toSegTable := t } seg ts) :
    Around env c seg ts := by
  cases ha with
  | ranged hph hok =>
      cases hr : (c.phase seg).ranged with
      | true =>
          obtain ⟨hts, hok'⟩ := hs.same hr
          simp only [hts]
          exact Around.ranged hr (hok'.symm.trans hok)
      | false =>
          obtain ⟨-, hnew⟩ := hs.opened hr hph
          exact Around.stamping (hnew hok)
  | recoverable hp hr => exact Around.recoverable hp ⟨hr.1, hs.md hr.1 hr.2⟩
  | stamping hst =>
      obtain hst | hlt := hs.stamps hst
      · exact Around.stamping hst
      · exact Around.later hlt
  | later hlt => exact Around.later (Nat.lt_of_le_of_lt hs.le hlt)

/-- A step of the segments disturbs nobody; the collector's victim must be left alone by others. -/
theorem frame
    (lock : Option Nat) {b : Option Actor}
    (hv : b ≠ some .gc → ∀ seg, c.phase seg = .victim ∨ (∃ waits, c.phase seg = .syncing waits) →
      t.phase seg = c.phase seg) :
  Frame env c { c with toSegTable := t } lock b
  where
  inv := hs.inv h
  current := fun _ hc => hs.current h hc
  ahead := hs.ahead h
  around := hs.around
  loaded := fun _ hsec _ _ hl => hs.loaded h hsec hl
  snaps := fun _ hsec _ hl =>
    ⟨hl.le, hl.wf, hl.bits, fun hx => by
      obtain ⟨r, hr, hitem⟩ := hl.loaded hx
      exact ⟨r, hs.loaded h hsec hr, hitem⟩⟩
  tokens := fun a _ => hs.tokens h a
  victim := fun hb => by
    constructor
    · intro seg hseg
      use (hv hb seg (.inl hseg)).trans hseg
      apply hs.same
      rw [hseg]
      rfl
    · intro seg waits hseg
      apply (hv hb seg (.inr ⟨waits, hseg⟩)).trans hseg
    · intro _ _
      rfl
    · intro x hx _
      apply hx
    · intro x hx _ _ _ _
      apply hx

end TableStep

/-! ### Stamping -/

/-- What a callback may do to the segment it stamps. -/
structure StampStep (env : StoreEnv) (c : Core) (seg : Nat) (t : SegTable) : Prop where
  unranged : (c.phase seg).ranged = false
  others : ∀ {j}, j ≠ seg → t.phase j = c.phase j ∧ t.segMd j = c.segMd j
    ∧ t.segTimestamps j = c.segTimestamps j ∧ t.segMdOk j = c.segMdOk j ∧ t.segLive j = c.segLive j
  le : c.segAllocNr ≤ t.segAllocNr
  counted : ∀ {j ts}, c.Counted j ts → t.Counted j ts
  phaseOk : t.PhaseOk seg (t.phase seg)
  timestamp : 0 < t.segTimestamps seg → t.Counted seg (t.segTimestamps seg)
  md : ∀ ts, t.segMd seg = some ⟨.kv, ts⟩ → t.Counted seg ts
  stamps : ∀ {ts}, (t.phase seg).Stamps ts → (c.phase seg).Stamps ts ∨ c.segAllocNr < ts
  live : ∀ {p r}, env.geo.segOf p = seg → c.recs p = some r →
    t.segMd seg = some ⟨.kv, r.timestamp⟩ → c.segMd seg = some ⟨.kv, r.timestamp⟩
      ∧ t.segLive seg = true ∧ t.segTimestamps seg = r.timestamp
  opened : (t.phase seg).ranged = true →
    (∃ stream, t.phase seg = .opened stream (env.geo.segBase seg))
      ∧ (t.segMdOk seg = true → (c.phase seg).Stamps (t.segTimestamps seg))

namespace StampStep

variable {seg : Nat} {t : SegTable} (hs : StampStep env c seg t) (h : c.Inv env)

include hs h

theorem segsInv : t.Inv where
  timestamp := fun j => by
    by_cases hj : j = seg
    · rw [hj]
      apply hs.timestamp
    · rw [(hs.others hj).2.2.1]
      intro hpos
      apply hs.counted (h.segs.timestamp j hpos)
  md := fun j => by
    by_cases hj : j = seg
    · rw [hj]
      apply hs.md
    · rw [(hs.others hj).2.1]
      intro ts hmd
      apply hs.counted (h.segs.md j ts hmd)
  phase := fun j => by
    by_cases hj : j = seg
    · rw [hj]
      apply hs.phaseOk
    · obtain ⟨hph, hmd, hts, hok, hlive⟩ := hs.others hj
      rw [hph]
      apply (h.segs.phase j).congr hs.counted hmd hts hok hlive

omit h in
/-- A timestamp not above the old count and not being stamped before is not being stamped. -/
theorem ne_of_stamps
    {j ts ts' : Nat} (hstamps : (t.phase j).Stamps ts) (hle : ts' ≤ c.segAllocNr)
    (hfresh : ∀ j, (c.phase j).Stamps ts → ts' ≠ ts) :
  ts' ≠ ts
  := by
  by_cases hj : j = seg
  · rw [hj] at hstamps
    obtain hold | hlt := hs.stamps hstamps
    · apply hfresh seg hold
    · omega
  · rw [(hs.others hj).1] at hstamps
    apply hfresh j hstamps

theorem recordInv : RecordInv env.geo t c.recs where
  shape := h.recs.shape
  le := fun hr => Nat.le_trans (h.recs.le hr) hs.le
  fresh := fun hr hstamps => hs.ne_of_stamps hstamps (h.recs.le hr) fun _ => h.recs.fresh hr
  live := fun {p r} hr hmd => by
    by_cases hp : env.geo.segOf p = seg
    · rw [hp] at hmd ⊢
      apply (hs.live hp hr hmd).2
    · obtain ⟨-, hmd', hts, -, hlive⟩ := hs.others hp
      rw [hlive, hts]
      apply h.recs.live hr (hmd'.symm.trans hmd)

theorem tableStep : TableStep env c t where
  segs := hs.segsInv h
  recs := hs.recordInv h
  counted := hs.counted
  fresh := fun hx hstamps =>
    hs.ne_of_stamps hstamps (h.commits.counted hx).le fun _ => h.commits.fresh hx
  stamps := fun {j ts} hstamps => by
    by_cases hj : j = seg
    · rw [hj] at hstamps ⊢
      apply hs.stamps hstamps
    · rw [(hs.others hj).1] at hstamps
      left
      apply hstamps
  le := hs.le
  md := fun {p r} hr hmd => by
    by_cases hp : env.geo.segOf p = seg
    · rw [hp] at hmd ⊢
      apply (hs.live hp hr hmd).1
    · rw [← (hs.others hp).2.1]
      apply hmd
  same := fun {j} hj => by
    have hne : j ≠ seg := by
      rintro rfl
      rw [hs.unranged] at hj
      cases hj
    obtain ⟨-, -, hts, hok, -⟩ := hs.others hne
    exact ⟨hts, hok⟩
  moves := fun {j} hj => by
    have hne : j ≠ seg := by
      rintro rfl
      rw [hs.unranged] at hj
      cases hj
    rw [(hs.others hne).1]
    apply Moves.same
  opened := fun {j} hj hj' => by
    have heq : j = seg := by
      by_contra hne
      rw [(hs.others hne).1, hj] at hj'
      cases hj'
    subst heq
    apply hs.opened hj'

theorem frame (lock : Option Nat) : Frame env c { c with toSegTable := t } lock none := by
  apply (hs.tableStep h).frame h lock
  intro _ j hj
  have hne : j ≠ seg := by
    rintro rfl
    have hun := hs.unranged
    obtain hj | ⟨waits, hj⟩ := hj <;> rw [hj] at hun <;> cases hun
  apply (hs.others hne).1

end StampStep

/-- A step that leaves the count alone. -/
theorem StampStep.of_count
    {seg : Nat} {t : SegTable} (hnr : t.segAllocNr = c.segAllocNr) (how : t.owner = c.owner)
    (hun : (c.phase seg).ranged = false)
    (hothers : ∀ {j}, j ≠ seg → t.phase j = c.phase j ∧ t.segMd j = c.segMd j
      ∧ t.segTimestamps j = c.segTimestamps j ∧ t.segMdOk j = c.segMdOk j
      ∧ t.segLive j = c.segLive j)
    (hphase : t.PhaseOk seg (t.phase seg))
    (hts : 0 < t.segTimestamps seg → c.Counted seg (t.segTimestamps seg))
    (hmd : ∀ ts, t.segMd seg = some ⟨.kv, ts⟩ → c.Counted seg ts)
    (hstamps : ∀ {ts}, (t.phase seg).Stamps ts → (c.phase seg).Stamps ts)
    (hlive : ∀ {p r}, env.geo.segOf p = seg → c.recs p = some r →
      t.segMd seg = some ⟨.kv, r.timestamp⟩ → c.segMd seg = some ⟨.kv, r.timestamp⟩
        ∧ t.segLive seg = true ∧ t.segTimestamps seg = r.timestamp)
    (hopened : (t.phase seg).ranged = true →
      (∃ stream, t.phase seg = .opened stream (env.geo.segBase seg))
        ∧ (t.segMdOk seg = true → (c.phase seg).Stamps (t.segTimestamps seg))) :
  StampStep env c seg t
  := by
  have hcounted : ∀ {j ts}, c.Counted j ts → t.Counted j ts := by
    intro j ts hc
    exact ⟨hc.pos, hnr ▸ hc.le, how ▸ hc.owner⟩
  exact ⟨hun, hothers, Nat.le_of_eq hnr.symm, hcounted, hphase, fun hpos => hcounted (hts hpos),
    fun ts h => hcounted (hmd ts h), fun hs => .inl (hstamps hs), hlive, hopened⟩

/-- A step of a segment's stamping that leaves the count alone. -/
theorem StampStep.stage
    {seg ts : Nat} {stream : Stream} {stage stage' : Stage} {t : SegTable}
    (hseg : c.phase seg = .stamping stream ts stage) (hnr : t.segAllocNr = c.segAllocNr)
    (how : t.owner = c.owner)
    (hph : t.phase = Function.update c.phase seg (.stamping stream ts stage'))
    (hothers : ∀ {j}, j ≠ seg → t.segMd j = c.segMd j ∧ t.segTimestamps j = c.segTimestamps j
      ∧ t.segMdOk j = c.segMdOk j ∧ t.segLive j = c.segLive j)
    (hphase : t.PhaseOk seg (.stamping stream ts stage'))
    (hts : 0 < t.segTimestamps seg → c.Counted seg (t.segTimestamps seg))
    (hmd : ∀ ts, t.segMd seg = some ⟨.kv, ts⟩ → c.Counted seg ts)
    (hlive : ∀ {p r}, env.geo.segOf p = seg → c.recs p = some r →
      t.segMd seg = some ⟨.kv, r.timestamp⟩ → c.segMd seg = some ⟨.kv, r.timestamp⟩
        ∧ t.segLive seg = true ∧ t.segTimestamps seg = r.timestamp) :
  StampStep env c seg t
  := by
  have hself : t.phase seg = .stamping stream ts stage' := by rw [hph, Function.update_self]
  refine .of_count hnr how (by rw [hseg]; rfl) ?_ (by rw [hself]; exact hphase) hts hmd ?_ hlive ?_
  · intro j hj
    rw [hph, Function.update_of_ne hj]
    exact ⟨rfl, hothers hj⟩
  · intro ts' hstamps
    rw [hself] at hstamps
    rw [hseg]
    exact hstamps
  · rw [hself]
    rintro ⟨⟩

namespace Core.Inv

variable {c' : Core} {seg : Nat} (h : c.Inv env)

include h

/-- A step that leaves a segment's metadata, timestamp and `seg_live_` alone keeps what the scan
accepts in it. -/
theorem live_of_same
    {t : SegTable} (hmd : t.segMd seg = c.segMd seg)
    (hts : t.segTimestamps seg = c.segTimestamps seg) (hlive : t.segLive seg = c.segLive seg)
    {p : Nat} {r : Rec} (hp : env.geo.segOf p = seg) (hr : c.recs p = some r)
    (hmd' : t.segMd seg = some ⟨.kv, r.timestamp⟩) :
  c.segMd seg = some ⟨.kv, r.timestamp⟩ ∧ t.segLive seg = true
    ∧ t.segTimestamps seg = r.timestamp
  := by
  rw [hmd] at hmd'
  rw [hts, hlive]
  rw [← hp] at hmd' ⊢
  exact ⟨hmd', h.recs.live hr hmd'⟩

theorem take
    {stream : Stream} (hfree : c.phase seg = .free) (hne : stream ≠ .index) :
  StampStep env c seg { c.toSegTable with
    segAllocNr := c.segAllocNr + 1
    phase := Function.update c.phase seg (.stamping stream (c.segAllocNr + 1) .counted)
    owner := Function.update c.owner (c.segAllocNr + 1) seg }
  := by
  have hcounted : ∀ {j ts}, c.Counted j ts →
      SegTable.Counted { c.toSegTable with
        segAllocNr := c.segAllocNr + 1
        phase := Function.update c.phase seg (.stamping stream (c.segAllocNr + 1) .counted)
        owner := Function.update c.owner (c.segAllocNr + 1) seg } j ts := by
    intro j ts hc
    have hle := hc.le
    refine ⟨hc.pos, Nat.le_succ_of_le hle, ?_⟩
    have hts : ts ≠ c.segAllocNr + 1 := by omega
    simp [hts, hc.owner]
  have hlt := Nat.lt_succ_of_le (h.timestamp_le seg)
  constructor
  · rw [hfree]
    rfl
  · intro j hj
    simp [hj]
  · apply Nat.le_succ
  · apply hcounted
  · simp only [Function.update_self]
    cases stream with
    | index => contradiction
    | data | reloc => exact ⟨⟨Nat.succ_pos _, Nat.le_refl _, by simp⟩, hlt⟩
  · intro hpos
    apply hcounted (h.segs.timestamp seg hpos)
  · intro ts hmd
    apply hcounted (h.segs.md seg ts hmd)
  · intro ts hstamps
    right
    simp only [Function.update_self] at hstamps
    obtain ⟨-, rfl⟩ := hstamps
    apply Nat.lt_succ_self
  · intro p r hp hr hmd
    simp only at hmd ⊢
    apply h.live_of_same rfl rfl rfl hp hr hmd
  · intro hr
    simp [SegPhase.ranged] at hr

/-- A step that changes only the phase of a segment without ranges. -/
theorem setPhase
    {ph : SegPhase} (hun : (c.phase seg).ranged = false) (hok : c.PhaseOk seg ph)
    (hstamps : ∀ {ts}, ph.Stamps ts → (c.phase seg).Stamps ts)
    (hopened : ph.ranged = true → (∃ stream, ph = .opened stream (env.geo.segBase seg))
      ∧ (c.segMdOk seg = true → (c.phase seg).Stamps (c.segTimestamps seg))) :
  StampStep env c seg (c.setPhase seg ph).toSegTable
  := by
  refine StampStep.of_count rfl rfl hun ?_ ?_ ?_ ?_ ?_ ?_ ?_
  all_goals simp only [Core.setPhase, Function.update_self]
  · intro j hj
    simp [hj]
  · exact hok.congr (fun hc => hc) rfl rfl rfl rfl
  · apply h.segs.timestamp seg
  · apply h.segs.md seg
  · apply hstamps
  · intro p r hp hr hmd
    apply h.live_of_same rfl rfl rfl hp hr hmd
  · apply hopened

theorem write
    {stream : Stream} {ts : Nat} (res : WriteResult)
    (hseg : c.phase seg = .stamping stream ts .counted) :
  StampStep env c seg { c.toSegTable with
    segMd := Function.update c.segMd seg (res.segMd stream ts (c.segMd seg))
    phase := Function.update c.phase seg (.stamping stream ts (.wrote (res = .ok))) }
  := by
  have hph := h.segs.phase seg
  rw [hseg] at hph
  refine .stage hseg rfl rfl rfl (fun hj => ⟨Function.update_of_ne hj _ _, rfl, rfl, rfl⟩) ?_
    (h.segs.timestamp seg) ?_ ?_
  all_goals simp only [Function.update_self]
  · cases res with
    | ok =>
        cases stream with
        | index => simp [SegTable.PhaseOk, WriteResult.segMd, Core.ctlrOf]
        | data | reloc => exact ⟨hph.1, hph.2, by simp [WriteResult.segMd, Core.ctlrOf]⟩
    | kept | torn =>
        cases stream with
        | index => trivial
        | data | reloc => exact ⟨hph.1, hph.2⟩
  · intro ts' hmd
    cases res with
    | ok =>
        cases stream with
        | index => cases hmd
        | data | reloc =>
            cases hmd
            apply hph.1
    | kept => exact h.segs.md seg ts' hmd
    | torn => cases hmd
  · intro p r hp hr hmd
    cases res with
    | ok =>
        have hne : ∀ {ts}, (c.phase seg).Stamps ts → r.timestamp ≠ ts := h.recs.fresh hr
        rw [hseg] at hne
        cases stream with
        | index => cases hmd
        | data | reloc =>
            cases hmd
            exact absurd rfl (hne ⟨by simp, rfl⟩)
    | kept => exact h.live_of_same (t := c.toSegTable) rfl rfl rfl hp hr hmd
    | torn => cases hmd

theorem timestamp
    {stream : Stream} {ts : Nat} (hseg : c.phase seg = .stamping stream ts (.wrote true))
    (hne : stream ≠ .index) :
  StampStep env c seg { c.toSegTable with
    segTimestamps := Function.update c.segTimestamps seg ts
    phase := Function.update c.phase seg (.stamping stream ts .tsStored) }
  := by
  have hph := h.segs.phase seg
  have hcounted := (hph.stamps (by rw [hseg]; exact ⟨hne, rfl⟩) : c.Counted seg ts ∧ _).1
  have hmd : c.segMd seg = some ⟨.kv, ts⟩ := by
    rw [hseg] at hph
    cases stream with
    | index => contradiction
    | data | reloc => apply hph.2.2
  refine .stage hseg rfl rfl rfl (fun hj => ⟨rfl, Function.update_of_ne hj _ _, rfl, rfl⟩) ?_ ?_
    (h.segs.md seg) ?_
  all_goals simp only [Function.update_self]
  · cases stream with
    | index => contradiction
    | data | reloc => exact ⟨hcounted, by simp, hmd⟩
  · intro _
    apply hcounted
  · intro p r hp hr hmd'
    rw [hmd] at hmd'
    cases hmd'
    have hfresh : (c.phase seg).Stamps r.timestamp → r.timestamp ≠ r.timestamp := h.recs.fresh hr
    rw [hseg] at hfresh
    exact absurd rfl (hfresh ⟨hne, rfl⟩)

theorem live
    {stream : Stream} {ts : Nat} (hseg : c.phase seg = .stamping stream ts .tsStored) :
  StampStep env c seg { c.toSegTable with
    segLive := Function.update c.segLive seg true
    phase := Function.update c.phase seg (.stamping stream ts .liveStored) }
  := by
  have hph := h.segs.phase seg
  rw [hseg] at hph
  refine .stage hseg rfl rfl rfl (fun hj => ⟨rfl, rfl, rfl, Function.update_of_ne hj _ _⟩) ?_
    (h.segs.timestamp seg) (h.segs.md seg) ?_
  · cases stream with
    | index => cases hph
    | data | reloc => exact ⟨hph.1, hph.2.1, hph.2.2, by simp⟩
  · intro p r hp hr hmd
    simp only [Function.update_self]
    rw [← hp] at hmd ⊢
    exact ⟨hmd, trivial, (h.recs.live hr hmd).2⟩

theorem mdOk
    {stream : Stream} {ts : Nat} {stage : Stage} {ok : Bool}
    (hseg : c.phase seg = .stamping stream ts stage)
    (hstage : stage = .wrote ok ∧ (stream = .index ∨ ok = false)
      ∨ stage = .liveStored ∧ ok = true) :
  StampStep env c seg { c.toSegTable with
    segMdOk := Function.update c.segMdOk seg ok
    phase := Function.update c.phase seg (.stamping stream ts (.okStored ok)) }
  := by
  have hph := h.segs.phase seg
  rw [hseg] at hph
  refine .stage hseg rfl rfl rfl (fun hj => ⟨rfl, rfl, Function.update_of_ne hj _ _, rfl⟩) ?_
    (h.segs.timestamp seg) (h.segs.md seg) (h.live_of_same rfl rfl rfl)
  obtain ⟨rfl, rfl | rfl⟩ | ⟨rfl, rfl⟩ := hstage
  · cases ok with
    | false => trivial
    | true => apply hph
  · cases stream with
    | index => trivial
    | data | reloc => exact ⟨hph.1, hph.2, by simp⟩
  · cases stream with
    | index => cases hph
    | data | reloc => exact ⟨hph.1, hph.2⟩

theorem opened
    {stream : Stream} {ts : Nat} {ok : Bool}
    (hseg : c.phase seg = .stamping stream ts (.okStored ok)) (hne : stream ≠ .index) :
  StampStep env c seg (c.setPhase seg (.opened stream (env.geo.segBase seg))).toSegTable
  := by
  have hph := h.segs.phase seg
  rw [hseg] at hph
  cases stream with
  | index => contradiction
  | data | reloc =>
      apply h.setPhase
      · rw [hseg]
        rfl
      · intro hok
        cases ok with
        | true =>
            obtain ⟨hc, hts, hmd, hlive⟩ := hph
            rw [hts]
            exact ⟨hmd, hlive, hc.pos⟩
        | false =>
            rw [hph.2.2] at hok
            cases hok
      · intro ts hstamps
        cases hstamps
      · intro _
        use ⟨_, rfl⟩
        intro hok
        rw [hseg]
        cases ok with
        | true => exact ⟨by simp, hph.2.1.symm⟩
        | false =>
            rw [hph.2.2] at hok
            cases hok

theorem index
    {ts : Nat} (hseg : c.phase seg = .stamping .index ts (.okStored true)) :
  StampStep env c seg { c.toSegTable with
    segLive := Function.update c.segLive seg false
    phase := Function.update c.phase seg .index }
  := by
  have hph := h.segs.phase seg
  rw [hseg] at hph
  refine StampStep.of_count rfl rfl (by rw [hseg]; rfl) ?_ ?_ (h.segs.timestamp seg)
    (h.segs.md seg) ?_ ?_ ?_
  all_goals simp only [Function.update_self]
  · intro j hj
    simp [hj]
  · trivial
  · intro ts' hstamps
    cases hstamps
  · intro p r hp hr hmd
    rw [hph] at hmd
    cases hmd
  · intro hr
    cases hr

/-- A segment that no record is in goes on to a phase in which none is. -/
theorem idle
    {ph : SegPhase} (hun : (c.phase seg).ranged = false) (hok : c.PhaseOk seg ph)
    (hstamps : ∀ ts, ¬ ph.Stamps ts) (hranged : ph.ranged = false) :
  StampStep env c seg (c.setPhase seg ph).toSegTable
  := by
  refine h.setPhase hun hok (fun hs => absurd hs (hstamps _)) ?_
  rw [hranged]
  rintro ⟨⟩

/-- Every step of a metadata callback. -/
theorem turn
    {a : Act} {t : SegTable} (hs : c.toSegTable.Turns env.geo seg a t) : StampStep env c seg t := by
  cases hs with
  | take hph _ hne => exact h.take hph hne
  | takeIndex hph _ => exact h.idle (by rw [hph]; rfl) trivial (fun _ hs => hs.1 rfl) rfl
  | write res hph => exact h.write res hph
  | timestamp hph hne => exact h.timestamp hph hne
  | live hph => exact h.live hph
  | mdOk hph hstage => exact h.mdOk hph hstage
  | opened hph hne => exact h.opened hph hne
  | index hph => exact h.index hph
  | back hph | retire hph => exact h.idle (by rw [hph]; rfl) trivial (fun _ hs => hs) rfl

/-! ### Moves of a segment with ranges -/

/-- Segments with ranges move and nothing else happens. -/
theorem moveSegments
    {ph : Nat → SegPhase} (hm : ∀ seg, ph seg = c.phase seg
      ∨ (c.phase seg).ranged = true ∧ Moves env.geo c seg (ph seg)) :
  TableStep env c { c.toSegTable with phase := ph }
  := by
  have hstamps : ∀ {seg ts}, (ph seg).Stamps ts → (c.phase seg).Stamps ts := by
    intro seg ts hs
    obtain heq | ⟨hr, hmove⟩ := hm seg
    · rw [← heq]
      apply hs
    · exact absurd hs (SegPhase.not_stamps_of_ranged (hmove.ranged hr))
  constructor
  · constructor
    · apply h.segs.timestamp
    · apply h.segs.md
    · intro seg
      have hph := h.segs.phase seg
      simp only
      obtain heq | ⟨hr, hmove⟩ := hm seg
      · rw [heq]
        exact hph.congr (fun hc => hc) rfl rfl rfl rfl
      · apply SegTable.PhaseOk.of_ranged (hmove.ranged hr)
        apply hph.ranged hr
  · exact ⟨h.recs.shape, h.recs.le, fun hr hs => h.recs.fresh hr (hstamps hs), h.recs.live⟩
  · intro seg ts hc
    apply hc
  · intro x seg ts hx hs
    apply h.commits.fresh hx (hstamps hs)
  · intro seg ts hs
    left
    apply hstamps hs
  · apply Nat.le_refl
  · intro p r _ hmd
    apply hmd
  · intro seg _
    exact ⟨rfl, rfl⟩
  · intro seg hr
    simp only
    obtain heq | ⟨-, hmove⟩ := hm seg
    · rw [heq]
      apply Moves.same
    · apply hmove
  · intro seg hr hr'
    simp only at hr'
    obtain heq | ⟨hr'', -⟩ := hm seg
    · rw [heq, hr] at hr'
      cases hr'
    · rw [hr] at hr''
      cases hr''

theorem closeWhere (p : Nat → Stream → Bool) (lock : Option Nat) (b : Option Actor) :
    Frame env c (c.closeWhere p) lock b := by
  have hm : ∀ seg, (c.closeWhere p).phase seg = c.phase seg
      ∨ (c.phase seg).ranged = true ∧ Moves env.geo c seg ((c.closeWhere p).phase seg) := by
    intro seg
    rw [Core.closeWhere]
    cases hseg : c.phase seg with
    | opened stream pos =>
        by_cases hp : p seg stream
        · right
          simp only [hseg, hp, if_true]
          exact ⟨rfl, Moves.close hseg⟩
        · left
          simp only [hseg, hp]
          rfl
    | _ =>
        left
        simp only [hseg]
  refine (h.moveSegments hm).frame h lock ?_
  intro _ seg hseg
  simp only [Core.closeWhere]
  obtain hseg | ⟨waits, hseg⟩ := hseg <;> rw [hseg]

/-- One segment with ranges moves. -/
theorem moveSegment
    {ph : SegPhase} (hr : (c.phase seg).ranged = true) (hm : Moves env.geo c seg ph) :
  TableStep env c (c.setPhase seg ph).toSegTable
  := by
  apply h.moveSegments
  intro j
  by_cases hj : j = seg
  · right
    rw [hj, Function.update_self]
    exact ⟨hr, hm⟩
  · left
    apply Function.update_of_ne hj

omit h in
theorem allRanges_spec
    {p : GrainRange → Bool} (hall : c.allRanges env.geo seg p = true) {q : Nat} {rg : GrainRange}
    (hq : env.geo.segOf q = seg) (hrg : c.ranges q = some rg) :
  p rg = true
  := by
  rw [Core.allRanges, List.all_eq_true] at hall
  obtain ⟨k, hk, hplace⟩ := env.geo.exists_place q
  have hp := hall k (List.mem_range.mpr hk)
  rw [← hq, ← hplace, hrg] at hp
  apply hp

theorem deferFree
    (hclosed : c.phase seg = .closed)
    (hall : c.allRanges env.geo seg (fun r => r.released && !r.valid) = true)
    (lock : Option Nat) :
  Frame env c (c.setPhase seg (.deferred c.sections)) lock none
  := by
  have hm : Moves env.geo c seg (.deferred c.sections) := by
    apply Moves.defer hclosed
    intro p rg hp hrg
    have hboth := allRanges_spec hall hp hrg
    simpa [GrainRange.valid] using hboth
  apply (h.moveSegment (by rw [hclosed]; rfl) hm).frame h lock
  intro _ j hj
  have hne : j ≠ seg := by
    rintro rfl
    rw [hclosed] at hj
    simp at hj
  apply Function.update_of_ne hne

/-! ### The end of a segment's life -/

section

variable {waits : List ReadSection}
    (hph : c.phase seg = .deferred waits ∨ c.phase seg = .syncing waits)
    (hend : c.ended waits = true)

omit h in
theorem not_mem_of_ended (hend : c.ended waits = true) {s : ReadSection} (hs : s ∈ c.sections) :
    s ∉ waits := by
  intro hw
  rw [Core.ended, List.all_eq_true] at hend
  have hnot := hend s hw
  simp [hs] at hnot

include hph hend

omit h hend in
theorem not_inUse_of_waiting : (c.phase seg).inUse = false := by
  obtain hph | hph := hph <;> rw [hph] <;> rfl

omit h in
theorem ne_of_protects
    {s : ReadSection} {p : Nat} (hs : s ∈ c.sections)
    (hp : (c.phase (env.geo.segOf p)).Protects s) :
  env.geo.segOf p ≠ seg
  := by
  intro heq
  rw [heq] at hp
  obtain hph | hph := hph <;> rw [hph] at hp <;> exact not_mem_of_ended hend hs hp

omit h in
theorem ne_of_keeps
    {s : ReadSection} {p : Nat} (hs : s ∈ c.sections)
    (hp : (c.phase (env.geo.segOf p)).Keeps s) :
  env.geo.segOf p ≠ seg
  := by
  intro heq
  rw [heq] at hp
  obtain hph | hph := hph <;> rw [hph] at hp
  · cases hp
  · exact not_mem_of_ended hend hs hp

omit hend in
theorem ne_of_unreleased
    {p : Nat} {rg : GrainRange} (hrg : c.ranges p = some rg) (hrel : rg.released = false) :
  env.geo.segOf p ≠ seg
  := by
  intro heq
  have hw := SegPhase.inUse_of_writable (h.ranges.unreleased hrg hrel)
  rw [heq, not_inUse_of_waiting hph] at hw
  cases hw

omit hend in
theorem freeSegment_inv : (c.freeSegment env.geo seg).Inv env := by
  have hne : ∀ {j}, ((c.freeSegment env.geo seg).phase j).ranged = true → j ≠ seg := by
    rintro j hr rfl
    simp [Core.freeSegment, SegPhase.ranged] at hr
  have hphase : ∀ {j}, j ≠ seg → (c.freeSegment env.geo seg).phase j = c.phase j :=
    fun hj => Function.update_of_ne hj _ _
  have hranges : ∀ {p}, env.geo.segOf p ≠ seg →
      (c.freeSegment env.geo seg).ranges p = c.ranges p := fun hp => if_neg hp
  have hold : ∀ {p rg}, (c.freeSegment env.geo seg).ranges p = some rg →
      env.geo.segOf p ≠ seg ∧ c.ranges p = some rg := by
    intro p rg hrg
    simpa [Core.freeSegment] using hrg
  have hstamps : ∀ {j ts}, ((c.freeSegment env.geo seg).phase j).Stamps ts →
      (c.phase j).Stamps ts := by
    intro j ts hs
    by_cases hj : j = seg
    · rw [hj] at hs
      simp [Core.freeSegment, SegPhase.Stamps] at hs
    · rw [hphase hj] at hs
      apply hs
  constructor
  · constructor
    · apply h.segs.timestamp
    · apply h.segs.md
    · intro j
      by_cases hj : j = seg
      · rw [hj]
        simp [Core.freeSegment, SegTable.PhaseOk]
      · rw [hphase hj]
        exact (h.segs.phase j).congr (fun hc => hc) rfl rfl rfl rfl
  · exact ⟨h.recs.shape, h.recs.le, fun hr hs => h.recs.fresh hr (hstamps hs), h.recs.live⟩
  · constructor
    · intro p rg hrg
      obtain ⟨hp, hrg⟩ := hold hrg
      rw [hphase hp]
      apply h.ranges.ranged hrg
    · intro p rg hrg
      apply h.ranges.pos (hold hrg).2
    · intro p rg hrg
      apply h.ranges.fits (hold hrg).2
    · intro j stream next hj
      have hj' : j ≠ seg := hne (by rw [hj]; rfl)
      rw [hphase hj'] at hj
      apply h.ranges.opened hj
    · intro p rg stream next hrg hopen
      obtain ⟨hp, hrg⟩ := hold hrg
      rw [hphase hp] at hopen
      apply h.ranges.below hrg hopen
    · intro p q rg rg' hrg hrg'
      apply h.ranges.disjoint (hold hrg).2 (hold hrg').2
    · intro p rg hrg hrel
      obtain ⟨hp, hrg⟩ := hold hrg
      rw [hphase hp]
      apply h.ranges.unreleased hrg hrel
    · intro p rg waits hrg hdef
      obtain ⟨hp, hrg⟩ := hold hrg
      rw [hphase hp] at hdef
      apply h.ranges.invalid hrg hdef
  · intro p r hr hranged hok hts
    have hp := hne hranged
    rw [hphase hp] at hranged
    rw [hranges hp]
    apply h.life hr hranged hok hts
  · constructor
    · exact h.commits.counted
    · intro x j ts hx hs
      apply h.commits.fresh hx (hstamps hs)
    · intro x hx hranged hok hts
      have hp := hne hranged
      rw [hphase hp] at hranged
      rw [hranges hp]
      apply h.commits.range hx hranged hok hts
  · refine ⟨h.dir.wf, h.dir.bits, ?_, h.dir.pbas, h.dir.keys⟩
    intro x hx
    obtain ⟨r, hr⟩ := h.dir.pointed hx
    have hp : env.geo.segOf x.2.pba ≠ seg := by
      intro heq
      have huse := hr.inUse
      rw [heq, not_inUse_of_waiting hph] at huse
      cases huse
    use r
    refine ⟨⟨hr.current.record, ?_, hr.current.timestamp, hr.current.mdOk, hr.current.committed⟩,
      hr.item, ?_, ?_⟩
    · rw [hranges hp]
      apply hr.current.range
    · rw [hphase hp]
      apply hr.inUse
    · rw [hranges hp]
      apply hr.held
  · exact h.grow

theorem freeSegment
    (lock : Option Nat) {b : Option Actor}
    (hb : b ≠ some .gc → ∀ waits, c.phase seg ≠ .syncing waits) :
  Frame env c (c.freeSegment env.geo seg) lock b
  := by
  have hphase : ∀ {j}, j ≠ seg → (c.freeSegment env.geo seg).phase j = c.phase j :=
    fun hj => Function.update_of_ne hj _ _
  have hranges : ∀ {p}, env.geo.segOf p ≠ seg →
      (c.freeSegment env.geo seg).ranges p = c.ranges p := fun hp => if_neg hp
  have hloaded : ∀ s ∈ c.sections, ∀ {p r}, Loaded env c s p r →
      Loaded env (c.freeSegment env.geo seg) s p r := by
    intro s hs p r hl
    have hp := ne_of_protects hph hend hs hl.protects
    refine ⟨⟨hl.current.record, ?_, hl.current.timestamp, hl.current.mdOk, hl.current.committed⟩,
      ?_⟩
    · rw [hranges hp]
      apply hl.current.range
    · rw [hphase hp]
      apply hl.protects
  constructor
  · apply h.freeSegment_inv hph
  · intro p r huse hc
    have hp : env.geo.segOf p ≠ seg := by
      intro heq
      rw [heq, not_inUse_of_waiting hph] at huse
      cases huse
    refine ⟨hc.record, ?_, hc.timestamp, hc.mdOk, hc.committed⟩
    rw [hranges hp]
    apply hc.range
  · intro ts ha
    cases ha with
    | opened hopen hok =>
        rename_i j next stream
        have hj : j ≠ seg := by
          rintro rfl
          simp [Core.freeSegment] at hopen
        rw [hphase hj] at hopen
        exact Ahead.opened hopen hok
    | unreleased hrg hrel hok =>
        rename_i p rg
        have hrg' : env.geo.segOf p ≠ seg ∧ c.ranges p = some rg := by
          simpa [Core.freeSegment] using hrg
        exact Ahead.unreleased hrg'.2 hrel hok
    | stamping hst =>
        rename_i j
        have hj : j ≠ seg := by
          rintro rfl
          simp [Core.freeSegment, SegPhase.Stamps] at hst
        rw [hphase hj] at hst
        exact Ahead.stamping hst
    | later hlt => exact Ahead.later hlt
  · intro j ts ha
    cases ha with
    | ranged hr hok =>
        have hj : j ≠ seg := by
          rintro rfl
          simp [Core.freeSegment, SegPhase.ranged] at hr
        rw [hphase hj] at hr
        exact Around.ranged hr hok
    | recoverable hp hr => exact Around.recoverable hp hr
    | stamping hst =>
        have hj : j ≠ seg := by
          rintro rfl
          simp [Core.freeSegment, SegPhase.Stamps] at hst
        rw [hphase hj] at hst
        exact Around.stamping hst
    | later hlt => exact Around.later hlt
  · apply hloaded
  · intro s hs gen hl
    refine ⟨hl.le, hl.wf, hl.bits, fun hx => ?_⟩
    obtain ⟨r, hr, hitem⟩ := hl.loaded hx
    exact ⟨r, hloaded s hs hr, hitem⟩
  · intro a _
    constructor
    · intro s hs _
      apply hs
    · intro p len ho
      rw [Owned, hranges (h.ne_of_unreleased hph ho rfl)]
      apply ho
    · intro p len _
      exact ⟨rfl, rfl⟩
    · intro p r _ hr
      apply hr
    · rintro p len ⟨hh, hu⟩
      use hh
      rw [hranges (h.ne_of_unreleased hph hu rfl)]
      apply hu
    · intro s hs _ p len hi
      have hp := ne_of_keeps hph hend hs hi.keeps
      constructor
      · rw [hranges hp]
        apply hi.range
      · rw [hphase hp]
        apply hi.keeps
  · intro hgc
    constructor
    · intro j hj
      have hne : j ≠ seg := by
        rintro rfl
        have huse := not_inUse_of_waiting hph
        rw [hj] at huse
        cases huse
      rw [hphase hne]
      exact ⟨hj, rfl, rfl⟩
    · intro j waits' hj
      have hne : j ≠ seg := by
        rintro rfl
        apply hb hgc waits' hj
      rw [hphase hne]
      apply hj
    · intro _ _
      rfl
    · intro x hx _
      apply hx
    · intro x hx _ _ _ _
      apply hx

end

end Core.Inv

end UDepot
