import UDepot.Store.Inversion
import UDepot.Store.Opened

/-!
# The segment staged for data

Salsa takes a segment for the data stream only if none is staged for it.  So there is at most one at
a time, and since counts only grow it is newer than every other segment in which an operation has
been handed a range (`Core.Staging`).
-/

namespace UDepot

open Transition

/-- The segment is staged for data, or is being stamped for it. -/
def SegPhase.staged : SegPhase → Bool
  | .stamping .data _ _ | .opened .data _ => true
  | _ => false

/-- The count of a segment staged for data.  One whose metadata was not written has none. -/
inductive Core.Stages (c : Core) (seg : Nat) : Nat → Prop
  | stamping {count : Nat} {stage : Stage} (h : c.phase seg = .stamping .data count stage) :
      Stages c seg count
  | opened {next : Nat} (h : c.phase seg = .opened .data next) (hok : c.segMdOk seg = true) :
      Stages c seg (c.segTimestamps seg)

structure Core.Staging (geo : Geometry) (c : Core) : Prop where
  one : ∀ {seg seg'}, (c.phase seg).staged = true → (c.phase seg').staged = true → seg = seg'
  newest : ∀ {seg count p rg i}, c.Stages seg count → c.ranges p = some rg → rg.user = .op i →
    geo.segOf p ≠ seg → c.segTimestamps (geo.segOf p) < count

/-- Salsa stages a segment for data only if none is. -/
def SalsaOk (s : State) : Act → Prop
  | .takeSegment _ .data => ∀ seg, (s.core.phase seg).staged = false
  | _ => True

def Act.takesData : Act → Bool
  | .takeSegment _ .data => true
  | _ => false

theorem SalsaOk.of_not_takesData {a : Act} (h : a.takesData = false) (s : State) : SalsaOk s a := by
  cases a with
  | takeSegment seg stream =>
      cases stream with
      | data => cases h
      | reloc | index => trivial
  | _ => trivial

/-! ### Steps that stage nothing -/

/-- A segment that is staged after a step was so before. -/
inductive StagedFrom (c c' : Core) (seg : Nat) : Prop
  | same (hph : c'.phase seg = c.phase seg) (hok : c'.segMdOk seg = c.segMdOk seg)
      (hts : c'.segTimestamps seg = c.segTimestamps seg)
  | stamps {count : Nat} {stage stage' : Stage} (hph : c.phase seg = .stamping .data count stage)
      (hph' : c'.phase seg = .stamping .data count stage')
  | opens {count next : Nat} {stage : Stage} (hph : c.phase seg = .stamping .data count stage)
      (hph' : c'.phase seg = .opened .data next)
      (hts : c'.segMdOk seg = true → c'.segTimestamps seg = count)
  | hands {next next' : Nat} (hph : c.phase seg = .opened .data next)
      (hph' : c'.phase seg = .opened .data next') (hle : next ≤ next')
      (hok : c'.segMdOk seg = c.segMdOk seg) (hts : c'.segTimestamps seg = c.segTimestamps seg)

section

variable {c c' : Core} {seg : Nat}

theorem Core.Stages.staged {count : Nat} (h : c.Stages seg count) :
    (c.phase seg).staged = true := by
  cases h with
  | stamping hph | opened hph _ =>
      rw [hph]
      rfl

theorem StagedFrom.staged (h : StagedFrom c c' seg) (hs : (c'.phase seg).staged = true) :
    (c.phase seg).staged = true := by
  cases h with
  | same hph _ _ =>
      rw [← hph]
      apply hs
  | stamps hph _ | opens hph _ _ | hands hph _ _ _ _ =>
      rw [hph]
      rfl

theorem StagedFrom.stages {count : Nat} (h : StagedFrom c c' seg) (hs : c'.Stages seg count) :
    c.Stages seg count := by
  cases hs with
  | stamping hph' =>
      cases h with
      | same hph _ _ => exact .stamping (hph.symm.trans hph')
      | stamps hph hph'' =>
          cases hph'.symm.trans hph''
          exact .stamping hph
      | opens _ hph'' _ | hands _ hph'' _ _ _ => cases hph'.symm.trans hph''
  | opened hph' hok' =>
      cases h with
      | same hph hok hts =>
          rw [hts]
          exact .opened (hph.symm.trans hph') (hok.symm.trans hok')
      | stamps _ hph'' => cases hph'.symm.trans hph''
      | opens hph _ hts =>
          rw [hts hok']
          exact .stamping hph
      | hands hph _ _ hok hts =>
          rw [hts]
          exact .opened hph (hok.symm.trans hok')

end

/-- A step stages no segment, and hands out ranges to operations only in the one that is. -/
structure NoneStaged (geo : Geometry) (c c' : Core) : Prop where
  phase : ∀ {seg}, (c'.phase seg).staged = true → StagedFrom c c' seg
  timestamps : ∀ {p rg}, c.ranges p = some rg →
    c'.segTimestamps (geo.segOf p) = c.segTimestamps (geo.segOf p)
  ranges : ∀ {p rg i}, c'.ranges p = some rg → rg.user = .op i →
    (∃ rg₀, c.ranges p = some rg₀ ∧ rg₀.user = .op i) ∨ (c'.phase (geo.segOf p)).staged = true

section

variable {env : StoreEnv} {geo : Geometry} {c c' : Core} {lock : Option Nat} {i : Nat}

theorem Core.Staging.step
    (h : c.Staging geo) (hn : NoneStaged geo c c') :
  c'.Staging geo
  := by
  have hone : ∀ {seg seg'}, (c'.phase seg).staged = true → (c'.phase seg').staged = true →
      seg = seg' :=
    fun hs hs' => h.one ((hn.phase hs).staged hs) ((hn.phase hs').staged hs')
  refine ⟨hone, ?_⟩
  intro seg count p rg i hs hrg huser hne
  rcases hn.ranges hrg huser with ⟨rg₀, hrg₀, huser₀⟩ | hp
  · rw [hn.timestamps hrg₀]
    apply h.newest ((hn.phase hs.staged).stages hs) hrg₀ huser₀ hne
  · exact absurd (hone hp hs.staged) hne

/-- A step that leaves the segments alone and keeps the users of ranges. -/
theorem NoneStaged.of_segs
    (hsegs : c'.toSegTable = c.toSegTable)
    (hranges : ∀ {p rg}, c'.ranges p = some rg →
      ∃ rg₀, c.ranges p = some rg₀ ∧ rg₀.user = rg.user) :
  NoneStaged geo c c'
  where
  phase := fun _ => .same (by rw [hsegs]) (by rw [hsegs]) (by rw [hsegs])
  timestamps := fun _ => by rw [hsegs]
  ranges := fun hrg huser => by
    obtain ⟨rg₀, hrg₀, hsame⟩ := hranges hrg
    exact .inl ⟨rg₀, hrg₀, hsame.trans huser⟩

theorem Core.mapRange_user
    {q p : Nat} {f : GrainRange → GrainRange} {rg : GrainRange}
    (hrg : (c.mapRange q f).ranges p = some rg) (hf : ∀ r, (f r).user = r.user) :
  ∃ rg₀, c.ranges p = some rg₀ ∧ rg₀.user = rg.user
  := by
  by_cases hp : p = q
  · subst hp
    simp only [Core.mapRange, Function.update_self] at hrg
    obtain ⟨rg₀, hrg₀, rfl⟩ := Option.map_eq_some_iff.mp hrg
    exact ⟨rg₀, hrg₀, (hf rg₀).symm⟩
  · simp only [Core.mapRange, Function.update_of_ne hp] at hrg
    exact ⟨rg, hrg, rfl⟩

theorem Core.give_user
    {q p : Nat} {hh : Holder} {rg : GrainRange} (hrg : (c.give q hh).ranges p = some rg) :
  ∃ rg₀, c.ranges p = some rg₀ ∧ rg₀.user = rg.user :=
  Core.mapRange_user hrg fun _ => rfl

/-- Two ranges are passed on. -/
theorem Core.give_give_user
    {q q' p : Nat} {hh hh' : Holder} {rg : GrainRange}
    (hrg : ((c.give q hh).give q' hh').ranges p = some rg) :
  ∃ rg₀, c.ranges p = some rg₀ ∧ rg₀.user = rg.user
  := by
  obtain ⟨rg₁, hrg₁, hsame⟩ := Core.give_user hrg
  obtain ⟨rg₀, hrg₀, hsame'⟩ := Core.give_user hrg₁
  exact ⟨rg₀, hrg₀, hsame'.trans hsame⟩

/-- One segment comes to a phase in which it is not staged for data. -/
theorem NoneStaged.update
    {seg : Nat} {ph : SegPhase} (hph : ph.staged = false)
    (h : c'.phase = Function.update c.phase seg ph) (hok : c'.segMdOk = c.segMdOk)
    (hts : c'.segTimestamps = c.segTimestamps)
    (hranges : ∀ {p rg}, c'.ranges p = some rg → c.ranges p = some rg) :
  NoneStaged geo c c'
  where
  phase := fun {seg'} hs => by
    by_cases heq : seg' = seg
    · subst heq
      rw [h, Function.update_self, hph] at hs
      cases hs
    · refine .same ?_ (by rw [hok]) (by rw [hts])
      rw [h, Function.update_of_ne heq]
  timestamps := fun _ => by rw [hts]
  ranges := fun hrg huser => .inl ⟨_, hranges hrg, huser⟩

theorem NoneStaged.closeWhere (p : Nat → Stream → Bool) : NoneStaged geo c (c.closeWhere p) where
  phase := fun {seg} hs => by
    refine .same ?_ rfl rfl
    simp only [Core.closeWhere] at hs ⊢
    split
    · rename_i stream pos hph
      rw [hph] at hs
      simp only at hs
      split
      · rename_i hp
        rw [if_pos hp] at hs
        cases hs
      · exact hph.symm
    · rfl
  timestamps := fun _ => rfl
  ranges := fun hrg huser => .inl ⟨_, hrg, huser⟩

theorem NoneStaged.call (x : Call) : NoneStaged geo c (c.call x) := by
  cases x with
  | invalidate | release => exact .of_segs rfl fun hrg => Core.mapRange_user hrg fun _ => rfl
  | drain stream => apply NoneStaged.closeWhere

theorem NoneStaged.freeSegment (seg : Nat) : NoneStaged geo c (c.freeSegment geo seg) := by
  refine .update rfl rfl rfl rfl ?_
  intro p rg hrg
  simp only [Core.freeSegment] at hrg
  split at hrg
  · cases hrg
  · exact hrg

/-- A range is handed out. -/
theorem NoneStaged.allocate
    {a : Actor} {stream : Stream} {seg len pba : Nat}
    (ha : c.allocate env.geo a stream seg len = some (c', pba))
    (hdata : stream = .data ∨ a = .gc) (hinv : c.Inv env) :
  NoneStaged env.geo c c'
  := by
  have hs := Core.allocate_spec ha
  refine ⟨?_, ?_, ?_⟩
  · intro seg' hstaged
    by_cases heq : seg' = seg
    · subst heq
      rw [hs.phase_seg] at hstaged
      cases stream with
      | data =>
          refine .hands hs.opened hs.phase_seg (Nat.le_add_right _ _) ?_ ?_
          · rw [hs.after]
          · rw [hs.after]
      | reloc | index => cases hstaged
    · refine .same (hs.phase_of_ne heq) ?_ ?_
      · rw [hs.after]
      · rw [hs.after]
  · intro p rg _
    rw [hs.after]
  · intro p rg i hrg huser
    rcases hs.ranges_before hrg with ⟨rfl, rfl⟩ | ⟨-, hrg⟩
    · right
      rcases hdata with rfl | rfl
      · rw [hs.segOf_pos hinv, hs.phase_seg]
        rfl
      · cases huser
    · exact .inl ⟨rg, hrg, huser⟩

theorem Op.Steps.noneStaged
    {o o' : Op} {a : OpAct} (h : Op.Steps env c i o lock a c' o') (hinv : c.Inv env) :
  NoneStaged env.geo c c'
  := by
  cases h with
  | allocate _ ha | allocateBad _ ha => apply NoneStaged.allocate ha (.inl rfl) hinv
  | call hph => apply NoneStaged.call
  | commit hph hlock hmay hset hv h =>
      cases h with
      | insert hown hins => exact .of_segs rfl fun hrg => Core.give_user hrg
      | replace e hown => exact .of_segs rfl fun hrg => Core.give_give_user hrg
      | _ => exact .of_segs rfl fun hrg => ⟨_, hrg, rfl⟩
  | _ => exact .of_segs rfl fun hrg => ⟨_, hrg, rfl⟩

theorem GcPhase.Relocates.noneStaged
    {p : GcPass} {r : Rec} {e : EntryInfo} {sec : ReadSection} {stage : GcStage} {a : GcAct}
    {g' : GcPhase} (h : GcPhase.Relocates env c p r e sec stage a c' g') (hinv : c.Inv env) :
  NoneStaged env.geo c c'
  := by
  cases h with
  | allocate ha => apply NoneStaged.allocate ha (.inr rfl) hinv
  | call => apply NoneStaged.call
  | repoint => exact .of_segs rfl fun hrg => Core.give_give_user hrg
  | fail => exact .update rfl rfl rfl rfl fun hrg => hrg
  | _ => exact .of_segs rfl fun hrg => ⟨_, hrg, rfl⟩

theorem GcPhase.Steps.noneStaged
    {g g' : GcPhase} {a : GcAct} (h : GcPhase.Steps env c g a c' g') (hinv : c.Inv env) :
  NoneStaged env.geo c c'
  := by
  cases h with
  | pick | readFails | walkEnd => exact .update rfl rfl rfl rfl fun hrg => hrg
  | relocate h => apply h.noneStaged hinv
  | synced hph hended => apply NoneStaged.freeSegment
  | drop => exact .of_segs rfl fun hrg => Core.give_user hrg
  | _ => exact .of_segs rfl fun hrg => ⟨_, hrg, rfl⟩

/-! ### Steps of no actor -/

/-- A segment that is staged for data after a step of a metadata callback was so before, unless the
step takes it. -/
theorem SegTable.Turns.stagedFrom
    {seg : Nat} {a : Act} {t : SegTable} (h : c.toSegTable.Turns geo seg a t)
    (hok : c.PhaseOk seg (c.phase seg)) (htake : ∀ seg, a ≠ .takeSegment seg .data)
    (hs : (t.phase seg).staged = true) :
  StagedFrom c { c with toSegTable := t } seg
  := by
  -- what is left is the data stream
  cases h with
  | @take stream _ _ _ =>
      simp only [Function.update_self] at hs
      cases stream with
      | data => exact absurd rfl (htake seg)
      | reloc | index => cases hs
  | @write stream _ _ hph | @timestamp stream _ hph _ | @live stream _ hph
  | @mdOk stream _ _ _ hph _ =>
      simp only [Function.update_self] at hs
      cases stream with
      | data => exact .stamps hph (Function.update_self _ _ _)
      | reloc | index => cases hs
  | @opened stream ts ok hph _ =>
      simp only [Function.update_self] at hs
      cases stream with
      | data =>
          refine .opens hph (Function.update_self _ _ _) ?_
          intro hmd
          rw [hph] at hok
          cases ok with
          | true => exact hok.2.1
          | false => cases hmd.symm.trans hok.2.2
      | reloc | index => cases hs
  | takeIndex | index | back | retire =>
      simp only [Function.update_self] at hs
      cases hs

/-- A segment that is being stamped goes on. -/
theorem NoneStaged.turn
    {seg : Nat} {t : SegTable} (hstep : StampStep env c seg t) (hinv : c.Inv env)
    (hfrom : (t.phase seg).staged = true → StagedFrom c { c with toSegTable := t } seg) :
  NoneStaged env.geo c { c with toSegTable := t }
  where
  phase := fun {seg'} hs => by
    by_cases heq : seg' = seg
    · subst heq
      apply hfrom hs
    · obtain ⟨hph, -, hts, hok, -⟩ := hstep.others heq
      exact .same hph hok hts
  timestamps := fun {p rg} hrg => by
    have hne : env.geo.segOf p ≠ seg := by
      rintro rfl
      have hranged := hinv.ranges.ranged hrg
      rw [hstep.unranged] at hranged
      cases hranged
    exact (hstep.others hne).2.2.1
  ranges := fun hrg huser => .inl ⟨_, hrg, huser⟩

/-- What a step of no actor stages, unless it takes a segment for data. -/
theorem Core.Inv.noneStaged
    (hinv : c.Inv env) {a : Act} (hs : c.envStep env.geo a = some c')
    (htake : ∀ seg, a ≠ .takeSegment seg .data) :
  NoneStaged env.geo c c'
  := by
  cases Core.envSteps_of_envStep hs with
  | turn hturn =>
      exact .turn (hinv.turn hturn) hinv (hturn.stagedFrom (hinv.segs.phase _) htake)
  | closeSegment => apply NoneStaged.closeWhere
  | deferFree => exact .update rfl rfl rfl rfl fun hrg => hrg
  | freeDeferred => apply NoneStaged.freeSegment
  | growFreeze | growPublish => exact .of_segs rfl fun hrg => ⟨_, hrg, rfl⟩

/-- A segment is taken for data. -/
theorem Core.takeSegment_spec
    {seg : Nat} (hs : c.takeSegment geo seg .data = some c') :
  c'.phase = Function.update c.phase seg (.stamping .data (c.segAllocNr + 1) .counted)
    ∧ c'.segMdOk = c.segMdOk ∧ c'.segTimestamps = c.segTimestamps ∧ c'.ranges = c.ranges
  := by
  obtain ⟨-, ⟨⟩⟩ := Option.ite_none_right_eq_some.mp hs
  exact ⟨rfl, rfl, rfl, rfl⟩

/-! ### The segment staged is the newest -/

/-- What is staged was so before a step, or is newer than every segment before. -/
structure Ages (geo : Geometry) (c c' : Core) : Prop where
  stages : ∀ {seg count}, c'.Stages seg count → c.Stages seg count ∨ c.segAllocNr < count
  stamps : ∀ {seg count stage'}, c'.phase seg = .stamping .data count stage' →
    (∃ stage, c.phase seg = .stamping .data count stage) ∨ c.segAllocNr < count
  timestamps : ∀ {p rg}, c.ranges p = some rg →
    c'.segTimestamps (geo.segOf p) = c.segTimestamps (geo.segOf p)

theorem NoneStaged.ages (h : NoneStaged geo c c') : Ages geo c c' where
  stages := fun hs => .inl ((h.phase hs.staged).stages hs)
  stamps := fun {seg count stage'} hph' => by
    left
    have hstages : c'.Stages seg count := .stamping hph'
    cases h.phase hstages.staged with
    | same hph _ _ => exact ⟨stage', hph.symm.trans hph'⟩
    | stamps hph hph'' =>
        cases hph'.symm.trans hph''
        exact ⟨_, hph⟩
    | opens _ hph'' _ | hands _ hph'' _ _ _ => cases hph'.symm.trans hph''
  timestamps := h.timestamps

theorem Core.takeSegment_ages {seg : Nat} (hs : c.takeSegment geo seg .data = some c') :
    Ages geo c c' := by
  obtain ⟨hph, hok, hts, hrg⟩ := Core.takeSegment_spec hs
  refine ⟨?_, ?_, fun _ => by rw [hts]⟩
  · intro seg' count hstages
    by_cases heq : seg' = seg
    · subst heq
      cases hstages with
      | stamping hph' =>
          rw [hph, Function.update_self] at hph'
          cases hph'
          right
          omega
      | opened hph' _ =>
          rw [hph, Function.update_self] at hph'
          cases hph'
    · left
      cases hstages with
      | stamping hph' =>
          rw [hph, Function.update_of_ne heq] at hph'
          exact .stamping hph'
      | opened hph' hok' =>
          rw [hph, Function.update_of_ne heq] at hph'
          rw [hok] at hok'
          rw [hts]
          exact .opened hph' hok'
  · intro seg' count stage' hph'
    by_cases heq : seg' = seg
    · subst heq
      rw [hph, Function.update_self] at hph'
      cases hph'
      right
      omega
    · left
      rw [hph, Function.update_of_ne heq] at hph'
      exact ⟨stage', hph'⟩

/-- What a step of no actor stages. -/
theorem Core.Inv.ages (hinv : c.Inv env) {a : Act} (hs : c.envStep env.geo a = some c') :
    Ages env.geo c c' := by
  by_cases htake : ∃ seg, a = .takeSegment seg .data
  · obtain ⟨seg, rfl⟩ := htake
    apply Core.takeSegment_ages hs
  · apply (hinv.noneStaged hs _).ages
    rintro seg rfl
    exact htake ⟨seg, rfl⟩

/-- The first segment that is staged. -/
theorem Core.Inv.staging_of_take
    (hinv : c.Inv env) {seg : Nat} (hs : c.takeSegment env.geo seg .data = some c')
    (hnone : ∀ seg, (c.phase seg).staged = false) :
  c'.Staging env.geo
  := by
  obtain ⟨hph, -, hts, hrg⟩ := Core.takeSegment_spec hs
  have hages := Core.takeSegment_ages hs
  have hseg : ∀ {seg'}, (c'.phase seg').staged = true → seg' = seg := by
    intro seg' hstaged
    by_contra hne
    rw [hph, Function.update_of_ne hne, hnone] at hstaged
    cases hstaged
  refine ⟨fun hs' hs'' => (hseg hs').trans (hseg hs'').symm, ?_⟩
  intro seg' count p rg i hstages hrg' _ _
  rcases hages.stages hstages with hold | hlt
  · have hstaged := hold.staged
    rw [hnone] at hstaged
    cases hstaged
  · rw [hts]
    exact Nat.lt_of_le_of_lt (hinv.timestamp_le _) hlt

variable {s s' : State}

theorem Core.Staging.of_state_step
    {a : Act} (h : s.core.Staging env.geo) (hinv : s.Inv env) (hok : SalsaOk s a)
    (hs : s.step env a = some s') :
  s'.core.Staging env.geo
  := by
  obtain ⟨i, kind, key, -, -, -, rfl⟩ | ⟨i, b, o, c', o', -, -, hstep, rfl⟩
    | ⟨b, c', g', -, hstep, rfl⟩ | ⟨c', hstep, rfl⟩ := State.step_cases hs
  · exact h.step (.of_segs rfl fun hrg => ⟨_, hrg, rfl⟩)
  · exact h.step ((Op.steps_of_step hstep).noneStaged hinv.core)
  · exact h.step ((GcPhase.steps_of_step hstep).noneStaged hinv.core)
  · by_cases htake : ∃ seg, a = .takeSegment seg .data
    · obtain ⟨seg, rfl⟩ := htake
      exact hinv.core.staging_of_take hstep hok
    · apply h.step (hinv.core.noneStaged hstep _)
      rintro seg rfl
      exact htake ⟨seg, rfl⟩

/-- Nothing is staged when `open` returns. -/
theorem Opened.staging (h : Opened env s) : s.core.Staging env.geo := by
  have hnone : ∀ {seg}, (s.core.phase seg).staged ≠ true := by
    intro seg hstaged
    rcases h.phase seg with hph | hph | hph <;> rw [hph] at hstaged <;> cases hstaged
  exact ⟨fun hs => absurd hs hnone, fun hs => absurd hs.staged hnone⟩

theorem Opened.staging_of_reach
    (h : Opened env s) (hr : Reach (State.step env) SalsaOk s s') :
  s'.Inv env ∧ s'.core.Staging env.geo
  := by
  apply hr.invariant (I := fun s => s.Inv env ∧ s.core.Staging env.geo) ⟨h.inv, h.staging⟩
  intro s₁ a s₂ hs₁ hok hstep
  exact ⟨(hs₁.1.step hstep).inv, hs₁.2.of_state_step hs₁.1 hok hstep⟩

end

end UDepot
