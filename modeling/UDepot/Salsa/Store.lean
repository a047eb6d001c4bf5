import UDepot.Salsa.View
import UDepot.Store.Opened

/-!
# The store on top of salsa

The store's shared state has its own account of the segments and the ranges of grains: what salsa
does to them is part of it as steps of their phases (`Serves`).  The account leaves out nothing that
salsa does: a run of the allocators and the collector that is seen by a frontend is followed, move
by move, by the store's steps (`store_follows`).

Salsa starts with all segments free, as for a new store.  It has no step for the segments and grains
that are restored when a store is opened again.
-/

namespace UDepot.Salsa

open Transition Relation

/-! ### The store's account of salsa -/

/-- The allocator of a stream. -/
def streamNum : Stream → Nat
  | .data => 0
  | .reloc => 1
  | .index => 2

/-- The metadata of a segment that is being stamped could not be written. -/
def Stage.failed : Stage → Bool
  | .wrote false | .okStored false => true
  | _ => false

/-- What is seen of a segment that the store has in a phase.  A segment with an index table is one
to the store, without ranges of its own, from when its metadata is written until it is free.  The
store keeps the victim of a collection while a grace period passes, which is part of freeing it. -/
def Sees : SegPhase → Seen → Prop
  | .free, t => t = .free
  | .stamping stream _ stage, t =>
      (stream = .index → Stage.failed stage = false) ∧ t = .stamping (streamNum stream)
  | .opened stream next, t => stream ≠ .index ∧ t = .opened (streamNum stream) next
  | .closed, t => t = .closed
  | .victim, t => t = .victim
  | .syncing _, _ => False
  | .deferred _, t => t = .deferred
  | .index, t => (∃ pos, t = .opened (streamNum .index) pos) ∨ t = .closed ∨ t = .victim
      ∨ t = .deferred

/-- A segment that is for an index table. -/
def ForIndex : SegPhase → Prop
  | .stamping stream _ _ => stream = .index
  | .index => True
  | _ => False

/-- The store has no ranges in a segment. -/
def Rangeless (ph : SegPhase) : Prop := ph = .free ∨ ForIndex ph

/-- A range the store has at an address. -/
def grainsOf (pba : Nat) (r : GrainRange) : Grains := ⟨pba, r.len, r.released, r.valid⟩

/-- What the store takes salsa to do, in a step of its environment, in a call that an operation or
the collector makes, and around a relocation; and read sections end. -/
inductive Serves (geo : Geometry) : Core → Core → Prop
  | env {c c' : Core} {a : UDepot.Act} (h : c.envStep geo a = some c') : Serves geo c c'
  | allocate {c c' : Core} {a : Actor} {stream : Stream} {seg len pos : Nat}
      (h : c.allocate geo a stream seg len = some (c', pos)) : Serves geo c c'
  | call {c : Core} (x : Call) : Serves geo c (c.call x)
  | pick {c : Core} {v : Nat} (h : c.phase v = .closed)
      (hall : c.allRanges geo v (·.released) = true) : Serves geo c (c.setPhase v .victim)
  | putBack {c : Core} {v : Nat} (h : c.phase v = .victim) : Serves geo c (c.setPhase v .closed)
  | relocated {c : Core} {v : Nat} (h : c.phase v = .victim) :
      Serves geo c (c.setPhase v (.syncing c.sections))
  | synced {c : Core} {v : Nat} {waits : List ReadSection} (h : c.phase v = .syncing waits)
      (hended : c.ended waits = true) : Serves geo c (c.freeSegment geo v)
  | leave {c : Core} (sec : ReadSection) : Serves geo c (c.leave sec)

/-- The store's account goes with what is seen of salsa. -/
structure Follows (cfg : Config) (c : Core) (v : View) : Prop where
  seg : ∀ x, Sees (c.phase x) (v.seg x)
  range : ∀ pba, ¬ ForIndex (c.phase (View.segOf cfg pba)) →
    v.range pba = (c.ranges pba).map (grainsOf pba)
  rangeless : ∀ pba, Rangeless (c.phase (View.segOf cfg pba)) → c.ranges pba = none
  opened : ∀ x a pos, v.seg x = .opened a pos → cfg.segToGrain x ≤ pos

/-- The sizes of salsa and of the store are the same, and salsa has an allocator for data, one for
relocation and one for index tables. -/
structure Fits (cfg : Config) (geo : Geometry) : Prop where
  segNr : cfg.segNr = geo.numSegments
  segSize : cfg.segSize = geo.segSize
  reserved : cfg.reservedPerSeg = geo.segMdGrains
  streams : cfg.streamNr = 3

variable {cfg : Config} {geo : Geometry} {c c' : Core} {v v' : View} {x pba : Nat} {ph : SegPhase}
  {t : Seen}

/-! ### Each move -/

theorem Fits.segToGrain (h : Fits cfg geo) (x : Nat) : cfg.segToGrain x = geo.segBase x := by
  rw [Config.segToGrain, h.segSize, Geometry.segBase]

theorem Fits.segOf (h : Fits cfg geo) (pba : Nat) : View.segOf cfg pba = geo.segOf pba := by
  rw [View.segOf, h.segSize, Geometry.segOf]

namespace Sees

theorem eq_free (h : Sees ph .free) : ph = .free := by
  cases ph <;> simp_all [Sees]

theorem eq_closed (h : Sees ph .closed) (hph : ph ≠ .index) : ph = .closed := by
  cases ph <;> simp_all [Sees]

theorem eq_victim (h : Sees ph .victim) (hph : ph ≠ .index) : ph = .victim := by
  cases ph <;> simp_all [Sees]

theorem eq_deferred (h : Sees ph .deferred) (hph : ph ≠ .index) :
    ∃ waits, ph = .deferred waits := by
  cases ph <;> simp_all [Sees]

theorem eq_stamping
    {a : Nat} (h : Sees ph (.stamping a)) :
  ∃ stream ts stage, ph = .stamping stream ts stage ∧ streamNum stream = a
    ∧ (stream = .index → Stage.failed stage = false)
  := by
  cases ph with
  | stamping stream ts stage => exact ⟨stream, ts, stage, rfl, (Seen.stamping.inj h.2).symm, h.1⟩
  | _ => simp [Sees] at h

theorem eq_opened
    {a pos : Nat} (h : Sees ph (.opened a pos)) :
  (∃ stream, ph = .opened stream pos ∧ stream ≠ .index ∧ streamNum stream = a)
    ∨ ph = .index ∧ streamNum .index = a
  := by
  cases ph with
  | opened stream next =>
      obtain ⟨hstream, ⟨⟩⟩ := h
      exact .inl ⟨stream, rfl, hstream, rfl⟩
  | index =>
      simp only [Sees, Seen.opened.injEq, reduceCtorEq, or_false] at h
      obtain ⟨-, ha, -⟩ := h
      exact .inr ⟨rfl, ha.symm⟩
  | _ => simp [Sees] at h

end Sees

theorem not_rangeless_opened {stream : Stream} {pos : Nat} : ¬ Rangeless (.opened stream pos) := by
  simp [Rangeless, ForIndex]

theorem Follows.sees (h : Follows cfg c v) (hx : v.seg x = t) : Sees (c.phase x) t := hx ▸ h.seg x

/-- The store's step changes the phase of one segment. -/
theorem Follows.setSeg
    (h : Follows cfg c v) (hphase : c'.phase = Function.update c.phase x ph)
    (hranges : c'.ranges = c.ranges) (hsees : Sees ph t)
    (hindex : ForIndex (c.phase x) → ForIndex ph)
    (hrangeless : Rangeless ph → Rangeless (c.phase x))
    (hopened : ∀ a pos, t = .opened a pos → cfg.segToGrain x ≤ pos) :
  Follows cfg c' (v.setSeg x t)
  where
  seg := by
    intro y
    rw [hphase]
    simp only [View.setSeg]
    by_cases hy : y = x
    · subst hy
      rwa [Function.update_self, Function.update_self]
    · rw [Function.update_of_ne hy, Function.update_of_ne hy]
      exact h.seg y
  range := by
    intro pba hnot
    rw [hranges]
    apply h.range pba
    rw [hphase] at hnot
    by_cases hy : View.segOf cfg pba = x
    · rw [hy, Function.update_self] at hnot
      rw [hy]
      exact mt hindex hnot
    · rwa [Function.update_of_ne hy] at hnot
  rangeless := by
    intro pba hnone
    rw [hranges]
    apply h.rangeless pba
    rw [hphase] at hnone
    by_cases hy : View.segOf cfg pba = x
    · rw [hy, Function.update_self] at hnone
      rw [hy]
      exact hrangeless hnone
    · rwa [Function.update_of_ne hy] at hnone
  opened := by
    intro y a pos hy
    simp only [View.setSeg] at hy
    by_cases hyx : y = x
    · subst hyx
      rw [Function.update_self] at hy
      exact hopened a pos hy
    · rw [Function.update_of_ne hyx] at hy
      exact h.opened y a pos hy

/-- What becomes of a segment with an index table is seen, and the store has the segment as
before. -/
theorem Follows.setSeg_index
    (h : Follows cfg c v) (hx : c.phase x = .index) (hsees : Sees .index t)
    (hopened : ∀ a pos, t = .opened a pos → cfg.segToGrain x ≤ pos) :
  Follows cfg c (v.setSeg x t)
  := by
  have hphase : c.phase = Function.update c.phase x .index := by rw [← hx, Function.update_eq_self]
  have hindex : ForIndex (c.phase x) := by
    rw [hx]
    trivial
  exact h.setSeg hphase rfl hsees (fun _ => trivial) (fun _ => .inr hindex) hopened

/-- The store's step changes the range at one address. -/
theorem Follows.setRange
    {r : GrainRange} (h : Follows cfg c v) (hphase : c'.phase = c.phase)
    (hranges : c'.ranges = Function.update c.ranges pba (some r))
    (hused : ¬ Rangeless (c.phase (View.segOf cfg pba))) :
  Follows cfg c' (v.setRange pba (grainsOf pba r))
  where
  seg := fun y => hphase ▸ h.seg y
  range := by
    intro q hnot
    rw [hranges]
    simp only [View.setRange]
    by_cases hq : q = pba
    · subst hq
      rw [Function.update_self, Function.update_self, Option.map_some]
    · rw [Function.update_of_ne hq, Function.update_of_ne hq]
      exact h.range q (hphase ▸ hnot)
  rangeless := by
    intro q hnone
    rw [hphase] at hnone
    have hq : q ≠ pba := by
      rintro rfl
      exact hused hnone
    rw [hranges, Function.update_of_ne hq]
    exact h.rangeless q hnone
  opened := h.opened

/-- Ranges of an index table are none of the store's. -/
theorem Follows.setRange_index
    {r : Grains} (h : Follows cfg c v) (hindex : ForIndex (c.phase (View.segOf cfg pba))) :
  Follows cfg c (v.setRange pba r)
  where
  seg := h.seg
  range := by
    intro q hnot
    have hq : q ≠ pba := by
      rintro rfl
      exact hnot hindex
    simp only [View.setRange, Function.update_of_ne hq]
    exact h.range q hnot
  rangeless := h.rangeless
  opened := h.opened

/-- A call changes the range at one address, or that of an index table. -/
theorem Follows.mapRange
    {f : GrainRange → GrainRange} {g : Grains → Grains} {r : Grains} (h : Follows cfg c v)
    (hr : v.range pba = some r) (hfg : ∀ r, g (grainsOf pba r) = grainsOf pba (f r)) :
  Follows cfg c (v.setRange pba (g r)) ∨ Follows cfg (c.mapRange pba f) (v.setRange pba (g r))
  := by
  by_cases hindex : ForIndex (c.phase (View.segOf cfg pba))
  · exact .inl (h.setRange_index hindex)
  · rw [h.range pba hindex] at hr
    obtain ⟨r₀, hr₀, rfl⟩ := Option.map_eq_some_iff.mp hr
    rw [hfg]
    refine .inr (h.setRange rfl ?_ ?_)
    · rw [Core.mapRange, hr₀, Option.map_some]
    · intro hnone
      rw [h.rangeless pba hnone] at hr₀
      cases hr₀

/-- A condition on all ranges of a segment. -/
theorem Follows.allRanges
    {p : Grains → Bool} {p' : GrainRange → Bool} (hfits : Fits cfg geo) (h : Follows cfg c v)
    (hx : ¬ ForIndex (c.phase x)) (hall : v.All cfg x p) (hp : ∀ pba r, p (grainsOf pba r) = p' r) :
  c.allRanges geo x p' = true
  := by
  rw [Core.allRanges, List.all_eq_true]
  intro k hk
  rw [Option.all_eq_true]
  intro r hr
  have hseg : View.segOf cfg (geo.segBase x + k) = x := by
    rw [List.mem_range] at hk
    rw [View.segOf, hfits.segSize, Geometry.segBase]
    apply Nat.div_eq_of_lt_le (Nat.le_add_right _ _)
    rw [Nat.succ_mul]
    exact Nat.add_lt_add_left hk _
  rw [← hp (geo.segBase x + k)]
  apply hall (geo.segBase x + k) _ hseg
  rw [h.range _ (hseg.symm ▸ hx), hr, Option.map_some]

/-- Steps that bring one segment to a phase and leave the ranges as they are. -/
def Brings (geo : Geometry) (c : Core) (x : Nat) (ph : SegPhase) : Prop :=
  ∃ c', ReflTransGen (Serves geo) c c' ∧ c'.phase = Function.update c.phase x ph
    ∧ c'.ranges = c.ranges

theorem Brings.refl (h : c.phase x = ph) : Brings geo c x ph :=
  ⟨c, .refl, by rw [← h, Function.update_eq_self], rfl⟩

theorem Brings.head
    {ph₁ : SegPhase} (hs : Serves geo c c') (hphase : c'.phase = Function.update c.phase x ph₁)
    (hranges : c'.ranges = c.ranges) (h : c'.phase x = ph₁ → Brings geo c' x ph) :
  Brings geo c x ph
  := by
  obtain ⟨c'', hsteps, hphase', hranges'⟩ := h (by rw [hphase, Function.update_self])
  refine ⟨c'', .head hs hsteps, ?_, hranges'.trans hranges⟩
  rw [hphase', hphase, Function.update_idem]

theorem Brings.follows
    (hb : Brings geo c x ph) (h : Follows cfg c v) (hsees : Sees ph t)
    (hindex : ForIndex (c.phase x) → ForIndex ph)
    (hrangeless : Rangeless ph → Rangeless (c.phase x))
    (hopened : ∀ a pos, t = .opened a pos → cfg.segToGrain x ≤ pos) :
  ∃ c', ReflTransGen (Serves geo) c c' ∧ Follows cfg c' (v.setSeg x t)
  := by
  obtain ⟨c', hsteps, hphase, hranges⟩ := hb
  exact ⟨c', hsteps, h.setSeg hphase hranges hsees hindex hrangeless hopened⟩

theorem Brings.env
    {a : UDepot.Act} {ph₁ : SegPhase} (hs : c.envStep geo a = some c')
    (hphase : c'.phase = Function.update c.phase x ph₁) (hranges : c'.ranges = c.ranges)
    (h : c'.phase x = ph₁ → Brings geo c' x ph) :
  Brings geo c x ph
  :=
  .head (.env hs) hphase hranges h

section

variable {stream : Stream} {ts : Nat} {stage : Stage}

/-- What a segment is after its metadata callback. -/
def stamped (geo : Geometry) (x : Nat) : Stream → SegPhase
  | .index => .index
  | stream => .opened stream (geo.segBase x)

theorem stamped_of_ne (h : stream ≠ .index) :
    stamped geo x stream = .opened stream (geo.segBase x) := by
  cases stream with
  | index => exact absurd rfl h
  | _ => rfl

/-- The end of the metadata callback. -/
theorem brings_okStored
    {ok : Bool} (hok : stream = .index → ok = true)
    (h : c.phase x = .stamping stream ts (.okStored ok)) :
  Brings geo c x (stamped geo x stream)
  := by
  by_cases hstream : stream = .index
  · subst hstream
    obtain rfl := hok rfl
    have hs : c.finishStamp geo x = some { c with
        segLive := Function.update c.segLive x false
        phase := Function.update c.phase x .index } := by
      rw [Core.finishStamp, h]
    exact .env (a := .finishStamp x) hs rfl rfl .refl
  · rw [stamped_of_ne hstream]
    have hs : c.finishStamp geo x = some (c.setPhase x (.opened stream (geo.segBase x))) := by
      rw [Core.finishStamp, h]
      cases stream with
      | index => exact absurd rfl hstream
      | _ => rfl
    exact .env (a := .finishStamp x) hs rfl rfl .refl

theorem brings_failed (hstream : stream ≠ .index)
    (h : c.phase x = .stamping stream ts (.wrote false)) :
    Brings geo c x (stamped geo x stream) := by
  have hs : c.storeMdOk x = some { c with
      segMdOk := Function.update c.segMdOk x false
      phase := Function.update c.phase x (.stamping stream ts (.okStored false)) } := by
    rw [Core.storeMdOk, h]
    cases stream with
    | index => exact absurd rfl hstream
    | _ => rfl
  exact .env (a := .storeMdOk x) hs rfl rfl (brings_okStored fun heq => absurd heq hstream)

theorem brings_liveStored (h : c.phase x = .stamping stream ts .liveStored) :
    Brings geo c x (stamped geo x stream) := by
  have hs : c.storeMdOk x = some { c with
      segMdOk := Function.update c.segMdOk x true
      phase := Function.update c.phase x (.stamping stream ts (.okStored true)) } := by
    rw [Core.storeMdOk, h]
    cases stream <;> rfl
  exact .env (a := .storeMdOk x) hs rfl rfl (brings_okStored fun _ => rfl)

theorem brings_tsStored (h : c.phase x = .stamping stream ts .tsStored) :
    Brings geo c x (stamped geo x stream) := by
  have hs : c.storeLive x = some { c with
      segLive := Function.update c.segLive x true
      phase := Function.update c.phase x (.stamping stream ts .liveStored) } := by
    rw [Core.storeLive, h]
  exact .env (a := .storeLive x) hs rfl rfl brings_liveStored

/-- The metadata is written: an index segment is marked so, another gets its count and is live
first. -/
theorem brings_wrote (h : c.phase x = .stamping stream ts (.wrote true)) :
    Brings geo c x (stamped geo x stream) := by
  by_cases hstream : stream = .index
  · subst hstream
    have hs : c.storeMdOk x = some { c with
        segMdOk := Function.update c.segMdOk x true
        phase := Function.update c.phase x (.stamping .index ts (.okStored true)) } := by
      rw [Core.storeMdOk, h]
    exact .env (a := .storeMdOk x) hs rfl rfl (brings_okStored fun _ => rfl)
  · have hs : c.storeTimestamp x = some { c with
        segTimestamps := Function.update c.segTimestamps x ts
        phase := Function.update c.phase x (.stamping stream ts .tsStored) } := by
      rw [Core.storeTimestamp, h]
      cases stream with
      | index => exact absurd rfl hstream
      | _ => rfl
    exact .env (a := .storeTimestamp x) hs rfl rfl brings_tsStored

theorem brings_counted (h : c.phase x = .stamping stream ts .counted) :
    Brings geo c x (stamped geo x stream) := by
  have hs : c.writeSegMd x .ok = some { c with
      segMd := Function.update c.segMd x (some ⟨Core.ctlrOf stream, ts⟩)
      phase := Function.update c.phase x (.stamping stream ts (.wrote true)) } := by
    rw [Core.writeSegMd, h]
  exact .env (a := .writeSegMd x .ok) hs rfl rfl brings_wrote

/-- However far the metadata callback is, its segment comes to be staged. -/
theorem brings_stamped
    (hfailed : stream = .index → Stage.failed stage = false)
    (h : c.phase x = .stamping stream ts stage) :
  Brings geo c x (stamped geo x stream)
  := by
  cases stage with
  | counted => exact brings_counted h
  | wrote ok =>
      cases ok with
      | false => exact brings_failed (fun heq => absurd (hfailed heq) (by decide)) h
      | true => exact brings_wrote h
  | tsStored => exact brings_tsStored h
  | liveStored => exact brings_liveStored h
  | okStored ok =>
      refine brings_okStored ?_ h
      intro heq
      cases ok with
      | false => exact absurd (hfailed heq) (by decide)
      | true => rfl

end

/-- All read sections end. -/
theorem serves_leave (geo : Geometry) (c : Core) :
    ∃ c', ReflTransGen (Serves geo) c c' ∧ c'.phase = c.phase ∧ c'.ranges = c.ranges
      ∧ c'.sections = [] := by
  induction hsecs : c.sections generalizing c with
  | nil => exact ⟨c, .refl, rfl, rfl, hsecs⟩
  | cons sec secs ih =>
      have hleave : (c.leave sec).sections = secs := by
        rw [Core.leave, hsecs]
        exact List.erase_cons_head ..
      obtain ⟨c', hsteps, hphase, hranges, hnil⟩ := ih (c.leave sec) hleave
      exact ⟨c', .head (.leave sec) hsteps, hphase, hranges, hnil⟩

theorem ended_of_nil {waits : List ReadSection} (h : c.sections = []) : c.ended waits = true := by
  rw [Core.ended, h, List.all_eq_true]
  intro sec _
  rfl

theorem closeSegment_phase
    {stream : Stream} {pos : Nat} (h : c.phase x = .opened stream pos) :
  (c.closeSegment x).phase = Function.update c.phase x .closed
  := by
  funext y
  simp only [Core.closeSegment, Core.closeWhere]
  by_cases hy : y = x
  · subst hy
    rw [h, Function.update_self]
    simp
  · rw [Function.update_of_ne hy]
    split
    · rename_i hph
      rw [hph]
      simp [hy]
    · rfl

theorem freeSegment_setPhase (ph : SegPhase) :
    (c.setPhase x ph).freeSegment geo x = c.freeSegment geo x := by
  simp only [Core.freeSegment, Core.setPhase, Function.update_idem]

/-- A free segment's ranges are forgotten. -/
theorem Follows.freed
    (h : Follows cfg c v) (hphase : c'.phase = Function.update c.phase x .free)
    (hranges : ∀ q, c'.ranges q = if View.segOf cfg q = x then none else c.ranges q) :
  Follows cfg c' ((v.setSeg x .free).forget cfg x)
  where
  seg := by
    intro y
    rw [hphase]
    simp only [View.forget, View.setSeg]
    by_cases hy : y = x
    · subst hy
      rw [Function.update_self, Function.update_self, Sees]
    · rw [Function.update_of_ne hy, Function.update_of_ne hy]
      exact h.seg y
  range := by
    intro q hnot
    simp only [View.forget, View.setSeg, hranges]
    by_cases hq : View.segOf cfg q = x
    · rw [if_pos hq, if_pos hq, Option.map_none]
    · rw [if_neg hq, if_neg hq]
      rw [hphase, Function.update_of_ne hq] at hnot
      exact h.range q hnot
  rangeless := by
    intro q hnone
    rw [hranges]
    by_cases hq : View.segOf cfg q = x
    · rw [if_pos hq]
    · rw [if_neg hq]
      rw [hphase, Function.update_of_ne hq] at hnone
      exact h.rangeless q hnone
  opened := by
    intro y a pos hy
    simp only [View.forget, View.setSeg] at hy
    by_cases hyx : y = x
    · subst hyx
      rw [Function.update_self] at hy
      cases hy
    · rw [Function.update_of_ne hyx] at hy
      exact h.opened y a pos hy

theorem Follows.freeSegment
    (hfits : Fits cfg geo) (h : Follows cfg c v) :
  Follows cfg (c.freeSegment geo x) ((v.setSeg x .free).forget cfg x)
  := by
  refine h.freed rfl fun q => ?_
  rw [hfits.segOf]
  rfl

/-- A segment is freed after the read sections have ended; that of an index table when the table is
retired. -/
theorem Follows.free
    (hfits : Fits cfg geo) (h : Follows cfg c v) (hx : v.seg x = .victim ∨ v.seg x = .deferred) :
  ∃ c', ReflTransGen (Serves geo) c c' ∧ Follows cfg c' ((v.setSeg x .free).forget cfg x)
  := by
  obtain ⟨c₁, hsteps, hphase, hranges, hnil⟩ := serves_leave geo c
  have h₁ : Follows cfg c₁ v :=
    ⟨hphase ▸ h.seg, hphase ▸ hranges ▸ h.range, hphase ▸ hranges ▸ h.rangeless, h.opened⟩
  by_cases hindex : c₁.phase x = .index
  · have hs : c₁.retireIndexSegment x = some (c₁.setPhase x .free) := by
      rw [Core.retireIndexSegment, hindex]
    refine ⟨_, hsteps.tail (.env (a := .retireIndexSegment x) hs), h₁.freed rfl fun q => ?_⟩
    by_cases hq : View.segOf cfg q = x
    · rw [if_pos hq]
      exact h₁.rangeless q (.inr (by rw [hq, hindex]; trivial))
    · rw [if_neg hq]
      rfl
  · obtain hx | hx := hx
    · have hvictim := (h₁.sees hx).eq_victim hindex
      have hsyncing : (c₁.setPhase x (.syncing c₁.sections)).phase x = .syncing c₁.sections :=
        Function.update_self ..
      refine ⟨_, (hsteps.tail (.relocated hvictim)).tail (.synced hsyncing (ended_of_nil hnil)), ?_⟩
      have hfree := h₁.freeSegment (x := x) hfits
      rwa [← freeSegment_setPhase (.syncing c₁.sections)] at hfree
    · obtain ⟨waits, hwaits⟩ := (h₁.sees hx).eq_deferred hindex
      have hs : c₁.freeDeferred geo x = some (c₁.freeSegment geo x) := by
        rw [Core.freeDeferred, hwaits]
        exact if_pos (ended_of_nil hnil)
      exact ⟨_, hsteps.tail (.env (a := .freeDeferred x) hs), h₁.freeSegment hfits⟩

/-- A segment is taken for one of the three streams. -/
theorem Follows.take
    {a : Nat} (hfits : Fits cfg geo) (h : Follows cfg c v) (hfree : v.seg x = .free)
    (hx : x < cfg.segNr) (ha : a < cfg.streamNr) :
  ∃ c', ReflTransGen (Serves geo) c c' ∧ Follows cfg c' (v.setSeg x (.stamping a))
  := by
  have hphase := (h.sees hfree).eq_free
  have hlt : x < geo.numSegments := hfits.segNr ▸ hx
  have hindex : ForIndex (c.phase x) → False := by
    rw [hphase]
    exact id
  rw [hfits.streams] at ha
  obtain rfl | rfl | rfl : a = 0 ∨ a = 1 ∨ a = 2 := by omega
  · have hs : c.takeSegment geo x .data = _ := if_pos ⟨hphase, hlt, by decide⟩
    have hb : Brings geo c x _ := .env (a := .takeSegment x .data) hs rfl rfl .refl
    exact hb.follows h ⟨by rintro ⟨⟩, rfl⟩ (fun hi => (hindex hi).elim) (fun _ => .inl hphase)
      (by rintro _ _ ⟨⟩)
  · have hs : c.takeSegment geo x .reloc = _ := if_pos ⟨hphase, hlt, by decide⟩
    have hb : Brings geo c x _ := .env (a := .takeSegment x .reloc) hs rfl rfl .refl
    exact hb.follows h ⟨by rintro ⟨⟩, rfl⟩ (fun hi => (hindex hi).elim) (fun _ => .inl hphase)
      (by rintro _ _ ⟨⟩)
  · have hs : c.takeIndexSegment geo x = _ := if_pos ⟨hphase, hlt⟩
    have hb : Brings geo c x _ := .env (a := .takeIndexSegment x) hs rfl rfl .refl
    exact hb.follows h ⟨fun _ => rfl, rfl⟩ (fun _ => rfl) (fun _ => .inl hphase) (by rintro _ _ ⟨⟩)

/-- A segment is staged after its metadata callback. -/
theorem Follows.stage
    {a : Nat} (hfits : Fits cfg geo) (h : Follows cfg c v) (hx : v.seg x = .stamping a) :
  ∃ c', ReflTransGen (Serves geo) c c' ∧ Follows cfg c' (v.setSeg x (.opened a (cfg.segToGrain x)))
  := by
  obtain ⟨stream, ts, stage, hphase, rfl, hfailed⟩ := (h.sees hx).eq_stamping
  have hopened : ∀ b pos, Seen.opened (streamNum stream) (cfg.segToGrain x) = .opened b pos →
      cfg.segToGrain x ≤ pos := by
    rintro b pos ⟨⟩
    exact Nat.le_refl _
  refine (brings_stamped hfailed hphase).follows h ?_ ?_ ?_ hopened
  · cases stream with
    | index => exact .inl ⟨_, rfl⟩
    | data | reloc =>
        rw [hfits.segToGrain]
        exact ⟨by rintro ⟨⟩, rfl⟩
  · rw [hphase]
    rintro ⟨⟩
    trivial
  · rw [hphase]
    intro hnone
    refine .inr ?_
    cases stream with
    | index => rfl
    | data | reloc => exact absurd hnone not_rangeless_opened

/-- Grains are handed out. -/
theorem Follows.allocate
    {a pos len : Nat} (hfits : Fits cfg geo) (h : Follows cfg c v) (hx : v.seg x = .opened a pos)
    (hlen : 0 < len) (hroom : pos + len + cfg.reservedPerSeg ≤ cfg.segToGrain x + cfg.segSize) :
  ∃ c', ReflTransGen (Serves geo) c c'
    ∧ Follows cfg c' ((v.setSeg x (.opened a (pos + len))).setRange pos ⟨pos, len, false, true⟩)
  := by
  have hbase := h.opened x a pos hx
  have hpos : View.segOf cfg pos = x := segOf_eq hbase (by omega)
  have hopened : ∀ b next, Seen.opened a (pos + len) = .opened b next →
      cfg.segToGrain x ≤ next := by
    rintro b next ⟨⟩
    omega
  obtain ⟨stream, hphase, hstream, rfl⟩ | ⟨hphase, rfl⟩ := (h.sees hx).eq_opened
  · have hfit : pos + len ≤ geo.segBase x + geo.dataGrains := by
      rw [hfits.segToGrain, hfits.segSize, hfits.reserved] at hroom
      rw [Geometry.dataGrains]
      omega
    have h₁ : Follows cfg (c.setPhase x (.opened stream (pos + len))) _ :=
      h.setSeg rfl rfl ⟨hstream, rfl⟩ (by rw [hphase]; exact False.elim)
        (fun hnone => absurd hnone not_rangeless_opened) hopened
    have hs : c.allocate geo .gc stream x len = some ({ c with
        phase := Function.update c.phase x (.opened stream (pos + len))
        ranges := Function.update c.ranges pos (some ⟨len, false, .gc, .writer .gc⟩) }, pos) := by
      rw [Core.allocate, hphase]
      exact if_pos ⟨rfl, hlen, hfit⟩
    refine ⟨_, .single (.allocate hs), ?_⟩
    refine h₁.setRange (r := ⟨len, false, .gc, .writer .gc⟩) rfl rfl ?_
    simp only [hpos, Core.setPhase, Function.update_self]
    exact not_rangeless_opened
  · have h₁ := h.setSeg_index hphase (.inl ⟨_, rfl⟩) hopened
    exact ⟨c, .refl, h₁.setRange_index (by rw [hpos, hphase]; trivial)⟩

theorem Follows.move
    (hfits : Fits cfg geo) (h : Follows cfg c v) (hm : View.Moves cfg v v') :
  ∃ c', ReflTransGen (Serves geo) c c' ∧ Follows cfg c' v'
  := by
  cases hm with
  | take hfree hx ha => exact h.take hfits hfree hx ha
  | stage hseg => exact h.stage hfits hseg
  | allocate hseg hlen hroom => exact h.allocate hfits hseg hlen hroom
  | close hseg =>
      obtain ⟨stream, hphase, hstream, rfl⟩ | ⟨hphase, rfl⟩ := (h.sees hseg).eq_opened
      · have hb : Brings geo c _ .closed :=
          .env (a := .closeSegment _) rfl (closeSegment_phase hphase) rfl .refl
        exact hb.follows h rfl (by rw [hphase]; exact id) (by simp [Rangeless, ForIndex])
          (by rintro _ _ ⟨⟩)
      · exact ⟨c, .refl, h.setSeg_index hphase (.inr (.inl rfl)) (by rintro _ _ ⟨⟩)⟩
  | @release pba r hr hrel =>
      obtain h' | h' := h.mapRange (f := fun r => { r with released := true })
        (g := fun r => { r with released := true }) hr fun _ => rfl
      · exact ⟨c, .refl, h'⟩
      · exact ⟨_, .single (.call (.release _ r.len)), h'⟩
  | @invalidate pba r hr hvalid =>
      obtain h' | h' := h.mapRange (f := fun r => { r with holder := .nobody })
        (g := fun r => { r with valid := false }) hr fun _ => rfl
      · exact ⟨c, .refl, h'⟩
      · exact ⟨_, .single (.call (.invalidate _ r.len)), h'⟩
  | @pick x hseg hall =>
      by_cases hindex : c.phase x = .index
      · exact ⟨c, .refl, h.setSeg_index hindex (.inr (.inr (.inl rfl))) (by rintro _ _ ⟨⟩)⟩
      · have hphase := (h.sees hseg).eq_closed hindex
        have hserves := Serves.pick hphase
          (h.allRanges hfits (by rw [hphase]; exact id) hall fun _ _ => rfl)
        have hb : Brings geo c x .victim := .head hserves rfl rfl .refl
        exact hb.follows h rfl (by rw [hphase]; exact id) (by simp [Rangeless, ForIndex])
          (by rintro _ _ ⟨⟩)
  | @putBack x hseg =>
      by_cases hindex : c.phase x = .index
      · exact ⟨c, .refl, h.setSeg_index hindex (.inr (.inl rfl)) (by rintro _ _ ⟨⟩)⟩
      · have hphase := (h.sees hseg).eq_victim hindex
        have hb : Brings geo c x .closed := .head (.putBack hphase) rfl rfl .refl
        exact hb.follows h rfl (by rw [hphase]; exact id) (by simp [Rangeless, ForIndex])
          (by rintro _ _ ⟨⟩)
  | @defer x hseg hall =>
      by_cases hindex : c.phase x = .index
      · exact ⟨c, .refl, h.setSeg_index hindex (.inr (.inr (.inr rfl))) (by rintro _ _ ⟨⟩)⟩
      · have hphase := (h.sees hseg).eq_closed hindex
        have hs : c.deferFree geo x = _ :=
          if_pos ⟨hphase, h.allRanges hfits (by rw [hphase]; exact id) hall fun _ _ => rfl⟩
        have hb : Brings geo c x _ := .env (a := .deferFree x) hs rfl rfl .refl
        exact hb.follows h rfl (by rw [hphase]; exact id) (by simp [Rangeless, ForIndex])
          (by rintro _ _ ⟨⟩)
  | free hseg hall => exact h.free hfits hseg

/-! ### Whole runs -/

theorem Follows.moves
    (hfits : Fits cfg geo) (h : Follows cfg c v) (hm : ReflTransGen (View.Moves cfg) v v') :
  ∃ c', ReflTransGen (Serves geo) c c' ∧ Follows cfg c' v'
  := by
  induction hm with
  | refl => exact ⟨c, .refl, h⟩
  | tail _ hmove ih =>
      obtain ⟨c₁, hsteps, h₁⟩ := ih
      obtain ⟨c', hsteps', h'⟩ := h₁.move hfits hmove
      exact ⟨c', hsteps.trans hsteps', h'⟩

/-- A new store, with salsa's segments all free. -/
theorem fresh_follows (cfg : Config) (bits : Nat) :
    Follows cfg (UDepot.State.fresh bits).core ((State.init cfg).view cfg) := by
  rw [view_init]
  exact ⟨fun _ => rfl, fun _ _ => rfl, fun _ _ => rfl, by rintro _ _ _ ⟨⟩⟩

/-- Every run of the allocators and the collector is followed by steps of the store's shared state,
from states that go together to states that do; so is every run from the beginning, in a new
store. -/
theorem store_follows
    (hfits : Fits cfg geo) :
  (∀ s s' c, Reachable cfg s → Reach (State.step cfg) (Sound cfg) s s' →
    Follows cfg c (s.view cfg) →
      ∃ c', ReflTransGen (Serves geo) c c' ∧ Follows cfg c' (s'.view cfg))
    ∧ ∀ s bits, Reachable cfg s →
      ∃ c, ReflTransGen (Serves geo) (UDepot.State.fresh bits).core c ∧ Follows cfg c (s.view cfg)
  := by
  constructor
  · intro s s' c hs hrun h
    exact h.moves hfits (hs.inv.moves hrun)
  · intro s bits hs
    exact (fresh_follows cfg bits).moves hfits ((Reachable.inv .refl).moves hs)

/-- Four segments of eight grains, and allocators for data, relocation and index tables. -/
def threeStreams : Config := { fourSegments with streamNr := 3, defers := true }

/-- An index table gets a segment, whose grains are released once it is mapped, and data gets
grains. -/
def tableActs : List Act :=
  ([.allocate 0 2 7] : List Act) ++ List.replicate 8 (.go 0)
    ++ ([.release 0 2 1 0, .go 0, .popDone 0 2, .go 0, .go 0, .allocate 0 0 3] : List Act)
    ++ List.replicate 7 (.go 0)

def tableRun : State :=
  (guarded (State.step threeStreams) (Sound threeStreams) (.init threeStreams) tableActs).getD
    (.init threeStreams)

theorem tableRun_reachable : Reachable threeStreams tableRun := by
  have hsome : (guarded (State.step threeStreams) (Sound threeStreams) (.init threeStreams)
      tableActs).isSome := by
    decide +kernel
  obtain ⟨s, hs⟩ := Option.isSome_iff_exists.mp hsome
  rw [tableRun, hs]
  exact Reach.of_guarded hs

-- The segment with the table waits in salsa to be collected.
theorem fresh_follows_table :
    tableRun.queues .xnp = [1] ∧ tableRun.phase 0 = .got (some 16)
      ∧ ∃ c, ReflTransGen (Serves StoreEnv.small.geo) (UDepot.State.fresh 0).core c
        ∧ Follows threeStreams c (tableRun.view threeStreams) := by
  refine ⟨by decide +kernel, by decide +kernel, ?_⟩
  exact (store_follows ⟨rfl, rfl, rfl, rfl⟩).2 tableRun 0 tableRun_reachable

end UDepot.Salsa
