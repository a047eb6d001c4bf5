import UDepot.Salsa.Steps

/-!
# Runs of the allocators and the collector

What each step that a frontend may take does, which keeps the segments in order (`Inv.step`).  A
frontend releases and invalidates grains once, asks for no more grains than a segment has, and says
that a segment was relocated when none of its grains is valid any more (`Sound`).

In every state that such steps lead to, grains that are valid are not handed out again, no segment
is lost or in two places, no assertion of the code fails, and the collector finds a segment if there
is one.
-/

namespace UDepot.Salsa

open Custody Transition

/-- What a frontend guarantees. -/
def Sound (cfg : Config) (s : State) : Act → Prop
  | .allocate _ a len => 0 < len ∧ len + cfg.reservedPerSeg ≤ cfg.segSize ∧ a < cfg.streamNr
  | .release _ _ x k => ∀ r ∈ (s.grains x)[k]?, r.released = false
  | .invalidate _ x k | .invalidateReloc x k => ∀ r ∈ (s.grains x)[k]?, r.valid = true
  | .relocated i ok => ok = true → ∀ x ∈ (s.phase i).hand, live (s.grains x) = 0
  | _ => True

instance (cfg : Config) (s : State) : (a : Act) → Decidable (Sound cfg s a)
  | .allocate _ a len => inferInstanceAs
      (Decidable (0 < len ∧ len + cfg.reservedPerSeg ≤ cfg.segSize ∧ a < cfg.streamNr))
  | .release _ _ x k => inferInstanceAs (Decidable (∀ r ∈ (s.grains x)[k]?, r.released = false))
  | .invalidate _ x k => inferInstanceAs (Decidable (∀ r ∈ (s.grains x)[k]?, r.valid = true))
  | .invalidateReloc x k => inferInstanceAs (Decidable (∀ r ∈ (s.grains x)[k]?, r.valid = true))
  | .relocated i ok =>
      inferInstanceAs (Decidable (ok = true → ∀ x ∈ (s.phase i).hand, live (s.grains x) = 0))
  | .drain .. | .popDone .. | .freeDeferred .. | .collect _ | .go _ =>
      inferInstanceAs (Decidable True)

/-- A state that steps of a sound frontend lead to. -/
def Reachable (cfg : Config) (s : State) : Prop :=
  Reach (State.step cfg) (Sound cfg) (.init cfg) s

variable {cfg : Config} {s s' : State} {i a b x k len : Nat} {act : Act}

/-! ### What each step does -/

theorem Inv.go (h : Inv cfg s) (hgo : s.go cfg i = some s') : Does cfg s s' := by
  have hs := hgo
  cases hi : s.phase i <;> simp only [State.go, hi, reduceCtorEq, Option.some.injEq] at hs
  -- the calls of the allocators
  case got g =>
    subst hs
    exact .goto hi rfl rfl rfl rfl rfl (.of trivial trivial rfl)
  case scan a len => exact hs ▸ h.scan hi
  case drain a => exact hs ▸ h.drainHead hi
  case recycle a k x rem => exact hs ▸ h.releaseRest hi
  case toDone a k x => exact hs ▸ h.toDone hi
  case getSeg a len => exact hs ▸ h.getFreeSeg hi
  case prepare a len x => exact hs ▸ h.prepareSeg hi
  case segMd a len x => exact hs ▸ h.segMd hi
  case toStage a len x =>
    obtain ⟨-, ⟨⟩⟩ := Option.ite_none_right_eq_some.mp hs
    exact h.toStage hi
  case relock a len =>
    obtain ⟨hfree, ⟨⟩⟩ := Option.ite_none_right_eq_some.mp hs
    exact .stay ⟨hi, rfl, rfl, rfl, rfl, rfl, rfl, rfl, .same rfl, .take hfree rfl, .drop rfl,
      .of trivial (h.phaseOk hi).len rfl⟩
  case giveUp a =>
    subst hs
    exact .stay ⟨hi, rfl, rfl, rfl, rfl, rfl, rfl, rfl, .same rfl, .same rfl, .drop rfl,
      .of trivial trivial rfl⟩
  -- the bins
  case destaged x => exact h.destaged hi hgo
  case pushXnp x => exact hs ▸ h.pushonePopone hi
  case rebin x full => exact h.rebin hi hgo
  case addToBin x b => exact hs ▸ h.addToBin hi
  case activate x b =>
    obtain ⟨-, ⟨⟩⟩ := Option.ite_none_right_eq_some.mp hs
    exact h.activate hi
  case recycleSeg x => exact hs ▸ h.recycleZero hi rfl rfl rfl rfl rfl rfl rfl trivial trivial rfl
  case putFree x =>
    exact hs ▸ h.putFreeSeg hi rfl rfl (.inr rfl) rfl rfl rfl rfl (.of trivial trivial rfl)
  -- the invalidations
  case invalidated x validNr =>
    split at hs
    · cases hs
      exact .goto hi rfl rfl rfl rfl rfl (.of trivial trivial rfl)
    · cases hs
      exact .goto hi rfl rfl rfl rfl rfl (.of trivial trivial rfl)
  case cherryLock x validNr => exact .cherryLock hi hgo
  case cherryPop x validNr => exact h.cherryPop hi hgo
  case cherryTake x => exact h.cherryTake hi hgo
  case cherryFree x => exact hs ▸ h.recycleZero hi rfl rfl rfl rfl rfl rfl rfl trivial trivial rfl
  case cherryUnlock x =>
    subst hs
    exact .stay ⟨hi, rfl, rfl, rfl, rfl, rfl, rfl, rfl, .drop rfl, .same rfl, .same rfl,
      .of trivial trivial rfl⟩
  case cherryAdd x b => exact hs ▸ h.cherryAdd hi
  case cherryOn x b => exact hs ▸ h.cherryOn hi
  case lookup x validNr =>
    obtain ⟨hlock, ⟨⟩⟩ := Option.ite_none_right_eq_some.mp hs
    exact h.lookup hi hlock
  case zeroRm x b => exact hs ▸ h.zeroRm hi
  case firstRm x b => exact hs ▸ h.firstRm hi
  case firstOff x => exact hs ▸ h.firstOff hi
  case moveRm x b newbin => exact hs ▸ h.moveRm hi
  case moveAdd x b => exact hs ▸ h.moveAdd hi
  case moveOn x b => exact hs ▸ h.moveOn hi
  -- the collector
  case choose b => exact .choose hi hgo
  case take b x => exact h.take hi hgo
  case takeRm x b => exact hs ▸ h.takeRm hi
  case popXnp => exact h.popXnp hi hgo

/-- Only a segment off the stage, in nobody's hands, has grains to be released and no others. -/
theorem State.spot_filled (hlife : s.life x = .filled) : s.spot x = .filled := by
  cases hspot : s.spot x with
  | hand j =>
      rw [State.life_hand hspot] at hlife
      cases hph : s.phase j <;> rw [hph] at hlife <;> cases hlife
  | on q =>
      rw [State.life, hspot] at hlife
      cases q <;> cases hlife
  | filled => rfl
  | deferred | absent =>
      rw [State.life, hspot] at hlife
      cases hlife

theorem Phase.life_of_seen_free {ph : Phase} (h : ph.seen = .free) :
    ph.life = .taken ∨ ph.life = .dead := by
  cases ph <;> first
    | exact .inl rfl
    | exact .inr rfl
    | cases h

/-- The grains of a segment that is seen as free are out of use. -/
theorem Inv.unused_of_free (h : Inv cfg s) (hseen : s.seen cfg x = .free) :
    Unused (s.grains x) := by
  cases hspot : s.spot x with
  | hand j =>
      have hfree : (s.phase j).seen = .free := by
        rw [State.seen, hspot] at hseen
        exact hseen
      have hcounts := (h.seg_hand rfl (h.hand_of_spot hspot)).counts
      obtain hlife | hlife := Phase.life_of_seen_free hfree
      · rw [hlife] at hcounts
        exact hcounts.2
      · rw [hlife] at hcounts
        exact ⟨hcounts.1, hcounts.2.2.1⟩
  | on q =>
      rw [State.seen, hspot] at hseen
      have hcounts := (h.seg_spot hspot (by rintro j ⟨⟩)).counts
      cases q <;> first
        | exact hcounts.2
        | cases hseen
  | filled | deferred =>
      rw [State.seen, hspot] at hseen
      cases hseen
  | absent => exact (h.seg_spot hspot (by rintro j ⟨⟩)).counts

theorem Inv.seen_ne_free
    {r : Grains} (h : Inv cfg s) (hk : (s.grains x)[k]? = some r)
    (hr : r.released = false ∨ r.valid = true) :
  s.seen cfg x ≠ .free
  := by
  intro hseen
  obtain ⟨hheld, hlive⟩ := h.unused_of_free hseen
  have hpos := (h.seg x).grains_pos hk
  obtain hrel | hvalid := hr
  · have hle : r.len ≤ held (s.grains x) := len_le_count hk (by rw [hrel]; rfl)
    omega
  · have hle : r.len ≤ live (s.grains x) := len_le_count hk hvalid
    omega

theorem Inv.release
    (h : Inv cfg s) (hsound : Sound cfg s (.release i a x k))
    (hs : s.step cfg (.release i a x k) = some s') :
  Does cfg s s'
  := by
  simp only [State.step] at hs
  split at hs
  · rename_i r hi hk
    have hrel : r.released = false := hsound r hk
    obtain ⟨-, hfilled, hseg⟩ := (h.seg x).release hk hrel
    have hseen := h.seen_ne_free hk (.inl hrel)
    split at hs
    · rename_i hzero
      rw [if_pos hzero] at hseg
      cases hs
      refine h.pick hi rfl (State.spot_filled (hfilled hzero)) trivial rfl rfl ?_ rfl (.same rfl)
        (.same rfl) (.same rfl) (.same rfl) (.of trivial trivial rfl) ?_
      · intro y hy
        exact ⟨Function.update_of_ne hy _ _, Function.update_of_ne hy _ _⟩
      · intro _
        simp only [State.goto, State.setSpot, State.mapGrains, State.setSeg, Function.update_self]
        exact ⟨hseg, .release (by rintro ⟨⟩) hk hrel⟩
    · rename_i hpos
      rw [if_neg hpos] at hseg
      cases hs
      exact .recount ⟨rfl, hseg, count_modify_eq (fun _ => rfl) fun _ => rfl,
        .release hseen hk hrel⟩
  · cases hs

/-- Grains are invalidated, before anything is done about the segment. -/
theorem Inv.putn
    {r : Grains} (h : Inv cfg s) (hk : (s.grains x)[k]? = some r) (hvalid : r.valid = true) :
  Does cfg s
    ((s.setSeg x { s.segs x with validNr := (s.segs x).validNr - r.len }).mapGrains x k fun r =>
      { r with valid := false })
  :=
  .recount ⟨rfl, ((h.seg x).invalidate hk hvalid).1, count_modify_eq (fun _ => rfl) fun _ => rfl,
    .invalidate (h.seen_ne_free hk (.inr hvalid)) hk hvalid⟩

theorem Inv.invalidate
    (h : Inv cfg s) (hsound : Sound cfg s (.invalidate i x k))
    (hs : s.step cfg (.invalidate i x k) = some s') :
  Does cfg s s'
  := by
  simp only [State.step] at hs
  split at hs
  · rename_i r hi hk
    cases hs
    refine .trans (h.putn hk (hsound r hk))
      (.stay (i := i) (s := _) ⟨hi, rfl, rfl, rfl, rfl, rfl, rfl, rfl, .same rfl, .same rfl,
      .same rfl, .of trivial trivial rfl⟩)
  · cases hs

/-- A call that is idle takes a lock of a stage. -/
theorem Inv.enter
    {ph : Phase} (hi : s.phase i = .idle) (hlock : s.stageLock a = none)
    (hhand : ph.hand = none) (hsegLock : ph.segLock = none) (hstage : ph.stageLock = some a)
    (halloc : ph.allocating = none) (hok : ph.Ok cfg s.queues) :
  Does cfg s ((s.lockStage a i).goto i ph)
  := by
  refine .stay ⟨hi, rfl, rfl, rfl, rfl, rfl, rfl, hhand, .of_eq hsegLock.symm rfl, ?_,
    .of_eq halloc.symm rfl, hok⟩
  rw [hstage]
  exact .take hlock rfl

theorem Inv.does
    (h : Inv cfg s) (hsound : Sound cfg s act) (hs : s.step cfg act = some s') : Does cfg s s' := by
  cases act with
  | allocate i a len =>
      obtain ⟨⟨hi, hlock⟩, ⟨⟩⟩ := Option.ite_none_right_eq_some.mp hs
      exact Inv.enter hi hlock rfl rfl rfl rfl (.of trivial hsound rfl)
  | drain i a =>
      obtain ⟨⟨hi, hlock⟩, ⟨⟩⟩ := Option.ite_none_right_eq_some.mp hs
      exact Inv.enter hi hlock rfl rfl rfl rfl (.of trivial trivial rfl)
  | release i a x k => exact h.release hsound hs
  | invalidate i x k => exact h.invalidate hsound hs
  | invalidateReloc x k =>
      obtain ⟨r, hk, rfl⟩ := Option.map_eq_some_iff.mp hs
      exact h.putn hk (hsound r hk)
  | popDone i a =>
      simp only [State.step] at hs
      split at hs
      · rename_i y ys hi hq
        cases hs
        exact h.pick hi rfl (h.spot_of_head hq (by rintro b ⟨⟩)) trivial rfl rfl
          (fun _ _ => ⟨rfl, rfl⟩)
          rfl (.off rfl) (.same rfl) (.same rfl) (.same rfl) (.of trivial trivial rfl)
          fun hseg => ⟨⟨hseg.contig, hseg.fits, hseg.state, hseg.counts⟩, .same⟩
      · cases hs
  | freeDeferred i x =>
      obtain ⟨⟨hi, hx⟩, ⟨⟩⟩ := Option.ite_none_right_eq_some.mp hs
      refine h.pick hi rfl hx trivial rfl rfl (fun _ _ => ⟨rfl, rfl⟩) rfl (.same rfl) (.same rfl)
        (.same rfl) (.same rfl) (.of trivial trivial rfl) ?_
      intro hseg
      have hdead : SegOk cfg x .dead (s.segs x) (s.grains x) :=
        ⟨hseg.contig, hseg.fits, hseg.state, hseg.counts⟩
      exact ⟨hdead, .free (.inr (.inr rfl)) hdead.unused⟩
  | collect i =>
      obtain ⟨hi, ⟨⟩⟩ := Option.ite_none_right_eq_some.mp hs
      exact .goto hi rfl rfl rfl rfl rfl (.of trivial trivial rfl)
  | relocated i ok =>
      simp only [State.step] at hs
      split at hs
      · rename_i x hi
        cases hs
        cases ok with
        | true =>
            refine h.keep hi rfl rfl rfl (fun _ _ => ⟨rfl, rfl⟩) rfl (.same rfl) (.same rfl)
              (.same rfl) (.same rfl) (.of trivial trivial rfl) ?_
            intro hseg
            have hlive : live (s.grains x) = 0 := hsound rfl x (by rw [hi]; rfl)
            have hdead := hseg.dead (.inr rfl) (hseg.counts.2.2.trans hlive)
            exact ⟨hdead, .free (.inr (.inl rfl)) hdead.unused⟩
        | false =>
            exact h.keep hi rfl rfl rfl (fun _ _ => ⟨rfl, rfl⟩) rfl (.same rfl) (.same rfl)
              (.same rfl) (.same rfl) (.of trivial trivial rfl) fun hseg => ⟨hseg, .putBack⟩
      · cases hs
  | go i => exact h.go hs

theorem Inv.step
    (h : Inv cfg s) (hsound : Sound cfg s act) (hs : s.step cfg act = some s') : Inv cfg s' :=
  (h.does hsound hs).inv h

/-! ### At first -/

theorem Inv.init (cfg : Config) : Inv cfg (.init cfg) := by
  have hspot : ∀ x, (State.init cfg).spot x
      = if x < cfg.segNr then .on (if x < kMinRelSegments then .freeRel else .free) else .absent :=
    fun _ => rfl
  have hlife : ∀ x, (State.init cfg).life x
      = if x < cfg.segNr then (if x < kMinRelSegments then .freeRel else .free) else .absent := by
    intro x
    by_cases hx : x < cfg.segNr
    · by_cases hrel : x < kMinRelSegments
      · simp only [State.life, hspot, if_pos hx, if_pos hrel, Spot.life]
      · simp only [State.life, hspot, if_pos hx, if_neg hrel, Spot.life]
    · simp only [State.life, hspot, if_neg hx, Spot.life]
  refine ⟨⟨?_, ?_⟩, ?_, ?_, ?_, ?_, ?_, ?_, ?_, ?_⟩
  · intro q
    cases q <;> first
      | exact List.nodup_range.filter _
      | exact List.nodup_nil
  · intro q x
    simp only [hlife]
    cases q <;> simp only [State.init, List.mem_filter, List.mem_range, decide_eq_true_eq,
      List.not_mem_nil, false_iff] <;> split <;> (try split) <;> simp [Life.place] <;> omega
  · intro x j
    simp only [State.holder, hspot]
    split <;> simp [Spot.holder, State.init, Phase.hand]
  · intro x j
    simp [State.init, Phase.segLock]
  · intro x j
    simp [State.init, Phase.stageLock]
  · intro x j
    simp [State.init, Phase.allocating]
  · intro j
    exact .of trivial trivial rfl
  · intro a
    exact Nat.zero_le 1
  · intro x
    rw [hspot]
    split <;> simp <;> omega
  · intro x
    refine ⟨trivial, Nat.le_of_lt cfg.reserved_lt, ?_, ?_⟩
    · rw [hlife]
      split
      · split
        · exact if_pos ‹_›
        · exact if_neg ‹_›
      · intro hgc
        simp only [State.init] at hgc
        split at hgc <;> cases hgc
    · rw [hlife]
      split
      · split
        · exact ⟨rfl, rfl, rfl⟩
        · exact ⟨rfl, rfl, rfl⟩
      · exact ⟨rfl, rfl⟩

theorem Reachable.inv (h : Reachable cfg s) : Inv cfg s :=
  h.invariant (.init cfg) fun _ _ _ hinv hok hs => hinv.step hok hs

end UDepot.Salsa
