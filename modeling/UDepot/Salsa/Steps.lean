import UDepot.Salsa.Moves

/-!
# Every step keeps the segments in order

One lemma for each step of a call.  The steps that hand out, release or invalidate grains change the
counters of a segment together with the grains; the others move a segment on in its life.
-/

namespace UDepot.Salsa

open Custody

variable {cfg : Config} {s s' : State} {i a b x k len validNr rem : Nat}

/-! ### The counters of one segment -/

section SegOk

variable {life : Life} {g : Segment} {rs : List Grains} {r : Grains}

theorem SegOk.grains_pos (h : SegOk cfg x life g rs) (hk : rs[k]? = some r) : 0 < r.len :=
  (h.contig.start_getElem hk).2.1

/-- The counters are no part of the state of a segment. -/
theorem Life.StateOk.recount
    {g' : Segment} (h : life.StateOk cfg g) (hstate : g'.state = g.state)
    (hpriv : g'.priv = g.priv) :
  life.StateOk cfg g'
  := by
  cases life <;> simp only [Life.StateOk, hstate, hpriv] at h ⊢ <;> exact h

/-- Grains that are valid are invalidated. -/
theorem SegOk.invalidate
    (h : SegOk cfg x life g rs) (hk : rs[k]? = some r) (hvalid : r.valid = true) :
  SegOk cfg x life { g with validNr := g.validNr - r.len }
      (rs.modify k fun r => { r with valid := false })
    ∧ r.len ≤ g.validNr
  := by
  have hpos := h.grains_pos hk
  have hlive : live (rs.modify k fun r => { r with valid := false }) + r.len = live rs :=
    count_modify hk rfl hvalid rfl
  have hheld : held (rs.modify k fun r => { r with valid := false }) = held rs :=
    count_modify_eq (fun _ => rfl) fun _ => rfl
  have htotal : total (rs.modify k fun r => { r with valid := false }) = total rs :=
    count_modify_eq (fun _ => rfl) fun _ => rfl
  have hle := count_le_total (fun r => r.valid) rs
  have hcontig : Contig (cfg.segToGrain x) (rs.modify k fun r => { r with valid := false }) :=
    (contig_modify (f := fun r => { r with valid := false }) (fun _ => rfl) fun _ => rfl).mpr
      h.contig
  have hfits := h.fits
  have hcounts := h.counts
  have hlen : r.len ≤ g.validNr := by
    cases life <;> simp only [Life.CountsOk] at hcounts <;> first
      | omega
      | (obtain ⟨rfl, -⟩ := hcounts; cases hk)
  refine ⟨⟨hcontig, htotal.symm ▸ hfits, h.state.recount rfl rfl, ?_⟩, hlen⟩
  cases life <;> simp only [Life.CountsOk] at hcounts ⊢ <;> first
    | omega
    | (obtain ⟨rfl, -⟩ := hcounts; cases hk)

/-- Grains are released: the last ones of a segment that is off the stage, or not the last. -/
theorem SegOk.release
    (h : SegOk cfg x life g rs) (hk : rs[k]? = some r) (hrel : r.released = false) :
  r.len ≤ g.nr4
    ∧ (g.nr4 - r.len = 0 → life = .filled)
    ∧ SegOk cfg x (if g.nr4 - r.len = 0 then .ended else life) { g with nr4 := g.nr4 - r.len }
      (rs.modify k fun r => { r with released := true })
  := by
  have hpos := h.grains_pos hk
  have hheld : held (rs.modify k fun r => { r with released := true }) + r.len = held rs :=
    count_modify hk rfl (by rw [hrel]; rfl) rfl
  have hlive : live (rs.modify k fun r => { r with released := true }) = live rs :=
    count_modify_eq (fun _ => rfl) fun _ => rfl
  have htotal : total (rs.modify k fun r => { r with released := true }) = total rs :=
    count_modify_eq (fun _ => rfl) fun _ => rfl
  have hcontig : Contig (cfg.segToGrain x) (rs.modify k fun r => { r with released := true }) :=
    (contig_modify (f := fun r => { r with released := true }) (fun _ => rfl) fun _ => rfl).mpr
      h.contig
  have hfits := h.fits
  have hcounts := h.counts
  have hstate := h.state
  have hcase : r.len ≤ g.nr4 ∧ (g.nr4 - r.len = 0 → life = .filled) := by
    cases life <;> simp only [Life.CountsOk, reduceCtorEq, imp_false] at hcounts ⊢ <;> first
      | omega
      | exact ⟨by omega, fun _ => trivial⟩
      | (obtain ⟨rfl, -⟩ := hcounts; cases hk)
  refine ⟨hcase.1, hcase.2, hcontig, htotal.symm ▸ hfits, ?_, ?_⟩
  · split
    · rename_i hzero
      obtain rfl := hcase.2 hzero
      exact hstate
    · exact hstate.recount rfl rfl
  · split
    · rename_i hzero
      obtain rfl := hcase.2 hzero
      simp only [Life.CountsOk] at hcounts ⊢
      omega
    · cases life <;> simp only [Life.CountsOk] at hcounts ⊢ <;> first
        | omega
        | (obtain ⟨rfl, -⟩ := hcounts; cases hk)

/-- Grains are handed out from a staged segment; with the last ones it leaves the stage. -/
theorem SegOk.handOut
    (h : SegOk cfg x (.staged a) g rs) (hlen : 0 < len) (hroom : g.nr3 + len ≤ cfg.segSize) :
  SegOk cfg x (if cfg.segSize = g.nr3 + len then .filled else .staged a)
    { g with nr3 := g.nr3 + len }
    (rs ++ [⟨cfg.segToGrain x + g.nr3 - cfg.reservedPerSeg, len, false, true⟩])
  := by
  obtain ⟨hnr3, hlt, hnr4, hvalid⟩ := h.counts
  have htotal : ∀ r, total (rs ++ [r]) = total rs + r.len := fun r => count_append _ rs r
  have hheld := count_append (fun r => !r.released) rs
    ⟨cfg.segToGrain x + g.nr3 - cfg.reservedPerSeg, len, false, true⟩
  have hlive := count_append (fun r => r.valid) rs
    ⟨cfg.segToGrain x + g.nr3 - cfg.reservedPerSeg, len, false, true⟩
  simp only [Bool.not_false, if_true] at hheld hlive
  refine ⟨contig_append.mpr ⟨h.contig, ?_, hlen⟩, ?_, ?_, ?_⟩
  · simp only
    omega
  · rw [htotal]
    simp only
    omega
  · split
    · exact h.state
    · exact h.state
  · rw [held] at hnr4
    rw [live] at hvalid
    split
    · rw [Life.CountsOk, held, live, hheld, hlive]
      simp only
      omega
    · rw [Life.CountsOk, held, live, hheld, hlive, htotal]
      simp only
      omega

/-- A staged segment that is taken off the stage keeps its rest for itself. -/
theorem SegOk.recycle
    (h : SegOk cfg x (.staged a) g rs) :
  SegOk cfg x (.recycled (cfg.segSize - g.nr3))
      { g with validNr := g.validNr - (cfg.segSize - g.nr3) } rs
    ∧ cfg.segSize - g.nr3 ≤ g.validNr
  := by
  obtain ⟨hnr3, hlt, hnr4, hvalid⟩ := h.counts
  refine ⟨⟨h.contig, h.fits, h.state, ?_⟩, by omega⟩
  simp only [Life.CountsOk]
  omega

theorem SegOk.releaseRest
    (h : SegOk cfg x (.recycled rem) g rs) :
  SegOk cfg x (if g.nr4 - rem = 0 then .ended else .filled) { g with nr4 := g.nr4 - rem } rs
    ∧ rem ≤ g.nr4
  := by
  obtain ⟨hpos, hnr4, hvalid⟩ := h.counts
  refine ⟨⟨h.contig, h.fits, ?_, ?_⟩, by omega⟩
  · split
    · exact h.state
    · exact h.state
  · split
    · simp only [Life.CountsOk]
      omega
    · simp only [Life.CountsOk]
      omega

theorem SegOk.prepare
    (h : SegOk cfg x .taken g rs) :
  SegOk cfg x .fresh
    { g with
      state := .lsaAllocator
      nr3 := cfg.reservedPerSeg
      nr4 := cfg.segSize - cfg.reservedPerSeg
      validNr := g.validNr - cfg.reservedPerSeg } []
  := by
  have hlt := cfg.reserved_lt
  have hvalid := h.counts.1
  refine ⟨trivial, Nat.le_of_lt hlt, rfl, rfl, rfl, ?_, ?_⟩
  · simp only
    omega
  · simp only
    omega

theorem SegOk.stage (h : SegOk cfg x .fresh g rs) : SegOk cfg x (.staged a) g rs := by
  obtain ⟨rfl, hnr3, hnr4, hvalid⟩ := h.counts
  have hlt := cfg.reserved_lt
  refine ⟨h.contig, h.fits, h.state, ?_⟩
  simp only [Life.CountsOk, total, held, live, count]
  omega

/-- A segment with no valid grains may be freed. -/
theorem SegOk.free
    (h : SegOk cfg x .dead g rs) (st : SegState) (hst : st = .free ∨ st = .freeRel) :
  SegOk cfg x (if st = .free then .free else .freeRel)
    { g with validNr := cfg.segSize, state := st, priv := kInvalidPrivateId } rs
  := by
  obtain ⟨hheld, -, hlive, -⟩ := h.counts
  refine ⟨h.contig, h.fits, ?_, ?_⟩
  · obtain rfl | rfl := hst
    · rfl
    · rfl
  · split
    · exact ⟨rfl, hheld, hlive⟩
    · exact ⟨rfl, hheld, hlive⟩

end SegOk

/-! ### The room of a segment, and its bin -/

namespace Config

theorem segNextRange_eq_some
    {g : Segment} {idx : Nat} (h : cfg.segNextRange g len = some idx) :
  g.nr3 + len ≤ cfg.segSize ∧ g.nr3 = idx
  := by
  obtain ⟨hroom, heq⟩ := Option.ite_none_left_eq_some.mp h
  exact ⟨by omega, Option.some.inj heq⟩

/-- The bins are wide enough for all segments. -/
theorem segSize_le (cfg : Config) : cfg.segSize ≤ cfg.binNr * cfg.binDiv := by
  have hpos := cfg.binNr_pos
  have hdiv := Nat.div_add_mod cfg.segSize cfg.binNr
  have hlt := Nat.mod_lt cfg.segSize hpos
  rw [binDiv]
  split
  · omega
  · rw [Nat.mul_add]
    omega

/-- The bin of a segment that has room left. -/
theorem isBin_div (cfg : Config) (hle : validNr + cfg.reservedPerSeg ≤ cfg.segSize) :
    cfg.IsBin (validNr / cfg.binDiv) := by
  have hsize := cfg.segSize_le
  rw [Nat.mul_comm] at hsize
  refine ⟨Nat.div_le_of_le_mul (by omega), ?_⟩
  intro hpos
  exact Nat.div_lt_of_lt_mul (by omega)

theorem isBin_seg2bin (cfg : Config) (hle : validNr + cfg.reservedPerSeg ≤ cfg.segSize) :
    cfg.IsBin (cfg.seg2bin validNr) := by
  rw [seg2bin]
  split
  · exact ⟨Nat.le_refl _, by omega⟩
  · exact cfg.isBin_div hle

end Config

/-! ### Segments on queues -/

theorem Inv.spot_of_rests
    {q : QueueId} (h : Inv cfg s) (hx : x ∈ s.queues q) (hnot : ∀ j, s.spot x ≠ .hand j) :
  s.spot x = .on q
  := by
  have hplace : (s.life x).place = some q := h.placed.mem.mp hx
  rw [State.life_spot hnot] at hplace
  cases hspot : s.spot x with
  | hand j => exact absurd hspot (hnot j)
  | on q' =>
      rw [hspot] at hplace
      have hsome : (Spot.on q').life.place = some q' := by cases q' <;> rfl
      rw [hsome] at hplace
      rw [Option.some.inj hplace]
  | filled | deferred | absent =>
      rw [hspot] at hplace
      cases hplace

/-- A segment on a queue other than a bin is in nobody's hands. -/
theorem Inv.spot_of_mem
    {q : QueueId} (h : Inv cfg s) (hx : x ∈ s.queues q) (hq : ∀ b, q ≠ .bin b) :
  s.spot x = .on q
  := by
  apply h.spot_of_rests hx
  intro j hspot
  have hplace : (s.life x).place = some q := h.placed.mem.mp hx
  rw [State.life_hand hspot] at hplace
  obtain hnone | ⟨b, hb⟩ := (s.phase j).place_life
  · rw [hnone] at hplace
    cases hplace
  · rw [hb] at hplace
    exact absurd (Option.some.inj hplace).symm (hq b)

theorem Inv.spot_of_head
    {q : QueueId} {xs : List Nat} (h : Inv cfg s) (hx : s.queues q = x :: xs)
    (hq : ∀ b, q ≠ .bin b) :
  s.spot x = .on q
  := h.spot_of_mem (by rw [hx]; exact List.mem_cons_self) hq

/-- What holds for a segment in nobody's hands. -/
theorem Inv.seg_spot
    {sp : Spot} (h : Inv cfg s) (hx : s.spot x = sp) (hnot : ∀ j, sp ≠ .hand j) :
  SegOk cfg x sp.life (s.segs x) (s.grains x)
  := by
  have hseg := h.seg x
  rw [State.life_spot (hx.symm ▸ hnot), hx] at hseg
  exact hseg

theorem Inv.seg_hand
    {ph : Phase} (h : Inv cfg s) (hi : s.phase i = ph) (hhand : ph.hand = some x) :
  SegOk cfg x ph.life (s.segs x) (s.grains x)
  := by
  have hseg := h.seg x
  rw [State.life_hand (h.spot_of_hand (by rw [hi, hhand])), hi] at hseg
  exact hseg

theorem Inv.spot_self
    {ph : Phase} (h : Inv cfg s) (hi : s.phase i = ph) (hhand : ph.hand = some x) :
  Function.update s.spot x (.hand i) = s.spot
  := by
  rw [← h.spot_of_hand (by rw [hi, hhand]), Function.update_eq_self]

/-- A segment marked as in a bin, and not locked, is in that bin. -/
theorem Inv.binned_of_gc
    (h : Inv cfg s) (hstate : (s.segs x).state = .gc) (hlock : s.segLock x = none) :
  s.spot x = .on (.bin (s.segs x).priv)
  := by
  cases hspot : s.spot x with
  | hand j =>
      -- only who has the lock has a segment in hand that is marked
      have hok := (h.seg_hand rfl (h.hand_of_spot hspot)).state
      have hhand := h.hand_of_spot hspot
      have hnot : (s.phase j).segLock ≠ some x := by
        intro hheld
        rw [← h.segLocks] at hheld
        rw [hlock] at hheld
        cases hheld
      cases hph : s.phase j <;> rw [hph] at hok hhand hnot <;> first
        | exact absurd hstate hok
        | exact absurd hstate hok.1
        | exact absurd hhand hnot
        | cases hstate.symm.trans hok
  | on q =>
      have hok := (h.seg_spot hspot (by rintro j ⟨⟩)).state
      cases q with
      | bin b =>
          obtain ⟨-, rfl, -⟩ := hok
          rfl
      | free | freeRel | stage | done => cases hstate.symm.trans hok
      | xnp => cases hstate.symm.trans hok.1
  | filled => cases hstate.symm.trans (h.seg_spot hspot (by rintro j ⟨⟩)).state
  | deferred | absent => exact absurd hstate (h.seg_spot hspot (by rintro j ⟨⟩)).state

/-! ### The allocators -/

/-- Go on after a segment was taken off the stage: the phase, and the lock of the stage. -/
def Cont.next (a : Nat) : Cont → Phase
  | .scan len => .scan a len
  | .drain | .release => .idle

theorem Cont.next_ok
    {k : Cont} {queues : QueueId → List Nat} (h : k.LenOk cfg a) : (k.next a).Ok cfg queues := by
  cases k with
  | scan len => exact .of trivial h rfl
  | drain => exact .of trivial trivial rfl
  | release => exact .of trivial trivial rfl

/-- A call that has a segment in hand puts it down and goes on. -/
theorem Inv.resume
    {k : Cont} {ph₀ : Phase} {sp : Spot} {t : State} (h : Inv cfg s) (hi : s.phase i = ph₀)
    (hhand : ph₀.hand = some x) (hstage : ph₀.stageLock = k.stageLock a)
    (hsegLock : ph₀.segLock = none) (halloc : ph₀.allocating = none) (hk : k.LenOk cfg a)
    (hphase : t.phase = s.phase) (hspot : t.spot = Function.update s.spot x sp)
    (hsl : t.segLock = s.segLock) (hst : t.stageLock = s.stageLock)
    (hal : t.allocating = s.allocating)
    (hrest : ∀ y, y ≠ x → t.segs y = s.segs y ∧ t.grains y = s.grains y) (hsp : sp.Rests)
    (hqueues : Shifts s.queues t.queues x ph₀.life.place sp.life.place)
    (hseg : SegOk cfg x ph₀.life (s.segs x) (s.grains x) →
      SegOk cfg x sp.life (t.segs x) (t.grains x)
      ∧ Turns cfg x ph₀.seen (s.grains x) (sp.seen cfg x (t.grains x)) (t.grains x)) :
  Does cfg s (t.resume i a k)
  := by
  have hok : (k.next a).Ok cfg (t.resume i a k).queues := Cont.next_ok hk
  refine h.put hi hhand ?_ ?_ hsp ?_ ?_ ?_ ?_ ?_ ?_ hok ?_
  · rw [← hphase]
    cases k <;> rfl
  · rw [← hspot]
    cases k <;> rfl
  · intro y hy
    rw [← (hrest y hy).1, ← (hrest y hy).2]
    cases k <;> exact ⟨rfl, rfl⟩
  · cases k <;> rfl
  · cases k <;> exact hqueues
  · rw [hsegLock]
    cases k <;> exact .same hsl
  · rw [hstage]
    cases k with
    | scan len => exact .same hst
    | drain =>
        refine .drop ?_
        rw [← hst]
        rfl
    | release => exact .same hst
  · rw [halloc]
    cases k <;> exact .same hal
  · cases k <;> exact hseg

section Allocator

variable {p : Nat} {ps : List Nat}

/-- The segment at the front of the stage is taken off. -/
theorem Inv.recycleHead
    {ph₀ : Phase} {c : Cont} (h : Inv cfg s) (hi : s.phase i = ph₀) (hhand : ph₀.hand = none)
    (hstage : ph₀.stageLock = c.stageLock a) (hsegLock : ph₀.segLock = none)
    (halloc : ph₀.allocating = none) (hc : c.LenOk cfg a) (hq : s.queues (.stage a) = p :: ps) :
  Does cfg s (s.recycleHead cfg i a c p)
  := by
  refine h.pick hi hhand (h.spot_of_head hq (by rintro b ⟨⟩)) trivial rfl rfl
    (fun y hy => ⟨Function.update_of_ne hy _ _, rfl⟩) rfl (.off rfl) (.of_eq hsegLock rfl)
    (.of_eq hstage rfl) (.of_eq halloc rfl) (.of trivial hc rfl) ?_
  intro hseg
  simp only [State.recycleHead, State.goto, State.dequeue, State.setSeg, State.setSpot,
    Function.update_self]
  exact ⟨hseg.recycle.1, .close⟩

theorem Inv.handOut
    {idx : Nat} (h : Inv cfg s) (hi : s.phase i = .scan a len) (hq : s.queues (.stage a) = p :: ps)
    (hidx : cfg.segNextRange (s.segs p) len = some idx) :
  Does cfg s (s.handOut cfg i a p idx len)
  := by
  have hp := h.spot_of_head hq (by rintro b ⟨⟩)
  have hseg := h.seg_spot hp (by rintro j ⟨⟩)
  have hlen : 0 < len := (h.phaseOk hi).len.1
  obtain ⟨hroom, rfl⟩ := Config.segNextRange_eq_some hidx
  have hseg' := hseg.handOut hlen hroom
  have hstart : cfg.segToGrain p + (s.segs p).nr3 - cfg.reservedPerSeg
      = cfg.segToGrain p + total (s.grains p) := by
    have hnr3 := hseg.counts.1
    omega
  have hfits : cfg.segToGrain p + total (s.grains p) + len + cfg.reservedPerSeg
      ≤ cfg.segToGrain p + cfg.segSize := by
    have hnr3 := hseg.counts.1
    omega
  rw [hstart] at hseg'
  by_cases hfull : cfg.segSize = (s.segs p).nr3 + len
  · rw [if_pos hfull] at hseg'
    simp only [State.handOut, if_pos hfull, hstart]
    refine .move ⟨hi, hp, rfl, rfl, ?_, .spot trivial rfl, .spot trivial rfl, .off rfl, .same rfl,
      .drop rfl, .same rfl, .of trivial trivial rfl, ?_, ?_⟩
    · intro y hy
      exact ⟨Function.update_of_ne hy _ _, Function.update_of_ne hy _ _⟩
    · simp only [State.goto, State.unlockStage, State.setSeg, Function.update_self]
      exact hseg'
    · simp only [State.goto, State.unlockStage, State.setSeg, Function.update_self]
      exact .fill hlen hfits
  · rw [if_neg hfull] at hseg'
    simp only [State.handOut, if_neg hfull, hstart]
    have hspot : s.spot = Function.update s.spot p (.on (.stage a)) := by
      rw [← hp, Function.update_eq_self]
    refine .move ⟨hi, hp, rfl, hspot, ?_, .spot trivial rfl, .spot trivial rfl, .same rfl,
      .same rfl, .drop rfl, .same rfl, .of trivial trivial rfl, ?_, ?_⟩
    · intro y hy
      exact ⟨Function.update_of_ne hy _ _, Function.update_of_ne hy _ _⟩
    · simp only [State.goto, State.unlockStage, State.setSeg, Function.update_self]
      exact hseg'
    · simp only [State.goto, State.unlockStage, State.setSeg, Function.update_self]
      have hturns :
          Turns cfg p (.opened a (cfg.segToGrain p + total (s.grains p))) (s.grains p) _ _ :=
        .handOut hlen hfits
      rw [Nat.add_assoc] at hturns
      simp only [seenAt, Spot.seen, total, count_append, if_true]
      exact hturns

theorem Inv.scan (h : Inv cfg s) (hi : s.phase i = .scan a len) :
    Does cfg s (s.scan cfg i a len) := by
  have hlen := (h.phaseOk hi).len
  unfold State.scan
  split
  · rename_i p ps hq
    split
    · rename_i idx hidx
      exact h.handOut hi hq hidx
    · exact h.recycleHead hi rfl rfl rfl rfl hlen hq
  · rename_i hempty
    split
    · rename_i hfree
      refine .stay ⟨hi, rfl, rfl, rfl, rfl, rfl, rfl, rfl, .same rfl, .drop rfl, .take hfree rfl,
        trivial, hlen, ?_⟩
      rintro a' ⟨⟩
      exact hempty
    · exact .stay ⟨hi, rfl, rfl, rfl, rfl, rfl, rfl, rfl, .same rfl, .drop rfl, .same rfl,
        .of trivial trivial rfl⟩

theorem Inv.drainHead (h : Inv cfg s) (hi : s.phase i = .drain a) :
    Does cfg s (s.drainHead cfg i a) := by
  unfold State.drainHead
  split
  · rename_i p ps hq
    exact h.recycleHead hi rfl rfl rfl rfl trivial hq
  · exact .stay ⟨hi, rfl, rfl, rfl, rfl, rfl, rfl, rfl, .same rfl, .drop rfl, .same rfl,
      .of trivial trivial rfl⟩

theorem Inv.releaseRest
    {c : Cont} (h : Inv cfg s) (hi : s.phase i = .recycle a c x rem) :
  Does cfg s (s.releaseRest i a c x rem)
  := by
  have hc := (h.phaseOk hi).len
  unfold State.releaseRest
  simp only
  split
  · rename_i hzero
    refine h.keep hi rfl rfl rfl (fun y hy => ⟨Function.update_of_ne hy _ _, rfl⟩) rfl (.same rfl)
      (.same rfl) (.same rfl) (.same rfl) (.of trivial hc rfl) ?_
    intro hseg
    have hseg' := hseg.releaseRest.1
    rw [if_pos hzero] at hseg'
    simp only [State.goto, State.setSeg, Function.update_self]
    exact ⟨hseg', .same⟩
  · rename_i hpos
    refine h.resume hi rfl rfl rfl rfl hc rfl rfl rfl rfl rfl
      (fun y hy => ⟨Function.update_of_ne hy _ _, rfl⟩) trivial (.same rfl) ?_
    intro hseg
    have hseg' := hseg.releaseRest.1
    rw [if_neg hpos] at hseg'
    simp only [State.setSpot, State.setSeg, Function.update_self]
    exact ⟨hseg', .same⟩

theorem Inv.toDone
    {c : Cont} (h : Inv cfg s) (hi : s.phase i = .toDone a c x) :
  Does cfg s ((s.enqueue (.done a) x).resume i a c)
  :=
  h.resume hi rfl rfl rfl rfl (h.phaseOk hi).len rfl rfl rfl rfl rfl (fun _ _ => ⟨rfl, rfl⟩)
    trivial (.on rfl) fun hseg => ⟨⟨hseg.contig, hseg.fits, hseg.state, hseg.counts⟩, .same⟩

theorem SegOk.taken
    {q : QueueId} {g : Segment} {rs : List Grains} (h : SegOk cfg x (Spot.on q).life g rs)
    (hq : q = .free ∨ q = .freeRel) :
  SegOk cfg x .taken g rs ∧ Turns cfg x ((Spot.on q).seen cfg x rs) rs .free rs
  := by
  obtain rfl | rfl := hq
  · refine ⟨⟨h.contig, h.fits, ?_, h.counts⟩, .same⟩
    intro hgc
    cases (show g.state = .free from h.state).symm.trans hgc
  · refine ⟨⟨h.contig, h.fits, ?_, h.counts⟩, .same⟩
    intro hgc
    cases (show g.state = .freeRel from h.state).symm.trans hgc

theorem Inv.getFreeSeg
    (h : Inv cfg s) (hi : s.phase i = .getSeg a len) :
  Does cfg s (s.getFreeSeg cfg i a len)
  := by
  have hok := h.phaseOk hi
  unfold State.getFreeSeg
  simp only
  generalize hq : (if cfg.reloc a then QueueId.freeRel else .free) = q
  have hfree : q = .free ∨ q = .freeRel := by
    rw [← hq]
    split
    · exact .inr rfl
    · exact .inl rfl
  have hplace : (Spot.on q).life.place = some q := by obtain rfl | rfl := hfree <;> rfl
  split
  · rename_i x xs hhead
    have hx : s.spot x = .on q := by
      apply h.spot_of_head hhead
      rintro b rfl
      obtain ⟨⟨⟩⟩ | ⟨⟨⟩⟩ := hfree
    have hawait :
        (Phase.prepare a len x).AwaitOk ((s.dequeue i q x).goto i (.prepare a len x)).queues := by
      rintro a' ⟨⟩
      refine (Function.update_of_ne ?_ _ _).trans (hok.await a rfl)
      rintro rfl
      obtain ⟨⟨⟩⟩ | ⟨⟨⟩⟩ := hfree
    refine h.pick hi rfl hx trivial rfl rfl (fun _ _ => ⟨rfl, rfl⟩) rfl ?_ (.same rfl) (.same rfl)
      (.same rfl) ⟨trivial, hok.len, hawait⟩ fun hseg => hseg.taken hfree
    rw [hplace]
    exact .off rfl
  · exact .goto hi rfl rfl rfl rfl rfl ⟨trivial, trivial, hok.await⟩

theorem Inv.prepareSeg
    (h : Inv cfg s) (hi : s.phase i = .prepare a len x) :
  Does cfg s (s.prepareSeg cfg i a len x)
  := by
  have hok := h.phaseOk hi
  refine h.keep hi rfl rfl rfl ?_ rfl (.same rfl) (.same rfl) (.same rfl) (.same rfl)
    ⟨trivial, hok.len, hok.await⟩ ?_
  · intro y hy
    exact ⟨Function.update_of_ne hy _ _, Function.update_of_ne hy _ _⟩
  · intro hseg
    simp only [State.prepareSeg, State.goto, State.setSeg, Function.update_self]
    exact ⟨hseg.prepare, .take hok.len.2.2 hseg.counts.2⟩

theorem Inv.segMd
    (h : Inv cfg s) (hi : s.phase i = .segMd a len x) :
  Does cfg s (s.goto i (.toStage a len x))
  := by
  have hok := h.phaseOk hi
  exact h.keep hi rfl rfl rfl (fun _ _ => ⟨rfl, rfl⟩) rfl (.same rfl) (.same rfl) (.same rfl)
    (.same rfl) ⟨trivial, hok.len, hok.await⟩ fun hseg => ⟨hseg, .same⟩

theorem Inv.toStage
    (h : Inv cfg s) (hi : s.phase i = .toStage a len x) :
  Does cfg s ((s.enqueue (.stage a) x).goto i (.relock a len))
  := by
  refine h.put hi rfl rfl rfl trivial (fun _ _ => ⟨rfl, rfl⟩) rfl (.on rfl) (.same rfl) (.same rfl)
    (.same rfl) (.of trivial (h.phaseOk hi).len rfl) fun hseg => ⟨hseg.stage, ?_⟩
  have hnil : s.grains x = [] := hseg.counts.1
  change Turns cfg x _ (s.grains x) (Spot.seen cfg x (s.grains x) (.on (.stage a))) (s.grains x)
  rw [hnil]
  exact .stage

end Allocator

/-! ### The bins -/

section Bins

/-- The valid grains are among those that were handed out. -/
theorem SegOk.validNr_le
    {life : Life} {g : Segment} {rs : List Grains} (h : SegOk cfg x life g rs)
    (hlive : g.validNr = live rs) :
  g.validNr + cfg.reservedPerSeg ≤ cfg.segSize
  := by
  have hle : live rs ≤ total rs := count_le_total _ rs
  have hfits := h.fits
  omega

theorem SegOk.unlisted
    {g : Segment} {rs : List Grains} (h : SegOk cfg x .ended g rs) :
  SegOk cfg x .detached g rs
  := by
  have hstate : g.state = .lsaAllocator := h.state
  refine ⟨h.contig, h.fits, ⟨?_, ?_⟩, h.counts⟩
  · rw [hstate]
    rintro ⟨⟩
  · rw [hstate]
    rintro ⟨⟩

/-- A segment with no valid grains. -/
theorem SegOk.dead
    {life : Life} {g : Segment} {rs : List Grains} (h : SegOk cfg x life g rs)
    (hlife : life = .detached ∨ life = .loose) (hzero : g.validNr = 0) :
  SegOk cfg x .dead g rs
  := by
  obtain rfl | rfl := hlife
  · obtain ⟨hheld, hnr4, hlive⟩ := h.counts
    exact ⟨h.contig, h.fits, h.state.1, hheld, hnr4, hlive ▸ hzero, hzero⟩
  · obtain ⟨hheld, hnr4, hlive⟩ := h.counts
    exact ⟨h.contig, h.fits, h.state, hheld, hnr4, hlive ▸ hzero, hzero⟩

theorem SegOk.unused
    {g : Segment} {rs : List Grains} (h : SegOk cfg x .dead g rs) : Unused rs :=
  ⟨h.counts.1, h.counts.2.2.1⟩

theorem Inv.destaged
    (h : Inv cfg s) (hi : s.phase i = .destaged x) (hs : s.go cfg i = some s') :
  Does cfg s s'
  := by
  have hseg := h.seg_hand hi rfl
  simp only [State.go, hi] at hs
  split at hs
  · rename_i hzero
    cases hs
    exact h.keep hi rfl rfl rfl (fun _ _ => ⟨rfl, rfl⟩) rfl (.same rfl) (.same rfl) (.same rfl)
      (.same rfl) (.of trivial trivial rfl) fun hseg => ⟨hseg.unlisted.dead (.inl rfl) hzero, .same⟩
  · split at hs
    · cases hs
      have hbin := cfg.isBin_seg2bin (hseg.validNr_le hseg.counts.2.2)
      exact h.keep hi rfl rfl rfl (fun _ _ => ⟨rfl, rfl⟩) rfl (.same rfl) (.same rfl) (.same rfl)
        (.same rfl) (.of hbin trivial rfl)
        fun hseg => ⟨⟨hseg.contig, hseg.fits, hseg.unlisted.state.1, hseg.counts⟩, .same⟩
    · cases hs
      exact h.keep hi rfl rfl rfl (fun _ _ => ⟨rfl, rfl⟩) rfl (.same rfl) (.same rfl) (.same rfl)
        (.same rfl) (.of trivial trivial rfl) fun hseg => ⟨hseg.unlisted, .same⟩

/-- The segment at the front of the waiting ones is taken. -/
theorem Inv.takeXnp
    {ph₀ : Phase} {y : Nat} {ys : List Nat} {full : Bool} {t : State} (h : Inv cfg s)
    (hi : s.phase i = ph₀) (hnone : ph₀.hand = none) (hsegLock : ph₀.segLock = none)
    (hstage : ph₀.stageLock = none) (halloc : ph₀.allocating = none) (hq : s.queues .xnp = y :: ys)
    (ht : t = (s.dequeue i .xnp y).goto i (.rebin y full)) :
  Does cfg s t
  := by
  subst ht
  refine h.pick hi hnone (h.spot_of_head hq (by rintro b ⟨⟩)) trivial rfl rfl
    (fun _ _ => ⟨rfl, rfl⟩) rfl (.off rfl) (.of_eq hsegLock rfl) (.of_eq hstage rfl)
    (.of_eq halloc rfl) (.of trivial trivial rfl) ?_
  intro hseg
  refine ⟨⟨hseg.contig, hseg.fits, ?_, hseg.counts⟩, .same⟩
  intro hgc
  cases hgc.symm.trans hseg.state.1

theorem Inv.pushonePopone
    (h : Inv cfg s) (hi : s.phase i = .pushXnp x) :
  Does cfg s (s.pushonePopone cfg i x)
  := by
  unfold State.pushonePopone
  simp only
  generalize ht :
    (s.setSeg x { s.segs x with state := .gcXnp, priv := kXnpBinId }).enqueue .xnp x = t
  -- the segment is put behind the others, and then the first one is taken
  have hpushed : Does cfg s (t.goto i .idle) := by
    subst ht
    refine h.put hi rfl rfl rfl trivial (fun y hy => ⟨Function.update_of_ne hy _ _, rfl⟩) rfl
      (.on rfl) (.same rfl) (.same rfl) (.same rfl) (.of trivial trivial rfl) ?_
    intro hseg
    simp only [State.goto, State.enqueue, State.setSeg, State.setSpot, Function.update_self]
    exact ⟨⟨hseg.contig, hseg.fits, ⟨rfl, rfl⟩, hseg.counts⟩, .same⟩
  split
  · rename_i y ys hq
    split
    · have heq : (t.dequeue i .xnp y).goto i (.rebin y true)
          = ((t.goto i .idle).dequeue i .xnp y).goto i (.rebin y true) := by
        simp only [State.goto, State.dequeue, State.setSpot, Function.update_idem]
      exact .trans hpushed ((hpushed.inv h).takeXnp (Function.update_self ..) rfl rfl rfl rfl hq
        heq)
    · exact hpushed
  · exact hpushed

theorem Inv.rebin
    {full : Bool} (h : Inv cfg s) (hi : s.phase i = .rebin x full) (hs : s.go cfg i = some s') :
  Does cfg s s'
  := by
  have hseg := h.seg_hand hi rfl
  have hle := hseg.validNr_le hseg.counts.2.2
  simp only [State.go, hi] at hs
  cases hs
  refine h.keep hi rfl rfl rfl (fun _ _ => ⟨rfl, rfl⟩) rfl (.same rfl) (.same rfl) (.same rfl)
    (.same rfl) (.of ?_ trivial rfl) fun hseg => ⟨hseg, .same⟩
  rw [Phase.BinOk]
  split
  · exact cfg.isBin_seg2bin hle
  · exact cfg.isBin_div hle

/-- A segment is linked into a bin. -/
theorem SegOk.added
    {g : Segment} {rs : List Grains} (h : SegOk cfg x .loose g rs) (hb : cfg.IsBin b) :
  SegOk cfg x (.added b) { g with priv := b } rs
  := ⟨h.contig, h.fits, ⟨h.state, rfl, hb⟩, h.counts⟩

/-- A segment that is linked into a bin is marked. -/
theorem SegOk.binned
    {g : Segment} {rs : List Grains} (h : SegOk cfg x (.added b) g rs) :
  SegOk cfg x (.binned b) { g with state := .gc } rs
  := ⟨h.contig, h.fits, ⟨rfl, h.state.2⟩, h.counts⟩

theorem Inv.addToBin
    (h : Inv cfg s) (hi : s.phase i = .addToBin x b) :
  Does cfg s ((s.addToBin x b).goto i (.activate x b))
  := by
  refine h.keep hi rfl rfl rfl (fun y hy => ⟨Function.update_of_ne hy _ _, rfl⟩) rfl (.on rfl)
    (.same rfl) (.same rfl) (.same rfl) (.of trivial trivial rfl) ?_
  intro hseg
  simp only [State.goto, State.addToBin, State.setSeg, Function.update_self]
  exact ⟨hseg.added (h.phaseOk hi).bin, .same⟩

theorem Inv.activate
    (h : Inv cfg s) (hi : s.phase i = .activate x b) :
  Does cfg s (((s.setState x .gc).setSpot x (.on (.bin b))).goto i .idle)
  := by
  refine h.put hi rfl rfl rfl trivial (fun y hy => ⟨Function.update_of_ne hy _ _, rfl⟩) rfl
    (.same rfl) (.same rfl) (.same rfl) (.same rfl) (.of trivial trivial rfl) ?_
  intro hseg
  simp only [State.goto, State.setSpot, State.setState, State.setSeg, Function.update_self]
  exact ⟨hseg.binned, .same⟩

/-- A segment with no valid grains goes to a free queue. -/
theorem Inv.putFreeSeg
    {ph₀ ph : Phase} (h : Inv cfg s) (hi : s.phase i = ph₀) (hhand : ph₀.hand = some x)
    (hlife : ph₀.life = .dead) (hseen : ph₀.seen = .closed ∨ ph₀.seen = .free)
    (hto : ph.hand = none) (hsegLock : ph₀.segLock = ph.segLock)
    (hstage : ph₀.stageLock = ph.stageLock) (halloc : ph₀.allocating = ph.allocating)
    (hok : ph.Ok cfg ((s.putFreeSeg cfg x).goto i ph).queues) :
  Does cfg s ((s.putFreeSeg cfg x).goto i ph)
  := by
  have hplace : ph₀.life.place = none := by rw [hlife]; rfl
  have hturns : ∀ {rs : List Grains}, Unused rs → Turns cfg x ph₀.seen rs .free rs := by
    intro rs hunused
    obtain hclosed | hfree := hseen
    · rw [hclosed]
      exact .free (.inl rfl) hunused
    · rw [hfree]
      exact .same
  revert hok
  unfold State.putFreeSeg
  simp only
  split
  all_goals
    intro hok
    refine h.put hi hhand rfl rfl trivial (fun y hy => ⟨Function.update_of_ne hy _ _, rfl⟩) hto
      (hplace ▸ .on rfl) (.of_eq hsegLock rfl) (.of_eq hstage rfl) (.of_eq halloc rfl) hok ?_
    intro hseg
    rw [hlife] at hseg
    simp only [State.goto, State.enqueue, State.setSpot, State.setSeg, Function.update_self]
  · exact ⟨hseg.free .freeRel (.inr rfl), hturns hseg.unused⟩
  · exact ⟨hseg.free .free (.inl rfl), hturns hseg.unused⟩

theorem Inv.recycleZero
    {ph₀ ph : Phase} (h : Inv cfg s) (hi : s.phase i = ph₀) (hhand : ph₀.hand = some x)
    (hlife : ph₀.life = .dead) (hseen : ph₀.seen = .closed) (hto : ph.hand = none)
    (hsegLock : ph₀.segLock = ph.segLock) (hstage : ph₀.stageLock = ph.stageLock)
    (halloc : ph₀.allocating = ph.allocating) (hbin : ph.BinOk cfg) (hlen : ph.LenOk cfg)
    (hawait : ph.awaits = none) :
  Does cfg s ((s.recycleZero cfg x).goto i ph)
  := by
  have hplace : ph₀.life.place = none := by rw [hlife]; rfl
  unfold State.recycleZero
  split
  · refine h.put hi hhand rfl rfl trivial (fun _ _ => ⟨rfl, rfl⟩) hto (hplace ▸ .same rfl)
      (.of_eq hsegLock rfl) (.of_eq hstage rfl) (.of_eq halloc rfl) (.of hbin hlen hawait) ?_
    intro hseg
    rw [hlife] at hseg
    rw [hseen]
    exact ⟨⟨hseg.contig, hseg.fits, hseg.state, hseg.counts⟩, .defer hseg.unused⟩
  · exact h.putFreeSeg hi hhand hlife (.inl hseen) hto hsegLock hstage halloc (.of hbin hlen hawait)

end Bins

/-! ### Invalidations -/

section Invalidate

/-- A segment in a bin whose grains are all invalid is taken out of use. -/
theorem SegOk.deadOn
    {g : Segment} {rs : List Grains} (h : SegOk cfg x (.binned b) g rs) (hzero : g.validNr = 0) :
  SegOk cfg x (.deadOn b) { g with state := .invalid } rs
  := by
  obtain ⟨hheld, hnr4, hlive⟩ := h.counts
  exact ⟨h.contig, h.fits, ⟨by rintro ⟨⟩, h.state.2⟩, hheld, hnr4, hlive ▸ hzero, hzero⟩

theorem Inv.lookup
    (h : Inv cfg s) (hi : s.phase i = .lookup x validNr) (hlock : s.segLock x = none) :
  Does cfg s (s.lookup cfg i x validNr)
  := by
  unfold State.lookup
  simp only
  split
  · exact .goto hi rfl rfl rfl rfl rfl (.of trivial trivial rfl)
  · rename_i hgc
    have hx := h.binned_of_gc (Classical.not_not.mp hgc) hlock
    have hseg := h.seg_spot hx (by rintro j ⟨⟩)
    have hle := hseg.validNr_le hseg.counts.2.2
    split
    · rename_i hzero
      refine h.pick hi rfl hx trivial rfl rfl (fun y hy => ⟨Function.update_of_ne hy _ _, rfl⟩)
        rfl (.same rfl) (.same rfl) (.same rfl) (.same rfl) (.of trivial trivial rfl) ?_
      intro hseg
      simp only [State.goto, State.setSpot, State.setState, State.setSeg, Function.update_self]
      exact ⟨hseg.deadOn hzero, .same⟩
    · split
      · exact h.pick hi rfl hx trivial rfl rfl (fun _ _ => ⟨rfl, rfl⟩) rfl (.same rfl)
          (.take hlock rfl) (.same rfl) (.same rfl) (.of trivial trivial rfl)
          fun hseg => ⟨⟨hseg.contig, hseg.fits, hseg.state, hseg.counts⟩, .same⟩
      · split
        · exact .goto hi rfl rfl rfl rfl rfl (.of trivial trivial rfl)
        · exact h.pick hi rfl hx trivial rfl rfl (fun _ _ => ⟨rfl, rfl⟩) rfl (.same rfl)
            (.take hlock rfl) (.same rfl) (.same rfl) (.of (cfg.isBin_seg2bin hle) trivial rfl)
            fun hseg => ⟨⟨hseg.contig, hseg.fits, hseg.state, hseg.counts⟩, .same⟩

theorem Does.cherryLock
    (hi : s.phase i = .cherryLock x validNr) (hs : s.go cfg i = some s') :
  Does cfg s s'
  := by
  simp only [State.go, hi] at hs
  obtain ⟨hlock, hs⟩ := Option.ite_none_right_eq_some.mp hs
  split at hs
  · cases hs
    exact .stay ⟨hi, rfl, rfl, rfl, rfl, rfl, rfl, rfl, .take hlock rfl, .same rfl, .same rfl,
      .of trivial trivial rfl⟩
  · cases hs
    exact .goto hi rfl rfl rfl rfl rfl (.of trivial trivial rfl)

theorem Inv.cherryPop
    (h : Inv cfg s) (hi : s.phase i = .cherryPop x validNr) (hs : s.go cfg i = some s') :
  Does cfg s s'
  := by
  simp only [State.go, hi] at hs
  split at hs
  · rename_i hmem
    cases hs
    refine h.pick hi rfl (h.spot_of_mem hmem (by rintro b ⟨⟩)) trivial rfl rfl
      (fun _ _ => ⟨rfl, rfl⟩) rfl (.off rfl) (.same rfl) (.same rfl) (.same rfl)
      (.of trivial trivial rfl) ?_
    intro hseg
    refine ⟨⟨hseg.contig, hseg.fits, ?_, hseg.counts⟩, .same⟩
    intro hgc
    cases hgc.symm.trans hseg.state.1
  · cases hs
    exact .stay ⟨hi, rfl, rfl, rfl, rfl, rfl, rfl, rfl, .drop rfl, .same rfl, .same rfl,
      .of trivial trivial rfl⟩

theorem Inv.cherryTake
    (h : Inv cfg s) (hi : s.phase i = .cherryTake x) (hs : s.go cfg i = some s') :
  Does cfg s s'
  := by
  have hseg := h.seg_hand hi rfl
  have hle := hseg.validNr_le hseg.counts.2.2
  simp only [State.go, hi] at hs
  split at hs
  · rename_i hzero
    cases hs
    exact h.keep hi rfl rfl rfl (fun _ _ => ⟨rfl, rfl⟩) rfl (.same rfl) (.same rfl) (.same rfl)
      (.same rfl) (.of trivial trivial rfl) fun hseg => ⟨hseg.dead (.inr rfl) hzero, .same⟩
  · cases hs
    exact h.keep hi rfl rfl rfl (fun _ _ => ⟨rfl, rfl⟩) rfl (.same rfl) (.same rfl) (.same rfl)
      (.same rfl) (.of (cfg.isBin_seg2bin hle) trivial rfl) fun hseg => ⟨hseg, .same⟩

theorem Inv.cherryAdd
    (h : Inv cfg s) (hi : s.phase i = .cherryAdd x b) :
  Does cfg s ((s.addToBin x b).goto i (.cherryOn x b))
  := by
  refine h.keep hi rfl rfl rfl (fun y hy => ⟨Function.update_of_ne hy _ _, rfl⟩) rfl (.on rfl)
    (.same rfl) (.same rfl) (.same rfl) (.of trivial trivial rfl) ?_
  intro hseg
  simp only [State.goto, State.addToBin, State.setSeg, Function.update_self]
  exact ⟨hseg.added (h.phaseOk hi).bin, .same⟩

theorem Inv.cherryOn
    (h : Inv cfg s) (hi : s.phase i = .cherryOn x b) :
  Does cfg s ((((s.setState x .gc).setSpot x (.on (.bin b))).unlockSeg x).goto i .idle)
  := by
  refine h.put hi rfl rfl rfl trivial (fun y hy => ⟨Function.update_of_ne hy _ _, rfl⟩) rfl
    (.same rfl) (.drop rfl) (.same rfl) (.same rfl) (.of trivial trivial rfl) ?_
  intro hseg
  simp only [State.goto, State.unlockSeg, State.setSpot, State.setState, State.setSeg,
    Function.update_self]
  exact ⟨hseg.binned, .same⟩

theorem Inv.zeroRm
    (h : Inv cfg s) (hi : s.phase i = .zeroRm x b) :
  Does cfg s ((s.dequeue i (.bin b) x).goto i (.recycleSeg x))
  :=
  h.keep hi rfl rfl (h.spot_self hi rfl) (fun _ _ => ⟨rfl, rfl⟩) rfl (.off rfl) (.same rfl)
    (.same rfl) (.same rfl) (.of trivial trivial rfl)
    fun hseg => ⟨⟨hseg.contig, hseg.fits, hseg.state.1, hseg.counts⟩, .same⟩

theorem Inv.firstRm
    (h : Inv cfg s) (hi : s.phase i = .firstRm x b) :
  Does cfg s ((s.dequeue i (.bin b) x).goto i (.firstOff x))
  :=
  h.keep hi rfl rfl (h.spot_self hi rfl) (fun _ _ => ⟨rfl, rfl⟩) rfl (.off rfl) (.same rfl)
    (.same rfl) (.same rfl) (.of trivial trivial rfl)
    fun hseg => ⟨⟨hseg.contig, hseg.fits, hseg.state.1, hseg.counts⟩, .same⟩

theorem Inv.firstOff
    (h : Inv cfg s) (hi : s.phase i = .firstOff x) :
  Does cfg s (((s.setState x .invalid).unlockSeg x).goto i (.pushXnp x))
  := by
  refine h.keep hi rfl rfl rfl (fun y hy => ⟨Function.update_of_ne hy _ _, rfl⟩) rfl (.same rfl)
    (.drop rfl) (.same rfl) (.same rfl) (.of trivial trivial rfl) ?_
  intro hseg
  simp only [State.goto, State.unlockSeg, State.setState, State.setSeg, Function.update_self]
  exact ⟨⟨hseg.contig, hseg.fits, ⟨by rintro ⟨⟩, by rintro ⟨⟩⟩, hseg.counts⟩, .same⟩

theorem Inv.moveRm
    {newbin : Nat} (h : Inv cfg s) (hi : s.phase i = .moveRm x b newbin) :
  Does cfg s ((s.dequeue i (.bin b) x).goto i (.moveAdd x newbin))
  :=
  h.keep hi rfl rfl (h.spot_self hi rfl) (fun _ _ => ⟨rfl, rfl⟩) rfl (.off rfl) (.same rfl)
    (.same rfl) (.same rfl) (.of (h.phaseOk hi).bin trivial rfl)
    fun hseg => ⟨⟨hseg.contig, hseg.fits, hseg.state.1, hseg.counts⟩, .same⟩

theorem Inv.moveAdd
    (h : Inv cfg s) (hi : s.phase i = .moveAdd x b) :
  Does cfg s ((s.addToBin x b).goto i (.moveOn x b))
  := by
  refine h.keep hi rfl rfl rfl (fun y hy => ⟨Function.update_of_ne hy _ _, rfl⟩) rfl (.on rfl)
    (.same rfl) (.same rfl) (.same rfl) (.of trivial trivial rfl) ?_
  intro hseg
  simp only [State.goto, State.addToBin, State.setSeg, Function.update_self]
  exact ⟨⟨hseg.contig, hseg.fits, ⟨hseg.state, rfl, (h.phaseOk hi).bin⟩, hseg.counts⟩, .same⟩

theorem Inv.moveOn
    (h : Inv cfg s) (hi : s.phase i = .moveOn x b) :
  Does cfg s (((s.setSpot x (.on (.bin b))).unlockSeg x).goto i .idle)
  :=
  h.put hi rfl rfl rfl trivial (fun _ _ => ⟨rfl, rfl⟩) rfl (.same rfl) (.drop rfl) (.same rfl)
    (.same rfl) (.of trivial trivial rfl)
    fun hseg => ⟨⟨hseg.contig, hseg.fits, hseg.state, hseg.counts⟩, .same⟩

end Invalidate

/-! ### The collector -/

section Collector

theorem Does.choose
    (hi : s.phase i = .choose b) (hs : s.go cfg i = some s') :
  Does cfg s s'
  := by
  simp only [State.go, hi] at hs
  split at hs
  · split at hs
    · cases hs
      exact .goto hi rfl rfl rfl rfl rfl (.of trivial trivial rfl)
    · cases hs
      exact .goto hi rfl rfl rfl rfl rfl (.of trivial trivial rfl)
  · cases hs
    exact .goto hi rfl rfl rfl rfl rfl (.of trivial trivial rfl)

theorem Inv.take
    (h : Inv cfg s) (hi : s.phase i = .take b x) (hs : s.go cfg i = some s') :
  Does cfg s s'
  := by
  simp only [State.go, hi] at hs
  obtain ⟨hlock, hs⟩ := Option.ite_none_right_eq_some.mp hs
  split at hs
  · rename_i hgc
    cases hs
    refine h.pick hi rfl (h.binned_of_gc hgc hlock) trivial rfl rfl
      (fun y hy => ⟨Function.update_of_ne hy _ _, rfl⟩) rfl (.same rfl) (.same rfl) (.same rfl)
        (.same rfl)
      (.of trivial trivial rfl) ?_
    intro hseg
    simp only [State.goto, State.setSpot, State.setState, State.setSeg, Function.update_self]
    exact ⟨⟨hseg.contig, hseg.fits, ⟨by rintro ⟨⟩, hseg.state.2⟩, hseg.counts⟩, .same⟩
  · cases hs
    exact .goto hi rfl rfl rfl rfl rfl (.of trivial trivial rfl)

theorem Inv.takeRm
    (h : Inv cfg s) (hi : s.phase i = .takeRm x b) :
  Does cfg s ((s.dequeue i (.bin b) x).goto i (.reloc x))
  :=
  h.keep hi rfl rfl (h.spot_self hi rfl) (fun _ _ => ⟨rfl, rfl⟩) rfl (.off rfl) (.same rfl)
    (.same rfl) (.same rfl) (.of trivial trivial rfl)
    fun hseg => ⟨⟨hseg.contig, hseg.fits, hseg.state.1, hseg.counts⟩, .pick hseg.counts.1⟩

theorem Inv.popXnp
    (h : Inv cfg s) (hi : s.phase i = .popXnp) (hs : s.go cfg i = some s') :
  Does cfg s s'
  := by
  simp only [State.go, hi] at hs
  split at hs
  · rename_i y ys hq
    cases hs
    exact h.takeXnp hi rfl rfl rfl rfl hq rfl
  · cases hs
    exact .goto hi rfl rfl rfl rfl rfl (.of trivial trivial rfl)

end Collector

end UDepot.Salsa
