import UDepot.Store.OpSteps

/-!
# The garbage collector keeps the invariants

What holds of a pass of the collector between its steps (`GcInv`): its victim stays a victim, what
it has read of it is what is there, no entry points at a part of it that the walk has passed, and
the entry it is relocating is still the directory's, because the stripes of its key are locked.
-/

namespace UDepot

section

variable (env : StoreEnv) (c : Core)

/-- A pass over a victim, up to a grain. -/
structure Walking (p : GcPass) : Prop where
  victim : c.phase p.victim = .victim
  timestamp : c.segTimestamps p.victim = p.victimTs
  buf : ∀ {q}, env.geo.segOf q = p.victim → p.buf q = c.recs q
  base : env.geo.segBase p.victim ≤ p.grain
  rest : ∀ {x}, x ∈ c.curSnap.items → env.geo.segOf x.2.pba = p.victim → p.grain ≤ x.2.pba

/-- The entry of the record under the walk. -/
structure Here (p : GcPass) (r : Rec) (e : EntryInfo) : Prop where
  mem : env.item r p.grain ∈ c.curSnap.items
  entry : e = (env.item r p.grain).2

/-- The range a record is to be copied to. -/
structure Target (r : Rec) (dst : Nat) : Prop where
  owned : Owned c .gc dst r.grains
  mdOk : c.segMdOk (env.geo.segOf dst) = true
  later : r.timestamp < c.segTimestamps (env.geo.segOf dst)

/-- What a stage of `gc_record` says. -/
def GcStage.Ok (p : GcPass) (r : Rec) (e : EntryInfo) (sec : ReadSection) : GcStage → Prop
  | .alloc _ => Here env c p r e
  | .compare _ dst => Here env c p r e ∧ Owned c .gc dst r.grains
  | .check dst => Here env c p r e ∧ Owned c .gc dst r.grains
      ∧ r.timestamp < c.segTimestamps (env.geo.segOf dst)
  | .stamp dst => Here env c p r e ∧ Target env c r dst
  | .write dst ts => Here env c p r e ∧ Target env c r dst
      ∧ ts = c.segTimestamps (env.geo.segOf dst)
  | .repoint dst => Here env c p r e ∧ Target env c r dst
      ∧ c.recs dst = some { r with timestamp := c.segTimestamps (env.geo.segOf dst) }
  | .calls todo next => CallsOk env c sec todo ∧ match next with
    | .advance => ∀ {x}, x ∈ c.curSnap.items → env.geo.segOf x.2.pba = p.victim →
        p.grain + r.grains ≤ x.2.pba
    | .fail | .retry _ => Here env c p r e

structure Relocating (p : GcPass) (r : Rec) (e : EntryInfo) (sec : ReadSection)
    (stage : GcStage) : Prop extends Walking env c p where
  active : sec ∈ c.sections
  actor : sec.2 = .gc
  inside : p.grain < GcPhase.endGrain env p
  record : GcPhase.recordHere env p = some r
  stage : stage.Ok env c p r e sec

def GcInv : GcPhase → Prop
  | .idle => True
  | .scan v vts _ _ _ => c.phase v = .victim ∧ c.segTimestamps v = vts
  | .walk p => Walking env c p
  | .relocate p r e sec stage => Relocating env c p r e sec stage
  | .sync v => ∃ waits, c.phase v = .syncing waits

end

section

variable {env : StoreEnv} {c c' : Core} {lock : Option Nat} {p : GcPass} {r : Rec} {e : EntryInfo}
    {sec : ReadSection}

/-! ### Other actors do not disturb a pass -/

theorem Walking.of_victimKept (hw : Walking env c p) (hk : VictimKept env c c' lock) :
    Walking env c' p := by
  obtain ⟨hv, hts, -⟩ := hk.victim _ hw.victim
  constructor
  · apply hv
  · rw [hts]
    apply hw.timestamp
  · intro q hq
    rw [hk.recs q (by rw [hq]; apply hw.victim)]
    apply hw.buf hq
  · apply hw.base
  · intro x hx hseg
    apply hw.rest (hk.items x hx (by rw [hseg]; apply hw.victim)) hseg

theorem Here.of_victimKept
    (hh : Here env c p r e) (hk : VictimKept env c c' (some (env.hashKey r.key))) :
  Here env c' p r e
  where
  mem := hk.locked _ hh.mem _ rfl rfl rfl
  entry := hh.entry

theorem Target.of_tokens {dst : Nat} (ht : Target env c r dst) (hk : Tokens env c c' .gc) :
    Target env c' r dst := by
  obtain ⟨hts, hok⟩ := hk.arrays ht.owned
  exact ⟨hk.owned ht.owned, hok.trans ht.mdOk, hts ▸ ht.later⟩

theorem GcStage.Ok.of_tokens
    {stage : GcStage} (hst : stage.Ok env c p r e sec) (hw : Walking env c p)
    (hs : sec ∈ c.sections) (hsec : sec.2 = .gc)
    (hk : VictimKept env c c' (some (env.hashKey r.key))) (ht : Tokens env c c' .gc) :
  stage.Ok env c' p r e sec
  := by
  cases stage with
  | alloc => apply hst.of_victimKept hk
  | compare attempt dst => exact ⟨hst.1.of_victimKept hk, ht.owned hst.2⟩
  | check dst =>
      obtain ⟨hh, ho, hlt⟩ := hst
      exact ⟨hh.of_victimKept hk, ht.owned ho, (ht.arrays ho).1 ▸ hlt⟩
  | stamp dst => exact ⟨hst.1.of_victimKept hk, hst.2.of_tokens ht⟩
  | write dst ts =>
      obtain ⟨hh, htarget, hts⟩ := hst
      exact ⟨hh.of_victimKept hk, htarget.of_tokens ht, hts.trans (ht.arrays htarget.owned).1.symm⟩
  | repoint dst =>
      obtain ⟨hh, htarget, hr⟩ := hst
      refine ⟨hh.of_victimKept hk, htarget.of_tokens ht, ?_⟩
      rw [(ht.arrays htarget.owned).1]
      exact ht.written (r := { r with timestamp := _ }) htarget.owned hr
  | calls todo next =>
      refine ⟨hst.1.of_tokens hs (by rw [hsec]; apply ht), ?_⟩
      cases next with
      | advance =>
          intro x hx hseg
          apply hst.2 (hk.items x hx (by rw [hseg]; apply hw.victim)) hseg
      | fail | retry => exact Here.of_victimKept hst.2 hk

/-- A step of another actor does not disturb the collector. -/
theorem GcInv.of_frame
    {g : GcPhase} (hg : GcInv env c g) {b : Option Actor}
    (hf : Frame env c c' (g.locked env) b) (hb : b ≠ some .gc) :
  GcInv env c' g
  := by
  have hk := hf.victim hb
  have ht := hf.tokens .gc hb
  cases g with
  | idle => trivial
  | scan v vts i drop saw =>
      obtain ⟨hv, hts, -⟩ := hk.victim v hg.1
      exact ⟨hv, hts.trans hg.2⟩
  | walk p => apply Walking.of_victimKept hg hk
  | relocate p r e sec stage =>
      exact ⟨hg.toWalking.of_victimKept hk, ht.sections sec hg.active hg.actor, hg.actor, hg.inside,
        hg.record, hg.stage.of_tokens hg.toWalking hg.active hg.actor hk ht⟩
  | sync v =>
      obtain ⟨waits, hv⟩ := hg
      exact ⟨waits, hk.syncing v waits hv⟩

/-! ### The walk -/

theorem GcPhase.recordHere_eq_some :
    GcPhase.recordHere env p = some r ↔ p.buf p.grain = some r ∧ r.key.length ≠ 0
      ∧ r.timestamp = p.victimTs ∧ r.grains ≤ kKvSizeMask
      ∧ p.grain + r.grains ≤ GcPhase.endGrain env p := by
  simp [GcPhase.recordHere, Option.filter_eq_some_iff, and_assoc]

theorem Walking.segOf_grain (hw : Walking env c p) (hlt : p.grain < GcPhase.endGrain env p) :
    env.geo.segOf p.grain = p.victim := env.geo.segOf_eq hw.base hlt

/-- The record under the walk is the one on the device. -/
theorem Walking.record
    (hw : Walking env c p) (hlt : p.grain < GcPhase.endGrain env p)
    (hr : GcPhase.recordHere env p = some r) :
  c.recs p.grain = some r ∧ c.segTimestamps (env.geo.segOf p.grain) = r.timestamp
  := by
  obtain ⟨hbuf, -, hts, -⟩ := GcPhase.recordHere_eq_some.mp hr
  rw [hw.segOf_grain hlt, hw.timestamp, ← hw.buf (hw.segOf_grain hlt)]
  exact ⟨hbuf, hts.symm⟩

section

variable (h : c.Inv env) (hw : Walking env c p)

include h hw

/-- An entry at the walk's grain is of a record the walk finds. -/
theorem Walking.recordHere_of_entry
    {x : Nat × EntryInfo} (hx : x ∈ c.curSnap.items)
    (hseg : env.geo.segOf x.2.pba = p.victim) (hp : x.2.pba = p.grain) :
  ∃ r, GcPhase.recordHere env p = some r
  := by
  obtain ⟨r, hr⟩ := h.dir.pointed hx
  have hrec := hr.current.record
  have hts := hr.current.timestamp
  have hshape := h.recs.shape hrec
  have hfits := hshape.fits
  rw [hseg] at hts hfits
  rw [hp] at hrec hfits
  use r
  apply GcPhase.recordHere_eq_some.mpr
  refine ⟨?_, hshape.key, hts.symm.trans hw.timestamp, hshape.small, hfits⟩
  rw [hw.buf (by rw [← hp, hseg])]
  apply hrec

/-- The other entries into the victim are past the record under the walk. -/
theorem Walking.past
    (hlt : p.grain < GcPhase.endGrain env p) (hr : GcPhase.recordHere env p = some r)
    {x : Nat × EntryInfo} (hx : x ∈ c.curSnap.items)
    (hseg : env.geo.segOf x.2.pba = p.victim) (hne : x.2.pba ≠ p.grain) :
  p.grain + r.grains ≤ x.2.pba
  := by
  obtain ⟨hrec, hts⟩ := hw.record hlt hr
  have hgrain := hw.segOf_grain hlt
  obtain ⟨r', hr'⟩ := h.dir.pointed hx
  obtain ⟨rg', hrg', -⟩ := hr'.current.range
  have hok := hr'.current.mdOk
  rw [hseg] at hok
  obtain ⟨rg, hrg, hlen⟩ := h.life hrec (by rw [hgrain, hw.victim]; rfl) (by rw [hgrain, hok]) hts
  have hle := hw.rest hx hseg
  rw [← hlen]
  apply h.ranges.disjoint hrg hrg' (Nat.lt_of_le_of_ne hle hne.symm)

/-- At the end of the walk no entry points into the victim. -/
theorem Walking.none_left
    (hend : ¬ p.grain < GcPhase.endGrain env p) {x : Nat × EntryInfo}
    (hx : x ∈ c.curSnap.items) :
  env.geo.segOf x.2.pba ≠ p.victim
  := by
  intro hseg
  have hle := hw.rest hx hseg
  obtain ⟨r, hr⟩ := h.dir.pointed hx
  obtain ⟨rg, hrg, -⟩ := hr.current.range
  have hfits := h.ranges.fits hrg
  have hpos := h.ranges.pos hrg
  rw [hseg] at hfits
  rw [GcPhase.endGrain] at hend
  omega

/-- The entry at the walk's grain is the one of the record there. -/
theorem Walking.entry_eq
    (hlt : p.grain < GcPhase.endGrain env p) (hr : GcPhase.recordHere env p = some r)
    {x : Nat × EntryInfo} (hx : x ∈ c.curSnap.items) (hp : x.2.pba = p.grain) :
  x = env.item r p.grain
  := by
  obtain ⟨hrec, -⟩ := hw.record hlt hr
  rw [← hp] at hrec ⊢
  apply (h.item_eq hx hrec).2.2

end

/-! ### Steps of the collector -/

/-- The collector removes the entry of a tombstone in its victim. -/
structure Drops (env : StoreEnv) (c c' : Core) (p : GcPass) (r : Rec) : Prop where
  items : c.curSnap.items = env.item r p.grain ::ₘ c'.curSnap.items
  record : c.recs p.grain = some r
  tombstone : r.value = none
  walking : Walking env c p
  segOf : env.geo.segOf p.grain = p.victim
  allowed : p.dropTombstones = true
  segs : c'.toSegTable = c.toSegTable
  recs : c'.recs = c.recs
  committed : c'.committed = c.committed
  dropped : c'.dropped = ⟨r.key, r.timestamp, p.grain⟩ :: c.dropped

theorem Drops.mem_items
    (hd : Drops env c c' p r) :
  env.item r p.grain ∈ c.curSnap.items
  := by
  rw [hd.items]
  apply Multiset.mem_cons_self

theorem Drops.mem_before
    (hd : Drops env c c' p r) {x : Nat × EntryInfo}
    (hx : x ∈ c'.curSnap.items) :
  x ∈ c.curSnap.items
  := by
  rw [hd.items]
  apply Multiset.mem_cons_of_mem hx

/-- The record of the tombstone was committed, with the timestamp of the victim. -/
theorem Drops.committed_victim
    (hd : Drops env c c' p r) (h : c.Inv env) :
  ⟨r.key, r.timestamp, p.grain⟩ ∈ c.committed ∧ r.timestamp = p.victimTs
  := by
  obtain ⟨r', hr'⟩ := h.dir.pointed hd.mem_items
  cases hr'.current.record.symm.trans hd.record
  use hr'.current.committed
  rw [← hr'.current.timestamp, ← hd.walking.timestamp]
  exact congrArg c.segTimestamps hd.segOf

/-- What a step of the collector does: it keeps the invariants, and it leaves the directory alone,
moves a record, or drops a tombstone. -/
structure GcStep (env : StoreEnv) (c c' : Core) (g g' : GcPhase) : Prop where
  frame : ∀ lock, Frame env c c' lock (some .gc)
  inv : GcInv env c' g'
  effect : Quiet c c'
    ∨ (∃ p r e sec dst, g = .relocate p r e sec (.repoint dst) ∧ Commits env .gc c c' dst
      { r with timestamp := c.segTimestamps (env.geo.segOf dst) } (some (e, r)))
    ∨ ∃ p r, g = .walk p ∧ Drops env c c' p r

end

end UDepot
