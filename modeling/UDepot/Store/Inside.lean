import UDepot.HashTable.Packed
import UDepot.Store.Inversion
import UDepot.Store.Opened

/-!
# Segments on the device

A segment is taken for use only if it is one of the device's, and nothing but a taken segment comes
into use.  So in every run the segments that are not free are on the device, and with them the
records that the directory points at or that a read section has come upon.

The directory keeps an entry as a word of 64 bits.  If every place of the device has a grain number
that an entry can hold (`Geometry.Addressable`), the entries are read back as they were stored
(`State.Inv.survives`).
-/

namespace UDepot

open Transition HashEntry

/-- Every segment that is not free is on the device. -/
def Core.Inside (geo : Geometry) (c : Core) : Prop :=
  ∀ seg, c.phase seg ≠ .free → seg < geo.numSegments

/-- The metadata of the segment was written, if it has come so far; `mdOk` is its `seg_md_ok_`. -/
def SegPhase.Good (mdOk : Bool) : SegPhase → Prop
  | .stamping _ _ (.wrote ok) => ok = true
  | .stamping _ _ (.okStored ok) => ok = true ∧ mdOk = true
  | .opened _ _ => mdOk = true
  | _ => True

/-- A step takes no free segment, and opens or stamps none. -/
structure NoneTaken (c c' : Core) : Prop where
  free : ∀ seg, c'.phase seg ≠ .free → c.phase seg ≠ .free
  mdOk : c'.segMdOk = c.segMdOk
  good : ∀ seg {mdOk}, (c.phase seg).Good mdOk → (c'.phase seg).Good mdOk

section

variable {env : StoreEnv} {c c' : Core} {lock : Option Nat} {i : Nat}

/-- A segment in use changes its phase. -/
theorem NoneTaken.update
    {seg : Nat} {ph : SegPhase} (hne : c.phase seg ≠ .free)
    (hgood : ∀ {mdOk}, (c.phase seg).Good mdOk → ph.Good mdOk) (hmd : c'.segMdOk = c.segMdOk)
    (h : c'.phase = Function.update c.phase seg ph) :
  NoneTaken c c'
  := by
  refine ⟨fun seg' hseg' => ?_, hmd, fun seg' mdOk hseg' => ?_⟩
  · by_cases heq : seg' = seg
    · rw [heq]
      exact hne
    · rw [h, Function.update_of_ne heq] at hseg'
      exact hseg'
  · rw [h]
    by_cases heq : seg' = seg
    · subst heq
      rw [Function.update_self]
      exact hgood hseg'
    · rw [Function.update_of_ne heq]
      exact hseg'

theorem NoneTaken.closeWhere (p : Nat → Stream → Bool) : NoneTaken c (c.closeWhere p) := by
  refine ⟨fun seg hseg hfree => ?_, rfl, fun seg mdOk hgood => ?_⟩
  · apply hseg
    simp only [Core.closeWhere, hfree]
  · simp only [Core.closeWhere]
    split
    · rename_i stream pos hph
      split
      · trivial
      · rw [hph] at hgood
        exact hgood
    · exact hgood

theorem NoneTaken.call (x : Call) : NoneTaken c (c.call x) := by
  cases x with
  | invalidate | release => exact ⟨fun _ h => h, rfl, fun _ _ h => h⟩
  | drain stream => apply NoneTaken.closeWhere

theorem NoneTaken.allocate
    {a : Actor} {stream : Stream} {seg len pba : Nat}
    (h : c.allocate env.geo a stream seg len = some (c', pba)) :
  NoneTaken c c'
  := by
  rw [Core.allocate] at h
  split at h
  · rename_i stream' pos hph
    obtain ⟨-, ⟨⟩⟩ := Option.ite_none_right_eq_some.mp h
    refine NoneTaken.update ?_ ?_ rfl rfl
    · rw [hph]
      rintro ⟨⟩
    · rw [hph]
      exact fun hgood => hgood
  · cases h

/-! ### Steps -/

theorem Op.Steps.noneTaken
    {o o' : Op} {a : OpAct} (h : Op.Steps env c i o lock a c' o') :
  NoneTaken c c'
  := by
  cases h with
  | allocate _ ha | allocateBad _ ha => apply NoneTaken.allocate ha
  | call hph => apply NoneTaken.call
  | commit hph hlock hmay hset hv h => cases h <;> exact ⟨fun _ h => h, rfl, fun _ _ h => h⟩
  | _ => exact ⟨fun _ h => h, rfl, fun _ _ h => h⟩

theorem NoneTaken.setPhase
    {seg : Nat} {ph ph' : SegPhase} (hph : c.phase seg = ph) (hne : ph ≠ .free)
    (hgood : ∀ {mdOk}, ph'.Good mdOk) :
  NoneTaken c (c.setPhase seg ph')
  := by
  refine NoneTaken.update ?_ (fun _ => hgood) rfl rfl
  rw [hph]
  exact hne

theorem GcPhase.Relocates.noneTaken
    {p : GcPass} {r : Rec} {e : EntryInfo} {sec : ReadSection} {stage : GcStage} {a : GcAct}
    {g' : GcPhase} (hvictim : c.phase p.victim = .victim)
    (h : GcPhase.Relocates env c p r e sec stage a c' g') :
  NoneTaken c c'
  := by
  cases h with
  | allocate ha => apply NoneTaken.allocate ha
  | call => apply NoneTaken.call
  | fail =>
      have hset : NoneTaken (c.leave sec) ((c.leave sec).setPhase p.victim .closed) :=
        .setPhase hvictim nofun trivial
      exact ⟨hset.free, hset.mdOk, hset.good⟩
  | _ => exact ⟨fun _ h => h, rfl, fun _ _ h => h⟩

theorem GcPhase.Steps.noneTaken
    {g g' : GcPhase} {a : GcAct} (hinv : GcInv env c g) (h : GcPhase.Steps env c g a c' g') :
  NoneTaken c c'
  := by
  cases h with
  | pick hph hall => exact .setPhase hph nofun trivial
  | readFails hend => exact .setPhase hinv.1 nofun trivial
  | walkEnd hend => exact .setPhase hinv.victim nofun trivial
  | relocate h => apply h.noneTaken hinv.victim
  | @synced v waits hph hended =>
      have hset : NoneTaken c (c.setPhase v .free) := .setPhase hph nofun trivial
      exact ⟨hset.free, hset.mdOk, hset.good⟩
  | _ => exact ⟨fun _ h => h, rfl, fun _ _ h => h⟩

/-- A step of no actor takes no segment, unless it is one of a metadata callback. -/
theorem Core.EnvSteps.noneTaken
    {geo : Geometry} {a : Act} (h : c.EnvSteps geo a c') :
  NoneTaken c c' ∨ ∃ seg t, c.toSegTable.Turns geo seg a t ∧ c' = { c with toSegTable := t }
  := by
  cases h with
  | turn hturn => exact .inr ⟨_, _, hturn, rfl⟩
  | closeSegment seg => exact .inl (NoneTaken.closeWhere _)
  | deferFree hph _ => exact .inl (.setPhase hph (by rintro ⟨⟩) trivial)
  | freeDeferred hph _ =>
      have hset : NoneTaken c (c.setPhase _ .free) := .setPhase hph (by rintro ⟨⟩) trivial
      exact .inl ⟨hset.free, hset.mdOk, hset.good⟩
  | growFreeze | growPublish => exact .inl ⟨fun _ h => h, rfl, fun _ _ h => h⟩

/-- A metadata callback is for a segment of the device, and leaves the others alone. -/
theorem SegTable.Turns.phase
    {geo : Geometry} {t t' : SegTable} {seg : Nat} {a : Act} (h : t.Turns geo seg a t') :
  (t.phase seg = .free → seg < geo.numSegments)
    ∧ ∀ {j}, j ≠ seg → t'.phase j = t.phase j ∧ t'.segMdOk j = t.segMdOk j
  := by
  constructor
  · intro hfree
    cases h with
    | take _ hlt | takeIndex _ hlt => exact hlt
    | write _ hph | timestamp hph | live hph | mdOk hph | opened hph | index hph | back hph
    | retire hph => cases hph.symm.trans hfree
  · intro j hj
    cases h <;> simp [hj]

/-- A step of no actor takes only segments of the device. -/
theorem Core.Inside.envStep
    (h : c.Inside env.geo) {a : Act} (hs : c.envStep env.geo a = some c') : c'.Inside env.geo := by
  intro j hj
  obtain hnone | ⟨seg, t, hturn, rfl⟩ := (Core.envSteps_of_envStep hs).noneTaken
  · exact h j (hnone.free j hj)
  · obtain ⟨hlt, hothers⟩ := hturn.phase
    by_cases heq : j = seg
    · subst heq
      by_cases hfree : c.phase j = .free
      · exact hlt hfree
      · exact h j hfree
    · rw [(hothers heq).1] at hj
      exact h j hj

theorem Core.Inside.step
    {s s' : State} {a : Act} (h : s.core.Inside env.geo) (hinv : s.Inv env)
    (hs : s.step env a = some s') :
  s'.core.Inside env.geo
  := by
  obtain ⟨i, kind, key, rfl, -, -, rfl⟩ | ⟨i, b, o, c', o', rfl, ho, hstep, rfl⟩
    | ⟨b, c', g', rfl, hstep, rfl⟩ | ⟨c', hc', rfl⟩ := State.step_cases hs
  · exact h
  · intro seg hseg
    exact h _ ((Op.steps_of_step hstep).noneTaken.free seg hseg)
  · intro seg hseg
    exact h _ (((GcPhase.steps_of_step hstep).noneTaken hinv.gc).free seg hseg)
  · exact h.envStep hc'

/-- Every segment in use is on the device, in every state a run reaches. -/
theorem Opened.inside_of_reach
    {s₀ s : State} {ok : State → Act → Prop} (hopen : Opened env s₀) (h : s₀.core.Inside env.geo)
    (hreach : Reach (State.step env) ok s₀ s) :
  s.core.Inside env.geo
  := by
  have hboth : s.Inv env ∧ s.core.Inside env.geo := by
    apply hreach.invariant ⟨hopen.inv, h⟩
    rintro s₁ a s₂ ⟨hinv, hin⟩ _ hstep
    exact ⟨(hinv.step hstep).inv, hin.step hinv hstep⟩
  exact hboth.2

/-- A record lies in the part of its segment that holds records. -/
theorem Rec.Shape.lt_device
    {geo : Geometry} {r : Rec} {pba : Nat} (h : r.Shape geo pba)
    (hseg : geo.segOf pba < geo.numSegments) :
  pba + r.grains + geo.segMdGrains ≤ geo.numSegments * geo.segSize
  := by
  have hfits := h.fits
  have hmd := geo.segMdGrains_lt
  have hbase : geo.segBase (geo.segOf pba) + geo.segSize ≤ geo.numSegments * geo.segSize := by
    rw [Geometry.segBase, ← Nat.succ_mul]
    exact Nat.mul_le_mul_right _ hseg
  rw [Geometry.dataGrains] at hfits
  omega

end

/-! ### Entries as words -/

/-- An entry fits its word, and is read back from it as it was stored; it says that its key is
deleted just if it points at a tombstone. -/
structure Survives (c : Core) (e : HashEntry) : Prop where
  offset : e.offset < kHopRange
  kvSize : e.val.kvSize < 2 ^ kKvSizeBits
  pba : e.val.pba < kUnusedPba
  packed : ofRaw (slotRaw (some e)) = some e
  deleted : ∃ r, c.recs e.val.pba = some r ∧ (e.val.deleted = true ↔ r.value = none)

/-- Every place of the device for a record has a grain number that an entry can hold. -/
def Geometry.Addressable (geo : Geometry) : Prop :=
  ∀ {pba r}, Rec.Shape geo r pba → geo.segOf pba < geo.numSegments → pba < kUnusedPba

section

variable {env : StoreEnv} {s : State}

theorem Rec.Shape.kvSize_lt {r : Rec} {pba : Nat} (h : r.Shape env.geo pba) :
    r.kvSize < 2 ^ kKvSizeBits := by
  have hsmall := h.small
  rw [kKvSizeMask] at hsmall
  rw [Rec.kvSize, kKvSizeBits]
  split
  · omega
  · decide

/-- An entry of a device whose places entries can hold. -/
theorem State.Inv.survives
    (h : s.Inv env) (hin : s.core.Inside env.geo) (hgeo : env.geo.Addressable) {j idx : Nat}
    {e : HashEntry} (hj : j < s.core.curSnap.size)
    (he : (s.core.curSnap.tables j).slots idx = some e) :
  Survives s.core e
  := by
  have hwf := h.core.dir.wf
  have hmem := hwf.mem_items_of_slot hj he
  obtain ⟨r, hr⟩ := h.core.dir.pointed (DirSnapshot.mem_items.mpr ⟨j, hj, hmem⟩)
  have hrec := hr.current.record
  have hshape := h.core.recs.shape hrec
  have hval : e.val = (env.item r e.val.pba).2 := congrArg Prod.snd hr.item
  have hseg : env.geo.segOf e.val.pba < env.geo.numSegments := by
    apply hin
    intro hfree
    have huse := hr.inUse
    rw [hfree] at huse
    cases huse
  have hkv : e.val.kvSize < 2 ^ kKvSizeBits := by
    rw [hval]
    exact hshape.kvSize_lt
  have hoff := (hwf.table hj).reach he
  refine ⟨hoff, hkv, hgeo hshape hseg, ?_, r, hrec, ?_⟩
  · apply ofRaw_slotRaw
    rintro _ ⟨⟩
    exact ⟨hoff, hwf.tag hj hmem, hkv, hgeo hshape hseg⟩
  · rw [hval]
    exact hshape.deleted_iff _

end

end UDepot
