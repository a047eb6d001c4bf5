import UDepot.Store.Order

/-!
# Dropping tombstones

A pass of the collector drops the tombstones in its victim if it has found no other segment that
may hold older records: it reads `seg_live_` and `seg_timestamps_` of one segment after the other.
A segment that is being stamped has taken its count before it stores `seg_live_`.  If no such
segment with a count below the victim's timestamp is passed over (`ScanSafe`), a drop is safe: a
crash does not bring back what was deleted, and the tombstone does not hide what is put later
(`tombstone_drop_safe`).  Without the condition it may hide it (`hidden_put`).
-/

namespace UDepot

open Transition Newest

/-- The segment is being stamped for records, with a count below `ts`. -/
def SegPhase.StampsBelow (ts : Nat) : SegPhase → Prop
  | .stamping stream ts' _ => stream ≠ .index ∧ ts' < ts
  | _ => False

instance (ts : Nat) (p : SegPhase) : Decidable (p.StampsBelow ts) := by
  unfold SegPhase.StampsBelow
  split <;> infer_instance

theorem SegPhase.Stamps.below
    {ts ts' : Nat} {p : SegPhase} (h : p.Stamps ts') (hlt : ts' < ts) :
  p.StampsBelow ts
  := by
  cases p with
  | stamping =>
      obtain ⟨hne, rfl⟩ := h
      exact ⟨hne, hlt⟩
  | _ => cases h

/-- If a step of the scan passes over a segment because its `seg_live_` is not set, the segment is
not being stamped with a count below the victim's timestamp. -/
def ScanSafe (s : State) (a : Act) : Prop :=
  match a, s.gc with
  | .gc .scanLive, .scan v vts i true false =>
      i ≠ v → s.core.segLive i = false → ¬ (s.core.phase i).StampsBelow vts
  | _, _ => True

instance (s : State) (a : Act) : Decidable (ScanSafe s a) := by
  unfold ScanSafe
  split <;> infer_instance

section

variable (env : StoreEnv) (c : Core)

/-- No record in a segment is older than `ts`, nor will be. -/
def NoneOlder (ts seg : Nat) : Prop := ∀ ts', Around env c seg ts' → ts ≤ ts'

/-- What a pass that may drop tombstones has found: nothing older than the victim in the segments it
has looked at. -/
def GcPhase.Scanned : GcPhase → Prop
  | .scan _ vts i drop _ => drop = true → ∀ j < i, NoneOlder env c vts j
  | .walk p | .relocate p _ _ _ _ =>
      p.dropTombstones = true → ∀ j < env.geo.numSegments, NoneOlder env c p.victimTs j
  | _ => True

end

section

variable {env : StoreEnv} {c c' : Core} {lock : Option Nat} {b : Option Actor}

theorem NoneOlder.of_frame
    {ts seg : Nat} (h : NoneOlder env c ts seg) (hf : Frame env c c' lock b) :
  NoneOlder env c' ts seg
  := fun ts' ha => h ts' (hf.around ha)

theorem GcPhase.Scanned.of_frame
    {g : GcPhase} (h : g.Scanned env c) (hf : Frame env c c' lock b) :
  g.Scanned env c'
  := by
  cases g with
  | scan => exact fun hdrop j hj => (h hdrop j hj).of_frame hf
  | walk | relocate => exact fun hdrop j hj => (h hdrop j hj).of_frame hf
  | idle | sync => trivial

/-- A segment whose timestamp is read. -/
theorem Core.Inv.noneOlder
    (h : c.Inv env) {ts seg : Nat} (hle : ts ≤ c.segTimestamps seg) :
  NoneOlder env c ts seg
  := by
  intro ts' ha
  refine Nat.le_trans hle ?_
  cases ha with
  | ranged => exact Nat.le_refl _
  | recoverable hp hr =>
      subst hp
      exact (h.recs.live hr.1 hr.2).2.le
  | stamping hst => exact ((h.segs.phase seg).stamps hst).2
  | later hlt => exact Nat.le_trans (h.timestamp_le seg) hlt.le

/-- A segment whose `seg_live_` is not set. -/
theorem Core.Inv.noneOlder_of_not_live
    (h : c.Inv env) {ts seg : Nat} (hlive : c.segLive seg = false)
    (hst : ¬ (c.phase seg).StampsBelow ts) (hle : ts ≤ c.segAllocNr) :
  NoneOlder env c ts seg
  := by
  intro ts' ha
  cases ha with
  | ranged hranged hok =>
      have hset := ((h.segs.phase seg).ranged hranged hok).2.1
      rw [hlive] at hset
      cases hset
  | recoverable hp hr =>
      subst hp
      have hset := (h.recs.live hr.1 hr.2).1
      rw [hlive] at hset
      cases hset
  | stamping hstamps => exact Nat.le_of_not_lt fun hlt => hst (hstamps.below hlt)
  | later hlt => exact Nat.le_trans hle hlt.le

/-- The steps of the collector. -/
theorem GcPhase.Steps.scanned
    {s : State} {g' : GcPhase} {a : GcAct} (h : s.Inv env) (hscanned : s.gc.Scanned env s.core)
    (hok : ScanSafe s (.gc a)) (hs : GcPhase.Steps env s.core s.gc a c' g')
    (hf : Frame env s.core c' lock b) :
  g'.Scanned env c'
  := by
  have hinv := h.gc
  unfold ScanSafe at hok
  generalize s.gc = g at *
  cases hs with
  | pick =>
      intro _ j hj
      exact absurd hj (Nat.not_lt_zero j)
  | scanLive | walkSkip | walkPass => exact hscanned
  | @scanSkip v vts i hi hnot =>
      intro hdrop j hj
      obtain hj | rfl := Nat.lt_succ_iff_lt_or_eq.mp hj
      · exact hscanned hdrop j hj
      · have hle : vts ≤ s.core.segAllocNr := by
          rw [← hinv.2]
          exact h.core.timestamp_le v
        by_cases hv : j = v
        · subst hv
          exact h.core.noneOlder hinv.2.ge
        · have hlive : s.core.segLive j = false := by
            simpa [hv] using hnot
          exact h.core.noneOlder_of_not_live hlive (hok hv hlive) hle
  | @scanTimestamp v vts i =>
      intro hdrop j hj
      obtain hj | rfl := Nat.lt_succ_iff_lt_or_eq.mp hj
      · exact hscanned rfl j hj
      · exact h.core.noneOlder (of_decide_eq_true hdrop)
  | @read v vts i drop hend =>
      intro hdrop j hj
      subst hdrop
      refine hscanned rfl j (Nat.lt_of_lt_of_le hj ?_)
      by_contra hlt
      exact hend ⟨Nat.lt_of_not_le hlt, rfl⟩
  | drop | lock => exact fun hdrop j hj => (hscanned hdrop j hj).of_frame hf
  | relocate h =>
      cases h with
      | fail => trivial
      | _ => exact fun hdrop j hj => (hscanned hdrop j hj).of_frame hf
  | readFails | walkEnd | synced => trivial

end

section

variable {env : StoreEnv} {s s' : State} {a : Act}

theorem State.Inv.scanned_step
    (h : s.Inv env) (hscanned : s.gc.Scanned env s.core) (hok : ScanSafe s a)
    (hs : s.step env a = some s') :
  s'.gc.Scanned env s'.core
  := by
  obtain ⟨b, hf⟩ := (h.step hs).frame
  obtain ⟨i, kind, key, rfl, -, -, rfl⟩ | ⟨i, b', o, c', o', rfl, ho, hstep, rfl⟩
    | ⟨b', c', g', rfl, hstep, rfl⟩ | ⟨c', hc', rfl⟩ := State.step_cases hs
  · exact hscanned.of_frame hf
  · exact hscanned.of_frame hf
  · exact (GcPhase.steps_of_step hstep).scanned h hscanned hok hf
  · exact hscanned.of_frame hf

/-- After such a scan, whatever is written later is newer than what is in the victim. -/
theorem GcPhase.Scanned.later
    {p : GcPass} (h : s.Ordered env) (hg : s.gc = .walk p) (hdrop : p.dropTombstones = true)
    (hscanned : s.gc.Scanned env s.core) {ts : Nat} (ha : Ahead env s.core ts) :
  p.victimTs < ts
  := by
  have hinv := h.inv.gc
  rw [hg] at hinv hscanned
  have hnone := hscanned hdrop
  have hcore := h.inv.core
  have hvictim : s.core.phase p.victim = .victim := hinv.victim
  have hts : s.core.segTimestamps p.victim = p.victimTs := hinv.timestamp
  -- a segment other than the victim has another count
  have hstrict : ∀ {seg ts}, seg ≠ p.victim → s.core.Counted seg ts → p.victimTs ≤ ts →
      p.victimTs < ts := by
    intro seg ts hne hcounted hle
    refine Nat.lt_of_le_of_ne hle ?_
    rintro rfl
    have hpos := hcounted.pos
    rw [← hts] at hpos
    have hown := (hcore.segs.timestamp _ hpos).owner
    rw [hts] at hown
    exact hne (hcounted.owner.symm.trans hown)
  have hranged : ∀ {seg}, (s.core.phase seg).ranged = true → s.core.phase seg ≠ .victim →
      s.core.segMdOk seg = true → p.victimTs < s.core.segTimestamps seg := by
    intro seg hr hne hok
    have hpos := ((hcore.segs.phase seg).ranged hr hok).2.2
    have hlt : seg < env.geo.numSegments := h.inside seg (by intro hf; rw [hf] at hr; cases hr)
    refine hstrict ?_ (hcore.segs.timestamp seg hpos) (hnone seg hlt _ (.ranged hr hok))
    rintro rfl
    exact hne hvictim
  cases ha with
  | opened hph hok => exact hranged (by rw [hph]; rfl) (by rw [hph]; rintro ⟨⟩) hok
  | unreleased hrg hrel hok =>
      have hwr := hcore.ranges.unreleased hrg hrel
      refine hranged (hcore.ranges.ranged hrg) ?_ hok
      intro hv
      rw [hv] at hwr
      cases hwr
  | @stamping seg ts hst =>
      have hlt : seg < env.geo.numSegments := h.inside seg (by intro hf; rw [hf] at hst; cases hst)
      refine hstrict ?_ ((hcore.segs.phase seg).stamps hst).1 (hnone seg hlt _ (.stamping hst))
      rintro rfl
      rw [hvictim] at hst
      cases hst
  | later hlt =>
      rw [← hts]
      exact Nat.lt_of_le_of_lt (hcore.timestamp_le _) hlt

theorem SafeDrop.of_scanned (h : s.Ordered env) (hscanned : s.gc.Scanned env s.core) :
    SafeDrop env s a := by
  intro p hdrops ts ha
  unfold State.DropsTombstone at hdrops
  split at hdrops
  · obtain ⟨hg, hdrop, -⟩ := hdrops
    exact hscanned.later h hg hdrop ha
  · exact hdrops.elim

/-- The commits are in order, and the passes of the collector have looked well, over all
sessions. -/
theorem Lifetime.scanned (h : Lifetime env ScanSafe s) :
    s.Ordered env ∧ s.gc.Scanned env s.core := by
  apply h.ordered_and
  · intro s hopen
    rw [hopen.gc]
    trivial
  · intro s a hordered hscanned _
    exact .of_scanned hordered hscanned
  · intro s a s' hordered hscanned hok hs
    exact hordered.inv.scanned_step hscanned hok hs

end

/-! ### After a drop -/

/-- What holds of a tombstone `d` after it was dropped, when `old` were the commits: those made
since then for its key are newer, no record is or will be older, and as long as the metadata of its
segment is there so is the tombstone. -/
structure Core.Outlived (env : StoreEnv) (c : Core) (old : List Commit) (d : Commit) : Prop where
  committed : d ∈ c.committed
  inside : env.geo.segOf d.pba < env.geo.numSegments
  later : ∀ {y}, y ∈ c.committed → y.key = d.key →
    y ∈ old ∨ NewerPair y.timestamp y.pba d.timestamp d.pba
  entries : ∀ {x r}, x ∈ c.curSnap.items → c.recs x.2.pba = some r → r.key = d.key →
    NewerPair r.timestamp x.2.pba d.timestamp d.pba
  noneOlder : ∀ seg < env.geo.numSegments, NoneOlder env c d.timestamp seg
  tombstone : c.segMd (env.geo.segOf d.pba) = some ⟨.kv, d.timestamp⟩ →
    ∃ t, c.recs d.pba = some t ∧ t.key = d.key ∧ t.timestamp = d.timestamp ∧ t.value = none

section

variable {env : StoreEnv} {s s' : State} {a : Act} {old : List Commit} {d : Commit}

theorem Core.Outlived.step
    (ho : s.core.Outlived env old d) (h : s.Ordered env) (hs : s.step env a = some s') :
  s'.core.Outlived env old d
  := by
  have hcore := h.inv.core
  obtain ⟨⟨b, hf⟩, -, heffect⟩ := h.inv.step hs
  -- the parts that the directory and the commits do not matter for
  have htomb : s'.core.segMd (env.geo.segOf d.pba) = some ⟨.kv, d.timestamp⟩ →
      ∃ t, s'.core.recs d.pba = some t ∧ t.key = d.key ∧ t.timestamp = d.timestamp
        ∧ t.value = none := by
    intro hmd
    obtain hmd | hst := h.inv.segMd_of_step hs hmd
    · obtain ⟨t, ht, hkey, hts, hval⟩ := ho.tombstone hmd
      exact ⟨t, h.inv.record_kept hs ho.committed ht hts hmd, hkey, hts, hval⟩
    · exact absurd rfl (hcore.commits.fresh ho.committed hst)
  have hnone : ∀ seg < env.geo.numSegments, NoneOlder env s'.core d.timestamp seg :=
    fun seg hseg => (ho.noneOlder seg hseg).of_frame hf
  have hkept : s'.core.committed = s.core.committed →
      (∀ {x r}, x ∈ s'.core.curSnap.items → s'.core.recs x.2.pba = some r →
        x ∈ s.core.curSnap.items ∧ s.core.recs x.2.pba = some r) →
      s'.core.Outlived env old d := by
    intro hcommitted hentries
    refine ⟨hcommitted ▸ ho.committed, ho.inside, hcommitted ▸ ho.later, ?_, hnone, htomb⟩
    intro x r hx hr
    exact ho.entries (hentries hx hr).1 (hentries hx hr).2
  have hcommits : ∀ {a p r o}, Commits env a s.core s'.core p r o →
      s'.core.Outlived env old d := by
    intro a p r o hc
    have hnew : r.key = d.key → NewerPair r.timestamp p d.timestamp d.pba :=
      fun hkey => h.order.newer_of_commits hcore hc ho.committed hkey.symm
    refine ⟨?_, ho.inside, ?_, ?_, hnone, htomb⟩
    · rw [hc.committed]
      exact List.mem_cons_of_mem _ ho.committed
    · intro y hy hkey
      rw [hc.committed] at hy
      obtain rfl | hy := List.mem_cons.mp hy
      · exact .inr (hnew hkey)
      · exact ho.later hy hkey
    · intro x r' hx hr' hkey
      rw [hc.recs] at hr'
      obtain rfl | ⟨hx, -⟩ := (hc.mem_items hcore).mp hx
      · cases hr'.symm.trans hc.record
        exact hnew hkey
      · exact ho.entries hx hr' hkey
  cases heffect with
  | quiet hq =>
      refine hkept hq.committed fun hx hr => ?_
      rw [hq.items] at hx
      exact ⟨hx, hf.record_eq hcore hx hr⟩
  | commit _ _ _ _ _ hc => exact hcommits hc
  | move _ hc => exact hcommits hc
  | drop _ hd => exact hkept hd.committed fun hx hr => ⟨hd.mem_before hx, hd.recs ▸ hr⟩

/-- A record of the key that is older than the tombstone is recoverable only together with it. -/
theorem Core.Outlived.recoverable
    (ho : s.core.Outlived env old d) (h : s.Ordered env) {p : Nat} {r : Rec}
    (hr : s.core.Recoverable env.geo p r)
    (hold : NewerPair d.timestamp d.pba r.timestamp p) :
  ∃ t, s.core.Recoverable env.geo d.pba t ∧ t.key = d.key ∧ t.timestamp = d.timestamp
    ∧ t.value = none
  := by
  have hle := ho.noneOlder _ (h.mdInside _ _ hr.2) _ (.recoverable rfl hr)
  have hts : r.timestamp = d.timestamp := by
    unfold NewerPair at hold
    omega
  have hmd := hr.2
  rw [hts] at hmd
  have hown := (h.inv.core.segs.md _ _ hmd).owner
  rw [(h.inv.core.commits.counted ho.committed).owner] at hown
  rw [← hown] at hmd
  obtain ⟨t, ht, hkey, htts, hval⟩ := ho.tombstone hmd
  exact ⟨t, ⟨ht, by rw [htts]; exact hmd⟩, hkey, htts, hval⟩

end

end UDepot
