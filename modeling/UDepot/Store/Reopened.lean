import UDepot.Recovery.Correctness
import UDepot.Store.Inside

/-!
# Stores that are opened again

`open` reads of a device the metadata of its segments, its records and a directory, and takes the
segments with valid grains for used ones (`State.reopened`).  If the entries of the directory are
those of records that do not overlap, the store is as `Opened` says (`Reopening.Ok.opened`).  This
is so after `crash_recovery` (`crashRecovery_opened`).
-/

namespace UDepot

open Newest

/-- What `open` reads of a device: the metadata of the segments and the arrays it fills from them,
the records, the directory, the valid grains of each segment, and the segments of the tables. -/
structure Reopening where
  segMd : Nat → Option SegMd
  segTimestamps : Nat → Nat
  segMdOk : Nat → Bool
  segLive : Nat → Bool
  segAllocNr : Nat
  recs : Nat → Option Rec
  snap : DirSnapshot
  valid : Nat → Nat
  index : Nat → Bool

namespace Reopening

variable (geo : Geometry) (o : Reopening)

/-- Who holds the range of a record. -/
def holderAt (p : Nat) : Holder :=
  if p ∈ o.snap.items.map (·.2.pba) then .entry else .nobody

/-- The range of a record in a segment that was handed back to salsa. -/
def rangeAt (p : Nat) : Option GrainRange :=
  if o.valid (geo.segOf p) = 0 then none
  else (o.recs p).map fun r => ⟨r.grains, true, .gc, o.holderAt p⟩

/-- The data segment with a timestamp. -/
def ownerOf (ts : Nat) : Nat :=
  ((List.range geo.numSegments).find? fun seg => o.segMd seg = some ⟨.kv, ts⟩).getD 0

/-- The records of the device, as commits. -/
def commits : List Commit :=
  (List.range (geo.numSegments * geo.segSize)).filterMap fun p =>
    (o.recs p).map fun r => ⟨r.key, r.timestamp, p⟩

end Reopening

/-- The store that `open` leaves. -/
def State.reopened (geo : Geometry) (o : Reopening) : State where
  core := {
    segMd := o.segMd
    segTimestamps := o.segTimestamps
    segMdOk := o.segMdOk
    segLive := o.segLive
    segAllocNr := o.segAllocNr
    owner := o.ownerOf geo
    phase := fun seg =>
      if o.valid seg ≠ 0 then .closed else if o.index seg then .index else .free
    recs := o.recs
    ranges := o.rangeAt geo
    snaps := fun _ => o.snap
    cur := 0
    grow := .idle
    sections := []
    nextSection := 0
    committed := o.commits geo
    dropped := []
  }
  ops := fun _ => none
  gc := .idle

/-- The metadata and the arrays agree, the records are of their segments and those in used ones do
not overlap, and every entry is that of a record in a used segment. -/
structure Reopening.Ok (env : StoreEnv) (o : Reopening) : Prop where
  inside : ∀ {seg md}, o.segMd seg = some md → seg < env.geo.numSegments
  distinct : ∀ {a b ts}, o.segMd a = some ⟨.kv, ts⟩ → o.segMd b = some ⟨.kv, ts⟩ → a = b
  kv : ∀ {seg ts}, o.segMd seg = some ⟨.kv, ts⟩ → (0 < ts ∧ ts ≤ o.segAllocNr)
    ∧ o.segTimestamps seg = ts ∧ o.segMdOk seg = true ∧ o.segLive seg = true
  arrays : ∀ {seg}, 0 < o.segTimestamps seg ∨ o.segMdOk seg = true →
    ∃ ts, o.segMd seg = some ⟨.kv, ts⟩
  records : ∀ {p r}, o.recs p = some r →
    r.Shape env.geo p ∧ o.segMd (env.geo.segOf p) = some ⟨.kv, r.timestamp⟩
  disjoint : ∀ {p q r r'}, o.recs p = some r → o.recs q = some r' →
    o.valid (env.geo.segOf p) ≠ 0 → o.valid (env.geo.segOf q) ≠ 0 → p < q → p + r.grains ≤ q
  wf : o.snap.Wf
  bits : o.snap.bucketBits = env.bucketBits
  entries : ∀ {x}, x ∈ o.snap.items → o.valid (env.geo.segOf x.2.pba) ≠ 0
    ∧ ∃ r, o.recs x.2.pba = some r ∧ x = env.item r x.2.pba
  pbas : (o.snap.items.map (·.2.pba)).Nodup
  keys : ∀ {x y r r'}, x ∈ o.snap.items → y ∈ o.snap.items →
    o.recs x.2.pba = some r → o.recs y.2.pba = some r' → r.key = r'.key → x = y
  used : ∀ {seg}, o.valid seg ≠ 0 ∨ o.index seg = true → seg < env.geo.numSegments

namespace Reopening

variable {env : StoreEnv} {geo : Geometry} {o : Reopening} {p seg ts : Nat} {r : Rec}
  {rg : GrainRange}

theorem rangeAt_eq_some :
    o.rangeAt geo p = some rg ↔ o.valid (geo.segOf p) ≠ 0
      ∧ ∃ r, o.recs p = some r ∧ rg = ⟨r.grains, true, .gc, o.holderAt p⟩ := by
  rw [rangeAt]
  split
  · rename_i hzero
    simp [hzero]
  · rename_i hne
    rw [Option.map_eq_some_iff]
    simp [hne, eq_comm]

theorem holderAt_eq_entry : o.holderAt p = .entry ↔ ∃ x ∈ o.snap.items, x.2.pba = p := by
  rw [holderAt, ← Multiset.mem_map]
  split
  · rename_i h
    simp only [h]
  · rename_i h
    simp only [h, iff_false]
    rintro ⟨⟩

theorem mem_commits {y : Commit} :
    y ∈ o.commits geo ↔ y.pba < geo.numSegments * geo.segSize
      ∧ ∃ r, o.recs y.pba = some r ∧ y = ⟨r.key, r.timestamp, y.pba⟩ := by
  simp only [commits, List.mem_filterMap, List.mem_range, Option.map_eq_some_iff]
  constructor
  · rintro ⟨p, hp, r, hr, rfl⟩
    exact ⟨hp, r, hr, rfl⟩
  · rintro ⟨hp, r, hr, hy⟩
    exact ⟨y.pba, hp, r, hr, hy.symm⟩

theorem phase_eq_closed :
    (State.reopened geo o).core.phase seg = .closed ↔ o.valid seg ≠ 0 := by
  change (if o.valid seg ≠ 0 then SegPhase.closed else if o.index seg then .index else .free)
    = .closed ↔ _
  split_ifs with hvalid hindex
  · simp [hvalid]
  · simp [hvalid]
  · simp [hvalid]

namespace Ok

variable (h : o.Ok env)

include h

theorem ownerOf_eq (hmd : o.segMd seg = some ⟨.kv, ts⟩) : o.ownerOf env.geo ts = seg := by
  rw [ownerOf]
  cases hfind : (List.range env.geo.numSegments).find? fun seg => o.segMd seg = some ⟨.kv, ts⟩ with
  | none =>
      have hnone := List.find?_eq_none.mp hfind seg (List.mem_range.mpr (h.inside hmd))
      rw [decide_eq_true_eq] at hnone
      exact absurd hmd hnone
  | some seg' =>
      have hmd' := List.find?_some hfind
      rw [decide_eq_true_eq] at hmd'
      exact h.distinct hmd' hmd

/-- The store is as `open` leaves one. -/
theorem opened : Opened env (State.reopened env.geo o) := by
  have hrecov : ∀ {p r}, o.recs p = some r →
      (State.reopened env.geo o).core.Recoverable env.geo p r := fun hr =>
    ⟨hr, (h.records hr).2⟩
  refine {
    ops := fun _ => rfl
    gc := rfl
    grow := rfl
    sections := rfl
    dropped := rfl
    phase := ?_
    kv := ?_
    arrays := ?_
    records := ?_
    disjoint := ?_
    ranges := ?_
    held := ?_
    ranged := ?_
    wf := h.wf
    bits := h.bits
    entries := ?_
    pbas := h.pbas
    keys := h.keys
    committed := ?_ }
  · intro seg
    simp only [State.reopened]
    split_ifs <;> simp
  · intro seg ts hmd
    obtain ⟨⟨hpos, hle⟩, hts, -, hlive⟩ := h.kv hmd
    exact ⟨⟨hpos, hle, h.ownerOf_eq hmd⟩, hts, hlive⟩
  · intro seg hor
    obtain ⟨ts, hmd⟩ := h.arrays hor
    exact hmd.trans (by rw [← (h.kv hmd).2.1]; rfl)
  · intro p r hr
    obtain ⟨hshape, hmd⟩ := h.records hr
    exact ⟨hshape, (h.kv hmd).1.2⟩
  · intro p q rg rg' hrg hrg' hlt
    obtain ⟨hp, r, hr, rfl⟩ := rangeAt_eq_some.mp hrg
    obtain ⟨hq, r', hr', -⟩ := rangeAt_eq_some.mp hrg'
    apply h.disjoint hr hr' hp hq hlt
  · intro p rg hrg
    obtain ⟨hp, r, hr, rfl⟩ := rangeAt_eq_some.mp hrg
    refine ⟨phase_eq_closed.mpr hp, ⟨r, hrecov hr, rfl⟩, rfl, ?_⟩
    simp only [holderAt]
    split
    · exact .inl rfl
    · exact .inr rfl
  · intro p rg hrg hentry
    obtain ⟨-, r, -, rfl⟩ := rangeAt_eq_some.mp hrg
    exact holderAt_eq_entry.mp hentry
  · intro p r hr hclosed
    exact ⟨_, rangeAt_eq_some.mpr ⟨phase_eq_closed.mp hclosed, r, hr.1, rfl⟩⟩
  · intro x hx
    obtain ⟨hvalid, r, hr, hitem⟩ := h.entries hx
    have hmd := (h.records hr).2
    refine ⟨r, hrecov hr, (h.kv hmd).2.2.1, hitem, ?_, _,
      rangeAt_eq_some.mpr ⟨hvalid, r, hr, rfl⟩, holderAt_eq_entry.mpr ⟨x, hx, rfl⟩⟩
    refine mem_commits.mpr ⟨?_, r, hr, rfl⟩
    exact (Nat.div_lt_iff_lt_mul env.geo.segSize_pos).mp (h.inside hmd)
  · intro y hy
    obtain ⟨-, r, hr, hy⟩ := mem_commits.mp hy
    exact ⟨r, hrecov hr, hy⟩

theorem segments_inside : (State.reopened env.geo o).core.Inside env.geo := by
  intro seg hne
  apply h.used
  by_contra hnot
  rw [not_or, not_not] at hnot
  apply hne
  simp only [State.reopened]
  rw [if_neg (not_not.mpr hnot.1), if_neg hnot.2]

end Ok

end Reopening

/-! ### After a crash -/

/-- The store that recovery is for. -/
def RecoveryEnv.store (env : RecoveryEnv) : StoreEnv := ⟨env.geo, env.hashKey, env.bucketBits⟩

/-- A record of the log, with its value. -/
def LogRecord.toRec (geo : Geometry) (dev : Device) (a : LogRecord) : Rec where
  key := a.key
  timestamp := a.timestamp
  value :=
    if a.tombstone then none
    else some (readBytes dev (a.pba * geo.grainSize + kKvHeaderBytes + a.key.length)
      (readHdr dev (a.pba * geo.grainSize)).valSize)
  grains := a.grains

/-- The record of the log at an address. -/
def RecoveryEnv.recordOf (env : RecoveryEnv) (img : Image) (p : Nat) : Option Rec :=
  (((List.range env.geo.numSegments).flatMap (env.segRecords img)).find? (·.pba = p)).map
    (LogRecord.toRec env.geo img.bytes)

/-- What `open` has after `crash_recovery`, whose tables take no segments before `open` is done. -/
def RecState.reopening (env : RecoveryEnv) (img : Image) (s : RecState) : Reopening where
  segMd seg := if seg < env.geo.numSegments then img.segMd seg else none
  segTimestamps := s.segTimestamps
  segMdOk := s.segMdOk
  segLive := s.segLive
  segAllocNr := s.maxTimestamp
  recs := env.recordOf img
  snap := s.snap
  valid := s.valid
  index := fun _ => false

section

variable {env : RecoveryEnv} {img : Image} {M : Multiset LogRecord} {a : LogRecord} {p : Nat}
  {r : Rec}

theorem recordOf_eq_some (hlog : IsLog env img (env.log img)) :
    env.recordOf img p = some r
      ↔ ∃ a ∈ env.log img, a.pba = p ∧ r = a.toRec env.geo img.bytes := by
  rw [RecoveryEnv.recordOf, Option.map_eq_some_iff]
  constructor
  · rintro ⟨a, ha, rfl⟩
    have hp := List.find?_some ha
    rw [decide_eq_true_eq] at hp
    exact ⟨a, Multiset.mem_coe.mpr (List.mem_of_find?_eq_some ha), hp, rfl⟩
  · rintro ⟨a, ha, rfl, rfl⟩
    obtain ⟨b, hb⟩ : ∃ b, ((List.range env.geo.numSegments).flatMap (env.segRecords img)).find?
        (·.pba = a.pba) = some b := by
      rw [← Option.isSome_iff_exists, List.find?_isSome]
      exact ⟨a, Multiset.mem_coe.mp ha, by simp⟩
    have hp := List.find?_some hb
    rw [decide_eq_true_eq] at hp
    have hmem : b ∈ env.log img := Multiset.mem_coe.mpr (List.mem_of_find?_eq_some hb)
    exact ⟨b, hb, by rw [hlog.eq_of_pba hmem ha hp]⟩

/-- Where a record of the log is. -/
theorem mem_log (ha : a ∈ env.log img) :
    env.geo.segOf a.pba < env.geo.numSegments
      ∧ img.segMd (env.geo.segOf a.pba) = some ⟨.kv, a.timestamp⟩
      ∧ a ∈ env.segRecords img (env.geo.segOf a.pba) := by
  obtain ⟨seg, hseg, hmem⟩ := List.mem_flatMap.mp (Multiset.mem_coe.mp ha)
  obtain ⟨-, hmd, hof⟩ := (segRecords_spec seg).1 a hmem
  rw [hof]
  exact ⟨List.mem_range.mp hseg, hmd, hmem⟩

theorem segRecords_fits {seg : Nat} (ha : a ∈ env.segRecords img seg) :
    a.pba + a.grains ≤ env.geo.segBase seg + env.geo.dataGrains := by
  unfold RecoveryEnv.segRecords at ha
  split at ha
  · exact ((walk_spec _ _ (Nat.le_add_right _ _)).1 a ha).2.2.2
  · cases ha

/-- The records of the log do not overlap. -/
theorem log_disjoint
    {b : LogRecord} (ha : a ∈ env.log img) (hb : b ∈ env.log img) (hlt : a.pba < b.pba) :
  a.pba + a.grains ≤ b.pba
  := by
  obtain ⟨-, -, hmem⟩ := mem_log ha
  obtain ⟨-, -, hmem'⟩ := mem_log hb
  have hfits := segRecords_fits hmem
  by_cases hseg : env.geo.segOf a.pba = env.geo.segOf b.pba
  · rw [← hseg] at hmem'
    generalize env.geo.segOf a.pba = seg at hmem hmem'
    obtain ⟨i, hi, rfl⟩ := List.mem_iff_getElem.mp hmem
    obtain ⟨j, hj, rfl⟩ := List.mem_iff_getElem.mp hmem'
    have hpair := List.pairwise_iff_getElem.mp (@segRecords_spec env img seg).2.1
    rcases Nat.lt_trichotomy i j with hij | rfl | hji
    · exact hpair i j hi hj hij
    · exact absurd hlt (Nat.lt_irrefl _)
    · have hle := hpair j i hj hi hji
      omega
  · have hmono : env.geo.segOf a.pba ≤ env.geo.segOf b.pba := Nat.div_le_div_right hlt.le
    have hle : env.geo.segOf a.pba + 1 ≤ env.geo.segOf b.pba := by omega
    have hbase := Nat.mul_le_mul_right env.geo.segSize hle
    have hplace := Nat.div_mul_le_self b.pba env.geo.segSize
    rw [Nat.add_mul, Nat.one_mul] at hbase
    rw [Geometry.segBase, Geometry.dataGrains] at hfits
    change env.geo.segOf b.pba * _ ≤ _ at hplace
    omega

theorem LogRecord.Accepted.shape
    (hacc : a.Accepted env.geo img.bytes)
    (hfits : a.pba + a.grains
      ≤ env.geo.segBase (env.geo.segOf a.pba) + env.geo.dataGrains) :
  (a.toRec env.geo img.bytes).Shape env.geo a.pba
  := by
  refine ⟨hacc.key_ne, ?_, hacc.grains_le, hfits⟩
  rw [LogRecord.toRec, hacc.size, recordValBytes, ← hacc.isTombstone]
  cases a.tombstone with
  | true => rfl
  | false => simp [readBytes_length]

theorem item_toRec (a : LogRecord) (dev : Device) :
    env.store.item (a.toRec env.geo dev) a.pba = env.entryOf a := by
  rw [StoreEnv.item, RecoveryEnv.entryOf, Rec.kvSize, LogRecord.toRec]
  cases a.tombstone with
  | true => rfl
  | false => rfl

theorem grainsIn_ne_zero (hpos : ∀ a ∈ M, 0 < a.grains) {seg : Nat} :
    env.grainsIn M seg ≠ 0 ↔ ∃ a ∈ M, env.geo.segOf a.pba = seg := by
  rw [RecoveryEnv.grainsIn, Ne, Multiset.sum_eq_zero_iff, Multiset.forall_mem_map_iff]
  simp only [Multiset.mem_filter, and_imp]
  constructor
  · intro h
    by_contra hnone
    push Not at hnone
    exact h fun a ha hseg => absurd hseg (hnone a ha)
  · rintro ⟨a, ha, hseg⟩ h
    exact (hpos a ha).ne' (h a ha hseg)

end

/-- **A store that recovers from a crash is as `open` leaves one**, on every device whose data
segments have distinct counts. -/
theorem crashRecovery_opened
    {env : RecoveryEnv} {img : Image} (hts : img.DistinctTimestamps env.geo.numSegments)
    (hpos : ∀ seg ts, img.segMd seg = some ⟨.kv, ts⟩ → 0 < ts) {order : List Nat}
    (hord : order.Perm (List.range env.geo.numSegments)) {s : RecState}
    (hs : crashRecovery env img order = .ok s) :
  (s.reopening env img).Ok env.store
  := by
  obtain ⟨hinv, harrays⟩ := (crashRecovery_spec hts hord).of_eq_ok hs
  have hlog := isLog_log hts
  have hmd : ∀ {seg md}, (s.reopening env img).segMd seg = some md →
      seg < env.geo.numSegments ∧ img.segMd seg = some md :=
    fun h => Option.ite_none_right_eq_some.mp h
  have hnewest : ∀ {x}, x ∈ s.snap.items → ∃ a ∈ newestRecords (env.log img),
      a ∈ env.log img ∧ x = env.entryOf a := by
    intro x hx
    rw [hinv.items] at hx
    obtain ⟨a, ha, rfl⟩ := Multiset.mem_map.mp hx
    exact ⟨a, ha, (mem_newest.mp ha).1, rfl⟩
  have hrec : ∀ {a}, a ∈ env.log img →
      env.recordOf img a.pba = some (a.toRec env.geo img.bytes) :=
    fun ha => (recordOf_eq_some hlog).mpr ⟨_, ha, rfl, rfl⟩
  have hvalid : ∀ {seg}, s.valid seg ≠ 0
      ↔ ∃ a ∈ newestRecords (env.log img), env.geo.segOf a.pba = seg := by
    intro seg
    rw [hinv.valid]
    apply grainsIn_ne_zero
    intro a ha
    exact (hlog.accepted a (mem_newest.mp ha).1).grains_pos
  refine {
    inside := fun h => (hmd h).1
    distinct := fun ha hb => hts _ (hmd ha).1 _ (hmd hb).1 _ (hmd ha).2 (hmd hb).2
    kv := ?_
    arrays := ?_
    records := ?_
    disjoint := ?_
    wf := hinv.wf
    bits := hinv.bucketBits
    entries := ?_
    pbas := ?_
    keys := ?_
    used := ?_ }
  · intro seg ts h
    obtain ⟨hts', hok, hlive, hle⟩ := harrays.found (hmd h).1 (hmd h).2
    exact ⟨⟨hpos seg ts (hmd h).2, hle⟩, hts', hok, hlive⟩
  · intro seg hor
    obtain ⟨hlt, ts, h⟩ := harrays.other hor
    exact ⟨ts, (if_pos hlt).trans h⟩
  · intro p r hr
    obtain ⟨a, ha, rfl, rfl⟩ := (recordOf_eq_some hlog).mp hr
    obtain ⟨hlt, h, hmem⟩ := mem_log ha
    exact ⟨(hlog.accepted a ha).shape (segRecords_fits hmem), (if_pos hlt).trans h⟩
  · intro p q r r' hr hr' _ _ hlt
    obtain ⟨a, ha, rfl, rfl⟩ := (recordOf_eq_some hlog).mp hr
    obtain ⟨b, hb, rfl, -⟩ := (recordOf_eq_some hlog).mp hr'
    exact log_disjoint ha hb hlt
  · intro x hx
    obtain ⟨a, hnew, ha, rfl⟩ := hnewest hx
    exact ⟨hvalid.mpr ⟨a, hnew, rfl⟩, _, hrec ha, (item_toRec a img.bytes).symm⟩
  · change (s.snap.items.map (·.2.pba)).Nodup
    rw [hinv.items, Multiset.map_map]
    exact Multiset.nodup_of_le (Multiset.map_le_map (Multiset.filter_le _ _)) hlog.pbas
  · intro x y r r' hx hy hr hr' hkey
    obtain ⟨a, hnew, ha, rfl⟩ := hnewest hx
    obtain ⟨b, hnew', hb, rfl⟩ := hnewest hy
    cases (hrec ha).symm.trans hr
    cases (hrec hb).symm.trans hr'
    rw [eq_of_mem_newest hlog.comparable hnew hnew' hkey]
  · rintro seg (h | ⟨⟨⟩⟩)
    obtain ⟨a, hnew, rfl⟩ := hvalid.mp h
    exact (mem_log (mem_newest.mp hnew).1).1

end UDepot
