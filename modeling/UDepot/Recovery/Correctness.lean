import UDepot.Recovery

/-!
# Recovery keeps the newest record of every key

The invariant of the fold over the accepted records: the directory's items are the entries of
the newest records handed over so far, and the valid grains of a segment are the grains of
those of them that lie in it.
-/

namespace UDepot

open Hopscotch Newest Outcome

/-- The newest records of every key, in the recovery order. -/
def newestRecords (M : Multiset LogRecord) : Multiset LogRecord :=
  newest LogRecord.key LogRecord.Newer M

/-- The bucket and the entry of a record. -/
def RecoveryEnv.entryOf (env : RecoveryEnv) (r : LogRecord) : Nat × EntryInfo :=
  (env.hashKey r.key % 2 ^ env.bucketBits,
    ⟨hashToTag (env.hashKey r.key) env.bucketBits, if r.tombstone then 0 else r.grains, r.pba⟩)

/-- The grains of the records in a segment. -/
def RecoveryEnv.grainsIn (env : RecoveryEnv) (M : Multiset LogRecord) (seg : Nat) : Nat :=
  ((M.filter (fun r => env.geo.segOf r.pba = seg)).map LogRecord.grains).sum

/-- Accepted records at distinct addresses, with one timestamp in each segment. -/
structure IsLog (env : RecoveryEnv) (img : Image) (M : Multiset LogRecord) : Prop where
  accepted : ∀ r ∈ M, r.Accepted env.geo img.bytes
  pbas : (M.map LogRecord.pba).Nodup
  segment : ∀ a ∈ M, ∀ b ∈ M, a.timestamp = b.timestamp ↔ env.geo.segOf a.pba = env.geo.segOf b.pba

/-- The state of recovery when the records `M` have been handed over. -/
structure RecInv (env : RecoveryEnv) (M : Multiset LogRecord) (s : RecState) : Prop where
  wf : s.snap.Wf
  frozen : s.snap.frozen = false
  bucketBits : s.snap.bucketBits = env.bucketBits
  items : s.snap.items = (newestRecords M).map env.entryOf
  valid : ∀ seg, s.valid seg = env.grainsIn (newestRecords M) seg
  timestamps : ∀ r ∈ M, s.segTimestamps (env.geo.segOf r.pba) = r.timestamp

/-- The parts of the state a record does not change. -/
structure RecFrame (s s' : RecState) : Prop where
  segTimestamps : s'.segTimestamps = s.segTimestamps
  segMdOk : s'.segMdOk = s.segMdOk
  segLive : s'.segLive = s.segLive
  dataSegs : s'.dataSegs = s.dataSegs
  maxTimestamp : s'.maxTimestamp = s.maxTimestamp

/-- The arrays are those of the data segments among `segs`. -/
structure RecState.Arrays (img : Image) (segs : Set Nat) (s : RecState) : Prop where
  found : ∀ {seg ts}, seg ∈ segs → img.segMd seg = some ⟨.kv, ts⟩ →
    s.segTimestamps seg = ts ∧ s.segMdOk seg = true ∧ s.segLive seg = true ∧ ts ≤ s.maxTimestamp
  other : ∀ {seg}, 0 < s.segTimestamps seg ∨ s.segMdOk seg = true →
    seg ∈ segs ∧ ∃ ts, img.segMd seg = some ⟨.kv, ts⟩

variable {env : RecoveryEnv} {img : Image} {M : Multiset LogRecord}

theorem RecFrame.refl (s : RecState) : RecFrame s s := ⟨rfl, rfl, rfl, rfl, rfl⟩

theorem RecFrame.trans {s s' s'' : RecState} (h : RecFrame s s') (h' : RecFrame s' s'') :
    RecFrame s s'' :=
  ⟨h'.segTimestamps.trans h.segTimestamps, h'.segMdOk.trans h.segMdOk, h'.segLive.trans h.segLive,
    h'.dataSegs.trans h.dataSegs, h'.maxTimestamp.trans h.maxTimestamp⟩

theorem RecFrame.arrays
    {s s' : RecState} {segs : Set Nat} (h : RecFrame s s') (ha : s.Arrays img segs) :
  s'.Arrays img segs
  := by
  constructor
  · intro seg ts
    rw [h.segTimestamps, h.segMdOk, h.segLive, h.maxTimestamp]
    apply ha.found
  · intro seg
    rw [h.segTimestamps, h.segMdOk]
    apply ha.other

theorem RecState.Arrays.foundSegment
    {s : RecState} {segs : Set Nat} {seg ts : Nat} (h : s.Arrays img segs)
    (hmd : img.segMd seg = some ⟨.kv, ts⟩) :
  (s.foundSegment seg ts).Arrays img (insert seg segs)
  := by
  constructor
  · intro seg' ts' hmem hmd'
    simp only [RecState.foundSegment]
    by_cases heq : seg' = seg
    · subst heq
      obtain rfl : ts = ts' := by simpa using hmd.symm.trans hmd'
      simp
    · obtain ⟨hts, hok, hlive, hle⟩ := h.found (hmem.resolve_left heq) hmd'
      simp only [Function.update_of_ne heq]
      exact ⟨hts, hok, hlive, hle.trans (le_max_left _ _)⟩
  · intro seg' hor
    simp only [RecState.foundSegment] at hor
    by_cases heq : seg' = seg
    · subst heq
      exact ⟨.inl rfl, ts, hmd⟩
    · simp only [Function.update_of_ne heq] at hor
      exact ⟨.inr (h.other hor).1, (h.other hor).2⟩

/-- A segment that is no data segment is not in the arrays. -/
theorem RecState.Arrays.insert_other
    {s : RecState} {segs : Set Nat} {seg : Nat} (h : s.Arrays img segs)
    (hmd : ∀ ts, img.segMd seg ≠ some ⟨.kv, ts⟩) :
  s.Arrays img (insert seg segs)
  := by
  constructor
  · rintro seg' ts (rfl | hmem) hmd'
    · exact absurd hmd' (hmd ts)
    · exact h.found hmem hmd'
  · intro seg' hor
    exact ⟨.inr (h.other hor).1, (h.other hor).2⟩

theorem IsLog.nodup (h : IsLog env img M) : M.Nodup := Multiset.Nodup.of_map _ h.pbas

theorem IsLog.eq_of_pba
    (h : IsLog env img M) {a b : LogRecord} (ha : a ∈ M) (hb : b ∈ M) (hpba : a.pba = b.pba) :
  a = b
  := Multiset.inj_on_of_nodup_map h.pbas a ha b hb hpba

theorem IsLog.comparable (h : IsLog env img M) :
    Comparable LogRecord.key LogRecord.Newer M := by
  intro a ha b hb _
  by_cases hab : a = b
  · left
    apply hab
  · right
    have hpba : a.pba ≠ b.pba := fun hpba => hab (h.eq_of_pba ha hb hpba)
    rw [LogRecord.Newer, LogRecord.Newer]
    omega

theorem IsLog.mono {N : Multiset LogRecord} (h : IsLog env img M) (hle : N ≤ M) :
    IsLog env img N where
  accepted a ha := h.accepted a (Multiset.mem_of_le hle ha)
  pbas := Multiset.nodup_of_le (Multiset.map_le_map hle) h.pbas
  segment a ha b hb := h.segment a (Multiset.mem_of_le hle ha) b (Multiset.mem_of_le hle hb)

theorem IsLog.of_cons {r : LogRecord} (h : IsLog env img (r ::ₘ M)) : IsLog env img M :=
  h.mono (Multiset.le_cons_self M r)

/-- The comparison of the code is the recovery order. -/
theorem IsLog.newerThan_iff
    (h : IsLog env img M) {ts : Nat → Nat}
    (hts : ∀ r ∈ M, ts (env.geo.segOf r.pba) = r.timestamp) {a b : LogRecord} (ha : a ∈ M)
    (hb : b ∈ M) :
  newerThan env.geo ts a.pba b.pba = true ↔ a.Newer b
  := by
  have hseg := h.segment b hb a ha
  rw [newerThan, LogRecord.Newer]
  split
  · rename_i hne
    have hts' : b.timestamp ≠ a.timestamp := fun heq => hne (hseg.mp heq)
    rw [hts a ha, hts b hb, decide_eq_true_iff]
    omega
  · rename_i heq
    have hts' := hseg.mpr (not_not.mp heq)
    rw [decide_eq_true_iff]
    omega

/-! ### The entries of records -/

@[simp] theorem entryOf_pba (r : LogRecord) : (env.entryOf r).2.pba = r.pba := rfl

theorem entryOf_deleted {r : LogRecord} (h : 0 < r.grains) :
    (env.entryOf r).2.deleted = r.tombstone := by
  cases hr : r.tombstone with
  | true => simp [RecoveryEnv.entryOf, EntryInfo.deleted, hr]
  | false =>
      simp only [RecoveryEnv.entryOf, EntryInfo.deleted, hr]
      simpa using h.ne'

/-- The grains the code takes for the record of an entry are those of the record. -/
theorem matchGrains_entryOf
    {r : LogRecord} (h : r.Accepted env.geo img.bytes) :
  matchGrains env r.key (env.entryOf r).2 = r.grains
  := by
  rw [matchGrains, entryOf_deleted h.grains_pos]
  cases hr : r.tombstone with
  | true => simp [h.tombstone hr]
  | false => simp [RecoveryEnv.entryOf, hr]

/-! ### Probing -/

/-- What a probe recorded is right about the records of the log. -/
def Correct (M : Multiset LogRecord) (key : Bytes) (probe : KeyProbe) : Prop :=
  ∀ seen ∈ probe, ∀ r ∈ M, r.pba = seen.pba → (seen.isMatch = true ↔ r.key = key)

theorem external_spec (s : RecState) :
    Ensures (· ≠ .assertFailed) (fun s' => s' = { s with calls := s.calls + 1 })
      (external env s) := by
  unfold external
  split
  · apply Ensures.error
    simp
  · apply Ensures.ok
    rfl

/-- A key-verify read of an entry tells whether its record holds the key. -/
theorem verifyKeyAtPba_spec
    {r : LogRecord} (hr : r.Accepted env.geo img.bytes) (key : Bytes) (s : RecState) :
  Ensures (· ≠ .assertFailed)
    (fun p => (p.1 = true ↔ r.key = key) ∧ p.2 = { s with calls := p.2.calls })
    (verifyKeyAtPba env img r.pba (matchGrains env key (env.entryOf r).2) key s)
  := by
  unfold verifyKeyAtPba
  split
  · rename_i hsmall
    apply Ensures.ok
    refine ⟨?_, rfl⟩
    simp only [Bool.false_eq_true, false_iff]
    rintro rfl
    rw [matchGrains_entryOf hr] at hsmall
    have hroom := hr.room
    omega
  · apply (external_spec s).bind
    rintro s' rfl
    apply Ensures.ok
    refine ⟨?_, rfl⟩
    simp only [hr.keySize, Bool.and_eq_true, beq_iff_eq]
    constructor
    · rintro ⟨hlen, hbytes⟩
      rw [← hlen, hr.key] at hbytes
      apply hbytes
    · rintro rfl
      exact ⟨rfl, hr.key⟩

/-- A probe sees every entry, and what it records is right. -/
theorem probeKey_spec
    (hlog : IsLog env img M) {key : Bytes} :
  ∀ {es : List HashEntry} {probe : KeyProbe} {s : RecState},
    (∀ e ∈ es, ∃ r ∈ M, e.val = (env.entryOf r).2) → probe.length + es.length ≤ kHopRange →
    Correct M key probe →
    Ensures (· ≠ .assertFailed)
      (fun p => p.2 = { s with calls := p.2.calls } ∧ Correct M key p.1 ∧ (∀ x ∈ probe, x ∈ p.1)
        ∧ ∀ e ∈ es, ∃ x, p.1.find e.val.pba = some x)
      (probeKey env img key es probe s)
  | [], probe, s, _, _, hc => by
      apply Ensures.ok
      simp [hc]
  | e :: es, probe, s, hes, hlen, hc => by
      have hes' : ∀ e' ∈ es, ∃ r ∈ M, e'.val = (env.entryOf r).2 :=
        fun e' he' => hes e' (List.mem_cons_of_mem e he')
      rw [List.length_cons] at hlen
      rw [probeKey]
      cases hf : probe.find e.val.pba with
      | some x =>
          simp only
          apply (probeKey_spec hlog hes' (by omega) hc).mono
          rintro ⟨probe', s'⟩ ⟨hs, hc', hkept, hall⟩
          refine ⟨hs, hc', hkept, ?_⟩
          intro e' he'
          obtain rfl | he' := List.mem_cons.mp he'
          · obtain ⟨hx, hpba⟩ := KeyProbe.find_eq_some hf
            rw [← hpba]
            apply KeyProbe.exists_find (hkept x hx)
          · apply hall e' he'
      | none =>
          obtain ⟨r, hr, he⟩ := hes e List.mem_cons_self
          have hpba : e.val.pba = r.pba := by
            rw [he]
            rfl
          have hverify := verifyKeyAtPba_spec (hlog.accepted r hr) key s
          rw [matchGrains, ← he, ← hpba] at hverify
          simp only
          apply hverify.bind
          rintro ⟨isMatch, s₁⟩ ⟨hmatch, hs₁⟩
          have hpush : probe.push ⟨e.val.pba, isMatch⟩ = probe ++ [⟨e.val.pba, isMatch⟩] := by
            rw [KeyProbe.push, if_neg]
            omega
          have hc₁ : Correct M key (probe.push ⟨e.val.pba, isMatch⟩) := by
            intro x hx r' hr' hr'x
            obtain rfl | hx := KeyProbe.mem_push hx
            · obtain rfl := hlog.eq_of_pba hr' hr (hr'x.trans hpba)
              apply hmatch
            · apply hc x hx r' hr' hr'x
          have hlen₁ : (probe.push ⟨e.val.pba, isMatch⟩).length + es.length ≤ kHopRange := by
            rw [hpush, List.length_append, List.length_singleton]
            omega
          apply (probeKey_spec hlog hes' hlen₁ hc₁).mono
          rintro ⟨probe', s'⟩ ⟨hs, hc', hkept, hall⟩
          rw [hpush] at hkept
          simp only at hs hs₁
          refine ⟨?_, hc', ?_, ?_⟩
          · rw [hs, hs₁]
          · intro x hx
            apply hkept x (List.mem_append_left _ hx)
          · intro e' he'
            obtain rfl | he' := List.mem_cons.mp he'
            · apply KeyProbe.exists_find (hkept ⟨e'.val.pba, isMatch⟩ (by simp))
            · apply hall e' he'

/-! ### Handing over one record -/

theorem grainsIn_cons (r : LogRecord) (N : Multiset LogRecord) (seg : Nat) :
    env.grainsIn (r ::ₘ N) seg
      = (if env.geo.segOf r.pba = seg then r.grains else 0) + env.grainsIn N seg := by
  rw [RecoveryEnv.grainsIn, Multiset.filter_cons, Multiset.map_add, Multiset.sum_add,
    RecoveryEnv.grainsIn]
  split <;> simp

theorem addValid_apply (valid : Nat → Nat) (seg grains seg' : Nat) :
    addValid valid seg grains seg' = (if seg = seg' then grains else 0) + valid seg' := by
  unfold addValid
  by_cases h : seg' = seg
  · subst h
    simp [Nat.add_comm]
  · simp [Function.update_of_ne h, Ne.symm h]

theorem subValid_apply (valid : Nat → Nat) (seg grains seg' : Nat) :
    subValid valid seg grains seg' = valid seg' - (if seg = seg' then grains else 0) := by
  unfold subValid
  by_cases h : seg' = seg
  · subst h
    simp
  · simp [Function.update_of_ne h, Ne.symm h]

section Commit

variable {s : RecState} (hinv : RecInv env M s)
include hinv

/-- The entries of a hash are those of newest records. -/
theorem RecInv.of_mem_entries
    {hash : Nat} {e : HashEntry} (he : e ∈ (s.snap.tableForHash hash).entries hash true) :
  ∃ r ∈ newestRecords M, env.entryOf r = (s.snap.bucketOf hash, e.val)
  := by
  obtain ⟨hmem, htag⟩ := (hinv.wf.tableForHash hash).mem_entries_val.mp ⟨e, he, rfl⟩
  rw [hinv.wf.hashToBucket] at hmem
  rw [hinv.wf.tagOf] at htag
  have hitem := (hinv.wf.mem_items_iff htag).mpr hmem
  rw [hinv.items] at hitem
  apply Multiset.mem_map.mp hitem

/-- A newest record is among the items, in the bucket of its key's hash and with its tag. -/
theorem RecInv.mem_items
    {r : LogRecord} (hr : r ∈ newestRecords M) :
  (s.snap.bucketOf (env.hashKey r.key), (env.entryOf r).2) ∈ s.snap.items
    ∧ (env.entryOf r).2.keyTag = s.snap.tagOf (env.hashKey r.key)
  := by
  constructor
  · rw [hinv.items, DirSnapshot.bucketOf, hinv.bucketBits]
    apply Multiset.mem_map_of_mem env.entryOf hr
  · rw [DirSnapshot.tagOf, hinv.bucketBits]
    rfl

/-- A newest record of a key is among the entries of the key's hash. -/
theorem RecInv.mem_entries
    {r : LogRecord} (hr : r ∈ newestRecords M) :
  ∃ e ∈ (s.snap.tableForHash (env.hashKey r.key)).entries (env.hashKey r.key) true,
    e.val = (env.entryOf r).2
  := by
  obtain ⟨hmem, htag⟩ := hinv.mem_items hr
  apply (hinv.wf.tableForHash _).mem_entries_val.mpr
  rw [hinv.wf.hashToBucket, hinv.wf.tagOf]
  exact ⟨(hinv.wf.mem_items_iff htag).mp hmem, htag⟩

/-- The entry of a record in terms of the snapshot. -/
theorem RecInv.entryOf_eq
    (r : LogRecord) :
  env.entryOf r = (s.snap.bucketOf (env.hashKey r.key),
    ⟨s.snap.tagOf (env.hashKey r.key), if r.tombstone then 0 else r.grains, r.pba⟩)
  := by
  rw [DirSnapshot.bucketOf, DirSnapshot.tagOf, hinv.bucketBits]
  rfl

/-- A key without entry gets one. -/
theorem RecInv.insert
    {r : LogRecord} (hlog : IsLog env img (r ::ₘ M))
    (hts : s.segTimestamps (env.geo.segOf r.pba) = r.timestamp) (hnew : ∀ b ∈ M, b.key ≠ r.key)
    {snap : DirSnapshot}
    (hins : s.snap.insertLocked (env.hashKey r.key) (if r.tombstone then 0 else r.grains) r.pba
      = (true, snap)) :
  RecInv env (r ::ₘ M)
    { s with snap, valid := addValid s.valid (env.geo.segOf r.pba) r.grains }
  := by
  obtain ⟨hwf, -, hbits, -, hfrozen, hitems⟩ := hinv.wf.insertLocked hins
  have hnewest : newestRecords (r ::ₘ M) = r ::ₘ newestRecords M := newest_cons_new hnew
  refine ⟨hwf, hfrozen.trans hinv.frozen, hbits.trans hinv.bucketBits, ?_, ?_, ?_⟩
  · rw [hnewest, Multiset.map_cons, hinv.entryOf_eq]
    simp only
    rw [hitems, if_pos rfl, hinv.items, Multiset.singleton_add]
  · intro seg
    rw [hnewest, grainsIn_cons, ← hinv.valid]
    apply addValid_apply
  · intro a ha
    obtain rfl | ha := Multiset.mem_cons.mp ha
    · apply hts
    · apply hinv.timestamps a ha

/-- A newer record takes the place of the one the directory points at. -/
theorem RecInv.update
    {r m : LogRecord} (hlog : IsLog env img (r ::ₘ M))
    (hts : s.segTimestamps (env.geo.segOf r.pba) = r.timestamp) (hm : m ∈ newestRecords M)
    (hkey : m.key = r.key) (hnew : r.Newer m) :
  matchGrains env r.key (env.entryOf m).2 ≤ s.valid (env.geo.segOf m.pba)
    ∧ RecInv env (r ::ₘ M)
      { s with
        snap := (s.snap.updateLocked (env.hashKey r.key) m.pba
          (if r.tombstone then 0 else r.grains) r.pba).getD s.snap
        valid := addValid (subValid s.valid (env.geo.segOf m.pba)
          (matchGrains env r.key (env.entryOf m).2)) (env.geo.segOf r.pba) r.grains }
  := by
  have hlogM := hlog.of_cons
  have hcomp := hlogM.comparable
  obtain ⟨hmM, -⟩ := mem_newest.mp hm
  have hsplit : newestRecords M = m ::ₘ (newestRecords M).filter (·.key ≠ m.key) :=
    newest_split hlogM.nodup hcomp hm
  have hall : ∀ b ∈ M, b.key = r.key → r.Newer b := by
    intro b hb hb'
    by_cases hbm : b = m
    · rw [hbm]
      apply hnew
    · apply trans_of LogRecord.Newer hnew
      apply newer_of_mem_newest hcomp hm hb (hb'.trans hkey.symm) hbm
  have hnewest : newestRecords (r ::ₘ M) = r ::ₘ (newestRecords M).filter (·.key ≠ m.key) := by
    rw [hkey]
    apply newest_cons_newer hall
  have hgrains : matchGrains env r.key (env.entryOf m).2 = m.grains := by
    rw [← hkey]
    apply matchGrains_entryOf (hlogM.accepted m hmM)
  have hvalid : ∀ seg, s.valid seg = (if env.geo.segOf m.pba = seg then m.grains else 0)
      + env.grainsIn ((newestRecords M).filter (·.key ≠ m.key)) seg := by
    intro seg
    rw [hinv.valid, ← grainsIn_cons, ← hsplit]
  obtain ⟨hmem, htag⟩ := hinv.mem_items hm
  rw [hkey] at hmem htag
  obtain ⟨snap, hsnap⟩ := hinv.wf.exists_updateLocked (if r.tombstone then 0 else r.grains) r.pba
    hmem htag rfl
  have hpba : (env.entryOf m).2.pba = m.pba := rfl
  rw [hpba] at hsnap
  obtain ⟨hwf, -, hbits, -, hfrozen, x, hxtag, hxpba, hx, hitems⟩ := hinv.wf.updateLocked hsnap
  have hxm : (s.snap.bucketOf (env.hashKey r.key), x) = env.entryOf m := by
    rw [hinv.items] at hx
    obtain ⟨m', hm', hm'x⟩ := Multiset.mem_map.mp hx
    have hm'pba : m'.pba = m.pba := by
      rw [← hxpba, ← (Prod.mk.inj hm'x).2]
    rw [← hm'x, hlogM.eq_of_pba (mem_newest.mp hm').1 hmM hm'pba]
  refine ⟨?_, ?_, ?_, ?_, ?_, ?_, ?_⟩
  · rw [hgrains, hvalid, if_pos rfl]
    omega
  · simpa [hsnap] using hwf
  · simpa [hsnap] using hfrozen.trans hinv.frozen
  · simpa [hsnap] using hbits.trans hinv.bucketBits
  · rw [hxm, ← hinv.entryOf_eq, hinv.items, hsplit, Multiset.map_cons, Multiset.cons_swap]
      at hitems
    rw [hnewest, Multiset.map_cons]
    simp only [hsnap, Option.getD_some]
    apply (Multiset.cons_inj_right _).mp hitems
  · intro seg
    simp only
    rw [addValid_apply, subValid_apply, hgrains, hvalid, hnewest, grainsIn_cons]
    omega
  · intro a ha
    obtain rfl | ha := Multiset.mem_cons.mp ha
    · apply hts
    · apply hinv.timestamps a ha

/-- An older record makes no difference. -/
theorem RecInv.older
    {r m : LogRecord} (hlog : IsLog env img (r ::ₘ M))
    (hts : s.segTimestamps (env.geo.segOf r.pba) = r.timestamp) (hm : m ∈ newestRecords M)
    (hkey : m.key = r.key) (hold : ¬ r.Newer m) :
  RecInv env (r ::ₘ M) s
  := by
  obtain ⟨hmM, -⟩ := mem_newest.mp hm
  have hrM : r ∉ M := (Multiset.nodup_cons.mp hlog.nodup).1
  have hmr : m.Newer r := by
    obtain h | h | h := hlog.comparable m (Multiset.mem_cons_of_mem hmM) r
      (Multiset.mem_cons_self r M) hkey
    · rw [h] at hmM
      exact absurd hmM hrM
    · apply h
    · exact absurd h hold
  have hnewest : newestRecords (r ::ₘ M) = newestRecords M :=
    newest_cons_older hlog.of_cons.comparable hm hkey hmr hold
  refine ⟨hinv.wf, hinv.frozen, hinv.bucketBits, ?_, ?_, ?_⟩
  · rw [hnewest, hinv.items]
  · intro seg
    rw [hnewest, hinv.valid]
  · intro a ha
    obtain rfl | ha := Multiset.mem_cons.mp ha
    · apply hts
    · apply hinv.timestamps a ha

/-- A snapshot with the same items is as good. -/
theorem RecInv.resnap
    {snap : DirSnapshot} (hwf : snap.Wf) (hfrozen : snap.frozen = false)
    (hbits : snap.bucketBits = s.snap.bucketBits) (hitems : snap.items = s.snap.items)
    (calls : Nat) :
  RecInv env M { s with snap, calls }
  := ⟨hwf, hfrozen, hbits.trans hinv.bucketBits, hitems.trans hinv.items, hinv.valid,
    hinv.timestamps⟩

end Commit

/-- Every newest record that could be taken for a record of `r`'s key was seen. -/
def Covers (env : RecoveryEnv) (M : Multiset LogRecord) (r : LogRecord) (probe : KeyProbe) : Prop :=
  ∀ a ∈ newestRecords M, (env.entryOf a).1 = (env.entryOf r).1 →
    (env.entryOf a).2.keyTag = (env.entryOf r).2.keyTag → ∃ x, probe.find a.pba = some x

/-- A settled probe finds the entry of the newest record of the key, if there is one. -/
theorem probeSettled_spec
    {s : RecState} (hinv : RecInv env M s) {r : LogRecord} {probe : KeyProbe}
    (hlog : IsLog env img M) (hcorrect : Correct M r.key probe) (hcovers : Covers env M r probe) :
  (probeSettled (s.snap.tableForHash (env.hashKey r.key)) (env.hashKey r.key) probe
      = (true, none) ∧ ∀ b ∈ M, b.key ≠ r.key)
    ∨ ∃ m ∈ newestRecords M, m.key = r.key ∧ ∃ e : HashEntry, e.val = (env.entryOf m).2
      ∧ probeSettled (s.snap.tableForHash (env.hashKey r.key)) (env.hashKey r.key) probe
        = (true, some e)
  := by
  have hseen : ∀ e ∈ (s.snap.tableForHash (env.hashKey r.key)).entries (env.hashKey r.key) true,
      ∃ a ∈ newestRecords M, e.val = (env.entryOf a).2 ∧ ∃ x, probe.find e.val.pba = some x := by
    intro e he
    obtain ⟨a, ha, hae⟩ := hinv.of_mem_entries he
    obtain ⟨-, htag⟩ := (hinv.wf.tableForHash (env.hashKey r.key)).mem_entries_val.mp ⟨e, he, rfl⟩
    rw [hinv.wf.tagOf, DirSnapshot.tagOf, hinv.bucketBits] at htag
    refine ⟨a, ha, by rw [hae], ?_⟩
    have hpba : a.pba = e.val.pba := by
      rw [← (Prod.mk.inj hae).2]
    rw [← hpba]
    apply hcovers a ha
    · rw [hae, DirSnapshot.bucketOf, hinv.bucketBits]
      rfl
    · rw [hae]
      apply htag
  have hall := settle_of_seen (m := none) fun e he => (hseen e he).choose_spec.2.2
  cases hp : probeSettled (s.snap.tableForHash (env.hashKey r.key)) (env.hashKey r.key) probe with
  | mk b m =>
      rw [probeSettled] at hp
      rw [hp] at hall
      simp only at hall
      subst hall
      obtain ⟨-, -, hfound⟩ := settle_true hp
      obtain ⟨hsome, hnone⟩ := hfound rfl
      cases m with
      | none =>
          left
          refine ⟨rfl, ?_⟩
          intro b hb hkey
          obtain ⟨m, hm, hmb⟩ := exists_newest hlog.comparable hlog.nodup b hb
          obtain ⟨e, he, heval⟩ := hinv.mem_entries hm
          rw [hmb, hkey] at he
          obtain ⟨-, -, -, x, hx⟩ := hseen e he
          have hfalse := hnone rfl e he x hx
          obtain ⟨hxmem, hxpba⟩ := KeyProbe.find_eq_some hx
          have hmpba : m.pba = x.pba := by
            rw [hxpba, heval]
            rfl
          have htrue := (hcorrect x hxmem m (mem_newest.mp hm).1 hmpba).mpr (hmb.trans hkey)
          rw [hfalse] at htrue
          cases htrue
      | some e =>
          right
          obtain ⟨he, x, hx, hmatch⟩ := hsome e rfl
          obtain ⟨m, hm, heval, -⟩ := hseen e he
          obtain ⟨hxmem, hxpba⟩ := KeyProbe.find_eq_some hx
          have hmpba : m.pba = x.pba := by
            rw [hxpba, heval]
            rfl
          exact ⟨m, hm, (hcorrect x hxmem m (mem_newest.mp hm).1 hmpba).mp hmatch, e, heval, rfl⟩

/-- The locked part of recovering a record. -/
theorem recoverCommit_spec
    {r : LogRecord} {probe : KeyProbe} (hlog : IsLog env img (r ::ₘ M))
    (hcorrect : Correct M r.key probe) (hcovers : Covers env M r probe) :
  ∀ {n : Nat} {s : RecState}, RecInv env M s →
    s.segTimestamps (env.geo.segOf r.pba) = r.timestamp →
    kMaxTableBits + 1 ≤ n + s.snap.tableBits →
    Ensures (· ≠ .assertFailed) (fun s' => RecInv env (r ::ₘ M) s' ∧ RecFrame s s')
      (recoverCommit env r probe n s)
  | 0, s, hinv, hts, hn => by
      have hbits := hinv.wf.bits
      omega
  | n + 1, s, hinv, hts, hn => by
      rw [recoverCommit]
      simp only [hinv.frozen, Bool.false_eq_true, if_false]
      obtain ⟨hp, hnone⟩ | ⟨m, hm, hkey, e, heval, hp⟩ :=
        probeSettled_spec hinv hlog.of_cons hcorrect hcovers
      · simp only [hp]
        cases hins : s.snap.insertLocked (env.hashKey r.key)
          (if r.tombstone then 0 else r.grains) r.pba with
        | mk ok snap =>
            cases ok with
            | true =>
                apply Ensures.ok
                exact ⟨hinv.insert hlog hts hnone hins, rfl, rfl, rfl, rfl, rfl⟩
            | false =>
                obtain ⟨hwf, htb, hbb, -, hfrozen, hitems⟩ := hinv.wf.insertLocked hins
                simp only [Bool.false_eq_true, if_false, zero_add] at hitems
                simp only
                split
                · apply Ensures.error
                  simp
                · rename_i hlt
                  have hlt : snap.tableBits < kMaxTableBits := by omega
                  apply (external_spec _).bind
                  rintro s₁ rfl
                  obtain ⟨hcopied, hgrown⟩ := hwf.growCopy hlt
                  apply (recoverCommit_spec hlog hcorrect hcovers
                    (hinv.resnap hcopied.wf hcopied.frozen (hcopied.bucketBits.trans hbb)
                      (hgrown.trans hitems) _) hts ?_).mono
                  · rintro s' ⟨hinv', hframe⟩
                    exact ⟨hinv', hframe.segTimestamps, hframe.segMdOk, hframe.segLive,
                      hframe.dataSegs, hframe.maxTimestamp⟩
                  · have htb' := hcopied.tableBits
                    simp only
                    omega
      · have hmM := (mem_newest.mp hm).1
        have hts' : ∀ a ∈ r ::ₘ M, s.segTimestamps (env.geo.segOf a.pba) = a.timestamp := by
          intro a ha
          obtain rfl | ha := Multiset.mem_cons.mp ha
          · apply hts
          · apply hinv.timestamps a ha
        have hiff := hlog.newerThan_iff hts' (Multiset.mem_cons_self r M)
          (Multiset.mem_cons_of_mem hmM)
        simp only [hp, heval, entryOf_pba]
        split
        · rename_i hnew
          obtain ⟨hle, hinv'⟩ := hinv.update hlog hts hm hkey (hiff.mp hnew)
          rw [if_neg (Nat.not_lt.mpr hle)]
          apply Ensures.ok
          exact ⟨hinv', rfl, rfl, rfl, rfl, rfl⟩
        · rename_i hold
          apply Ensures.ok
          exact ⟨hinv.older hlog hts hm hkey fun h => hold (hiff.mpr h), RecFrame.refl s⟩

/-- Recovering a record: the directory points at the newest records with the new one. -/
theorem recoverRecord_spec
    {r : LogRecord} (hlog : IsLog env img (r ::ₘ M)) {s : RecState} (hinv : RecInv env M s)
    (hts : s.segTimestamps (env.geo.segOf r.pba) = r.timestamp) :
  Ensures (· ≠ .assertFailed) (fun s' => RecInv env (r ::ₘ M) s' ∧ RecFrame s s')
    (recoverRecord env img r s)
  := by
  set hash := env.hashKey r.key with hhash
  have hes : ∀ e ∈ (s.snap.tableForHash hash).entries hash true,
      ∃ a ∈ M, e.val = (env.entryOf a).2 := by
    intro e he
    obtain ⟨a, ha, hae⟩ := hinv.of_mem_entries he
    exact ⟨a, (mem_newest.mp ha).1, by rw [hae]⟩
  have hlen : ([] : KeyProbe).length + ((s.snap.tableForHash hash).entries hash true).length
      ≤ kHopRange := by
    rw [List.length_nil, Nat.zero_add]
    apply HashTable.entriesFrom_length
  unfold recoverRecord
  apply (probeKey_spec hlog.of_cons hes hlen (fun _ h => nomatch h)).bind
  rintro ⟨probe, s'⟩ ⟨hs', hcorrect, -, hall⟩
  simp only at hs'
  have hcovers : Covers env M r probe := by
    intro a ha hbucket htag
    obtain ⟨e, he, heval⟩ : ∃ e ∈ (s.snap.tableForHash hash).entries hash true,
        e.val = (env.entryOf a).2 := by
      have hbucket' : s.snap.bucketOf hash = (env.entryOf a).1 := by
        rw [hbucket, DirSnapshot.bucketOf, hinv.bucketBits]
        rfl
      have htag' : (env.entryOf a).2.keyTag = s.snap.tagOf hash := by
        rw [htag, DirSnapshot.tagOf, hinv.bucketBits]
        rfl
      apply (hinv.wf.tableForHash hash).mem_entries_val.mpr
      rw [hinv.wf.hashToBucket, hinv.wf.tagOf, hbucket', ← hinv.wf.mem_items_iff htag', hinv.items]
      exact ⟨Multiset.mem_map_of_mem env.entryOf ha, htag'⟩
    obtain ⟨x, hx⟩ := hall e he
    rw [heval] at hx
    exact ⟨x, hx⟩
  have hinv' : RecInv env M s' := by
    rw [hs']
    exact ⟨hinv.wf, hinv.frozen, hinv.bucketBits, hinv.items, hinv.valid, hinv.timestamps⟩
  have hts' : s'.segTimestamps (env.geo.segOf r.pba) = r.timestamp := by
    rw [hs']
    apply hts
  apply (recoverCommit_spec hlog hcorrect hcovers hinv' hts' (by omega)).mono
  rintro s'' ⟨hinv'', hframe⟩
  refine ⟨hinv'', RecFrame.trans ?_ hframe⟩
  rw [hs']
  exact ⟨rfl, rfl, rfl, rfl, rfl⟩

/-! ### Walking the log -/

/-- The walk with the records handed over is the handing over of the records of the walk. -/
theorem recoverWalk_eq
    (ts endGrain : Nat) :
  ∀ (n grain : Nat) (s : RecState), recoverWalk env img ts endGrain n grain s
    = (walk env.geo env.crc16 img.bytes ts endGrain n grain).foldlM
      (fun s r => recoverRecord env img r s) s
  | 0, _, _ => rfl
  | n + 1, grain, s => by
      rw [recoverWalk, walk]
      split
      · cases recordAt env.geo env.crc16 img.bytes ts endGrain grain with
        | none => apply recoverWalk_eq
        | some r =>
            simp only [List.foldlM_cons]
            congr
            funext s'
            apply recoverWalk_eq
      · rfl

/-- Handing over a list of records. -/
theorem recoverRecords_spec :
  ∀ {l : List LogRecord} {M : Multiset LogRecord} {s : RecState}, IsLog env img (↑l + M) →
    RecInv env M s → (∀ r ∈ l, s.segTimestamps (env.geo.segOf r.pba) = r.timestamp) →
    Ensures (· ≠ .assertFailed) (fun s' => RecInv env (↑l + M) s' ∧ RecFrame s s')
      (l.foldlM (fun s r => recoverRecord env img r s) s)
  | [], M, s, _, hinv, _ => by
      apply Ensures.ok
      rw [Multiset.coe_nil, zero_add]
      exact ⟨hinv, RecFrame.refl s⟩
  | r :: l, M, s, hlog, hinv, hts => by
      have hperm : (↑(r :: l) + M : Multiset LogRecord) = ↑l + r ::ₘ M := by
        rw [← Multiset.cons_coe, Multiset.cons_add, Multiset.add_cons]
      rw [hperm] at hlog ⊢
      have hlog₁ : IsLog env img (r ::ₘ M) := hlog.mono (Multiset.le_add_left _ _)
      rw [List.foldlM_cons]
      apply (recoverRecord_spec hlog₁ hinv (hts r List.mem_cons_self)).bind
      rintro s₁ ⟨hinv₁, hframe₁⟩
      have hts₁ : ∀ r' ∈ l, s₁.segTimestamps (env.geo.segOf r'.pba) = r'.timestamp := by
        intro r' hr'
        rw [hframe₁.segTimestamps]
        apply hts r' (List.mem_cons_of_mem r hr')
      apply (recoverRecords_spec hlog hinv₁ hts₁).mono
      rintro s₂ ⟨hinv₂, hframe₂⟩
      exact ⟨hinv₂, hframe₁.trans hframe₂⟩

/-- The records the walk of a segment accepts. -/
def RecoveryEnv.segRecords (env : RecoveryEnv) (img : Image) (seg : Nat) : List LogRecord :=
  match img.segMd seg with
  | some ⟨.kv, ts⟩ => walk env.geo env.crc16 img.bytes ts
      (env.geo.segBase seg + env.geo.dataGrains) env.geo.dataGrains (env.geo.segBase seg)
  | _ => []

/-- The data segments have distinct timestamps. -/
def Image.DistinctTimestamps (img : Image) (numSegments : Nat) : Prop :=
  ∀ a < numSegments, ∀ b < numSegments, ∀ ts,
    img.segMd a = some ⟨.kv, ts⟩ → img.segMd b = some ⟨.kv, ts⟩ → a = b

/-- What is known of the records of a segment. -/
theorem segRecords_spec
    (seg : Nat) :
  (∀ r ∈ env.segRecords img seg, r.Accepted env.geo img.bytes
      ∧ img.segMd seg = some ⟨.kv, r.timestamp⟩ ∧ env.geo.segOf r.pba = seg)
    ∧ (env.segRecords img seg).Pairwise (fun a b => a.pba + a.grains ≤ b.pba)
    ∧ ((env.segRecords img seg).map LogRecord.grains).sum ≤ env.geo.dataGrains
  := by
  unfold RecoveryEnv.segRecords
  split
  · rename_i ts hmd
    obtain ⟨hall, hsorted, hsum⟩ := @walk_spec env.geo env.crc16 img.bytes ts _
      env.geo.dataGrains (env.geo.segBase seg) (Nat.le_add_right _ env.geo.dataGrains)
    refine ⟨?_, hsorted, by omega⟩
    intro r hr
    obtain ⟨hacc, hts, hle, hend⟩ := hall r hr
    have hpos := hacc.grains_pos
    refine ⟨hacc, ?_, env.geo.segOf_eq hle (by omega)⟩
    rw [hmd, hts]
  · simp

/-- The records of different segments make a log. -/
theorem isLog_flatMap
    {n : Nat} (hts : img.DistinctTimestamps n) {segs : List Nat} (hnodup : segs.Nodup)
    (hlt : ∀ seg ∈ segs, seg < n) :
  IsLog env img ↑(segs.flatMap (env.segRecords img))
  := by
  have hmem : ∀ r ∈ (↑(segs.flatMap (env.segRecords img)) : Multiset LogRecord),
      r.Accepted env.geo img.bytes ∧ env.geo.segOf r.pba < n
        ∧ img.segMd (env.geo.segOf r.pba) = some ⟨.kv, r.timestamp⟩ := by
    intro r hr
    obtain ⟨seg, hseg, hr⟩ := List.mem_flatMap.mp (Multiset.mem_coe.mp hr)
    obtain ⟨hacc, hmd, hof⟩ := (segRecords_spec seg).1 r hr
    rw [hof]
    exact ⟨hacc, hlt seg hseg, hmd⟩
  constructor
  · intro r hr
    apply (hmem r hr).1
  · rw [Multiset.map_coe, Multiset.coe_nodup, List.map_flatMap, List.nodup_flatMap]
    constructor
    · intro seg _
      apply List.pairwise_map.mpr
      apply (segRecords_spec seg).2.1.imp_of_mem
      intro a b ha _ hab
      have hpos := ((segRecords_spec seg).1 a ha).1.grains_pos
      omega
    · apply hnodup.imp
      intro x y hxy pba hx hy
      obtain ⟨a, ha, rfl⟩ := List.mem_map.mp hx
      obtain ⟨b, hb, hab⟩ := List.mem_map.mp hy
      apply hxy
      rw [← ((segRecords_spec x).1 a ha).2.2, ← ((segRecords_spec y).1 b hb).2.2, hab]
  · intro a ha b hb
    obtain ⟨-, halt, hamd⟩ := hmem a ha
    obtain ⟨-, hblt, hbmd⟩ := hmem b hb
    constructor
    · intro heq
      rw [heq] at hamd
      apply hts _ halt _ hblt _ hamd hbmd
    · intro heq
      rw [heq, hbmd] at hamd
      simpa using hamd.symm

/-- Recovering a segment hands over its records. -/
theorem recoverSegment_spec
    {seg : Nat} (hlog : IsLog env img (↑(env.segRecords img seg) + M))
    (hother : ∀ r ∈ M, env.geo.segOf r.pba ≠ seg) {s : RecState} (hinv : RecInv env M s)
    {segs : Set Nat} (ha : s.Arrays img segs) :
  Ensures (· ≠ .assertFailed)
    (fun s' => RecInv env (↑(env.segRecords img seg) + M) s' ∧ s'.Arrays img (insert seg segs))
    (recoverSegment env img seg s)
  := by
  unfold recoverSegment
  apply (external_spec s).bind
  rintro s₁ rfl
  have hinv₁ := hinv.resnap hinv.wf hinv.frozen rfl rfl (s.calls + 1)
  have ha₁ : RecState.Arrays img segs { s with calls := s.calls + 1 } := ⟨ha.found, ha.other⟩
  cases hmd : img.segMd seg with
  | none =>
      have hnil : env.segRecords img seg = [] := by rw [RecoveryEnv.segRecords, hmd]
      rw [hnil, Multiset.coe_nil, zero_add]
      apply Ensures.ok ⟨hinv₁, ha₁.insert_other (by simp [hmd])⟩
  | some md =>
      obtain ⟨ctlrType, ts⟩ := md
      cases ctlrType with
      | index =>
          have hnil : env.segRecords img seg = [] := by rw [RecoveryEnv.segRecords, hmd]
          rw [hnil, Multiset.coe_nil, zero_add]
          apply Ensures.ok ⟨hinv₁, ha₁.insert_other (by simp [hmd])⟩
      | kv =>
          have hrecs : walk env.geo env.crc16 img.bytes ts
              (env.geo.segBase seg + env.geo.dataGrains) env.geo.dataGrains (env.geo.segBase seg)
                = env.segRecords img seg := by
            rw [RecoveryEnv.segRecords, hmd]
          simp only [ne_eq, not_true_eq_false, if_false]
          apply (external_spec _).bind
          rintro s₂ rfl
          rw [recoverWalk_eq, hrecs]
          apply (recoverRecords_spec hlog _ _).mono
          · rintro s' ⟨hinv', hframe⟩
            have ha₂ := ha₁.foundSegment hmd
            exact ⟨hinv', hframe.arrays ⟨ha₂.found, ha₂.other⟩⟩
          · refine ⟨hinv.wf, hinv.frozen, hinv.bucketBits, hinv.items, hinv.valid, ?_⟩
            intro r hr
            rw [← hinv.timestamps r hr]
            apply Function.update_of_ne (hother r hr)
          · intro r hr
            obtain ⟨-, hmd', hof⟩ := (segRecords_spec seg).1 r hr
            rw [hmd] at hmd'
            rw [hof]
            simp only [RecState.foundSegment, Function.update_self]
            simpa using hmd'

/-- Recovering segments hands over their records. -/
theorem recoverSegments_spec :
  ∀ {segs : List Nat} {M : Multiset LogRecord} {s : RecState} {walked : Set Nat},
    segs.Nodup → IsLog env img (↑(segs.flatMap (env.segRecords img)) + M) →
    (∀ r ∈ M, env.geo.segOf r.pba ∉ segs) → RecInv env M s → s.Arrays img walked →
    Ensures (· ≠ .assertFailed)
      (fun s' => RecInv env (↑(segs.flatMap (env.segRecords img)) + M) s'
        ∧ s'.Arrays img ({seg | seg ∈ segs} ∪ walked))
      (recoverSegments env img segs s)
  | [], M, s, walked, _, _, _, hinv, ha => by
      apply Ensures.ok
      constructor
      · simpa using hinv
      · simpa using ha
  | seg :: segs, M, s, walked, hnodup, hlog, hother, hinv, ha => by
      obtain ⟨hseg, hnodup⟩ := List.nodup_cons.mp hnodup
      have hsum : (↑((seg :: segs).flatMap (env.segRecords img)) + M : Multiset LogRecord)
          = ↑(segs.flatMap (env.segRecords img)) + (↑(env.segRecords img seg) + M) := by
        rw [List.flatMap_cons, ← Multiset.coe_add]
        ac_rfl
      have hwalked : {x | x ∈ seg :: segs} ∪ walked = {x | x ∈ segs} ∪ insert seg walked := by
        ext x
        simp [or_assoc]
      rw [hsum] at hlog ⊢
      rw [recoverSegments, hwalked]
      apply (recoverSegment_spec (hlog.mono (Multiset.le_add_left _ _)) ?_ hinv ha).bind
      · rintro s₁ ⟨hinv₁, ha₁⟩
        apply recoverSegments_spec hnodup hlog _ hinv₁ ha₁
        intro r hr
        obtain hr | hr := Multiset.mem_add.mp hr
        · rw [((segRecords_spec seg).1 r (Multiset.mem_coe.mp hr)).2.2]
          apply hseg
        · intro hmem
          apply hother r hr (List.mem_cons_of_mem seg hmem)
      · intro r hr heq
        apply hother r hr
        rw [heq]
        apply List.mem_cons_self

theorem restoreGrainRanges_spec :
  ∀ {segs : List Nat} {s : RecState} {walked : Set Nat}, RecInv env M s → s.Arrays img walked →
    Ensures (· ≠ .assertFailed) (fun s' => RecInv env M s' ∧ s'.Arrays img walked)
      (restoreGrainRanges env segs s)
  | [], _, _, hinv, ha => Ensures.ok ⟨hinv, ha⟩
  | seg :: segs, s, _, hinv, ha => by
      rw [restoreGrainRanges]
      split
      · apply restoreGrainRanges_spec hinv ha
      · apply (external_spec s).bind
        rintro s₁ rfl
        apply restoreGrainRanges_spec (hinv.resnap hinv.wf hinv.frozen rfl rfl (s.calls + 1))
          ⟨ha.found, ha.other⟩

theorem RecInv.init (calls : Nat) :
    RecInv env 0 { RecState.init env.bucketBits with calls } where
  wf := .create _
  frozen := rfl
  bucketBits := rfl
  items := by simp [RecState.init, newestRecords, newest]
  valid := fun _ => by simp [RecState.init, RecoveryEnv.grainsIn, newestRecords, newest]
  timestamps := fun _ hr => absurd hr (Multiset.notMem_zero _)

/-- The records the log walk accepts on a device. -/
def RecoveryEnv.log (env : RecoveryEnv) (img : Image) : Multiset LogRecord :=
  ↑((List.range env.geo.numSegments).flatMap (env.segRecords img))

theorem isLog_log
    (hts : img.DistinctTimestamps env.geo.numSegments) :
  IsLog env img (env.log img)
  := isLog_flatMap hts List.nodup_range fun _ => List.mem_range.mp

theorem RecState.Arrays.init (calls : Nat) :
    RecState.Arrays img ∅ { RecState.init env.bucketBits with calls } where
  found := fun hmem => absurd hmem (Set.notMem_empty _)
  other := fun hor => by simp [RecState.init] at hor

/-- Recovery, in any order of the segments, hands over the records of the log, and fills the arrays
from the metadata of the data segments. -/
theorem crashRecovery_spec
    (hts : img.DistinctTimestamps env.geo.numSegments) {order : List Nat}
    (hord : order.Perm (List.range env.geo.numSegments)) :
  Ensures (· ≠ .assertFailed)
    (fun s => RecInv env (env.log img) s ∧ s.Arrays img {seg | seg < env.geo.numSegments})
    (crashRecovery env img order)
  := by
  have hlog : (↑(order.flatMap (env.segRecords img)) : Multiset LogRecord) = env.log img :=
    Multiset.coe_eq_coe.mpr (hord.flatMap_right _)
  unfold crashRecovery
  apply (external_spec _).bind
  rintro s₀ rfl
  have hlog₀ : IsLog env img (↑(order.flatMap (env.segRecords img)) + 0) := by
    rw [add_zero, hlog]
    apply isLog_log hts
  apply (recoverSegments_spec (hord.nodup_iff.mpr List.nodup_range) hlog₀
    (fun r hr => absurd hr (Multiset.notMem_zero r)) (RecInv.init _) (RecState.Arrays.init _)).bind
  rintro s ⟨hinv, ha⟩
  have hwalked : {seg | seg ∈ order} ∪ ∅ = {seg | seg < env.geo.numSegments} := by
    ext seg
    simp [hord.mem_iff]
  rw [add_zero, hlog] at hinv
  rw [hwalked] at ha
  split
  · apply Ensures.error
    simp
  · apply restoreGrainRanges_spec hinv ha

/-! ### The directory recovery builds -/

/-- The key of the record at an address. -/
def Image.keyAt (img : Image) (geo : Geometry) (pba : Nat) : Bytes :=
  readBytes img.bytes (pba * geo.grainSize + kKvHeaderBytes)
    (readHdr img.bytes (pba * geo.grainSize)).keySize

theorem LogRecord.Accepted.keyAt
    {r : LogRecord} (h : r.Accepted env.geo img.bytes) :
  img.keyAt env.geo r.pba = r.key
  := by
  rw [Image.keyAt, h.keySize, h.key]

/-- The records of a segment fit in it, and are in no other. -/
theorem grainsIn_segRecords_le
    (x seg : Nat) :
  env.grainsIn ↑(env.segRecords img x) seg ≤ if x = seg then env.geo.dataGrains else 0
  := by
  obtain ⟨hof, -, hle⟩ := @segRecords_spec env img x
  rw [RecoveryEnv.grainsIn]
  split
  · rename_i hx
    rw [Multiset.filter_eq_self.mpr fun r hr => ((hof r hr).2.2).trans hx, Multiset.map_coe,
      Multiset.sum_coe]
    apply hle
  · rename_i hx
    rw [Multiset.filter_eq_nil.mpr fun r hr h => hx ((hof r hr).2.2.symm.trans h)]
    simp

theorem grainsIn_flatMap_le
    (seg : Nat) :
  ∀ {segs : List Nat}, segs.Nodup →
    env.grainsIn ↑(segs.flatMap (env.segRecords img)) seg
      ≤ if seg ∈ segs then env.geo.dataGrains else 0
  | [], _ => by simp [RecoveryEnv.grainsIn]
  | x :: segs, hnodup => by
      obtain ⟨hx, hnodup⟩ := List.nodup_cons.mp hnodup
      have ih := grainsIn_flatMap_le seg hnodup
      have hhead := @grainsIn_segRecords_le env img x seg
      have hsum : env.grainsIn ↑((x :: segs).flatMap (env.segRecords img)) seg
          = env.grainsIn ↑(env.segRecords img x) seg
            + env.grainsIn ↑(segs.flatMap (env.segRecords img)) seg := by
        rw [List.flatMap_cons, ← Multiset.coe_add, RecoveryEnv.grainsIn, Multiset.filter_add,
          Multiset.map_add, Multiset.sum_add]
        rfl
      by_cases hxs : x = seg
      · subst hxs
        rw [if_neg hx] at ih
        rw [if_pos rfl] at hhead
        rw [hsum, if_pos List.mem_cons_self]
        omega
      · rw [if_neg hxs] at hhead
        have hmem : seg ∈ x :: segs ↔ seg ∈ segs := by simp [Ne.symm hxs]
        rw [hsum, if_congr hmem rfl rfl]
        omega

/-- The grains of records of the log in a segment fit in it. -/
theorem grainsIn_log_le
    {N : Multiset LogRecord} (hN : N ≤ env.log img) (seg : Nat) :
  env.grainsIn N seg ≤ env.geo.dataGrains
  := by
  have hle : env.grainsIn N seg ≤ env.grainsIn (env.log img) seg := by
    obtain ⟨rest, hrest⟩ := Multiset.le_iff_exists_add.mp hN
    rw [hrest, RecoveryEnv.grainsIn, RecoveryEnv.grainsIn, Multiset.filter_add, Multiset.map_add,
      Multiset.sum_add]
    apply Nat.le_add_right
  apply hle.trans
  apply (grainsIn_flatMap_le seg List.nodup_range).trans
  split
  · apply le_rfl
  · apply Nat.zero_le

section Result

variable {s : RecState} (hlog : IsLog env img M) (hinv : RecInv env M s)
include hlog hinv

/-- The items of a key are the entry of its newest record. -/
theorem RecInv.filter_items
    {m : LogRecord} (hm : m ∈ newestRecords M) :
  s.snap.items.filter (fun x => img.keyAt env.geo x.2.pba = m.key) = {env.entryOf m}
  := by
  have hkeys : ∀ a ∈ newestRecords M,
      ((fun x => img.keyAt env.geo x.2.pba = m.key) ∘ env.entryOf) a ↔ a.key = m.key := by
    intro a ha
    rw [Function.comp_apply, entryOf_pba, (hlog.accepted a (mem_newest.mp ha).1).keyAt]
  have hfilter : (newestRecords M).filter (·.key = m.key) = {m} := by
    rw [newestRecords, newest_split hlog.nodup hlog.comparable hm, Multiset.filter_cons,
      Multiset.filter_filter]
    simp
  rw [hinv.items, Multiset.filter_map, Multiset.filter_congr hkeys, hfilter,
    Multiset.map_singleton]

/-- The valid grains of a segment, in terms of the entries pointing into it. -/
theorem RecInv.valid_eq
    (seg : Nat) :
  s.valid seg = ((s.snap.items.filter (fun x => env.geo.segOf x.2.pba = seg)).map
    (fun x => matchGrains env (img.keyAt env.geo x.2.pba) x.2)).sum
  := by
  rw [hinv.valid, hinv.items, Multiset.filter_map, Multiset.map_map, RecoveryEnv.grainsIn]
  congr 1
  apply Multiset.map_congr rfl
  intro a ha
  have hacc := hlog.accepted a (mem_newest.mp (Multiset.mem_filter.mp ha).1).1
  simp only [Function.comp_apply, entryOf_pba]
  rw [hacc.keyAt, matchGrains_entryOf hacc]

end Result

/-- Recovery, if it does not fail, leaves exactly one entry for each key with an accepted
record: that of the key's newest record, live with its grains or deleted.  The valid grains of
a segment are those of the records the entries in it point at.  Both are the same for every
order in which the segments are walked, and no assertion fails on the way. -/
theorem crashRecovery_newest
    (env : RecoveryEnv) (img : Image) (hts : img.DistinctTimestamps env.geo.numSegments)
    {order : List Nat} (hord : order.Perm (List.range env.geo.numSegments)) :
  crashRecovery env img order ≠ .error .assertFailed
    ∧ ∀ s, crashRecovery env img order = .ok s →
      (∀ a ∈ env.log img, ∃ m ∈ env.log img, m.key = a.key
        ∧ (∀ b ∈ env.log img, b.key = a.key → b ≠ m → m.Newer b)
        ∧ s.snap.items.filter (fun x => img.keyAt env.geo x.2.pba = a.key) = {env.entryOf m})
      ∧ (∀ x ∈ s.snap.items, ∃ a ∈ env.log img, a.key = img.keyAt env.geo x.2.pba)
      ∧ (∀ seg, s.valid seg = ((s.snap.items.filter (fun x => env.geo.segOf x.2.pba = seg)).map
          (fun x => matchGrains env (img.keyAt env.geo x.2.pba) x.2)).sum
        ∧ s.valid seg ≤ env.geo.dataGrains)
      ∧ ∀ faults' order' s', order'.Perm (List.range env.geo.numSegments) →
        crashRecovery { env with faults := faults' } img order' = .ok s' →
        s'.snap.items = s.snap.items ∧ s'.valid = s.valid
  := by
  have hlog := isLog_log hts
  have hspec := crashRecovery_spec hts hord
  constructor
  · intro herr
    rw [herr] at hspec
    exact hspec rfl
  intro s hs
  have hinv := (hspec.of_eq_ok hs).1
  refine ⟨?_, ?_, ?_, ?_⟩
  · intro a ha
    obtain ⟨m, hm, hkey⟩ := exists_newest hlog.comparable hlog.nodup a ha
    refine ⟨m, (mem_newest.mp hm).1, hkey, ?_, ?_⟩
    · intro b hb hba hbm
      apply newer_of_mem_newest hlog.comparable hm hb (hba.trans hkey.symm) hbm
    · rw [← hkey]
      apply hinv.filter_items hlog hm
  · intro x hx
    rw [hinv.items] at hx
    obtain ⟨a, ha, rfl⟩ := Multiset.mem_map.mp hx
    have haM := (mem_newest.mp ha).1
    exact ⟨a, haM, (hlog.accepted a haM).keyAt.symm⟩
  · intro seg
    refine ⟨hinv.valid_eq hlog seg, ?_⟩
    rw [hinv.valid]
    apply grainsIn_log_le (Multiset.filter_le _ _)
  · intro faults' order' s' hord' hs'
    have hinv' :=
      ((@crashRecovery_spec { env with faults := faults' } img hts _ hord').of_eq_ok hs').1
    constructor
    · rw [hinv.items]
      apply hinv'.items
    · funext seg
      rw [hinv.valid]
      apply hinv'.valid

/-- A device of two data segments: a record of the key `[1]` in the older one, and a tombstone
of the key in the newer one. -/
def deletedKeyImage : Image where
  segMd
    | 0 => some ⟨.kv, 5⟩
    | 1 => some ⟨.kv, 6⟩
    | _ => none
  bytes off :=
    if off < 128 then ([1, 0, 1, 0, 0, 0, 5, 0, 0, 0, 0, 0, 0, 0, 1, 7] : Bytes).getD off 0
    else ([1, 0, 255, 255, 255, 255, 6, 0, 0, 0, 0, 0, 0, 0, 1] : Bytes).getD (off - 128) 0

/-- Grains of 32 bytes, segments of four grains. -/
def smallEnv : RecoveryEnv where
  geo := ⟨32, 4, 1, 2, by decide, by decide⟩
  bucketBits := 1
  hashKey := List.length
  crc16 := fun _ => 0
  maxCapacity := 4
  faults := fun _ => false

theorem deletedKeyImage_distinct : deletedKeyImage.DistinctTimestamps smallEnv.geo.numSegments := by
  intro a ha b hb ts hmda hmdb
  change a < 2 at ha
  change b < 2 at hb
  obtain rfl | rfl : a = 0 ∨ a = 1 := by omega
  · obtain rfl | rfl : b = 0 ∨ b = 1 := by omega
    · rfl
    · simp only [deletedKeyImage, Option.some.injEq, SegMd.mk.injEq, true_and] at hmda hmdb
      omega
  · obtain rfl | rfl : b = 0 ∨ b = 1 := by omega
    · simp only [deletedKeyImage, Option.some.injEq, SegMd.mk.injEq, true_and] at hmda hmdb
      omega
    · rfl

/-- Walking the newer segment first, recovery finds the key deleted. -/
theorem crashRecovery_newest_deleted :
  ∃ s, crashRecovery smallEnv deletedKeyImage [1, 0] = .ok s
    ∧ s.snap.items.filter (fun x => deletedKeyImage.keyAt smallEnv.geo x.2.pba = [1])
      = {(1, ⟨0, 0, 4⟩)}
  := by
  have hspec := crashRecovery_newest smallEnv deletedKeyImage deletedKeyImage_distinct
    (by decide : [1, 0].Perm (List.range 2))
  have hok : (crashRecovery smallEnv deletedKeyImage [1, 0]).isOk = true := by decide +kernel
  cases hs : crashRecovery smallEnv deletedKeyImage [1, 0] with
  | error e =>
      rw [hs] at hok
      cases hok
  | ok s =>
      use s, rfl
      obtain ⟨hone, -⟩ := hspec.2 s hs
      have hlog : smallEnv.log deletedKeyImage
          = {⟨[1], 5, false, 1, 0⟩, ⟨[1], 6, true, 1, 4⟩} := by decide +kernel
      rw [hlog] at hone
      obtain ⟨m, hm, hkey, hnewer, hitems⟩ := hone ⟨[1], 5, false, 1, 0⟩ (by simp)
      rw [hitems]
      simp only [Multiset.insert_eq_cons, Multiset.mem_cons, Multiset.mem_singleton] at hm
      obtain rfl | rfl := hm
      · exact absurd (hnewer ⟨[1], 6, true, 1, 4⟩ (by simp) rfl (by decide)) (by decide)
      · rfl

end UDepot
