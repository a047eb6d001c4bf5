import UDepot.Index.RoundTrip
import UDepot.Store.Reopened

/-!
# Stores that are opened after a clean close

`close` writes the tables of the directory to their segments and `restore_index` reads them back.
If the entries fit their words, the directory that is restored has the entries of the one that was
flushed, and the store is as `open` leaves one (`restoreIndex_opened`).  So the invariants of a run
hold over any number of sessions (`Sessions.inv`).
-/

namespace UDepot

open HashEntry Hopscotch

/-- The directory of tables in mappings. -/
def IndexEnv.directory (env : IndexEnv) (tables : List IndexTable) : DirSnapshot where
  tables j := {
    indexBits := env.geo.indexBits
    slots := fun i =>
      if i < env.geo.slotNr then (tables[j]?).bind fun t => ofRaw (t.loadSlot i) else none }
  tableBits := tables.length.log2
  bucketBits := env.geo.indexBits
  generation := 0
  frozen := false

/-- The greatest timestamp of a data segment, `max_data_ts`. -/
def IndexEnv.maxDataTs (env : IndexEnv) (segMd : Nat → Option SegMd) : Nat :=
  (List.range env.geo.numSegments).foldl (fun ts seg => max ts (dataTs segMd seg)) 0

/-- What `open` has after `restore_index`, on a device with the records `recs`. -/
def IndexEnv.reopening
    (env : IndexEnv) (segMd : Nat → Option SegMd) (recs : Nat → Option Rec)
    (tables : List IndexTable) (valid : Nat → Nat) : Reopening where
  segMd seg := if seg < env.geo.numSegments then segMd seg else none
  segTimestamps seg := if seg < env.geo.numSegments then dataTs segMd seg else 0
  segMdOk seg := seg < env.geo.numSegments && dataTs segMd seg != 0
  segLive seg := seg < env.geo.numSegments && dataTs segMd seg != 0
  segAllocNr := env.maxDataTs segMd
  recs p :=
    if env.geo.segOf p < env.geo.numSegments then
      (recs p).filter fun r => segMd (env.geo.segOf p) = some ⟨.kv, r.timestamp⟩
    else none
  snap := env.directory tables
  valid := valid
  index seg := tables.any (·.seg == seg)

/-- The tables in mappings are those of a store. -/
structure IndexEnv.Maps (ienv : IndexEnv) (env : StoreEnv) (snap : DirSnapshot)
    (tables : List IndexTable) : Prop where
  geo : ienv.geo = env.geo
  bits : ienv.geo.indexBits = env.bucketBits
  length : tables.length = snap.size
  words : ∀ {j t}, tables[j]? = some t → ∀ i < ienv.geo.slotNr,
    t.loadSlot i = slotRaw ((snap.tables j).slots i)

/-! ### The directory that is restored -/

/-- Snapshots with the same tables have the same entries. -/
theorem DirSnapshot.Wf.congr
    {snap snap' : DirSnapshot} (h : snap.Wf) (hbits : snap'.tableBits = snap.tableBits)
    (hbuckets : snap'.bucketBits = snap.bucketBits)
    (htables : ∀ j < snap.size, snap'.tables j = snap.tables j) :
  snap'.Wf ∧ snap'.items = snap.items
  := by
  have hsize : snap'.size = snap.size := by rw [size, size, hbits]
  constructor
  · constructor
    · rw [hbits]
      exact h.bits
    · intro j hj
      rw [hsize] at hj
      rw [htables j hj]
      exact h.table hj
    · intro j hj
      rw [hsize] at hj
      rw [htables j hj, hbuckets]
      exact h.indexBits hj
    · intro j x hj hx
      rw [hsize] at hj
      rw [htables j hj] at hx
      exact h.tag hj hx
    · intro j x hj hx
      rw [hsize] at hj
      rw [htables j hj] at hx
      rw [hbits]
      exact h.select hj hx
  · rw [items, items, hsize]
    apply Finset.sum_congr rfl
    intro j hj
    rw [htables j (Finset.mem_range.mp hj)]

section

variable {env : StoreEnv} {ienv : IndexEnv} {s : State} {tables tables' : List IndexTable}

/-- An entry points into a data segment that has its ranges. -/
theorem State.Inv.entry_seg
    (h : s.Inv env) {x : Nat × EntryInfo} (hx : x ∈ s.core.curSnap.items) :
  (s.core.phase (env.geo.segOf x.2.pba)).ranged = true
    ∧ s.core.segMdOk (env.geo.segOf x.2.pba) = true
    ∧ s.core.segMd (env.geo.segOf x.2.pba)
      = some ⟨.kv, s.core.segTimestamps (env.geo.segOf x.2.pba)⟩
  := by
  obtain ⟨r, hr⟩ := h.core.dir.pointed hx
  have hranged := SegPhase.ranged_of_inUse hr.inUse
  have hok := hr.current.mdOk
  exact ⟨hranged, hok, ((h.core.segs.phase _).ranged hranged hok).1⟩

/-- A slot is read back from its word. -/
theorem State.Inv.ofRaw_slotRaw
    (h : s.Inv env) (hin : s.core.Inside env.geo) (hgeo : env.geo.Addressable) {j : Nat}
    (hj : j < s.core.curSnap.size) (i : Nat) :
  ofRaw (slotRaw ((s.core.curSnap.tables j).slots i)) = (s.core.curSnap.tables j).slots i
  := by
  cases hslot : (s.core.curSnap.tables j).slots i with
  | none => exact HashEntry.ofRaw_slotRaw fun e he => by cases he
  | some e => exact (h.survives hin hgeo hj hslot).packed

theorem IndexEnv.Maps.totalSlots
    (h : s.Inv env) (hmaps : ienv.Maps env s.core.curSnap tables) {j : Nat}
    (hj : j < s.core.curSnap.size) :
  (s.core.curSnap.tables j).totalSlots = ienv.geo.slotNr
  := by
  rw [HashTable.totalSlots, HashTable.numBuckets, h.core.dir.wf.indexBits hj, h.core.dir.bits,
    ← hmaps.bits, Geometry.slotNr]

/-- The tables that are restored are those that were flushed. -/
theorem IndexEnv.Maps.tables_eq
    (h : s.Inv env) (hin : s.core.Inside env.geo) (hgeo : env.geo.Addressable)
    (hmaps : ienv.Maps env s.core.curSnap tables)
    (hsame : List.Forall₂ ienv.SameTable tables tables') {j : Nat} (hj : j < s.core.curSnap.size) :
  (ienv.directory tables').tables j = s.core.curSnap.tables j
  := by
  have hlt : j < tables.length := hmaps.length ▸ hj
  have hlt' : j < tables'.length := hsame.length_eq ▸ hlt
  have hslots : ∀ i < ienv.geo.slotNr, tables'[j].loadSlot i = tables[j].loadSlot i :=
    (hsame.get hlt hlt').2
  have heq : ∀ i, (if i < ienv.geo.slotNr then (tables'[j]?).bind fun t => ofRaw (t.loadSlot i)
      else none) = (s.core.curSnap.tables j).slots i := by
    intro i
    split
    · rename_i hi
      rw [List.getElem?_eq_getElem hlt', Option.bind_some, hslots i hi,
        hmaps.words (List.getElem?_eq_getElem hlt) i hi, h.ofRaw_slotRaw hin hgeo hj]
    · rename_i hi
      cases hslot : (s.core.curSnap.tables j).slots i with
      | none => rfl
      | some e =>
          have hwf := h.core.dir.wf.table hj
          have hreach := hwf.reach hslot
          have hhome := hwf.home hslot
          have htotal := hmaps.totalSlots h hj
          rw [HashTable.totalSlots] at htotal
          omega
  have hbits : (s.core.curSnap.tables j).indexBits = ienv.geo.indexBits := by
    rw [h.core.dir.wf.indexBits hj, h.core.dir.bits, hmaps.bits]
  calc (ienv.directory tables').tables j
    _ = ⟨ienv.geo.indexBits, (s.core.curSnap.tables j).slots⟩ := by
        simp only [IndexEnv.directory]
        congr 1
        funext i
        exact heq i
    _ = s.core.curSnap.tables j := by rw [← hbits]

/-- The entries in the mappings are those of the directory. -/
theorem IndexEnv.Maps.mem_entries
    (h : s.Inv env) (hin : s.core.Inside env.geo) (hgeo : env.geo.Addressable)
    (hmaps : ienv.Maps env s.core.curSnap tables) {e : EntryInfo} :
  e ∈ ienv.entries tables ↔ ∃ x ∈ s.core.curSnap.items, x.2 = e
  := by
  rw [IndexEnv.entries, entriesOf, List.mem_filterMap]
  constructor
  · rintro ⟨raw, hraw, he⟩
    obtain ⟨t, ht, hslot⟩ := List.mem_flatMap.mp hraw
    obtain ⟨i, hi, rfl⟩ := List.mem_map.mp hslot
    obtain ⟨j, hj⟩ := List.mem_iff_getElem?.mp ht
    have hlt : j < s.core.curSnap.size := by
      rw [← hmaps.length]
      exact (List.getElem?_eq_some_iff.mp hj).1
    rw [List.mem_range] at hi
    rw [hmaps.words hj i hi, h.ofRaw_slotRaw hin hgeo hlt] at he
    obtain ⟨c, hc, rfl⟩ := Option.map_eq_some_iff.mp he
    exact ⟨_, DirSnapshot.mem_items.mpr ⟨j, hlt, h.core.dir.wf.mem_items_of_slot hlt hc⟩, rfl⟩
  · rintro ⟨x, hx, rfl⟩
    obtain ⟨j, hj, hx⟩ := DirSnapshot.mem_items.mp hx
    obtain ⟨i, hi, hitem⟩ := mem_contents.mp hx
    obtain ⟨c, hc, rfl⟩ := itemAt_eq_some.mp hitem
    rw [hmaps.totalSlots h hj] at hi
    have hlt : j < tables.length := hmaps.length ▸ hj
    refine ⟨slotRaw (some c), List.mem_flatMap.mpr ⟨tables[j], List.getElem_mem hlt, ?_⟩, ?_⟩
    · refine List.mem_map.mpr ⟨i, List.mem_range.mpr hi, ?_⟩
      rw [hmaps.words (List.getElem?_eq_getElem hlt) i hi, hc]
    · rw [← hc, h.ofRaw_slotRaw hin hgeo hj, hc, Option.map_some]

/-- Entries hold grains in a segment just if one of them points into it. -/
theorem IndexEnv.grainsIn_ne_zero {dev : Device} {es : List EntryInfo} {seg : Nat} :
    ienv.grainsIn dev es seg ≠ 0 ↔ ∃ e ∈ es, ienv.geo.segOf e.pba = seg := by
  have hpos : ∀ e, 0 < ienv.entryGrains dev e := by
    intro e
    rw [entryGrains]
    split
    · apply Geometry.kvTotalGrains_pos
    · rename_i hdel
      simp only [EntryInfo.deleted, beq_iff_eq] at hdel
      exact Nat.pos_of_ne_zero hdel
  rw [IndexEnv.grainsIn, Ne, List.sum_eq_zero_iff_forall_eq_nat, List.forall_mem_map]
  simp only [List.mem_filter, beq_iff_eq, and_imp]
  constructor
  · intro h
    by_contra hnone
    push Not at hnone
    exact h fun e he hseg => absurd hseg (hnone e he)
  · rintro ⟨e, he, hseg⟩ h
    exact (hpos e).ne' (h e he hseg)

theorem IndexEnv.dataTs_eq_some {segMd : Nat → Option SegMd} {seg : Nat}
    (hts : dataTs segMd seg ≠ 0) : segMd seg = some ⟨.kv, dataTs segMd seg⟩ := by
  rw [dataTs] at hts ⊢
  split at hts
  · assumption
  · exact absurd rfl hts

/-- A greatest value is at least that of every element, and the value to begin with. -/
theorem le_foldl_max (f : Nat → Nat) (xs : List Nat) (m : Nat) :
    m ≤ xs.foldl (fun m x => max m (f x)) m
      ∧ ∀ x ∈ xs, f x ≤ xs.foldl (fun m x => max m (f x)) m := by
  induction xs generalizing m with
  | nil => exact ⟨Nat.le_refl m, by rintro x ⟨⟩⟩
  | cons y ys ih =>
      obtain ⟨hle, hall⟩ := ih (max m (f y))
      refine ⟨Nat.le_trans (Nat.le_max_left m (f y)) hle, ?_⟩
      intro x hx
      obtain rfl | hx := List.mem_cons.mp hx
      · exact Nat.le_trans (Nat.le_max_right m (f x)) hle
      · exact hall x hx

theorem IndexEnv.le_maxDataTs
    {segMd : Nat → Option SegMd} {seg ts : Nat} (hseg : seg < ienv.geo.numSegments)
    (hmd : segMd seg = some ⟨.kv, ts⟩) :
  ts ≤ ienv.maxDataTs segMd
  := by
  have hts : dataTs segMd seg = ts := by rw [dataTs, hmd]
  rw [← hts]
  exact (le_foldl_max (dataTs segMd) _ 0).2 seg (List.mem_range.mpr hseg)

/-- The directory that is restored is well formed and has the entries of the one that was
flushed. -/
theorem IndexEnv.Maps.directory_items
    (h : s.Inv env) (hin : s.core.Inside env.geo) (hgeo : env.geo.Addressable)
    (hmaps : ienv.Maps env s.core.curSnap tables)
    (hsame : List.Forall₂ ienv.SameTable tables tables') :
  (ienv.directory tables').Wf ∧ (ienv.directory tables').items = s.core.curSnap.items
  := by
  have hdir := h.core.dir
  apply hdir.wf.congr _ (hmaps.bits.trans hdir.bits.symm)
  · intro j hj
    exact hmaps.tables_eq h hin hgeo hsame hj
  · change tables'.length.log2 = _
    rw [← hsame.length_eq, hmaps.length, DirSnapshot.size, Nat.log2_two_pow]

/-- Grains are counted in a segment just if an entry of the directory points into it. -/
theorem IndexEnv.Maps.grainsIn_ne_zero
    {dev : Device} {seg : Nat} (h : s.Inv env) (hin : s.core.Inside env.geo)
    (hgeo : env.geo.Addressable) (hmaps : ienv.Maps env s.core.curSnap tables) :
  ienv.grainsIn dev (ienv.entries tables) seg ≠ 0
    ↔ ∃ x ∈ s.core.curSnap.items, env.geo.segOf x.2.pba = seg
  := by
  rw [IndexEnv.grainsIn_ne_zero, hmaps.geo]
  constructor
  · rintro ⟨e, he, hseg⟩
    obtain ⟨x, hx, rfl⟩ := (hmaps.mem_entries h hin hgeo).mp he
    exact ⟨x, hx, hseg⟩
  · rintro ⟨x, hx, hseg⟩
    exact ⟨x.2, (hmaps.mem_entries h hin hgeo).mpr ⟨x, hx, rfl⟩, hseg⟩

/-- An entry points into a segment of the device. -/
theorem State.Inv.entry_inside
    (h : s.Inv env) (hin : s.core.Inside env.geo) {x : Nat × EntryInfo}
    (hx : x ∈ s.core.curSnap.items) :
  env.geo.segOf x.2.pba < env.geo.numSegments
  := by
  apply hin
  intro hfree
  have hranged := (h.entry_seg hx).1
  rw [hfree] at hranged
  cases hranged

end

/-! ### What the store is opened with -/

section

variable {ienv : IndexEnv} {segMd : Nat → Option SegMd} {recs : Nat → Option Rec}
  {tables : List IndexTable} {valid : Nat → Nat}

theorem IndexEnv.reopening_segMd
    {seg : Nat} {md : SegMd} :
  (ienv.reopening segMd recs tables valid).segMd seg = some md
    ↔ seg < ienv.geo.numSegments ∧ segMd seg = some md
  := by
  exact Option.ite_none_right_eq_some

theorem IndexEnv.reopening_recs
    {p : Nat} {r : Rec} :
  (ienv.reopening segMd recs tables valid).recs p = some r
    ↔ ienv.geo.segOf p < ienv.geo.numSegments ∧ recs p = some r
      ∧ segMd (ienv.geo.segOf p) = some ⟨.kv, r.timestamp⟩
  := by
  refine Option.ite_none_right_eq_some.trans (and_congr_right fun _ => ?_)
  rw [Option.filter_eq_some_iff, decide_eq_true_eq]

/-- The arrays are set for the segments with metadata of records. -/
theorem IndexEnv.reopening_arrays
    {seg : Nat} (h : 0 < (ienv.reopening segMd recs tables valid).segTimestamps seg
      ∨ (ienv.reopening segMd recs tables valid).segMdOk seg = true) :
  seg < ienv.geo.numSegments ∧ dataTs segMd seg ≠ 0
  := by
  obtain hts | hok := h
  · change 0 < ite _ _ _ at hts
    split at hts
    · exact ⟨‹_›, hts.ne'⟩
    · cases hts
  · simpa [IndexEnv.reopening] using hok

/-- For a segment with metadata of records the arrays have its timestamp. -/
theorem IndexEnv.reopening_kv
    {seg ts : Nat} (hlt : seg < ienv.geo.numSegments) (hpos : 0 < ts)
    (hmd : segMd seg = some ⟨.kv, ts⟩) :
  (0 < ts ∧ ts ≤ (ienv.reopening segMd recs tables valid).segAllocNr)
    ∧ (ienv.reopening segMd recs tables valid).segTimestamps seg = ts
    ∧ (ienv.reopening segMd recs tables valid).segMdOk seg = true
    ∧ (ienv.reopening segMd recs tables valid).segLive seg = true
  := by
  have hts : dataTs segMd seg = ts := by rw [dataTs, hmd]
  refine ⟨⟨hpos, IndexEnv.le_maxDataTs hlt hmd⟩, (if_pos hlt).trans hts, ?_, ?_⟩
  · simp [IndexEnv.reopening, hlt, hts, hpos.ne']
  · simp [IndexEnv.reopening, hlt, hts, hpos.ne']

end

/-- A store is as `open` leaves one if its directory has the entries of a store that was closed, and
the segments that are used are those with entries and those of the index. -/
theorem IndexEnv.reopening_ok
    {env : StoreEnv} {ienv : IndexEnv} {s : State} {tables : List IndexTable} {valid : Nat → Nat}
    (h : s.Inv env) (hin : s.core.Inside env.geo) (hgeo : ienv.geo = env.geo)
    (hbits : ienv.geo.indexBits = env.bucketBits) (hwf : (ienv.directory tables).Wf)
    (hitems : (ienv.directory tables).items = s.core.curSnap.items)
    (hvalid : ∀ {seg}, valid seg ≠ 0 ↔ ∃ x ∈ s.core.curSnap.items, env.geo.segOf x.2.pba = seg)
    (hindex : ∀ t ∈ tables, t.seg < env.geo.numSegments) :
  (ienv.reopening s.core.segMd s.core.recs tables valid).Ok env
  := by
  have hdir := h.core.dir
  set o := ienv.reopening s.core.segMd s.core.recs tables valid
  have hmd : ∀ {seg md}, o.segMd seg = some md ↔ seg < env.geo.numSegments
      ∧ s.core.segMd seg = some md := hgeo ▸ IndexEnv.reopening_segMd
  have hrec : ∀ {p r}, o.recs p = some r ↔ env.geo.segOf p < env.geo.numSegments
      ∧ s.core.recs p = some r ∧ s.core.segMd (env.geo.segOf p) = some ⟨.kv, r.timestamp⟩ :=
    hgeo ▸ IndexEnv.reopening_recs
  -- a record of a used segment is of the segment's life, so it has a range
  have hrange : ∀ {p r}, o.recs p = some r → o.valid (env.geo.segOf p) ≠ 0 →
      ∃ rg, s.core.ranges p = some rg ∧ rg.len = r.grains := by
    intro p r hr hp
    obtain ⟨-, hr, hm⟩ := hrec.mp hr
    obtain ⟨x, hx, hseg⟩ := hvalid.mp hp
    obtain ⟨hranged, hok, hm'⟩ := h.entry_seg hx
    rw [hseg] at hranged hok hm'
    have hts : s.core.segTimestamps (env.geo.segOf p) = r.timestamp := by
      simpa using hm'.symm.trans hm
    exact h.core.life hr hranged hok hts
  refine {
    inside := fun hm => (hmd.mp hm).1
    distinct := ?_
    kv := ?_
    arrays := ?_
    records := ?_
    disjoint := ?_
    wf := hwf
    bits := hbits
    entries := ?_
    pbas := ?_
    keys := ?_
    used := ?_ }
  · intro a b ts ha hb
    exact (h.core.segs.md a ts (hmd.mp ha).2).owner.symm.trans
      (h.core.segs.md b ts (hmd.mp hb).2).owner
  · intro seg ts hm
    obtain ⟨hlt, hm⟩ := hmd.mp hm
    exact IndexEnv.reopening_kv (hgeo ▸ hlt) (h.core.segs.md seg ts hm).pos hm
  · intro seg hor
    obtain ⟨hlt, hne⟩ := IndexEnv.reopening_arrays hor
    exact ⟨_, hmd.mpr ⟨hgeo ▸ hlt, IndexEnv.dataTs_eq_some hne⟩⟩
  · intro p r hr
    obtain ⟨hlt, hr, hm⟩ := hrec.mp hr
    exact ⟨h.core.recs.shape hr, hmd.mpr ⟨hlt, hm⟩⟩
  · intro p q r r' hr hr' hp hq hlt
    obtain ⟨rg, hrg, hlen⟩ := hrange hr hp
    obtain ⟨rg', hrg', -⟩ := hrange hr' hq
    rw [← hlen]
    exact h.core.ranges.disjoint hrg hrg' hlt
  · intro x hx
    change x ∈ (ienv.directory tables).items at hx
    rw [hitems] at hx
    obtain ⟨r, hr⟩ := hdir.pointed hx
    refine ⟨hvalid.mpr ⟨x, hx, rfl⟩, r, hrec.mpr ⟨h.entry_inside hin hx, hr.current.record, ?_⟩,
      hr.item⟩
    rw [(h.entry_seg hx).2.2, hr.current.timestamp]
  · change ((ienv.directory tables).items.map (·.2.pba)).Nodup
    rw [hitems]
    exact hdir.pbas
  · intro x y r r' hx hy hr hr' hkey
    change x ∈ (ienv.directory tables).items at hx
    change y ∈ (ienv.directory tables).items at hy
    rw [hitems] at hx hy
    exact hdir.keys hx hy (hrec.mp hr).2.1 (hrec.mp hr').2.1 hkey
  · rintro seg (hp | hany)
    · obtain ⟨x, hx, rfl⟩ := hvalid.mp hp
      exact h.entry_inside hin hx
    · obtain ⟨t, ht, hseg⟩ := List.any_eq_true.mp hany
      exact beq_iff_eq.mp hseg ▸ hindex t ht

section

variable {env : StoreEnv} {ienv : IndexEnv} {s : State} {tables tables' : List IndexTable}
  {ts k : Nat} {dev : Device} {heap : Nat → Buffer} {valid : Nat → Nat}
  (h : s.Inv env) (hin : s.core.Inside env.geo) (hgeo : env.geo.Addressable)
  (hmaps : ienv.Maps env s.core.curSnap tables)
  (hflush : ienv.Flushable s.core.segMd ts tables dev) (hread : ienv.TombstonesReadable tables)
  (hres : (ienv.restoreIndex s.core.segMd (ienv.flushed ts tables dev k) heap).restored
    = some (tables', valid))

include hflush hread hres in
/-- What `restore_index` restores are the tables that were flushed, with the grains of their
entries. -/
theorem restoreIndex_tables :
    List.Forall₂ ienv.SameTable tables tables' ∧ (∀ t ∈ tables', t.seg < ienv.geo.numSegments)
      ∧ valid = ienv.grainsIn dev (ienv.entries tables) := by
  have hpass : ienv.AllPass ts tables (ienv.flushed ts tables dev k) := by
    by_contra hnot
    rw [hflush.restored_of_not_allPass hnot] at hres
    cases hres
  rw [hflush.restored_of_allPass hpass, hflush.countValid_flushed hread, Option.map_some] at hres
  obtain ⟨rfl, rfl⟩ := Prod.mk.inj (Option.some_inj.mp hres)
  refine ⟨hflush.sameTable hpass, ?_, rfl⟩
  intro t' ht'
  obtain ⟨t, ht, rfl⟩ := List.mem_map.mp ht'
  rw [IndexEnv.loadTable]
  exact (hflush.segs t ht).1

include h hin hgeo hmaps hflush hread hres

/-- **A store that is opened after a clean close is as `open` leaves one**, if every place of the
device has a grain number that an entry can hold. -/
theorem restoreIndex_opened :
    (ienv.reopening s.core.segMd s.core.recs tables' valid).Ok env := by
  obtain ⟨hsame, hsegs, rfl⟩ := restoreIndex_tables hflush hread hres
  obtain ⟨hwf, hitems⟩ := hmaps.directory_items h hin hgeo hsame
  apply IndexEnv.reopening_ok h hin hmaps.geo hmaps.bits hwf hitems
    (hmaps.grainsIn_ne_zero h hin hgeo)
  intro t ht
  rw [← hmaps.geo]
  exact hsegs t ht

/-- The directory of a store that is opened after a clean close has the entries there were. -/
theorem restoreIndex_items :
    (ienv.reopening s.core.segMd s.core.recs tables' valid).snap.items = s.core.curSnap.items :=
  (hmaps.directory_items h hin hgeo (restoreIndex_tables hflush hread hres).1).2

end

/-! ### Sessions -/

/-- The states of a store: a new one, one that recovers from what a crash leaves, one that restores
the index of another, and what steps make of them. -/
inductive Sessions (env : StoreEnv) : State → Prop where
  | create : Sessions env (.fresh env.bucketBits)
  | recover {renv : RecoveryEnv} {img : Image} {order : List Nat} {s : RecState} :
      renv.store = env → img.DistinctTimestamps renv.geo.numSegments →
      (∀ seg ts, img.segMd seg = some ⟨.kv, ts⟩ → 0 < ts) →
      order.Perm (List.range renv.geo.numSegments) → crashRecovery renv img order = .ok s →
      Sessions env (.reopened env.geo (s.reopening renv img))
  | restore {ienv : IndexEnv} {s : State} {tables tables' : List IndexTable} {ts k : Nat}
        {dev : Device} {heap : Nat → Buffer} {valid : Nat → Nat} :
      Sessions env s → ienv.Maps env s.core.curSnap tables →
      ienv.Flushable s.core.segMd ts tables dev → ienv.TombstonesReadable tables →
      (ienv.restoreIndex s.core.segMd (ienv.flushed ts tables dev k) heap).restored
        = some (tables', valid) →
      Sessions env (.reopened env.geo (ienv.reopening s.core.segMd s.core.recs tables' valid))
  | step {s s' : State} {a : Act} : Sessions env s → s.step env a = some s' → Sessions env s'

/-- The invariants hold over all sessions of a store on a device whose places entries can hold. -/
theorem Sessions.inv
    {env : StoreEnv} {s : State} (h : Sessions env s) (hgeo : env.geo.Addressable) :
  s.Inv env ∧ s.core.Inside env.geo
  := by
  induction h with
  | create => exact ⟨(State.fresh_opened env).inv, fun _ hne => absurd rfl hne⟩
  | recover henv hts hpos hord hs =>
      have hok := crashRecovery_opened hts hpos hord hs
      rw [henv] at hok
      exact ⟨hok.opened.inv, hok.segments_inside⟩
  | restore _ hmaps hflush hread hres ih =>
      have hok := restoreIndex_opened ih.1 ih.2 hgeo hmaps hflush hread hres
      exact ⟨hok.opened.inv, hok.segments_inside⟩
  | step _ hstep ih => exact ⟨(ih.1.step hstep).inv, ih.2.step ih.1 hstep⟩

end UDepot
