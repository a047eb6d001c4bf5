import UDepot.Index.Counts
import UDepot.Index.Footers

/-!
# The round trip of the index

What `restore_index` makes of a device on which a flush was cut short after some of its writes.
-/

namespace UDepot

open Memory

namespace IndexEnv

/-- A directory that is flushed: no index segment has a valid footer, the mappings have none, and
every entry points into a data segment. -/
structure Flushable (env : IndexEnv) (segMd : Nat → Option SegMd) (ts : Nat)
    (tables : List IndexTable) (dev : Device) : Prop extends Placed env segMd tables where
  ts_ne : ts ≠ 0
  ts_lt : ts < 2 ^ 64
  no_footer : ∀ seg < env.geo.numSegments, isIndexSeg segMd seg = true → env.ftrOk dev seg = false
  clear : ∀ t ∈ tables, ∀ d < kIndexFtrBytes, t.mem (env.geo.footerOffset + d) = 0
  entries : ∀ e ∈ env.entries tables, env.EntryPlaced segMd dev e

/-- A table in the same segment, with the same words in its slots. -/
def SameTable (env : IndexEnv) (t t' : IndexTable) : Prop :=
  t'.seg = t.seg ∧ ∀ i < env.geo.slotNr, t'.loadSlot i = t.loadSlot i

/-- The first `k` writes of a flush and a restore bring back the directory if the last footer was
written, and nothing otherwise.  No footer is left, and no slot changes. -/
structure RoundTrips (env : IndexEnv) (segMd : Nat → Option SegMd) (ts : Nat)
    (tables : List IndexTable) (dev : Device) (k : Nat) (heap : Nat → Buffer) : Prop where
  restored : env.LastFooterWritten ts tables k → ∃ tables' valid,
    (env.restoreIndex segMd (env.flushed ts tables dev k) heap).restored = some (tables', valid)
      ∧ List.Forall₂ env.SameTable tables tables'
      ∧ ∀ seg, valid seg = env.grainsIn dev (env.entries tables) seg
  nothing : ¬ env.LastFooterWritten ts tables k →
    (env.restoreIndex segMd (env.flushed ts tables dev k) heap).restored = none
  cleared : ∀ seg < env.geo.numSegments, isIndexSeg segMd seg = true →
    env.ftrOk (env.restoreIndex segMd (env.flushed ts tables dev k) heap).dev seg = false
  slots : ∀ seg, ∀ i < env.geo.usedBytes,
    (env.restoreIndex segMd (env.flushed ts tables dev k) heap).dev (env.geo.segOffset seg + i)
      = env.flushed ts tables dev k (env.geo.segOffset seg + i)

/-- A footer of zeros is not valid. -/
def ZeroFooterInvalid (env : IndexEnv) : Prop := env.ftrMdCsum ⟨0, 0, 0, 0, 0, 0, 0, 0, 0⟩ ≠ 0

/-- The header of every tombstone is in one grain. -/
def TombstonesReadable (env : IndexEnv) (tables : List IndexTable) : Prop :=
  kKvHeaderBytes ≤ env.geo.grainSize ∨ ∀ e ∈ env.entries tables, e.deleted = false

/-- A footer is written at once, and its first byte is not the only one in a grain with slots. -/
def FooterInOneWrite (env : IndexEnv) : Prop :=
  env.geo.grainSize ≤ kIndexIoChunk ∧ ¬ env.geo.grainSize ∣ kIndexMdBytes - 1

variable {env : IndexEnv} {segMd : Nat → Option SegMd} {ts k idx : Nat} {tables : List IndexTable}
  {t : IndexTable} {dev : Device} {heap : Nat → Buffer} {e : EntryInfo}

/-! ### Tables and words -/

/-- The slots of a table that is loaded are those on the device. -/
theorem loadSlot_loadTable
    (hacc : env.geo.acceptsTables = true)
    (hmem : ∀ i, kIndexMdBytes ≤ i → i < env.geo.usedBytes →
      dev (env.geo.segOffset t.seg + i) = t.mem i)
    {i : Nat} (hi : i < env.geo.slotNr) :
  (env.loadTable dev t.seg).loadSlot i = t.loadSlot i
  := by
  have hused := Geometry.usedBytes_le hacc
  have hgrain := env.geo.usedBytes_le_usedGrainBytes
  rw [IndexTable.loadSlot, IndexTable.loadSlot]
  apply readLe_congr
  intro j hle hlt
  have hj : j < env.geo.usedBytes := by
    rw [Geometry.usedBytes]
    omega
  simp only [loadTable]
  rw [write_of_outside (.inl (by omega)), load, if_pos (by omega), hmem j (by omega) hj]

theorem dataTs_of_isIndexSeg {seg : Nat} (hindex : isIndexSeg segMd seg = true) :
    dataTs segMd seg = 0 := by
  rw [isIndexSeg] at hindex
  rw [dataTs]
  split
  · rename_i heq
    rw [heq] at hindex
    cases hindex
  · rfl

/-- Tables with the same slots have the same words. -/
theorem words_congr
    {tables' : List IndexTable} (h : List.Forall₂ env.SameTable tables tables') :
  env.words tables' = env.words tables
  := by
  induction h with
  | nil => rfl
  | @cons t t' ts ts' hsame _ ih =>
      have hslots : (List.range env.geo.slotNr).map t'.loadSlot
          = (List.range env.geo.slotNr).map t.loadSlot := by
        apply List.map_congr_left
        intro i hi
        apply hsame.2 i (List.mem_range.mp hi)
      rw [words, words] at ih ⊢
      rw [List.flatMap_cons, List.flatMap_cons, ih, hslots]

theorem lastFooterWritten_all :
    env.LastFooterWritten ts tables (env.flushWrites ts tables).length := by
  intro t _ w hw
  rw [List.drop_length] at hw
  cases hw

namespace Flushable

variable (h : env.Flushable segMd ts tables dev)

include h

theorem headersOnDevice (k : Nat) :
    env.HeadersOnDevice segMd ts tables (env.flushed ts tables dev k) := by
  intro seg hlt hindex hok
  apply h.of_ftrOk h.ts_lt (h.no_footer seg hlt hindex) hok

/-- Once the last footer is written, all footers pass. -/
theorem allPass (hlast : env.LastFooterWritten ts tables k) :
    env.AllPass ts tables (env.flushed ts tables dev k) := by
  intro idx t ht
  apply footerPasses_of_readFtrAt (h.readFtrAt_flushed h.ts_lt hlast ht)

theorem no_footer_of_mem : ∀ t ∈ tables, env.ftrOk dev t.seg = false := by
  intro t ht
  obtain ⟨hlt, hindex⟩ := h.segs t ht
  apply h.no_footer t.seg hlt hindex

/-! ### Tombstones -/

/-- A flush leaves the headers of tombstones as they are. -/
theorem hdrAt_flushed (he : env.EntryPlaced segMd dev e) (hdel : e.deleted = true) (k : Nat) :
    hdrAt env.geo (env.flushed ts tables dev k) e.pba = hdrAt env.geo dev e.pba := by
  have hinside := he.inside
  have hbytes := env.geo.kvTotalBytes_le (hdrAt env.geo dev e.pba).keySize 0
  rw [kvTotalBytes] at hbytes
  rw [entryGrains, if_pos hdel] at hinside
  obtain ⟨p, -, hpba⟩ := env.geo.exists_place e.pba
  have hplace : e.pba * env.geo.grainSize
      = env.geo.segBase (env.geo.segOf e.pba) * env.geo.grainSize + p * env.geo.grainSize := by
    conv_lhs => rw [hpba, Nat.add_mul]
  have hnet := Nat.mul_le_mul_right env.geo.grainSize hinside
  rw [Nat.add_mul, Nat.add_mul] at hnet
  apply readHdr_congr
  intro c hle hlt
  apply h.writeAll_outside fun w hw => List.mem_of_mem_take hw
  intro t ht i hi heq
  have hseg : env.geo.segOf e.pba = t.seg := by
    apply Geometry.seg_eq_of_cell (i := c - env.geo.segOffset (env.geo.segOf e.pba)) _ hi
    · rw [← heq, Geometry.segOffset]
      omega
    · rw [Geometry.segOffset, Geometry.netBytes]
      omega
  apply he.data
  rw [hseg, dataTs_of_isIndexSeg (h.segs t ht).2]

theorem entryGrains_flushed (he : env.EntryPlaced segMd dev e) (k : Nat) :
    env.entryGrains (env.flushed ts tables dev k) e = env.entryGrains dev e := by
  rw [entryGrains, entryGrains]
  cases hdel : e.deleted with
  | true => rw [h.hdrAt_flushed he hdel]
  | false => rfl

/-- The entries point into data segments after a flush as well. -/
theorem entryPlaced_flushed (he : env.EntryPlaced segMd dev e) (k : Nat) :
    env.EntryPlaced segMd (env.flushed ts tables dev k) e := by
  constructor
  · apply he.seg_lt
  · apply he.data
  · rw [h.entryGrains_flushed he]
    apply he.inside
  · intro hdel
    rw [h.hdrAt_flushed he hdel]
    apply he.tombstone hdel

/-! ### What is restored -/

/-- The tables that are loaded are those that were flushed. -/
theorem sameTable
    (hpass : env.AllPass ts tables (env.flushed ts tables dev k)) :
  List.Forall₂ env.SameTable tables
    (tables.map fun t => env.loadTable (env.flushed ts tables dev k) t.seg)
  := by
  apply List.forall₂_map_right_iff.mpr
  apply List.forall₂_same.mpr
  intro t ht
  obtain ⟨idx, hget⟩ := List.mem_iff_getElem?.mp ht
  obtain ⟨hlt, hindex⟩ := h.segs t ht
  rw [SameTable]
  refine ⟨by rw [loadTable], ?_⟩
  intro i hi
  apply loadSlot_loadTable h.accepts _ hi
  intro j hmd hj
  apply h.slots_flushed hget (h.no_footer t.seg hlt hindex) (hpass idx t hget).1 hmd hj

theorem restored_of_allPass
    (hpass : env.AllPass ts tables (env.flushed ts tables dev k)) (heap : Nat → Buffer) :
  (env.restoreIndex segMd (env.flushed ts tables dev k) heap).restored
    = (env.countValid segMd (env.flushed ts tables dev k) heap tables).map fun valid =>
      (tables.map fun t => env.loadTable (env.flushed ts tables dev k) t.seg, valid)
  := by
  have hcomplete := (h.complete_iff (h.headersOnDevice k) h.ts_ne).mpr hpass
  have htables := h.restored_tables (h.headersOnDevice k) h.ts_ne hpass
  have hwords := words_congr (h.sameTable hpass)
  simp only [restoreIndex, h.accepts, Bool.not_true, Bool.false_eq_true, if_false, hcomplete,
    if_true, htables]
  rw [countValid, hwords, ← countValid]

theorem restored_of_not_allPass
    (hpass : ¬ env.AllPass ts tables (env.flushed ts tables dev k)) (heap : Nat → Buffer) :
  (env.restoreIndex segMd (env.flushed ts tables dev k) heap).restored = none
  := by
  have hcomplete := mt (h.complete_iff (h.headersOnDevice k) h.ts_ne).mp hpass
  simp only [restoreIndex, h.accepts, Bool.not_true, Bool.false_eq_true, if_false, hcomplete]

/-- The grains of all entries are counted if the headers of the tombstones are in one grain. -/
theorem countValid_flushed
    (hread : env.TombstonesReadable tables) (k : Nat) (heap : Nat → Buffer) :
  env.countValid segMd (env.flushed ts tables dev k) heap tables
    = some (env.grainsIn dev (env.entries tables))
  := by
  rw [countValid_eq fun e he => h.entryPlaced_flushed (h.entries e he) k]
  · congr 1
    funext seg
    apply grainsIn_congr
    intro e he
    apply h.entryGrains_flushed (h.entries e he)
  · intro e he hdel
    rcases hread with hgrain | hnone
    · apply (h.entryPlaced_flushed (h.entries e he) k).tombstoneGrains_eq hdel hgrain
    · rw [hnone e he] at hdel
      cases hdel

/-! ### What is left on the device -/

theorem restoreIndex_dev (d : Device) (heap : Nat → Buffer) :
    (env.restoreIndex segMd d heap).dev = (env.findFooters segMd d).foldl env.clearFooter d := by
  simp [restoreIndex, h.accepts]

/-- A valid footer is made one of zeros. -/
theorem ftrOk_restored
    {d : Device} {seg : Nat} (hlt : seg < env.geo.numSegments)
    (hindex : isIndexSeg segMd seg = true) (hok : env.ftrOk d seg = true) (heap : Nat → Buffer) :
  env.ftrOk (env.restoreIndex segMd d heap).dev seg = false ↔ env.ZeroFooterInvalid
  := by
  have hfound : (⟨seg, env.foundHdr d seg⟩ : Found) ∈ env.findFooters segMd d :=
    mem_findFooters.mpr ⟨hlt, hindex, hok, rfl⟩
  rw [h.restoreIndex_dev, ftrOk, h.readFtrAt_cleared hfound, beq_eq_false_iff_ne,
    ZeroFooterInvalid]
  exact ne_comm

/-- No other footer becomes valid. -/
theorem ftrOk_restored_of_not
    {d : Device} {seg : Nat} (hok : env.ftrOk d seg = false) (heap : Nat → Buffer) :
  env.ftrOk (env.restoreIndex segMd d heap).dev seg = false
  := by
  rw [h.restoreIndex_dev, ftrOk, h.readFtrAt_of_not_found, ← ftrOk, hok]
  rintro f hf rfl
  rw [(mem_findFooters.mp hf).2.2.1] at hok
  cases hok

/-! ### The conditions -/

theorem exists_table : ∃ t, tables[0]? = some t := by
  obtain ⟨b, -, hlen⟩ := h.size
  have hpos : 0 < tables.length := by
    rw [hlen]
    apply Nat.two_pow_pos
  exact ⟨tables[0], List.getElem?_eq_getElem hpos⟩

/-- A complete flush leaves no valid footer only if one of zeros is not valid. -/
theorem zeroFooterInvalid_of_roundTrips
    (hall : ∀ k heap, env.RoundTrips segMd ts tables dev k heap) :
  env.ZeroFooterInvalid
  := by
  obtain ⟨t, ht⟩ := h.exists_table
  obtain ⟨hlt, hindex⟩ := h.segs t (List.mem_of_getElem? ht)
  have hok := (h.allPass lastFooterWritten_all 0 t ht).1
  apply (h.ftrOk_restored hlt hindex hok fun _ _ => 0).mp
  apply (hall _ _).cleared t.seg hlt hindex

/-- A complete flush is not restored if a tombstone is refused. -/
theorem tombstoneGrains_of_roundTrips
    (hlast : env.LastFooterWritten ts tables k)
    (hround : env.RoundTrips segMd ts tables dev k heap)
    (he : e ∈ env.entries tables) (hdel : e.deleted = true) :
  env.tombstoneGrains (env.flushed ts tables dev k) (heap e.pba) e.pba
    (dataTs segMd (env.geo.segOf e.pba)) ≠ none
  := by
  obtain ⟨tables', valid, hrestored, -⟩ := hround.restored hlast
  rw [h.restored_of_allPass (h.allPass hlast)] at hrestored
  obtain ⟨valid', hcount, -⟩ := Option.map_eq_some_iff.mp hrestored
  obtain ⟨grains, hgrains⟩ := tombstoneGrains_of_countValid
    (fun e he => h.entryPlaced_flushed (h.entries e he) k) hcount he hdel
  rw [hgrains]
  apply Option.some_ne_none

/-- Tombstones are read whatever is behind the buffer only if their headers are in one grain. -/
theorem tombstonesReadable_of_roundTrips
    (hall : ∀ k heap, env.RoundTrips segMd ts tables dev k heap) :
  env.TombstonesReadable tables
  := by
  rw [TombstonesReadable]
  by_contra hnot
  simp only [not_or, Nat.not_le, not_forall, Bool.not_eq_false] at hnot
  obtain ⟨hgrain, e, he, hdel⟩ := hnot
  obtain ⟨behind, hbehind⟩ := exists_tombstoneGrains_none hgrain
    (env.flushed ts tables dev (env.flushWrites ts tables).length) e.pba
    (dataTs segMd (env.geo.segOf e.pba))
  apply h.tombstoneGrains_of_roundTrips lastFooterWritten_all (hall _ fun _ => behind) he hdel
  apply hbehind

/-- Nothing is restored early only if the footers do not all pass early. -/
theorem footersFresh_of_roundTrips
    (hall : ∀ k heap, env.RoundTrips segMd ts tables dev k heap) :
  env.FootersFresh ts tables dev
  := by
  intro k hpass
  by_contra hlast
  have hnothing := (hall k fun _ _ => 0).nothing hlast
  rw [h.restored_of_allPass hpass,
    h.countValid_flushed (h.tombstonesReadable_of_roundTrips hall)] at hnothing
  cases hnothing

/-- The conditions are enough. -/
theorem roundTrips
    (hzero : env.ZeroFooterInvalid) (hread : env.TombstonesReadable tables)
    (hfresh : env.FootersFresh ts tables dev) (k : Nat) (heap : Nat → Buffer) :
  env.RoundTrips segMd ts tables dev k heap
  := by
  constructor
  · intro hlast
    have hpass := h.allPass hlast
    refine ⟨_, _, ?_, h.sameTable hpass, fun _ => rfl⟩
    rw [h.restored_of_allPass hpass, h.countValid_flushed hread, Option.map_some]
  · intro hlast
    apply h.restored_of_not_allPass (mt (hfresh k) hlast)
  · intro seg hlt hindex
    cases hok : env.ftrOk (env.flushed ts tables dev k) seg with
    | true => exact (h.ftrOk_restored hlt hindex hok heap).mpr hzero
    | false => exact h.ftrOk_restored_of_not hok heap
  · intro seg i hi
    rw [h.restoreIndex_dev, clearAll_of_lt h.accepts]
    apply hi.trans_le (Geometry.usedBytes_le h.accepts)

end Flushable

end IndexEnv

/-- **The index round-trips, all or nothing**, just if a footer of zeros is not valid, the header
of every tombstone is in one grain, and a footer is in one write.  Where it is not, no mixture of a
part of the new footer, of zeros, and of what the device has may be valid. -/
theorem index_roundTrips_iff
    {env : IndexEnv} {segMd : Nat → Option SegMd} {ts : Nat} {tables : List IndexTable}
    {dev : Device} (h : env.Flushable segMd ts tables dev) :
  (∀ k heap, env.RoundTrips segMd ts tables dev k heap) ↔
    env.ZeroFooterInvalid ∧ env.TombstonesReadable tables
      ∧ (env.FooterInOneWrite ∨ env.SplitFootersInvalid ts tables dev)
  := by
  constructor
  · intro hall
    refine ⟨h.zeroFooterInvalid_of_roundTrips hall, h.tombstonesReadable_of_roundTrips hall,
      .inr ?_⟩
    apply h.splitFootersInvalid_of_fresh h.ts_lt h.clear (h.footersFresh_of_roundTrips hall)
  · rintro ⟨hzero, hread, hfooters⟩ k heap
    have hsplit : env.SplitFootersInvalid ts tables dev := by
      rcases hfooters with ⟨hle, hdvd⟩ | hsplit
      · apply h.splitFootersInvalid_of_grains h.no_footer_of_mem hle hdvd
      · exact hsplit
    apply h.roundTrips hzero hread
      (h.fresh_of_splitFootersInvalid h.no_footer_of_mem h.clear hsplit)

/-! ### Small directories -/

/-- Two index segments and a data segment. -/
def threeSegments : Nat → Option SegMd
  | 0 => some ⟨.index, 1⟩
  | 1 => some ⟨.index, 2⟩
  | 2 => some ⟨.kv, 7⟩
  | _ => none

/-- Segments of three grains of 1024 bytes: the last slots share the footer's grain. -/
def sharedEnv : IndexEnv where
  geo := ⟨1024, 3, 1, 3, by decide, by decide⟩
  hdrCsum h := .ofNat (h.dirSize + 3 * h.idx + 5 * h.ts + 7 * h.slotNr + 11)
  ftrCsum f := .ofNat (f.dirSize + 5 * f.idx + 7 * f.ts + 11 * f.slotNr + 13)

/-- The mapping of a table with one entry. -/
def oneEntryMem (slot word : Nat) : Buffer :=
  write (fun i => if i < 1280 then 255 else 0) (kIndexMdBytes + slot * 8) (leBytes 8 word)

/-- A table with a record at grain 6 in the second segment, and one with a tombstone at grain 7 in
the first. -/
def recordTables : List IndexTable :=
  [⟨1, oneEntryMem 5 (HashEntry.make 2 9 1 6)⟩, ⟨0, oneEntryMem 90 (HashEntry.make 0 3 0 7)⟩]

/-- A device that was written before, with the header of a tombstone at grain 7. -/
def recordDevice : Device :=
  write (fun i => .ofNat i) (7 * 1024) (KvHeader.encode ⟨1, kTombstoneValSize, 7⟩)

theorem recordTables_entries : sharedEnv.entries recordTables = [⟨9, 1, 6⟩, ⟨3, 0, 7⟩] := by
  decide +kernel

theorem recordTables_flushable : sharedEnv.Flushable threeSegments 9 recordTables recordDevice where
  accepts := by decide
  small := by decide
  size := ⟨1, by decide, rfl⟩
  nodup := by decide
  segs := by decide
  ts_ne := by decide
  ts_lt := by decide
  no_footer := by decide +kernel
  clear := by decide +kernel
  entries := by
    rw [recordTables_entries]
    intro e he
    rcases List.mem_pair.mp he with rfl | rfl
    · exact ⟨by decide, by decide, by decide, fun h => by cases h⟩
    · exact ⟨by decide, by decide, by decide +kernel, fun _ => by decide +kernel⟩

theorem recordTables_round_trip :
    sharedEnv.Flushable threeSegments 9 recordTables recordDevice
      ∧ sharedEnv.geo.footerOffset < sharedEnv.geo.usedGrainBytes
      ∧ ∀ k heap, sharedEnv.RoundTrips threeSegments 9 recordTables recordDevice k heap := by
  refine ⟨recordTables_flushable, by decide, (index_roundTrips_iff recordTables_flushable).mpr ?_⟩
  refine ⟨?_, .inl (by decide), .inl ⟨by decide, by decide⟩⟩
  rw [IndexEnv.ZeroFooterInvalid]
  decide

/-- An index segment and a data segment. -/
def twoSegments : Nat → Option SegMd
  | 0 => some ⟨.index, 1⟩
  | 1 => some ⟨.kv, 7⟩
  | _ => none

/-- Segments of 256 grains of 8 bytes. -/
def byteEnv : IndexEnv := ⟨⟨8, 256, 64, 2, by decide, by decide⟩, fun _ => 1, fun _ => 1⟩

/-- A table with one entry, which is deleted and has its tombstone at grain 256. -/
def tombstoneTable : IndexTable :=
  ⟨0, write (fun i => if i < 1024 then 255 else 0) kIndexMdBytes (leBytes 8 (256 * 2 ^ 24))⟩

/-- A device with the header of a tombstone at byte 2048. -/
def tombstoneDevice : Device :=
  write (fun _ => 0) 2048 (KvHeader.encode ⟨1, kTombstoneValSize, 7⟩)

theorem tombstoneTable_entries : byteEnv.entries [tombstoneTable] = [⟨0, 0, 256⟩] := by
  decide +kernel

theorem tombstoneTable_flushable :
    byteEnv.Flushable twoSegments 9 [tombstoneTable] tombstoneDevice where
  accepts := by decide
  small := by decide
  size := ⟨0, by decide, rfl⟩
  nodup := by decide
  segs := by decide
  ts_ne := by decide
  ts_lt := by decide
  no_footer := by decide +kernel
  clear := by decide +kernel
  entries := by
    rw [tombstoneTable_entries]
    intro e he
    rw [List.mem_singleton.mp he]
    exact ⟨by decide, by decide, by decide +kernel, fun _ => by decide +kernel⟩

/-- With grains of 8 bytes a complete flush is not restored: the tombstone's timestamp is read
from behind the buffer. -/
theorem short_grain_not_restored :
    byteEnv.Flushable twoSegments 9 [tombstoneTable] tombstoneDevice
      ∧ ¬ byteEnv.RoundTrips twoSegments 9 [tombstoneTable] tombstoneDevice
        (byteEnv.flushWrites 9 [tombstoneTable]).length fun _ _ => 255 := by
  refine ⟨tombstoneTable_flushable, ?_⟩
  intro hround
  have hmem : ⟨0, 0, 256⟩ ∈ byteEnv.entries [tombstoneTable] := by
    rw [tombstoneTable_entries]
    apply List.mem_cons_self
  apply tombstoneTable_flushable.tombstoneGrains_of_roundTrips IndexEnv.lastFooterWritten_all
    hround hmem rfl
  have htime : ∀ (d : Device) (pos : Nat),
      (readHdr (load d pos 8 fun _ => 255) 0).timestamp ≠ 7 := by
    intro d pos
    simp only [readHdr, readLe, load]
    simp
    omega
  rw [IndexEnv.tombstoneGrains, if_pos]
  right
  right
  apply htime

end UDepot
