import UDepot.Index.Layout

/-!
# What a flush leaves on the device

A flush may be cut short after any of its writes.  A table's header is on the device before
anything else of it, so a footer that became valid goes with the new header.  Once nothing is to be
written of the last footer, every header, slot and footer is on the device.
-/

namespace UDepot

open Memory

/-! ### Headers and footers in bytes -/

/-- The fields of a header are in range. -/
structure IndexHdr.Fits (h : IndexHdr) : Prop where
  dirSize : h.dirSize < 2 ^ 16
  idx : h.idx < 2 ^ 16
  csum : h.csum < 2 ^ 32
  ts : h.ts < 2 ^ 64
  indexBits : h.indexBits < 2 ^ 32
  format : h.format < 2 ^ 32
  slotNr : h.slotNr < 2 ^ 64

/-- The fields of a footer are in range. -/
structure IndexFtr.Fits (f : IndexFtr) : Prop where
  dirSize : f.dirSize < 2 ^ 16
  idx : f.idx < 2 ^ 16
  csum : f.csum < 2 ^ 32
  ts : f.ts < 2 ^ 64
  usedBytesKv : f.usedBytesKv < 2 ^ 64
  totBytesKv : f.totBytesKv < 2 ^ 64
  indexBits : f.indexBits < 2 ^ 32
  format : f.format < 2 ^ 32
  slotNr : f.slotNr < 2 ^ 64

theorem length_indexHdr_encode (h : IndexHdr) : h.encode.length = kIndexHdrBytes := by
  simp only [IndexHdr.encode, List.length_append, length_leBytes]
  rfl

theorem length_indexFtr_encode (f : IndexFtr) : f.encode.length = kIndexFtrBytes := by
  simp only [IndexFtr.encode, List.length_append, length_leBytes]
  rfl

section Decode

variable {m m' : Device} {off : Nat}

theorem readIndexHdr_of_holds {h : IndexHdr} (hh : Holds m off h.encode) (hfits : h.Fits) :
    readIndexHdr m off = h := by
  simp only [IndexHdr.encode, holds_append, length_leBytes, Nat.add_assoc, Nat.reduceAdd] at hh
  obtain ⟨h₁, h₂, h₃, h₄, h₅, h₆, h₇⟩ := hh
  rw [readIndexHdr, readLe_of_holds h₁ (lt_of_lt_of_eq hfits.dirSize (by decide)),
    readLe_of_holds h₂ (lt_of_lt_of_eq hfits.idx (by decide)),
    readLe_of_holds h₃ (lt_of_lt_of_eq hfits.csum (by decide)),
    readLe_of_holds h₄ (lt_of_lt_of_eq hfits.ts (by decide)),
    readLe_of_holds h₅ (lt_of_lt_of_eq hfits.indexBits (by decide)),
    readLe_of_holds h₆ (lt_of_lt_of_eq hfits.format (by decide)),
    readLe_of_holds h₇ (lt_of_lt_of_eq hfits.slotNr (by decide))]

theorem readIndexFtr_of_holds {f : IndexFtr} (hf : Holds m off f.encode) (hfits : f.Fits) :
    readIndexFtr m off = f := by
  simp only [IndexFtr.encode, holds_append, length_leBytes, Nat.add_assoc, Nat.reduceAdd] at hf
  obtain ⟨h₁, h₂, h₃, h₄, h₅, h₆, h₇, h₈, h₉⟩ := hf
  rw [readIndexFtr, readLe_of_holds h₁ (lt_of_lt_of_eq hfits.dirSize (by decide)),
    readLe_of_holds h₂ (lt_of_lt_of_eq hfits.idx (by decide)),
    readLe_of_holds h₃ (lt_of_lt_of_eq hfits.csum (by decide)),
    readLe_of_holds h₄ (lt_of_lt_of_eq hfits.ts (by decide)),
    readLe_of_holds h₅ (lt_of_lt_of_eq hfits.usedBytesKv (by decide)),
    readLe_of_holds h₆ (lt_of_lt_of_eq hfits.totBytesKv (by decide)),
    readLe_of_holds h₇ (lt_of_lt_of_eq hfits.indexBits (by decide)),
    readLe_of_holds h₈ (lt_of_lt_of_eq hfits.format (by decide)),
    readLe_of_holds h₉ (lt_of_lt_of_eq hfits.slotNr (by decide))]

theorem readIndexFtr_congr (h : ∀ d < kIndexFtrBytes, m (off + d) = m' (off + d)) :
    readIndexFtr m off = readIndexFtr m' off := by
  have hread : ∀ a n, a + n ≤ 48 → readLe m (off + a) n = readLe m' (off + a) n := by
    intro a n hn
    apply readLe_congr
    intro i hle hlt
    have hi := h (i - off) (by rw [kIndexFtrBytes]; omega)
    rwa [Nat.add_sub_cancel' (by omega)] at hi
  have hread₀ : readLe m off 2 = readLe m' off 2 := hread 0 2 (by decide)
  rw [readIndexFtr, readIndexFtr, hread₀, hread 2 2 (by decide), hread 4 4 (by decide),
    hread 8 8 (by decide), hread 16 8 (by decide), hread 24 8 (by decide), hread 32 4 (by decide),
    hread 36 4 (by decide), hread 40 8 (by decide)]

end Decode

/-! ### The writes of a flush -/

/-- A directory whose tables are in index segments of their own, of a size that `create_directory`
accepts. -/
structure Placed (env : IndexEnv) (segMd : Nat → Option SegMd) (tables : List IndexTable) :
    Prop where
  accepts : env.geo.acceptsTables = true
  small : env.geo.netBytes < 2 ^ 64
  size : ∃ b ≤ kMaxTableBits, tables.length = 2 ^ b
  nodup : (tables.map IndexTable.seg).Nodup
  segs : ∀ t ∈ tables, t.seg < env.geo.numSegments ∧ IndexEnv.isIndexSeg segMd t.seg = true

namespace IndexEnv

variable {env : IndexEnv} {segMd : Nat → Option SegMd} {ts dirSize idx seg lo hi c i : Nat}
  {mem : Buffer} {t : IndexTable} {tables : List IndexTable} {w : Nat × Bytes} {dev : Device}

/-- A write covers a part of the mapping with what the mapping has there. -/
theorem covers_writeBack (hw : w ∈ env.writeBack seg mem lo hi) (hc : Covers w c) :
    ∃ i, lo ≤ i ∧ i < hi ∧ c = env.geo.segOffset seg + i ∧ w.2[c - w.1]? = some (mem i) := by
  obtain ⟨j, -, rfl⟩ := List.mem_map.mp hw
  obtain ⟨hle, hlt⟩ := hc
  simp only [readBytes_length] at hle hlt ⊢
  refine ⟨c - env.geo.segOffset seg, by omega, by omega, by omega, ?_⟩
  rw [getElem?_readBytes (by omega)]
  congr 2
  omega

/-- The writes cover all of the part. -/
theorem exists_covers_writeBack (seg : Nat) (mem : Buffer) (hlo : lo ≤ i) (hhi : i < hi) :
    ∃ w ∈ env.writeBack seg mem lo hi, Covers w (env.geo.segOffset seg + i) := by
  have hpos : 0 < kIndexIoChunk := by decide
  have hle := Nat.div_mul_le_self (i - lo) kIndexIoChunk
  have hlt := Nat.lt_div_mul_add (a := i - lo) hpos
  have hj : (i - lo) / kIndexIoChunk < (hi - lo + kIndexIoChunk - 1) / kIndexIoChunk := by
    apply (Nat.le_div_iff_mul_le hpos).mpr
    rw [Nat.succ_mul]
    omega
  refine ⟨_, List.mem_map.mpr ⟨(i - lo) / kIndexIoChunk, List.mem_range.mpr hj, rfl⟩, ?_⟩
  simp only [Covers, readBytes_length]
  omega

/-- What the first writes cover. -/
theorem exists_covers_take_iff
    {j p : Nat} :
  (∃ w ∈ (env.writeBack seg mem lo hi).take j, Covers w (env.geo.segOffset seg + p))
    ↔ lo ≤ p ∧ p < hi ∧ p < lo + j * kIndexIoChunk
  := by
  have hpos : 0 < kIndexIoChunk := by decide
  rw [writeBack, ← List.map_take, List.take_range]
  generalize kIndexIoChunk = chunk at *
  constructor
  · rintro ⟨w, hw, hc⟩
    obtain ⟨j', hj', rfl⟩ := List.mem_map.mp hw
    rw [List.mem_range] at hj'
    simp only [Covers, readBytes_length] at hc
    have hle : (j' + 1) * chunk ≤ j * chunk := Nat.mul_le_mul_right _ (by omega)
    rw [Nat.add_mul] at hle
    omega
  · rintro ⟨hlo, hhi, hlt⟩
    have hle := Nat.div_mul_le_self (p - lo) chunk
    have hlt' := Nat.lt_div_mul_add (a := p - lo) hpos
    have hj : (p - lo) / chunk < j := (Nat.div_lt_iff_lt_mul hpos).mpr (by omega)
    have hn : (p - lo) / chunk < (hi - lo + chunk - 1) / chunk := by
      apply (Nat.le_div_iff_mul_le hpos).mpr
      rw [Nat.succ_mul]
      omega
    refine ⟨_, List.mem_map.mpr ⟨(p - lo) / chunk, List.mem_range.mpr (by omega), rfl⟩, ?_⟩
    simp only [Covers, readBytes_length]
    omega

/-- The writes go from the front to the end. -/
theorem exists_covers_take
    {k p : Nat} (hw : w ∈ (env.writeBack seg mem 0 hi).take k)
    (hc : Covers w (env.geo.segOffset seg + p)) (hi' : i < hi)
    (hip : i / kIndexIoChunk ≤ p / kIndexIoChunk) :
  ∃ w ∈ (env.writeBack seg mem 0 hi).take k, Covers w (env.geo.segOffset seg + i)
  := by
  have hpos : 0 < kIndexIoChunk := by decide
  obtain ⟨-, -, hlt⟩ := exists_covers_take_iff.mp ⟨w, hw, hc⟩
  rw [Nat.zero_add] at hlt
  apply exists_covers_take_iff.mpr ⟨Nat.zero_le i, hi', ?_⟩
  rw [Nat.zero_add]
  apply (Nat.div_lt_iff_lt_mul hpos).mp
  exact hip.trans_lt ((Nat.div_lt_iff_lt_mul hpos).mpr hlt)

/-- What the other writes cover is behind. -/
theorem le_of_covers_drop
    {j p : Nat} (hw : w ∈ (env.writeBack seg mem lo hi).drop j)
    (hc : Covers w (env.geo.segOffset seg + p)) :
  lo + j * kIndexIoChunk ≤ p
  := by
  obtain ⟨i, hi, rfl⟩ := List.mem_iff_getElem.mp hw
  rw [List.getElem_drop] at hc
  simp only [writeBack, List.getElem_map, List.getElem_range, Covers] at hc
  have hle : j * kIndexIoChunk ≤ (j + i) * kIndexIoChunk := Nat.mul_le_mul_right _ (by omega)
  omega

/-! ### Mappings -/

theorem hdrMem_holds : Holds (env.hdrMem ts dirSize idx t) 0 (env.newHdr ts dirSize idx).encode :=
  holds_write _ _ _

/-- The header is in front of the slots. -/
theorem hdrMem_of_le (h : kIndexMdBytes ≤ i) : env.hdrMem ts dirSize idx t i = t.mem i := by
  have hlen := length_indexHdr_encode (env.newHdr ts dirSize idx)
  rw [kIndexHdrBytes] at hlen
  rw [kIndexMdBytes] at h
  rw [hdrMem, write_of_outside (by omega), write_of_outside]
  right
  rw [List.length_replicate, kIndexMdBytes]
  omega

theorem ftrMem_holds :
    Holds (env.ftrMem ts dirSize idx t) env.geo.footerOffset (env.newFtr ts dirSize idx).encode :=
  holds_write _ _ _

theorem ftrMem_of_lt (h : i < env.geo.footerOffset) :
    env.ftrMem ts dirSize idx t i = env.hdrMem ts dirSize idx t i := by
  rw [ftrMem, write_of_outside (.inl h), write_of_outside (.inl h)]

/-! ### Which table a write is of -/

/-- A write of a flush is of one of the tables. -/
theorem mem_flushWrites (hw : w ∈ env.flushWrites ts tables) :
    ∃ idx t, tables[idx]? = some t ∧ (w ∈ env.tableWrites ts tables.length idx t
      ∨ w ∈ env.footerWrites ts tables.length idx t) := by
  rcases List.mem_append.mp hw with hw | hw
  · obtain ⟨⟨t, idx⟩, hp, hw⟩ := List.mem_flatMap.mp hw
    exact ⟨idx, t, List.mem_zipIdx_iff_getElem?.mp hp, .inl hw⟩
  · obtain ⟨⟨t, idx⟩, hp, hw⟩ := List.mem_flatMap.mp hw
    exact ⟨idx, t, List.mem_zipIdx_iff_getElem?.mp hp, .inr hw⟩

theorem covers_tableWrites
    (hw : w ∈ env.tableWrites ts dirSize idx t) (hc : Covers w c) :
  ∃ i < env.geo.usedGrainBytes, c = env.geo.segOffset t.seg + i
    ∧ w.2[c - w.1]? = some (env.hdrMem ts dirSize idx t i)
  := by
  obtain ⟨i, -, hi, hci, hx⟩ := covers_writeBack hw hc
  exact ⟨i, hi, hci, hx⟩

theorem covers_footerWrites
    (hw : w ∈ env.footerWrites ts dirSize idx t) (hc : Covers w c) :
  ∃ i < env.geo.netBytes, c = env.geo.segOffset t.seg + i
    ∧ w.2[c - w.1]? = some (env.ftrMem ts dirSize idx t i)
  := by
  obtain ⟨i, -, hi, hci, hx⟩ := covers_writeBack hw hc
  exact ⟨i, hi, hci, hx⟩

/-- A write covers cells of the net segment of its table only. -/
theorem covers_flush
    (hacc : env.geo.acceptsTables = true) (hw : w ∈ env.flushWrites ts tables) (hc : Covers w c) :
  ∃ idx t i, tables[idx]? = some t ∧ i < env.geo.netBytes ∧ c = env.geo.segOffset t.seg + i
    ∧ (w ∈ env.tableWrites ts tables.length idx t ∨ w ∈ env.footerWrites ts tables.length idx t)
  := by
  have hused := Geometry.usedGrainBytes_le hacc
  obtain ⟨idx, t, ht, hw⟩ := mem_flushWrites hw
  rcases hw with hw | hw
  · obtain ⟨i, hi, hci, -⟩ := covers_tableWrites hw hc
    exact ⟨idx, t, i, ht, by omega, hci, .inl hw⟩
  · obtain ⟨i, hi, hci, -⟩ := covers_footerWrites hw hc
    exact ⟨idx, t, i, ht, hi, hci, .inr hw⟩

/-! ### A part of a flush -/

/-- The device after the first `k` writes of a flush. -/
def flushed (env : IndexEnv) (ts : Nat) (tables : List IndexTable) (dev : Device) (k : Nat) :
    Device :=
  writeAll dev ((env.flushWrites ts tables).take k)

/-- Nothing of the footer of the last table is left to write after `k` writes. -/
def LastFooterWritten (env : IndexEnv) (ts : Nat) (tables : List IndexTable) (k : Nat) : Prop :=
  ∀ t, tables.getLast? = some t → ∀ w ∈ (env.flushWrites ts tables).drop k,
    ∀ d < kIndexFtrBytes, ¬ Covers w (env.geo.segOffset t.seg + (env.geo.footerOffset + d))

end IndexEnv

namespace Placed

open IndexEnv

variable {env : IndexEnv} {segMd : Nat → Option SegMd} {tables : List IndexTable}
  {ts idx idx' i c k : Nat} {t t' : IndexTable} {w : Nat × Bytes} {dev : Device}

/-- Tables are told apart by their segments. -/
theorem eq_of_seg
    (h : Placed env segMd tables) (ht : tables[idx]? = some t) (ht' : tables[idx']? = some t')
    (hseg : t.seg = t'.seg) :
  idx = idx' ∧ t = t'
  := by
  have hidx : idx < (tables.map IndexTable.seg).length := by
    rw [List.length_map]
    exact (List.getElem?_eq_some_iff.mp ht).1
  have heq : idx = idx' := by
    apply (List.getElem?_inj hidx h.nodup).mp
    rw [List.getElem?_map, List.getElem?_map, ht, ht', Option.map_some, Option.map_some, hseg]
  subst heq
  rw [ht] at ht'
  exact ⟨rfl, Option.some.inj ht'⟩

/-- The cells of net segments are those of one table each. -/
theorem eq_of_cell
    (h : Placed env segMd tables) (ht : tables[idx]? = some t) (ht' : tables[idx']? = some t')
    {i' : Nat} (hi : i < env.geo.netBytes) (hi' : i' < env.geo.netBytes)
    (heq : env.geo.segOffset t.seg + i = env.geo.segOffset t'.seg + i') :
  idx = idx' ∧ t = t'
  := h.eq_of_seg ht ht' (Geometry.seg_eq_of_cell hi hi' heq)

/-- Which table's write covers a cell of a table's net segment. -/
theorem covers_own
    (h : Placed env segMd tables) (hw : w ∈ env.flushWrites ts tables)
    (ht : tables[idx]? = some t) (hi : i < env.geo.netBytes)
    (hc : Covers w (env.geo.segOffset t.seg + i)) :
  w ∈ env.tableWrites ts tables.length idx t ∨ w ∈ env.footerWrites ts tables.length idx t
  := by
  obtain ⟨idx', t', i', ht', hi', heq, hw'⟩ := covers_flush h.accepts hw hc
  obtain ⟨rfl, rfl⟩ := h.eq_of_cell ht ht' hi hi' heq
  apply hw'

/-- In front of the footer the flush writes header and slots alike. -/
theorem content_of_lt
    (h : Placed env segMd tables) (hw : w ∈ env.flushWrites ts tables)
    (ht : tables[idx]? = some t) (hi : i < env.geo.footerOffset)
    (hc : Covers w (env.geo.segOffset t.seg + i)) :
  w.2[env.geo.segOffset t.seg + i - w.1]? = some (env.hdrMem ts tables.length idx t i)
  := by
  have hadd := Geometry.footerOffset_add h.accepts
  rcases h.covers_own hw ht (by omega) hc with hown | hown
  · obtain ⟨i', -, heq, hx⟩ := covers_tableWrites hown hc
    obtain rfl := Nat.add_left_cancel heq
    apply hx
  · obtain ⟨i', -, heq, hx⟩ := covers_footerWrites hown hc
    obtain rfl := Nat.add_left_cancel heq
    rw [hx, ftrMem_of_lt hi]

/-- What some writes of a flush leave in front of the footer of a table. -/
theorem writeAll_of_lt
    (h : Placed env segMd tables) {ws : List (Nat × Bytes)}
    (hws : ∀ w ∈ ws, w ∈ env.flushWrites ts tables) (ht : tables[idx]? = some t)
    (hi : i < env.geo.footerOffset)
    (hcovered : ∃ w ∈ ws, Covers w (env.geo.segOffset t.seg + i)) :
  writeAll dev ws (env.geo.segOffset t.seg + i) = env.hdrMem ts tables.length idx t i
  := by
  apply writeAll_of_covers hcovered
  intro w hw hc
  apply h.content_of_lt (hws w hw) ht hi hc

/-- A cell outside of the tables' net segments is as it was. -/
theorem writeAll_outside
    (h : Placed env segMd tables) {ws : List (Nat × Bytes)}
    (hws : ∀ w ∈ ws, w ∈ env.flushWrites ts tables)
    (hout : ∀ t ∈ tables, ∀ i < env.geo.netBytes, c ≠ env.geo.segOffset t.seg + i) :
  writeAll dev ws c = dev c
  := by
  apply writeAll_of_not_covers
  intro w hw hc
  obtain ⟨idx, t, i, ht, hi, heq, -⟩ := covers_flush h.accepts (hws w hw) hc
  apply hout t (List.mem_of_getElem? ht) i hi heq

/-! ### A table is written from the front -/

/-- The first writes to the segment of a table are those of its header and its slots, after those
of the tables before it. -/
theorem flushWrites_split
    (h : Placed env segMd tables) (ts : Nat) (ht : tables[idx]? = some t) :
  ∃ before after, env.flushWrites ts tables
      = before ++ (env.tableWrites ts tables.length idx t ++ after)
    ∧ (∀ v ∈ before, ∀ i < env.geo.netBytes, ¬ Covers v (env.geo.segOffset t.seg + i))
    ∧ ∀ idx' < idx, ∀ t', tables[idx']? = some t' →
      ∀ w ∈ env.tableWrites ts tables.length idx' t', w ∈ before
  := by
  obtain ⟨hidx, hget⟩ := List.getElem?_eq_some_iff.mp ht
  have hsplit : tables = tables.take idx ++ t :: tables.drop (idx + 1) := by
    rw [← hget, List.cons_getElem_drop_succ, List.take_append_drop]
  have hlen : (tables.take idx).length = idx := by
    rw [List.length_take]
    omega
  have hzip : tables.zipIdx
      = (tables.take idx).zipIdx ++ (t, idx) :: (tables.drop (idx + 1)).zipIdx (idx + 1) := by
    conv_lhs => rw [hsplit, List.zipIdx_append, List.zipIdx_cons, hlen, Nat.zero_add]
  have hflush : env.flushWrites ts tables
      = ((tables.take idx).zipIdx.flatMap fun p => env.tableWrites ts tables.length p.2 p.1)
        ++ (env.tableWrites ts tables.length idx t
          ++ (((tables.drop (idx + 1)).zipIdx (idx + 1)).flatMap
              (fun p => env.tableWrites ts tables.length p.2 p.1)
            ++ tables.zipIdx.flatMap fun p => env.footerWrites ts tables.length p.2 p.1)) := by
    rw [flushWrites]
    conv_lhs => lhs; rw [hzip, List.flatMap_append, List.flatMap_cons]
    simp only [List.append_assoc]
  refine ⟨_, _, hflush, ?_, ?_⟩
  · intro v hv i hi hc
    obtain ⟨⟨t', idx'⟩, hp, hv'⟩ := List.mem_flatMap.mp hv
    have ht' := List.mem_zipIdx_iff_getElem?.mp hp
    rw [List.getElem?_take] at ht'
    split_ifs at ht' with hlt
    simp only at hv' ht' hlt
    have hused := Geometry.usedGrainBytes_le h.accepts
    obtain ⟨i', hi', heq, -⟩ := covers_tableWrites hv' hc
    have hsame := (h.eq_of_cell ht ht' hi (by omega) heq).1
    omega
  · intro idx' hidx' t' ht' w hw
    apply List.mem_flatMap.mpr
    refine ⟨(t', idx'), List.mem_zipIdx_iff_getElem?.mpr ?_, hw⟩
    rw [List.getElem?_take, if_pos hidx', ht']

/-- If a cell of a table's segment was written, so was what is in front of it or in its chunk. -/
theorem covered_from_front
    (h : Placed env segMd tables) (ht : tables[idx]? = some t) {p : Nat}
    (hp : p < env.geo.netBytes)
    (hcovered : ∃ w ∈ (env.flushWrites ts tables).take k, Covers w (env.geo.segOffset t.seg + p))
    (hi : i < env.geo.usedGrainBytes) (hip : i / kIndexIoChunk ≤ p / kIndexIoChunk) :
  ∃ w ∈ (env.flushWrites ts tables).take k, Covers w (env.geo.segOffset t.seg + i)
  := by
  obtain ⟨before, after, hflush, hbefore, -⟩ := h.flushWrites_split ts ht
  obtain ⟨w, hw, hc⟩ := hcovered
  rw [hflush, List.take_append, List.take_append] at hw ⊢
  rcases List.mem_append.mp hw with hw | hw
  · exact absurd hc (hbefore w (List.mem_of_mem_take hw) p hp)
  · rcases List.mem_append.mp hw with hw | hw
    · obtain ⟨v, hv, hvc⟩ := exists_covers_take hw hc hi hip
      exact ⟨v, List.mem_append_right _ (List.mem_append_left _ hv), hvc⟩
    · have hlong : (env.tableWrites ts tables.length idx t).length ≤ k - before.length := by
        by_contra hshort
        rw [Nat.sub_eq_zero_of_le (Nat.le_of_lt (Nat.lt_of_not_le hshort)), List.take_zero] at hw
        cases hw
      obtain ⟨v, hv, hvc⟩ := exists_covers_writeBack t.seg (env.hdrMem ts tables.length idx t)
        (Nat.zero_le i) hi
      refine ⟨v, List.mem_append_right _ (List.mem_append_left _ ?_), hvc⟩
      rw [List.take_of_length_le hlong]
      apply hv

/-! ### A flush that was cut short -/

theorem length_lt (h : Placed env segMd tables) : tables.length < 2 ^ 16 := by
  obtain ⟨b, hb, hlen⟩ := h.size
  rw [hlen]
  apply Nat.pow_lt_pow_right (by decide)
  rw [kMaxTableBits] at hb
  omega

theorem slotNr_lt (h : Placed env segMd tables) : env.geo.slotNr < 2 ^ 61 := by
  have hused := Geometry.usedBytes_le h.accepts
  have hadd := Geometry.footerOffset_add h.accepts
  have hsmall := h.small
  rw [Geometry.usedBytes] at hused
  omega

theorem indexBits_lt (h : Placed env segMd tables) : env.geo.indexBits < 2 ^ 32 := by
  have hslots := h.slotNr_lt
  rw [Geometry.slotNr] at hslots
  have hbits : env.geo.indexBits < 61 := by
    apply (Nat.pow_lt_pow_iff_right (by decide)).mp (Nat.lt_of_le_of_lt _ hslots)
    omega
  omega

theorem newHdr_fits (h : Placed env segMd tables) (hts : ts < 2 ^ 64) :
    (env.newHdr ts tables.length idx).Fits := by
  have hslots := h.slotNr_lt
  refine ⟨Nat.mod_lt _ (by decide), Nat.mod_lt _ (by decide), UInt32.toNat_lt _, hts,
    h.indexBits_lt, by simp [newHdr, kIndexFormat], ?_⟩
  simp only [newHdr]
  omega

theorem newFtr_fits (h : Placed env segMd tables) (hts : ts < 2 ^ 64) :
    (env.newFtr ts tables.length idx).Fits := by
  have hslots := h.slotNr_lt
  refine ⟨Nat.mod_lt _ (by decide), Nat.mod_lt _ (by decide), UInt32.toNat_lt _, hts,
    by simp [newFtr], by simp [newFtr], h.indexBits_lt, by simp [newFtr, kIndexFormat], ?_⟩
  simp only [newFtr]
  omega

theorem readFtrAt_eq (h : Placed env segMd tables) (dev : Device) (seg : Nat) :
    env.readFtrAt dev seg
      = readIndexFtr dev (env.geo.segOffset seg + env.geo.footerOffset) := by
  rw [readFtrAt, Nat.add_assoc, Geometry.footer_place h.accepts]

/-- The footer is in what is written for it. -/
theorem netBytes_sub_mdChunk_le (h : Placed env segMd tables) :
    env.geo.netBytes - env.geo.mdChunk ≤ env.geo.footerOffset := by
  have hplace := Geometry.footer_place h.accepts
  omega

/-- The footer is in the net segment. -/
theorem footer_lt (h : Placed env segMd tables) {d : Nat} (hd : d < kIndexFtrBytes) :
    env.geo.footerOffset + d < env.geo.netBytes := by
  have hadd := Geometry.footerOffset_add h.accepts
  rw [kIndexMdBytes] at hadd
  rw [kIndexFtrBytes] at hd
  omega

/-- A header that was written is on the device. -/
theorem readHdrAt_flushed
    (h : Placed env segMd tables) (hts : ts < 2 ^ 64) (ht : tables[idx]? = some t)
    (hi : i < env.geo.netBytes)
    (hcovered : ∃ w ∈ (env.flushWrites ts tables).take k, Covers w (env.geo.segOffset t.seg + i)) :
  env.readHdrAt (env.flushed ts tables dev k) t.seg = env.newHdr ts tables.length idx
  := by
  have hused := Geometry.usedBytes_le h.accepts
  have hgrain := env.geo.usedBytes_le_usedGrainBytes
  have hmd := env.geo.kIndexMdBytes_le_usedBytes
  rw [kIndexMdBytes] at hmd
  apply readIndexHdr_of_holds _ (h.newHdr_fits hts)
  apply hdrMem_holds.of_eq
  intro j hj
  rw [length_indexHdr_encode, kIndexHdrBytes] at hj
  rw [Nat.zero_add]
  apply h.writeAll_of_lt (fun v hv => List.mem_of_mem_take hv) ht (by omega)
  apply h.covered_from_front ht hi hcovered (by omega)
  rw [Nat.div_eq_of_lt (hj.trans (by decide))]
  apply Nat.zero_le

/-- A footer that is valid after a part of a flush, and was not before, was written to. -/
theorem footer_covered
    (h : Placed env segMd tables) {seg : Nat}
    (hnone : env.ftrOk dev seg = false) (hok : env.ftrOk (env.flushed ts tables dev k) seg = true) :
  ∃ d < kIndexFtrBytes, ∃ w ∈ (env.flushWrites ts tables).take k,
    Covers w (env.geo.segOffset seg + (env.geo.footerOffset + d))
  := by
  by_contra hcovered
  have hsame : env.readFtrAt (env.flushed ts tables dev k) seg = env.readFtrAt dev seg := by
    rw [h.readFtrAt_eq, h.readFtrAt_eq]
    apply readIndexFtr_congr
    intro d hd
    apply writeAll_of_not_covers
    intro w hw hc
    rw [Nat.add_assoc] at hc
    exact hcovered ⟨d, hd, w, hw, hc⟩
  rw [ftrOk, hsame, ← ftrOk, hnone] at hok
  cases hok

/-- A segment that has a valid footer after a part of a flush, and had none before, is one of a
table and has its header. -/
theorem of_ftrOk
    (h : Placed env segMd tables) (hts : ts < 2 ^ 64) {seg : Nat}
    (hnone : env.ftrOk dev seg = false) (hok : env.ftrOk (env.flushed ts tables dev k) seg = true) :
  ∃ idx t, tables[idx]? = some t ∧ t.seg = seg
    ∧ env.readHdrAt (env.flushed ts tables dev k) seg = env.newHdr ts tables.length idx
  := by
  obtain ⟨d, hd, w, hw, hc⟩ := h.footer_covered hnone hok
  have hlt := h.footer_lt hd
  obtain ⟨idx, t, i, ht, hi, heq, -⟩ := covers_flush h.accepts (List.mem_of_mem_take hw) hc
  obtain rfl := Geometry.seg_eq_of_cell hlt hi heq
  exact ⟨idx, t, ht, rfl, h.readHdrAt_flushed hts ht hlt ⟨w, hw, hc⟩⟩

/-- A table whose footer became valid has its slots on the device. -/
theorem slots_flushed
    (h : Placed env segMd tables) (ht : tables[idx]? = some t)
    (hnone : env.ftrOk dev t.seg = false)
    (hok : env.ftrOk (env.flushed ts tables dev k) t.seg = true)
    (hmd : kIndexMdBytes ≤ i) (hi : i < env.geo.usedBytes) :
  env.flushed ts tables dev k (env.geo.segOffset t.seg + i) = t.mem i
  := by
  obtain ⟨d, hd, hcovered⟩ := h.footer_covered hnone hok
  have hused := Geometry.usedBytes_le h.accepts
  have hgrain := env.geo.usedBytes_le_usedGrainBytes
  rw [flushed, h.writeAll_of_lt (fun v hv => List.mem_of_mem_take hv) ht (by omega),
    hdrMem_of_le hmd]
  apply h.covered_from_front ht (h.footer_lt hd) hcovered (by omega)
  apply Nat.div_le_div_right
  omega

/-- The writes of the footers bring the footers. -/
theorem content_of_footers
    (h : Placed env segMd tables)
    (hw : w ∈ tables.zipIdx.flatMap fun p => env.footerWrites ts tables.length p.2 p.1)
    (ht : tables[idx]? = some t) (hi : i < env.geo.netBytes)
    (hc : Covers w (env.geo.segOffset t.seg + i)) :
  w.2[env.geo.segOffset t.seg + i - w.1]? = some (env.ftrMem ts tables.length idx t i)
  := by
  obtain ⟨⟨t', idx'⟩, hp, hw⟩ := List.mem_flatMap.mp hw
  have ht' := List.mem_zipIdx_iff_getElem?.mp hp
  simp only at hw ht'
  obtain ⟨i', hi', heq, hx⟩ := covers_footerWrites hw hc
  obtain ⟨rfl, rfl⟩ := h.eq_of_cell ht ht' hi hi' heq
  obtain rfl := Nat.add_left_cancel heq
  apply hx

theorem exists_last (h : Placed env segMd tables) :
    ∃ front last, tables = front ++ [last] ∧ tables[front.length]? = some last := by
  rcases List.eq_nil_or_concat tables with hnil | ⟨front, last, htables⟩
  · obtain ⟨b, -, hlen⟩ := h.size
    rw [hnil] at hlen
    exact absurd hlen.symm (Nat.two_pow_pos b).ne'
  · rw [List.concat_eq_append] at htables
    refine ⟨front, last, htables, ?_⟩
    rw [htables, List.getElem?_append_right le_rfl, Nat.sub_self]
    rfl

/-- The footers of the last table are written last. -/
theorem flushWrites_eq
    (env : IndexEnv) (ts : Nat) {front : List IndexTable} {last : IndexTable}
    (htables : tables = front ++ [last]) :
  env.flushWrites ts tables
    = (tables.zipIdx.flatMap fun p => env.tableWrites ts tables.length p.2 p.1)
      ++ ((front.zipIdx.flatMap fun p => env.footerWrites ts tables.length p.2 p.1)
        ++ env.footerWrites ts tables.length front.length last)
  := by
  have hzip : tables.zipIdx = front.zipIdx ++ [(last, front.length)] := by
    rw [htables, List.zipIdx_append, List.zipIdx_singleton, Nat.zero_add]
  rw [flushWrites]
  conv_lhs => rhs; rw [hzip, List.flatMap_append, List.flatMap_singleton]

/-- Until the footer of the last table is begun, only its header and slots are written to its
segment. -/
theorem mem_tableWrites_of_early
    (h : Placed env segMd tables) {front : List IndexTable} {last : IndexTable}
    (htables : tables = front ++ [last]) (hget : tables[front.length]? = some last)
    (hw : w ∈ (tables.zipIdx.flatMap fun p => env.tableWrites ts tables.length p.2 p.1)
      ++ front.zipIdx.flatMap fun p => env.footerWrites ts tables.length p.2 p.1)
    (hi : i < env.geo.netBytes) (hc : Covers w (env.geo.segOffset last.seg + i)) :
  w ∈ env.tableWrites ts tables.length front.length last
  := by
  rcases List.mem_append.mp hw with hw | hw
  · obtain ⟨⟨t, idx⟩, hp, hw⟩ := List.mem_flatMap.mp hw
    have hused := Geometry.usedGrainBytes_le h.accepts
    obtain ⟨i', hi', heq, -⟩ := covers_tableWrites hw hc
    obtain ⟨rfl, rfl⟩ :=
      h.eq_of_cell (List.mem_zipIdx_iff_getElem?.mp hp) hget (by omega) hi heq.symm
    apply hw
  · obtain ⟨⟨t, idx⟩, hp, hw⟩ := List.mem_flatMap.mp hw
    have ht := List.mem_zipIdx_iff_getElem?.mp hp
    have hlt := (List.getElem?_eq_some_iff.mp ht).1
    have ht' : tables[idx]? = some t := by
      rw [htables, List.getElem?_append_left hlt]
      apply ht
    obtain ⟨i', hi', heq, -⟩ := covers_footerWrites hw hc
    obtain ⟨rfl, -⟩ := h.eq_of_cell ht' hget hi' hi heq.symm
    exact absurd hlt (Nat.lt_irrefl _)

/-- If nothing of the last footer is left to write, everything before it is written. -/
theorem take_of_lastFooterWritten
    (h : Placed env segMd tables) (hlast : env.LastFooterWritten ts tables k) :
  ∃ footers, (env.flushWrites ts tables).take k
      = (tables.zipIdx.flatMap fun p => env.tableWrites ts tables.length p.2 p.1) ++ footers
    ∧ (∀ w ∈ footers, w ∈ tables.zipIdx.flatMap fun p => env.footerWrites ts tables.length p.2 p.1)
    ∧ ∀ (idx : Nat) (t : IndexTable), tables[idx]? = some t → ∀ d < kIndexFtrBytes,
      ∃ w ∈ footers, Covers w (env.geo.segOffset t.seg + (env.geo.footerOffset + d))
  := by
  obtain ⟨front, last, htables, hget⟩ := h.exists_last
  have hflush := flushWrites_eq env ts htables
  set headers := tables.zipIdx.flatMap fun p => env.tableWrites ts tables.length p.2 p.1
  set others := front.zipIdx.flatMap fun p => env.footerWrites ts tables.length p.2 p.1
  set own := env.footerWrites ts tables.length front.length last
  have hnot : ∀ w ∈ (env.flushWrites ts tables).drop k, ∀ d < kIndexFtrBytes,
      ¬ Covers w (env.geo.segOffset last.seg + (env.geo.footerOffset + d)) := by
    apply hlast last
    rw [htables, List.getLast?_concat]
  have hmd := netBytes_sub_mdChunk_le h
  have hcover : ∀ idx (t : IndexTable) d, d < kIndexFtrBytes →
      ∃ w ∈ env.footerWrites ts tables.length idx t,
        Covers w (env.geo.segOffset t.seg + (env.geo.footerOffset + d)) := by
    intro idx t d hd
    apply exists_covers_writeBack _ _ (by omega) (h.footer_lt hd)
  rw [← List.append_assoc] at hflush
  have hlt : (headers ++ others).length < k := by
    by_contra hle
    obtain ⟨w, hw, hc⟩ := hcover front.length last 0 (by decide)
    apply hnot w _ 0 (by decide) hc
    rw [hflush, List.drop_append_of_le_length (Nat.not_lt.mp hle)]
    apply List.mem_append_right _ hw
  have htake : (env.flushWrites ts tables).take k
      = headers ++ (others ++ own.take (k - (headers ++ others).length)) := by
    rw [hflush, List.take_append, List.take_of_length_le hlt.le, List.append_assoc]
  have hdrop : (env.flushWrites ts tables).drop k = own.drop (k - (headers ++ others).length) := by
    rw [hflush, List.drop_append, List.drop_of_length_le hlt.le, List.nil_append]
  have hzip : tables.zipIdx.flatMap (fun p => env.footerWrites ts tables.length p.2 p.1)
      = others ++ own := by
    have hboth := flushWrites_eq env ts htables
    rw [flushWrites] at hboth
    apply List.append_cancel_left hboth
  refine ⟨_, htake, ?_, ?_⟩
  · intro w hw
    rw [hzip]
    rcases List.mem_append.mp hw with hw | hw
    · apply List.mem_append_left _ hw
    · apply List.mem_append_right _ (List.mem_of_mem_take hw)
  · intro idx t ht d hd
    obtain ⟨w, hw, hc⟩ := hcover idx t d hd
    refine ⟨w, ?_, hc⟩
    rw [htables] at ht
    by_cases hidx : idx < front.length
    · rw [List.getElem?_append_left hidx] at ht
      apply List.mem_append_left
      apply List.mem_flatMap.mpr
      exact ⟨(t, idx), List.mem_zipIdx_iff_getElem?.mpr ht, hw⟩
    · rw [List.getElem?_append_right (Nat.not_lt.mp hidx)] at ht
      obtain ⟨hzero, hlast'⟩ := List.getElem?_eq_some_iff.mp ht
      rw [List.getElem_singleton] at hlast'
      rw [List.length_singleton] at hzero
      obtain rfl : idx = front.length := by omega
      subst hlast'
      apply List.mem_append_right
      have hown : w ∈ own.take (k - (headers ++ others).length)
          ++ own.drop (k - (headers ++ others).length) := by
        rw [List.take_append_drop]
        apply hw
      rcases List.mem_append.mp hown with hown | hown
      · apply hown
      · rw [← hdrop] at hown
        exact absurd hc (hnot w hown d hd)

/-- What is on the device once nothing of the last footer is left to write. -/
theorem flushed_of_lastFooterWritten
    (h : Placed env segMd tables) (hlast : env.LastFooterWritten ts tables k)
    (ht : tables[idx]? = some t) :
  (∀ i < env.geo.usedBytes, env.flushed ts tables dev k (env.geo.segOffset t.seg + i)
      = env.hdrMem ts tables.length idx t i)
    ∧ ∀ d < kIndexFtrBytes,
      env.flushed ts tables dev k (env.geo.segOffset t.seg + (env.geo.footerOffset + d))
        = env.ftrMem ts tables.length idx t (env.geo.footerOffset + d)
  := by
  obtain ⟨footers, htake, hfooters, hcovered⟩ := h.take_of_lastFooterWritten hlast
  constructor
  · intro i hi
    have hused := Geometry.usedBytes_le h.accepts
    have hgrain := env.geo.usedBytes_le_usedGrainBytes
    apply h.writeAll_of_lt (fun v hv => List.mem_of_mem_take hv) ht (by omega)
    obtain ⟨w, hw, hc⟩ := env.exists_covers_writeBack t.seg (env.hdrMem ts tables.length idx t)
      (Nat.zero_le i) (lt_of_lt_of_le hi hgrain)
    refine ⟨w, ?_, hc⟩
    rw [htake]
    apply List.mem_append_left
    apply List.mem_flatMap.mpr
    exact ⟨(t, idx), List.mem_zipIdx_iff_getElem?.mpr ht, hw⟩
  · intro d hd
    rw [flushed, htake, writeAll_append]
    apply writeAll_of_covers (hcovered idx t ht d hd)
    intro w hw hc
    apply h.content_of_footers (hfooters w hw) ht (h.footer_lt hd) hc

/-- The header, the slots and the footer of every table are on the device. -/
theorem readFtrAt_flushed
    (h : Placed env segMd tables) (hts : ts < 2 ^ 64)
    (hlast : env.LastFooterWritten ts tables k) (ht : tables[idx]? = some t) :
  env.readFtrAt (env.flushed ts tables dev k) t.seg = env.newFtr ts tables.length idx
  := by
  rw [h.readFtrAt_eq]
  apply readIndexFtr_of_holds _ (h.newFtr_fits hts)
  apply ftrMem_holds.of_eq
  intro d hd
  rw [length_indexFtr_encode] at hd
  rw [Nat.add_assoc]
  apply (h.flushed_of_lastFooterWritten hlast ht).2 d hd

end Placed

end UDepot
