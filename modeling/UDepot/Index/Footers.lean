import UDepot.Index.Restore

/-!
# Footers that are cut

A footer is valid only once it is written, as long as it is written at once.  With grains that
neither divide a footer nor are multiples of it a part of the footer is written back clear with the
slots, and with grains over a chunk the footer may be in two writes.  Where the flush is cut then,
the footer of the last table is a mixture of the new one, of zeros, and of what the device had
(`splitFooter`).  The footers of all tables pass before the last one is written just if such a
mixture does (`splitFootersInvalid_of_fresh`, `fresh_of_splitFootersInvalid`).
-/

namespace UDepot

open Memory

namespace IndexEnv

variable (env : IndexEnv)

/-- The footer of a table of which `new` bytes are written, on a device: what lies behind them is
clear as far as it shares a grain with the slots. -/
def splitFooter (ts dirSize idx : Nat) (t : IndexTable) (dev : Device) (new : Nat) : Device :=
  write
    (write dev (env.geo.segOffset t.seg + env.geo.footerOffset)
      (List.replicate (env.geo.usedGrainBytes - env.geo.footerOffset) 0))
    (env.geo.segOffset t.seg + env.geo.footerOffset) ((env.newFtr ts dirSize idx).encode.take new)

/-- The bytes of a footer that its first `j` writes bring. -/
def newBytes (j : Nat) : Nat := j * kIndexIoChunk + kIndexMdBytes - env.geo.mdChunk

/-- The writes of the headers and the slots. -/
def headerWrites (ts : Nat) (tables : List IndexTable) : List (Nat × Bytes) :=
  tables.zipIdx.flatMap fun p => env.tableWrites ts tables.length p.2 p.1

/-- The writes before those of the last footer. -/
def earlyWrites (ts : Nat) (tables front : List IndexTable) : List (Nat × Bytes) :=
  env.headerWrites ts tables
    ++ front.zipIdx.flatMap fun p => env.footerWrites ts tables.length p.2 p.1

/-- No footer that the writes of the last one may be cut at is valid for its table. -/
def SplitFootersInvalid (ts : Nat) (tables : List IndexTable) (dev : Device) : Prop :=
  ∀ (idx : Nat) (t : IndexTable), tables[idx]? = some t → idx + 1 = tables.length →
    ∀ j, env.newBytes j < kIndexFtrBytes →
      ¬ env.FooterPasses ts tables
        (env.splitFooter ts tables.length idx t dev (env.newBytes j)) idx t

/-- The footers do not all pass before the last one is written. -/
def FootersFresh (ts : Nat) (tables : List IndexTable) (dev : Device) : Prop :=
  ∀ k, env.AllPass ts tables (env.flushed ts tables dev k) → env.LastFooterWritten ts tables k

variable {env} {ts dirSize idx new d : Nat} {t : IndexTable} {tables : List IndexTable}
  {dev dev' : Device}

/-! ### The bytes of a footer -/

theorem splitFooter_of_lt (hd : d < kIndexFtrBytes) (hnew : d < new) :
    env.splitFooter ts dirSize idx t dev new (env.geo.segOffset t.seg + (env.geo.footerOffset + d))
      = env.ftrMem ts dirSize idx t (env.geo.footerOffset + d) := by
  have hlen := length_indexFtr_encode (env.newFtr ts dirSize idx)
  obtain ⟨x, hx⟩ : ∃ x, (env.newFtr ts dirSize idx).encode[d]? = some x :=
    ⟨_, List.getElem?_eq_getElem (by omega)⟩
  rw [ftrMem_holds d x hx, splitFooter, ← Nat.add_assoc]
  apply write_of_inside (Nat.le_add_right _ _)
  rw [Nat.add_sub_cancel_left, List.getElem?_take, if_pos hnew, hx]

theorem splitFooter_of_le (hnew : new ≤ d) :
    env.splitFooter ts dirSize idx t dev new (env.geo.segOffset t.seg + (env.geo.footerOffset + d))
      = if env.geo.footerOffset + d < env.geo.usedGrainBytes then 0
        else dev (env.geo.segOffset t.seg + (env.geo.footerOffset + d)) := by
  rw [splitFooter, write_of_outside]
  · split
    · apply write_of_inside (by omega)
      rw [List.getElem?_replicate, if_pos (by omega)]
    · apply write_of_outside
      rw [List.length_replicate]
      omega
  · right
    rw [List.length_take]
    omega

end IndexEnv

namespace Placed

open IndexEnv

variable {env : IndexEnv} {segMd : Nat → Option SegMd} {tables front : List IndexTable}
  {ts idx k d j : Nat} {t last : IndexTable} {dev dev' : Device}

/-- Whether a footer passes depends on its bytes. -/
theorem footerPasses_congr
    (h : Placed env segMd tables)
    (heq : ∀ d < kIndexFtrBytes, dev (env.geo.segOffset t.seg + (env.geo.footerOffset + d))
      = dev' (env.geo.segOffset t.seg + (env.geo.footerOffset + d))) :
  env.FooterPasses ts tables dev idx t ↔ env.FooterPasses ts tables dev' idx t
  := by
  have hread : env.readFtrAt dev t.seg = env.readFtrAt dev' t.seg := by
    rw [h.readFtrAt_eq, h.readFtrAt_eq]
    apply readIndexFtr_congr
    intro d hd
    rw [Nat.add_assoc]
    apply heq d hd
  rw [FooterPasses, FooterPasses, ftrOk, ftrOk, hread]

/-- The size of the directory is in the first two bytes. -/
theorem FooterPasses.dirSize
    (h : Placed env segMd tables) (hpass : env.FooterPasses ts tables dev idx t) :
  (dev (env.geo.segOffset t.seg + env.geo.footerOffset)).toNat
    + 256 * (dev (env.geo.segOffset t.seg + (env.geo.footerOffset + 1))).toNat = tables.length
  := by
  have hsame := hpass.2
  simp only [sameIdentity, Bool.and_eq_true, beq_iff_eq] at hsame
  have hdir : (env.newHdr ts tables.length idx).dirSize = tables.length := h.newHdr_dirSize
  rw [← hdir, hsame.1.1.1.1.1, h.readFtrAt_eq]
  simp only [readIndexFtr, readLe, Nat.mul_zero, Nat.add_zero, Nat.add_assoc]

theorem flushWrites_eq_early (htables : tables = front ++ [last]) :
    env.flushWrites ts tables = env.earlyWrites ts tables front
      ++ env.footerWrites ts tables.length front.length last := by
  rw [earlyWrites, List.append_assoc]
  exact flushWrites_eq env ts htables

/-- The prefix of a flush with all that comes before the last footer. -/
theorem take_lastFooter (htables : tables = front ++ [last]) (ts j : Nat) :
    (env.flushWrites ts tables).take ((env.earlyWrites ts tables front).length + j)
      = env.earlyWrites ts tables front
        ++ (env.footerWrites ts tables.length front.length last).take j := by
  rw [flushWrites_eq_early htables]
  exact List.take_length_add_append j

/-- The writes with the slots cover what is shared of a footer. -/
theorem exists_covers_shared
    (ht : tables[idx]? = some t) (hused : env.geo.footerOffset + d < env.geo.usedGrainBytes) :
  ∃ w ∈ env.headerWrites ts tables,
    Covers w (env.geo.segOffset t.seg + (env.geo.footerOffset + d))
  := by
  obtain ⟨w, hw, hc⟩ := exists_covers_writeBack t.seg
    (env.hdrMem ts tables.length idx t) (Nat.zero_le _) hused
  refine ⟨w, List.mem_flatMap.mpr ?_, hc⟩
  exact ⟨(t, idx), List.mem_zipIdx_iff_getElem?.mpr ht, hw⟩

section Last

variable (h : Placed env segMd tables) (htables : tables = front ++ [last])

include h htables

/-- The last footer after writes before it that cover what is written of it with the slots, and
after `j` of its own. -/
theorem writeAll_eq_splitFooter
    (hget : tables[front.length]? = some last)
    (hclear : ∀ d < kIndexFtrBytes, last.mem (env.geo.footerOffset + d) = 0)
    {ws : List (Nat × Bytes)}
    (hws : ∀ w ∈ ws, w ∈ env.earlyWrites ts tables front)
    (hcovered : ∀ d < kIndexFtrBytes, env.geo.footerOffset + d < env.geo.usedGrainBytes →
      ∃ w ∈ ws, Covers w (env.geo.segOffset last.seg + (env.geo.footerOffset + d)))
    (hd : d < kIndexFtrBytes) :
  writeAll dev (ws ++ (env.footerWrites ts tables.length front.length last).take j)
      (env.geo.segOffset last.seg + (env.geo.footerOffset + d))
    = env.splitFooter ts tables.length front.length last dev (env.newBytes j)
      (env.geo.segOffset last.seg + (env.geo.footerOffset + d))
  := by
  have hlt := h.footer_lt hd
  have hplace := Geometry.footer_place h.accepts
  have hadd := Geometry.footerOffset_add h.accepts
  have hmd := env.geo.kIndexMdBytes_le_mdChunk
  have hnet := Geometry.two_mdChunk_le h.accepts
  rw [writeAll_append]
  by_cases hnew : d < env.newBytes j
  · rw [splitFooter_of_lt hd hnew]
    rw [newBytes] at hnew
    apply writeAll_of_covers (exists_covers_take_iff.mpr ⟨by omega, hlt, by omega⟩)
    intro w hw hc
    obtain ⟨i, -, heq, hx⟩ := covers_footerWrites (List.mem_of_mem_take hw) hc
    obtain rfl := Nat.add_left_cancel heq
    apply hx
  · rw [splitFooter_of_le (Nat.le_of_not_lt hnew), writeAll_of_not_covers]
    · have htable : ∀ w ∈ ws, Covers w (env.geo.segOffset last.seg + (env.geo.footerOffset + d)) →
          w ∈ env.tableWrites ts tables.length front.length last := by
        intro w hw hc
        apply h.mem_tableWrites_of_early htables hget (hws w hw) hlt hc
      split
      · rename_i hused
        apply writeAll_of_covers (hcovered d hd hused)
        intro w hw hc
        obtain ⟨i, -, heq, hx⟩ := covers_tableWrites (htable w hw hc) hc
        obtain rfl := Nat.add_left_cancel heq
        rw [hx, hdrMem_of_le, hclear d hd]
        have hfooter := Geometry.usedBytes_le h.accepts
        have hslots := env.geo.kIndexMdBytes_le_usedBytes
        omega
      · rename_i hused
        apply writeAll_of_not_covers
        intro w hw hc
        obtain ⟨i, hi, heq, -⟩ := covers_tableWrites (htable w hw hc) hc
        omega
    · intro w hw hc
      have hcov := exists_covers_take_iff.mp ⟨w, hw, hc⟩
      rw [newBytes] at hnew
      omega

theorem flushed_eq_splitFooter
    (hget : tables[front.length]? = some last)
    (hclear : ∀ d < kIndexFtrBytes, last.mem (env.geo.footerOffset + d) = 0)
    (hd : d < kIndexFtrBytes) :
  env.flushed ts tables dev ((env.earlyWrites ts tables front).length + j)
      (env.geo.segOffset last.seg + (env.geo.footerOffset + d))
    = env.splitFooter ts tables.length front.length last dev (env.newBytes j)
      (env.geo.segOffset last.seg + (env.geo.footerOffset + d))
  := by
  rw [flushed, take_lastFooter htables]
  apply h.writeAll_eq_splitFooter htables hget hclear (fun w hw => hw) _ hd
  intro d' _ hused
  obtain ⟨w, hw, hc⟩ := exists_covers_shared hget hused
  exact ⟨w, List.mem_append_left _ hw, hc⟩

/-- The other footers pass when it is the last one's turn. -/
theorem footerPasses_of_front
    (hts : ts < 2 ^ 64) (ht : tables[idx]? = some t) (hidx : idx < front.length) (j : Nat) :
  env.FooterPasses ts tables
    (env.flushed ts tables dev ((env.earlyWrites ts tables front).length + j)) idx t
  := by
  apply footerPasses_of_readFtrAt
  rw [h.readFtrAt_eq]
  apply readIndexFtr_of_holds _ (h.newFtr_fits hts)
  apply ftrMem_holds.of_eq
  intro d hd
  rw [length_indexFtr_encode] at hd
  have hlt := h.footer_lt hd
  have hmd := h.netBytes_sub_mdChunk_le
  have htf : front[idx]? = some t := by
    rwa [htables, List.getElem?_append_left hidx] at ht
  rw [Nat.add_assoc, flushed, take_lastFooter htables, earlyWrites, List.append_assoc,
    writeAll_append]
  apply writeAll_of_covers
  · obtain ⟨w, hw, hc⟩ := exists_covers_writeBack t.seg (env.ftrMem ts tables.length idx t)
      (show env.geo.netBytes - env.geo.mdChunk ≤ env.geo.footerOffset + d by omega) hlt
    refine ⟨w, List.mem_append_left _ (List.mem_flatMap.mpr ?_), hc⟩
    exact ⟨(t, idx), List.mem_zipIdx_iff_getElem?.mpr htf, hw⟩
  · intro w hw hc
    apply h.content_of_footers _ ht hlt hc
    have hzip : tables.zipIdx = front.zipIdx ++ [(last, front.length)] := by
      rw [htables, List.zipIdx_append, List.zipIdx_singleton, Nat.zero_add]
    rw [hzip, List.flatMap_append, List.flatMap_singleton]
    rcases List.mem_append.mp hw with hw | hw
    · exact List.mem_append_left _ hw
    · exact List.mem_append_right _ (List.mem_of_mem_take hw)

end Last

/-! ### While headers and slots are written -/

/-- What the writes with the slots leave of a footer is clear. -/
theorem writeAll_headerWrites
    (h : Placed env segMd tables) (ht : tables[idx]? = some t) (hd : d < kIndexFtrBytes)
    (hclear : t.mem (env.geo.footerOffset + d) = 0) {ws : List (Nat × Bytes)}
    (hws : ∀ w ∈ ws, w ∈ env.headerWrites ts tables)
    (hcovered : ∃ w ∈ ws, Covers w (env.geo.segOffset t.seg + (env.geo.footerOffset + d))) :
  writeAll dev ws (env.geo.segOffset t.seg + (env.geo.footerOffset + d)) = 0
  := by
  have hused := Geometry.usedGrainBytes_le h.accepts
  have hlt := h.footer_lt hd
  apply writeAll_of_covers hcovered
  intro w hw hc
  obtain ⟨⟨t', idx'⟩, hp, hw'⟩ := List.mem_flatMap.mp (hws w hw)
  have ht' := List.mem_zipIdx_iff_getElem?.mp hp
  simp only at hw' ht'
  obtain ⟨i, hi, heq, hx⟩ := covers_tableWrites hw' hc
  obtain ⟨rfl, rfl⟩ := h.eq_of_cell ht ht' hlt (by omega) heq
  obtain rfl := Nat.add_left_cancel heq
  rw [hx, hdrMem_of_le, hclear]
  have hfooter := Geometry.usedBytes_le h.accepts
  have hslots := env.geo.kIndexMdBytes_le_usedBytes
  omega

/-- Once a table's segment is written to, the tables before it are written. -/
theorem exists_covers_before
    (h : Placed env segMd tables) {idx' i : Nat} {t' : IndexTable} (ht : tables[idx]? = some t)
    (ht' : tables[idx']? = some t') (hidx : idx' < idx) {p : Nat} (hp : p < env.geo.netBytes)
    (hcovered : ∃ w ∈ (env.flushWrites ts tables).take k, Covers w (env.geo.segOffset t.seg + p))
    (hi : i < env.geo.usedGrainBytes) :
  ∃ w ∈ (env.flushWrites ts tables).take k, Covers w (env.geo.segOffset t'.seg + i)
  := by
  obtain ⟨before, after, hflush, hbefore, hall⟩ := h.flushWrites_split ts ht
  obtain ⟨w, hw, hc⟩ := hcovered
  obtain ⟨v, hv, hvc⟩ := exists_covers_writeBack t'.seg
    (env.hdrMem ts tables.length idx' t') (Nat.zero_le i) hi
  refine ⟨v, ?_, hvc⟩
  rw [hflush, List.take_append] at hw ⊢
  rcases List.mem_append.mp hw with hw | hw
  · exact absurd hc (hbefore w (List.mem_of_mem_take hw) p hp)
  · have hlong : before.length ≤ k := by
      by_contra hshort
      rw [Nat.sub_eq_zero_of_le (Nat.le_of_not_le hshort), List.take_zero] at hw
      cases hw
    rw [List.take_of_length_le hlong]
    exact List.mem_append_left _ (hall idx' hidx t' ht' v hv)

/-- No prefix that leaves a part of the last footer to be cleared lets all footers pass. -/
theorem not_allPass_of_uncovered
    (h : Placed env segMd tables)
    (hnone : ∀ t ∈ tables, env.ftrOk dev t.seg = false)
    (hclear : ∀ t ∈ tables, ∀ d < kIndexFtrBytes, t.mem (env.geo.footerOffset + d) = 0)
    (hget : tables[idx]? = some last) (hlast : idx + 1 = tables.length)
    (hws : ∀ w ∈ (env.flushWrites ts tables).take k, w ∈ env.headerWrites ts tables)
    (hd : d < kIndexFtrBytes) (hused : env.geo.footerOffset + d < env.geo.usedGrainBytes)
    (huncovered : ¬ ∃ w ∈ (env.flushWrites ts tables).take k,
      Covers w (env.geo.segOffset last.seg + (env.geo.footerOffset + d))) :
  ¬ env.AllPass ts tables (env.flushed ts tables dev k)
  := by
  intro hpass
  have hmem := List.mem_of_getElem? hget
  -- the footer was not valid, so it was begun, from its first byte on
  obtain ⟨d', hd', hcovered⟩ := h.footer_covered (hnone last hmem) (hpass idx last hget).1
  have hfirst := h.covered_from_front hget (h.footer_lt hd') hcovered
    (show env.geo.footerOffset + 0 < env.geo.usedGrainBytes by omega)
    (Nat.div_le_div_right (Nat.add_le_add_left (Nat.zero_le d') _))
  have hpos : d ≠ 0 := by
    rintro rfl
    exact huncovered hfirst
  have hzero : ∀ (idx : Nat) (t : IndexTable) (d : Nat), tables[idx]? = some t →
      d < kIndexFtrBytes → (∃ w ∈ (env.flushWrites ts tables).take k,
        Covers w (env.geo.segOffset t.seg + (env.geo.footerOffset + d))) →
      env.flushed ts tables dev k (env.geo.segOffset t.seg + (env.geo.footerOffset + d)) = 0 := by
    intro idx t d ht hd hcov
    exact h.writeAll_headerWrites ht hd (hclear t (List.mem_of_getElem? ht) d hd) hws hcov
  have hne : d ≠ 0 := by
    rintro rfl
    exact huncovered hfirst
  have hbyte := hzero idx last 0 hget (by decide) hfirst
  have hsize := FooterPasses.dirSize h (hpass idx last hget)
  rw [Nat.add_zero] at hbyte
  rw [hbyte, UInt8.toNat_zero] at hsize
  -- so the directory has 256 tables or more, and the first one is written with a clear footer
  have hbefore : 0 < idx := by omega
  obtain ⟨t, ht⟩ : ∃ t, tables[0]? = some t := ⟨_, List.getElem?_eq_getElem (by omega)⟩
  have hcov : ∀ i < env.geo.usedGrainBytes,
      ∃ w ∈ (env.flushWrites ts tables).take k, Covers w (env.geo.segOffset t.seg + i) :=
    fun i hi => h.exists_covers_before hget ht hbefore (h.footer_lt hd') hcovered hi
  have hbyte₀ := hzero 0 t 0 ht (by decide) (hcov _ (by omega))
  have hbyte₁ := hzero 0 t 1 ht (by decide) (hcov _ (by omega))
  have hsize₀ := FooterPasses.dirSize h (hpass 0 t ht)
  rw [Nat.add_zero] at hbyte₀
  rw [hbyte₀, hbyte₁, UInt8.toNat_zero] at hsize₀
  omega

/-- A footer that is cut and passes makes all footers pass before the last one is written. -/
theorem splitFootersInvalid_of_fresh
    (h : Placed env segMd tables) (hts : ts < 2 ^ 64)
    (hclear : ∀ t ∈ tables, ∀ d < kIndexFtrBytes, t.mem (env.geo.footerOffset + d) = 0)
    (hfresh : env.FootersFresh ts tables dev) :
  env.SplitFootersInvalid ts tables dev
  := by
  intro idx last hget hlen j hnew hpass
  obtain ⟨front, last', htables, hget'⟩ := h.exists_last
  have hfront : idx = front.length := by
    have hlength := congrArg List.length htables
    rw [List.length_append, List.length_singleton] at hlength
    omega
  subst hfront
  cases hget.symm.trans hget'
  have hlast := hfresh ((env.earlyWrites ts tables front).length + j) fun idx t ht => by
    by_cases hidx : idx < front.length
    · apply h.footerPasses_of_front htables hts ht hidx
    · have hlt := (List.getElem?_eq_some_iff.mp ht).1
      obtain rfl : idx = front.length := by omega
      cases hget.symm.trans ht
      apply (h.footerPasses_congr fun d hd => ?_).mpr hpass
      apply h.flushed_eq_splitFooter htables hget (hclear last (List.mem_of_getElem? hget)) hd
  -- but the next write of the last footer covers its first byte that is not new
  have hlt := h.footer_lt hnew
  have hadd := Geometry.footerOffset_add h.accepts
  have hmd := env.geo.kIndexMdBytes_le_mdChunk
  have hnet := Geometry.two_mdChunk_le h.accepts
  have hle : env.geo.netBytes - env.geo.mdChunk + j * kIndexIoChunk
      ≤ env.geo.footerOffset + env.newBytes j := by
    rw [newBytes]
    omega
  obtain ⟨w, hw, hc⟩ := exists_covers_writeBack last.seg
    (env.ftrMem ts tables.length front.length last) (Nat.le_of_add_right_le hle) hlt
  rw [← List.take_append_drop j (env.writeBack _ _ _ _)] at hw
  rcases List.mem_append.mp hw with hw | hw
  · have hcov := (exists_covers_take_iff.mp ⟨w, hw, hc⟩).2.2
    omega
  · refine hlast last (by rw [htables, List.getLast?_concat]) w ?_ (env.newBytes j) hnew hc
    rw [flushWrites_eq_early htables, List.drop_length_add_append]
    exact hw

/-- If none does, they do not all pass early. -/
theorem fresh_of_splitFootersInvalid
    (h : Placed env segMd tables)
    (hnone : ∀ t ∈ tables, env.ftrOk dev t.seg = false)
    (hclear : ∀ t ∈ tables, ∀ d < kIndexFtrBytes, t.mem (env.geo.footerOffset + d) = 0)
    (hsplit : env.SplitFootersInvalid ts tables dev) :
  env.FootersFresh ts tables dev
  := by
  intro k hpass
  obtain ⟨front, last, htables, hget⟩ := h.exists_last
  have hlen : front.length + 1 = tables.length := by
    rw [htables, List.length_append, List.length_singleton]
  have hclear' := hclear last (List.mem_of_getElem? hget)
  have hadd := Geometry.footerOffset_add h.accepts
  have hmd := env.geo.kIndexMdBytes_le_mdChunk
  have hnet := Geometry.two_mdChunk_le h.accepts
  by_cases hk : (env.earlyWrites ts tables front).length ≤ k
  · obtain ⟨j, rfl⟩ := Nat.exists_eq_add_of_le hk
    intro t ht w hw d hd hc
    rw [htables, List.getLast?_concat, Option.some_inj] at ht
    subst ht
    rw [flushWrites_eq_early htables, List.drop_length_add_append] at hw
    have hle := le_of_covers_drop hw hc
    have hnew : env.newBytes j < kIndexFtrBytes := by
      rw [newBytes]
      omega
    apply hsplit front.length last hget hlen j hnew
    apply (h.footerPasses_congr fun d hd => ?_).mp (hpass front.length last hget)
    apply h.flushed_eq_splitFooter htables hget hclear' hd
  · exfalso
    have htake : (env.flushWrites ts tables).take k = (env.earlyWrites ts tables front).take k := by
      rw [flushWrites_eq_early htables, List.take_append_of_le_length (by omega)]
    by_cases hcovered : ∀ d < kIndexFtrBytes, env.geo.footerOffset + d < env.geo.usedGrainBytes →
        ∃ w ∈ (env.flushWrites ts tables).take k,
          Covers w (env.geo.segOffset last.seg + (env.geo.footerOffset + d))
    · apply hsplit front.length last hget hlen 0 (by rw [newBytes, kIndexFtrBytes]; omega)
      apply (h.footerPasses_congr fun d hd => ?_).mp (hpass front.length last hget)
      rw [← h.writeAll_eq_splitFooter htables hget hclear' _ hcovered hd, List.take_zero,
        List.append_nil, flushed]
      intro w hw
      rw [htake] at hw
      apply List.mem_of_mem_take hw
    · push Not at hcovered
      obtain ⟨d, hd, hused, huncovered⟩ := hcovered
      apply h.not_allPass_of_uncovered hnone hclear hget hlen _ hd hused _ hpass
      · -- the flush is still at the headers and slots, which cover all that is shared
        have hshort : k ≤ (env.headerWrites ts tables).length := by
          by_contra hlong
          obtain ⟨w, hw, hc⟩ : ∃ w ∈ env.headerWrites ts tables, Covers w _ :=
            exists_covers_shared hget hused
          apply huncovered w _ hc
          rw [htake, earlyWrites, List.take_append, List.take_of_length_le (by omega)]
          exact List.mem_append_left _ hw
        intro w hw
        rw [htake, earlyWrites, List.take_append_of_le_length hshort] at hw
        apply List.mem_of_mem_take hw
      · rintro ⟨w, hw, hc⟩
        exact huncovered w hw hc

/-! ### Ordinary grains -/

/-- A footer is written at once if a grain is. -/
theorem mdChunk_le (hle : env.geo.grainSize ≤ kIndexIoChunk) : env.geo.mdChunk ≤ kIndexIoChunk := by
  have hpos := env.geo.grainSize_pos
  by_cases hshort : env.geo.grainSize < kIndexMdBytes
  · have hlt := alignUp_lt kIndexMdBytes hpos
    rw [Geometry.mdChunk]
    rw [kIndexMdBytes] at hshort hlt ⊢
    rw [kIndexIoChunk]
    omega
  · have hmono := alignUp_mono env.geo.grainSize (Nat.le_of_not_lt hshort)
    have hself := alignUp_mul 1 hpos
    rw [Nat.one_mul] at hself
    rw [Geometry.mdChunk]
    omega

/-- A footer that is cut does not pass, unless it is in two writes or just its first byte shares a
grain with the slots. -/
theorem splitFootersInvalid_of_grains
    (h : Placed env segMd tables)
    (hnone : ∀ t ∈ tables, env.ftrOk dev t.seg = false)
    (hle : env.geo.grainSize ≤ kIndexIoChunk) (hdvd : ¬ env.geo.grainSize ∣ kIndexMdBytes - 1) :
  env.SplitFootersInvalid ts tables dev
  := by
  intro idx last hget hlen j hnew hpass
  have hzero : env.newBytes j = 0 := by
    have hmd := mdChunk_le hle
    have hmd' := env.geo.kIndexMdBytes_le_mdChunk
    rw [newBytes] at hnew ⊢
    cases j with
    | zero => omega
    | succ j =>
        rw [Nat.add_mul, kIndexFtrBytes, kIndexMdBytes] at hnew
        omega
  rw [hzero] at hpass
  have hbyte : ∀ d, env.splitFooter ts tables.length idx last dev 0 _ = _ :=
    fun d => splitFooter_of_le (Nat.zero_le d)
  by_cases hshared : env.geo.usedGrainBytes ≤ env.geo.footerOffset
  · -- the footer is the one that the device had
    have hsame := (h.footerPasses_congr fun d _ => by
      rw [hbyte, if_neg (show ¬ env.geo.footerOffset + d < env.geo.usedGrainBytes by omega)]).mp
        hpass
    rw [FooterPasses, hnone last (List.mem_of_getElem? hget)] at hsame
    cases hsame.1
  · -- the size of the directory is zero, as two bytes are shared
    have hadd := Geometry.footerOffset_add h.accepts
    have htwo : env.geo.footerOffset + 1 < env.geo.usedGrainBytes := by
      by_contra hone
      apply hdvd
      have heq : kIndexMdBytes - 1 = env.geo.netBytes - env.geo.usedGrainBytes := by
        rw [kIndexMdBytes] at hadd ⊢
        omega
      rw [heq]
      exact Nat.dvd_sub (Nat.dvd_mul_left _ _) (dvd_alignUp _ _)
    have hsize := FooterPasses.dirSize h hpass
    have hbyte₀ := hbyte 0
    rw [Nat.add_zero, if_pos (by omega)] at hbyte₀
    rw [hbyte₀, hbyte 1, if_pos htwo, UInt8.toNat_zero] at hsize
    omega

end Placed

end UDepot
