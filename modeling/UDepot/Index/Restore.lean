import Mathlib.Data.List.Perm.Subperm
import UDepot.Index.Flush

/-!
# Restoring an index

On a device where valid footers go with the headers of one directory, `restore_index` restores that
directory just if the footer of every table is valid and goes with its header.  It counts the
grains of the entries, and it leaves no footer that it found.
-/

namespace UDepot

open Memory

namespace IndexEnv

variable {env : IndexEnv} {segMd : Nat → Option SegMd} {tables : List IndexTable}
  {ts idx seg : Nat} {t : IndexTable} {dev : Device} {f : Found} {found set : List Found}

/-! ### Which footers are found -/

/-- Every valid footer is in the segment of a table, with the header of the table. -/
def HeadersOnDevice (env : IndexEnv) (segMd : Nat → Option SegMd) (ts : Nat)
    (tables : List IndexTable) (dev : Device) : Prop :=
  ∀ seg < env.geo.numSegments, isIndexSeg segMd seg = true → env.ftrOk dev seg = true →
    ∃ idx t, tables[idx]? = some t ∧ t.seg = seg
      ∧ env.readHdrAt dev seg = env.newHdr ts tables.length idx

/-- The footer of a table is valid and goes with its header. -/
def FooterPasses (env : IndexEnv) (ts : Nat) (tables : List IndexTable) (dev : Device) (idx : Nat)
    (t : IndexTable) : Prop :=
  env.ftrOk dev t.seg = true
    ∧ sameIdentity (env.newHdr ts tables.length idx) (env.readFtrAt dev t.seg) = true

/-- The footers of all tables pass. -/
def AllPass (env : IndexEnv) (ts : Nat) (tables : List IndexTable) (dev : Device) : Prop :=
  ∀ (idx : Nat) (t : IndexTable), tables[idx]? = some t → env.FooterPasses ts tables dev idx t

/-- A new footer passes. -/
theorem footerPasses_of_readFtrAt
    (h : env.readFtrAt dev t.seg = env.newFtr ts tables.length idx) :
  env.FooterPasses ts tables dev idx t
  := by
  rw [FooterPasses, ftrOk, h]
  constructor
  · rw [beq_iff_eq]
    rfl
  · simp [sameIdentity, newHdr, newFtr]

theorem mem_findFooters :
    f ∈ env.findFooters segMd dev ↔ f.seg < env.geo.numSegments ∧ isIndexSeg segMd f.seg = true
      ∧ env.ftrOk dev f.seg = true ∧ f.hdr = env.foundHdr dev f.seg := by
  simp only [findFooters, List.mem_map, List.mem_filter, List.mem_range, Bool.and_eq_true]
  constructor
  · rintro ⟨seg, ⟨hlt, hindex, hok⟩, rfl⟩
    exact ⟨hlt, hindex, hok, rfl⟩
  · rintro ⟨hlt, hindex, hok, hhdr⟩
    exact ⟨f.seg, ⟨hlt, hindex, hok⟩, by rw [← hhdr]⟩

theorem nodup_findFooters : ((env.findFooters segMd dev).map Found.seg).Nodup := by
  have hid : Found.seg ∘ (fun seg => ⟨seg, env.foundHdr dev seg⟩) = id := rfl
  rw [findFooters, List.map_map, hid, List.map_id]
  apply List.nodup_range.filter

/-- A new header is valid. -/
theorem hdrOk_of_newHdr {dirSize : Nat} (h : env.readHdrAt dev seg = env.newHdr ts dirSize idx) :
    env.hdrOk dev seg = true := by
  rw [hdrOk, h, beq_iff_eq]
  rfl

/-- The header found with a footer is the new one if the footer passes, and otherwise empty. -/
theorem foundHdr_eq
    (h : env.readHdrAt dev t.seg = env.newHdr ts tables.length idx)
    (hok : env.ftrOk dev t.seg = true) (hts : ts ≠ 0) :
  ((env.foundHdr dev t.seg).ts = ts ↔ env.FooterPasses ts tables dev idx t)
    ∧ ((env.foundHdr dev t.seg).ts = 0 ∨ env.foundHdr dev t.seg = env.newHdr ts tables.length idx)
  := by
  rw [foundHdr, hdrOk_of_newHdr h, Bool.true_and, h, FooterPasses]
  cases hsame : sameIdentity (env.newHdr ts tables.length idx) (env.readFtrAt dev t.seg) with
  | true => exact ⟨⟨fun _ => ⟨hok, rfl⟩, fun _ => rfl⟩, .inr rfl⟩
  | false =>
      refine ⟨⟨?_, ?_⟩, .inl rfl⟩
      · intro hzero
        exact absurd hzero.symm hts
      · rintro ⟨-, hfalse⟩
        cases hfalse

/-! ### The newest index -/

theorem newestTs_append : newestTs (found ++ [f]) = max (newestTs found) f.hdr.ts := by
  rw [newestTs, List.foldl_append]
  rfl

theorem le_newestTs (hf : f ∈ found) : f.hdr.ts ≤ newestTs found := by
  induction found using List.reverseRecOn with
  | nil => cases hf
  | append_singleton found g ih =>
      rw [newestTs_append]
      rcases List.mem_append.mp hf with hf | hf
      · apply le_max_of_le_left (ih hf)
      · rw [List.mem_singleton.mp hf]
        apply le_max_right

theorem exists_newestTs (h : newestTs found ≠ 0) : ∃ f ∈ found, f.hdr.ts = newestTs found := by
  induction found using List.reverseRecOn with
  | nil => exact absurd rfl h
  | append_singleton found g ih =>
      rw [newestTs_append] at h ⊢
      rcases max_choice (newestTs found) g.hdr.ts with hmax | hmax
      · rw [hmax] at h ⊢
        obtain ⟨f, hf, hfts⟩ := ih h
        exact ⟨f, List.mem_append_left _ hf, hfts⟩
      · rw [hmax]
        exact ⟨g, List.mem_append_right _ List.mem_cons_self, rfl⟩

/-- Of segments with one timestamp, or none, the newest index is those that have it. -/
theorem mem_newestSet
    (hts : ts ≠ 0) (hall : ∀ f ∈ found, f.hdr.ts = 0 ∨ f.hdr.ts = ts) :
  f ∈ newestSet found ↔ f ∈ found ∧ f.hdr.ts = ts
  := by
  have hnewest : newestTs found ≠ 0 → newestTs found = ts := by
    intro hne
    obtain ⟨g, hg, hgts⟩ := exists_newestTs hne
    rcases hall g hg with h | h
    · rw [← hgts, h] at hne
      exact absurd rfl hne
    · rw [← hgts, h]
  rw [newestSet, List.mem_filter]
  apply and_congr_right
  intro hf
  simp only [ne_eq, Bool.and_eq_true, decide_eq_true_eq, beq_iff_eq]
  constructor
  · rintro ⟨hne, hfts⟩
    rw [hfts, hnewest hne]
  · intro hfts
    have hle := le_newestTs hf
    have hne : newestTs found ≠ 0 := by omega
    exact ⟨hne, by rw [hfts, hnewest hne]⟩

/-- A table is at the place that its header has. -/
theorem tablesOf_of_mem
    (hnodup : (set.map fun f => f.hdr.idx).Nodup) (hf : f ∈ set) :
  env.tablesOf dev set f.hdr.idx = some (env.loadTable dev f.seg)
  := by
  induction set using List.reverseRecOn with
  | nil => cases hf
  | append_singleton set g ih =>
      rw [List.map_append, List.nodup_append] at hnodup
      rw [tablesOf, List.foldl_append, List.foldl_cons, List.foldl_nil]
      rcases List.mem_append.mp hf with hf | hf
      · rw [Function.update_of_ne]
        · apply ih hnodup.1 hf
        · apply hnodup.2.2 _ (List.mem_map_of_mem hf) _ (List.mem_map_of_mem List.mem_cons_self)
      · rw [List.mem_singleton.mp hf, Function.update_self]

/-- What is found at all places of a list is the list. -/
theorem filterMap_range_eq_map {α β : Type} (xs : List α) {g : Nat → Option β} {e : α → β}
    (hg : ∀ (i : Nat) (x : α), xs[i]? = some x → g i = some (e x)) :
    (List.range xs.length).filterMap g = xs.map e := by
  induction xs using List.reverseRecOn with
  | nil => rfl
  | append_singleton xs x ih =>
      have hlast : g xs.length = some (e x) := hg _ _ List.getElem?_concat_length
      rw [List.length_append, List.length_singleton, List.range_succ, List.filterMap_append,
        List.map_append, ih]
      · simp [hlast]
      · intro i y hy
        apply hg
        rw [List.getElem?_append_left (List.getElem?_eq_some_iff.mp hy).1, hy]

theorem nodup_newestSet (h : (found.map Found.seg).Nodup) :
    ((newestSet found).map Found.seg).Nodup :=
  h.sublist (List.filter_sublist.map _)

/-! ### Clearing footers -/

/-- The part of a segment that is cleared for its footer. -/
def InFooter (env : IndexEnv) (seg c : Nat) : Prop :=
  ∃ i, env.geo.footerOffset ≤ i ∧ i < env.geo.netBytes ∧ c = env.geo.segOffset seg + i

section Clear

variable {c : Nat} (hacc : env.geo.acceptsTables = true)

include hacc

theorem clearFooter_of_inFooter (hc : env.InFooter f.seg c) : env.clearFooter dev f c = 0 := by
  have hplace := Geometry.footer_place hacc
  have hadd := Geometry.footerOffset_add hacc
  have hmd := env.geo.kIndexMdBytes_le_mdChunk
  obtain ⟨i, hle, hlt, rfl⟩ := hc
  rw [clearFooter]
  apply write_of_inside (by omega)
  rw [getElem?_readBytes (by omega), write_of_inside (by omega)]
  rw [List.getElem?_replicate, if_pos (by omega)]

theorem clearFooter_of_outside (hc : ¬ env.InFooter f.seg c) :
    env.clearFooter dev f c = dev c := by
  have hplace := Geometry.footer_place hacc
  have hadd := Geometry.footerOffset_add hacc
  have hmd := env.geo.kIndexMdBytes_le_mdChunk
  rw [clearFooter]
  by_cases hin : env.geo.segOffset f.seg + (env.geo.netBytes - env.geo.mdChunk) ≤ c
      ∧ c < env.geo.segOffset f.seg + env.geo.netBytes
  · have hlt : c < env.geo.segOffset f.seg + env.geo.footerOffset := by
      by_contra hle
      exact hc ⟨c - env.geo.segOffset f.seg, by omega, by omega, by omega⟩
    apply write_of_inside hin.1
    rw [getElem?_readBytes (by omega), Nat.zero_add, write_of_outside (.inl (by omega)), load,
      if_pos (by omega), Nat.add_sub_cancel' hin.1]
  · apply write_of_outside
    rw [readBytes_length]
    omega

theorem clearAll_of_inFooter (hf : f ∈ found) (hc : env.InFooter f.seg c) :
    found.foldl env.clearFooter dev c = 0 := by
  induction found using List.reverseRecOn with
  | nil => cases hf
  | append_singleton found g ih =>
      rw [List.foldl_append, List.foldl_cons, List.foldl_nil]
      by_cases hg : env.InFooter g.seg c
      · apply clearFooter_of_inFooter hacc hg
      · rw [clearFooter_of_outside hacc hg]
        rcases List.mem_append.mp hf with hf | hf
        · apply ih hf
        · rw [List.mem_singleton.mp hf] at hc
          exact absurd hc hg

theorem clearAll_of_outside (hc : ∀ f ∈ found, ¬ env.InFooter f.seg c) :
    found.foldl env.clearFooter dev c = dev c := by
  induction found using List.reverseRecOn with
  | nil => rfl
  | append_singleton found g ih =>
      rw [List.foldl_append, List.foldl_cons, List.foldl_nil, clearFooter_of_outside hacc, ih]
      · intro f hf
        apply hc f (List.mem_append_left _ hf)
      · apply hc g (List.mem_append_right _ List.mem_cons_self)

/-- Clearing footers changes nothing in front of them. -/
theorem clearAll_of_lt {i : Nat} (hi : i < env.geo.footerOffset) :
    found.foldl env.clearFooter dev (env.geo.segOffset seg + i)
      = dev (env.geo.segOffset seg + i) := by
  have hadd := Geometry.footerOffset_add hacc
  apply clearAll_of_outside hacc
  rintro f - ⟨i', hle, hlt, heq⟩
  rw [Geometry.seg_eq_of_cell (by omega) hlt heq] at heq
  omega

end Clear

end IndexEnv

namespace Placed

open IndexEnv

variable {env : IndexEnv} {segMd : Nat → Option SegMd} {tables : List IndexTable} {ts idx : Nat}
  {t : IndexTable} {dev : Device} {f : Found}

theorem newHdr_dirSize (h : Placed env segMd tables) :
    (env.newHdr ts tables.length idx).dirSize = tables.length := Nat.mod_eq_of_lt h.length_lt

theorem newHdr_idx (h : Placed env segMd tables) (ht : tables[idx]? = some t) :
    (env.newHdr ts tables.length idx).idx = idx := by
  have hlt := (List.getElem?_eq_some_iff.mp ht).1
  apply Nat.mod_eq_of_lt (hlt.trans h.length_lt)

/-- The segments of the newest index are those of the tables whose footers pass. -/
theorem mem_set
    (h : Placed env segMd tables) (hhdrs : env.HeadersOnDevice segMd ts tables dev) (hts : ts ≠ 0) :
  f ∈ newestSet (env.findFooters segMd dev) ↔
    ∃ idx t, tables[idx]? = some t ∧ env.FooterPasses ts tables dev idx t
      ∧ f = ⟨t.seg, env.newHdr ts tables.length idx⟩
  := by
  have hall : ∀ g ∈ env.findFooters segMd dev, g.hdr.ts = 0 ∨ g.hdr.ts = ts := by
    intro g hg
    obtain ⟨hlt, hindex, hok, hhdr⟩ := mem_findFooters.mp hg
    obtain ⟨idx, t, ht, hseg, hread⟩ := hhdrs g.seg hlt hindex hok
    rw [← hseg] at hread hok hhdr
    rw [hhdr]
    rcases (foundHdr_eq hread hok hts).2 with hzero | hnew
    · left
      apply hzero
    · right
      rw [hnew]
      rfl
  rw [mem_newestSet hts hall]
  constructor
  · rintro ⟨hf, hfts⟩
    obtain ⟨hlt, hindex, hok, hhdr⟩ := mem_findFooters.mp hf
    obtain ⟨idx, t, ht, hseg, hread⟩ := hhdrs f.seg hlt hindex hok
    rw [← hseg] at hread hok hhdr
    obtain ⟨hiff, hnew⟩ := foundHdr_eq hread hok hts
    rw [hhdr] at hfts
    refine ⟨idx, t, ht, hiff.mp hfts, ?_⟩
    rcases hnew with hzero | hnew
    · rw [hzero] at hfts
      exact absurd hfts.symm hts
    · obtain ⟨fseg, fhdr⟩ := f
      simp only at hseg hhdr
      rw [hseg, hhdr, hnew]
  · rintro ⟨idx, t, ht, hpass, rfl⟩
    obtain ⟨hlt, hindex⟩ := h.segs t (List.mem_of_getElem? ht)
    obtain ⟨idx', t', ht', hseg, hread⟩ := hhdrs t.seg hlt hindex hpass.1
    obtain ⟨rfl, rfl⟩ := h.eq_of_seg ht ht' hseg.symm
    refine ⟨mem_findFooters.mpr ⟨hlt, hindex, hpass.1, ?_⟩, rfl⟩
    obtain ⟨hiff, hnew⟩ := foundHdr_eq hread hpass.1 hts
    rcases hnew with hzero | hnew
    · rw [hiff.mpr hpass] at hzero
      exact absurd hzero hts
    · rw [hnew]

/-! ### Completeness -/

theorem hasSingleBit_two_pow (b : Nat) : hasSingleBit (2 ^ b) = true := by
  rw [hasSingleBit, Bool.and_eq_true, bne_iff_ne, beq_iff_eq, Nat.and_two_pow_sub_one_eq_mod]
  exact ⟨(Nat.two_pow_pos b).ne', Nat.mod_self _⟩

/-- Headers of different tables of one directory fit. -/
theorem headersFit_of_nodup
    {dirSize : Nat} {set : List Found} {seen : List Nat}
    (hall : ∀ f ∈ set, f.hdr.dirSize = dirSize ∧ f.hdr.idx < dirSize
      ∧ f.hdr.indexBits = env.geo.indexBits ∧ f.hdr.format = kIndexFormat
      ∧ f.hdr.slotNr = env.geo.slotNr)
    (hnodup : (set.map fun f => f.hdr.idx).Nodup) (hseen : ∀ f ∈ set, f.hdr.idx ∉ seen) :
  env.headersFit dirSize set seen = true
  := by
  induction set generalizing seen with
  | nil => rfl
  | cons f set ih =>
      rw [List.map_cons, List.nodup_cons] at hnodup
      obtain ⟨hdir, hidx, hbits, hformat, hslots⟩ := hall f List.mem_cons_self
      rw [headersFit, if_neg]
      · apply ih (fun g hg => hall g (List.mem_cons_of_mem _ hg)) hnodup.2
        intro g hg hmem
        rcases List.mem_cons.mp hmem with heq | hmem
        · exact hnodup.1 (heq ▸ List.mem_map_of_mem hg)
        · exact hseen g (List.mem_cons_of_mem _ hg) hmem
      · simp only [hdir, hbits, hformat, hslots, ne_eq, not_true_eq_false, false_or, not_or]
        exact ⟨Nat.not_le.mpr hidx, hseen f List.mem_cons_self⟩

section Complete

variable (h : Placed env segMd tables) (hhdrs : env.HeadersOnDevice segMd ts tables dev)
  (hts : ts ≠ 0)

include h hhdrs hts

/-- If all footers pass, the segments of the newest index are those of the directory. -/
theorem set_perm (hpass : env.AllPass ts tables dev) :
    ((newestSet (env.findFooters segMd dev)).map Found.seg).Perm (tables.map IndexTable.seg) := by
  apply (List.perm_ext_iff_of_nodup (nodup_newestSet nodup_findFooters) h.nodup).mpr
  intro seg
  rw [List.mem_map, List.mem_map]
  constructor
  · rintro ⟨f, hf, rfl⟩
    obtain ⟨idx, t, ht, -, rfl⟩ := (h.mem_set hhdrs hts).mp hf
    exact ⟨t, List.mem_of_getElem? ht, rfl⟩
  · rintro ⟨t, ht, rfl⟩
    obtain ⟨idx, ht⟩ := List.mem_iff_getElem?.mp ht
    exact ⟨_, (h.mem_set hhdrs hts).mpr ⟨idx, t, ht, hpass idx t ht, rfl⟩, rfl⟩

theorem length_set (hpass : env.AllPass ts tables dev) :
    (newestSet (env.findFooters segMd dev)).length = tables.length := by
  have hlen := (h.set_perm hhdrs hts hpass).length_eq
  rw [List.length_map, List.length_map] at hlen
  apply hlen

theorem allPass_of_length
    (hlen : tables.length ≤ (newestSet (env.findFooters segMd dev)).length) :
  env.AllPass ts tables dev
  := by
  have hsub :
      (newestSet (env.findFooters segMd dev)).map Found.seg ⊆ tables.map IndexTable.seg := by
    intro seg hseg
    obtain ⟨f, hf, rfl⟩ := List.mem_map.mp hseg
    obtain ⟨idx, t, ht, -, rfl⟩ := (h.mem_set hhdrs hts).mp hf
    exact List.mem_map.mpr ⟨t, List.mem_of_getElem? ht, rfl⟩
  have hperm : ((newestSet (env.findFooters segMd dev)).map Found.seg).Perm
      (tables.map IndexTable.seg) := by
    apply (List.subperm_of_subset (nodup_newestSet nodup_findFooters) hsub).perm_of_length_le
    rw [List.length_map, List.length_map]
    apply hlen
  intro idx t ht
  have hseg : t.seg ∈ (newestSet (env.findFooters segMd dev)).map Found.seg :=
    hperm.mem_iff.mpr (List.mem_map.mpr ⟨t, List.mem_of_getElem? ht, rfl⟩)
  obtain ⟨f, hf, hfseg⟩ := List.mem_map.mp hseg
  obtain ⟨idx', t', ht', hpass, rfl⟩ := (h.mem_set hhdrs hts).mp hf
  obtain ⟨rfl, rfl⟩ := h.eq_of_seg ht' ht hfseg
  apply hpass

/-- The places in the headers of the newest index are different. -/
theorem nodup_idx :
    ((newestSet (env.findFooters segMd dev)).map fun f => f.hdr.idx).Nodup := by
  apply List.Nodup.map_on _ (nodup_newestSet nodup_findFooters).of_map
  intro f hf g hg heq
  obtain ⟨idx, t, ht, -, rfl⟩ := (h.mem_set hhdrs hts).mp hf
  obtain ⟨idx', t', ht', -, rfl⟩ := (h.mem_set hhdrs hts).mp hg
  simp only [h.newHdr_idx ht, h.newHdr_idx ht'] at heq
  subst heq
  rw [ht] at ht'
  rw [Option.some.inj ht']

/-- The newest index is complete just if all footers pass. -/
theorem complete_iff :
    env.complete (newestSet (env.findFooters segMd dev)) = true ↔ env.AllPass ts tables dev := by
  have hmem := fun f : Found => h.mem_set (f := f) hhdrs hts
  constructor
  · intro hcomplete
    apply h.allPass_of_length hhdrs hts
    cases hset : newestSet (env.findFooters segMd dev) with
    | nil =>
        rw [hset] at hcomplete
        cases hcomplete
    | cons f fs =>
        rw [hset] at hcomplete hmem
        obtain ⟨idx, t, -, -, rfl⟩ := (hmem f).mp List.mem_cons_self
        simp only [complete, Bool.and_eq_true, beq_iff_eq] at hcomplete
        rw [hcomplete.1.2, h.newHdr_dirSize]
  · intro hpass
    have hlen := h.length_set hhdrs hts hpass
    have hnodup := h.nodup_idx hhdrs hts
    obtain ⟨b, hb, hsize⟩ := h.size
    cases hset : newestSet (env.findFooters segMd dev) with
    | nil =>
        rw [hset, hsize] at hlen
        exact absurd hlen.symm (Nat.two_pow_pos b).ne'
    | cons f fs =>
        rw [hset] at hlen hmem hnodup
        obtain ⟨idx, t, ht, -, hf⟩ := (hmem f).mp List.mem_cons_self
        have hdir : f.hdr.dirSize = tables.length := by rw [hf, h.newHdr_dirSize]
        have hfit : env.headersFit tables.length (f :: fs) [] = true := by
          apply headersFit_of_nodup _ hnodup (fun _ _ => List.not_mem_nil)
          intro g hg
          obtain ⟨idx', t', ht', -, rfl⟩ := (hmem g).mp hg
          rw [h.newHdr_dirSize, h.newHdr_idx ht']
          exact ⟨rfl, (List.getElem?_eq_some_iff.mp ht').1, rfl, rfl, rfl⟩
        simp only [complete, hdir, hlen, hfit, beq_self_eq_true, Bool.and_true]
        rw [hsize, hasSingleBit_two_pow, Bool.and_true, Bool.and_eq_true, bne_iff_ne]
        exact ⟨(Nat.two_pow_pos b).ne', decide_eq_true (Nat.pow_le_pow_right (by decide) hb)⟩

/-! ### The tables -/

/-- The tables are restored by their places. -/
theorem tablesOf_eq
    (hpass : env.AllPass ts tables dev) (ht : tables[idx]? = some t) :
  env.tablesOf dev (newestSet (env.findFooters segMd dev)) idx = some (env.loadTable dev t.seg)
  := by
  have hf := (h.mem_set hhdrs hts).mpr ⟨idx, t, ht, hpass idx t ht, rfl⟩
  rw [← tablesOf_of_mem (h.nodup_idx hhdrs hts) hf, h.newHdr_idx ht]

/-- The tables that are restored, in their order. -/
theorem restored_tables (hpass : env.AllPass ts tables dev) :
    (List.range (newestSet (env.findFooters segMd dev)).length).filterMap
      (env.tablesOf dev (newestSet (env.findFooters segMd dev)))
      = tables.map fun t => env.loadTable dev t.seg := by
  rw [h.length_set hhdrs hts hpass, filterMap_range_eq_map tables]
  intro idx t ht
  apply h.tablesOf_eq hhdrs hts hpass ht

end Complete

/-! ### Footers after a restore -/

theorem readIndexFtr_zero (off : Nat) :
    readIndexFtr (fun _ => 0) off = ⟨0, 0, 0, 0, 0, 0, 0, 0, 0⟩ := by
  simp [readIndexFtr, readLe]

/-- A footer that was cleared is empty. -/
theorem readFtrAt_cleared
    (h : Placed env segMd tables) {found : List Found} (hf : f ∈ found) :
  env.readFtrAt (found.foldl env.clearFooter dev) f.seg = ⟨0, 0, 0, 0, 0, 0, 0, 0, 0⟩
  := by
  rw [h.readFtrAt_eq, ← readIndexFtr_zero (env.geo.segOffset f.seg + env.geo.footerOffset)]
  apply readIndexFtr_congr
  intro d hd
  have hlt := h.footer_lt hd
  apply clearAll_of_inFooter h.accepts hf
  exact ⟨_, Nat.le_add_right _ _, hlt, Nat.add_assoc ..⟩

/-- The footers of other segments are as they were. -/
theorem readFtrAt_of_not_found
    (h : Placed env segMd tables) {found : List Found} {seg : Nat}
    (hseg : ∀ f ∈ found, f.seg ≠ seg) :
  env.readFtrAt (found.foldl env.clearFooter dev) seg = env.readFtrAt dev seg
  := by
  rw [h.readFtrAt_eq, h.readFtrAt_eq]
  apply readIndexFtr_congr
  intro d hd
  have hlt := h.footer_lt hd
  apply clearAll_of_outside h.accepts
  rintro f hf ⟨i, -, hi, heq⟩
  rw [Nat.add_assoc] at heq
  exact hseg f hf (Geometry.seg_eq_of_cell hlt hi heq).symm

end Placed

end UDepot
