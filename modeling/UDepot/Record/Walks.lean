import Mathlib.Data.List.Pairwise
import UDepot.Lib.Loop
import UDepot.Record

/-!
# The two walks of a segment

Crash recovery and the garbage collector each read a net segment into a buffer and walk it.  The
two loops are written apart and test a header's fields in different order.  They hand on the same
records, and if a segment is made of records of its current life and of bytes that pass for none,
exactly those, in the order of their grains.
-/

namespace UDepot

section Tests

variable (geo : Geometry) (crc16 : KvHeader → Nat) (dev : Device) (ts endGrain : Nat)

/-- The record at a grain by the tests of `gc_callback`. -/
def gcRecordAt (grain : Nat) : Option LogRecord :=
  let off := grain * geo.grainSize
  let hdr := readHdr dev off
  let valBytes := recordValBytes hdr
  let grains := geo.kvTotalGrains hdr.keySize valBytes
  if hdr.keySize = 0 ∨ hdr.timestamp ≠ ts ∨ kKvSizeMask < grains ∨ endGrain < grain + grains then
    none
  else if readLe dev (off + kKvHeaderBytes + hdr.keySize + valBytes) 2 ≠ crc16 hdr then none
  else some ⟨readBytes dev (off + kKvHeaderBytes) hdr.keySize, hdr.timestamp, isTombstone hdr,
    grains, grain⟩

/-- The header at a grain. -/
def hdrAt (grain : Nat) : KvHeader := readHdr dev (grain * geo.grainSize)

/-- The grains of a record with the header at a grain. -/
def grainsAt (grain : Nat) : Nat :=
  geo.kvTotalGrains (hdrAt geo dev grain).keySize (recordValBytes (hdrAt geo dev grain))

/-- The checksum of a record with the header at a grain. -/
def suffixAt (grain : Nat) : Nat :=
  readLe dev (grain * geo.grainSize + kKvHeaderBytes + (hdrAt geo dev grain).keySize
    + recordValBytes (hdrAt geo dev grain)) 2

/-- What the bytes at a grain are if they are a record. -/
def recordOf (grain : Nat) : LogRecord where
  key := readBytes dev (grain * geo.grainSize + kKvHeaderBytes) (hdrAt geo dev grain).keySize
  timestamp := (hdrAt geo dev grain).timestamp
  tombstone := isTombstone (hdrAt geo dev grain)
  grains := grainsAt geo dev grain
  pba := grain

/-- The bytes at a grain pass for a record of a segment with timestamp `ts`. -/
structure Passes (grain : Nat) : Prop where
  keySize : (hdrAt geo dev grain).keySize ≠ 0
  timestamp : (hdrAt geo dev grain).timestamp = ts
  grains_le : grainsAt geo dev grain ≤ kKvSizeMask
  inside : grain + grainsAt geo dev grain ≤ endGrain
  crc : suffixAt geo dev grain = crc16 (hdrAt geo dev grain)

end Tests

variable {geo : Geometry} {crc16 : KvHeader → Nat} {dev dev' : Device} {ts endGrain grain : Nat}
  {r : LogRecord}

theorem gcRecordAt_eq_some :
    gcRecordAt geo crc16 dev ts endGrain grain = some r
      ↔ Passes geo crc16 dev ts endGrain grain ∧ r = recordOf geo dev grain := by
  unfold gcRecordAt
  simp only
  constructor
  · intro h
    split_ifs at h with h₁ h₂
    simp only [not_or, not_not, Nat.not_lt] at h₁ h₂
    obtain ⟨hkey, hts, hmask, hend⟩ := h₁
    exact ⟨⟨hkey, hts, hmask, hend, h₂⟩, (Option.some.inj h).symm⟩
  · rintro ⟨h, rfl⟩
    have hcrc : ¬ suffixAt geo dev grain ≠ crc16 (hdrAt geo dev grain) := not_not.mpr h.crc
    rw [if_neg, if_neg (by exact hcrc)]
    · rfl
    · rintro (hkey | hts | hmask | hend)
      · apply h.keySize hkey
      · apply hts h.timestamp
      · apply Nat.not_le_of_lt hmask h.grains_le
      · apply Nat.not_le_of_lt hend h.inside

/-- The tests of the two walks agree: a record is never of no grains. -/
theorem recordAt_eq_gcRecordAt :
    recordAt geo crc16 dev ts endGrain grain = gcRecordAt geo crc16 dev ts endGrain grain := by
  have hpos := geo.kvTotalGrains_pos (readHdr dev (grain * geo.grainSize)).keySize
    (recordValBytes (readHdr dev (grain * geo.grainSize)))
  unfold recordAt gcRecordAt
  simp only [hpos.ne', false_or]
  simp only [← ite_or, or_assoc]

theorem recordAt_iff_passes :
    recordAt geo crc16 dev ts endGrain grain = some r
      ↔ Passes geo crc16 dev ts endGrain grain ∧ r = recordOf geo dev grain := by
  rw [recordAt_eq_gcRecordAt, gcRecordAt_eq_some]

theorem recordAt_of_passes (h : Passes geo crc16 dev ts endGrain grain) :
    recordAt geo crc16 dev ts endGrain grain = some (recordOf geo dev grain) :=
  recordAt_iff_passes.mpr ⟨h, rfl⟩

/-! ### The bytes a walk depends on -/

theorem readLe_congr
    {off : Nat} : ∀ {n : Nat}, (∀ i, off ≤ i → i < off + n → dev i = dev' i) →
      readLe dev off n = readLe dev' off n
  | 0, _ => rfl
  | n + 1, h => by
      rw [readLe, readLe, h off le_rfl (by omega), readLe_congr]
      intro i hle hlt
      apply h i (by omega) (by omega)

theorem readBytes_congr
    {off : Nat} : ∀ {n : Nat}, (∀ i, off ≤ i → i < off + n → dev i = dev' i) →
      readBytes dev off n = readBytes dev' off n
  | 0, _ => rfl
  | n + 1, h => by
      rw [readBytes, readBytes, h off le_rfl (by omega), readBytes_congr]
      intro i hle hlt
      apply h i (by omega) (by omega)

theorem readHdr_congr
    {off : Nat} (h : ∀ i, off ≤ i → i < off + kKvHeaderBytes → dev i = dev' i) :
  readHdr dev off = readHdr dev' off
  := by
  rw [kKvHeaderBytes] at h
  have hread : ∀ a n, a + n ≤ 14 → readLe dev (off + a) n = readLe dev' (off + a) n := by
    intro a n hn
    apply readLe_congr
    intro i hle hlt
    apply h i (by omega) (by omega)
  rw [readHdr, readHdr, hread 2 4 (by decide), hread 6 8 (by decide)]
  congr 1
  apply hread 0 2 (by decide)

/-- The bytes of the segment from a grain on. -/
def AgreeFrom (geo : Geometry) (endGrain grain : Nat) (dev dev' : Device) : Prop :=
  ∀ i, grain * geo.grainSize ≤ i → i < endGrain * geo.grainSize → dev i = dev' i

theorem AgreeFrom.symm (h : AgreeFrom geo endGrain grain dev dev') :
    AgreeFrom geo endGrain grain dev' dev := fun i hle hlt => (h i hle hlt).symm

theorem AgreeFrom.mono
    {grain' : Nat} (h : AgreeFrom geo endGrain grain dev dev') (hle : grain ≤ grain') :
  AgreeFrom geo endGrain grain' dev dev'
  := by
  intro i hi hlt
  apply h i ((Nat.mul_le_mul_right _ hle).trans hi) hlt

/-- A record that passes is in the segment with all its bytes. -/
theorem Passes.bytes_inside (h : Passes geo crc16 dev ts endGrain grain) :
    grain * geo.grainSize + kvTotalBytes (hdrAt geo dev grain).keySize
      (recordValBytes (hdrAt geo dev grain)) ≤ endGrain * geo.grainSize := by
  apply le_trans (Nat.add_le_add_left (geo.kvTotalBytes_le _ _) _)
  rw [← Nat.add_mul]
  apply Nat.mul_le_mul_right _ h.inside

/-- A record passes by the bytes of its segment alone. -/
theorem Passes.congr
    (h : Passes geo crc16 dev ts endGrain grain) (hagree : AgreeFrom geo endGrain grain dev dev') :
  Passes geo crc16 dev' ts endGrain grain ∧ recordOf geo dev' grain = recordOf geo dev grain
  := by
  have hinside := h.bytes_inside
  rw [kvTotalBytes] at hinside
  have hhdr : hdrAt geo dev' grain = hdrAt geo dev grain := by
    apply readHdr_congr
    intro i hle hlt
    apply (hagree i hle (by omega)).symm
  have hsuffix : suffixAt geo dev' grain = suffixAt geo dev grain := by
    rw [suffixAt, suffixAt, hhdr]
    apply readLe_congr
    intro i hle hlt
    rw [kKvSuffixBytes] at hinside
    apply (hagree i (by omega) (by omega)).symm
  have hkey : readBytes dev' (grain * geo.grainSize + kKvHeaderBytes) (hdrAt geo dev grain).keySize
      = readBytes dev (grain * geo.grainSize + kKvHeaderBytes) (hdrAt geo dev grain).keySize := by
    apply readBytes_congr
    intro i hle hlt
    apply (hagree i (by omega) (by omega)).symm
  have hgrains : grainsAt geo dev' grain = grainsAt geo dev grain := by
    rw [grainsAt, grainsAt, hhdr]
  obtain ⟨hkeySize, hts, hmask, hend, hcrc⟩ := h
  rw [← hhdr] at hkeySize hts
  rw [← hgrains] at hmask hend
  refine ⟨⟨hkeySize, hts, hmask, hend, ?_⟩, ?_⟩
  · rw [hsuffix, hhdr, hcrc]
  · rw [recordOf, recordOf, hgrains, hhdr, hkey]

theorem recordAt_congr (hagree : AgreeFrom geo endGrain grain dev dev') :
    recordAt geo crc16 dev' ts endGrain grain = recordAt geo crc16 dev ts endGrain grain := by
  apply Option.ext
  intro r
  rw [recordAt_iff_passes, recordAt_iff_passes]
  constructor
  · rintro ⟨h, rfl⟩
    obtain ⟨hpasses, heq⟩ := h.congr hagree.symm
    exact ⟨hpasses, heq.symm⟩
  · rintro ⟨h, rfl⟩
    obtain ⟨hpasses, heq⟩ := h.congr hagree
    exact ⟨hpasses, heq.symm⟩

/-- A walk depends on the bytes of the segment alone. -/
theorem walk_congr :
  ∀ {n grain : Nat}, AgreeFrom geo endGrain grain dev dev' →
    walk geo crc16 dev' ts endGrain n grain = walk geo crc16 dev ts endGrain n grain
  | 0, _, _ => rfl
  | n + 1, grain, hagree => by
      rw [walk_succ, walk_succ, recordAt_congr hagree]
      split
      · cases recordAt geo crc16 dev ts endGrain grain with
        | none => apply walk_congr (hagree.mono (Nat.le_succ _))
        | some r =>
            simp only
            rw [walk_congr (hagree.mono (Nat.le_add_right _ _))]
      · rfl

/-! ### The loops -/

section Loops

variable {σ : Type} (handle : σ → LogRecord → σ × Int)

/-- Hand records on until a call fails. -/
def handOn : σ → List LogRecord → σ × Int
  | s, [] => (s, 0)
  | s, r :: rs =>
      let (s', rc) := handle s r
      if rc ≠ 0 then (s', rc) else handOn s' rs

/-- A turn of the walk of `crash_recovery`, which hands records on to `recover_record`. -/
def crashTurn (geo : Geometry) (crc16 : KvHeader → Nat) (seg : Device) (ts endGrain : Nat) :
    Nat × σ → Loop.Turn (Nat × σ) (σ × Int)
  | (grain, s) =>
      if grain < endGrain then
        match recordAt geo crc16 seg ts endGrain grain with
        | none => .again (grain + 1, s)
        | some r =>
            let (s', rc) := handle s r
            if rc ≠ 0 then .done (s', rc) else .again (grain + r.grains, s')
      else .done (s, 0)

/-- A turn of the walk of `gc_callback`, which hands records on to `gc_record`. -/
def gcTurn (geo : Geometry) (crc16 : KvHeader → Nat) (seg : Device) (ts endGrain : Nat) :
    Nat × σ × Int → Loop.Turn (Nat × σ × Int) (σ × Int)
  | (grain, s, rc) =>
      if grain < endGrain ∧ rc = 0 then
        match gcRecordAt geo crc16 seg ts endGrain grain with
        | none => .again (grain + 1, s, rc)
        | some r => .again (grain + r.grains, handle s r)
      else .done (s, rc)

theorem run_crashTurn :
  ∀ {n grain : Nat} {s : σ}, endGrain ≤ grain + n →
    Loop.run (crashTurn handle geo crc16 dev ts endGrain) (n + 1) (grain, s)
      = some (handOn handle s (walk geo crc16 dev ts endGrain n grain))
  | 0, grain, s, hle => by
      apply Loop.run_done
      rw [crashTurn, if_neg (by omega)]
      rfl
  | n + 1, grain, s, hle => by
      rw [walk_succ]
      by_cases hlt : grain < endGrain
      · rw [if_pos hlt]
        cases hr : recordAt geo crc16 dev ts endGrain grain with
        | none =>
            have hturn : crashTurn handle geo crc16 dev ts endGrain (grain, s)
                = .again (grain + 1, s) := by
              rw [crashTurn, if_pos hlt, hr]
            rw [Loop.run_again hturn]
            apply run_crashTurn
            omega
        | some r =>
            have hpos := (recordAt_eq_some hr).1.grains_pos
            simp only
            rw [handOn, Loop.run, crashTurn, if_pos hlt, hr]
            simp only
            split_ifs with hrc
            · rfl
            · apply run_crashTurn
              omega
      · rw [if_neg hlt]
        apply Loop.run_done
        rw [crashTurn, if_neg hlt]
        rfl

/-- The walk of the collector ends one turn after a call fails. -/
theorem run_gcTurn_of_failed
    {n grain : Nat} {s : σ} {rc : Int} (hrc : rc ≠ 0) :
  Loop.run (gcTurn handle geo crc16 dev ts endGrain) (n + 1) (grain, s, rc) = some (s, rc)
  := by
  apply Loop.run_done
  rw [gcTurn, if_neg (fun h => hrc h.2)]

theorem run_gcTurn :
  ∀ {n grain : Nat} {s : σ}, endGrain ≤ grain + n →
    Loop.run (gcTurn handle geo crc16 dev ts endGrain) (n + 1) (grain, s, 0)
      = some (handOn handle s (walk geo crc16 dev ts endGrain n grain))
  | 0, grain, s, hle => by
      apply Loop.run_done
      rw [gcTurn, if_neg (by omega)]
      rfl
  | n + 1, grain, s, hle => by
      rw [walk_succ]
      by_cases hlt : grain < endGrain
      · rw [if_pos hlt]
        cases hr : recordAt geo crc16 dev ts endGrain grain with
        | none =>
            have hturn : gcTurn handle geo crc16 dev ts endGrain (grain, s, 0)
                = .again (grain + 1, s, 0) := by
              rw [gcTurn, if_pos ⟨hlt, rfl⟩, ← recordAt_eq_gcRecordAt, hr]
            rw [Loop.run_again hturn]
            apply run_gcTurn
            omega
        | some r =>
            have hpos := (recordAt_eq_some hr).1.grains_pos
            have hturn : gcTurn handle geo crc16 dev ts endGrain (grain, s, 0)
                = .again (grain + r.grains, handle s r) := by
              rw [gcTurn, if_pos ⟨hlt, rfl⟩, ← recordAt_eq_gcRecordAt, hr]
            rw [Loop.run_again hturn]
            simp only
            rw [handOn]
            obtain ⟨s', rc⟩ := handle s r
            simp only
            split_ifs with hrc
            · apply run_gcTurn_of_failed handle hrc
            · rw [not_not.mp hrc]
              apply run_gcTurn
              omega
      · rw [if_neg hlt]
        apply Loop.run_done
        rw [gcTurn, if_neg (fun h => hlt h.1)]
        rfl

end Loops

/-! ### Layouts of a segment -/

/-- A complete record or tombstone of this life of its segment. -/
structure Written (geo : Geometry) (crc16 : KvHeader → Nat) (dev : Device) (ts : Nat)
    (r : LogRecord) : Prop where
  record : r = recordOf geo dev r.pba
  timestamp : (hdrAt geo dev r.pba).timestamp = ts
  crc : suffixAt geo dev r.pba = crc16 (hdrAt geo dev r.pba)
  sizes : geo.checkSizes (hdrAt geo dev r.pba).keySize
    (recordValBytes (hdrAt geo dev r.pba)) = true

/-- Two records do not meet. -/
def LogRecord.Apart (a b : LogRecord) : Prop :=
  a.pba + a.grains ≤ b.pba ∨ b.pba + b.grains ≤ a.pba

instance : Std.Symm LogRecord.Apart where
  symm _ _ h := h.symm

/-- A segment whose net grains from `base` on are made of the given records, in ranges that do not
meet, and of bytes of which nothing else passes for a record. -/
structure Layout (geo : Geometry) (crc16 : KvHeader → Nat) (dev : Device) (ts base endGrain : Nat)
    (layout : List LogRecord) : Prop where
  written : ∀ r ∈ layout, Written geo crc16 dev ts r
  inside : ∀ r ∈ layout, base ≤ r.pba ∧ r.pba + r.grains ≤ endGrain
  apart : layout.Pairwise LogRecord.Apart
  others : ∀ grain, base ≤ grain → grain < endGrain →
    (∀ r ∈ layout, ¬ (r.pba ≤ grain ∧ grain < r.pba + r.grains)) →
    ¬ Passes geo crc16 dev ts endGrain grain

theorem Written.passes
    (h : Written geo crc16 dev ts r) (hinside : r.pba + r.grains ≤ endGrain) :
  Passes geo crc16 dev ts endGrain r.pba
  := by
  have hgrains : grainsAt geo dev r.pba = r.grains := by
    conv_rhs => rw [h.record]
    rfl
  have hsizes := h.sizes
  simp only [Geometry.checkSizes, Bool.and_eq_true, bne_iff_ne, ne_eq, decide_eq_true_eq] at hsizes
  refine ⟨hsizes.1.1.1, h.timestamp, hsizes.2, ?_, h.crc⟩
  rwa [hgrains]

theorem Written.recordAt
    (h : Written geo crc16 dev ts r) (hinside : r.pba + r.grains ≤ endGrain) :
  recordAt geo crc16 dev ts endGrain r.pba = some r
  := by
  rw [recordAt_of_passes (h.passes hinside), ← h.record]

theorem Written.grains_pos (h : Written geo crc16 dev ts r) : 0 < r.grains := by
  rw [h.record]
  apply geo.kvTotalGrains_pos

namespace Layout

variable {base : Nat} {layout : List LogRecord}

/-- What passes for a record where none is begun before and not ended is a record of the layout. -/
theorem mem_of_passes
    (h : Layout geo crc16 dev ts base endGrain layout) (hbase : base ≤ grain)
    (hlt : grain < endGrain) (hbegin : ∀ r ∈ layout, ¬ (r.pba < grain ∧ grain < r.pba + r.grains))
    (hr : recordAt geo crc16 dev ts endGrain grain = some r) :
  r ∈ layout ∧ r.pba = grain
  := by
  have hcovered : ∃ r' ∈ layout, r'.pba ≤ grain ∧ grain < r'.pba + r'.grains := by
    by_contra hnone
    apply h.others grain hbase hlt _ (recordAt_iff_passes.mp hr).1
    intro r' hr' hcov
    exact hnone ⟨r', hr', hcov⟩
  obtain ⟨r', hr', hle, hend⟩ := hcovered
  have hpba : r'.pba = grain := by
    by_contra hne
    apply hbegin r' hr' ⟨by omega, hend⟩
  have hat := (h.written r' hr').recordAt (h.inside r' hr').2
  rw [hpba, hr] at hat
  cases hat
  exact ⟨hr', hpba⟩

/-- A walk finds the records of the layout from a grain on. -/
theorem mem_walk
    (h : Layout geo crc16 dev ts base endGrain layout) :
  ∀ {n grain : Nat}, endGrain ≤ grain + n → base ≤ grain →
    (∀ r ∈ layout, ¬ (r.pba < grain ∧ grain < r.pba + r.grains)) →
    ∀ r, r ∈ walk geo crc16 dev ts endGrain n grain ↔ r ∈ layout ∧ grain ≤ r.pba
  | 0, grain, hle, _, _, r => by
      simp only [walk, List.not_mem_nil, false_iff, not_and]
      intro hr
      have hpos := (h.written r hr).grains_pos
      have hend := (h.inside r hr).2
      omega
  | n + 1, grain, hle, hbase, hbegin, r => by
      rw [walk_succ]
      by_cases hlt : grain < endGrain
      · rw [if_pos hlt]
        cases hat : recordAt geo crc16 dev ts endGrain grain with
        | none =>
            have hnot : ∀ r' ∈ layout, r'.pba ≠ grain := by
              rintro r' hr' rfl
              rw [(h.written r' hr').recordAt (h.inside r' hr').2] at hat
              cases hat
            have hbegin' : ∀ r' ∈ layout,
                ¬ (r'.pba < grain + 1 ∧ grain + 1 < r'.pba + r'.grains) := by
              intro r' hr' hmeet
              have hne := hnot r' hr'
              apply hbegin r' hr'
              omega
            rw [mem_walk h (by omega) (by omega) hbegin' r]
            apply and_congr_right
            intro hr
            have hne := hnot r hr
            omega
        | some r₁ =>
            obtain ⟨hr₁, rfl⟩ := h.mem_of_passes hbase hlt hbegin hat
            have hpos := (h.written r₁ hr₁).grains_pos
            have hbegin' : ∀ r' ∈ layout,
                ¬ (r'.pba < r₁.pba + r₁.grains ∧ r₁.pba + r₁.grains < r'.pba + r'.grains) := by
              intro r' hr' hmeet
              by_cases hne : r' = r₁
              · subst hne
                omega
              · have hapart := h.apart.forall hr' hr₁ hne
                rw [LogRecord.Apart] at hapart
                omega
            rw [List.mem_cons, mem_walk h (by omega) (by omega) hbegin' r]
            constructor
            · rintro (rfl | ⟨hr, hpba⟩)
              · exact ⟨hr₁, le_rfl⟩
              · exact ⟨hr, by omega⟩
            · rintro ⟨hr, hpba⟩
              by_cases hne : r = r₁
              · left
                apply hne
              · right
                have hapart := h.apart.forall hr hr₁ hne
                rw [LogRecord.Apart] at hapart
                have hpos' := (h.written r hr).grains_pos
                exact ⟨hr, by omega⟩
      · rw [if_neg hlt]
        simp only [List.not_mem_nil, false_iff, not_and]
        intro hr
        have hpos := (h.written r hr).grains_pos
        have hend := (h.inside r hr).2
        omega

theorem nodup (h : Layout geo crc16 dev ts base endGrain layout) : layout.Nodup := by
  apply List.Pairwise.imp_of_mem _ h.apart
  rintro a b ha - hapart rfl
  have hpos := (h.written a ha).grains_pos
  rw [LogRecord.Apart] at hapart
  omega

end Layout

/-- The records of a walk take disjoint grains, in ascending order. -/
theorem walk_apart :
  ∀ {n grain : Nat}, grain ≤ endGrain →
    (walk geo crc16 dev ts endGrain n grain).Pairwise fun a b => a.pba + a.grains ≤ b.pba
  | 0, _, _ => .nil
  | n + 1, grain, hle => by
      rw [walk_succ]
      split
      · rename_i hlt
        cases hr : recordAt geo crc16 dev ts endGrain grain with
        | none => apply walk_apart hlt
        | some r =>
            obtain ⟨-, rfl, -, hend⟩ := recordAt_eq_some hr
            simp only [List.pairwise_cons]
            refine ⟨?_, walk_apart hend⟩
            intro r' hr'
            apply ((walk_spec n _ hend).1 r' hr').2.2.1
      · apply List.Pairwise.nil

theorem walk_nodup (n : Nat) (hle : grain ≤ endGrain) :
    (walk geo crc16 dev ts endGrain n grain).Nodup := by
  apply List.Pairwise.imp_of_mem _ (walk_apart hle)
  rintro a b ha - hapart rfl
  have hpos := ((walk_spec n grain hle).1 a ha).1.grains_pos
  omega

/-- The buffer the net grains of a segment are read into, at the addresses of the device, and what
is around it. -/
def segBuffer (geo : Geometry) (dev : Device) (base endGrain : Nat) (heap : Device) : Device :=
  fun i =>
    if base * geo.grainSize ≤ i ∧ i < endGrain * geo.grainSize then dev i else heap i

theorem agreeFrom_segBuffer (heap : Device) :
    AgreeFrom geo endGrain grain dev (segBuffer geo dev grain endGrain heap) := by
  intro i hle hlt
  rw [segBuffer, if_pos ⟨hle, hlt⟩]

/-- Both walks of a segment end, for every content, and hand on the same records until a call
fails: records that lie in the net segment, in ascending order and apart.  If the segment is laid
out in records of its life and bytes that pass for none, they are the records of the layout. -/
theorem walks_hand_on
    (geo : Geometry) (crc16 : KvHeader → Nat) (dev : Device) (ts seg : Nat) :
  ∃ rs : List LogRecord,
    (∀ (σ : Type) (handle : σ → LogRecord → σ × Int) (s : σ) (heap : Device),
      (∃ n, Loop.run (crashTurn handle geo crc16
          (segBuffer geo dev (geo.segBase seg) (geo.segBase seg + geo.dataGrains) heap) ts
          (geo.segBase seg + geo.dataGrains)) n (geo.segBase seg, s) = some (handOn handle s rs))
      ∧ ∃ n, Loop.run (gcTurn handle geo crc16
          (segBuffer geo dev (geo.segBase seg) (geo.segBase seg + geo.dataGrains) heap) ts
          (geo.segBase seg + geo.dataGrains)) n (geo.segBase seg, s, 0) = some (handOn handle s rs))
    ∧ rs.Pairwise (fun a b => a.pba + a.grains ≤ b.pba)
    ∧ (∀ r ∈ rs, geo.segBase seg ≤ r.pba ∧ r.pba + r.grains ≤ geo.segBase seg + geo.dataGrains)
    ∧ ∀ layout,
      Layout geo crc16 dev ts (geo.segBase seg) (geo.segBase seg + geo.dataGrains) layout →
        rs.Perm layout
  := by
  set base := geo.segBase seg
  set endGrain := base + geo.dataGrains
  have hle : base ≤ endGrain := Nat.le_add_right _ _
  have hfuel : endGrain ≤ base + geo.dataGrains := le_rfl
  refine ⟨walk geo crc16 dev ts endGrain geo.dataGrains base, ?_, walk_apart hle, ?_, ?_⟩
  · intro σ handle s heap
    rw [← walk_congr (agreeFrom_segBuffer heap)]
    exact ⟨⟨_, run_crashTurn handle hfuel⟩, ⟨_, run_gcTurn handle hfuel⟩⟩
  · intro r hr
    obtain ⟨-, -, hbase, hend⟩ := (walk_spec _ base hle).1 r hr
    exact ⟨hbase, hend⟩
  · intro layout hlayout
    rw [List.perm_ext_iff_of_nodup (walk_nodup _ hle) hlayout.nodup]
    intro r
    have hbegin : ∀ r ∈ layout, ¬ (r.pba < base ∧ base < r.pba + r.grains) := by
      rintro r hr ⟨hlt, -⟩
      have hbase := (hlayout.inside r hr).1
      omega
    rw [hlayout.mem_walk hfuel le_rfl hbegin r]
    constructor
    · rintro ⟨hr, -⟩
      apply hr
    · intro hr
      exact ⟨hr, (hlayout.inside r hr).1⟩

end UDepot
