import Mathlib.Algebra.BigOperators.Group.List.Basic
import Mathlib.Algebra.Order.Ring.Nat
import Mathlib.Data.List.Sort

/-!
# Records and the walk of a segment

A record (`store.h`) is a header, the key, the value and a checksum, in whole grains.  A
tombstone is a record with the reserved value size and no value bytes.  A record is read back
in the log walk of crash recovery, which looks at every grain of a segment that no earlier
record covers and accepts what passes the header, size and checksum tests.
-/

namespace UDepot

abbrev Bytes := List UInt8

/-- The sizes an open store works with, in grains but for the grain itself. -/
structure Geometry where
  grainSize : Nat
  segSize : Nat
  segMdGrains : Nat
  numSegments : Nat
  grainSize_pos : 0 < grainSize
  segMdGrains_lt : segMdGrains < segSize

/-- A grain may be a sector of 512 bytes. -/
theorem Geometry.sector_pos : 0 < 512 := by decide

/-- Four segments of eight grains, of which one is for the metadata. -/
def Geometry.small : Geometry := ⟨512, 8, 1, 4, Geometry.sector_pos, Nat.one_lt_succ_succ 6⟩

/-- The size of a `KvHeader`. -/
def kKvHeaderBytes : Nat := 14

/-- The size of a `KvSuffix`. -/
def kKvSuffixBytes : Nat := 2

/-- The largest size an entry can hold, `HashEntry::kKvSizeMask`. -/
def kKvSizeMask : Nat := 2 ^ 11 - 1

/-- The value size of a tombstone. -/
def kTombstoneValSize : Nat := 2 ^ 32 - 1

structure KvHeader where
  keySize : Nat
  valSize : Nat
  timestamp : Nat
  deriving DecidableEq, Repr

def isTombstone (hdr : KvHeader) : Bool := hdr.valSize == kTombstoneValSize

/-- The value bytes a record holds. -/
def recordValBytes (hdr : KvHeader) : Nat := if isTombstone hdr then 0 else hdr.valSize

def kvTotalBytes (keySize valSize : Nat) : Nat :=
  kKvHeaderBytes + keySize + valSize + kKvSuffixBytes

namespace Geometry

variable (geo : Geometry)

def kvTotalGrains (keySize valSize : Nat) : Nat :=
  (kvTotalBytes keySize valSize + geo.grainSize - 1) / geo.grainSize

/-- The bytes of a read of a header and a key, in whole grains. -/
def alignedKeyBytes (keySize : Nat) : Nat :=
  (kKvHeaderBytes + keySize + geo.grainSize - 1) / geo.grainSize * geo.grainSize

/-- The sizes of a key and a value that a record can hold, `check_sizes`. -/
def checkSizes (keySize valSize : Nat) : Bool :=
  keySize != 0 && keySize ≤ 2 ^ 16 - 1 && valSize < kTombstoneValSize
    && geo.kvTotalGrains keySize valSize ≤ kKvSizeMask

/-- The segment of a grain, `grain_to_seg_idx`. -/
def segOf (pba : Nat) : Nat := pba / geo.segSize

def segBase (seg : Nat) : Nat := seg * geo.segSize

/-- The grains of a segment less its metadata. -/
def dataGrains : Nat := geo.segSize - geo.segMdGrains

theorem kvTotalGrains_pos (keySize valSize : Nat) : 0 < geo.kvTotalGrains keySize valSize := by
  apply Nat.div_pos _ geo.grainSize_pos
  have hpos := geo.grainSize_pos
  rw [kvTotalBytes, kKvHeaderBytes]
  omega

theorem kvTotalGrains_mono {keySize valSize valSize' : Nat} (hle : valSize ≤ valSize') :
    geo.kvTotalGrains keySize valSize ≤ geo.kvTotalGrains keySize valSize' := by
  apply Nat.div_le_div_right
  rw [kvTotalBytes, kvTotalBytes]
  omega

/-- The grains of a record hold all of it. -/
theorem kvTotalBytes_le (keySize valSize : Nat) :
    kvTotalBytes keySize valSize ≤ geo.kvTotalGrains keySize valSize * geo.grainSize := by
  have hpos := geo.grainSize_pos
  have hlt := Nat.lt_div_mul_add (a := kvTotalBytes keySize valSize + geo.grainSize - 1) hpos
  rw [kvTotalGrains]
  omega

/-- What is needed of a record is not longer than the record. -/
theorem alignedKeyBytes_le
    {geo : Geometry} {keySize grains : Nat} (h : kvTotalBytes keySize 0 ≤ grains * geo.grainSize) :
  geo.alignedKeyBytes keySize ≤ grains * geo.grainSize
  := by
  have hpos := geo.grainSize_pos
  apply Nat.mul_le_mul_right
  rw [kvTotalBytes, kKvSuffixBytes] at h
  apply Nat.le_of_lt_succ
  rw [Nat.div_lt_iff_lt_mul hpos, Nat.succ_mul]
  omega

theorem le_alignedKeyBytes (keySize : Nat) :
    kKvHeaderBytes + keySize ≤ geo.alignedKeyBytes keySize := by
  have hpos := geo.grainSize_pos
  have hlt := Nat.lt_div_mul_add (a := kKvHeaderBytes + keySize + geo.grainSize - 1) hpos
  rw [alignedKeyBytes]
  omega

theorem segSize_pos : 0 < geo.segSize := Nat.zero_lt_of_lt geo.segMdGrains_lt

theorem segOf_eq {seg pba : Nat} (hle : geo.segBase seg ≤ pba)
    (hlt : pba < geo.segBase seg + geo.dataGrains) : geo.segOf pba = seg := by
  rw [segBase] at hle hlt
  rw [dataGrains] at hlt
  apply Nat.div_eq_of_lt_le hle
  rw [Nat.succ_mul]
  omega

/-- A grain by its place in its segment. -/
theorem exists_place (pba : Nat) : ∃ k < geo.segSize, pba = geo.segBase (geo.segOf pba) + k := by
  use pba % geo.segSize, Nat.mod_lt pba geo.segSize_pos
  rw [segBase, segOf, Nat.div_add_mod']

end Geometry

/-- Whether the record at `newPba` is the newer one, by the timestamps of the segments. -/
def newerThan (geo : Geometry) (segTimestamps : Nat → Nat) (newPba oldPba : Nat) : Bool :=
  if geo.segOf oldPba ≠ geo.segOf newPba then
    segTimestamps (geo.segOf oldPba) < segTimestamps (geo.segOf newPba)
  else oldPba < newPba

/-! ### Reading a device -/

/-- The bytes of a device. -/
abbrev Device := Nat → UInt8

/-- A little-endian number of `n` bytes. -/
def readLe (dev : Device) (off : Nat) : Nat → Nat
  | 0 => 0
  | n + 1 => (dev off).toNat + 256 * readLe dev (off + 1) n

def readBytes (dev : Device) (off : Nat) : Nat → Bytes
  | 0 => []
  | n + 1 => dev off :: readBytes dev (off + 1) n

theorem readBytes_length (dev : Device) (off n : Nat) : (readBytes dev off n).length = n := by
  induction n generalizing off with
  | zero => rfl
  | succ n ih => simp [readBytes, ih]

def readHdr (dev : Device) (off : Nat) : KvHeader where
  keySize := readLe dev off 2
  valSize := readLe dev (off + 2) 4
  timestamp := readLe dev (off + 6) 8

/-- A record as the log walk hands it on. -/
structure LogRecord where
  key : Bytes
  timestamp : Nat
  tombstone : Bool
  grains : Nat
  pba : Nat
  deriving DecidableEq, Repr

/-- The recovery order of records: by segment timestamp, then by grain. -/
def LogRecord.Newer (a b : LogRecord) : Prop :=
  b.timestamp < a.timestamp ∨ b.timestamp = a.timestamp ∧ b.pba < a.pba

namespace LogRecord

instance : DecidableRel Newer := fun a b =>
  inferInstanceAs
    (Decidable (b.timestamp < a.timestamp ∨ b.timestamp = a.timestamp ∧ b.pba < a.pba))

instance : Std.Irrefl Newer where
  irrefl a h := by
    rw [Newer] at h
    omega

instance : Std.Asymm Newer where
  asymm a b h h' := by
    rw [Newer] at h h'
    omega

instance : IsTrans LogRecord Newer where
  trans a b c h h' := by
    rw [Newer] at h h' ⊢
    omega

end LogRecord

section Walk

/-- The record at a grain of a segment with timestamp `ts` whose records end at `endGrain`, if
what is there passes every test.  The checksum is an arbitrary function of the header. -/
def recordAt (geo : Geometry) (crc16 : KvHeader → Nat) (dev : Device) (ts endGrain grain : Nat) :
    Option LogRecord :=
  let off := grain * geo.grainSize
  let hdr := readHdr dev off
  let valBytes := recordValBytes hdr
  let grains := geo.kvTotalGrains hdr.keySize valBytes
  if hdr.keySize = 0 ∨ hdr.timestamp ≠ ts then none
  else if grains = 0 ∨ kKvSizeMask < grains ∨ endGrain < grain + grains then none
  else if readLe dev (off + kKvHeaderBytes + hdr.keySize + valBytes) 2 ≠ crc16 hdr then none
  else some ⟨readBytes dev (off + kKvHeaderBytes) hdr.keySize, hdr.timestamp, isTombstone hdr,
    grains, grain⟩

/-- The records of a segment from a grain on, in at most `n` steps. -/
def walk (geo : Geometry) (crc16 : KvHeader → Nat) (dev : Device) (ts endGrain : Nat) :
    Nat → Nat → List LogRecord
  | 0, _ => []
  | n + 1, grain =>
      if grain < endGrain then
        match recordAt geo crc16 dev ts endGrain grain with
        | none => walk geo crc16 dev ts endGrain n (grain + 1)
        | some r => r :: walk geo crc16 dev ts endGrain n (grain + r.grains)
      else []

variable {geo : Geometry} {crc16 : KvHeader → Nat} {dev : Device} {ts endGrain : Nat}

/-- What is known of an accepted record. -/
structure LogRecord.Accepted (geo : Geometry) (dev : Device) (r : LogRecord) : Prop where
  keySize : (readHdr dev (r.pba * geo.grainSize)).keySize = r.key.length
  key_ne : r.key.length ≠ 0
  key : readBytes dev (r.pba * geo.grainSize + kKvHeaderBytes) r.key.length = r.key
  grains_pos : 0 < r.grains
  grains_le : r.grains ≤ kKvSizeMask
  room : kvTotalBytes r.key.length 0 ≤ r.grains * geo.grainSize
  isTombstone : r.tombstone = isTombstone (readHdr dev (r.pba * geo.grainSize))
  size : r.grains
    = geo.kvTotalGrains r.key.length (recordValBytes (readHdr dev (r.pba * geo.grainSize)))

theorem LogRecord.Accepted.tombstone
    {r : LogRecord} (h : r.Accepted geo dev) (htomb : r.tombstone = true) :
  r.grains = geo.kvTotalGrains r.key.length 0
  := by
  rw [h.size, recordValBytes, if_pos (h.isTombstone.symm.trans htomb)]

theorem recordAt_eq_some
    {grain : Nat} {r : LogRecord} (h : recordAt geo crc16 dev ts endGrain grain = some r) :
  r.Accepted geo dev ∧ r.pba = grain ∧ r.timestamp = ts ∧ grain + r.grains ≤ endGrain
  := by
  unfold recordAt at h
  simp only at h
  set hdr := readHdr dev (grain * geo.grainSize) with hhdr
  split_ifs at h with h₁ h₂ h₃
  cases h
  rw [not_or, not_or] at h₂
  obtain ⟨hne, hmask, hend⟩ := h₂
  refine ⟨?_, rfl, ?_, by simpa using hend⟩
  · have hlen := readBytes_length dev (grain * geo.grainSize + kKvHeaderBytes) hdr.keySize
    refine ⟨?_, ?_, ?_, Nat.pos_of_ne_zero hne, by simpa using hmask, ?_, rfl, ?_⟩
    · rw [hlen]
    · rw [hlen]
      exact (not_or.mp h₁).1
    · rw [hlen]
    · rw [hlen]
      apply le_trans _ (geo.kvTotalBytes_le hdr.keySize (recordValBytes hdr))
      rw [kvTotalBytes, kvTotalBytes]
      omega
    · rw [hlen]
  · simpa using (not_or.mp h₁).2

/-- The records of a walk are accepted, lie between its start and the end of the segment, and
take disjoint grains in ascending order. -/
theorem walk_spec :
  ∀ (n grain : Nat), grain ≤ endGrain →
    (∀ r ∈ walk geo crc16 dev ts endGrain n grain, r.Accepted geo dev ∧ r.timestamp = ts
      ∧ grain ≤ r.pba ∧ r.pba + r.grains ≤ endGrain)
    ∧ (walk geo crc16 dev ts endGrain n grain).Pairwise (fun a b => a.pba + a.grains ≤ b.pba)
    ∧ grain + ((walk geo crc16 dev ts endGrain n grain).map LogRecord.grains).sum ≤ endGrain
  | 0, grain, hle => by simpa [walk] using hle
  | n + 1, grain, hle => by
      unfold walk
      split
      · rename_i hlt
        cases hr : recordAt geo crc16 dev ts endGrain grain with
        | none =>
            simp only
            obtain ⟨hall, hsorted, hsum⟩ := walk_spec n (grain + 1) hlt
            refine ⟨?_, hsorted, by omega⟩
            intro r hmem
            obtain ⟨h₁, h₂, h₃, h₄⟩ := hall r hmem
            exact ⟨h₁, h₂, by omega, h₄⟩
        | some r =>
            obtain ⟨hacc, hpba, hts, hend⟩ := recordAt_eq_some hr
            have hpos := hacc.grains_pos
            obtain ⟨hall, hsorted, hsum⟩ := walk_spec n (grain + r.grains) hend
            simp only [List.mem_cons, forall_eq_or_imp, List.pairwise_cons, List.map_cons,
              List.sum_cons]
            refine ⟨⟨⟨hacc, hts, by omega, by omega⟩, ?_⟩, ⟨?_, hsorted⟩, by omega⟩
            · intro r' hmem
              obtain ⟨h₁, h₂, h₃, h₄⟩ := hall r' hmem
              exact ⟨h₁, h₂, by omega, h₄⟩
            · intro r' hmem
              obtain ⟨-, -, h₃, -⟩ := hall r' hmem
              omega
      · simpa using hle

theorem walk_succ (n grain : Nat) :
    walk geo crc16 dev ts endGrain (n + 1) grain
      = if grain < endGrain then
          match recordAt geo crc16 dev ts endGrain grain with
          | none => walk geo crc16 dev ts endGrain n (grain + 1)
          | some r => r :: walk geo crc16 dev ts endGrain n (grain + r.grains)
        else [] :=
  rfl

/-- A walk of a segment ends after as many steps as there are grains: a larger bound makes no
difference. -/
theorem walk_bound :
  ∀ {n grain : Nat}, endGrain ≤ grain + n →
    walk geo crc16 dev ts endGrain (n + 1) grain = walk geo crc16 dev ts endGrain n grain
  | 0, grain, hle => by
      have hge : ¬ grain < endGrain := by omega
      rw [walk_succ, if_neg hge]
      rfl
  | n + 1, grain, hle => by
      rw [walk_succ (n + 1) grain, walk_succ n grain]
      split
      · cases hr : recordAt geo crc16 dev ts endGrain grain with
        | none =>
            simp only
            rw [walk_bound (by omega)]
        | some r =>
            have hpos := (recordAt_eq_some hr).1.grains_pos
            simp only
            rw [walk_bound (by omega)]
      · rfl

end Walk

end UDepot
