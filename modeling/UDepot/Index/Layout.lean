import UDepot.HashTable.Packed
import UDepot.Open.Geometry
import UDepot.Record.Format
import UDepot.Recovery

/-!
# The index on the device

Every hash table has an index segment of its own and lives in a mapping of it: a header, the
slots, and a footer at the very end of the net segment.  `flush_index` writes the tables back, the
footers only once every table is on the device, and `restore_index` reads them at the next open if
all of them are there.  A write or a read of a table is made in chunks.  A segment's metadata is at
its end, past what a table uses, and is taken as it is (`Image`).
-/

namespace UDepot

open Memory

/-- How a persisted table's entries are to be read. -/
def kIndexFormat : Nat := 1

def kIndexIoChunk : Nat := 4 * 2 ^ 20

structure IndexHdr where
  dirSize : Nat
  idx : Nat
  csum : Nat
  ts : Nat
  indexBits : Nat
  format : Nat
  slotNr : Nat
  deriving DecidableEq, Repr

structure IndexFtr where
  dirSize : Nat
  idx : Nat
  csum : Nat
  ts : Nat
  usedBytesKv : Nat
  totBytesKv : Nat
  indexBits : Nat
  format : Nat
  slotNr : Nat
  deriving DecidableEq, Repr

def sameIdentity (h : IndexHdr) (f : IndexFtr) : Bool :=
  h.dirSize == f.dirSize && h.idx == f.idx && h.ts == f.ts && h.indexBits == f.indexBits
    && h.format == f.format && h.slotNr == f.slotNr

/-- The bytes of a header, a packed structure. -/
def IndexHdr.encode (h : IndexHdr) : Bytes :=
  leBytes 2 h.dirSize ++ (leBytes 2 h.idx ++ (leBytes 4 h.csum ++ (leBytes 8 h.ts
    ++ (leBytes 4 h.indexBits ++ (leBytes 4 h.format ++ leBytes 8 h.slotNr)))))

/-- The bytes of a footer, a packed structure. -/
def IndexFtr.encode (f : IndexFtr) : Bytes :=
  leBytes 2 f.dirSize ++ (leBytes 2 f.idx ++ (leBytes 4 f.csum ++ (leBytes 8 f.ts
    ++ (leBytes 8 f.usedBytesKv ++ (leBytes 8 f.totBytesKv
      ++ (leBytes 4 f.indexBits ++ (leBytes 4 f.format ++ leBytes 8 f.slotNr)))))))

def readIndexHdr (m : Device) (off : Nat) : IndexHdr where
  dirSize := readLe m off 2
  idx := readLe m (off + 2) 2
  csum := readLe m (off + 4) 4
  ts := readLe m (off + 8) 8
  indexBits := readLe m (off + 16) 4
  format := readLe m (off + 20) 4
  slotNr := readLe m (off + 24) 8

def readIndexFtr (m : Device) (off : Nat) : IndexFtr where
  dirSize := readLe m off 2
  idx := readLe m (off + 2) 2
  csum := readLe m (off + 4) 4
  ts := readLe m (off + 8) 8
  usedBytesKv := readLe m (off + 16) 8
  totBytesKv := readLe m (off + 24) 8
  indexBits := readLe m (off + 32) 4
  format := readLe m (off + 36) 4
  slotNr := readLe m (off + 40) 8

/-- The size of an `IndexHdr`. -/
def kIndexHdrBytes : Nat := 32

/-- The size of an `IndexFtr`. -/
def kIndexFtrBytes : Nat := 48

/-- What the index depends on: the geometry, and the checksums of headers and footers, which are
bound to the seed of the device. -/
structure IndexEnv where
  geo : Geometry
  hdrCsum : IndexHdr → UInt32
  ftrCsum : IndexFtr → UInt32

namespace Geometry

variable (geo : Geometry)

/-- The bytes of a net segment. -/
def netBytes : Nat := geo.dataGrains * geo.grainSize

/-- The bytes read and written for a header or a footer. -/
def mdChunk : Nat := alignUp kIndexMdBytes geo.grainSize

/-- The bits of the number of buckets a net segment holds, 0 if it holds too few. -/
def indexBitsFor (netBytes : Nat) : Nat :=
  if netBytes < 2 * kIndexMdBytes then 0
  else
    let slots := (netBytes - 2 * kIndexMdBytes) / 8
    if slots ≤ kHopRange + 1 then 0 else Nat.log2 (slots - kHopRange)

/-- The bits of the number of buckets of a table. -/
def indexBits : Nat := indexBitsFor geo.netBytes

/-- The slots of a table. -/
def slotNr : Nat := 2 ^ geo.indexBits + kHopRange

/-- The bytes from the beginning of a table's segment to the end of its slots. -/
def usedBytes : Nat := kIndexMdBytes + geo.slotNr * 8

/-- The bytes of a table that are written back and read, in whole grains. -/
def usedGrainBytes : Nat := alignUp geo.usedBytes geo.grainSize

/-- The place of the footer in a net segment. -/
def footerOffset : Nat := geo.netBytes - kIndexMdBytes

/-- The byte a segment begins at. -/
def segOffset (seg : Nat) : Nat := geo.segBase seg * geo.grainSize

/-- Whether `create_directory` makes tables in segments of this size. -/
def acceptsTables : Bool := geo.indexBits != 0 && 2 * geo.mdChunk ≤ geo.netBytes

end Geometry

namespace IndexEnv

variable (env : IndexEnv)

/-- The checksum of a header, `index_md_csum`. -/
def hdrMdCsum (h : IndexHdr) : Nat := (env.hdrCsum { h with csum := 0 }).toNat

/-- The checksum of a footer, `index_md_csum`. -/
def ftrMdCsum (f : IndexFtr) : Nat := (env.ftrCsum { f with csum := 0 }).toNat

end IndexEnv

/-- A table in the mapping of its segment. -/
structure IndexTable where
  seg : Nat
  mem : Buffer

/-- The word of a slot. -/
def IndexTable.loadSlot (t : IndexTable) (i : Nat) : Nat := readLe t.mem (kIndexMdBytes + i * 8) 8

/-! ### Writing the index -/

namespace IndexEnv

variable (env : IndexEnv) (ts dirSize : Nat)

/-- The header of a table. -/
def newHdr (idx : Nat) : IndexHdr :=
  let h : IndexHdr :=
    ⟨dirSize % 2 ^ 16, idx % 2 ^ 16, 0, ts, env.geo.indexBits, kIndexFormat, env.geo.slotNr⟩
  { h with csum := env.hdrMdCsum h }

/-- The footer of a table. -/
def newFtr (idx : Nat) : IndexFtr :=
  let f : IndexFtr :=
    ⟨dirSize % 2 ^ 16, idx % 2 ^ 16, 0, ts, 0, 0, env.geo.indexBits, kIndexFormat, env.geo.slotNr⟩
  { f with csum := env.ftrMdCsum f }

/-- A table's mapping with its header. -/
def hdrMem (idx : Nat) (t : IndexTable) : Buffer :=
  write (write t.mem 0 (List.replicate kIndexMdBytes 0)) 0 (env.newHdr ts dirSize idx).encode

/-- A table's mapping with its header and its footer. -/
def ftrMem (idx : Nat) (t : IndexTable) : Buffer :=
  write (write (env.hdrMem ts dirSize idx t) env.geo.footerOffset (List.replicate kIndexMdBytes 0))
    env.geo.footerOffset (env.newFtr ts dirSize idx).encode

/-- The writes that bring a part of a mapping to its segment, `write_back`. -/
def writeBack (seg : Nat) (mem : Buffer) (lo hi : Nat) : List (Nat × Bytes) :=
  (List.range ((hi - lo + kIndexIoChunk - 1) / kIndexIoChunk)).map fun j =>
    let off := lo + j * kIndexIoChunk
    (env.geo.segOffset seg + off, readBytes mem off (min kIndexIoChunk (hi - off)))

/-- The writes of a table's header and slots. -/
def tableWrites (idx : Nat) (t : IndexTable) : List (Nat × Bytes) :=
  env.writeBack t.seg (env.hdrMem ts dirSize idx t) 0 env.geo.usedGrainBytes

/-- The writes of a table's footer. -/
def footerWrites (idx : Nat) (t : IndexTable) : List (Nat × Bytes) :=
  env.writeBack t.seg (env.ftrMem ts dirSize idx t) (env.geo.netBytes - env.geo.mdChunk)
    env.geo.netBytes

/-- The device writes of `flush_index`, in their order: all headers and slots, then all
footers. -/
def flushWrites (tables : List IndexTable) : List (Nat × Bytes) :=
  (tables.zipIdx.flatMap fun p => env.tableWrites ts tables.length p.2 p.1)
    ++ tables.zipIdx.flatMap fun p => env.footerWrites ts tables.length p.2 p.1

end IndexEnv

/-! ### Reading the index -/

/-- A segment with a valid footer, and the header it goes with. -/
structure Found where
  seg : Nat
  hdr : IndexHdr
  deriving DecidableEq, Repr

/-- What `restore_index` leaves: the device, and the tables and the valid grains of every segment
if it restored the index. -/
structure RestoreResult where
  dev : Device
  restored : Option (List IndexTable × (Nat → Nat))

namespace IndexEnv

variable (env : IndexEnv) (segMd : Nat → Option SegMd)

/-- The timestamp of a data segment, 0 if it is none, `data_ts`. -/
def dataTs (seg : Nat) : Nat :=
  match segMd seg with
  | some ⟨.kv, ts⟩ => ts
  | _ => 0

def readHdrAt (dev : Device) (seg : Nat) : IndexHdr := readIndexHdr dev (env.geo.segOffset seg)

/-- The footer of a segment, the end of what is read of it. -/
def readFtrAt (dev : Device) (seg : Nat) : IndexFtr :=
  readIndexFtr dev (env.geo.segOffset seg + (env.geo.netBytes - env.geo.mdChunk)
    + (env.geo.mdChunk - kIndexMdBytes))

def hdrOk (dev : Device) (seg : Nat) : Bool :=
  (env.readHdrAt dev seg).csum == env.hdrMdCsum (env.readHdrAt dev seg)

/-- Whether a segment has a valid footer. -/
def ftrOk (dev : Device) (seg : Nat) : Bool :=
  (env.readFtrAt dev seg).csum == env.ftrMdCsum (env.readFtrAt dev seg)

/-- The header a footer goes with, or an empty one. -/
def foundHdr (dev : Device) (seg : Nat) : IndexHdr :=
  if env.hdrOk dev seg && sameIdentity (env.readHdrAt dev seg) (env.readFtrAt dev seg) then
    env.readHdrAt dev seg
  else ⟨0, 0, 0, 0, 0, 0, 0⟩

def isIndexSeg (seg : Nat) : Bool :=
  match segMd seg with
  | some ⟨.index, _⟩ => true
  | _ => false

/-- The index segments with valid footers, in the order of the device. -/
def findFooters (dev : Device) : List Found :=
  ((List.range env.geo.numSegments).filter fun seg =>
    isIndexSeg segMd seg && env.ftrOk dev seg).map fun seg => ⟨seg, env.foundHdr dev seg⟩

/-- The timestamp of the newest index. -/
def newestTs (found : List Found) : Nat := found.foldl (fun ts f => max ts f.hdr.ts) 0

/-- The segments of the newest index. -/
def newestSet (found : List Found) : List Found :=
  found.filter fun f => newestTs found ≠ 0 && f.hdr.ts == newestTs found

def hasSingleBit (x : Nat) : Bool := x != 0 && x &&& (x - 1) == 0

/-- Whether the headers are those of different tables of one directory. -/
def headersFit (dirSize : Nat) : List Found → List Nat → Bool
  | [], _ => true
  | f :: fs, seen =>
      if f.hdr.dirSize ≠ dirSize ∨ dirSize ≤ f.hdr.idx ∨ f.hdr.indexBits ≠ env.geo.indexBits
          ∨ f.hdr.format ≠ kIndexFormat ∨ f.hdr.slotNr ≠ env.geo.slotNr ∨ f.hdr.idx ∈ seen then
        false
      else headersFit dirSize fs (f.hdr.idx :: seen)

/-- Whether the newest index is complete and of tables of this geometry. -/
def complete : List Found → Bool
  | [] => false
  | f :: fs =>
      let dirSize := f.hdr.dirSize
      dirSize != 0 && hasSingleBit dirSize && dirSize ≤ 2 ^ kMaxTableBits
        && (f :: fs).length == dirSize && env.headersFit dirSize (f :: fs) []

/-- A table in a new mapping of its segment, which is clear where nothing is read. -/
def loadTable (dev : Device) (seg : Nat) : IndexTable where
  seg := seg
  mem := write (load dev (env.geo.segOffset seg) env.geo.usedGrainBytes fun _ => 0)
    env.geo.footerOffset (List.replicate kIndexMdBytes 0)

/-- The tables by their places in the directory. -/
def tablesOf (dev : Device) (set : List Found) : Nat → Option IndexTable :=
  set.foldl (fun tables f => Function.update tables f.hdr.idx (some (env.loadTable dev f.seg)))
    fun _ => none

/-- Count the grains of a record as valid, if they are in a data segment. -/
def account (valid : Nat → Nat) (pba grains : Nat) : Option (Nat → Nat) :=
  let seg := env.geo.segOf pba
  if seg < env.geo.numSegments ∧ dataTs segMd seg ≠ 0
      ∧ pba + grains ≤ env.geo.segBase seg + env.geo.dataGrains then
    some (addValid valid seg grains)
  else none

/-- Go over a slot: count a live entry, and put a deleted one by. -/
def accountSlot (acc : (Nat → Nat) × List Nat) (raw : Nat) : Option ((Nat → Nat) × List Nat) :=
  match HashEntry.ofRaw raw with
  | none => some acc
  | some e =>
      if e.val.deleted then
        let seg := env.geo.segOf e.val.pba
        if env.geo.numSegments ≤ seg ∨ dataTs segMd seg = 0 then none
        else some (acc.1, acc.2 ++ [e.val.pba])
      else (account env segMd acc.1 e.val.pba e.val.kvSize).map fun valid => (valid, acc.2)

/-- The grains of a tombstone by its header, of which a grain is read. -/
def tombstoneGrains (dev : Device) (heap : Buffer) (pba segTs : Nat) : Option Nat :=
  let hdr := readHdr (load dev (pba * env.geo.grainSize) env.geo.grainSize heap) 0
  if hdr.keySize = 0 ∨ isTombstone hdr = false ∨ hdr.timestamp ≠ segTs then none
  else some (env.geo.kvTotalGrains hdr.keySize 0)

/-- Count a tombstone. -/
def accountTomb (dev : Device) (heap : Nat → Buffer) (valid : Nat → Nat) (pba : Nat) :
    Option (Nat → Nat) :=
  (env.tombstoneGrains dev (heap pba) pba (dataTs segMd (env.geo.segOf pba))).bind
    (account env segMd valid pba)

/-- The words of the slots of tables. -/
def words (tables : List IndexTable) : List Nat :=
  tables.flatMap fun t => (List.range env.geo.slotNr).map t.loadSlot

/-- The valid grains of every segment by the entries of the tables. -/
def countValid (dev : Device) (heap : Nat → Buffer) (tables : List IndexTable) :
    Option (Nat → Nat) :=
  ((env.words tables).foldlM (env.accountSlot segMd) (fun _ => 0, [])).bind fun acc =>
    acc.2.foldlM (env.accountTomb segMd dev heap) acc.1

/-- Clear the footer of a segment and leave what shares its grains. -/
def clearFooter (dev : Device) (f : Found) : Device :=
  let pos := env.geo.segOffset f.seg + (env.geo.netBytes - env.geo.mdChunk)
  let buf := load dev pos env.geo.mdChunk fun _ => 0
  let buf := write buf (env.geo.mdChunk - kIndexMdBytes) (List.replicate kIndexMdBytes 0)
  write dev pos (readBytes buf 0 env.geo.mdChunk)

/-- `restore_index`, where every read and write succeeds and salsa takes the ranges.  `heap` is
what is behind the buffer that a tombstone is read into. -/
def restoreIndex (dev : Device) (heap : Nat → Buffer) : RestoreResult :=
  if !env.geo.acceptsTables then ⟨dev, none⟩
  else
    let found := env.findFooters segMd dev
    let set := newestSet found
    { dev := found.foldl env.clearFooter dev
      restored :=
        if env.complete set then
          let tables := (List.range set.length).filterMap (env.tablesOf dev set)
          (env.countValid segMd dev heap tables).map fun valid => (tables, valid)
        else none }

end IndexEnv

/-! ### The largest table -/

/-- The bytes from the beginning of a table's region to the end of the slots of its buckets. -/
def usedBytesFor (buckets : Nat) : Nat := kIndexMdBytes + (buckets + kHopRange) * 8

/-- The slots of a table end in front of the footer. -/
def TableFits (netBytes buckets : Nat) : Prop := usedBytesFor buckets + kIndexMdBytes ≤ netBytes

theorem TableFits.mono {netBytes buckets buckets' : Nat} (h : TableFits netBytes buckets)
    (hle : buckets' ≤ buckets) : TableFits netBytes buckets' := by
  rw [TableFits, usedBytesFor] at *
  omega

namespace Geometry

variable {netBytes b : Nat}

/-- Buckets fit just if there are slots for them and for the last neighbourhood. -/
theorem tableFits_iff
    (hnet : 2 * kIndexMdBytes ≤ netBytes) {buckets : Nat} :
  TableFits netBytes buckets ↔ buckets + kHopRange ≤ (netBytes - 2 * kIndexMdBytes) / 8
  := by
  rw [TableFits, usedBytesFor]
  omega

/-- No bits are found just where two buckets do not fit. -/
theorem indexBitsFor_eq_zero : indexBitsFor netBytes = 0 ↔ ¬ TableFits netBytes 2 := by
  rw [indexBitsFor]
  split
  · rename_i hnet
    have hfits : ¬ TableFits netBytes 2 := by
      rw [TableFits, usedBytesFor]
      omega
    simp [hfits]
  · rename_i hnet
    rw [tableFits_iff (Nat.not_lt.mp hnet)]
    simp only
    split
    · omega
    · rename_i hmany
      have hlog : Nat.log2 ((netBytes - 2 * kIndexMdBytes) / 8 - kHopRange) < 1 ↔ _ :=
        Nat.log2_lt (by omega)
      omega

/-- The bits that are found are those of the slots in front of the last neighbourhood. -/
theorem tableFits_of_indexBitsFor (hb : indexBitsFor netBytes ≠ 0) :
    TableFits netBytes (2 ^ indexBitsFor netBytes)
      ∧ ¬ TableFits netBytes (2 ^ (indexBitsFor netBytes + 1)) := by
  have hnet : 2 * kIndexMdBytes ≤ netBytes := by
    by_contra hnet
    rw [indexBitsFor, if_pos (Nat.not_le.mp hnet)] at hb
    exact hb rfl
  have hmany : kHopRange + 1 < (netBytes - 2 * kIndexMdBytes) / 8 := by
    by_contra hmany
    rw [indexBitsFor, if_neg (Nat.not_lt.mpr hnet)] at hb
    simp only [if_pos (Nat.not_lt.mp hmany)] at hb
    exact hb rfl
  have hbits : indexBitsFor netBytes
      = Nat.log2 ((netBytes - 2 * kIndexMdBytes) / 8 - kHopRange) := by
    rw [indexBitsFor, if_neg (Nat.not_lt.mpr hnet)]
    simp only [if_neg (Nat.not_le.mpr hmany)]
  have hle := Nat.log2_self_le (n := (netBytes - 2 * kIndexMdBytes) / 8 - kHopRange) (by omega)
  have hlt : (netBytes - 2 * kIndexMdBytes) / 8 - kHopRange < _ := Nat.lt_log2_self
  rw [tableFits_iff hnet, tableFits_iff hnet, hbits]
  omega

/-- The bits are told by the tables that fit. -/
theorem indexBitsFor_eq
    (hb : b ≠ 0) (hfits : TableFits netBytes (2 ^ b))
    (hnext : ¬ TableFits netBytes (2 ^ (b + 1))) :
  indexBitsFor netBytes = b
  := by
  have hpow : ∀ {i j : Nat}, i ≤ j → 2 ^ i ≤ 2 ^ j := Nat.pow_le_pow_right (by decide)
  have hne : indexBitsFor netBytes ≠ 0 := by
    intro hzero
    apply indexBitsFor_eq_zero.mp hzero
    apply hfits.mono (hpow (Nat.pos_of_ne_zero hb))
  obtain ⟨hfits', hnext'⟩ := tableFits_of_indexBitsFor hne
  apply Nat.le_antisymm
  · by_contra hlt
    apply hnext (hfits'.mono (hpow (Nat.not_le.mp hlt)))
  · by_contra hlt
    apply hnext' (hfits.mono (hpow (Nat.not_le.mp hlt)))

end Geometry

/-! ### The places of a table's parts -/

namespace Geometry

variable {geo : Geometry}

theorem kIndexMdBytes_le_mdChunk : kIndexMdBytes ≤ geo.mdChunk := le_alignUp _ geo.grainSize_pos

theorem indexBits_ne_zero (h : geo.acceptsTables = true) : geo.indexBits ≠ 0 := by
  rw [acceptsTables, Bool.and_eq_true, bne_iff_ne] at h
  exact h.1

theorem two_mdChunk_le (h : geo.acceptsTables = true) : 2 * geo.mdChunk ≤ geo.netBytes := by
  rw [acceptsTables, Bool.and_eq_true] at h
  exact of_decide_eq_true h.2

/-- The slots end before the footer. -/
theorem usedBytes_le (h : geo.acceptsTables = true) : geo.usedBytes ≤ geo.footerOffset :=
  Nat.le_sub_of_add_le (tableFits_of_indexBitsFor (indexBits_ne_zero h)).1

theorem kIndexMdBytes_le_usedBytes : kIndexMdBytes ≤ geo.usedBytes := Nat.le_add_right _ _

theorem footerOffset_add (h : geo.acceptsTables = true) :
    geo.footerOffset + kIndexMdBytes = geo.netBytes := by
  have hmd : kIndexMdBytes ≤ geo.mdChunk := kIndexMdBytes_le_mdChunk
  have hnet := two_mdChunk_le h
  rw [footerOffset]
  omega

/-- The footer is at the end of what is read of a segment for it. -/
theorem footer_place (h : geo.acceptsTables = true) :
    geo.netBytes - geo.mdChunk + (geo.mdChunk - kIndexMdBytes) = geo.footerOffset := by
  have hmd : kIndexMdBytes ≤ geo.mdChunk := kIndexMdBytes_le_mdChunk
  have hnet := two_mdChunk_le h
  rw [footerOffset]
  omega

theorem usedBytes_le_usedGrainBytes : geo.usedBytes ≤ geo.usedGrainBytes :=
  le_alignUp _ geo.grainSize_pos

/-- What is written back of a table is in the net segment. -/
theorem usedGrainBytes_le (h : geo.acceptsTables = true) : geo.usedGrainBytes ≤ geo.netBytes := by
  have hle := usedBytes_le h
  have hadd := footerOffset_add h
  have halign : alignUp geo.netBytes geo.grainSize = geo.netBytes :=
    alignUp_mul _ geo.grainSize_pos
  rw [usedGrainBytes, ← halign]
  apply alignUp_mono
  omega

/-- The net segments do not meet. -/
theorem seg_eq_of_cell
    {seg seg' i i' : Nat} (hi : i < geo.netBytes) (hi' : i' < geo.netBytes)
    (heq : geo.segOffset seg + i = geo.segOffset seg' + i') :
  seg = seg'
  := by
  have hplace : ∀ (s : Nat) {j : Nat}, j < geo.netBytes →
      (geo.segOffset s + j) / geo.grainSize / geo.segSize = s := by
    intro s j hj
    apply geo.segOf_eq
    · apply (Nat.le_div_iff_mul_le geo.grainSize_pos).mpr
      apply Nat.le_add_right
    · apply (Nat.div_lt_iff_lt_mul geo.grainSize_pos).mpr
      rw [Nat.add_mul]
      apply Nat.add_lt_add_left hj
  rw [← hplace seg hi, heq, hplace seg' hi']

end Geometry

end UDepot
