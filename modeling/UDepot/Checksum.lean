import UDepot.Lib.Crc
import UDepot.Index.Layout

/-!
# Checksums

The checksum of a record, of segment metadata and of device metadata is a CRC-32, which the store
computes with a table of 256 words.  It is the one that takes every byte bit by bit.
-/

namespace UDepot

open Memory

/-! ### The table -/

/-- A round of the loop that makes the table. -/
def crc32Shift (crc : UInt32) : UInt32 := (crc >>> 1) ^^^ if crc &&& 1 ≠ 0 then 0xEDB88320 else 0

/-- The table of the shifts of every byte. -/
def kCrc32Table : Vector UInt32 256 := .ofFn fun i => crc32Shift^[8] (.ofNat i)

theorem and_255_lt (x : UInt32) : (x &&& 0xFF).toNat < 256 := by
  rw [UInt32.toNat_and]
  apply Nat.and_lt_two_pow _ (n := 8)
  decide

/-- The place in the table for a byte. -/
def crc32Index (crc : UInt32) (b : UInt8) : Fin 256 :=
  ⟨((crc ^^^ b.toUInt32) &&& 0xFF).toNat, and_255_lt _⟩

def crc32Update (crc : UInt32) (data : Bytes) : UInt32 :=
  data.foldl (fun crc b => kCrc32Table.get (crc32Index crc b) ^^^ (crc >>> 8)) (crc ^^^ 0xFFFFFFFF)
    ^^^ 0xFFFFFFFF

/-! ### Checksums of records and metadata -/

def kGlobalSeed : UInt32 := 0xDEADBEEF

/-- The checksum of a record by its header, which is bound to the seed of the device. -/
def computeCrc16 (seed : Nat) (hdr : KvHeader) : UInt16 :=
  (crc32Update (crc32Update (.ofNat hdr.timestamp) hdr.encode) (leBytes 8 seed)).toUInt16

def computeCrc32 (seed : UInt32) (data : Bytes) : UInt32 :=
  crc32Update (crc32Update seed data) (leBytes 4 kGlobalSeed.toNat)

/-- The bytes of device metadata in front of its checksum. -/
def DevMd.covered (md : DevMd) : Bytes :=
  leBytes 8 md.physicalSize ++ (leBytes 8 md.logicalSize ++ (leBytes 8 md.segmentSize
    ++ (leBytes 8 md.grainSize ++ leBytes 8 md.seed)))

/-- The bytes of segment metadata in front of its checksum. -/
def RawSegMd.covered (md : RawSegMd) : Bytes :=
  leBytes 8 md.segmentSize ++ (leBytes 8 md.grainSize ++ (leBytes 8 md.timestamp
    ++ (leBytes 8 md.seed ++ leBytes 1 md.ctlrType)))

/-- The checksums of the metadata, bound to the seed that the metadata has. -/
def storeChecksums : Checksums where
  devMd md := (computeCrc32 (.ofNat md.seed) md.covered).toNat
  segMd md := (computeCrc32 (.ofNat md.seed) md.covered).toNat

/-! ### Bit by bit -/

/-- Take a bit. -/
def crc32Bit (crc : UInt32) : UInt32 := (crc >>> 1) ^^^ (0xEDB88320 &&& (0 - (crc &&& 1)))

/-- The CRC-32 of bytes, bit by bit. -/
def crc32Bitwise (crc : UInt32) (data : Bytes) : UInt32 :=
  ~~~data.foldl (fun crc b => crc32Bit^[8] (crc ^^^ b.toUInt32)) (~~~crc)

/-! ### The table is that of the bits -/

theorem and_one_eq (crc : UInt32) :
    crc &&& 1 = if crc.toBitVec.getLsbD 0 then 1 else 0 := by
  rw [← UInt32.toBitVec_inj, UInt32.toBitVec_and]
  apply BitVec.and_one_eq_setWidth_ofBool_getLsbD.trans
  cases crc.toBitVec.getLsbD 0
  · rfl
  · rfl

/-- What a bit adds, by a test and by a mask. -/
theorem toBitVec_tap (crc : UInt32) :
    (if crc &&& 1 ≠ 0 then (0xEDB88320 : UInt32) else 0).toBitVec
        = Crc.tap 0xEDB88320 (crc.toBitVec.getLsbD 0)
      ∧ (0xEDB88320 &&& (0 - (crc &&& 1))).toBitVec
        = Crc.tap 0xEDB88320 (crc.toBitVec.getLsbD 0) := by
  rw [and_one_eq]
  cases crc.toBitVec.getLsbD 0
  · decide
  · decide

theorem toBitVec_crc32Shift (crc : UInt32) :
    (crc32Shift crc).toBitVec = Crc.shift 0xEDB88320 crc.toBitVec := by
  rw [crc32Shift, UInt32.toBitVec_xor, (toBitVec_tap crc).1]
  rfl

theorem toBitVec_crc32Bit (crc : UInt32) :
    (crc32Bit crc).toBitVec = Crc.shift 0xEDB88320 crc.toBitVec := by
  rw [crc32Bit, UInt32.toBitVec_xor, (toBitVec_tap crc).2]
  rfl

/-- A word of the table. -/
theorem toBitVec_kCrc32Table (i : Fin 256) :
    (kCrc32Table.get i).toBitVec = (Crc.shift 0xEDB88320)^[8] (BitVec.ofNat 32 i) := by
  have hget : kCrc32Table.get i = crc32Shift^[8] (.ofNat i) := by
    apply Vector.getElem_ofFn
  rw [hget]
  apply Function.Semiconj.iterate_right toBitVec_crc32Shift

/-- The place in the table is the low byte. -/
theorem ofNat_crc32Index (crc : UInt32) (b : UInt8) :
    BitVec.ofNat 32 (crc32Index crc b)
      = ((crc.toBitVec ^^^ b.toBitVec.setWidth 32).setWidth 8).setWidth 32 := by
  have hlow : ∀ x : UInt32, BitVec.ofNat 32 (x &&& 0xFF).toNat
      = (x.toBitVec.setWidth 8).setWidth 32 := by
    intro x
    apply BitVec.eq_of_toNat_eq
    have hmod : x.toNat &&& 255 = x.toNat % 2 ^ 8 := Nat.and_two_pow_sub_one_eq_mod _ 8
    rw [UInt32.toNat_and, BitVec.toNat_ofNat, BitVec.toNat_setWidth, BitVec.toNat_setWidth]
    apply congrArg (· % 2 ^ 32) hmod
  apply hlow

/-- A byte taken with the table is taken bit by bit. -/
theorem table_eq_bits (crc : UInt32) (b : UInt8) :
    kCrc32Table.get (crc32Index crc b) ^^^ (crc >>> 8) = crc32Bit^[8] (crc ^^^ b.toUInt32) := by
  have hbits : (crc32Bit^[8] (crc ^^^ b.toUInt32)).toBitVec
      = Crc.takeByte 0xEDB88320 crc.toBitVec b.toBitVec :=
    Function.Semiconj.iterate_right toBitVec_crc32Bit 8 _
  rw [← UInt32.toBitVec_inj, hbits, Crc.takeByte_eq_table, UInt32.toBitVec_xor,
    toBitVec_kCrc32Table, ofNat_crc32Index]
  rfl

theorem xor_ones (x : UInt32) : x ^^^ 0xFFFFFFFF = ~~~x := by
  rw [← UInt32.toBitVec_inj, UInt32.toBitVec_xor, UInt32.toBitVec_not]
  apply BitVec.xor_allOnes

theorem crc32Update_eq_bitwise (crc : UInt32) (data : Bytes) :
    crc32Update crc data = crc32Bitwise crc data := by
  simp only [crc32Update, crc32Bitwise, table_eq_bits, xor_ones]

/-- The bytes of two strings are taken one after the other. -/
theorem crc32Update_append (crc : UInt32) (xs ys : Bytes) :
    crc32Update (crc32Update crc xs) ys = crc32Update crc (xs ++ ys) := by
  rw [crc32Update, crc32Update, crc32Update, UInt32.xor_assoc, UInt32.xor_self, UInt32.xor_zero,
    List.foldl_append]

/-- **The table-driven checksum is the bitwise one**, over every string and from every start, so the
checksums of records, of segment metadata and of device metadata are bitwise checksums of their
bytes followed by those of a seed. -/
theorem checksums_bitwise :
    (∀ crc data, crc32Update crc data = crc32Bitwise crc data)
      ∧ (∀ crc xs ys, crc32Update (crc32Update crc xs) ys = crc32Update crc (xs ++ ys))
      ∧ (∀ seed hdr, computeCrc16 seed hdr
        = (crc32Bitwise (.ofNat hdr.timestamp) (hdr.encode ++ leBytes 8 seed)).toUInt16)
      ∧ (∀ seed data, computeCrc32 seed data
        = crc32Bitwise seed (data ++ leBytes 4 kGlobalSeed.toNat))
      ∧ (∀ md, storeChecksums.devMd md
        = (crc32Bitwise (.ofNat md.seed) (md.covered ++ leBytes 4 kGlobalSeed.toNat)).toNat)
      ∧ ∀ md, storeChecksums.segMd md
        = (crc32Bitwise (.ofNat md.seed) (md.covered ++ leBytes 4 kGlobalSeed.toNat)).toNat := by
  have hcrc32 : ∀ seed data, computeCrc32 seed data
      = crc32Bitwise seed (data ++ leBytes 4 kGlobalSeed.toNat) := by
    intro seed data
    rw [computeCrc32, crc32Update_append, crc32Update_eq_bitwise]
  refine ⟨crc32Update_eq_bitwise, crc32Update_append, ?_, hcrc32, ?_, ?_⟩
  · intro seed hdr
    rw [computeCrc16, crc32Update_append, crc32Update_eq_bitwise]
  · intro md
    apply congrArg UInt32.toNat (hcrc32 _ _)
  · intro md
    apply congrArg UInt32.toNat (hcrc32 _ _)

/-- The checksum of the digits from 1 to 9. -/
example : crc32Update 0 [49, 50, 51, 52, 53, 54, 55, 56, 57] = 0xCBF43926 := by decide +kernel

end UDepot
