import UDepot.Lib.Memory
import UDepot.Record.Walks

/-!
# The format of a record

A record is made by `put_record`, by `write_tombstone` and, from one there is, by `gc_record`.  It
is read by `get_record`, by `verify_key_at_pba` and by the two walks of a segment.  Each computes
the places of the parts by itself.  Buffers have arbitrary bytes where nothing was put in them, and
behind them.
-/

namespace UDepot

open Memory

/-- The bytes of a buffer, and of what is behind it. -/
abbrev Buffer := Nat → UInt8

/-- The bytes of a header, a packed structure. -/
def KvHeader.encode (hdr : KvHeader) : Bytes :=
  leBytes 2 hdr.keySize ++ leBytes 4 hdr.valSize ++ leBytes 8 hdr.timestamp

/-- The bytes of a `KvSuffix`. -/
def encodeSuffix (crc16 : KvHeader → UInt16) (hdr : KvHeader) : Bytes :=
  leBytes 2 (crc16 hdr).toNat

/-! ### Writers -/

section Writers

variable (geo : Geometry) (crc16 : KvHeader → UInt16)

/-- The buffer of a record, with its padding cleared, `alloc_put_buffer`. -/
def allocPutBuffer (heap : Buffer) (keySize valSize : Nat) : Buffer :=
  let total := geo.kvTotalGrains keySize valSize * geo.grainSize
  let used := kvTotalBytes keySize valSize
  write heap used (List.replicate (total - used) 0)

/-- The record of a put, in a buffer that has the value, `put_record`. -/
def putRecord (record : Buffer) (key : Bytes) (valSize ts : Nat) : Buffer :=
  let hdr : KvHeader := ⟨key.length % 2 ^ 16, valSize % 2 ^ 32, ts⟩
  let p := write record kKvHeaderBytes key
  let p := write p 0 hdr.encode
  write p (kKvHeaderBytes + key.length + valSize) (encodeSuffix crc16 hdr)

/-- The record of a put that copies the value. -/
def putCopied (heap : Buffer) (key val : Bytes) (ts : Nat) : Buffer :=
  let buf := allocPutBuffer geo heap key.length val.length
  putRecord crc16 (write buf (kKvHeaderBytes + key.length) val) key val.length ts

/-- A tombstone, `write_tombstone`. -/
def writeTombstone (heap : Buffer) (key : Bytes) (ts : Nat) : Buffer :=
  let total := geo.kvTotalGrains key.length 0 * geo.grainSize
  let hdr : KvHeader := ⟨key.length % 2 ^ 16, kTombstoneValSize, ts⟩
  let tp := write heap 0 hdr.encode
  let tp := write tp kKvHeaderBytes key
  let tp := write tp (kKvHeaderBytes + key.length) (encodeSuffix crc16 hdr)
  let used := kvTotalBytes key.length 0
  write tp used (List.replicate (total - used) 0)

/-- The copy of the record at an offset of a segment's buffer, with the timestamp of another
segment, `gc_record`. -/
def gcCopy (seg : Buffer) (off entryGrains : Nat) (heap : Buffer) (ts : Nat) : Buffer :=
  let hdr := readHdr seg off
  let buf := write heap 0 (readBytes seg off (entryGrains * geo.grainSize))
  let moved := { hdr with timestamp := ts }
  let buf := write buf 0 moved.encode
  write buf (kKvHeaderBytes + hdr.keySize + recordValBytes hdr) (encodeSuffix crc16 moved)

/-- A device has the first grains of a buffer at an address. -/
def Stored (dev : Device) (pba grains : Nat) (buf : Buffer) : Prop :=
  Holds dev (pba * geo.grainSize) (readBytes buf 0 (grains * geo.grainSize))

end Writers

/-! ### Readers -/

/-- What `get_record` makes of an entry: the value, a read that failed its checksum, or nothing,
and it goes on to the next. -/
inductive GetOutcome where
  | value (val : Bytes)
  | eio
  | next
  deriving DecidableEq, Repr

namespace Reader

variable (geo : Geometry) (crc16 : KvHeader → UInt16)

/-- `get_record` for an entry.  Its checksum is looked at in debug builds only. -/
def getRecord (debug : Bool) (dev : Device) (heap : Buffer) (pba kvGrains : Nat) (key : Bytes) :
    GetOutcome :=
  let len := kvGrains * geo.grainSize
  let p := load dev (pba * geo.grainSize) len heap
  let hdr := readHdr p 0
  if len < kKvHeaderBytes then .next
  else if hdr.keySize ≠ key.length then .next
  else if len < kvTotalBytes hdr.keySize hdr.valSize then .next
  else if readBytes p kKvHeaderBytes key.length ≠ key then .next
  else if debug ∧
      readLe p (kKvHeaderBytes + hdr.keySize + hdr.valSize) 2 ≠ (crc16 hdr).toNat then .eio
  else .value (readBytes p (kKvHeaderBytes + hdr.keySize) hdr.valSize)

/-- `verify_key_at_pba`: the header of the record at an address, if it is the key's. -/
def verifyKeyAtPba (dev : Device) (heap : Buffer) (pba kvGrains : Nat) (key : Bytes) :
    Option KvHeader :=
  if kvGrains * geo.grainSize < kvTotalBytes key.length 0 then none
  else
    let p := load dev (pba * geo.grainSize) (geo.alignedKeyBytes key.length) heap
    let hdr := readHdr p 0
    if hdr.keySize ≠ key.length then none
    else if readBytes p kKvHeaderBytes key.length ≠ key then none
    else some hdr

end Reader

/-! ### Reading what a memory holds -/

section Holding

variable {m : Nat → UInt8} {off n : Nat}

theorem getElem?_readBytes
    {i : Nat} : ∀ {n off : Nat}, i < n → (readBytes m off n)[i]? = some (m (off + i))
  | 0, _, h => absurd h (Nat.not_lt_zero _)
  | n + 1, off, h => by
      cases i with
      | zero => rfl
      | succ i =>
          rw [readBytes, List.getElem?_cons_succ, getElem?_readBytes (by omega)]
          congr 2
          omega

theorem holds_readBytes (m : Nat → UInt8) (off n : Nat) : Holds m off (readBytes m off n) := by
  intro i x hx
  have hlt := (List.getElem?_eq_some_iff.mp hx).1
  rw [readBytes_length] at hlt
  rw [getElem?_readBytes hlt] at hx
  exact Option.some.inj hx

/-- What a buffer holds is where its bytes were copied. -/
theorem holds_of_copied
    {buf : Buffer} {xs : Bytes} {at' : Nat} (hcopy : Holds m off (readBytes buf at' n))
    (h : Holds buf at' xs) (hroom : xs.length ≤ n) :
  Holds m off xs
  := by
  intro i x hx
  have hlt := (List.getElem?_eq_some_iff.mp hx).1
  rw [hcopy i (buf (at' + i)) (getElem?_readBytes (by omega))]
  apply h i x hx

theorem readBytes_of_holds {xs : Bytes} (h : Holds m off xs) : readBytes m off xs.length = xs := by
  induction xs generalizing off with
  | nil => rfl
  | cons x xs ih =>
      obtain ⟨hx, hxs⟩ := holds_cons.mp h
      rw [List.length_cons, readBytes, hx, ih hxs]

theorem readLe_eq : ∀ (n off : Nat), readLe m off n = leNat (readBytes m off n)
  | 0, _ => rfl
  | n + 1, off => by rw [readLe, readBytes, leNat, readLe_eq n]

/-- What was read of a memory. -/
theorem readBytes_load
    {k len : Nat} (behind : Nat → UInt8) (h : k + n ≤ len) :
  readBytes (load m off len behind) k n = readBytes m (off + k) n
  := by
  have hload : Holds (load m off len behind) k (readBytes m (off + k) n) := by
    apply Holds.load (holds_readBytes m (off + k) n)
    rwa [readBytes_length]
  have hread := readBytes_of_holds hload
  rwa [readBytes_length] at hread

theorem readHdr_load
    {len : Nat} (behind : Nat → UInt8) (h : kKvHeaderBytes ≤ len) :
  readHdr (load m off len behind) 0 = readHdr m off
  := by
  rw [kKvHeaderBytes] at h
  simp only [readHdr, readLe_eq]
  rw [readBytes_load behind (by omega), readBytes_load behind (by omega),
    readBytes_load behind (by omega)]
  rfl

theorem readLe_of_holds {x : Nat} (h : Holds m off (leBytes n x)) (hx : x < 256 ^ n) :
    readLe m off n = x := by
  have hread := readBytes_of_holds h
  rw [length_leBytes] at hread
  rw [readLe_eq, hread, leNat_leBytes hx]

theorem length_encode (hdr : KvHeader) : hdr.encode.length = kKvHeaderBytes := by
  rw [KvHeader.encode, List.length_append, List.length_append, length_leBytes, length_leBytes,
    length_leBytes]
  rfl

theorem length_encodeSuffix (crc16 : KvHeader → UInt16) (hdr : KvHeader) :
    (encodeSuffix crc16 hdr).length = kKvSuffixBytes := length_leBytes _ _

/-- The fields of a header are in range. -/
structure KvHeader.Fits (hdr : KvHeader) : Prop where
  keySize : hdr.keySize < 2 ^ 16
  valSize : hdr.valSize < 2 ^ 32
  timestamp : hdr.timestamp < 2 ^ 64

theorem readHdr_of_holds {hdr : KvHeader} (h : Holds m off hdr.encode) (hfits : hdr.Fits) :
    readHdr m off = hdr := by
  have hvalSize := h.left.right
  have htimestamp := h.right
  rw [length_leBytes] at hvalSize
  rw [List.length_append, length_leBytes, length_leBytes] at htimestamp
  rw [readHdr, readLe_of_holds h.left.left (lt_of_lt_of_eq hfits.keySize (by decide)),
    readLe_of_holds hvalSize (lt_of_lt_of_eq hfits.valSize (by decide)),
    readLe_of_holds htimestamp (lt_of_lt_of_eq hfits.timestamp (by decide))]

end Holding

/-! ### The bytes of a record -/

/-- The bytes of a record. -/
def recordBytes (crc16 : KvHeader → UInt16) (hdr : KvHeader) (key val : Bytes) : Bytes :=
  hdr.encode ++ (key ++ (val ++ encodeSuffix crc16 hdr))

/-- A header for a key and the bytes of a value. -/
structure KvHeader.For (hdr : KvHeader) (key val : Bytes) : Prop where
  fits : hdr.Fits
  keySize : hdr.keySize = key.length
  valBytes : recordValBytes hdr = val.length

section Parts

variable {crc16 : KvHeader → UInt16} {m : Nat → UInt8} {off : Nat} {hdr : KvHeader}
  {key val : Bytes}

theorem length_recordBytes :
    (recordBytes crc16 hdr key val).length = kvTotalBytes key.length val.length := by
  rw [recordBytes, List.length_append, List.length_append, List.length_append, length_encode,
    length_encodeSuffix, kvTotalBytes]
  omega

/-- A record is held by its parts. -/
theorem holds_recordBytes :
    Holds m off (recordBytes crc16 hdr key val) ↔
      Holds m off hdr.encode ∧ Holds m (off + kKvHeaderBytes) key
        ∧ Holds m (off + kKvHeaderBytes + key.length) val
        ∧ Holds m (off + kKvHeaderBytes + key.length + val.length) (encodeSuffix crc16 hdr) := by
  rw [recordBytes, holds_append, holds_append, holds_append, length_encode]

variable (h : Holds m off (recordBytes crc16 hdr key val)) (hfor : hdr.For key val)

include h hfor

theorem readHdr_record : readHdr m off = hdr :=
  readHdr_of_holds (holds_recordBytes.mp h).1 hfor.fits

omit hfor in
theorem readBytes_record_key : readBytes m (off + kKvHeaderBytes) key.length = key :=
  readBytes_of_holds (holds_recordBytes.mp h).2.1

omit hfor in
theorem readBytes_record_val :
    readBytes m (off + kKvHeaderBytes + key.length) val.length = val :=
  readBytes_of_holds (holds_recordBytes.mp h).2.2.1

omit hfor in
theorem readLe_record_suffix :
    readLe m (off + kKvHeaderBytes + key.length + val.length) 2 = (crc16 hdr).toNat :=
  readLe_of_holds (holds_recordBytes.mp h).2.2.2 (UInt16.toNat_lt _)

end Parts

/-! ### What the writers make -/

section Made

variable {geo : Geometry} {crc16 : KvHeader → UInt16} {key val : Bytes} {ts ts' : Nat}

/-- The header of a value. -/
def liveHdr (key val : Bytes) (ts : Nat) : KvHeader := ⟨key.length, val.length, ts⟩

/-- The header of a tombstone. -/
def tombHdr (key : Bytes) (ts : Nat) : KvHeader := ⟨key.length, kTombstoneValSize, ts⟩

theorem checkSizes_iff {keySize valSize : Nat} :
    geo.checkSizes keySize valSize = true ↔
      keySize ≠ 0 ∧ keySize < 2 ^ 16 ∧ valSize < kTombstoneValSize
        ∧ geo.kvTotalGrains keySize valSize ≤ kKvSizeMask := by
  simp only [Geometry.checkSizes, Bool.and_eq_true, bne_iff_ne, ne_eq, decide_eq_true_eq]
  omega

/-- No admitted value is a tombstone. -/
theorem liveHdr_not_tombstone
    (hsizes : geo.checkSizes key.length val.length = true) :
  isTombstone (liveHdr key val ts) = false
  := by
  have hval := (checkSizes_iff.mp hsizes).2.2.1
  rw [isTombstone, beq_eq_false_iff_ne]
  apply hval.ne

theorem liveHdr_for (hsizes : geo.checkSizes key.length val.length = true) (hts : ts < 2 ^ 64) :
    (liveHdr key val ts).For key val := by
  obtain ⟨-, hkey, hval, -⟩ := checkSizes_iff.mp hsizes
  rw [kTombstoneValSize] at hval
  refine ⟨⟨hkey, ?_, hts⟩, rfl, ?_⟩
  · simp only [liveHdr]
    omega
  · rw [recordValBytes, liveHdr_not_tombstone hsizes]
    rfl

theorem tombHdr_for (hkey : key.length < 2 ^ 16) (hts : ts < 2 ^ 64) :
    (tombHdr key ts).For key [] := ⟨⟨hkey, by simp [tombHdr, kTombstoneValSize], hts⟩, rfl, rfl⟩

theorem putRecord_holds
    {record : Buffer} (hsizes : geo.checkSizes key.length val.length = true)
    (hval : Holds record (kKvHeaderBytes + key.length) val) :
  Holds (putRecord crc16 record key val.length ts) 0
    (recordBytes crc16 (liveHdr key val ts) key val)
  := by
  obtain ⟨-, hkey, hlt, -⟩ := checkSizes_iff.mp hsizes
  rw [kTombstoneValSize] at hlt
  have hhdr : (⟨key.length % 2 ^ 16, val.length % 2 ^ 32, ts⟩ : KvHeader) = liveHdr key val ts := by
    rw [Nat.mod_eq_of_lt hkey, Nat.mod_eq_of_lt (by omega)]
    rfl
  have hlen := length_encode (liveHdr key val ts)
  rw [holds_recordBytes, putRecord, hhdr]
  simp only [Nat.zero_add]
  refine ⟨?_, ?_, ?_, holds_write _ _ _⟩
  · apply (holds_write _ _ _).write_apart
    omega
  · apply ((holds_write _ _ _).write_apart _).write_apart
    · omega
    · omega
  · apply ((hval.write_apart _).write_apart _).write_apart
    · omega
    · omega
    · omega

theorem writeTombstone_holds
    {heap : Buffer} (hkey : key.length < 2 ^ 16) :
  Holds (writeTombstone geo crc16 heap key ts) 0 (recordBytes crc16 (tombHdr key ts) key [])
  := by
  have hhdr : (⟨key.length % 2 ^ 16, kTombstoneValSize, ts⟩ : KvHeader) = tombHdr key ts := by
    rw [Nat.mod_eq_of_lt hkey]
    rfl
  have hlen := length_encode (tombHdr key ts)
  have hsuffix := length_encodeSuffix crc16 (tombHdr key ts)
  have hused : kvTotalBytes key.length 0 = kKvHeaderBytes + key.length + kKvSuffixBytes := rfl
  rw [holds_recordBytes, writeTombstone, hhdr]
  simp only [Nat.zero_add, List.length_nil, Nat.add_zero]
  refine ⟨?_, ?_, holds_nil, ?_⟩
  · apply (((holds_write _ _ _).write_apart _).write_apart _).write_apart
    · omega
    · omega
    · omega
  · apply ((holds_write _ _ _).write_apart _).write_apart
    · omega
    · omega
  · apply (holds_write _ _ _).write_apart
    omega

theorem gcCopy_holds
    {seg heap : Buffer} {off grains : Nat} {hdr : KvHeader}
    (h : Holds seg off (recordBytes crc16 hdr key val)) (hfor : hdr.For key val)
    (hgrains : kvTotalBytes key.length val.length ≤ grains * geo.grainSize) :
  Holds (gcCopy geo crc16 seg off grains heap ts') 0
    (recordBytes crc16 { hdr with timestamp := ts' } key val)
  := by
  have hcopied : Holds (write heap 0 (readBytes seg off (grains * geo.grainSize))) 0
      (recordBytes crc16 hdr key val) := by
    apply holds_of_copied (holds_write _ _ _) h
    rwa [length_recordBytes]
  obtain ⟨-, hkey, hval, -⟩ := holds_recordBytes.mp hcopied
  rw [holds_recordBytes, gcCopy, readHdr_record h hfor]
  simp only [Nat.zero_add, hfor.keySize, hfor.valBytes] at hkey hval ⊢
  refine ⟨?_, ?_, ?_, holds_write _ _ _⟩
  · apply (holds_write _ _ _).write_apart
    rw [length_encode]
    omega
  · apply (hkey.write_apart _).write_apart
    · omega
    · rw [length_encode]
      omega
  · apply (hval.write_apart _).write_apart
    · omega
    · rw [length_encode]
      omega

/-- The value bytes of a record, which has none if it is a tombstone. -/
def valueBytes (v : Option Bytes) : Bytes := v.getD []

/-- The header of a record. -/
def headerOf (key : Bytes) (ts : Nat) : Option Bytes → KvHeader
  | some val => liveHdr key val ts
  | none => tombHdr key ts

/-- The buffers that are written as the record of a key with a value, or as its tombstone. -/
inductive Made (geo : Geometry) (crc16 : KvHeader → UInt16) (key : Bytes) :
    Option Bytes → Nat → Buffer → Prop
  | put {val : Bytes} {ts : Nat} {record : Buffer}
      (hval : Holds record (kKvHeaderBytes + key.length) val) :
      Made geo crc16 key (some val) ts (putRecord crc16 record key val.length ts)
  | tombstone {ts : Nat} (heap : Buffer) :
      Made geo crc16 key none ts (writeTombstone geo crc16 heap key ts)
  | moved {v : Option Bytes} {ts : Nat} {buf : Buffer} (h : Made geo crc16 key v ts buf)
      (hts : ts < 2 ^ 64) {dev : Device} {pba base endGrain : Nat}
      (hstored : Stored geo dev pba (geo.kvTotalGrains key.length (valueBytes v).length) buf)
      (hbase : base ≤ pba)
      (hend : pba + geo.kvTotalGrains key.length (valueBytes v).length ≤ endGrain)
      (around heap : Buffer) (ts' : Nat) :
      Made geo crc16 key v ts' (gcCopy geo crc16 (segBuffer geo dev base endGrain around)
        (pba * geo.grainSize) (geo.kvTotalGrains key.length (valueBytes v).length) heap ts')

/-- A put that copies its value has it in the buffer. -/
theorem Made.copied (heap : Buffer) :
    Made geo crc16 key (some val) ts (putCopied geo crc16 heap key val ts) :=
  .put (holds_write _ _ _)

end Made

section ReadBack

variable {geo : Geometry} {crc16 : KvHeader → UInt16} {dev : Device} {pba : Nat} {key : Bytes}
  {v : Option Bytes} {ts : Nat} {buf : Buffer}

/-- The sizes of a record are admitted. -/
abbrev Admitted (geo : Geometry) (key : Bytes) (v : Option Bytes) : Prop :=
  geo.checkSizes key.length (valueBytes v).length = true

theorem headerOf_for (hsizes : Admitted geo key v) (hts : ts < 2 ^ 64) :
    (headerOf key ts v).For key (valueBytes v) := by
  cases v with
  | some val => apply liveHdr_for hsizes hts
  | none => apply tombHdr_for (checkSizes_iff.mp hsizes).2.1 hts

theorem headerOf_timestamp (key : Bytes) (ts ts' : Nat) (v : Option Bytes) :
    { headerOf key ts v with timestamp := ts' } = headerOf key ts' v := by
  cases v <;> rfl

theorem holds_stored
    {xs : Bytes} {grains : Nat} (hstored : Stored geo dev pba grains buf) (h : Holds buf 0 xs)
    (hroom : xs.length ≤ grains * geo.grainSize) :
  Holds dev (pba * geo.grainSize) xs
  := holds_of_copied hstored h hroom

/-- Bytes of a segment are in the buffer it was read into. -/
theorem holds_segBuffer
    {base endGrain grains : Nat} {xs : Bytes} (around : Buffer)
    (h : Holds dev (pba * geo.grainSize) xs) (hbase : base ≤ pba) (hend : pba + grains ≤ endGrain)
    (hroom : xs.length ≤ grains * geo.grainSize) :
  Holds (segBuffer geo dev base endGrain around) (pba * geo.grainSize) xs
  := by
  apply h.congr
  intro i hle hlt
  have hlow := Nat.mul_le_mul_right geo.grainSize hbase
  have hhigh := Nat.mul_le_mul_right geo.grainSize hend
  rw [Nat.add_mul] at hhigh
  rw [segBuffer, if_pos ⟨by omega, by omega⟩]

/-- Whatever wrote it, a record is its header, key, value and checksum. -/
theorem Made.holds (h : Made geo crc16 key v ts buf) (hsizes : Admitted geo key v) :
    Holds buf 0 (recordBytes crc16 (headerOf key ts v) key (valueBytes v)) := by
  induction h with
  | put hval => apply putRecord_holds hsizes hval
  | tombstone heap => apply writeTombstone_holds (checkSizes_iff.mp hsizes).2.1
  | @moved v ts buf _ hts dev pba base endGrain hstored hbase hend around heap ts' ih =>
      have hroom := geo.kvTotalBytes_le key.length (valueBytes v).length
      have hlen : (recordBytes crc16 (headerOf key ts v) key (valueBytes v)).length = _ :=
        length_recordBytes
      have hdev := holds_stored hstored (ih hsizes) (by omega)
      have hseg := holds_segBuffer around hdev hbase hend (by omega)
      rw [← headerOf_timestamp key ts ts' v]
      apply gcCopy_holds hseg (headerOf_for hsizes hts) hroom

/-! ### Reading a record back -/

/-- The checksum as the walks compare it. -/
def crcNat (crc16 : KvHeader → UInt16) (hdr : KvHeader) : Nat := (crc16 hdr).toNat

/-- A get finds the value of the key, and of no other. -/
theorem getRecord_of_holds
    {val key' : Bytes} {kvGrains : Nat} (debug : Bool) (heap : Buffer)
    (h : Holds dev (pba * geo.grainSize) (recordBytes crc16 (liveHdr key val ts) key val))
    (hfor : (liveHdr key val ts).For key val)
    (hroom : kvTotalBytes key.length val.length ≤ kvGrains * geo.grainSize) :
  Reader.getRecord geo crc16 debug dev heap pba kvGrains key'
    = if key' = key then .value val else .next
  := by
  set p := load dev (pba * geo.grainSize) (kvGrains * geo.grainSize) heap with hp
  have hload : Holds p 0 (recordBytes crc16 (liveHdr key val ts) key val) := by
    apply Holds.load h
    rwa [Nat.zero_add, length_recordBytes]
  have hkey := readBytes_record_key hload
  have hval := readBytes_record_val hload
  have hsuffix := readLe_record_suffix hload
  have hlen : ¬ kvGrains * geo.grainSize < kKvHeaderBytes := by
    rw [kvTotalBytes] at hroom
    omega
  simp only [Nat.zero_add, liveHdr] at hkey hval hsuffix
  unfold Reader.getRecord
  simp only [← hp, readHdr_record hload hfor, if_neg hlen]
  simp only [liveHdr, if_neg (Nat.not_lt.mpr hroom), hval]
  by_cases heq : key' = key
  · subst heq
    simp only [hkey, hsuffix, ne_eq, not_true_eq_false, and_false, if_false, if_true]
  · rw [if_neg heq]
    by_cases hsize : key.length = key'.length
    · rw [← hsize, hkey, if_neg (not_not.mpr rfl), if_pos (Ne.symm heq)]
    · rw [if_pos hsize]

/-- A get takes no tombstone for a value: the value would be longer than what it reads. -/
theorem getRecord_tombstone
    {key' : Bytes} {kvGrains : Nat} (debug : Bool) (heap : Buffer)
    (h : Holds dev (pba * geo.grainSize) (tombHdr key ts).encode) (hfits : (tombHdr key ts).Fits)
    (hlong : kvGrains * geo.grainSize < kvTotalBytes key.length kTombstoneValSize) :
  Reader.getRecord geo crc16 debug dev heap pba kvGrains key' = .next
  := by
  unfold Reader.getRecord
  simp only
  by_cases hlen : kvGrains * geo.grainSize < kKvHeaderBytes
  · rw [if_pos hlen]
  · have hload : Holds (load dev (pba * geo.grainSize) (kvGrains * geo.grainSize) heap) 0
        (tombHdr key ts).encode := by
      apply Holds.load h
      rw [length_encode]
      omega
    rw [if_neg hlen, readHdr_of_holds hload hfits]
    simp only [tombHdr, hlong, if_true, ite_self]

/-- The key of a record is found at its address, and no other. -/
theorem verifyKeyAtPba_of_holds
    {val key' : Bytes} {hdr : KvHeader} {kvGrains : Nat} (heap : Buffer)
    (h : Holds dev (pba * geo.grainSize) (recordBytes crc16 hdr key val)) (hfor : hdr.For key val)
    (hroom : key' = key → kvTotalBytes key.length 0 ≤ kvGrains * geo.grainSize) :
  Reader.verifyKeyAtPba geo dev heap pba kvGrains key' = if key' = key then some hdr else none
  := by
  obtain ⟨hencoded, hkey, -⟩ := holds_recordBytes.mp h
  have hle := geo.le_alignedKeyBytes key'.length
  set p := load dev (pba * geo.grainSize) (geo.alignedKeyBytes key'.length) heap with hp
  have hhdr : readHdr p 0 = hdr := by
    apply readHdr_of_holds _ hfor.fits
    apply Holds.load hencoded
    rw [length_encode]
    omega
  have hsame : key'.length = key.length → readBytes p kKvHeaderBytes key'.length = key := by
    intro hlen
    rw [hlen]
    apply readBytes_of_holds
    apply Holds.load hkey
    omega
  unfold Reader.verifyKeyAtPba
  simp only [← hp, hhdr, hfor.keySize]
  by_cases heq : key' = key
  · subst heq
    rw [if_neg (Nat.not_lt.mpr (hroom rfl)), hsame rfl]
    simp only [ne_eq, not_true_eq_false, if_false, if_true]
  · rw [if_neg heq]
    by_cases hsize : key.length = key'.length
    · rw [hsame hsize.symm]
      simp only [hsize, ne_eq, not_true_eq_false, Ne.symm heq, not_false_eq_true, if_true, ite_self]
    · simp only [ne_eq, hsize, not_false_eq_true, if_true, ite_self]

/-- The walks find a record. -/
theorem walks_of_holds
    {m : Device} {val : Bytes} {hdr : KvHeader} {endGrain : Nat}
    (h : Holds m (pba * geo.grainSize) (recordBytes crc16 hdr key val)) (hfor : hdr.For key val)
    (hsizes : geo.checkSizes key.length val.length = true)
    (hend : pba + geo.kvTotalGrains key.length val.length ≤ endGrain) :
  recordAt geo (crcNat crc16) m hdr.timestamp endGrain pba
      = some ⟨key, hdr.timestamp, isTombstone hdr, geo.kvTotalGrains key.length val.length, pba⟩
    ∧ gcRecordAt geo (crcNat crc16) m hdr.timestamp endGrain pba
      = some ⟨key, hdr.timestamp, isTombstone hdr, geo.kvTotalGrains key.length val.length, pba⟩
  := by
  obtain ⟨hne, -, -, hmask⟩ := checkSizes_iff.mp hsizes
  have hhdr : hdrAt geo m pba = hdr := readHdr_record h hfor
  have hgrains : grainsAt geo m pba = geo.kvTotalGrains key.length val.length := by
    rw [grainsAt, hhdr, hfor.keySize, hfor.valBytes]
  have hpasses : Passes geo (crcNat crc16) m hdr.timestamp endGrain pba := by
    refine ⟨?_, ?_, ?_, ?_, ?_⟩
    · rwa [hhdr, hfor.keySize]
    · rw [hhdr]
    · rwa [hgrains]
    · rwa [hgrains]
    · rw [suffixAt, hhdr, hfor.keySize, hfor.valBytes, readLe_record_suffix h]
      rfl
  have hrecord : recordOf geo m pba
      = ⟨key, hdr.timestamp, isTombstone hdr, geo.kvTotalGrains key.length val.length, pba⟩ := by
    rw [recordOf, hgrains, hhdr, hfor.keySize, readBytes_record_key h]
  rw [← recordAt_eq_gcRecordAt, recordAt_of_passes hpasses, hrecord]
  exact ⟨rfl, rfl⟩

/-- What is at an address reads as the value of a key, with the grains of its entry, and no read
goes past them. -/
structure ReadsAsValue (geo : Geometry) (crc16 : KvHeader → UInt16) (dev : Device) (pba : Nat)
    (key : Bytes) (ts : Nat) (val : Bytes) : Prop where
  fits : geo.kvTotalGrains key.length val.length ≤ kKvSizeMask
  live : isTombstone (liveHdr key val ts) = false
  get : ∀ debug heap key',
    Reader.getRecord geo crc16 debug dev heap pba (geo.kvTotalGrains key.length val.length) key'
      = if key' = key then .value val else .next
  verify : ∀ heap key',
    Reader.verifyKeyAtPba geo dev heap pba (geo.kvTotalGrains key.length val.length) key'
      = if key' = key then some (liveHdr key val ts) else none
  walks : ∀ base endGrain around, base ≤ pba →
    pba + geo.kvTotalGrains key.length val.length ≤ endGrain →
      recordAt geo (crcNat crc16) (segBuffer geo dev base endGrain around) ts endGrain pba
          = some ⟨key, ts, false, geo.kvTotalGrains key.length val.length, pba⟩
        ∧ gcRecordAt geo (crcNat crc16) (segBuffer geo dev base endGrain around) ts endGrain pba
          = some ⟨key, ts, false, geo.kvTotalGrains key.length val.length, pba⟩
  inside : ∀ key' : Bytes,
    kvTotalBytes key'.length 0 ≤ geo.kvTotalGrains key.length val.length * geo.grainSize →
      geo.alignedKeyBytes key'.length
        ≤ geo.kvTotalGrains key.length val.length * geo.grainSize

/-- What is at an address reads as the tombstone of a key, and never as a value, neither with the
grains of a deleted entry nor with those of the tombstone. -/
structure ReadsAsTombstone (geo : Geometry) (crc16 : KvHeader → UInt16) (dev : Device) (pba : Nat)
    (key : Bytes) (ts : Nat) : Prop where
  fits : geo.kvTotalGrains key.length 0 ≤ kKvSizeMask
  get : ∀ debug heap key' kvGrains, kvGrains = 0 ∨ kvGrains = geo.kvTotalGrains key.length 0 →
    Reader.getRecord geo crc16 debug dev heap pba kvGrains key' = .next
  verify : ∀ heap key',
    Reader.verifyKeyAtPba geo dev heap pba (geo.kvTotalGrains key'.length 0) key'
      = if key' = key then some (tombHdr key ts) else none
  walks : ∀ base endGrain around, base ≤ pba → pba + geo.kvTotalGrains key.length 0 ≤ endGrain →
    recordAt geo (crcNat crc16) (segBuffer geo dev base endGrain around) ts endGrain pba
        = some ⟨key, ts, true, geo.kvTotalGrains key.length 0, pba⟩
      ∧ gcRecordAt geo (crcNat crc16) (segBuffer geo dev base endGrain around) ts endGrain pba
        = some ⟨key, ts, true, geo.kvTotalGrains key.length 0, pba⟩
  inside : geo.alignedKeyBytes key.length ≤ geo.kvTotalGrains key.length 0 * geo.grainSize

/-- What is at an address reads as a key's record. -/
def ReadsBack (geo : Geometry) (crc16 : KvHeader → UInt16) (dev : Device) (pba : Nat)
    (key : Bytes) (ts : Nat) : Option Bytes → Prop
  | some val => ReadsAsValue geo crc16 dev pba key ts val
  | none => ReadsAsTombstone geo crc16 dev pba key ts

theorem readsAsValue_of_holds
    {val : Bytes} (hts : ts < 2 ^ 64) (hsizes : geo.checkSizes key.length val.length = true)
    (h : Holds dev (pba * geo.grainSize) (recordBytes crc16 (liveHdr key val ts) key val)) :
  ReadsAsValue geo crc16 dev pba key ts val
  := by
  have hfor := liveHdr_for hsizes hts
  have hlive : isTombstone (liveHdr key val ts) = false := liveHdr_not_tombstone hsizes
  have hroom := geo.kvTotalBytes_le key.length val.length
  constructor
  case fits => exact (checkSizes_iff.mp hsizes).2.2.2
  case live => apply hlive
  case get =>
    intro debug heap key'
    apply getRecord_of_holds debug heap h hfor hroom
  case verify =>
    intro heap key'
    apply verifyKeyAtPba_of_holds heap h hfor
    intro _
    apply le_trans _ hroom
    rw [kvTotalBytes, kvTotalBytes]
    omega
  case walks =>
    intro base endGrain around hbase hend
    have hseg := holds_segBuffer around h hbase hend (by rwa [length_recordBytes])
    rw [← hlive]
    apply walks_of_holds hseg hfor hsizes hend
  case inside =>
    intro key' hkey'
    apply Geometry.alignedKeyBytes_le hkey'

theorem readsAsTombstone_of_holds
    (hgrain : geo.grainSize < 2 ^ 32) (hts : ts < 2 ^ 64)
    (hsizes : geo.checkSizes key.length 0 = true)
    (h : Holds dev (pba * geo.grainSize) (recordBytes crc16 (tombHdr key ts) key [])) :
  ReadsAsTombstone geo crc16 dev pba key ts
  := by
  have hfor := tombHdr_for (checkSizes_iff.mp hsizes).2.1 hts
  have hroom := geo.kvTotalBytes_le key.length 0
  constructor
  case fits => exact (checkSizes_iff.mp hsizes).2.2.2
  case get =>
    intro debug heap key' kvGrains hgrains
    apply getRecord_tombstone debug heap (holds_recordBytes.mp h).1 hfor.fits
    rw [kvTotalBytes, kTombstoneValSize]
    rcases hgrains with rfl | rfl
    · omega
    · have hdiv : geo.kvTotalGrains key.length 0 * geo.grainSize
          ≤ kvTotalBytes key.length 0 + geo.grainSize - 1 := Nat.div_mul_le_self ..
      rw [kvTotalBytes] at hdiv
      omega
  case verify =>
    intro heap key'
    apply verifyKeyAtPba_of_holds heap h hfor
    rintro rfl
    apply hroom
  case walks =>
    intro base endGrain around hbase hend
    have hseg := holds_segBuffer around h hbase hend (by rwa [length_recordBytes])
    apply walks_of_holds hseg hfor hsizes hend
  case inside => apply Geometry.alignedKeyBytes_le hroom

/-- A record reads back alike in every reader, whichever of the writers made it. -/
theorem records_read_back
    (geo : Geometry) (crc16 : KvHeader → UInt16) (dev : Device) (pba : Nat) (key : Bytes)
    (v : Option Bytes) (ts : Nat) (buf : Buffer) (hgrain : geo.grainSize < 2 ^ 32)
    (hts : ts < 2 ^ 64) (hsizes : Admitted geo key v) (hmade : Made geo crc16 key v ts buf)
    (hstored : Stored geo dev pba (geo.kvTotalGrains key.length (valueBytes v).length) buf) :
  ReadsBack geo crc16 dev pba key ts v
  := by
  have hheld := holds_stored hstored (hmade.holds hsizes) (by
    rw [length_recordBytes]
    apply geo.kvTotalBytes_le)
  cases v with
  | some val => apply readsAsValue_of_holds hts hsizes hheld
  | none => apply readsAsTombstone_of_holds hgrain hts hsizes hheld

/-- A segment of sixteen grains of 512 bytes. -/
def sixteenGrains : Geometry := ⟨512, 16, 1, 2, by decide, by decide⟩

/-- An empty value in a grain of 512 bytes. -/
theorem empty_value_reads_back :
  ReadsAsValue sixteenGrains (fun _ => 0)
    (write (fun _ => 0) (3 * 512)
      (readBytes (putCopied sixteenGrains (fun _ => 0) (fun _ => 255) [7] [] 5) 0 512)) 3 [7] 5 []
  := by
  apply records_read_back sixteenGrains (fun _ => 0) _ 3 [7] (some []) 5
    (putCopied sixteenGrains (fun _ => 0) (fun _ => 255) [7] [] 5) (by decide) (by decide)
    (by decide) (.copied _)
  apply holds_write

end ReadBack

end UDepot
