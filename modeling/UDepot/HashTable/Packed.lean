import UDepot.HashTable

/-!
# Packed entries

A slot is a word of 64 bits (`hash_entry.h`): from the least significant bit on, the distance
from the bucket, the tag, the size in grains and the address.  A slot whose address is all ones
is unused.  Fields that fit their widths are read back as they were stored, so a table may be
spoken of by the fields of its entries.
-/

namespace UDepot

namespace HashEntry

def kBucketOffsetBits : Nat := 5

def kKeyTagBits : Nat := 8

def kKvSizeBits : Nat := 11

def kPbaBits : Nat := 40

def kKeyTagShift : Nat := kBucketOffsetBits

def kKvSizeShift : Nat := kBucketOffsetBits + kKeyTagBits

def kPbaShift : Nat := kBucketOffsetBits + kKeyTagBits + kKvSizeBits

/-- The address of an unused slot, `HashEntry::kUnusedPba`. -/
def kUnusedPba : Nat := 2 ^ kPbaBits - 1

/-- The word of an unused slot, `HashEntry::kEmpty`. -/
def kEmpty : Nat := 2 ^ 64 - 1

/-- The word of an entry. -/
def make (bucketOffset keyTag kvSize pba : Nat) : Nat :=
  (bucketOffset &&& (2 ^ kBucketOffsetBits - 1))
    ||| (keyTag &&& (2 ^ kKeyTagBits - 1)) <<< kKeyTagShift
    ||| (kvSize &&& (2 ^ kKvSizeBits - 1)) <<< kKvSizeShift
    ||| (pba &&& (2 ^ kPbaBits - 1)) <<< kPbaShift

def rawBucketOffset (raw : Nat) : Nat := raw &&& (2 ^ kBucketOffsetBits - 1)

def rawKeyTag (raw : Nat) : Nat := raw >>> kKeyTagShift &&& (2 ^ kKeyTagBits - 1)

def rawKvSize (raw : Nat) : Nat := raw >>> kKvSizeShift &&& (2 ^ kKvSizeBits - 1)

def rawPba (raw : Nat) : Nat := raw >>> kPbaShift &&& (2 ^ kPbaBits - 1)

/-- The word of a slot. -/
def slotRaw : Option HashEntry → Nat
  | none => kEmpty
  | some e => make e.offset e.val.keyTag e.val.kvSize e.val.pba

/-- The entry a word holds, or nothing if the slot is unused. -/
def ofRaw (raw : Nat) : Option HashEntry :=
  if rawPba raw = kUnusedPba then none
  else some ⟨rawBucketOffset raw, ⟨rawKeyTag raw, rawKvSize raw, rawPba raw⟩⟩

end HashEntry

open HashEntry

/-- Every field fits its width, and the address is not that of an unused slot. -/
structure EntryInfo.Fits (x : EntryInfo) : Prop where
  keyTag : x.keyTag < 2 ^ kKeyTagBits
  kvSize : x.kvSize < 2 ^ kKvSizeBits
  pba : x.pba < kUnusedPba

/-- The word of an entry is the sum of its fields, each shifted to its place. -/
theorem HashEntry.make_eq
    {off : Nat} {x : EntryInfo} (hoff : off < kHopRange) (hx : x.Fits) :
  make off x.keyTag x.kvSize x.pba
    = off + x.keyTag * 2 ^ 5 + x.kvSize * 2 ^ 13 + x.pba * 2 ^ 24
  := by
  have htag := hx.keyTag
  have hkv := hx.kvSize
  have hpba := hx.pba
  simp only [kHopRange, kKeyTagBits, kKvSizeBits, kUnusedPba, kPbaBits] at hoff htag hkv hpba
  have hlow : ∀ {a b n : Nat}, b < 2 ^ n → b ||| a <<< n = b + a * 2 ^ n := by
    intro a b n hb
    rw [Nat.or_comm, ← Nat.shiftLeft_add_eq_or_of_lt hb, Nat.shiftLeft_eq, Nat.add_comm]
  simp only [make, Nat.and_two_pow_sub_one_eq_mod, kKeyTagShift, kKvSizeShift, kPbaShift,
    kBucketOffsetBits, kKeyTagBits, kKvSizeBits, kPbaBits]
  rw [Nat.mod_eq_of_lt hoff, Nat.mod_eq_of_lt htag, Nat.mod_eq_of_lt hkv,
    Nat.mod_eq_of_lt (by omega), hlow (a := x.keyTag) (n := 5) hoff,
    hlow (a := x.kvSize) (n := 13) (by omega), hlow (a := x.pba) (n := 24) (by omega)]

/-- A slot with an entry in its bucket's neighborhood whose fields fit, or an unused slot, is
read back as it was stored. -/
theorem HashEntry.ofRaw_slotRaw
    {o : Option HashEntry} (h : ∀ e, o = some e → e.offset < kHopRange ∧ e.val.Fits) :
  ofRaw (slotRaw o) = o
  := by
  cases o with
  | none => decide +kernel
  | some e =>
      obtain ⟨hoff, hfits⟩ := h e rfl
      have hmake := HashEntry.make_eq hoff hfits
      have htag := hfits.keyTag
      have hkv := hfits.kvSize
      have hpba := hfits.pba
      rw [slotRaw, hmake]
      simp only [kHopRange, kKeyTagBits, kKvSizeBits, kUnusedPba, kPbaBits] at hoff htag hkv hpba
      simp only [ofRaw, rawPba, rawKvSize, rawKeyTag, rawBucketOffset,
        Nat.and_two_pow_sub_one_eq_mod, Nat.shiftRight_eq_div_pow, kKeyTagShift, kKvSizeShift,
        kPbaShift, kBucketOffsetBits, kKeyTagBits, kKvSizeBits, kPbaBits, kUnusedPba]
      obtain ⟨off, ⟨tag, kv, pba⟩⟩ := e
      simp only at hoff htag hkv hpba ⊢
      rw [if_neg (by omega)]
      congr
      · omega
      · omega
      · omega
      · omega

end UDepot
