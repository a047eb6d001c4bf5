import UDepot.Lib.Hopscotch

/-!
# The hash table

`HashTable` of `hash_table.cc`: a hopscotch table of packed entries.  A hash selects a bucket
by its low `indexBits` bits and a tag by the eight bits above them.  Lookups scan the bucket's
neighborhood of `kHopRange` slots upwards; insertion searches `kMaxDisplace` further
neighborhoods for a free slot and moves entries up to bring it near.

A slot holds an entry or nothing (`HashEntry::empty`), and an entry is kept as its four fields.
What a table holds is the multiset `items` of pairs of a bucket and an entry's tag, size and
address; each operation is described by what it does to `items`.
-/

namespace UDepot

open Hopscotch

/-- The slots of a neighborhood, `HashEntry::kHopRange`. -/
def kHopRange : Nat := 32

/-- How many neighborhoods past its own a write searches, `HashTable::kMaxDisplace`. -/
def kMaxDisplace : Nat := 64

/-- The slots a write searches from its bucket on. -/
def kSearchEnd : Nat := kHopRange * (kMaxDisplace + 1)

/-- The fields of an entry besides its distance from its bucket. -/
structure EntryInfo where
  keyTag : Nat
  kvSize : Nat
  pba : Nat
  deriving DecidableEq, Repr

/-- An entry that marks its key deleted; its address is that of the key's tombstone. -/
def EntryInfo.deleted (e : EntryInfo) : Bool := e.kvSize == 0

/-- A hash entry: its distance from its bucket, and its other fields. -/
abbrev HashEntry := Cell EntryInfo

/-- The tag of a hash in a table of `2 ^ bucketBits` buckets. -/
def hashToTag (hash bucketBits : Nat) : Nat := hash / 2 ^ bucketBits % 256

/-- A table of `2 ^ indexBits` buckets. -/
structure HashTable where
  indexBits : Nat
  slots : Slots EntryInfo

namespace HashTable

def numBuckets (t : HashTable) : Nat := 2 ^ t.indexBits

def totalSlots (t : HashTable) : Nat := t.numBuckets + kHopRange

def hashToBucket (t : HashTable) (hash : Nat) : Nat := hash % t.numBuckets

def tagOf (t : HashTable) (hash : Nat) : Nat := hashToTag hash t.indexBits

/-- A table with every slot unused. -/
def clear (indexBits : Nat) : HashTable := ⟨indexBits, fun _ => none⟩

/-! ### Reading -/

/-- The entry `i` slots above the bucket of a hash, if it belongs to the bucket and has the
hash's tag. -/
def matchAt (t : HashTable) (hash i : Nat) (includeDeleted : Bool) : Option HashEntry :=
  match t.slots (t.hashToBucket hash + i) with
  | none => none
  | some e =>
      if e.offset ≠ i then none
      else if e.val.keyTag ≠ t.tagOf hash then none
      else if e.val.deleted && !includeDeleted then none
      else some e

/-- The first match among the `n` slots from distance `i` on. -/
def lookupFrom (t : HashTable) (hash : Nat) (includeDeleted : Bool) : Nat → Nat → Option HashEntry
  | 0, _ => none
  | n + 1, i =>
      match t.matchAt hash i includeDeleted with
      | some e => some e
      | none => lookupFrom t hash includeDeleted n (i + 1)

/-- The next match at a distance of at least `start`. -/
def lookup (t : HashTable) (hash start : Nat) (includeDeleted : Bool) : Option HashEntry :=
  t.lookupFrom hash includeDeleted (kHopRange - start) start

/-- The slot of the entry for `(hash, pba)` among the `n` slots from distance `i` on. -/
def findPbaFrom (t : HashTable) (hash pba : Nat) : Nat → Nat → Option Nat
  | 0, _ => none
  | n + 1, i =>
      match t.matchAt hash i true with
      | some e => if e.val.pba = pba then some (t.hashToBucket hash + i)
          else findPbaFrom t hash pba n (i + 1)
      | none => findPbaFrom t hash pba n (i + 1)

/-- The slot of the entry for `(hash, pba)`. -/
def findPba (t : HashTable) (hash pba : Nat) : Option Nat :=
  t.findPbaFrom hash pba kHopRange 0

/-- The entry for `(hash, pba)`, live or deleted. -/
def entryAt (t : HashTable) (hash pba : Nat) : Option HashEntry :=
  (t.findPba hash pba).bind t.slots

/-! ### Writing

Each write is the list of its single-slot stores, in order.
-/

/-- The table after a list of stores. -/
def apply (t : HashTable) (ws : List (Store EntryInfo)) : HashTable :=
  { t with slots := t.slots.apply ws }

/-- The stores of an insertion, and whether it found room. -/
def insertStores (t : HashTable) (hash kvSize pba : Nat) : Bool × List (Store EntryInfo) :=
  place kHopRange t.slots (t.hashToBucket hash)
    (min (t.hashToBucket hash + kSearchEnd) t.totalSlots) ⟨t.tagOf hash, kvSize, pba⟩

/-- Insert an entry: whether it found room, and the table, whose entries may have moved even
if it did not. -/
def insertLocked (t : HashTable) (hash kvSize pba : Nat) : Bool × HashTable :=
  ((t.insertStores hash kvSize pba).1, t.apply (t.insertStores hash kvSize pba).2)

/-- The store that replaces the entry at `(hash, oldPba)`, if it is there. -/
def updateStores (t : HashTable) (hash oldPba newKvSize newPba : Nat) :
    Option (List (Store EntryInfo)) :=
  (t.findPba hash oldPba).map fun idx =>
    [⟨idx, some ⟨idx - t.hashToBucket hash, ⟨t.tagOf hash, newKvSize, newPba⟩⟩⟩]

/-- Replace the entry at `(hash, oldPba)` in place. -/
def updateLocked (t : HashTable) (hash oldPba newKvSize newPba : Nat) : Option HashTable :=
  (t.updateStores hash oldPba newKvSize newPba).map t.apply

/-- The store that clears the entry at `(hash, pba)`, if it is there. -/
def removeStores (t : HashTable) (hash pba : Nat) : Option (List (Store EntryInfo)) :=
  (t.findPba hash pba).map fun idx => [⟨idx, none⟩]

/-- Clear the entry at `(hash, pba)`. -/
def removeLocked (t : HashTable) (hash pba : Nat) : Option HashTable :=
  (t.removeStores hash pba).map t.apply

/-! ### Stripe locks -/

/-- The most stripes of a table, `HashTable::kMaxStripes`. -/
def kMaxStripes : Nat := 1024

/-- The slots a write may touch, from one neighborhood below its bucket on. -/
def kWriteReach : Nat := kHopRange + kSearchEnd

/-- Halve a number of stripes, at most `f` times, until each covers a write's reach. -/
def halveStripes (t : HashTable) : Nat → Nat → Nat
  | 0, n => n
  | f + 1, n =>
      if 1 < n ∧ (t.totalSlots + n - 1) / n < kWriteReach then t.halveStripes f (n / 2) else n

def numStripes (t : HashTable) : Nat := t.halveStripes 10 kMaxStripes

def slotsPerStripe (t : HashTable) : Nat := (t.totalSlots + t.numStripes - 1) / t.numStripes

/-- The first and the last of the stripes `lock_for` locks. -/
def lockFor (t : HashTable) (hash : Nat) : Nat × Nat :=
  ((t.hashToBucket hash - kHopRange) / t.slotsPerStripe,
    (min (t.hashToBucket hash + kSearchEnd) t.totalSlots - 1) / t.slotsPerStripe)

@[simp] theorem apply_indexBits (t : HashTable) (ws : List (Store EntryInfo)) :
    (t.apply ws).indexBits = t.indexBits := rfl

@[simp] theorem apply_slots (t : HashTable) (ws : List (Store EntryInfo)) :
    (t.apply ws).slots = t.slots.apply ws := rfl

theorem hashToBucket_lt (t : HashTable) (hash : Nat) : t.hashToBucket hash < t.numBuckets :=
  Nat.mod_lt _ (Nat.two_pow_pos _)

/-! ### Contents -/

/-- Every entry is in its bucket's neighborhood. -/
def Wf (t : HashTable) : Prop := Hopscotch.Wf kHopRange t.numBuckets t.slots

/-- The pairs of a bucket and an entry's other fields the table holds. -/
def items (t : HashTable) : Multiset (Nat × EntryInfo) := contents t.totalSlots t.slots

theorem Wf.clear (indexBits : Nat) : (clear indexBits).Wf := Hopscotch.Wf.empty _ _

@[simp] theorem items_clear (indexBits : Nat) : (clear indexBits).items = 0 := contents_empty _

theorem matchAt_eq_some
    {t : HashTable} {hash i : Nat} {incl : Bool} {e : HashEntry} :
  t.matchAt hash i incl = some e ↔
    t.slots (t.hashToBucket hash + i) = some e ∧ e.offset = i ∧ e.val.keyTag = t.tagOf hash
      ∧ (e.val.deleted = true → incl = true)
  := by
  unfold matchAt
  cases t.slots (t.hashToBucket hash + i) with
  | none => simp
  | some c =>
      simp only [Option.some.injEq]
      split_ifs with h₁ h₂ h₃
      · simp only [false_iff]
        rintro ⟨rfl, h, -⟩
        apply h₁ h
      · simp only [false_iff]
        rintro ⟨rfl, -, h, -⟩
        apply h₂ h
      · simp only [false_iff]
        rintro ⟨rfl, -, -, h⟩
        simp_all
      · simp only [Option.some.injEq]
        constructor
        · rintro rfl
          simp_all
        · rintro ⟨rfl, -⟩
          rfl

theorem matchAt_offset
    {t : HashTable} {hash i : Nat} {incl : Bool} {e : HashEntry}
    (h : t.matchAt hash i incl = some e) :
  e.offset = i
  := (matchAt_eq_some.mp h).2.1

theorem lookupFrom_eq_none
    {t : HashTable} {hash : Nat} {incl : Bool} :
  ∀ {n i : Nat}, t.lookupFrom hash incl n i = none ↔
    ∀ j, i ≤ j → j < i + n → t.matchAt hash j incl = none
  | 0, i => by
      simp only [lookupFrom, true_iff]
      intro j hij hji
      omega
  | n + 1, i => by
      rw [lookupFrom]
      cases hm : t.matchAt hash i incl with
      | some e =>
          simp only [reduceCtorEq, false_iff, not_forall]
          use i, le_rfl, by omega
          simp [hm]
      | none =>
          simp only
          rw [lookupFrom_eq_none]
          constructor
          · intro h j hij hjn
            obtain rfl | hlt := Nat.eq_or_lt_of_le hij
            · apply hm
            · apply h j hlt (by omega)
          · intro h j hij hjn
            apply h j (by omega) (by omega)

theorem lookupFrom_eq_some
    {t : HashTable} {hash : Nat} {incl : Bool} {e : HashEntry} :
  ∀ {n i : Nat}, t.lookupFrom hash incl n i = some e →
    i ≤ e.offset ∧ e.offset < i + n ∧ t.matchAt hash e.offset incl = some e
      ∧ ∀ j, i ≤ j → j < e.offset → t.matchAt hash j incl = none
  | n + 1, i, h => by
      rw [lookupFrom] at h
      cases hm : t.matchAt hash i incl with
      | some c =>
          simp only [hm, Option.some.injEq] at h
          subst h
          obtain rfl := matchAt_offset hm
          refine ⟨le_rfl, by omega, hm, ?_⟩
          intro j hij hji
          omega
      | none =>
          simp only [hm] at h
          obtain ⟨hle, hlt, hmatch, hbelow⟩ := lookupFrom_eq_some h
          refine ⟨by omega, by omega, hmatch, ?_⟩
          intro j hij hjo
          obtain rfl | hne := Nat.eq_or_lt_of_le hij
          · apply hm
          · apply hbelow j hne hjo

/-- A lookup finds nothing exactly when no slot from `start` on matches. -/
theorem lookup_eq_none
    {t : HashTable} {hash start : Nat} {incl : Bool} :
  t.lookup hash start incl = none ↔
    ∀ j, start ≤ j → j < kHopRange → t.matchAt hash j incl = none
  := by
  rw [lookup, lookupFrom_eq_none]
  constructor
  · intro h j hle hlt
    apply h j hle (by omega)
  · intro h j hle hlt
    apply h j hle (by omega)

/-- A lookup finds the lowest match from `start` on. -/
theorem lookup_eq_some
    {t : HashTable} {hash start : Nat} {incl : Bool} {e : HashEntry}
    (h : t.lookup hash start incl = some e) :
  start ≤ e.offset ∧ e.offset < kHopRange ∧ t.matchAt hash e.offset incl = some e
    ∧ ∀ j, start ≤ j → j < e.offset → t.matchAt hash j incl = none
  := by
  obtain ⟨hle, hlt, hmatch, hbelow⟩ := lookupFrom_eq_some h
  exact ⟨hle, by omega, hmatch, hbelow⟩

/-- An entry found in the neighborhood of a hash is among the items. -/
theorem Wf.mem_items_of_matchAt
    {t : HashTable} (ht : t.Wf) {hash i : Nat} {incl : Bool} {e : HashEntry}
    (h : t.matchAt hash i incl = some e) :
  (t.hashToBucket hash, e.val) ∈ t.items ∧ e.val.keyTag = t.tagOf hash
  := by
  obtain ⟨hslot, rfl, htag, -⟩ := matchAt_eq_some.mp h
  constructor
  · apply (Hopscotch.Wf.mem_contents_iff ht).mpr
    use e.offset, ht.reach hslot, t.hashToBucket_lt hash, hslot
  · apply htag

/-- Every item in the bucket and with the tag of a hash is found in its neighborhood. -/
theorem Wf.exists_matchAt
    {t : HashTable} (ht : t.Wf) {hash : Nat} {x : EntryInfo}
    (hx : (t.hashToBucket hash, x) ∈ t.items) (htag : x.keyTag = t.tagOf hash) :
  ∃ d < kHopRange, t.matchAt hash d true = some ⟨d, x⟩
  := by
  obtain ⟨d, hd, -, hslot⟩ := (Hopscotch.Wf.mem_contents_iff ht).mp hx
  use d, hd
  apply matchAt_eq_some.mpr
  exact ⟨hslot, rfl, htag, fun _ => rfl⟩

theorem findPbaFrom_eq_some
    {t : HashTable} {hash pba idx : Nat} :
  ∀ {n i : Nat}, t.findPbaFrom hash pba n i = some idx →
    ∃ d e, idx = t.hashToBucket hash + d ∧ t.matchAt hash d true = some e ∧ e.val.pba = pba
  | n + 1, i, h => by
      rw [findPbaFrom] at h
      cases hm : t.matchAt hash i true with
      | none =>
          simp only [hm] at h
          apply findPbaFrom_eq_some h
      | some e =>
          simp only [hm] at h
          split at h
          · rename_i hpba
            cases h
            exact ⟨i, e, rfl, hm, hpba⟩
          · apply findPbaFrom_eq_some h

theorem findPbaFrom_eq_none
    {t : HashTable} {hash pba : Nat} :
  ∀ {n i : Nat}, t.findPbaFrom hash pba n i = none →
    ∀ j, i ≤ j → j < i + n → ∀ e, t.matchAt hash j true = some e → e.val.pba ≠ pba
  | 0, i, _, j, hij, hjn, e, he => by omega
  | n + 1, i, h, j, hij, hjn, e, he => by
      rw [findPbaFrom] at h
      cases hm : t.matchAt hash i true with
      | none =>
          simp only [hm] at h
          obtain rfl | hlt := Nat.eq_or_lt_of_le hij
          · rw [hm] at he
            cases he
          · apply findPbaFrom_eq_none h j hlt (by omega) e he
      | some c =>
          simp only [hm] at h
          split at h
          · cases h
          · rename_i hpba
            obtain rfl | hlt := Nat.eq_or_lt_of_le hij
            · rw [hm] at he
              cases he
              apply hpba
            · apply findPbaFrom_eq_none h j hlt (by omega) e he

/-- An entry is in a slot of its table. -/
theorem Wf.lt_totalSlots
    {t : HashTable} (ht : t.Wf) {idx : Nat} {e : HashEntry} (hslot : t.slots idx = some e) :
  idx < t.totalSlots
  := by
  have hreach := ht.reach hslot
  have hhome := ht.home hslot
  rw [totalSlots]
  omega

/-- `findPba` finds a slot of the bucket that holds the address with the hash's tag. -/
theorem Wf.findPba_eq_some
    {t : HashTable} (ht : t.Wf) {hash pba idx : Nat} (h : t.findPba hash pba = some idx) :
  ∃ e : HashEntry, t.slots idx = some e ∧ idx = t.hashToBucket hash + e.offset
    ∧ e.offset < kHopRange ∧ e.val.keyTag = t.tagOf hash ∧ e.val.pba = pba
    ∧ (t.hashToBucket hash, e.val) ∈ t.items
  := by
  obtain ⟨d, e, rfl, hm, hpba⟩ := findPbaFrom_eq_some h
  obtain ⟨hmem, htag⟩ := ht.mem_items_of_matchAt hm
  obtain ⟨hslot, rfl, -⟩ := matchAt_eq_some.mp hm
  exact ⟨e, hslot, rfl, ht.reach hslot, htag, hpba, hmem⟩

/-- `findPba` finds nothing only if no item of the bucket with the hash's tag has the
address. -/
theorem Wf.findPba_eq_none
    {t : HashTable} (ht : t.Wf) {hash pba : Nat} (h : t.findPba hash pba = none)
    {x : EntryInfo} (hx : (t.hashToBucket hash, x) ∈ t.items) (htag : x.keyTag = t.tagOf hash) :
  x.pba ≠ pba
  := by
  obtain ⟨d, hd, hm⟩ := ht.exists_matchAt hx htag
  apply findPbaFrom_eq_none h d (Nat.zero_le d) (by omega) _ hm

/-- An entry found by its address is an item of the hash's bucket with its tag. -/
theorem Wf.entryAt_eq_some
    {t : HashTable} (ht : t.Wf) {hash pba : Nat} {e : HashEntry}
    (h : t.entryAt hash pba = some e) :
  (t.hashToBucket hash, e.val) ∈ t.items ∧ e.val.keyTag = t.tagOf hash ∧ e.val.pba = pba
  := by
  obtain ⟨idx, hidx, hslot⟩ := Option.bind_eq_some_iff.mp h
  obtain ⟨e', hslot', -, -, htag, hpba, hmem⟩ := ht.findPba_eq_some hidx
  obtain rfl := Option.some.inj (hslot.symm.trans hslot')
  exact ⟨hmem, htag, hpba⟩

/-- Looking an address up by `entryAt` fails only if no item of the bucket with the hash's
tag has it. -/
theorem Wf.entryAt_eq_none
    {t : HashTable} (ht : t.Wf) {hash pba : Nat} (h : t.entryAt hash pba = none)
    {x : EntryInfo} (hx : (t.hashToBucket hash, x) ∈ t.items) (htag : x.keyTag = t.tagOf hash) :
  x.pba ≠ pba
  := by
  cases hf : t.findPba hash pba with
  | none => apply ht.findPba_eq_none hf hx htag
  | some idx =>
      obtain ⟨e, hslot, -⟩ := ht.findPba_eq_some hf
      rw [entryAt, hf, Option.bind_some, hslot] at h
      cases h

/-! ### What the writes do -/

/-- An insertion keeps the table well formed; it adds its entry if it finds room and changes
nothing otherwise, although entries may have moved on the way. -/
theorem Wf.insertLocked
    {t t' : HashTable} (ht : t.Wf) {hash kvSize pba : Nat} {ok : Bool}
    (h : t.insertLocked hash kvSize pba = (ok, t')) :
  t'.Wf ∧ t'.indexBits = t.indexBits ∧
    t'.items = (if ok then {(t.hashToBucket hash, ⟨t.tagOf hash, kvSize, pba⟩)} else 0) + t.items
  := by
  obtain ⟨rfl, rfl⟩ := Prod.mk.inj h
  have hplace : t.insertStores hash kvSize pba = (_, _) := rfl
  obtain ⟨hwf, hitems⟩ :=
    place_spec ht hplace (t.hashToBucket_lt hash) (Nat.min_le_right _ _)
  exact ⟨hwf, rfl, hitems⟩

/-- An insertion with a free slot in the neighborhood makes one store, no higher than that
slot. -/
theorem insertLocked_of_free
    {t : HashTable} (hash kvSize pba : Nat) {s : Nat} (hle : t.hashToBucket hash ≤ s)
    (hreach : s - t.hashToBucket hash < kHopRange) (hfree : t.slots s = none) :
  ∃ f, t.hashToBucket hash ≤ f ∧ f ≤ s ∧ t.insertLocked hash kvSize pba
    = (true, t.apply [⟨f, some ⟨f - t.hashToBucket hash, ⟨t.tagOf hash, kvSize, pba⟩⟩⟩])
  := by
  have hlt := t.hashToBucket_lt hash
  have hlimit : s < min (t.hashToBucket hash + kSearchEnd) t.totalSlots := by
    rw [totalSlots, kSearchEnd, kMaxDisplace]
    omega
  obtain ⟨f, hbf, hfs, -, hplace⟩ := place_of_free
    (⟨t.tagOf hash, kvSize, pba⟩ : EntryInfo) hle hreach hlimit hfree
  use f, hbf, hfs
  rw [HashTable.insertLocked, insertStores, hplace]

/-- The effect of an in-place update: the item with the old address is exchanged for the new
one. -/
theorem Wf.updateLocked
    {t t' : HashTable} (ht : t.Wf) {hash oldPba newKvSize newPba : Nat}
    (h : t.updateLocked hash oldPba newKvSize newPba = some t') :
  t'.Wf ∧ t'.indexBits = t.indexBits ∧
    ∃ x : EntryInfo, x.keyTag = t.tagOf hash ∧ x.pba = oldPba ∧
      (t.hashToBucket hash, x) ∈ t.items ∧
      (t.hashToBucket hash, x) ::ₘ t'.items
        = (t.hashToBucket hash, ⟨t.tagOf hash, newKvSize, newPba⟩) ::ₘ t.items
  := by
  obtain ⟨ws, hws, rfl⟩ := Option.map_eq_some_iff.mp h
  obtain ⟨idx, hidx, rfl⟩ := Option.map_eq_some_iff.mp hws
  obtain ⟨e, hslot, rfl, hoff, htag, hpba, hmem⟩ := ht.findPba_eq_some hidx
  have hlt := t.hashToBucket_lt hash
  have hin := ht.lt_totalSlots hslot
  refine ⟨?_, rfl, e.val, htag, hpba, hmem, ?_⟩
  · apply Hopscotch.Wf.store ht
    rintro c ⟨rfl⟩
    change _ - _ < kHopRange ∧ _ - _ ≤ _ ∧ _ - (_ - _) < t.numBuckets
    simp only
    omega
  · have hrep := contents_replace hin hslot
      ⟨t.hashToBucket hash + e.offset - t.hashToBucket hash, ⟨t.tagOf hash, newKvSize, newPba⟩⟩
    simp only [Nat.add_sub_cancel, Nat.add_sub_cancel_left] at hrep
    simp only [Nat.add_sub_cancel_left]
    apply hrep

/-- An update succeeds when an item of the bucket with the hash's tag has the old address. -/
theorem Wf.exists_updateLocked
    {t : HashTable} (ht : t.Wf) {hash oldPba : Nat} (newKvSize newPba : Nat) {x : EntryInfo}
    (hx : (t.hashToBucket hash, x) ∈ t.items) (htag : x.keyTag = t.tagOf hash)
    (hpba : x.pba = oldPba) :
  ∃ t', t.updateLocked hash oldPba newKvSize newPba = some t'
  := by
  cases hf : t.findPba hash oldPba with
  | none => exact absurd hpba (ht.findPba_eq_none hf hx htag)
  | some idx => simp [HashTable.updateLocked, updateStores, hf]

/-- The effect of a removal: an item with the address goes. -/
theorem Wf.removeLocked
    {t t' : HashTable} (ht : t.Wf) {hash pba : Nat} (h : t.removeLocked hash pba = some t') :
  t'.Wf ∧ t'.indexBits = t.indexBits ∧
    ∃ x : EntryInfo, x.keyTag = t.tagOf hash ∧ x.pba = pba ∧
      t.items = (t.hashToBucket hash, x) ::ₘ t'.items
  := by
  obtain ⟨ws, hws, rfl⟩ := Option.map_eq_some_iff.mp h
  obtain ⟨idx, hidx, rfl⟩ := Option.map_eq_some_iff.mp hws
  obtain ⟨e, hslot, rfl, hoff, htag, hpba, hmem⟩ := ht.findPba_eq_some hidx
  have hin := ht.lt_totalSlots hslot
  refine ⟨?_, rfl, e.val, htag, hpba, ?_⟩
  · apply Hopscotch.Wf.store ht
    simp
  · have hclear := contents_clear hin hslot
    simp only [Nat.add_sub_cancel] at hclear
    apply hclear

/-- A removal succeeds when an item of the bucket with the hash's tag has the address. -/
theorem Wf.exists_removeLocked
    {t : HashTable} (ht : t.Wf) {hash pba : Nat} {x : EntryInfo}
    (hx : (t.hashToBucket hash, x) ∈ t.items) (htag : x.keyTag = t.tagOf hash)
    (hpba : x.pba = pba) :
  ∃ t', t.removeLocked hash pba = some t'
  := by
  cases hf : t.findPba hash pba with
  | none => exact absurd hpba (ht.findPba_eq_none hf hx htag)
  | some idx => simp [HashTable.removeLocked, removeStores, hf]

end HashTable

end UDepot
