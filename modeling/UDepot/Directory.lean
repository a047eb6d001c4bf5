import UDepot.HashTable

/-!
# The directory

A snapshot of the directory (`directory.h`): `2 ^ tableBits` hash tables of equal size.  The
table of a key is selected by the top `tableBits` bits of its tag.  A grow makes a snapshot with
twice the tables and copies every entry of the old tables into it, slot by slot in ascending
order.

An entry is never moved up by the copy: when the entry of slot `s` is inserted, every entry
already in its new table comes from a lower slot of the same old table and lies no higher than
it did there, so slot `s` of the new table is still free.  The insertion therefore succeeds
without moving anything.
-/

namespace UDepot

open Hopscotch

/-- The width of a tag, `DirSnapshot::kMaxTableBits`. -/
def kMaxTableBits : Nat := 8

/-- A snapshot: `2 ^ tableBits` tables of `2 ^ bucketBits` buckets. -/
structure DirSnapshot where
  tables : Nat → HashTable
  tableBits : Nat
  bucketBits : Nat
  generation : Nat
  frozen : Bool

namespace DirSnapshot

def size (snap : DirSnapshot) : Nat := 2 ^ snap.tableBits

/-- The table of a hash, selected by the top bits of its tag. -/
def tableIndex (snap : DirSnapshot) (hash : Nat) : Nat :=
  if snap.tableBits = 0 then 0
  else hashToTag hash snap.bucketBits >>> (kMaxTableBits - snap.tableBits)

def tableForHash (snap : DirSnapshot) (hash : Nat) : HashTable :=
  snap.tables (snap.tableIndex hash)

/-- The bucket of a hash in its table. -/
def bucketOf (snap : DirSnapshot) (hash : Nat) : Nat := hash % 2 ^ snap.bucketBits

/-- The tag of a hash. -/
def tagOf (snap : DirSnapshot) (hash : Nat) : Nat := hashToTag hash snap.bucketBits

/-- Replace one table. -/
def setTable (snap : DirSnapshot) (k : Nat) (t : HashTable) : DirSnapshot :=
  { snap with tables := Function.update snap.tables k t }

@[simp]
theorem setTable_self (snap : DirSnapshot) (k : Nat) (t : HashTable) :
    (snap.setTable k t).tables k = t := by
  simp [setTable]

theorem setTable_ne (snap : DirSnapshot) {j k : Nat} (t : HashTable) (h : j ≠ k) :
    (snap.setTable k t).tables j = snap.tables j := by
  simp [setTable, h]

/-- A snapshot of cleared tables. -/
def cleared (tableBits bucketBits : Nat) : DirSnapshot :=
  ⟨fun _ => .clear bucketBits, tableBits, bucketBits, 0, false⟩

/-- A snapshot of one cleared table. -/
def create (bucketBits : Nat) : DirSnapshot := cleared 0 bucketBits

/-- The next match of a hash at a distance of at least `start`, `Directory::lookup`. -/
def lookup (snap : DirSnapshot) (hash start : Nat) (includeDeleted : Bool) : Option HashEntry :=
  (snap.tableForHash hash).lookup hash start includeDeleted

/-- Insert into the table of a hash. -/
def insertLocked (snap : DirSnapshot) (hash kvSize pba : Nat) : Bool × DirSnapshot :=
  (((snap.tableForHash hash).insertLocked hash kvSize pba).1,
    snap.setTable (snap.tableIndex hash) ((snap.tableForHash hash).insertLocked hash kvSize pba).2)

/-- Update in the table of a hash. -/
def updateLocked (snap : DirSnapshot) (hash oldPba newKvSize newPba : Nat) : Option DirSnapshot :=
  ((snap.tableForHash hash).updateLocked hash oldPba newKvSize newPba).map
    (snap.setTable (snap.tableIndex hash))

/-- Remove from the table of a hash. -/
def removeLocked (snap : DirSnapshot) (hash pba : Nat) : Option DirSnapshot :=
  ((snap.tableForHash hash).removeLocked hash pba).map (snap.setTable (snap.tableIndex hash))

/-- Whether the locks of two hashes exclude each other: they are in one table and have a stripe
in common. -/
def locksMeet (snap : DirSnapshot) (h h' : Nat) : Bool :=
  let l := (snap.tableForHash h).lockFor h
  let l' := (snap.tableForHash h').lockFor h'
  snap.tableIndex h == snap.tableIndex h'
    && (l.1 == l'.1 || l.1 == l'.2 || l.2 == l'.1 || l.2 == l'.2)

/-! ### Growing -/

/-- The hash of an entry as far as the directory needs it: its tag above its home bucket. -/
def entryHash (old : DirSnapshot) (s : Nat) (e : HashEntry) : Nat :=
  e.val.keyTag <<< old.bucketBits ||| (s - e.offset)

/-- Copy the entry of slot `s` of table `j`, if there is one. -/
def copySlot (old : DirSnapshot) (j s : Nat) (new : DirSnapshot) : DirSnapshot :=
  match (old.tables j).slots s with
  | none => new
  | some e => (new.insertLocked (old.entryHash s e) e.val.kvSize e.val.pba).2

/-- Copy the first `n` slots of table `j`, in ascending order. -/
def copySlots (old : DirSnapshot) (j : Nat) : Nat → DirSnapshot → DirSnapshot
  | 0, new => new
  | s + 1, new => old.copySlot j s (old.copySlots j s new)

/-- Copy the first `n` tables. -/
def copyTables (old : DirSnapshot) : Nat → DirSnapshot → DirSnapshot
  | 0, new => new
  | j + 1, new => old.copySlots j (old.tables j).totalSlots (old.copyTables j new)

/-- The snapshot a grow copies into: twice the tables, all cleared. -/
def doubled (old : DirSnapshot) : DirSnapshot :=
  ⟨fun _ => .clear old.bucketBits, old.tableBits + 1, old.bucketBits, old.generation + 1, false⟩

/-- The snapshot a grow publishes. -/
def growCopy (old : DirSnapshot) : DirSnapshot := old.copyTables old.size old.doubled

/-! ### Well-formed snapshots -/

/-- Every table is well formed, and every entry is in the table its tag selects. -/
structure Wf (snap : DirSnapshot) : Prop where
  bits : snap.tableBits ≤ kMaxTableBits
  table : ∀ {j}, j < snap.size → (snap.tables j).Wf
  indexBits : ∀ {j}, j < snap.size → (snap.tables j).indexBits = snap.bucketBits
  tag : ∀ {j x}, j < snap.size → x ∈ (snap.tables j).items → x.2.keyTag < 256
  select : ∀ {j x}, j < snap.size → x ∈ (snap.tables j).items →
    x.2.keyTag / 2 ^ (kMaxTableBits - snap.tableBits) = j

/-- The pairs of a bucket and an entry's other fields a snapshot holds. -/
def items (snap : DirSnapshot) : Multiset (Nat × EntryInfo) :=
  ∑ j ∈ Finset.range snap.size, (snap.tables j).items

theorem mem_items {snap : DirSnapshot} {x : Nat × EntryInfo} :
    x ∈ snap.items ↔ ∃ j < snap.size, x ∈ (snap.tables j).items := by
  simp [items, Multiset.mem_sum]

theorem Wf.cleared
    {tableBits : Nat} (hbits : tableBits ≤ kMaxTableBits) (bucketBits : Nat) :
  (cleared tableBits bucketBits).Wf where
  bits := hbits
  table := fun _ => .clear _
  indexBits := fun _ => rfl
  tag := fun _ hx => by simp [DirSnapshot.cleared] at hx
  select := fun _ hx => by simp [DirSnapshot.cleared] at hx

theorem Wf.create (bucketBits : Nat) : (create bucketBits).Wf := .cleared (Nat.zero_le _) _

@[simp] theorem items_create (bucketBits : Nat) : (create bucketBits).items = 0 := by
  simp [items, create, cleared]

theorem tagOf_lt (snap : DirSnapshot) (hash : Nat) : snap.tagOf hash < 256 :=
  Nat.mod_lt _ (by omega)

/-- The table of a hash is the one its tag selects. -/
theorem tableIndex_eq (snap : DirSnapshot) (hash : Nat) :
    snap.tableIndex hash = snap.tagOf hash / 2 ^ (kMaxTableBits - snap.tableBits) := by
  rw [tableIndex, ← tagOf]
  split
  · rename_i h
    have hlt := snap.tagOf_lt hash
    rw [h, kMaxTableBits]
    symm
    apply Nat.div_eq_of_lt hlt
  · apply Nat.shiftRight_eq_div_pow

theorem tableIndex_lt {snap : DirSnapshot} (h : snap.tableBits ≤ kMaxTableBits) (hash : Nat) :
    snap.tableIndex hash < snap.size := by
  rw [tableIndex_eq, size, Nat.div_lt_iff_lt_mul (Nat.two_pow_pos _), ← Nat.pow_add,
    Nat.add_sub_cancel' h]
  apply snap.tagOf_lt

section Wf

variable {snap : DirSnapshot} (h : snap.Wf)
include h

theorem Wf.tableForHash (hash : Nat) : (snap.tableForHash hash).Wf :=
  h.table (tableIndex_lt h.bits hash)

theorem Wf.hashToBucket (hash : Nat) :
    (snap.tableForHash hash).hashToBucket hash = snap.bucketOf hash := by
  rw [HashTable.hashToBucket, HashTable.numBuckets, DirSnapshot.tableForHash,
    h.indexBits (tableIndex_lt h.bits hash), bucketOf]

theorem Wf.tagOf (hash : Nat) : (snap.tableForHash hash).tagOf hash = snap.tagOf hash := by
  rw [HashTable.tagOf, DirSnapshot.tableForHash, h.indexBits (tableIndex_lt h.bits hash),
    DirSnapshot.tagOf]

/-- Hashes with one bucket and one tag have their locks in common. -/
theorem Wf.locksMeet
    {hash hash' : Nat} (hbucket : snap.bucketOf hash = snap.bucketOf hash')
    (htag : snap.tagOf hash = snap.tagOf hash') :
  snap.locksMeet hash hash' = true
  := by
  have hindex : snap.tableIndex hash = snap.tableIndex hash' := by
    rw [tableIndex_eq, tableIndex_eq, htag]
  have hlock : (snap.tableForHash hash).lockFor hash = (snap.tableForHash hash').lockFor hash' := by
    have hb := h.hashToBucket hash
    have hb' := h.hashToBucket hash'
    rw [HashTable.lockFor, HashTable.lockFor, hb, hb', hbucket, DirSnapshot.tableForHash,
      DirSnapshot.tableForHash, hindex]
  simp [DirSnapshot.locksMeet, hindex, hlock]

/-- An item of the snapshot with the tag of a hash is in the table of the hash. -/
theorem Wf.mem_items_iff
    {hash b : Nat} {x : EntryInfo} (htag : x.keyTag = snap.tagOf hash) :
  (b, x) ∈ snap.items ↔ (b, x) ∈ (snap.tableForHash hash).items
  := by
  rw [mem_items]
  constructor
  · rintro ⟨j, hj, hx⟩
    have hsel := h.select hj hx
    rw [htag, ← tableIndex_eq] at hsel
    rw [DirSnapshot.tableForHash, hsel]
    apply hx
  · intro hx
    exact ⟨_, tableIndex_lt h.bits hash, hx⟩

/-- Replacing a table by a well-formed one whose items its index selects keeps the snapshot
well formed. -/
theorem Wf.setTable
    {k : Nat} {t : HashTable} (ht : t.Wf) (hbits : t.indexBits = snap.bucketBits)
    (hitems : ∀ x ∈ t.items, x.2.keyTag < 256
      ∧ x.2.keyTag / 2 ^ (kMaxTableBits - snap.tableBits) = k) :
  (snap.setTable k t).Wf
  := by
  have hk := snap.setTable_self k t
  have hne : ∀ {j}, j ≠ k → (snap.setTable k t).tables j = snap.tables j :=
    snap.setTable_ne t
  constructor
  · apply h.bits
  · intro j hj
    by_cases hjk : j = k
    · rw [hjk, hk]
      apply ht
    · rw [hne hjk]
      apply h.table hj
  · intro j hj
    by_cases hjk : j = k
    · rw [hjk, hk]
      apply hbits
    · rw [hne hjk]
      apply h.indexBits hj
  · intro j x hj hx
    by_cases hjk : j = k
    · rw [hjk, hk] at hx
      apply (hitems x hx).1
    · rw [hne hjk] at hx
      apply h.tag hj hx
  · intro j x hj hx
    by_cases hjk : j = k
    · rw [hjk, hk] at hx
      rw [hjk]
      apply (hitems x hx).2
    · rw [hne hjk] at hx
      apply h.select hj hx

end Wf

/-- Replacing a table exchanges its items. -/
theorem items_setTable
    {snap : DirSnapshot} {k : Nat} (hk : k < snap.size) (t : HashTable) :
  (snap.setTable k t).items + (snap.tables k).items = snap.items + t.items
  := by
  have hmem : k ∈ Finset.range snap.size := Finset.mem_range.mpr hk
  have hrest : ∑ j ∈ (Finset.range snap.size).erase k, ((snap.setTable k t).tables j).items
      = ∑ j ∈ (Finset.range snap.size).erase k, (snap.tables j).items := by
    apply Finset.sum_congr rfl
    intro j hj
    rw [setTable_ne _ _ (Finset.ne_of_mem_erase hj)]
  unfold items
  change ∑ j ∈ Finset.range snap.size, ((snap.setTable k t).tables j).items + _ = _
  rw [← Finset.add_sum_erase _ _ hmem, hrest, setTable_self,
    ← Finset.add_sum_erase _ (fun j => (snap.tables j).items) hmem]
  ac_rfl

/-! ### What the writes do to a snapshot -/

section Writes

variable {snap snap' : DirSnapshot} (h : snap.Wf) {hash : Nat}
include h

/-- The tag of every item of a hash's table, and of one more item with the hash's tag, selects
that table. -/
theorem Wf.select_table
    {x : Nat × EntryInfo}
    (hx : x ∈ (snap.tableForHash hash).items ∨ x.2.keyTag = snap.tagOf hash) :
  x.2.keyTag < 256
    ∧ x.2.keyTag / 2 ^ (kMaxTableBits - snap.tableBits) = snap.tableIndex hash
  := by
  obtain hx | hx := hx
  · have hlt := tableIndex_lt h.bits hash
    exact ⟨h.tag hlt hx, h.select hlt hx⟩
  · rw [hx]
    exact ⟨snap.tagOf_lt hash, (snap.tableIndex_eq hash).symm⟩

/-- An insertion adds its entry if it finds room, and changes no item otherwise. -/
theorem Wf.insertLocked
    {kvSize pba : Nat} {ok : Bool} (hi : snap.insertLocked hash kvSize pba = (ok, snap')) :
  snap'.Wf ∧ snap'.tableBits = snap.tableBits ∧ snap'.bucketBits = snap.bucketBits
    ∧ snap'.generation = snap.generation ∧ snap'.frozen = snap.frozen
    ∧ snap'.items
      = (if ok then {(snap.bucketOf hash, ⟨snap.tagOf hash, kvSize, pba⟩)} else 0) + snap.items
  := by
  obtain ⟨rfl, rfl⟩ := Prod.mk.inj hi
  have hlt := tableIndex_lt h.bits hash
  have hspec := (h.tableForHash hash).insertLocked
    (Prod.mk.eta (p := (snap.tableForHash hash).insertLocked hash kvSize pba)).symm
  rw [h.hashToBucket, h.tagOf] at hspec
  obtain ⟨hwf, hbits, hitems⟩ := hspec
  refine ⟨?_, rfl, rfl, rfl, rfl, ?_⟩
  · apply h.setTable hwf (hbits.trans (h.indexBits hlt))
    intro x hx
    apply h.select_table
    rw [hitems] at hx
    split at hx
    · obtain hx | hx := Multiset.mem_add.mp hx
      · obtain rfl := Multiset.mem_singleton.mp hx
        right
        rfl
      · left
        apply hx
    · rw [zero_add] at hx
      left
      apply hx
  · have hset := items_setTable hlt ((snap.tableForHash hash).insertLocked hash kvSize pba).2
    rw [hitems, ← add_assoc] at hset
    apply add_right_cancel (b := (snap.tables (snap.tableIndex hash)).items)
    rw [hset, DirSnapshot.tableForHash]
    ac_rfl

/-- An update exchanges the item with the old address for the new one. -/
theorem Wf.updateLocked
    {oldPba newKvSize newPba : Nat}
    (hu : snap.updateLocked hash oldPba newKvSize newPba = some snap') :
  snap'.Wf ∧ snap'.tableBits = snap.tableBits ∧ snap'.bucketBits = snap.bucketBits
    ∧ snap'.generation = snap.generation ∧ snap'.frozen = snap.frozen
    ∧ ∃ x : EntryInfo, x.keyTag = snap.tagOf hash ∧ x.pba = oldPba
      ∧ (snap.bucketOf hash, x) ∈ snap.items
      ∧ (snap.bucketOf hash, x) ::ₘ snap'.items
        = (snap.bucketOf hash, ⟨snap.tagOf hash, newKvSize, newPba⟩) ::ₘ snap.items
  := by
  obtain ⟨t', ht', rfl⟩ := Option.map_eq_some_iff.mp hu
  have hlt := tableIndex_lt h.bits hash
  obtain ⟨hwf, hbits, x, htag, hpba, hmem, hitems⟩ := (h.tableForHash hash).updateLocked ht'
  rw [h.hashToBucket] at hmem
  rw [h.hashToBucket, h.tagOf] at hitems
  rw [h.tagOf] at htag
  refine ⟨?_, rfl, rfl, rfl, rfl, x, htag, hpba, (h.mem_items_iff htag).mpr hmem, ?_⟩
  · apply h.setTable hwf (hbits.trans (h.indexBits hlt))
    intro y hy
    apply h.select_table
    have hy' : y ∈ (snap.bucketOf hash, x) ::ₘ t'.items := Multiset.mem_cons_of_mem hy
    rw [hitems] at hy'
    obtain rfl | hy' := Multiset.mem_cons.mp hy'
    · right
      rfl
    · left
      apply hy'
  · have hset := items_setTable hlt t'
    apply add_right_cancel (b := (snap.tables (snap.tableIndex hash)).items)
    rw [Multiset.cons_add, hset, ← Multiset.add_cons, hitems, DirSnapshot.tableForHash,
      Multiset.add_cons, Multiset.cons_add]

/-- A removal takes an item with the address away. -/
theorem Wf.removeLocked
    {pba : Nat} (hr : snap.removeLocked hash pba = some snap') :
  snap'.Wf ∧ snap'.tableBits = snap.tableBits ∧ snap'.bucketBits = snap.bucketBits
    ∧ snap'.generation = snap.generation ∧ snap'.frozen = snap.frozen
    ∧ ∃ x : EntryInfo, x.keyTag = snap.tagOf hash ∧ x.pba = pba
      ∧ snap.items = (snap.bucketOf hash, x) ::ₘ snap'.items
  := by
  obtain ⟨t', ht', rfl⟩ := Option.map_eq_some_iff.mp hr
  have hlt := tableIndex_lt h.bits hash
  obtain ⟨hwf, hbits, x, htag, hpba, hitems⟩ := (h.tableForHash hash).removeLocked ht'
  rw [h.hashToBucket] at hitems
  rw [h.tagOf] at htag
  refine ⟨?_, rfl, rfl, rfl, rfl, x, htag, hpba, ?_⟩
  · apply h.setTable hwf (hbits.trans (h.indexBits hlt))
    intro y hy
    apply h.select_table
    left
    rw [hitems]
    apply Multiset.mem_cons_of_mem hy
  · have hset := items_setTable hlt t'
    apply add_right_cancel (b := t'.items)
    rw [← hset, Multiset.cons_add, ← Multiset.add_cons, ← hitems, DirSnapshot.tableForHash]

/-- An update succeeds when an item of the hash's bucket with its tag has the old address. -/
theorem Wf.exists_updateLocked
    {oldPba : Nat} (newKvSize newPba : Nat) {x : EntryInfo}
    (hx : (snap.bucketOf hash, x) ∈ snap.items)
    (htag : x.keyTag = snap.tagOf hash) (hpba : x.pba = oldPba) :
  ∃ snap', snap.updateLocked hash oldPba newKvSize newPba = some snap'
  := by
  have hmem := (h.mem_items_iff htag).mp hx
  rw [← h.hashToBucket] at hmem
  obtain ⟨t', ht'⟩ := (h.tableForHash hash).exists_updateLocked newKvSize newPba hmem
    (htag.trans (h.tagOf hash).symm) hpba
  use snap.setTable (snap.tableIndex hash) t'
  rw [DirSnapshot.updateLocked, ht']
  rfl

/-- A removal succeeds when an item of the hash's bucket with its tag has the address. -/
theorem Wf.exists_removeLocked
    {pba : Nat} {x : EntryInfo} (hx : (snap.bucketOf hash, x) ∈ snap.items)
    (htag : x.keyTag = snap.tagOf hash) (hpba : x.pba = pba) :
  ∃ snap', snap.removeLocked hash pba = some snap'
  := by
  have hmem := (h.mem_items_iff htag).mp hx
  rw [← h.hashToBucket] at hmem
  obtain ⟨t', ht'⟩ := (h.tableForHash hash).exists_removeLocked hmem
    (htag.trans (h.tagOf hash).symm) hpba
  use snap.setTable (snap.tableIndex hash) t'
  rw [DirSnapshot.removeLocked, ht']
  rfl

end Writes

/-! ### What a grow does

The state of the copy when every table below `j` and the slots below `s` of table `j` are
done: an entry of the new snapshot comes from a copied slot of the table it was split from,
no lower than its own.
-/

structure Copied (old new : DirSnapshot) (j s : Nat) : Prop where
  wf : new.Wf
  tableBits : new.tableBits = old.tableBits + 1
  bucketBits : new.bucketBits = old.bucketBits
  generation : new.generation = old.generation + 1
  frozen : new.frozen = false
  origin : ∀ {k i c}, k < new.size → (new.tables k).slots i = some c →
    ∃ s' e, (k / 2 < j ∨ k / 2 = j ∧ s' < s) ∧ i ≤ s' ∧ (old.tables (k / 2)).slots s' = some e
      ∧ e.val = c.val ∧ s' - e.offset = i - c.offset

/-- The copy starts from cleared tables. -/
theorem Copied.doubled {old : DirSnapshot} (hbits : old.tableBits < kMaxTableBits) :
    Copied old old.doubled 0 0 where
  wf := {
    bits := hbits
    table := fun _ => .clear _
    indexBits := fun _ => rfl
    tag := fun _ hx => by simp [DirSnapshot.doubled] at hx
    select := fun _ hx => by simp [DirSnapshot.doubled] at hx
  }
  tableBits := rfl
  bucketBits := rfl
  generation := rfl
  frozen := rfl
  origin := fun _ hslot => nomatch hslot

section Grow

variable {old new : DirSnapshot} (h : old.Wf)
include h

/-- The entry of a slot is an item of its table. -/
theorem Wf.mem_items_of_slot
    {j s : Nat} {e : HashEntry} (hj : j < old.size) (he : (old.tables j).slots s = some e) :
  (s - e.offset, e.val) ∈ (old.tables j).items
  := by
  apply mem_contents.mpr
  use s, (h.table hj).lt_totalSlots he
  apply itemAt_eq_some.mpr ⟨e, he, rfl⟩

/-- The hash made of an entry's tag and home selects its bucket and its tag. -/
theorem Wf.entryHash
    {j s : Nat} {e : HashEntry} (hj : j < old.size) (he : (old.tables j).slots s = some e) :
  old.entryHash s e % 2 ^ old.bucketBits = s - e.offset
    ∧ hashToTag (old.entryHash s e) old.bucketBits = e.val.keyTag
  := by
  have hhome := (h.table hj).home he
  rw [HashTable.numBuckets, h.indexBits hj] at hhome
  have htag : e.val.keyTag < 256 := h.tag hj (h.mem_items_of_slot hj he)
  rw [DirSnapshot.entryHash, hashToTag, ← Nat.shiftLeft_add_eq_or_of_lt hhome,
    Nat.shiftLeft_eq, Nat.mul_comm, Nat.mul_add_mod, Nat.mod_eq_of_lt hhome,
    Nat.mul_add_div (Nat.two_pow_pos _), Nat.div_eq_of_lt hhome, Nat.add_zero,
    Nat.mod_eq_of_lt htag]
  exact ⟨rfl, rfl⟩

/-- The new table of an entry is one of the two its old table is split into. -/
theorem Copied.tableIndex_div_two
    {j s s' : Nat} {e : HashEntry} (hc : Copied old new j s') (hj : j < old.size)
    (he : (old.tables j).slots s = some e) :
  new.tableIndex (old.entryHash s e) / 2 = j
  := by
  obtain ⟨-, htag⟩ := h.entryHash hj he
  have hsel := h.select hj (h.mem_items_of_slot hj he)
  have hle := hc.wf.bits
  rw [hc.tableBits] at hle
  have hpow : kMaxTableBits - (old.tableBits + 1) + 1 = kMaxTableBits - old.tableBits := by omega
  rw [tableIndex_eq, tagOf, hc.bucketBits, htag, hc.tableBits, Nat.div_div_eq_div_mul,
    ← Nat.pow_succ, Nat.succ_eq_add_one, hpow, hsel]

/-- The insertion of the entry of the next slot: one store, no higher than that slot. -/
theorem Copied.insertLocked
    {j s : Nat} {e : HashEntry} (hc : Copied old new j s) (hj : j < old.size)
    (he : (old.tables j).slots s = some e) :
  ∃ f ≤ s, s - e.offset ≤ f
    ∧ new.insertLocked (old.entryHash s e) e.val.kvSize e.val.pba
      = (true, new.setTable (new.tableIndex (old.entryHash s e))
        ((new.tableForHash (old.entryHash s e)).apply
          [⟨f, some ⟨f - (s - e.offset), e.val⟩⟩]))
  := by
  obtain ⟨hbucket, htag⟩ := h.entryHash hj he
  have hreach := (h.table hj).reach he
  have habove := (h.table hj).above he
  have hlt := tableIndex_lt hc.wf.bits (old.entryHash s e)
  have hdiv := hc.tableIndex_div_two h hj he
  have hfree : (new.tableForHash (old.entryHash s e)).slots s = none := by
    cases hs : (new.tableForHash (old.entryHash s e)).slots s with
    | none => rfl
    | some c =>
        obtain ⟨s', -, hdone, hle, -⟩ := hc.origin hlt hs
        omega
  rw [← hc.bucketBits, ← bucketOf, ← hc.wf.hashToBucket] at hbucket
  rw [← hc.bucketBits, ← tagOf, ← hc.wf.tagOf] at htag
  obtain ⟨f, hbf, hfs, hins⟩ := HashTable.insertLocked_of_free (old.entryHash s e)
    e.val.kvSize e.val.pba (by omega) (by omega) hfree
  rw [hbucket] at hbf
  use f, hfs, hbf
  rw [DirSnapshot.insertLocked, hins, hbucket, htag]

/-- Copying the next slot moves its entry, if there is one. -/
theorem Copied.copySlot
    {j s : Nat} (hc : Copied old new j s) (hj : j < old.size) :
  Copied old (old.copySlot j s new) j (s + 1)
    ∧ (old.copySlot j s new).items = ofOption (itemAt (old.tables j).slots s) + new.items
  := by
  have horigin : ∀ {k i c}, k < new.size → (new.tables k).slots i = some c →
      ∃ s' e, (k / 2 < j ∨ k / 2 = j ∧ s' < s + 1) ∧ i ≤ s'
        ∧ (old.tables (k / 2)).slots s' = some e ∧ e.val = c.val
        ∧ s' - e.offset = i - c.offset := by
    intro k i c hk hslot
    obtain ⟨s', e, hdone, hrest⟩ := hc.origin hk hslot
    exact ⟨s', e, by omega, hrest⟩
  unfold DirSnapshot.copySlot
  cases he : (old.tables j).slots s with
  | none =>
      simp only [itemAt, he, Option.map_none, ofOption_none, zero_add, and_true]
      exact { hc with origin := horigin }
  | some e =>
      obtain ⟨hbucket, htag⟩ := h.entryHash hj he
      obtain ⟨f, hfs, hbf, hins⟩ := hc.insertLocked h hj he
      obtain ⟨hwf, htb, hbb, hgen, hfrozen, hitems⟩ := hc.wf.insertLocked hins
      simp only [hins]
      constructor
      · refine ⟨hwf, htb.trans hc.tableBits, hbb.trans hc.bucketBits, hgen.trans hc.generation,
          hfrozen.trans hc.frozen, ?_⟩
        intro k i c hk hslot
        by_cases hkt : k = new.tableIndex (old.entryHash s e)
        · rw [hkt, setTable_self, HashTable.apply_slots, Slots.apply_cons, Slots.apply_nil] at hslot
          by_cases hif : i = f
          · rw [hif, Slots.store_same _ ⟨f, _⟩, Option.some.injEq] at hslot
            rw [hkt, hc.tableIndex_div_two h hj he, hif, ← hslot]
            refine ⟨s, e, by omega, hfs, he, rfl, ?_⟩
            simp only
            omega
          · rw [Slots.store_ne _ _ hif] at hslot
            rw [hkt]
            apply horigin (tableIndex_lt hc.wf.bits _) hslot
        · rw [setTable_ne _ _ hkt] at hslot
          apply horigin hk hslot
      · rw [hitems, bucketOf, hc.bucketBits, hbucket, tagOf, hc.bucketBits, htag, itemAt, he]
        rfl

/-- Copying a table moves its entries. -/
theorem Copied.copySlots
    {j : Nat} (hc : Copied old new j 0) (hj : j < old.size) :
  ∀ n, Copied old (old.copySlots j n new) j n
    ∧ (old.copySlots j n new).items = contents n (old.tables j).slots + new.items
  | 0 => by
      simp only [DirSnapshot.copySlots, contents, Finset.range_zero, Finset.sum_empty, zero_add,
        and_true]
      apply hc
  | n + 1 => by
      obtain ⟨hn, hitems⟩ := hc.copySlots hj n
      obtain ⟨hcopied, hitems'⟩ := hn.copySlot h hj
      use hcopied
      rw [DirSnapshot.copySlots, hitems', hitems, contents, contents, Finset.sum_range_succ]
      ac_rfl

/-- Copying the tables moves all entries. -/
theorem Copied.copyTables
    (hc : Copied old new 0 0) :
  ∀ n ≤ old.size, Copied old (old.copyTables n new) n 0
    ∧ (old.copyTables n new).items = (∑ j ∈ Finset.range n, (old.tables j).items) + new.items
  | 0, _ => by
      simp only [DirSnapshot.copyTables, Finset.range_zero, Finset.sum_empty, zero_add, and_true]
      apply hc
  | n + 1, hn => by
      obtain ⟨hcn, hitems⟩ := hc.copyTables n (by omega)
      obtain ⟨hcopied, hitems'⟩ := hcn.copySlots h (by omega) (old.tables n).totalSlots
      constructor
      · refine { hcopied with origin := ?_ }
        intro k i c hk hslot
        obtain ⟨s', e, hdone, hrest⟩ := hcopied.origin hk hslot
        exact ⟨s', e, by omega, hrest⟩
      · rw [DirSnapshot.copyTables, hitems', hitems, Finset.sum_range_succ, HashTable.items]
        ac_rfl

/-- A grow publishes a snapshot with the same items, and moves no entry up. -/
theorem Wf.growCopy
    (hbits : old.tableBits < kMaxTableBits) :
  Copied old old.growCopy old.size 0 ∧ old.growCopy.items = old.items
  := by
  obtain ⟨hcopied, hitems⟩ := (Copied.doubled hbits).copyTables h old.size le_rfl
  use hcopied
  rw [DirSnapshot.growCopy, hitems]
  simp [DirSnapshot.items, DirSnapshot.doubled]

end Grow

end DirSnapshot

end UDepot
