import UDepot.HashTable.Calls

/-!
# Grows of a directory in use

A directory that is used by calls and grows, one after the other: the copy of every grow finds
room for every entry, and no lookup can tell the new snapshot from the old one but by the
distances of the entries it returns.
-/

namespace UDepot

open Hopscotch Transition

namespace DirSnapshot

/-- A call on the table of its hash. -/
def call (snap : DirSnapshot) (c : HashTable.Call) : Bool × DirSnapshot :=
  (((snap.tableForHash c.hash).call c).1,
    snap.setTable (snap.tableIndex c.hash) ((snap.tableForHash c.hash).call c).2)

/-- Every call keeps the snapshot well formed. -/
theorem Wf.call
    {snap : DirSnapshot} (h : snap.Wf) (c : HashTable.Call) :
  (snap.call c).2.Wf
  := by
  have hlt := tableIndex_lt h.bits c.hash
  obtain ⟨hwf, hbits, heffect⟩ := (h.tableForHash c.hash).call c
  apply h.setTable hwf (hbits.trans (h.indexBits hlt))
  intro x hx
  apply h.select_table
  obtain hx | ⟨p, -, rfl⟩ := heffect.mem hx
  · exact .inl hx
  · exact .inr (h.tagOf c.hash)

/-- An item with the tag of a hash is in the snapshot as often as in the table of the hash. -/
theorem Wf.count_items
    {snap : DirSnapshot} (h : snap.Wf) {hash : Nat} {x : Nat × EntryInfo}
    (htag : x.2.keyTag = snap.tagOf hash) :
  snap.items.count x = (snap.tableForHash hash).items.count x
  := by
  rw [items, Multiset.count_sum', Finset.sum_eq_single (snap.tableIndex hash)]
  · rfl
  · intro j hj hne
    apply Multiset.count_eq_zero.mpr
    intro hx
    apply hne
    rw [← h.select (Finset.mem_range.mp hj) hx, htag, tableIndex_eq]
  · intro hout
    exact absurd (Finset.mem_range.mpr (tableIndex_lt h.bits hash)) hout

/-- Snapshots with the same items and the same number of buckets return the same entries for a
hash, each as often. -/
theorem Wf.entries_eq
    {snap snap' : DirSnapshot} (h : snap.Wf) (h' : snap'.Wf) (hitems : snap'.items = snap.items)
    (hbits : snap'.bucketBits = snap.bucketBits) (hash : Nat) (incl : Bool) :
  (((snap'.tableForHash hash).entries hash incl).map Cell.val : Multiset EntryInfo)
    = ((snap.tableForHash hash).entries hash incl).map Cell.val
  := by
  have hbucket : snap'.bucketOf hash = snap.bucketOf hash := by rw [bucketOf, hbits, bucketOf]
  have htag : snap'.tagOf hash = snap.tagOf hash := by
    rw [DirSnapshot.tagOf, hbits, DirSnapshot.tagOf]
  have hfilter := (h.tableForHash hash).entries_eq_filter hash incl
  have hfilter' := (h'.tableForHash hash).entries_eq_filter hash incl
  rw [h.hashToBucket] at hfilter
  rw [h'.hashToBucket, hbucket] at hfilter'
  have hsame : (snap'.tableForHash hash).items.filter
        (fun x => (snap'.tableForHash hash).isItemOf hash incl x)
      = (snap.tableForHash hash).items.filter
        (fun x => (snap.tableForHash hash).isItemOf hash incl x) := by
    ext x
    rw [Multiset.count_filter, Multiset.count_filter]
    simp only [HashTable.isItemOf, h.hashToBucket, h'.hashToBucket, h.tagOf, h'.tagOf, hbucket,
      htag]
    split
    · rename_i hx
      simp only [Bool.and_eq_true, beq_iff_eq] at hx
      rw [← h.count_items hx.1.2, ← h'.count_items (hx.1.2.trans htag.symm), hitems]
    · rfl
  rw [← hfilter, ← hfilter'] at hsame
  have hmap := congrArg (Multiset.map Prod.snd) hsame
  rw [Multiset.map_coe, Multiset.map_coe, List.map_map, List.map_map] at hmap
  exact hmap

/-! ### Any sequence of calls and grows -/

/-- What is done to a directory. -/
inductive Use
  | call (c : HashTable.Call)
  | grow

/-- The step of a directory's use.  A grow of the largest directory is refused. -/
def useStep (snap : DirSnapshot) : Use → Option DirSnapshot
  | .call c => some (snap.call c).2
  | .grow => if snap.tableBits < kMaxTableBits then some snap.growCopy else none

/-- Every directory in use is well formed. -/
theorem wf_of_uses
    {tableBits bucketBits : Nat} {snap : DirSnapshot} (hbits : tableBits ≤ kMaxTableBits)
    (h : Reach useStep (fun _ _ => True) (cleared tableBits bucketBits) snap) :
  snap.Wf
  := by
  apply h.invariant (.cleared hbits bucketBits)
  intro s a s' hs _ hstep
  cases a with
  | call c =>
      cases hstep
      apply hs.call
  | grow =>
      rw [useStep] at hstep
      split at hstep
      · rename_i hgrow
        cases hstep
        apply (hs.growCopy hgrow).1.wf
      · cases hstep

/-- In every directory in use that can grow, each insertion of the copy finds room; the new
snapshot holds the same items, each as often; for every hash with an entry's bucket and tag the
entry is in the new table of the hash as often as it was in the old one, and in no other; and
looking any hash up goes through the same entries. -/
theorem grow_keeps_entries
    {tableBits bucketBits : Nat} {old : DirSnapshot} (hbits : tableBits ≤ kMaxTableBits)
    (h : Reach useStep (fun _ _ => True) (cleared tableBits bucketBits) old)
    (hgrow : old.tableBits < kMaxTableBits) :
  (∀ j < old.size, ∀ s e, (old.tables j).slots s = some e →
      ((old.copySlots j s (old.copyTables j old.doubled)).insertLocked (old.entryHash s e)
        e.val.kvSize e.val.pba).1 = true)
  ∧ old.growCopy.items = old.items
  ∧ (∀ hash b x, old.bucketOf hash = b → old.tagOf hash = x.keyTag →
      (old.growCopy.tableForHash hash).items.count (b, x)
          = (old.tableForHash hash).items.count (b, x)
        ∧ ∀ k < old.growCopy.size, k ≠ old.growCopy.tableIndex hash →
          (b, x) ∉ (old.growCopy.tables k).items)
  ∧ ∀ hash incl,
      (((old.growCopy.tableForHash hash).entries hash incl).map Cell.val : Multiset EntryInfo)
        = ((old.tableForHash hash).entries hash incl).map Cell.val
  := by
  have hwf := wf_of_uses hbits h
  obtain ⟨hcopied, hitems⟩ := hwf.growCopy hgrow
  refine ⟨?_, hitems, ?_, ?_⟩
  · intro j hj s e he
    obtain ⟨htables, -⟩ := (Copied.doubled hgrow).copyTables hwf j hj.le
    obtain ⟨hslots, -⟩ := htables.copySlots hwf hj s
    obtain ⟨f, -, -, hins⟩ := hslots.insertLocked hwf hj he
    rw [hins]
  · intro hash b x _ htag
    have htag' : x.keyTag = old.growCopy.tagOf hash := by
      rw [tagOf, hcopied.bucketBits, ← tagOf, htag]
    constructor
    · rw [← hcopied.wf.count_items htag', hitems, hwf.count_items htag.symm]
    · intro k hk hne hmem
      apply hne
      rw [← hcopied.wf.select hk hmem, tableIndex_eq, htag']
  · intro hash incl
    apply hwf.entries_eq hcopied.wf hitems hcopied.bucketBits

/-- A directory of one table of eight buckets with some forty entries, grown once. -/
def filledUses : List Use :=
  (List.range 36).map (fun i => Use.call (.insert (i * 37) 1 i))
    ++ ([.call (.update 37 1 0 100), .grow, .call (.insert 3 2 200)] : List Use)

theorem filledUses_grow :
  ∃ snap, run useStep (cleared 0 3) filledUses = some snap ∧ snap.growCopy.items = snap.items
  := by
  have hrun : (run useStep (cleared 0 3) filledUses).isSome = true := by decide +kernel
  obtain ⟨snap, hsnap⟩ := Option.isSome_iff_exists.mp hrun
  have hreach : Reach useStep (fun _ _ => True) (cleared 0 3) snap :=
    .of_run .refl (fun _ _ _ => trivial) hsnap
  have hbits : (run useStep (cleared 0 3) filledUses).map DirSnapshot.tableBits = some 1 := by
    decide +kernel
  rw [hsnap] at hbits
  have hgrow : snap.tableBits < kMaxTableBits := by
    rw [Option.some.inj hbits]
    decide
  exact ⟨snap, hsnap, (grow_keeps_entries (by decide) hreach hgrow).2.1⟩

end DirSnapshot

end UDepot
