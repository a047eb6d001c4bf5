import UDepot.Lib.Transition
import UDepot.HashTable.Packed
import UDepot.Probe

/-!
# The table as a multiset

The calls of one writer on a table that was cleared: whatever they are, every entry stays in the
neighborhood of its bucket and is read back from its word as it was stored, each call does to the
items what `Call.Effect` says, and an iterated lookup returns the items with the bucket and the
tag of a hash, each once, in the order of their slots.
-/

namespace Hopscotch

variable {α : Type}

/-- The contents of an array as the list of its used slots, in ascending order. -/
theorem contents_eq_filterMap (σ : Slots α) :
  ∀ total, contents total σ = ((List.range total).filterMap (itemAt σ) : Multiset (Nat × α))
  | 0 => rfl
  | total + 1 => by
      have ih := contents_eq_filterMap σ total
      rw [contents] at ih
      rw [contents, Finset.sum_range_succ, ih, List.range_succ, List.filterMap_append,
        ← Multiset.coe_add]
      congr 1
      rw [List.filterMap_cons, List.filterMap_nil]
      cases itemAt σ total with
      | none => rfl
      | some x => rfl

end Hopscotch

namespace UDepot

open Hopscotch Transition

namespace HashTable

/-! ### Iterated lookups -/

/-- An iterated lookup goes through the matches of the neighborhood in the order of their
slots. -/
theorem entriesFrom_eq_filterMap
    {t : HashTable} {hash : Nat} {incl : Bool} :
  ∀ {n start : Nat}, kHopRange ≤ start + n →
    t.entriesFrom hash incl n start
      = (List.range' start (kHopRange - start)).filterMap (t.matchAt hash · incl)
  | 0, start, hle => by
      rw [Nat.sub_eq_zero_of_le (by omega)]
      rfl
  | n + 1, start, hle => by
      rw [entriesFrom]
      cases hl : t.lookup hash start incl with
      | none =>
          symm
          apply List.filterMap_eq_nil_iff.mpr
          intro i hi
          obtain ⟨hs, hlt⟩ := List.mem_range'_1.mp hi
          apply lookup_eq_none.mp hl i hs (by omega)
      | some c =>
          obtain ⟨hs, hlt, hm, hbelow⟩ := lookup_eq_some hl
          have hsplit : List.range' start (kHopRange - start)
              = List.range' start (c.offset - start)
                ++ c.offset :: List.range' (c.offset + 1) (kHopRange - (c.offset + 1)) := by
            have hrest : kHopRange - start
                = (c.offset - start) + (kHopRange - (c.offset + 1) + 1) := by omega
            rw [hrest, ← List.range'_append_1, List.range'_succ, Nat.add_sub_cancel' hs]
          have hnone : (List.range' start (c.offset - start)).filterMap (t.matchAt hash · incl)
              = [] := by
            apply List.filterMap_eq_nil_iff.mpr
            intro i hi
            obtain ⟨hs', hlt'⟩ := List.mem_range'_1.mp hi
            apply hbelow i hs' (by omega)
          simp only
          rw [hsplit, List.filterMap_append, hnone, List.nil_append, List.filterMap_cons, hm,
            entriesFrom_eq_filterMap (by omega)]

theorem entries_eq_filterMap (t : HashTable) (hash : Nat) (incl : Bool) :
  t.entries hash incl = (List.range kHopRange).filterMap (t.matchAt hash · incl)
  := by
  rw [entries, entriesFrom_eq_filterMap (by omega), List.range_eq_range']
  rfl

/-- The distances of the entries of an iterated lookup ascend. -/
theorem entries_sorted (t : HashTable) (hash : Nat) (incl : Bool) :
  (t.entries hash incl).Pairwise (·.offset < ·.offset)
  := by
  rw [entries_eq_filterMap, List.pairwise_filterMap]
  apply List.Pairwise.imp _ List.pairwise_lt_range
  intro i j hij e he e' he'
  rw [matchAt_offset he, matchAt_offset he']
  apply hij

/-- Whether an item is one a lookup of a hash may return. -/
def isItemOf (t : HashTable) (hash : Nat) (incl : Bool) (x : Nat × EntryInfo) : Bool :=
  x.1 == t.hashToBucket hash && x.2.keyTag == t.tagOf hash && (!x.2.deleted || incl)

/-- The item of a slot of the neighborhood, if a lookup of the hash may return it, is the match
at that distance. -/
theorem Wf.filter_itemAt
    {t : HashTable} (ht : t.Wf) (hash d : Nat) (incl : Bool) :
  (itemAt t.slots (t.hashToBucket hash + d)).filter (t.isItemOf hash incl)
    = (t.matchAt hash d incl).map fun e => (t.hashToBucket hash, e.val)
  := by
  cases hslot : t.slots (t.hashToBucket hash + d) with
  | none => simp [itemAt, matchAt, hslot]
  | some c =>
      have habove := ht.above hslot
      have hhome : t.hashToBucket hash + d - c.offset = t.hashToBucket hash ↔ c.offset = d := by
        omega
      have hiff : t.isItemOf hash incl (t.hashToBucket hash + d - c.offset, c.val) = true
          ↔ t.matchAt hash d incl = some c := by
        rw [matchAt_eq_some]
        simp only [isItemOf, Bool.and_eq_true, Bool.or_eq_true, beq_iff_eq, hhome, hslot,
          true_and, Bool.not_eq_true', and_assoc]
        cases c.val.deleted with
        | false => simp
        | true => simp
      rw [itemAt, hslot, Option.map_some, Option.filter_some]
      split
      · rename_i hitem
        have hm := hiff.mp hitem
        rw [hm, Option.map_some, hhome.mpr (matchAt_offset hm)]
      · rename_i hitem
        cases hm : t.matchAt hash d incl with
        | none => rfl
        | some e =>
            obtain ⟨he, -⟩ := matchAt_eq_some.mp hm
            obtain rfl := Option.some.inj (hslot.symm.trans he)
            exact absurd (hiff.mpr hm) hitem

/-- A slot outside the neighborhood of a hash holds no item a lookup may return. -/
theorem Wf.filter_itemAt_of_outside
    {t : HashTable} (ht : t.Wf) {hash i : Nat} (incl : Bool)
    (hi : i < t.hashToBucket hash ∨ t.hashToBucket hash + kHopRange ≤ i) :
  (itemAt t.slots i).filter (t.isItemOf hash incl) = none
  := by
  rw [itemAt]
  cases hslot : t.slots i with
  | none => rfl
  | some c =>
      have hreach := ht.reach hslot
      have habove := ht.above hslot
      have hne : i - c.offset ≠ t.hashToBucket hash := by omega
      simp [Option.filter, isItemOf, hne]

/-- The entries an iterated lookup of a hash returns are the items of its bucket with its tag,
each as often as it is there. -/
theorem Wf.entries_eq_filter
    {t : HashTable} (ht : t.Wf) (hash : Nat) (incl : Bool) :
  ((t.entries hash incl).map fun e => (t.hashToBucket hash, e.val) : Multiset (Nat × EntryInfo))
    = t.items.filter fun x => t.isItemOf hash incl x
  := by
  have hlt := t.hashToBucket_lt hash
  have htotal : t.totalSlots
      = t.hashToBucket hash + (kHopRange + (t.numBuckets - t.hashToBucket hash)) := by
    rw [totalSlots]
    omega
  have hout : ∀ {s n : Nat}, (∀ i, s ≤ i → i < s + n →
        i < t.hashToBucket hash ∨ t.hashToBucket hash + kHopRange ≤ i) →
      (List.range' s n).filterMap
        (fun i => (itemAt t.slots i).filter (t.isItemOf hash incl)) = [] := by
    intro s n h
    apply List.filterMap_eq_nil_iff.mpr
    intro i hi
    obtain ⟨hs, hn⟩ := List.mem_range'_1.mp hi
    apply ht.filter_itemAt_of_outside incl (h i hs hn)
  have hbelow := hout (s := 0) (n := t.hashToBucket hash) (by omega)
  have habove := hout (s := 0 + t.hashToBucket hash + kHopRange)
    (n := t.numBuckets - t.hashToBucket hash) (by omega)
  rw [items, contents_eq_filterMap, Multiset.filter_coe, List.filter_filterMap]
  simp only [Bool.decide_eq_true]
  rw [htotal, List.range_eq_range', ← List.range'_append_1, ← List.range'_append_1,
    List.filterMap_append, List.filterMap_append, hbelow, habove, List.nil_append,
    List.append_nil, Nat.zero_add, entries_eq_filterMap, List.map_filterMap,
    List.range'_eq_map_range, List.filterMap_map]
  congr 2
  funext d
  symm
  apply ht.filter_itemAt

/-! ### Calls -/

/-- A call of a writer that holds the locks of the hash. -/
inductive Call
  | insert (hash kvSize pba : Nat)
  | update (hash oldPba newKvSize newPba : Nat)
  | remove (hash pba : Nat)
  deriving DecidableEq, Repr

/-- The hash a call is for. -/
def Call.hash : Call → Nat
  | insert hash _ _ => hash
  | update hash _ _ _ => hash
  | remove hash _ => hash

/-- The size and the address a call stores. -/
def Call.stored : Call → Option (Nat × Nat)
  | insert _ kvSize pba => some (kvSize, pba)
  | update _ _ newKvSize newPba => some (newKvSize, newPba)
  | remove _ _ => none

/-- The size and the address a call stores fit their fields, and the address is not that of an
unused slot. -/
def Call.Fits (c : Call) : Prop :=
  ∀ p ∈ c.stored, p.1 < 2 ^ HashEntry.kKvSizeBits ∧ p.2 < HashEntry.kUnusedPba

instance (c : Call) : Decidable c.Fits := by
  unfold Call.Fits
  infer_instance

/-- Whether a call succeeds, and the stores it makes. -/
def Call.stores (t : HashTable) : Call → Bool × List (Store EntryInfo)
  | insert hash kvSize pba => t.insertStores hash kvSize pba
  | update hash oldPba newKvSize newPba =>
      match t.updateStores hash oldPba newKvSize newPba with
      | none => (false, [])
      | some ws => (true, ws)
  | remove hash pba =>
      match t.removeStores hash pba with
      | none => (false, [])
      | some ws => (true, ws)

/-- Make a call: whether it succeeds, and the table after it. -/
def call (t : HashTable) (c : Call) : Bool × HashTable :=
  ((c.stores t).1, t.apply (c.stores t).2)

/-- What a call for a bucket and a tag does to a multiset of items.  An insertion adds one item
or, if it fails, none; an update exchanges one item of the bucket with the tag and the old
address, and a removal takes one away; these two fail only if there is none, and change nothing
then. -/
def Call.Effect (bucket tag : Nat) (ok : Bool) (m m' : Multiset (Nat × EntryInfo)) :
    Call → Prop
  | insert _ kvSize pba => m' = if ok then (bucket, ⟨tag, kvSize, pba⟩) ::ₘ m else m
  | update _ oldPba newKvSize newPba =>
      if ok then ∃ x : EntryInfo, (bucket, x) ∈ m ∧ x.keyTag = tag ∧ x.pba = oldPba
        ∧ m' = (bucket, ⟨tag, newKvSize, newPba⟩) ::ₘ m.erase (bucket, x)
      else m' = m ∧ ∀ x : EntryInfo, (bucket, x) ∈ m → x.keyTag = tag → x.pba ≠ oldPba
  | remove _ pba =>
      if ok then ∃ x : EntryInfo, (bucket, x) ∈ m ∧ x.keyTag = tag ∧ x.pba = pba
        ∧ m' = m.erase (bucket, x)
      else m' = m ∧ ∀ x : EntryInfo, (bucket, x) ∈ m → x.keyTag = tag → x.pba ≠ pba

/-- A call of an update is `updateLocked`, with the table as it was if that fails. -/
theorem call_update (t : HashTable) (hash oldPba newKvSize newPba : Nat) :
  t.call (.update hash oldPba newKvSize newPba)
    = match t.updateLocked hash oldPba newKvSize newPba with
      | none => (false, t)
      | some t' => (true, t')
  := by
  rw [call, Call.stores, HashTable.updateLocked]
  cases t.updateStores hash oldPba newKvSize newPba with
  | none => rfl
  | some ws => rfl

/-- A call of a removal is `removeLocked`, with the table as it was if that fails. -/
theorem call_remove (t : HashTable) (hash pba : Nat) :
  t.call (.remove hash pba)
    = match t.removeLocked hash pba with
      | none => (false, t)
      | some t' => (true, t')
  := by
  rw [call, Call.stores, HashTable.removeLocked]
  cases t.removeStores hash pba with
  | none => rfl
  | some ws => rfl

/-- Every call keeps the table well formed and has its effect on the items. -/
theorem Wf.call
    {t : HashTable} (ht : t.Wf) (c : Call) :
  (t.call c).2.Wf ∧ (t.call c).2.indexBits = t.indexBits
    ∧ c.Effect (t.hashToBucket c.hash) (t.tagOf c.hash) (t.call c).1 t.items (t.call c).2.items
  := by
  cases c with
  | insert hash kvSize pba =>
      obtain ⟨hwf, hbits, hitems⟩ := ht.insertLocked
        (Prod.mk.eta (p := t.insertLocked hash kvSize pba)).symm
      refine ⟨hwf, hbits, ?_⟩
      change (t.insertLocked hash kvSize pba).2.items = _
      rw [hitems]
      cases hok : (t.insertLocked hash kvSize pba).1 with
      | false =>
          change _ = if (t.insertLocked hash kvSize pba).1 then _ else _
          simp [hok]
      | true =>
          change _ = if (t.insertLocked hash kvSize pba).1 then _ else _
          simp [hok, Call.hash]
  | update hash oldPba newKvSize newPba =>
      rw [call_update]
      cases hu : t.updateLocked hash oldPba newKvSize newPba with
      | none =>
          refine ⟨ht, rfl, rfl, ?_⟩
          intro x hx htag hpba
          obtain ⟨t', ht'⟩ := ht.exists_updateLocked newKvSize newPba hx htag hpba
          cases hu.symm.trans ht'
      | some t' =>
          obtain ⟨hwf, hbits, x, htag, hpba, hmem, hitems⟩ := ht.updateLocked hu
          refine ⟨hwf, hbits, x, hmem, htag, hpba, ?_⟩
          rw [← Multiset.cons_erase hmem, Multiset.cons_swap] at hitems
          apply (Multiset.cons_inj_right _).mp hitems
  | remove hash pba =>
      rw [call_remove]
      cases hr : t.removeLocked hash pba with
      | none =>
          refine ⟨ht, rfl, rfl, ?_⟩
          intro x hx htag hpba
          obtain ⟨t', ht'⟩ := ht.exists_removeLocked hx htag hpba
          cases hr.symm.trans ht'
      | some t' =>
          obtain ⟨hwf, hbits, x, htag, hpba, hitems⟩ := ht.removeLocked hr
          refine ⟨hwf, hbits, x, ?_, htag, hpba, ?_⟩
          · rw [hitems]
            apply Multiset.mem_cons_self
          · simp only [Call.hash]
            rw [hitems, Multiset.erase_cons_head]

/-- An item after a call was there before or has what the call stores. -/
theorem Call.Effect.mem
    {c : Call} {bucket tag : Nat} {ok : Bool} {m m' : Multiset (Nat × EntryInfo)}
    (h : c.Effect bucket tag ok m m') {x : Nat × EntryInfo} (hx : x ∈ m') :
  x ∈ m ∨ ∃ p, c.stored = some p ∧ x = (bucket, ⟨tag, p.1, p.2⟩)
  := by
  cases c with
  | insert hash kvSize pba =>
      rw [Effect] at h
      rw [h] at hx
      split at hx
      · obtain rfl | hx := Multiset.mem_cons.mp hx
        · exact .inr ⟨_, rfl, rfl⟩
        · exact .inl hx
      · exact .inl hx
  | update hash oldPba newKvSize newPba =>
      rw [Effect] at h
      split at h
      · obtain ⟨y, -, -, -, rfl⟩ := h
        obtain rfl | hx := Multiset.mem_cons.mp hx
        · exact .inr ⟨_, rfl, rfl⟩
        · exact .inl (Multiset.mem_of_mem_erase hx)
      · rw [h.1] at hx
        exact .inl hx
  | remove hash pba =>
      rw [Effect] at h
      split at h
      · obtain ⟨y, -, -, -, rfl⟩ := h
        exact .inl (Multiset.mem_of_mem_erase hx)
      · rw [h.1] at hx
        exact .inl hx

/-! ### Any sequence of calls -/

/-- The step of a writer that makes one call after the other. -/
def callStep (t : HashTable) (c : Call) : Option HashTable := some (t.call c).2

/-- What any sequence of calls on a cleared table keeps. -/
theorem wf_of_calls
    {indexBits : Nat} {t : HashTable}
    (h : Reach callStep (fun _ c => c.Fits) (clear indexBits) t) :
  t.Wf ∧ t.indexBits = indexBits ∧ ∀ x ∈ t.items, x.2.Fits
  := by
  apply h.invariant (I := fun t => t.Wf ∧ t.indexBits = indexBits ∧ ∀ x ∈ t.items, x.2.Fits)
  · refine ⟨.clear indexBits, rfl, ?_⟩
    simp
  · rintro s c s' ⟨hwf, hbits, hfits⟩ hc ⟨⟩
    obtain ⟨hwf', hbits', heffect⟩ := hwf.call c
    refine ⟨hwf', hbits'.trans hbits, ?_⟩
    intro x hx
    obtain hx | ⟨p, hp, rfl⟩ := heffect.mem hx
    · apply hfits x hx
    · obtain ⟨hkv, hpba⟩ := hc p hp
      exact ⟨Nat.mod_lt _ (by omega), hkv, hpba⟩

/-- After any sequence of calls on a cleared table, every entry is in the neighborhood of its
bucket, which is one of the table's, and every slot is read back from its word; every next call
has its effect on the items; an iterated lookup of any hash returns the items of its bucket with
its tag, each once, in the order of their slots; and the displacement loop of an insertion comes
to its end. -/
theorem calls_refine_items
    {indexBits : Nat} {t : HashTable}
    (h : Reach callStep (fun _ c => c.Fits) (clear indexBits) t) :
  (∀ s e, t.slots s = some e →
      e.offset < kHopRange ∧ e.offset ≤ s ∧ s - e.offset < 2 ^ indexBits)
  ∧ (∀ s, HashEntry.ofRaw (HashEntry.slotRaw (t.slots s)) = t.slots s)
  ∧ (∀ c : Call, c.Effect (t.hashToBucket c.hash) (t.tagOf c.hash) (t.call c).1 t.items
      (t.call c).2.items)
  ∧ (∀ hash, ((t.entries hash true).map fun e => (t.hashToBucket hash, e.val) : Multiset _)
        = t.items.filter (fun x => x.1 = t.hashToBucket hash ∧ x.2.keyTag = t.tagOf hash)
      ∧ (t.entries hash true).Pairwise (·.offset < ·.offset)
      ∧ ∀ e ∈ t.entries hash true, t.slots (t.hashToBucket hash + e.offset) = some e)
  ∧ (∀ hash kvSize pba free,
      firstFree t.slots (min (t.hashToBucket hash + kSearchEnd) t.totalSlots
        - t.hashToBucket hash) (t.hashToBucket hash) = some free →
      ∃ moves found, Brings kHopRange (t.hashToBucket hash) t.slots free moves found
        ∧ t.insertStores hash kvSize pba = match found with
          | none => (false, moves)
          | some slot => (true, moves
              ++ [⟨slot, some ⟨slot - t.hashToBucket hash, ⟨t.tagOf hash, kvSize, pba⟩⟩⟩]))
  := by
  obtain ⟨hwf, hbits, hfits⟩ := wf_of_calls h
  refine ⟨?_, ?_, fun c => (hwf.call c).2.2, ?_, ?_⟩
  · intro s e he
    have hhome := hwf.home he
    rw [numBuckets, hbits] at hhome
    exact ⟨hwf.reach he, hwf.above he, hhome⟩
  · intro s
    apply HashEntry.ofRaw_slotRaw
    intro e he
    use hwf.reach he
    apply hfits (s - e.offset, e.val)
    apply (Hopscotch.Wf.mem_contents_iff hwf).mpr
    use e.offset, hwf.reach he, hwf.home he
    rw [Nat.sub_add_cancel (hwf.above he), he]
  · intro hash
    refine ⟨?_, t.entries_sorted hash true, ?_⟩
    · rw [hwf.entries_eq_filter]
      apply Multiset.filter_congr
      intro x _
      simp [isItemOf]
    · intro e he
      obtain ⟨-, hm⟩ := mem_entries.mp he
      apply (matchAt_eq_some.mp hm).1
  · intro hash kvSize pba free hfree
    apply place_brings _ hfree

/-- Twenty insertions for as many buckets, then thirty for one bucket below them and a removal:
the insertions that find the neighborhood full move entries of the other buckets up. -/
def crowdedCalls : List Call :=
  (List.range 20).map (fun i => Call.insert (5 + i) 1 i)
    ++ (List.range 30).map (fun i => Call.insert 2 1 (100 + i)) ++ [Call.remove 2 100]

theorem crowdedCalls_refine :
  ∃ t, run callStep (clear 6) crowdedCalls = some t
    ∧ Multiset.card (t.items.filter fun x => x.1 = t.hashToBucket 2 ∧ x.2.keyTag = t.tagOf 2)
      = (t.entries 2 true).length
  := by
  obtain ⟨t, ht⟩ : ∃ t, run callStep (clear 6) crowdedCalls = some t := ⟨_, rfl⟩
  have hreach : Reach callStep (fun _ c => c.Fits) (clear 6) t := by
    apply Reach.of_run .refl _ ht
    have hfits : ∀ c ∈ crowdedCalls, c.Fits := by decide +kernel
    intro c hc _
    apply hfits c hc
  obtain ⟨-, -, -, hentries, -⟩ := calls_refine_items hreach
  use t, ht
  rw [← (hentries 2).1]
  simp

end HashTable

end UDepot
