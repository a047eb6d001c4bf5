import UDepot.HashTable.Scan

/-!
# The entry of a key

Hashes collide, so the entry of a key is told from the others of its bucket and tag by its address:
`P` says of an address that the record there is the key's.  While an entry is moved it is in two
slots; `KeyEntry` is about the upper one.

* A store leaves the key's entry where it was, moves it up, or is that of an insertion for the key
  (`Held.keyEntry_store`).
* Wherever a reader finds an entry of the key, there is one that is not about to be cleared, at
  least as far from the bucket (`Held.exists_keyEntry`).
-/

namespace UDepot

open Hopscotch

namespace HashTable

/-- An entry of the bucket and with the tag of a hash, with an address that satisfies `P`, that is
not about to be cleared. -/
structure KeyEntry (t : HashTable) (writers : Nat → Option Writer) (hash : Nat) (P : Nat → Prop)
    (e : HashEntry) : Prop where
  found : t.matchAt hash e.offset true = some e
  address : P e.val.pba
  upper : ¬ Lower writers (t.hashToBucket hash + e.offset)

namespace Call

/-- A call inserts an entry with an address that satisfies `P`. -/
def Adds (P : Nat → Prop) : Call → Prop
  | .insert _ _ pba => P pba
  | _ => False

/-- A call replaces no address that does not satisfy `P` by one that does. -/
def Keeps (P : Nat → Prop) : Call → Prop
  | .update _ oldPba _ newPba => P newPba → P oldPba
  | _ => True

end Call

variable {t t' : HashTable} {stripes : Nat → Option Nat} {writers writers' : Nat → Option Writer}
  {hash : Nat} {P : Nat → Prop} {e : HashEntry}

theorem KeyEntry.congr
    (h : t.KeyEntry writers hash P e) {P' : Nat → Prop} (hbits : t'.indexBits = t.indexBits)
    (hslot : t'.slots (t.hashToBucket hash + e.offset) = t.slots (t.hashToBucket hash + e.offset))
    (hlower : Lower writers' (t.hashToBucket hash + e.offset) →
      Lower writers (t.hashToBucket hash + e.offset))
    (haddress : P e.val.pba → P' e.val.pba) :
  t'.KeyEntry writers' hash P' e
  := by
  have hbucket : t'.hashToBucket hash = t.hashToBucket hash := by
    rw [hashToBucket, hashToBucket, numBuckets, numBuckets, hbits]
  obtain ⟨hs, hoffset, htag, hdel⟩ := matchAt_eq_some.mp h.found
  refine ⟨matchAt_eq_some.mpr ⟨?_, hoffset, ?_, hdel⟩, haddress h.address, ?_⟩
  · rw [hbucket, hslot, hs]
  · rw [htag, tagOf, tagOf, hbits]
  · rw [hbucket]
    exact fun hl => h.upper (hlower hl)

section Store

variable {i : Nat} {c : Call} {ok : Bool} {st : Store EntryInfo} {ws : List (Store EntryInfo)}

/-- An entry that a store has left where it is. -/
theorem KeyEntry.of_store_ne
    (h : (t.apply [st]).KeyEntry (Function.update writers i (some ⟨c, ok, ws⟩)) hash P e)
    (hi : writers i = some ⟨c, ok, st :: ws⟩) (hne : t.hashToBucket hash + e.offset ≠ st.idx)
    (hclears : Writer.clears ⟨c, ok, st :: ws⟩ ≠ some (t.hashToBucket hash + e.offset)) :
  t.KeyEntry writers hash P e
  := by
  have hslot := (Slots.store_ne t.slots st hne).symm
  refine KeyEntry.congr h rfl hslot ?_ id
  rintro ⟨j, w, hj, hw⟩
  by_cases hji : j = i
  · subst hji
    obtain ⟨⟩ := hi.symm.trans hj
    exact absurd hw hclears
  · exact ⟨j, w, by rw [Function.update_of_ne hji, hj], hw⟩

/-- After a store, the key's entry is in the slot that follows from where it was, or it is the one
that has been inserted. -/
theorem Held.keyEntry_store
    (h : Held t stripes writers) (hi : writers i = some ⟨c, ok, st :: ws⟩) (hkeeps : c.Keeps P)
    (he : (t.apply [st]).KeyEntry (Function.update writers i (some ⟨c, ok, ws⟩)) hash P e) :
  (∃ e₀, t.KeyEntry writers hash P e₀ ∧ t.hashToBucket hash + e.offset
    = Writer.follow ⟨c, ok, st :: ws⟩ (t.hashToBucket hash + e₀.offset))
    ∨ c.Adds P ∧ ws = [] ∧ t.hashToBucket hash + e.offset = st.idx
  := by
  have hfound : (t.slots.store st) (t.hashToBucket hash + e.offset) = some e :=
    (matchAt_eq_some.mp he.found).1
  have htag : e.val.keyTag = t.tagOf hash := (matchAt_eq_some.mp he.found).2.2.1
  cases h.left hi with
  | insert hpending =>
      cases hpending with
      | between hplacing =>
          cases hplacing with
          | @put _ _ slot _ hgoal hin hfree hle hreach =>
              by_cases hidx : t.hashToBucket hash + e.offset = slot
              · right
                rw [hidx, Slots.store_same t.slots ⟨slot, _⟩] at hfound
                cases hfound
                split at hgoal
                · cases hgoal
                  exact ⟨he.address, rfl, hidx⟩
                · cases hgoal
              · exact .inl ⟨e, he.of_store_ne hi hidx (by rintro ⟨⟩), rfl⟩
          | @move _ low high e₀ ws hlowIn hhighIn hlow hhigh hlt hreach hrest =>
              left
              by_cases hidx : t.hashToBucket hash + e.offset = high
              · rw [hidx, Slots.store_same t.slots ⟨high, _⟩] at hfound
                cases hfound
                have habove := h.wf.above hlow
                simp only at hidx
                have hplace : t.hashToBucket hash + e₀.offset = low := by omega
                refine ⟨e₀, ⟨matchAt_eq_some.mpr ⟨?_, rfl, htag, fun _ => rfl⟩, he.address, ?_⟩, ?_⟩
                · rw [hplace, hlow]
                · rw [hplace, ← update_writer hi, h.lower_iff hlowIn]
                  rintro ⟨⟩
                · simp only [Writer.follow, Writer.moves, hplace, if_true]
                  omega
              · have hidx' : t.hashToBucket hash + e.offset ≠ low := by
                  intro hlow'
                  apply he.upper
                  exact ⟨i, _, Function.update_self .., congrArg some hlow'.symm⟩
                refine ⟨e, he.of_store_ne hi hidx (by rintro ⟨⟩), ?_⟩
                simp only [Writer.follow, Writer.moves]
                rw [if_neg hidx'.symm]
      | @copied low _ _ _ hlowIn hhighIn hlow hhigh hlt hrest =>
          have hidx : t.hashToBucket hash + e.offset ≠ low := by
            intro hidx
            rw [hidx, Slots.store_same t.slots ⟨low, _⟩] at hfound
            cases hfound
          refine .inl ⟨e, he.of_store_ne hi hidx ?_, rfl⟩
          rintro ⟨⟩
          exact hidx rfl
  | @update hash' newKvSize newPba e₀ hin hslot htag' =>
      left
      by_cases hidx : t.hashToBucket hash + e.offset = t.hashToBucket hash' + e₀.offset
      · rw [hidx, Slots.store_same t.slots ⟨_, _⟩] at hfound
        cases hfound
        refine ⟨e₀, ⟨matchAt_eq_some.mpr ⟨?_, rfl, ?_, fun _ => rfl⟩, hkeeps he.address, ?_⟩, rfl⟩
        · rw [hidx, hslot]
        · rw [htag', ← htag]
        · rw [hidx, ← update_writer hi, h.lower_iff hin]
          rintro ⟨⟩
      · exact ⟨e, he.of_store_ne hi hidx (by rintro ⟨⟩), rfl⟩
  | @remove hash' e₀ hin hslot htag' =>
      have hidx : t.hashToBucket hash + e.offset ≠ t.hashToBucket hash' + e₀.offset := by
        intro hidx
        rw [hidx, Slots.store_same t.slots ⟨_, _⟩] at hfound
        cases hfound
      exact .inl ⟨e, he.of_store_ne hi hidx (by rintro ⟨⟩), rfl⟩

/-- An entry after a store is one from before, perhaps moved, or the one the call makes. -/
theorem Left.val_store
    {R : Nat → Prop} (hleft : Left t R ⟨c, ok, st :: ws⟩) {idx : Nat}
    (hslot : (t.apply [st]).slots idx = some e) :
  (∃ idx₀ e₀, t.slots idx₀ = some e₀ ∧ e₀.val = e.val)
    ∨ c.stored = some (e.val.kvSize, e.val.pba)
  := by
  by_cases hidx : idx = st.idx
  · subst hidx
    have hcell : st.cell = some e := (Slots.store_same t.slots st).symm.trans hslot
    cases hleft with
    | insert hpending =>
        cases hpending with
        | between hplacing =>
            cases hplacing with
            | put hgoal hin hfree hle hreach =>
                cases hcell
                split at hgoal
                · cases hgoal
                  exact .inr rfl
                · cases hgoal
            | @move _ low high e₀ ws hlowIn hhighIn hlow hhigh hlt hreach hrest =>
                cases hcell
                exact .inl ⟨low, e₀, hlow, rfl⟩
        | copied hlowIn hhighIn hlow hhigh hlt hrest => cases hcell
    | update hin hslot' htag =>
        cases hcell
        exact .inr rfl
    | remove hin hslot' htag => cases hcell
  · exact .inl ⟨idx, e, (Slots.store_ne t.slots st hidx).symm.trans hslot, rfl⟩

end Store

/-- An entry that is found is one of the key, or is about to be cleared and one of the key further
up. -/
theorem Held.exists_keyEntry
    (h : Held t stripes writers) (hfound : t.matchAt hash e.offset true = some e)
    (haddress : P e.val.pba) :
  ∃ e', t.KeyEntry writers hash P e' ∧ e.offset ≤ e'.offset ∧ e'.val = e.val
  := by
  by_cases hlower : Lower writers (t.hashToBucket hash + e.offset)
  · obtain ⟨i, w, hi, hclears⟩ := hlower
    obtain ⟨high, e₀, -, hin, hlow, hlt, hhigh⟩ := (h.left hi).copy hclears
    obtain ⟨hslot, -, htag, -⟩ := matchAt_eq_some.mp hfound
    obtain rfl := Option.some.inj (hslot.symm.trans hlow)
    have hhome : t.hashToBucket hash + e.offset - e.offset = t.hashToBucket hash := by omega
    rw [hhome] at hhigh
    have hplace : t.hashToBucket hash + (high - t.hashToBucket hash) = high := by omega
    refine ⟨⟨high - t.hashToBucket hash, e.val⟩,
      ⟨matchAt_eq_some.mpr ⟨?_, rfl, htag, fun _ => rfl⟩, haddress, ?_⟩, ?_, rfl⟩
    · rw [hplace, hhigh]
    · rw [hplace, ← update_writer hi, h.lower_iff hin, Option.bind_some, hclears]
      rintro ⟨⟩
      omega
    · simp only
      omega
  · exact ⟨e, ⟨hfound, haddress, hlower⟩, Nat.le_refl _, rfl⟩

/-! ### Entries that are there twice -/

/-- An item is there more than once if two slots of its bucket hold it. -/
theorem Wf.one_lt_count
    (ht : t.Wf) {hash : Nat} {x : EntryInfo} :
  1 < t.items.count (t.hashToBucket hash, x) ↔ ∃ d d', d ≠ d'
    ∧ t.slots (t.hashToBucket hash + d) = some ⟨d, x⟩
    ∧ t.slots (t.hashToBucket hash + d') = some ⟨d', x⟩
  := by
  have hcell : ∀ {idx}, itemAt t.slots idx = some (t.hashToBucket hash, x) →
      ∃ d, idx = t.hashToBucket hash + d ∧ t.slots idx = some ⟨d, x⟩ := by
    intro idx hidx
    obtain ⟨e, hslot, heq⟩ := itemAt_eq_some.mp hidx
    obtain ⟨hbucket, rfl⟩ := Prod.mk.inj heq
    have habove := ht.above hslot
    exact ⟨e.offset, by omega, hslot⟩
  have hitem : ∀ {d}, t.slots (t.hashToBucket hash + d) = some ⟨d, x⟩ →
      t.hashToBucket hash + d < t.totalSlots
        ∧ itemAt t.slots (t.hashToBucket hash + d) = some (t.hashToBucket hash, x) := by
    intro d hslot
    refine ⟨ht.lt_totalSlots hslot, itemAt_eq_some.mpr ⟨_, hslot, ?_⟩⟩
    rw [Nat.add_sub_cancel]
  rw [items, one_lt_count_contents]
  constructor
  · rintro ⟨idx, -, idx', -, hne, hidx, hidx'⟩
    obtain ⟨d, rfl, hslot⟩ := hcell hidx
    obtain ⟨d', rfl, hslot'⟩ := hcell hidx'
    exact ⟨d, d', fun h => hne (by rw [h]), hslot, hslot'⟩
  · rintro ⟨d, d', hne, hslot, hslot'⟩
    obtain ⟨hlt, hidx⟩ := hitem hslot
    obtain ⟨hlt', hidx'⟩ := hitem hslot'
    exact ⟨_, hlt, _, hlt', by omega, hidx, hidx'⟩

end HashTable

end UDepot
