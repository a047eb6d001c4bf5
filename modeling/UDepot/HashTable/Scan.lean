import UDepot.HashTable.Stores

/-!
# A scan while entries move

A reader goes through the neighborhood of a bucket slot by slot, without a lock, while any number of
writers store to the table.  An entry of the bucket is followed from slot to slot: while it is moved
it is in two slots, and its place is the upper one.  An entry only moves up, and it is in its upper
slot before it leaves the lower one, so a reader that has not come to its place is going to.

* `Scan.Follows` holds in every state of a run in which no call removes the entry or makes it a
  deleted one (`Scan.Follows.step`).
* `scan_returns_entry` is about whole scans.
-/

namespace UDepot

open Hopscotch Transition

namespace HashTable

/-- The slots between which the next store of a writer moves an entry: the lower and the upper. -/
def Writer.moves (w : Writer) : Option (Nat × Nat) :=
  match w.pending with
  | ⟨high, some _⟩ :: ⟨low, none⟩ :: _ => some (low, high)
  | _ => none

/-- The place of an entry after the next store of a writer. -/
def Writer.follow (w : Writer) (place : Nat) : Nat :=
  match w.moves with
  | some (low, high) => if low = place then high else place
  | none => place

/-- The next store of a writer does not remove the entry of a place and does not make it a deleted
one. -/
def Writer.Spares (w : Writer) (place : Nat) : Prop :=
  match w.call, w.pending with
  | .update _ _ newKvSize _, st :: _ => st.idx = place → newKvSize ≠ 0
  | .remove _ _, st :: _ => st.idx ≠ place
  | _, _ => True

instance : (w : Writer) → (place : Nat) → Decidable (w.Spares place)
  | ⟨.update _ _ newKvSize _, _, st :: _⟩, place =>
      inferInstanceAs (Decidable (st.idx = place → newKvSize ≠ 0))
  | ⟨.remove _ _, _, st :: _⟩, place => inferInstanceAs (Decidable (st.idx ≠ place))
  | ⟨.insert _ _ _, _, _⟩, _ | ⟨.update _ _ _ _, _, []⟩, _ | ⟨.remove _ _, _, []⟩, _ =>
      .isTrue trivial

/-- A live entry of the bucket and with the tag of a hash is in a slot. -/
def LiveAt (t : HashTable) (hash place : Nat) : Prop :=
  ∃ e, t.matchAt hash e.offset false = some e ∧ place = t.hashToBucket hash + e.offset

/-- A reader: what it looks up, the distance of the slot it loads next, and what it has returned.  A
lookup that has returned a match is resumed at the distance after it. -/
structure Reader where
  hash : Nat
  includeDeleted : Bool
  next : Nat
  returned : List HashEntry

/-- A table with its writers and a reader.  `place` is the slot of the entry that is followed. -/
structure Scan where
  table : HashTable
  stripes : Nat → Option Nat
  writers : Nat → Option Writer
  reader : Reader
  place : Nat

namespace Scan

inductive Act
  | lock (i : Nat) (c : Call)
  | store (i : Nat)
  | unlock (i : Nat)
  | load
  deriving DecidableEq, Repr

/-- A table that nobody writes. -/
def quiet (t : HashTable) : Scan := ⟨t, fun _ => none, fun _ => none, ⟨0, false, 0, []⟩, 0⟩

/-- A scan begins at a distance of `start`. -/
def begin (s : Scan) (hash start : Nat) (includeDeleted : Bool) (place : Nat) : Scan :=
  { s with reader := ⟨hash, includeDeleted, start, []⟩, place := place }

/-- What the reader finds in the slot it loads next. -/
def found (s : Scan) : Option HashEntry :=
  s.table.matchAt s.reader.hash s.reader.next s.reader.includeDeleted

def load (s : Scan) : Scan :=
  { s with reader := { s.reader with
      next := s.reader.next + 1
      returned := s.reader.returned ++ s.found.toList } }

def step (s : Scan) : Act → Option Scan
  | .lock i c =>
      if s.writers i = none ∧ s.stripes (s.table.lockFor c.hash).1 = none
          ∧ s.stripes (s.table.lockFor c.hash).2 = none then
        some { s with
          stripes := s.table.lock s.stripes i c.hash
          writers := Function.update s.writers i (some (.start s.table c)) }
      else none
  | .store i =>
      match s.writers i with
      | some ⟨c, ok, st :: ws⟩ =>
          some { s with
            table := s.table.apply [st]
            writers := Function.update s.writers i (some ⟨c, ok, ws⟩)
            place := Writer.follow ⟨c, ok, st :: ws⟩ s.place }
      | _ => none
  | .unlock i =>
      match s.writers i with
      | some ⟨c, _, []⟩ =>
          some { s with
            stripes := s.table.unlock s.stripes c.hash
            writers := Function.update s.writers i none }
      | _ => none
  | .load => if s.reader.next < kHopRange then some s.load else none

/-- The entry that is followed is not removed and not made a deleted one. -/
def Spares (s : Scan) : Act → Prop
  | .store i => ∀ w ∈ s.writers i, w.Spares s.place
  | _ => True

instance : (s : Scan) → (a : Act) → Decidable (s.Spares a)
  | s, .store i => inferInstanceAs (Decidable (∀ w ∈ s.writers i, w.Spares s.place))
  | _, .lock _ _ | _, .unlock _ | _, .load => .isTrue trivial

/-- The entry that is followed is in its place, and no writer is about to clear that. -/
structure Follows (s : Scan) (hash : Nat) : Prop where
  live : s.table.LiveAt hash s.place
  upper : ∀ {i w}, s.writers i = some w → w.clears ≠ some s.place

end Scan

variable {t : HashTable} {stripes : Nat → Option Nat} {writers : Nat → Option Writer}

/-! ### Following an entry -/

theorem LiveAt.eq_some
    {hash place : Nat} (h : t.LiveAt hash place) :
  ∃ e, t.slots place = some e ∧ place = t.hashToBucket hash + e.offset
    ∧ e.val.keyTag = t.tagOf hash ∧ e.val.deleted = false
  := by
  obtain ⟨e, hm, rfl⟩ := h
  obtain ⟨hslot, -, htag, hdel⟩ := matchAt_eq_some.mp hm
  refine ⟨e, hslot, rfl, htag, ?_⟩
  cases hd : e.val.deleted with
  | false => rfl
  | true => cases hdel hd

theorem liveAt_of_slot
    {hash place : Nat} {e : HashEntry} (hslot : t.slots place = some e)
    (hplace : place = t.hashToBucket hash + e.offset) (htag : e.val.keyTag = t.tagOf hash)
    (hdel : e.val.deleted = false) :
  t.LiveAt hash place
  := by
  refine ⟨e, matchAt_eq_some.mpr ⟨?_, rfl, htag, fun h => ?_⟩, hplace⟩
  · rw [← hplace, hslot]
  · rw [hdel] at h
    cases h

/-- A store to another slot leaves an entry in its place. -/
theorem LiveAt.store_ne
    {hash place : Nat} {st : Store EntryInfo} (h : t.LiveAt hash place) (hne : place ≠ st.idx) :
  (t.apply [st]).LiveAt hash place
  := by
  obtain ⟨e, hslot, hplace, htag, hdel⟩ := h.eq_some
  refine liveAt_of_slot (t := t.apply [st]) ?_ hplace htag hdel
  exact (Slots.store_ne _ _ hne).trans hslot

/-- After a writer's next store, the entry is in the place that follows from it. -/
theorem Left.live
    {R : Nat → Prop} {c : Call} {ok : Bool} {st : Store EntryInfo} {ws : List (Store EntryInfo)}
    {hash place : Nat} (hleft : Left t R ⟨c, ok, st :: ws⟩) (h : t.LiveAt hash place)
    (hupper : Writer.clears ⟨c, ok, st :: ws⟩ ≠ some place)
    (hspares : Writer.Spares ⟨c, ok, st :: ws⟩ place) :
  (t.apply [st]).LiveAt hash (Writer.follow ⟨c, ok, st :: ws⟩ place)
  := by
  obtain ⟨e, hslot, hplace, htag, hdel⟩ := h.eq_some
  cases hleft with
  | insert hpending =>
      cases hpending with
      | between hplacing =>
          cases hplacing with
          | put hgoal hin hfree hle hreach =>
              apply h.store_ne
              rintro rfl
              cases hfree.symm.trans hslot
          | @move _ low high c ws hlowIn hhighIn hlow hhigh hlt hreach hrest =>
              simp only [Writer.follow, Writer.moves]
              split
              · rename_i hlow'
                subst hlow'
                obtain rfl := Option.some.inj (hlow.symm.trans hslot)
                have hhome : low - c.offset = t.hashToBucket hash := by omega
                rw [hhome]
                refine liveAt_of_slot (Slots.store_same t.slots ⟨high, _⟩) ?_ htag hdel
                change high = t.hashToBucket hash + (high - t.hashToBucket hash)
                omega
              · apply h.store_ne
                rintro rfl
                cases hhigh.symm.trans hslot
      | copied hlowIn hhighIn hlow hhigh hlt hrest =>
          apply h.store_ne
          rintro rfl
          exact hupper rfl
  | @update hash' newKvSize newPba e' hin hslot' htag' =>
      by_cases hidx : t.hashToBucket hash' + e'.offset = place
      · rw [hidx] at hslot'
        obtain rfl := Option.some.inj (hslot'.symm.trans hslot)
        refine liveAt_of_slot (e := ⟨e'.offset, ⟨t.tagOf hash', newKvSize, newPba⟩⟩) ?_ hplace
          (htag'.symm.trans htag) ?_
        · rw [← hidx]
          exact Slots.store_same t.slots ⟨_, _⟩
        · simp only [EntryInfo.deleted, beq_eq_false_iff_ne]
          exact hspares hidx
      · exact h.store_ne (Ne.symm hidx)
  | remove hin hslot' htag' => exact h.store_ne (Ne.symm hspares)

/-- The slot that a writer has to clear after its next store is not the place of the entry. -/
theorem Left.clears_ne
    {R : Nat → Prop} {c : Call} {ok : Bool} {st : Store EntryInfo} {ws : List (Store EntryInfo)}
    {place : Nat} (hleft : Left t R ⟨c, ok, st :: ws⟩) :
  Writer.clears ⟨c, ok, ws⟩ ≠ some (Writer.follow ⟨c, ok, st :: ws⟩ place)
  := by
  cases hleft with
  | insert hpending =>
      cases hpending with
      | between hplacing =>
          cases hplacing with
          | put hgoal hin hfree hle hreach => rintro ⟨⟩
          | @move _ low high c ws hlowIn hhighIn hlow hhigh hlt hreach hrest =>
              simp only [Writer.clears, Writer.follow, Writer.moves, ne_eq, Option.some.injEq]
              split
              · omega
              · assumption
      | copied hlowIn hhighIn hlow hhigh hlt hrest =>
          cases hrest with
          | done | put | move => rintro ⟨⟩
  | update | remove => rintro ⟨⟩

/-- An entry stays in its place or comes to a slot of the writer that moves it, further up. -/
theorem Left.follow_owned
    {R : Nat → Prop} {w : Writer} (hleft : Left t R w) (place : Nat) :
  w.follow place = place ∨ R (w.follow place) ∧ place < w.follow place
  := by
  cases hleft with
  | finished => exact .inl rfl
  | insert hpending =>
      cases hpending with
      | between hplacing =>
          cases hplacing with
          | done | put => exact .inl rfl
          | move hlowIn hhighIn hlow hhigh hlt hreach hrest =>
              simp only [Writer.follow, Writer.moves]
              split
              · rename_i heq
                exact .inr ⟨hhighIn, heq ▸ hlt⟩
              · exact .inl rfl
      | copied => exact .inl rfl
  | update | remove => exact .inl rfl

namespace Scan

variable {s s' s₀ : Scan} {a : Act}

/-- The steps that are possible. -/
inductive Steps (s : Scan) : Act → Scan → Prop
  | lock {i : Nat} {c : Call} (hi : s.writers i = none)
      (hfirst : s.stripes (s.table.lockFor c.hash).1 = none)
      (hsecond : s.stripes (s.table.lockFor c.hash).2 = none) :
      Steps s (.lock i c) { s with
        stripes := s.table.lock s.stripes i c.hash
        writers := Function.update s.writers i (some (.start s.table c)) }
  | store {i : Nat} {c : Call} {ok : Bool} {st : Store EntryInfo} {ws : List (Store EntryInfo)}
      (hi : s.writers i = some ⟨c, ok, st :: ws⟩) :
      Steps s (.store i) { s with
        table := s.table.apply [st]
        writers := Function.update s.writers i (some ⟨c, ok, ws⟩)
        place := Writer.follow ⟨c, ok, st :: ws⟩ s.place }
  | unlock {i : Nat} {c : Call} {ok : Bool} (hi : s.writers i = some ⟨c, ok, []⟩) :
      Steps s (.unlock i) { s with
        stripes := s.table.unlock s.stripes c.hash
        writers := Function.update s.writers i none }
  | load (hnext : s.reader.next < kHopRange) : Steps s .load s.load

theorem steps_of_step (hs : s.step a = some s') : Steps s a s' := by
  cases a with
  | lock i c =>
      obtain ⟨⟨hi, hfirst, hsecond⟩, ⟨⟩⟩ := Option.ite_none_right_eq_some.mp hs
      exact .lock hi hfirst hsecond
  | store i =>
      rw [step] at hs
      split at hs
      · rename_i hi
        cases hs
        exact .store hi
      · cases hs
  | unlock i =>
      rw [step] at hs
      split at hs
      · rename_i hi
        cases hs
        exact .unlock hi
      · cases hs
  | load =>
      obtain ⟨hnext, ⟨⟩⟩ := Option.ite_none_right_eq_some.mp hs
      exact .load hnext

theorem Steps.held
    (hs : Steps s a s') (h : Held s.table s.stripes s.writers) :
  Held s'.table s'.stripes s'.writers
  := by
  cases hs with
  | @lock i c hi hfirst hsecond =>
      exact h.lock (w := .start s.table c) hfirst hsecond fun hin => h.wf.left_start c hin
  | store hi => exact h.store hi
  | unlock hi => exact h.finish hi
  | load hnext => exact h

/-- The table keeps its size, an entry only moves up, and the reader's own steps are loads. -/
theorem Steps.keeps
    (hs : Steps s a s') (h : Held s.table s.stripes s.writers) :
  s'.table.indexBits = s.table.indexBits ∧ s.place ≤ s'.place
    ∧ (s' = s.load ∨ s'.reader = s.reader)
  := by
  cases hs with
  | lock hi hfirst hsecond => exact ⟨rfl, Nat.le_refl _, .inr rfl⟩
  | store hi =>
      refine ⟨rfl, ?_, .inr rfl⟩
      obtain hsame | ⟨-, hlt⟩ := (h.left hi).follow_owned s.place
      · exact hsame.ge
      · exact hlt.le
  | unlock hi => exact ⟨rfl, Nat.le_refl _, .inr rfl⟩
  | load hnext => exact ⟨rfl, Nat.le_refl _, .inl rfl⟩

/-- An entry that is spared is in its place after every step. -/
theorem Follows.step
    {hash : Nat} (h : s.Follows hash) (hheld : Held s.table s.stripes s.writers)
    (hspares : s.Spares a) (hs : Steps s a s') :
  s'.Follows hash
  := by
  cases hs with
  | @lock i c hi hfirst hsecond =>
      refine ⟨h.live, ?_⟩
      intro j w hj
      by_cases hji : j = i
      · subst hji
        simp only [Function.update_self, Option.some.injEq] at hj
        rw [← hj, Writer.clears_start]
        nofun
      · simp only [Function.update_of_ne hji] at hj
        exact h.upper hj
  | @store i c ok st ws hi =>
      have hleft := hheld.left hi
      refine ⟨hleft.live h.live (h.upper hi) (hspares _ hi), ?_⟩
      intro j w hj
      by_cases hji : j = i
      · subst hji
        simp only [Function.update_self, Option.some.injEq] at hj
        rw [← hj]
        exact hleft.clears_ne
      · simp only [Function.update_of_ne hji] at hj
        obtain hsame | ⟨howned, -⟩ := hleft.follow_owned s.place
        · rw [hsame]
          exact h.upper hj
        · intro hclears
          -- a slot has one owner
          obtain ⟨_, _, howned', -⟩ := (hheld.left hj).copy hclears
          exact hji (Option.some.inj (howned'.symm.trans howned))
  | @unlock i c ok hi =>
      refine ⟨h.live, ?_⟩
      intro j w hj
      by_cases hji : j = i
      · subst hji
        simp at hj
      · simp only [Function.update_of_ne hji] at hj
        exact h.upper hj
  | load hnext => exact ⟨h.live, h.upper⟩

/-- At some moment of the scan the reader loaded the place of the entry, and the entry it found
there is among those returned. -/
def Seen (s₀ s : Scan) : Prop :=
  ∃ s₁ e, Reach step Spares s₀ s₁ ∧ s₁.table.slots s₁.place = some e ∧ s₁.found = some e
    ∧ Reach step Spares s₁.load s ∧ e ∈ s.reader.returned

/-- What holds in every state of a scan that began in the state `s₀`. -/
structure Goes (s₀ s : Scan) : Prop where
  reach : Reach step Spares s₀ s
  held : Held s.table s.stripes s.writers
  bits : s.table.indexBits = s₀.table.indexBits
  hash : s.reader.hash = s₀.reader.hash
  includeDeleted : s.reader.includeDeleted = s₀.reader.includeDeleted
  follows : s.Follows s₀.reader.hash
  seen : Seen s₀ s ∨ s₀.table.hashToBucket s₀.reader.hash + s.reader.next ≤ s.place
  returned : ∀ e ∈ s.reader.returned, ∃ s₁, Reach step Spares s₀ s₁ ∧ Reach step Spares s₁ s
    ∧ s₁.table.matchAt s₀.reader.hash e.offset s₀.reader.includeDeleted = some e

theorem mem_load {e : HashEntry} :
    e ∈ s.load.reader.returned ↔ e ∈ s.reader.returned ∨ s.found = some e := by
  simp [load]

/-- What the reader returns only gets more. -/
theorem returned_subset
    (hreader : s' = s.load ∨ s'.reader = s.reader) {e : HashEntry}
    (he : e ∈ s.reader.returned) :
  e ∈ s'.reader.returned
  := by
  obtain rfl | hsame := hreader
  · exact mem_load.mpr (.inl he)
  · rw [hsame]
    exact he

/-- A reader that loads the place of a live entry finds it. -/
theorem found_of_live
    {hash : Nat} (h : s.table.LiveAt hash s.place) (hhash : s.reader.hash = hash)
    (hnext : s.table.hashToBucket hash + s.reader.next = s.place) :
  ∃ e, s.table.slots s.place = some e ∧ s.found = some e
  := by
  obtain ⟨e, hslot, hplace, htag, hdel⟩ := h.eq_some
  have hoffset : s.reader.next = e.offset := by omega
  refine ⟨e, hslot, ?_⟩
  rw [found, hhash, hoffset]
  apply matchAt_eq_some.mpr
  refine ⟨by rw [← hplace, hslot], rfl, htag, fun h => ?_⟩
  rw [hdel] at h
  cases h

theorem Goes.step
    (h : Goes s₀ s) (hspares : s.Spares a) (hs : s.step a = some s') :
  Goes s₀ s'
  := by
  have hsteps := steps_of_step hs
  have hheld := hsteps.held h.held
  have hfollows := h.follows.step h.held hspares hsteps
  obtain ⟨hbits, hplace, hreader⟩ := hsteps.keeps h.held
  have hreach : Reach Scan.step Spares s₀ s' := h.reach.tail hspares hs
  have hlater : ∀ {s₁}, Reach Scan.step Spares s₁ s → Reach Scan.step Spares s₁ s' :=
    fun hr => hr.tail hspares hs
  have hseen : Seen s₀ s → Seen s₀ s' := by
    rintro ⟨s₁, e, h₁, hslot, hfound, h₂, he⟩
    exact ⟨s₁, e, h₁, hslot, hfound, hlater h₂, returned_subset hreader he⟩
  have hold : ∀ e ∈ s.reader.returned, ∃ s₁, Reach Scan.step Spares s₀ s₁
      ∧ Reach Scan.step Spares s₁ s'
      ∧ s₁.table.matchAt s₀.reader.hash e.offset s₀.reader.includeDeleted = some e := by
    intro e he
    obtain ⟨s₁, h₁, h₂, hm⟩ := h.returned e he
    exact ⟨s₁, h₁, hlater h₂, hm⟩
  obtain rfl | hsame := hreader
  · refine ⟨hreach, hheld, hbits.trans h.bits, h.hash, h.includeDeleted, hfollows, ?_, ?_⟩
    · obtain hs₁ | hnext := h.seen
      · exact .inl (hseen hs₁)
      · obtain hlt | heq := Nat.lt_or_eq_of_le hnext
        · exact .inr hlt
        · left
          have hbucket : s.table.hashToBucket s₀.reader.hash
              = s₀.table.hashToBucket s₀.reader.hash := by
            rw [hashToBucket, hashToBucket, numBuckets, numBuckets, h.bits]
          obtain ⟨e, hslot, hfound⟩ := found_of_live h.follows.live h.hash (by rw [hbucket, heq])
          exact ⟨s, e, h.reach, hslot, hfound, .refl, mem_load.mpr (.inr hfound)⟩
    · intro e he
      obtain he | hfound := mem_load.mp he
      · exact hold e he
      · have hoffset := matchAt_offset hfound
        rw [found, h.hash, h.includeDeleted, ← hoffset] at hfound
        exact ⟨s, h.reach, hlater .refl, hfound⟩
  · refine ⟨hreach, hheld, hbits.trans h.bits, ?_, ?_, hfollows, ?_, ?_⟩
    · rw [hsame, h.hash]
    · rw [hsame, h.includeDeleted]
    · obtain hs₁ | hnext := h.seen
      · exact .inl (hseen hs₁)
      · rw [hsame]
        exact .inr (hnext.trans hplace)
    · rw [hsame]
      exact hold

/-- Take any table, any moment of the calls of its writers, and a live entry of the bucket and with
the tag of a hash that is in a slot at a distance of at least `start`.  A scan begins there, and no
call removes the entry or makes it a deleted one.  When the scan is through, it has returned the
entry as it was when the reader came to its place; and whatever it returns was in its slot at a
moment of the scan. -/
theorem scan_returns_entry
    {t : HashTable} (ht : t.Wf) {s₁ s : Scan} {hash start place : Nat} {incl : Bool}
    (hwriters : Reach step (fun _ _ => True) (.quiet t) s₁) (hlive : s₁.table.LiveAt hash place)
    (hupper : ∀ {i w}, s₁.writers i = some w → w.clears ≠ some place)
    (hstart : s₁.table.hashToBucket hash + start ≤ place)
    (hscan : Reach step Spares (s₁.begin hash start incl place) s) :
  (kHopRange ≤ s.reader.next → Seen (s₁.begin hash start incl place) s)
    ∧ ∀ e ∈ s.reader.returned, ∃ s₂, Reach step Spares (s₁.begin hash start incl place) s₂
      ∧ Reach step Spares s₂ s ∧ s₂.table.matchAt hash e.offset incl = some e
  := by
  have hheld : Held s₁.table s₁.stripes s₁.writers :=
    hwriters.invariant (I := fun s => Held s.table s.stripes s.writers) ⟨ht, nofun, nofun⟩
      fun _ _ _ h _ hs => (steps_of_step hs).held h
  have hbegin : Goes (s₁.begin hash start incl place) (s₁.begin hash start incl place) :=
    ⟨.refl, hheld, rfl, rfl, rfl, ⟨hlive, hupper⟩, .inr hstart, nofun⟩
  have hgoes := hscan.invariant hbegin fun _ _ _ h hok hs => h.step hok hs
  refine ⟨?_, hgoes.returned⟩
  intro hend
  obtain hseen | hnext := hgoes.seen
  · exact hseen
  · obtain ⟨e, hslot, hplace, -, -⟩ := hgoes.follows.live.eq_some
    have hreach := hgoes.held.wf.reach hslot
    have hbucket : s.table.hashToBucket hash = s₁.table.hashToBucket hash := by
      have hbits : s.table.indexBits = s₁.table.indexBits := hgoes.bits
      rw [hashToBucket, hashToBucket, numBuckets, numBuckets, hbits]
    change s₁.table.hashToBucket hash + s.reader.next ≤ s.place at hnext
    change s.place = s.table.hashToBucket hash + e.offset at hplace
    omega

/-- A table of 64 buckets with an entry in each of the buckets 2 to 33. -/
def filled : HashTable :=
  (run callStep (clear 6) ((List.range 32).map fun i => .insert (2 + i) 1 i)).getD (clear 6)

/-- A scan of bucket 3, after an insertion for bucket 2 has moved its entry up by 31 slots. -/
def movedUp : Option Scan :=
  guarded step Spares ((quiet filled).begin 3 0 false 3)
    (([.lock 0 (.insert 2 1 100), .store 0, .store 0, .store 0] : List Act)
      ++ List.replicate 32 Act.load)

theorem movedUp_returned :
    ∃ s, movedUp = some s ∧ s.reader.returned = [⟨31, ⟨0, 1, 1⟩⟩]
      ∧ Seen ((quiet filled).begin 3 0 false 3) s := by
  have hfilled : Reach callStep (fun _ c => c.Fits) (clear 6) filled := by
    apply Reach.of_run_isSome (by decide +kernel)
    have hfits : ∀ c ∈ (List.range 32).map fun i => Call.insert (2 + i) 1 i, c.Fits := by decide
    exact fun c hc _ => hfits c hc
  have hend : (movedUp.map fun s => (s.reader.next, s.reader.returned))
      = some (32, [⟨31, ⟨0, 1, 1⟩⟩]) := by decide +kernel
  obtain ⟨s, hs, hreader⟩ := Option.map_eq_some_iff.mp hend
  obtain ⟨hnext, hreturned⟩ := Prod.mk.inj hreader
  have hlive : filled.LiveAt 3 3 := ⟨⟨0, ⟨0, 1, 1⟩⟩, by decide +kernel, by decide +kernel⟩
  have hseen := scan_returns_entry (wf_of_calls hfilled).1 .refl hlive nofun (by decide +kernel)
    (.of_guarded hs)
  exact ⟨s, hs, hreturned, hseen.1 hnext.ge⟩

end Scan

end HashTable

end UDepot
