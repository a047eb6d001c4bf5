import UDepot.Lib.Hopscotch.Writes
import UDepot.HashTable.Calls

/-!
# Writers of a table

Any number of writers on one table, each with the stripe locks of its hash, store by store.  What a
call reads and stores to is in the stripes it locks (`lockFor_covers`), and a stripe has one owner,
so a writer finds its slots as its own stores left them whatever the others do in between (`Held`).
The stores of a call can therefore be taken from the table as it is when the locks are taken.
-/

namespace UDepot

open Hopscotch

namespace HashTable

/-! ### Stripes -/

/-- Halving ends with stripes that cover a write's reach, or with a single one. -/
theorem halveStripes_covers
    (t : HashTable) :
  ∀ {f n : Nat}, n ≤ 2 ^ f → t.halveStripes f n ≤ 1
    ∨ kWriteReach ≤ (t.totalSlots + t.halveStripes f n - 1) / t.halveStripes f n
  | 0, n, hn => .inl hn
  | f + 1, n, hn => by
      rw [halveStripes]
      split
      · apply halveStripes_covers t
        omega
      · rename_i hnot
        obtain hlt | hle := Nat.lt_or_ge 1 n
        · exact .inr (Nat.le_of_not_lt fun h => hnot ⟨hlt, h⟩)
        · exact .inl hle

theorem halveStripes_pos
    (t : HashTable) :
  ∀ {f n : Nat}, 0 < n → 0 < t.halveStripes f n
  | 0, _, hn => hn
  | f + 1, n, hn => by
      rw [halveStripes]
      split
      · apply halveStripes_pos t
        omega
      · exact hn

/-- The stripe of a slot. -/
def stripeOf (t : HashTable) (idx : Nat) : Nat := idx / t.slotsPerStripe

/-- A stripe covers a write's reach, or there is only one. -/
theorem slotsPerStripe_covers
    (t : HashTable) :
  (∀ idx < t.totalSlots, t.stripeOf idx = 0) ∨ kWriteReach ≤ t.slotsPerStripe
  := by
  obtain hone | hcovers := t.halveStripes_covers (f := 10) (n := kMaxStripes) (by decide)
  · left
    intro idx hidx
    rw [stripeOf, slotsPerStripe, numStripes]
    obtain h | h := Nat.le_one_iff_eq_zero_or_eq_one.mp hone
    · rw [h, Nat.div_zero, Nat.div_zero]
    · rw [h, Nat.add_sub_cancel, Nat.div_one, Nat.div_eq_of_lt hidx]
  · exact .inr hcovers

/-- Every slot is in a stripe there is. -/
theorem stripeOf_lt
    (t : HashTable) {idx : Nat} (hidx : idx < t.totalSlots) :
  t.stripeOf idx < t.numStripes
  := by
  have hpos : 0 < t.numStripes := t.halveStripes_pos (by decide)
  have hdiv := Nat.div_add_mod (t.totalSlots + t.numStripes - 1) t.numStripes
  have hmod := Nat.mod_lt (t.totalSlots + t.numStripes - 1) hpos
  rw [← slotsPerStripe, Nat.mul_comm] at hdiv
  apply Nat.div_lt_of_lt_mul
  omega

/-- `lock_for` locks one stripe or two adjacent ones. -/
theorem lockFor_le
    (t : HashTable) (hash : Nat) :
  (t.lockFor hash).1 ≤ (t.lockFor hash).2 ∧ (t.lockFor hash).2 ≤ (t.lockFor hash).1 + 1
  := by
  have hbucket := t.hashToBucket_lt hash
  have htotal : t.totalSlots = t.numBuckets + kHopRange := rfl
  have hsearch : kSearchEnd = 2080 := rfl
  have hreach : kWriteReach = kHopRange + kSearchEnd := rfl
  obtain hone | hcovers := t.slotsPerStripe_covers
  · have hfirst := hone (t.hashToBucket hash - kHopRange) (by omega)
    have hsecond := hone (min (t.hashToBucket hash + kSearchEnd) t.totalSlots - 1) (by omega)
    simp only [stripeOf] at hfirst hsecond
    simp only [lockFor, hfirst, hsecond]
    omega
  · constructor
    · apply Nat.div_le_div_right
      omega
    · rw [lockFor, ← Nat.add_div_right _ (by omega)]
      apply Nat.div_le_div_right
      omega

/-- Every slot within a write's reach is in one of the two stripes `lock_for` locks. -/
theorem lockFor_covers
    (t : HashTable) {hash idx : Nat} (hlo : t.hashToBucket hash - kHopRange ≤ idx)
    (hhi : idx < min (t.hashToBucket hash + kSearchEnd) t.totalSlots) :
  t.stripeOf idx = (t.lockFor hash).1 ∨ t.stripeOf idx = (t.lockFor hash).2
  := by
  have hlast : idx ≤ min (t.hashToBucket hash + kSearchEnd) t.totalSlots - 1 := by omega
  have hfirst : (t.lockFor hash).1 ≤ t.stripeOf idx := Nat.div_le_div_right hlo
  have hsecond : t.stripeOf idx ≤ (t.lockFor hash).2 := Nat.div_le_div_right hlast
  have hadjacent := (t.lockFor_le hash).2
  omega

/-! ### Writers -/

/-- A writer: its call, what the call is going to return, and the stores it has still to make. -/
structure Writer where
  call : Call
  ok : Bool
  pending : List (Store EntryInfo)
  deriving DecidableEq, Repr

/-- A writer that has just taken its locks. -/
def Writer.start (t : HashTable) (c : Call) : Writer := ⟨c, (c.stores t).1, (c.stores t).2⟩

/-- The slot a writer has moved an entry from and clears next. -/
def Writer.clears (w : Writer) : Option Nat :=
  match w.call, w.pending with
  | .insert _ _ _, ⟨low, none⟩ :: _ => some low
  | _, _ => none

/-- The owners of the stripes after a writer has taken the locks of a hash. -/
def lock (t : HashTable) (stripes : Nat → Option Nat) (i hash : Nat) : Nat → Option Nat :=
  Function.update (Function.update stripes (t.lockFor hash).1 (some i)) (t.lockFor hash).2 (some i)

/-- The owners of the stripes after a writer has released the locks of a hash. -/
def unlock (t : HashTable) (stripes : Nat → Option Nat) (hash : Nat) : Nat → Option Nat :=
  Function.update (Function.update stripes (t.lockFor hash).1 none) (t.lockFor hash).2 none

/-- What a writer has still to do, in terms of the slots of its region. -/
inductive Left (t : HashTable) (R : Nat → Prop) : Writer → Prop
  | finished {c : Call} {ok : Bool} : Left t R ⟨c, ok, []⟩
  | insert {hash kvSize pba : Nat} {ok : Bool} {ws : List (Store EntryInfo)}
      (h : Pending kHopRange R
        (if ok then some (t.hashToBucket hash, ⟨t.tagOf hash, kvSize, pba⟩) else none) t.slots ws) :
      Left t R ⟨.insert hash kvSize pba, ok, ws⟩
  | update {hash newKvSize newPba : Nat} {e : HashEntry} (hin : R (t.hashToBucket hash + e.offset))
      (hslot : t.slots (t.hashToBucket hash + e.offset) = some e)
      (htag : e.val.keyTag = t.tagOf hash) :
      Left t R ⟨.update hash e.val.pba newKvSize newPba, true,
        [⟨t.hashToBucket hash + e.offset, some ⟨e.offset, ⟨t.tagOf hash, newKvSize, newPba⟩⟩⟩]⟩
  | remove {hash : Nat} {e : HashEntry} (hin : R (t.hashToBucket hash + e.offset))
      (hslot : t.slots (t.hashToBucket hash + e.offset) = some e)
      (htag : e.val.keyTag = t.tagOf hash) :
      Left t R ⟨.remove hash e.val.pba, true, [⟨t.hashToBucket hash + e.offset, none⟩]⟩

variable {t t' : HashTable} {R : Nat → Prop} {w : Writer}

/-- What a writer has to do does not depend on the slots of the others. -/
theorem Left.congr
    (h : Left t R w) (hbits : t'.indexBits = t.indexBits)
    (heq : ∀ i, R i → t'.slots i = t.slots i) :
  Left t' R w
  := by
  have hb : ∀ hash, t'.hashToBucket hash = t.hashToBucket hash := fun hash => by
    rw [hashToBucket, hashToBucket, numBuckets, numBuckets, hbits]
  have ht : ∀ hash, t'.tagOf hash = t.tagOf hash := fun hash => by rw [tagOf, tagOf, hbits]
  cases h with
  | finished => exact .finished
  | insert h =>
      apply Left.insert
      rw [hb, ht]
      exact h.congr heq
  | update hin hslot htag =>
      rw [← hb, ← ht]
      rw [← hb] at hin hslot
      exact .update hin (by rw [heq _ hin, hslot]) (by rw [htag, ht])
  | remove hin hslot htag =>
      rw [← hb]
      rw [← hb] at hin hslot
      exact .remove hin (by rw [heq _ hin, hslot]) (by rw [htag, ht])

theorem Writer.clears_nil (c : Call) (ok : Bool) : Writer.clears ⟨c, ok, []⟩ = none := by
  cases c with
  | insert _ _ _ => rfl
  | update _ _ _ _ => rfl
  | remove _ _ => rfl

/-- The entry a writer is about to clear is also in a higher slot; both are the writer's own. -/
theorem Left.copy
    {low : Nat} (hleft : Left t R w) (hclears : w.clears = some low) :
  ∃ high e, R low ∧ R high ∧ t.slots low = some e ∧ low < high
    ∧ t.slots high = some ⟨high - (low - e.offset), e.val⟩
  := by
  cases hleft with
  | finished =>
      rw [Writer.clears_nil] at hclears
      cases hclears
  | insert hpending =>
      cases hpending with
      | between hplacing =>
          cases hplacing with
          | done | put | move => cases hclears
      | copied hlowIn hhighIn hlow hhigh hlt hrest =>
          cases hclears
          exact ⟨_, _, hlowIn, hhighIn, hlow, hlt, hhigh⟩
  | update | remove => cases hclears

/-- A writer that has just taken its locks has moved nothing. -/
theorem Writer.clears_start (t : HashTable) (c : Call) : (Writer.start t c).clears = none := by
  cases c with
  | insert hash kvSize pba =>
      have hplacing : Placing kHopRange (fun _ => True) _ t.slots
          (t.insertStores hash kvSize pba).2 :=
        placing_of_place (Prod.mk.eta).symm fun _ _ _ => trivial
      simp only [Writer.start, Call.stores, Writer.clears]
      split
      · rename_i hws
        rw [hws] at hplacing
        exact hplacing.head_ne.elim
      · rfl
  | update _ _ _ _ => rfl
  | remove _ _ => rfl

/-- A call that succeeds makes a store. -/
theorem Call.stores_ne_nil
    {c : Call} (hok : (c.stores t).1 = true) :
  (c.stores t).2 ≠ []
  := by
  cases c with
  | insert hash kvSize pba =>
      obtain ⟨-, ⟨hfalse, -⟩ | ⟨-, moves, slot, hws, -⟩⟩ :=
        place_cases (Prod.mk.eta (p := t.insertStores hash kvSize pba)).symm
      · cases hfalse.symm.trans hok
      · change (t.insertStores hash kvSize pba).2 ≠ []
        rw [hws]
        simp
  | update hash oldPba newKvSize newPba =>
      rw [Call.stores] at hok ⊢
      rw [updateStores] at hok ⊢
      cases hf : t.findPba hash oldPba with
      | none =>
          rw [hf] at hok
          cases hok
      | some idx => rintro ⟨⟩
  | remove hash pba =>
      rw [Call.stores] at hok ⊢
      rw [removeStores] at hok ⊢
      cases hf : t.findPba hash pba with
      | none =>
          rw [hf] at hok
          cases hok
      | some idx => rintro ⟨⟩

/-- A writer that has taken its locks has its whole call to do. -/
theorem Wf.left_start
    (ht : t.Wf) (c : Call)
    (hin : ∀ {idx}, t.stripeOf idx = (t.lockFor c.hash).1 ∨ t.stripeOf idx = (t.lockFor c.hash).2 →
      R idx) :
  Left t R (.start t c)
  := by
  have hcover : ∀ {d}, d < kHopRange → R (t.hashToBucket c.hash + d) := by
    intro d hd
    have hbucket := t.hashToBucket_lt c.hash
    have hsearch : kHopRange ≤ kSearchEnd := by decide
    apply hin
    apply t.lockFor_covers
    · omega
    · rw [totalSlots]
      omega
  cases c with
  | insert hash kvSize pba =>
      refine .insert (.between (placing_of_place (Prod.mk.eta).symm ?_))
      intro i hle hlt
      apply hin
      apply t.lockFor_covers
      · exact (Nat.sub_le _ _).trans hle
      · exact hlt
  | update hash oldPba newKvSize newPba =>
      rw [Writer.start, Call.stores, updateStores]
      cases hf : t.findPba hash oldPba with
      | none => exact .finished
      | some idx =>
          obtain ⟨e, hslot, rfl, hreach, htag, rfl, -⟩ := ht.findPba_eq_some hf
          simp only [Option.map_some, Nat.add_sub_cancel_left]
          exact .update (hcover hreach) hslot htag
  | remove hash pba =>
      rw [Writer.start, Call.stores, removeStores]
      cases hf : t.findPba hash pba with
      | none => exact .finished
      | some idx =>
          obtain ⟨e, hslot, rfl, hreach, htag, rfl, -⟩ := ht.findPba_eq_some hf
          exact .remove (hcover hreach) hslot htag

/-! ### A table and its writers -/

/-- The slots a writer may touch: those of the stripes it owns. -/
def Owns (t : HashTable) (stripes : Nat → Option Nat) (i idx : Nat) : Prop :=
  stripes (t.stripeOf idx) = some i

/-- A table with the writers on it. -/
structure Held (t : HashTable) (stripes : Nat → Option Nat) (writers : Nat → Option Writer) :
    Prop where
  wf : t.Wf
  locks : ∀ {i w}, writers i = some w →
    stripes (t.lockFor w.call.hash).1 = some i ∧ stripes (t.lockFor w.call.hash).2 = some i
  left : ∀ {i w}, writers i = some w → Left t (t.Owns stripes i) w

variable {stripes : Nat → Option Nat} {writers : Nat → Option Writer}

/-- A writer comes or goes, with its locks. -/
theorem Held.relock
    (h : Held t stripes writers) {i : Nat} {stripes' : Nat → Option Nat} {o : Option Writer}
    (hs : ∀ {j}, j ≠ i → ∀ s, stripes' s = some j ↔ stripes s = some j)
    (ho : ∀ {w}, o = some w → (stripes' (t.lockFor w.call.hash).1 = some i
      ∧ stripes' (t.lockFor w.call.hash).2 = some i) ∧ Left t (t.Owns stripes' i) w) :
  Held t stripes' (Function.update writers i o)
  where
  wf := h.wf
  locks := by
    intro j w hj
    by_cases hji : j = i
    · subst hji
      rw [Function.update_self] at hj
      exact (ho hj).1
    · rw [Function.update_of_ne hji] at hj
      rw [hs hji, hs hji]
      exact h.locks hj
  left := by
    intro j w hj
    by_cases hji : j = i
    · subst hji
      rw [Function.update_self] at hj
      exact (ho hj).2
    · rw [Function.update_of_ne hji] at hj
      have howns : t.Owns stripes' j = t.Owns stripes j := funext fun idx => propext (hs hji _)
      rw [howns]
      exact h.left hj

/-- A writer takes the locks of its call. -/
theorem Held.lock
    (h : Held t stripes writers) {i : Nat} {w : Writer}
    (hfirst : stripes (t.lockFor w.call.hash).1 = none)
    (hsecond : stripes (t.lockFor w.call.hash).2 = none)
    (hw : ∀ {R : Nat → Prop}, (∀ {idx}, t.stripeOf idx = (t.lockFor w.call.hash).1
      ∨ t.stripeOf idx = (t.lockFor w.call.hash).2 → R idx) → Left t R w) :
  Held t (t.lock stripes i w.call.hash) (Function.update writers i (some w))
  := by
  have hown : t.lock stripes i w.call.hash (t.lockFor w.call.hash).1 = some i
      ∧ t.lock stripes i w.call.hash (t.lockFor w.call.hash).2 = some i := by
    constructor
    · rw [HashTable.lock, Function.update_apply, Function.update_self, ite_self]
    · rw [HashTable.lock, Function.update_self]
  refine h.relock ?_ ?_
  · intro j hj s
    rw [HashTable.lock, Function.update_apply, Function.update_apply]
    split
    · rename_i hs
      subst hs
      simp [hsecond, hj.symm]
    · split
      · rename_i hs
        subst hs
        simp [hfirst, hj.symm]
      · rfl
  · rintro _ ⟨⟩
    refine ⟨hown, hw ?_⟩
    rintro idx (hidx | hidx)
    · rw [Owns, hidx]
      exact hown.1
    · rw [Owns, hidx]
      exact hown.2

/-- A writer that has its locks begins with its call. -/
theorem Held.begin
    (h : Held t stripes writers) {i : Nat} {w : Writer} (hi : writers i = some w) :
  Held t stripes (Function.update writers i (some (.start t w.call)))
  := by
  have hlocks := h.locks hi
  refine h.relock (fun _ _ => Iff.rfl) ?_
  rintro _ ⟨⟩
  refine ⟨hlocks, h.wf.left_start w.call ?_⟩
  rintro idx (hidx | hidx)
  · rw [Owns, hidx]
    exact hlocks.1
  · rw [Owns, hidx]
    exact hlocks.2

/-- A writer that has made its stores releases its locks. -/
theorem Held.finish
    (h : Held t stripes writers) {i : Nat} {c : Call} {ok : Bool}
    (hi : writers i = some ⟨c, ok, []⟩) :
  Held t (t.unlock stripes c.hash) (Function.update writers i none)
  := by
  have hlocks := h.locks hi
  obtain ⟨hfirst, hsecond⟩ := hlocks
  refine h.relock ?_ nofun
  intro j hj s
  rw [unlock, Function.update_apply, Function.update_apply]
  split
  · rename_i hs
    subst hs
    simp [hsecond, hj.symm]
  · split
    · rename_i hs
      subst hs
      simp [hfirst, hj.symm]
    · rfl

/-- The next store of a writer is to a slot it owns, of an entry in its place or of none, and leaves
the rest to be done. -/
theorem Left.store
    {c : Call} {ok : Bool} {st : Store EntryInfo} {ws : List (Store EntryInfo)} (ht : t.Wf)
    (h : Left t R ⟨c, ok, st :: ws⟩) :
  R st.idx ∧ (t.apply [st]).Wf ∧ Left (t.apply [st]) R ⟨c, ok, ws⟩
  := by
  cases h with
  | @insert hash kvSize pba _ _ h =>
      cases h with
      | between h =>
          cases h with
          | put hgoal hin hfree hle hreach =>
              refine ⟨hin, ht.store _ ?_, .finished⟩
              rintro e ⟨⟩
              split at hgoal
              · cases hgoal
                have hbucket := t.hashToBucket_lt hash
                simp only
                omega
              · cases hgoal
          | @move _ low high e ws hlowIn hhighIn hlow hhigh hlt hreach hrest =>
              refine ⟨hhighIn, ht.store _ ?_, .insert (Placing.copy hlowIn hhighIn hlow hlt hrest)⟩
              rintro e' ⟨⟩
              have habove := ht.above hlow
              have hhome := ht.home hlow
              simp only
              omega
      | copied hlowIn hhighIn hlow hhigh hlt hrest =>
          refine ⟨hlowIn, ht.store _ nofun, .insert (.between hrest)⟩
  | update hin hslot htag =>
      refine ⟨hin, ht.store _ ?_, .finished⟩
      rintro e' ⟨⟩
      have hreach := ht.reach hslot
      have hhome := ht.home hslot
      simp only
      omega
  | remove hin hslot htag => exact ⟨hin, ht.store _ nofun, .finished⟩

/-- An item after a writer's next store was there before or has the tag of its hash. -/
theorem Left.mem_items
    {c : Call} {ok : Bool} {st : Store EntryInfo} {ws : List (Store EntryInfo)} (ht : t.Wf)
    (h : Left t R ⟨c, ok, st :: ws⟩) {x : Nat × EntryInfo} (hx : x ∈ (t.apply [st]).items) :
  x ∈ t.items ∨ x.2.keyTag = t.tagOf c.hash
  := by
  obtain ⟨idx, hidx, hitem⟩ := mem_contents.mp hx
  obtain ⟨e, hslot, rfl⟩ := itemAt_eq_some.mp hitem
  have hold : ∀ {i}, i < t.totalSlots → t.slots i = some e → (i - e.offset, e.val) ∈ t.items :=
    fun hi hs => mem_contents.mpr ⟨_, hi, itemAt_eq_some.mpr ⟨e, hs, rfl⟩⟩
  by_cases hst : idx = st.idx
  · subst hst
    have hcell : st.cell = some e := (Slots.store_same t.slots st).symm.trans hslot
    cases h with
    | insert hpending =>
        cases hpending with
        | between hplacing =>
            cases hplacing with
            | put hgoal hin hfree hle hreach =>
                cases hcell
                split at hgoal
                · cases hgoal
                  exact .inr rfl
                · cases hgoal
            | @move _ low high e' ws hlowIn hhighIn hlow hhigh hlt hreach hrest =>
                cases hcell
                have habove := ht.above hlow
                have hmoved : high - (high - (low - e'.offset)) = low - e'.offset := by omega
                left
                simp only [hmoved]
                exact mem_contents.mpr ⟨low, ht.lt_totalSlots hlow,
                  itemAt_eq_some.mpr ⟨e', hlow, rfl⟩⟩
        | copied hlowIn hhighIn hlow hhigh hlt hrest => cases hcell
    | update hin hslot' htag =>
        cases hcell
        exact .inr rfl
    | remove hin hslot' htag => cases hcell
  · exact .inl (hold hidx ((Slots.store_ne t.slots st hst).symm.trans hslot))

/-- A writer makes its next store. -/
theorem Held.store
    (h : Held t stripes writers) {i : Nat} {c : Call} {ok : Bool} {st : Store EntryInfo}
    {ws : List (Store EntryInfo)} (hi : writers i = some ⟨c, ok, st :: ws⟩) :
  Held (t.apply [st]) stripes (Function.update writers i (some ⟨c, ok, ws⟩))
  := by
  obtain ⟨hin, hwf, hleft⟩ := (h.left hi).store h.wf
  refine ⟨hwf, ?_, ?_⟩
  · intro j w hj
    by_cases hji : j = i
    · subst hji
      rw [Function.update_self] at hj
      cases hj
      exact h.locks (w := ⟨c, ok, st :: ws⟩) hi
    · rw [Function.update_of_ne hji] at hj
      exact h.locks hj
  · intro j w hj
    by_cases hji : j = i
    · subst hji
      rw [Function.update_self] at hj
      cases hj
      exact hleft
    · rw [Function.update_of_ne hji] at hj
      refine (h.left hj).congr rfl ?_
      intro idx hidx
      apply Slots.store_ne
      rintro rfl
      exact hji (Option.some.inj (hidx.symm.trans hin))

/-- An effect on a part of a multiset is one on the whole. -/
theorem Call.Effect.lift
    {c : Call} {bucket tag : Nat} {m m' n n' : Multiset (Nat × EntryInfo)}
    (h : c.Effect bucket tag true m m') (hle : m ≤ n) (heq : n' + m = n + m') :
  c.Effect bucket tag true n n'
  := by
  obtain ⟨r, rfl⟩ := Multiset.le_iff_exists_add.mp hle
  have hn : n' = r + m' := by
    apply add_right_cancel (b := m)
    rw [heq]
    ac_rfl
  subst hn
  cases c with
  | insert hash kvSize pba =>
      simp only [Call.Effect, if_true] at h ⊢
      rw [h, Multiset.add_cons, add_comm]
  | update hash oldPba newKvSize newPba =>
      simp only [Call.Effect, if_true] at h ⊢
      obtain ⟨x, hx, htag, hpba, rfl⟩ := h
      refine ⟨x, Multiset.mem_add.mpr (.inl hx), htag, hpba, ?_⟩
      rw [Multiset.add_cons, Multiset.erase_add_left_pos _ hx, add_comm]
  | remove hash pba =>
      simp only [Call.Effect, if_true] at h ⊢
      obtain ⟨x, hx, htag, hpba, rfl⟩ := h
      refine ⟨x, Multiset.mem_add.mpr (.inl hx), htag, hpba, ?_⟩
      rw [Multiset.erase_add_left_pos _ hx, add_comm]

/-! ### What a table holds while it is written

An entry that is being moved is in two slots; it is counted in the upper one.
-/

/-- The slots that an entry has been moved from and that are not cleared yet. -/
def Lower (writers : Nat → Option Writer) (idx : Nat) : Prop :=
  ∃ i w, writers i = some w ∧ w.clears = some idx

open Classical in
/-- What a slot counts for. -/
noncomputable def countedAt (t : HashTable) (writers : Nat → Option Writer) (idx : Nat) :
    Multiset (Nat × EntryInfo) :=
  if Lower writers idx then 0 else ofOption (itemAt t.slots idx)

/-- The items of a table with writers on it, each counted once. -/
noncomputable def counted (t : HashTable) (writers : Nat → Option Writer) :
    Multiset (Nat × EntryInfo) :=
  ∑ idx ∈ Finset.range t.totalSlots, t.countedAt writers idx

/-- If no entry is being moved, the items of the table are counted. -/
theorem counted_eq_items (hnone : ∀ {idx}, ¬ Lower writers idx) : t.counted writers = t.items := by
  rw [counted, items, contents]
  apply Finset.sum_congr rfl
  intro idx _
  rw [countedAt, if_neg hnone]

section Sums

variable {β : Type} {n a b : Nat} {f g : Nat → Multiset β}

/-- Sums that differ in one term. -/
theorem sum_change
    (ha : a < n) (heq : ∀ i, i ≠ a → g i = f i) :
  ∑ i ∈ Finset.range n, g i + f a = ∑ i ∈ Finset.range n, f i + g a
  := by
  have hmem : a ∈ Finset.range n := Finset.mem_range.mpr ha
  have hrest : ∑ i ∈ (Finset.range n).erase a, g i = ∑ i ∈ (Finset.range n).erase a, f i :=
    Finset.sum_congr rfl fun i hi => heq i (Finset.ne_of_mem_erase hi)
  rw [← Finset.add_sum_erase _ _ hmem, hrest, ← Finset.add_sum_erase _ f hmem]
  ac_rfl

/-- Sums in which two terms are exchanged. -/
theorem sum_exchange
    (ha : a < n) (hb : b < n) (hab : a ≠ b) (heq : ∀ i, i ≠ a → i ≠ b → g i = f i)
    (hboth : g a + g b = f a + f b) :
  ∑ i ∈ Finset.range n, g i = ∑ i ∈ Finset.range n, f i
  := by
  have hfirst := sum_change (f := f) (g := Function.update f a (g a)) ha fun i hi =>
    Function.update_of_ne hi _ _
  have hsecond := sum_change (f := Function.update f a (g a)) (g := g) hb fun i hi => by
    by_cases hia : i = a
    · rw [hia, Function.update_self]
    · rw [Function.update_of_ne hia, heq i hia hi]
  rw [Function.update_self] at hfirst
  rw [Function.update_of_ne hab.symm] at hsecond
  apply add_right_cancel (b := f a + f b)
  calc ∑ i ∈ Finset.range n, g i + (f a + f b)
      = (∑ i ∈ Finset.range n, g i + f b) + f a := by ac_rfl
    _ = (∑ i ∈ Finset.range n, Function.update f a (g a) i + f a) + g b := by
        rw [hsecond]
        ac_rfl
    _ = ∑ i ∈ Finset.range n, f i + (g a + g b) := by
        rw [hfirst]
        ac_rfl
    _ = ∑ i ∈ Finset.range n, f i + (f a + f b) := by rw [hboth]

end Sums

section Counted

variable {i : Nat} {c : Call} {ok : Bool} {st : Store EntryInfo} {ws : List (Store EntryInfo)}

/-- The slots others have moved entries from are not those a writer owns. -/
theorem Held.lower_iff
    (h : Held t stripes writers) {idx : Nat} {o : Option Writer} (hin : t.Owns stripes i idx) :
  Lower (Function.update writers i o) idx ↔ (o.bind Writer.clears) = some idx
  := by
  constructor
  · rintro ⟨j, w, hj, hclears⟩
    by_cases hji : j = i
    · subst hji
      rw [Function.update_self] at hj
      rw [hj, Option.bind_some, hclears]
    · rw [Function.update_of_ne hji] at hj
      obtain ⟨_, _, hin', -⟩ := (h.left hj).copy hclears
      exact absurd (Option.some.inj (hin'.symm.trans hin)) hji
  · intro hclears
    obtain ⟨w, rfl, hw⟩ := Option.bind_eq_some_iff.mp hclears
    exact ⟨i, w, Function.update_self .., hw⟩

/-- A writer that is about to clear no slot, before its store or after it, changes nothing about
which other slots count. -/
theorem lower_of_ne
    {idx : Nat} {o : Option Writer} (hbefore : ∀ w, writers i = some w → w.clears ≠ some idx)
    (hafter : ∀ w, o = some w → w.clears ≠ some idx) :
  Lower (Function.update writers i o) idx ↔ Lower writers idx
  := by
  constructor
  · rintro ⟨j, w, hj, hclears⟩
    by_cases hji : j = i
    · subst hji
      rw [Function.update_self] at hj
      exact absurd hclears (hafter w hj)
    · rw [Function.update_of_ne hji] at hj
      exact ⟨j, w, hj, hclears⟩
  · rintro ⟨j, w, hj, hclears⟩
    by_cases hji : j = i
    · subst hji
      exact absurd hclears (hbefore w hj)
    · exact ⟨j, w, by rw [Function.update_of_ne hji, hj], hclears⟩

theorem countedAt_congr
    {writers' : Nat → Option Writer} {idx : Nat} (hslot : t'.slots idx = t.slots idx)
    (hlower : Lower writers' idx ↔ Lower writers idx) :
  t'.countedAt writers' idx = t.countedAt writers idx
  := by
  rw [countedAt, countedAt, itemAt, itemAt, hslot]
  by_cases hl : Lower writers idx
  · rw [if_pos hl, if_pos (hlower.mpr hl)]
  · rw [if_neg hl, if_neg (mt hlower.mp hl)]

/-- A writer that clears no slot, before or after, changes nothing about what is counted. -/
theorem counted_update
    {o : Option Writer} (hbefore : ∀ w, writers i = some w → w.clears = none)
    (hafter : ∀ w, o = some w → w.clears = none) :
  t.counted (Function.update writers i o) = t.counted writers
  := by
  apply Finset.sum_congr rfl
  intro idx _
  refine countedAt_congr rfl (lower_of_ne ?_ ?_)
  · intro w hw
    rw [hbefore w hw]
    nofun
  · intro w hw
    rw [hafter w hw]
    nofun

/-- What a slot of a writer counts for, if the writer is not about to clear it. -/
theorem Held.countedAt_own
    (h : Held t stripes writers) {idx : Nat} {o : Option Writer} (hin : t.Owns stripes i idx)
    (ho : o.bind Writer.clears ≠ some idx) :
  t'.countedAt (Function.update writers i o) idx = ofOption (itemAt t'.slots idx)
  := by
  rw [countedAt, if_neg]
  rw [h.lower_iff hin]
  exact ho

theorem update_writer (hi : writers i = some w) : Function.update writers i (some w) = writers := by
  rw [← hi, Function.update_eq_self]

/-- A store of a writer that clears no slot before and after changes what its slot counts for. -/
theorem Held.counted_store
    (h : Held t stripes writers) (hi : writers i = some ⟨c, ok, st :: ws⟩)
    (hin : t.Owns stripes i st.idx) (hidx : st.idx < t.totalSlots)
    (hbefore : Writer.clears ⟨c, ok, st :: ws⟩ = none) (hafter : Writer.clears ⟨c, ok, ws⟩ = none) :
  (t.apply [st]).counted (Function.update writers i (some ⟨c, ok, ws⟩))
      + ofOption (itemAt t.slots st.idx)
    = t.counted writers + ofOption (itemAt (t.slots.store st) st.idx)
  := by
  have hold : t.countedAt writers st.idx = ofOption (itemAt t.slots st.idx) := by
    rw [← update_writer hi]
    exact h.countedAt_own hin (by rw [Option.bind_some, hbefore]; nofun)
  have hnew : (t.apply [st]).countedAt (Function.update writers i (some ⟨c, ok, ws⟩)) st.idx
      = ofOption (itemAt (t.slots.store st) st.idx) :=
    h.countedAt_own hin (by rw [Option.bind_some, hafter]; nofun)
  rw [← hold, ← hnew]
  refine sum_change hidx fun idx hne => countedAt_congr (Slots.store_ne _ _ hne) (lower_of_ne ?_ ?_)
  · rw [hi]
    rintro _ ⟨⟩
    rw [hbefore]
    nofun
  · rintro _ ⟨⟩
    rw [hafter]
    nofun

section Insert

variable {hash kvSize pba low high : Nat} {e : HashEntry}

/-- An entry that is copied to a higher slot is counted there. -/
theorem Held.counted_copy
    (h : Held t stripes writers) (hi : writers i = some ⟨.insert hash kvSize pba, ok,
      ⟨high, some ⟨high - (low - e.offset), e.val⟩⟩ :: ⟨low, none⟩ :: ws⟩)
    (hlowIn : t.Owns stripes i low) (hhighIn : t.Owns stripes i high) (hlow : t.slots low = some e)
    (hhigh : t.slots high = none) (hlt : low < high)
    (hreach : high - (low - e.offset) < kHopRange) :
  (t.apply [⟨high, some ⟨high - (low - e.offset), e.val⟩⟩]).counted
      (Function.update writers i (some ⟨.insert hash kvSize pba, ok, ⟨low, none⟩ :: ws⟩))
    = t.counted writers
  := by
  have habove := h.wf.above hlow
  have hhome := h.wf.home hlow
  have hmoved : high - (high - (low - e.offset)) = low - e.offset := by omega
  have hbefore : ∀ {idx}, t.Owns stripes i idx →
      t.countedAt writers idx = ofOption (itemAt t.slots idx) := by
    intro idx hin
    rw [← update_writer hi]
    exact h.countedAt_own hin (by rintro ⟨⟩)
  have hgone : ∀ {t₁ : HashTable}, t₁.countedAt (Function.update writers i
      (some ⟨.insert hash kvSize pba, ok, ⟨low, none⟩ :: ws⟩)) low = 0 := by
    intro t₁
    rw [countedAt, if_pos ((h.lower_iff hlowIn).mpr rfl)]
  have hlowIdx := h.wf.lt_totalSlots hlow
  have hhighIdx : high < t.totalSlots := by
    rw [totalSlots]
    omega
  refine sum_exchange hlowIdx hhighIdx (by omega) ?_ ?_
  · intro idx hne hne'
    refine countedAt_congr (Slots.store_ne _ _ hne') (lower_of_ne ?_ ?_)
    · rw [hi]
      rintro _ ⟨⟩ ⟨⟩
    · rintro _ ⟨⟩ ⟨⟩
      exact hne rfl
  · rw [hgone, hbefore hlowIn, hbefore hhighIn, h.countedAt_own hhighIn]
    · simp only [itemAt, hlow, hhigh, Option.map_some, Option.map_none, ofOption_some,
        ofOption_none, zero_add, add_zero, apply_slots, Slots.apply_cons, Slots.apply_nil,
        Slots.store_same t.slots ⟨high, _⟩, hmoved]
    · rw [Option.bind_some]
      rintro ⟨⟩
      omega

/-- A slot that an entry has been moved from does not count, before and after it is cleared. -/
theorem Held.counted_clear
    (h : Held t stripes writers)
    (hi : writers i = some ⟨.insert hash kvSize pba, ok, ⟨low, none⟩ :: ws⟩)
    (hlowIn : t.Owns stripes i low)
    (hafter : Writer.clears ⟨.insert hash kvSize pba, ok, ws⟩ = none) :
  (t.apply [⟨low, none⟩]).counted
      (Function.update writers i (some ⟨.insert hash kvSize pba, ok, ws⟩))
    = t.counted writers
  := by
  apply Finset.sum_congr rfl
  intro idx _
  by_cases hidx : idx = low
  · subst hidx
    rw [h.countedAt_own hlowIn (by rw [Option.bind_some, hafter]; nofun), countedAt, if_pos]
    · rw [itemAt, apply_slots, Slots.apply_cons, Slots.apply_nil, Slots.store_same t.slots ⟨idx, _⟩]
      rfl
    · exact ⟨i, _, hi, rfl⟩
  · refine countedAt_congr (Slots.store_ne _ _ hidx) (lower_of_ne ?_ ?_)
    · rw [hi]
      rintro _ ⟨⟩ ⟨⟩
      exact hidx rfl
    · rintro _ ⟨⟩
      rw [hafter]
      nofun

end Insert

/-- The last store of a call that succeeds has the effect of the call on what is counted; every
other store changes nothing. -/
theorem Held.store_counted
    (h : Held t stripes writers) (hi : writers i = some ⟨c, ok, st :: ws⟩) :
  if ws = [] ∧ ok = true then
    c.Effect (t.hashToBucket c.hash) (t.tagOf c.hash) true (t.counted writers)
      ((t.apply [st]).counted (Function.update writers i (some ⟨c, ok, ws⟩)))
  else (t.apply [st]).counted (Function.update writers i (some ⟨c, ok, ws⟩)) = t.counted writers
  := by
  have hbucket := t.hashToBucket_lt c.hash
  cases h.left hi with
  | @insert hash kvSize pba _ _ hpending =>
      cases hpending with
      | between hplacing =>
          cases hplacing with
          | @put _ bucket slot v hgoal hin hfree hle hreach =>
              have hok : ok = true := by
                cases ok with
                | false => cases hgoal
                | true => rfl
              subst hok
              cases hgoal
              have hidx : slot < t.totalSlots := by
                rw [totalSlots]
                simp only [Call.hash] at hbucket
                omega
              have hcount := h.counted_store hi hin hidx rfl rfl
              have hhome : slot - (slot - t.hashToBucket hash) = t.hashToBucket hash := by omega
              simp only [itemAt, hfree, Option.map_none, ofOption_none, add_zero,
                Slots.store_same t.slots ⟨slot, _⟩, Option.map_some, ofOption_some, hhome] at hcount
              rw [if_pos ⟨rfl, rfl⟩, Call.Effect, if_pos rfl, hcount, add_comm,
                Multiset.singleton_add]
              rfl
          | move hlowIn hhighIn hlow hhigh hlt hreach hrest =>
              rw [if_neg (by rintro ⟨⟨⟩, -⟩)]
              exact h.counted_copy hi hlowIn hhighIn hlow hhigh hlt hreach
      | copied hlowIn hhighIn hlow hhigh hlt hrest =>
          rw [if_neg]
          · refine h.counted_clear hi hlowIn ?_
            cases hrest with
            | done _ => rfl
            | put _ _ _ _ _ => rfl
            | move _ _ _ _ _ _ _ => rfl
          · -- a call that succeeds has a store left after a move
            rintro ⟨rfl, rfl⟩
            cases hrest with
            | done hgoal => cases hgoal
  | @update hash newKvSize newPba e hin hslot htag =>
      have hidx := h.wf.lt_totalSlots hslot
      have hmem : (t.hashToBucket hash, e.val) ∈ t.counted writers := by
        rw [counted, Multiset.mem_sum]
        refine ⟨_, Finset.mem_range.mpr hidx, ?_⟩
        rw [← update_writer hi, h.countedAt_own hin (by simp [Writer.clears]), itemAt, hslot,
          Option.map_some, ofOption_some, Nat.add_sub_cancel, Multiset.mem_singleton]
      have hcount := h.counted_store hi hin hidx rfl rfl
      simp only [itemAt, hslot, Slots.store_same t.slots ⟨_, _⟩, Option.map_some, ofOption_some,
        Nat.add_sub_cancel, add_comm _ {_}, Multiset.singleton_add] at hcount
      rw [if_pos ⟨rfl, rfl⟩, Call.Effect, if_pos rfl]
      refine ⟨e.val, hmem, htag, rfl, ?_⟩
      rw [← Multiset.cons_erase hmem, Multiset.cons_swap] at hcount
      exact (Multiset.cons_inj_right _).mp hcount
  | @remove hash e hin hslot htag =>
      have hidx := h.wf.lt_totalSlots hslot
      have hcount := h.counted_store hi hin hidx rfl rfl
      simp only [itemAt, hslot, Slots.store_same t.slots ⟨_, _⟩, Option.map_some, ofOption_some,
        Nat.add_sub_cancel, Option.map_none, ofOption_none, add_zero, add_comm _ {_},
        Multiset.singleton_add] at hcount
      rw [if_pos ⟨rfl, rfl⟩, Call.Effect, if_pos rfl]
      refine ⟨e.val, ?_, htag, rfl, ?_⟩
      · rw [← hcount]
        exact Multiset.mem_cons_self _ _
      · rw [← hcount]
        exact (Multiset.erase_cons_head _ _).symm

end Counted

end HashTable

end UDepot
