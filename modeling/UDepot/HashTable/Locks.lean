import UDepot.Lib.Hopscotch.Accesses
import UDepot.Lib.OrderedLocks
import UDepot.HashTable.Stores

/-!
# The stripe locks

`lock_for` locks one stripe or two adjacent ones, the lower first.  Every slot that a write for the
hash loads or stores to is in them, whatever the table holds and whatever a load returns.  So
writers that may touch a common slot exclude each other; and as stripes are taken in ascending
order, no writers wait for each other in a circle.
-/

namespace UDepot

open Hopscotch Transition

namespace HashTable

/-! ### The accesses of the writes -/

/-- `find_pba`, access by access, among the `n` slots from distance `i` on. -/
def findPbaProgFrom (t : HashTable) (hash pba : Nat) : Nat → Nat → Prog EntryInfo (Option Nat)
  | 0, _ => .ret none
  | n + 1, i => .load (t.hashToBucket hash + i) fun
      | none => t.findPbaProgFrom hash pba n (i + 1)
      | some e =>
          if e.offset ≠ i then t.findPbaProgFrom hash pba n (i + 1)
          else if e.val.keyTag ≠ t.tagOf hash then t.findPbaProgFrom hash pba n (i + 1)
          else if e.val.pba ≠ pba then t.findPbaProgFrom hash pba n (i + 1)
          else .ret (some (t.hashToBucket hash + i))

def findPbaProg (t : HashTable) (hash pba : Nat) : Prog EntryInfo (Option Nat) :=
  t.findPbaProgFrom hash pba kHopRange 0

/-- A call, access by access. -/
def Call.prog (t : HashTable) : Call → Prog EntryInfo Bool
  | .insert hash kvSize pba =>
      placeProg kHopRange (t.hashToBucket hash)
        (min (t.hashToBucket hash + kSearchEnd) t.totalSlots) ⟨t.tagOf hash, kvSize, pba⟩
  | .update hash oldPba newKvSize newPba => (t.findPbaProg hash oldPba).bind fun
      | none => .ret false
      | some idx => .store ⟨idx, some ⟨idx - t.hashToBucket hash,
          ⟨t.tagOf hash, newKvSize, newPba⟩⟩⟩ (.ret true)
  | .remove hash pba => (t.findPbaProg hash pba).bind fun
      | none => .ret false
      | some idx => .store ⟨idx, none⟩ (.ret true)

theorem run_findPbaProgFrom
    (t : HashTable) (hash pba : Nat) :
  ∀ n i, (t.findPbaProgFrom hash pba n i).run t.slots = ([], t.findPbaFrom hash pba n i)
  | 0, _ => rfl
  | n + 1, i => by
      rw [findPbaProgFrom, Prog.run, findPbaFrom, matchAt]
      cases t.slots (t.hashToBucket hash + i) with
      | none => apply run_findPbaProgFrom
      | some e =>
          simp only [Bool.not_true, Bool.and_false, Bool.false_eq_true, if_false]
          split
          · apply run_findPbaProgFrom
          · split
            · apply run_findPbaProgFrom
            · simp only [ite_not]
              split
              · rfl
              · apply run_findPbaProgFrom

/-- The programs make the stores of the calls. -/
theorem Call.run_prog (t : HashTable) (c : Call) :
    (c.prog t).run t.slots = ((c.stores t).2, (c.stores t).1) := by
  cases c with
  | insert hash kvSize pba => apply run_placeProg
  | update hash oldPba newKvSize newPba =>
      rw [Call.prog, Prog.run_bind, findPbaProg, run_findPbaProgFrom, Call.stores, updateStores,
        findPba]
      cases t.findPbaFrom hash oldPba kHopRange 0 with
      | none => rfl
      | some idx => rfl
  | remove hash pba =>
      rw [Call.prog, Prog.run_bind, findPbaProg, run_findPbaProgFrom, Call.stores, removeStores,
        findPba]
      cases t.findPbaFrom hash pba kHopRange 0 with
      | none => rfl
      | some idx => rfl

/-! ### The stripes of a hash -/

/-- The stripes `lock_for` locks, in the order in which it does. -/
def stripesFor (t : HashTable) (hash : Nat) : List Nat :=
  if (t.lockFor hash).2 ≠ (t.lockFor hash).1 then [(t.lockFor hash).1, (t.lockFor hash).2]
  else [(t.lockFor hash).1]

/-- A slot within a write's reach is in a stripe that is locked. -/
theorem stripeOf_mem_stripesFor
    (t : HashTable) {hash idx : Nat} (hlo : t.hashToBucket hash - kHopRange ≤ idx)
    (hhi : idx < min (t.hashToBucket hash + kSearchEnd) t.totalSlots) :
  t.stripeOf idx ∈ t.stripesFor hash
  := by
  have hcovers := t.lockFor_covers hlo hhi
  rw [stripesFor]
  split
  · simp only [List.mem_cons, List.not_mem_nil, or_false]
    exact hcovers
  · rename_i heq
    rw [ne_eq, not_not] at heq
    rw [heq, or_self] at hcovers
    exact List.mem_singleton.mpr hcovers

/-- The stripes there are, each at most once, in ascending order. -/
theorem stripesFor_ascending
    (t : HashTable) (hash : Nat) :
  (t.stripesFor hash).length ≤ 2 ∧ (t.stripesFor hash).Pairwise (· < ·)
    ∧ ∀ l ∈ t.stripesFor hash, l < t.numStripes
  := by
  have hle := t.lockFor_le hash
  have hbucket := t.hashToBucket_lt hash
  have htotal : t.totalSlots = t.numBuckets + kHopRange := rfl
  have hlast : (t.lockFor hash).2 < t.numStripes := by
    apply t.stripeOf_lt
    omega
  rw [stripesFor]
  split
  · refine ⟨Nat.le_refl _, by simp; omega, ?_⟩
    simp only [List.mem_cons, List.not_mem_nil, or_false, forall_eq_or_imp, forall_eq]
    omega
  · refine ⟨Nat.le_succ 1, List.pairwise_singleton .., ?_⟩
    simp only [List.mem_cons, List.not_mem_nil, or_false, forall_eq]
    omega

/-! ### Every access is in a locked stripe -/

theorem within_findPbaProgFrom
    (t : HashTable) (hash pba : Nat) :
  ∀ {n i : Nat}, i + n ≤ kHopRange → (t.findPbaProgFrom hash pba n i).Within
    (fun idx => t.stripeOf idx ∈ t.stripesFor hash)
    fun o => ∀ idx, o = some idx → t.stripeOf idx ∈ t.stripesFor hash
  | 0, _, _ => nofun
  | n + 1, i, hn => by
      have hbucket := t.hashToBucket_lt hash
      have htotal : t.totalSlots = t.numBuckets + kHopRange := rfl
      have hsearch : kHopRange ≤ kSearchEnd := by decide
      have hin : t.stripeOf (t.hashToBucket hash + i) ∈ t.stripesFor hash :=
        t.stripeOf_mem_stripesFor (by omega) (by omega)
      have hrest := within_findPbaProgFrom t hash pba (n := n) (i := i + 1) (by omega)
      refine ⟨hin, fun o => ?_⟩
      cases o with
      | none => exact hrest
      | some e =>
          simp only
          split_ifs
          · exact hrest
          · exact hrest
          · exact hrest
          · rintro idx ⟨⟩
            exact hin

theorem Call.within_prog
    (t : HashTable) (c : Call) :
  (c.prog t).Within (fun idx => t.stripeOf idx ∈ t.stripesFor c.hash) fun _ => True
  := by
  have hfind : ∀ hash pba, (t.findPbaProg hash pba).Within _ _ := fun hash pba =>
    t.within_findPbaProgFrom hash pba (Nat.le_of_eq (Nat.zero_add _))
  cases c with
  | insert hash kvSize pba =>
      refine (within_placeProg _ _ _ _).mono ?_ fun _ h => h
      intro idx hidx
      exact t.stripeOf_mem_stripesFor ((Nat.sub_le _ _).trans hidx.1) hidx.2
  | update hash oldPba newKvSize newPba =>
      refine (hfind hash oldPba).bind ?_
      intro o ho
      cases o with
      | none => trivial
      | some idx => exact ⟨ho idx rfl, trivial⟩
  | remove hash pba =>
      refine (hfind hash pba).bind ?_
      intro o ho
      cases o with
      | none => trivial
      | some idx => exact ⟨ho idx rfl, trivial⟩

/-- A call for a hash may load a slot or store to it. -/
def MayTouch (t : HashTable) (hash idx : Nat) : Prop :=
  ∃ c : Call, c.hash = hash ∧ (c.prog t).Touches idx

/-- Every slot that a call for a hash loads or stores to, whatever its loads return, is in a stripe
that `lock_for` locks for the hash; the stripes it locks are there, at most two and adjacent, and
locked in ascending order.  Writers take their stripes one by one: writers that have them and may
touch a common slot are one, and no set of writers wait for each other. -/
theorem stripes_cover_writes (t : HashTable) :
  (∀ c : Call, (c.prog t).run t.slots = ((c.stores t).2, (c.stores t).1)
    ∧ (c.prog t).Within (fun idx => t.stripeOf idx ∈ t.stripesFor c.hash) fun _ => True)
  ∧ (∀ hash pba, (t.findPbaProg hash pba).run t.slots = ([], t.findPba hash pba)
    ∧ (t.findPbaProg hash pba).Within (fun idx => t.stripeOf idx ∈ t.stripesFor hash)
      fun _ => True)
  ∧ (∀ hash, (t.lockFor hash).1 ≤ (t.lockFor hash).2
    ∧ (t.lockFor hash).2 - (t.lockFor hash).1 ≤ 1 ∧ (t.stripesFor hash).length ≤ 2
    ∧ (t.stripesFor hash).Pairwise (· < ·) ∧ ∀ l ∈ t.stripesFor hash, l < t.numStripes)
  ∧ ∀ s, Reach (OrderedLocks.State.step t.stripesFor) (fun _ _ => True) .init s →
    (∀ i j hash hash' idx, s.Works i hash → s.Works j hash' → t.MayTouch hash idx →
      t.MayTouch hash' idx → i = j)
    ∧ ∀ W : Set Nat, W.Nonempty → ¬ ∀ i ∈ W, ∃ j ∈ W, s.WaitsFor i j
  := by
  refine ⟨fun c => ⟨c.run_prog t, c.within_prog t⟩, ?_, ?_, ?_⟩
  · intro hash pba
    refine ⟨t.run_findPbaProgFrom hash pba _ _, ?_⟩
    refine (t.within_findPbaProgFrom hash pba (Nat.le_of_eq (Nat.zero_add _))).mono ?_ ?_
    · exact fun _ h => h
    · exact fun _ _ => trivial
  · intro hash
    have hle := t.lockFor_le hash
    exact ⟨hle.1, by omega, t.stripesFor_ascending hash⟩
  · intro s hr
    have h := OrderedLocks.State.Inv.of_reach hr
    constructor
    · rintro i j _ _ idx hi hj ⟨c, rfl, hc⟩ ⟨c', rfl, hc'⟩
      exact h.excludes hi hj ((c.within_prog t).of_touches hc) ((c'.within_prog t).of_touches hc')
    · intro W hne
      exact h.no_deadlock (fun hash => (t.stripesFor_ascending hash).2.1)
        (fun hash => (t.stripesFor_ascending hash).2.2) hne

end HashTable

end UDepot
