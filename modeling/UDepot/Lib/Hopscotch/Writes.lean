import UDepot.Lib.Hopscotch

/-!
# Writes in progress

A value is placed store by store, and others store to the array in between.  All slots the write
reads and stores to are in a region `R` that no other write touches.

* `Placing` is what is left of the write between two moves: more moves, and at last the store of the
  value, if it found room.
* `Pending` is what is left at any point: between two moves, or in a move when the cell is in two
  slots, copied to the higher and not yet cleared from the lower.

Both depend on the slots of `R` only (`Placing.congr`, `Pending.congr`).
-/

namespace Hopscotch

variable {α : Type}

/-- What is left of a write between two moves.  The value is to be placed with its home `goal`. -/
inductive Placing (hop : Nat) (R : Nat → Prop) (goal : Option (Nat × α)) :
    Slots α → List (Store α) → Prop
  | done {σ : Slots α} (hgoal : goal = none) : Placing hop R goal σ []
  | put {σ : Slots α} {bucket slot : Nat} {v : α} (hgoal : goal = some (bucket, v)) (hin : R slot)
      (hfree : σ slot = none) (hle : bucket ≤ slot) (hreach : slot - bucket < hop) :
      Placing hop R goal σ [⟨slot, some ⟨slot - bucket, v⟩⟩]
  | move {σ : Slots α} {low high : Nat} {c : Cell α} {ws : List (Store α)} (hlowIn : R low)
      (hhighIn : R high) (hlow : σ low = some c) (hhigh : σ high = none) (hlt : low < high)
      (hreach : high - (low - c.offset) < hop)
      (hrest : Placing hop R goal ((σ.store ⟨high, some ⟨high - (low - c.offset), c.val⟩⟩).store
        ⟨low, none⟩) ws) :
      Placing hop R goal σ (⟨high, some ⟨high - (low - c.offset), c.val⟩⟩ :: ⟨low, none⟩ :: ws)

/-- What is left of a write. -/
inductive Pending (hop : Nat) (R : Nat → Prop) (goal : Option (Nat × α)) :
    Slots α → List (Store α) → Prop
  | between {σ : Slots α} {ws : List (Store α)} (h : Placing hop R goal σ ws) :
      Pending hop R goal σ ws
  | copied {σ : Slots α} {low high : Nat} {c : Cell α} {ws : List (Store α)} (hlowIn : R low)
      (hhighIn : R high) (hlow : σ low = some c)
      (hhigh : σ high = some ⟨high - (low - c.offset), c.val⟩) (hlt : low < high)
      (hrest : Placing hop R goal (σ.store ⟨low, none⟩) ws) :
      Pending hop R goal σ (⟨low, none⟩ :: ws)

variable {hop : Nat} {R : Nat → Prop} {goal : Option (Nat × α)} {σ σ' : Slots α}
  {ws : List (Store α)}

/-- Stores to arrays that agree on a region leave arrays that agree on it. -/
theorem Slots.store_agree
    (w : Store α) (h : ∀ i, R i → σ' i = σ i) :
  ∀ i, R i → σ'.store w i = σ.store w i
  := by
  intro i hi
  by_cases hw : i = w.idx
  · subst hw
    rw [Slots.store_same, Slots.store_same]
  · rw [Slots.store_ne _ _ hw, Slots.store_ne _ _ hw, h i hi]

theorem Placing.congr
    (h : Placing hop R goal σ ws) (heq : ∀ i, R i → σ' i = σ i) :
  Placing hop R goal σ' ws
  := by
  induction h generalizing σ' with
  | done hgoal => exact .done hgoal
  | put hgoal hin hfree hle hreach => exact .put hgoal hin (by rw [heq _ hin, hfree]) hle hreach
  | move hlowIn hhighIn hlow hhigh hlt hreach hrest ih =>
      refine .move hlowIn hhighIn (by rw [heq _ hlowIn, hlow]) (by rw [heq _ hhighIn, hhigh]) hlt
        hreach ?_
      apply ih
      apply Slots.store_agree
      apply Slots.store_agree _ heq

theorem Pending.congr
    (h : Pending hop R goal σ ws) (heq : ∀ i, R i → σ' i = σ i) :
  Pending hop R goal σ' ws
  := by
  cases h with
  | between h => exact .between (h.congr heq)
  | copied hlowIn hhighIn hlow hhigh hlt hrest =>
      exact .copied hlowIn hhighIn (by rw [heq _ hlowIn, hlow]) (by rw [heq _ hhighIn, hhigh]) hlt
        (hrest.congr (Slots.store_agree _ heq))

/-- The first store of a move leaves the cell in two slots. -/
theorem Placing.copy
    {low high : Nat} {c : Cell α} (hlowIn : R low) (hhighIn : R high) (hlow : σ low = some c)
    (hlt : low < high)
    (hrest : Placing hop R goal ((σ.store ⟨high, some ⟨high - (low - c.offset), c.val⟩⟩).store
      ⟨low, none⟩) ws) :
  Pending hop R goal (σ.store ⟨high, some ⟨high - (low - c.offset), c.val⟩⟩) (⟨low, none⟩ :: ws)
  := by
  refine .copied hlowIn hhighIn ?_ (Slots.store_same _ ⟨high, _⟩) hlt hrest
  rw [Slots.store_ne _ _ (by simp only; omega), hlow]

/-- Between two moves the next store is one of a cell. -/
theorem Placing.head_ne
    {low : Nat} (h : Placing hop R goal σ (⟨low, none⟩ :: ws)) : False
  := by
  cases h

/-- Moves in a region and what is left after them are left before them. -/
theorem Shifts.placing
    {moves : List (Store α)} (h : Shifts hop σ moves) (hin : ∀ w ∈ moves, R w.idx)
    (hrest : Placing hop R goal (σ.apply moves) ws) :
  Placing hop R goal σ (moves ++ ws)
  := by
  induction h with
  | nil σ => exact hrest
  | @cons σ low high c moves hlow hhigh hlt hreach hmoves ih =>
      refine .move (hin _ (.tail _ (.head _))) (hin _ (.head _)) hlow hhigh hlt hreach ?_
      exact ih (fun w hw => hin w (.tail _ (.tail _ hw))) hrest

/-- What `place` has to do, when it begins. -/
theorem placing_of_place
    {bucket limit : Nat} {v : α} {ok : Bool} (h : place hop σ bucket limit v = (ok, ws))
    (hin : ∀ i, bucket ≤ i → i < limit → R i) :
  Placing hop R (if ok then some (bucket, v) else none) σ ws
  := by
  obtain ⟨hidx, ⟨rfl, hshifts⟩ | ⟨rfl, moves, slot, rfl, hshifts, hle, hlt, hreach, hfree⟩⟩ :=
    place_cases h
  · rw [← List.append_nil ws]
    refine hshifts.placing (fun w hw => ?_) (.done rfl)
    exact hin _ (hidx w hw).1 (hidx w hw).2
  · refine hshifts.placing (fun w hw => ?_) (.put rfl (hin _ hle hlt) hfree hle hreach)
    have hw' := hidx w (List.mem_append_left _ hw)
    exact hin _ hw'.1 hw'.2

end Hopscotch
