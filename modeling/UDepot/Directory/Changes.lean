import UDepot.Directory.Growing

/-!
# What a step changes

A step of writers, readers and grows stores to one slot of the current snapshot, publishes a
snapshot, or leaves every slot as it is.
-/

namespace UDepot.Directory

open Hopscotch Transition

/-- A step that stores to no slot.  A writer that is writing was so before or has just seen that its
snapshot is not frozen. -/
structure Unwritten (a : Act) (s s' : State) : Prop where
  cur : s'.cur = s.cur
  snaps : ∀ g, s'.snaps g = { s.snaps g with frozen := (s'.snaps g).frozen }
  lower : ∀ g j idx,
    HashTable.Lower (s'.writersOn g j) idx ↔ HashTable.Lower (s.writersOn g j) idx
  writing : ∀ {k q gen ok ws}, s'.parties k = some q → q.stage = .writing gen ok ws →
    s.parties k = some q ∨ a = .test k ∧ ∃ q₀, s.parties k = some q₀ ∧ q₀.stage = .locked gen
      ∧ q₀.call = q.call ∧ (s.snaps gen).frozen = false

/-- What a step changes. -/
inductive Changes (a : Act) (s s' : State) : Prop
  | unwritten (h : Unwritten a s s')
  | store {i : Nat} {p : Party} {ok : Bool} {st : Store EntryInfo} {ws : List (Store EntryInfo)}
      (ha : a = .store i) (hi : s.parties i = some p)
      (hstage : p.stage = .writing s.cur ok (st :: ws)) (hs' : s' = s.stored i p s.cur ok st ws)
  | publish {k : Nat} {new : DirSnapshot} (hgrow : s.grow = .copying s.curSnap.size k new)
      (hs' : s' = s.publish new)

section

variable {bits : Nat} {m : Multiset (Nat × EntryInfo)} {s s' : State} {i : Nat} {p : Party}
  {a : Act}

/-- The steps that change nothing but one party, which is not in the middle of a move. -/
theorem Unwritten.of_party
    {o : Option Party} (hcur : s'.cur = s.cur) (hsnaps : s'.snaps = s.snaps)
    (hparties : s'.parties = Function.update s.parties i o)
    (hbefore : ∀ {q g w}, s.parties i = some q → q.writer = some (g, w) → w.clears = none)
    (hafter : ∀ {q g w}, o = some q → q.writer = some (g, w) → w.clears = none)
    (hwriting : ∀ {q gen ok ws}, o = some q → q.stage = .writing gen ok ws →
      a = .test i ∧ ∃ q₀, s.parties i = some q₀ ∧ q₀.stage = .locked gen
        ∧ q₀.call = q.call ∧ (s.snaps gen).frozen = false) :
  Unwritten a s s'
  where
  cur := hcur
  snaps := fun g => by rw [hsnaps]
  lower := by
    intro g j idx
    have hwriters : s'.writersOn g j
        = Function.update (s.writersOn g j) i (onTable (s.snaps g) g j o) := by
      funext k
      rw [State.writersOn, hparties, hsnaps]
      exact congrFun (onTable_update (s.snaps g) g j s.parties i o) k
    rw [hwriters]
    apply HashTable.lower_of_ne
    · intro w hw
      cases hq : s.parties i with
      | none =>
          rw [State.writersOn, hq] at hw
          cases hw
      | some q =>
          rw [State.writersOn, hq] at hw
          rw [hbefore hq (onTable_eq_some hw).1]
          rintro ⟨⟩
    · intro w hw
      cases o with
      | none => cases hw
      | some q =>
          rw [hafter rfl (onTable_eq_some hw).1]
          rintro ⟨⟩
  writing := by
    intro k q gen ok ws hq hstage
    rw [hparties] at hq
    by_cases hk : k = i
    · subst hk
      rw [Function.update_self] at hq
      exact .inr (hwriting hq hstage)
    · rw [Function.update_of_ne hk] at hq
      exact .inl hq

/-- A party that is not writing is not in the middle of a move. -/
theorem Party.clears_of_stage
    {g : Nat} {w : HashTable.Writer} (hstage : ∀ gen ok st ws, p.stage ≠ .writing gen ok (st :: ws))
    (hw : p.writer = some (g, w)) :
  w.clears = none
  := by
  rw [Party.writer] at hw
  split at hw
  · cases hw
    exact HashTable.Writer.clears_nil _ _
  · rename_i ws hs
    cases hw
    cases ws with
    | nil => exact HashTable.Writer.clears_nil _ _
    | cons st ws => exact absurd hs (hstage _ _ _ _)
  · cases hw

theorem Inv.changes_party
    (h : Inv bits m s) (hi : s.parties i = some p) (ha : a = .test i ∨ ∀ k, a ≠ .test k)
    (hstore : a = .store i ∨ ∀ k, a ≠ .store k) (hs : s.stepParty i p a = some s') :
  Changes a s s'
  := by
  have hbefore : (∀ gen ok st ws, p.stage ≠ .writing gen ok (st :: ws)) →
      ∀ {q g w}, s.parties i = some q → q.writer = some (g, w) → w.clears = none := by
    intro hstage q g w hq hw
    obtain rfl := Option.some.inj (hi.symm.trans hq)
    exact Party.clears_of_stage hstage hw
  unfold State.stepParty at hs
  split at hs
  · rename_i hstage
    cases hs
    refine .unwritten (.of_party rfl rfl rfl (hbefore (by rw [hstage]; nofun)) ?_ ?_)
    · rintro q g w ⟨⟩ ⟨⟩
    · rintro q g ok ws ⟨⟩ ⟨⟩
  · rename_i hstage
    obtain ⟨-, ⟨⟩⟩ := Option.ite_none_right_eq_some.mp hs
    refine .unwritten (.of_party rfl rfl rfl (hbefore (by rw [hstage]; nofun)) ?_ ?_)
    · rintro q g w ⟨⟩ ⟨⟩
      exact HashTable.Writer.clears_nil _ _
    · rintro q g ok ws ⟨⟩ ⟨⟩
  · rename_i gen _ hstage
    simp only at hs
    have hlocked : ∀ gen ok st ws, p.stage ≠ .writing gen ok (st :: ws) := by
      rw [hstage]
      nofun
    split at hs
    · cases hs
      refine .unwritten (.of_party rfl rfl rfl (hbefore hlocked) ?_ ?_)
      · rintro q g w ⟨⟩ ⟨⟩
      · rintro q g ok ws ⟨⟩ ⟨⟩
    · rename_i hfrozen
      cases hs
      refine .unwritten (.of_party rfl rfl rfl (hbefore hlocked) ?_ ?_)
      · rintro q g w ⟨⟩ ⟨⟩
        exact HashTable.Writer.clears_start _ _
      · rintro q g ok ws ⟨⟩ ⟨⟩
        obtain ha | ha := ha
        · exact ⟨ha, p, hi, hstage, rfl, Bool.not_eq_true _ ▸ hfrozen⟩
        · exact absurd rfl (ha _)
  · rename_i gen ok st ws _ hstage
    obtain ⟨rfl, -⟩ := (h.parties hi).writing hstage
    cases hs
    obtain ha | ha := hstore
    · exact .store ha hi hstage rfl
    · exact absurd rfl (ha _)
  · rename_i hstage
    cases hs
    refine .unwritten (.of_party rfl rfl rfl (hbefore (by rw [hstage]; nofun)) ?_ ?_)
    · rintro q g w ⟨⟩ ⟨⟩
    · rintro q g ok ws ⟨⟩ ⟨⟩
  · rename_i hstage
    cases hs
    exact .unwritten (.of_party rfl rfl rfl (hbefore (by rw [hstage]; nofun)) nofun nofun)
  · rename_i hstage
    cases hs
    refine .unwritten (.of_party rfl rfl rfl (hbefore (by rw [hstage]; nofun)) ?_ ?_)
    · rintro q g w ⟨⟩ ⟨⟩
    · rintro q g ok ws ⟨⟩ ⟨⟩
  · rename_i hstage
    obtain ⟨-, ⟨⟩⟩ := Option.ite_none_right_eq_some.mp hs
    refine .unwritten (.of_party rfl rfl rfl (hbefore (by rw [hstage]; nofun)) ?_ ?_)
    · rintro q g w ⟨⟩ ⟨⟩
    · rintro q g ok ws ⟨⟩ ⟨⟩
  · cases hs

/-- A step that changes neither the snapshots nor the parties. -/
theorem Unwritten.of_rest
    (hcur : s'.cur = s.cur) (hsnaps : s'.snaps = s.snaps) (hparties : s'.parties = s.parties) :
  Unwritten a s s'
  where
  cur := hcur
  snaps := fun g => by rw [hsnaps]
  lower := fun g j idx => by
    have hwriters : s'.writersOn g j = s.writersOn g j := by
      funext k
      rw [State.writersOn, State.writersOn, hparties, hsnaps]
    rw [hwriters]
  writing := fun hq _ => .inl (by rw [← hparties, hq])

theorem changes_grow (hs : s.stepGrow a = some s') : Changes a s s' := by
  unfold State.stepGrow at hs
  split at hs
  · obtain ⟨-, ⟨⟩⟩ := Option.ite_none_right_eq_some.mp hs
    refine .unwritten ⟨rfl, ?_, ?_, fun hq _ => .inl hq⟩
    · intro g
      rw [freeze_snaps]
    · intro g j idx
      rw [freeze_writersOn]
  · cases hs
    exact .unwritten (.of_rest rfl rfl rfl)
  · obtain ⟨-, ⟨⟩⟩ := Option.ite_none_right_eq_some.mp hs
    exact .unwritten (.of_rest rfl rfl rfl)
  · obtain ⟨-, hs⟩ := Option.ite_none_right_eq_some.mp hs
    split at hs
    · cases hs
      exact .unwritten (.of_rest rfl rfl rfl)
    · cases hs
      exact .unwritten (.of_rest rfl rfl rfl)
  · rename_i hgrow
    obtain ⟨rfl, ⟨⟩⟩ := Option.ite_none_right_eq_some.mp hs
    exact .publish hgrow rfl
  · cases hs
    exact .unwritten (.of_rest rfl rfl rfl)
  · cases hs

theorem Inv.changes (h : Inv bits m s) (hs : s.step a = some s') : Changes a s s' := by
  cases a with
  | call i c =>
      rw [State.step] at hs
      simp only at hs
      split at hs
      · cases hs
      · rename_i hi
        cases hs
        refine .unwritten (.of_party rfl rfl rfl ?_ ?_ ?_)
        · intro q g w hq
          rw [hi] at hq
          cases hq
        · rintro q g w ⟨⟩ ⟨⟩
        · rintro q g ok ws ⟨⟩ ⟨⟩
  | test i =>
      obtain ⟨p, hi, hs⟩ := Option.bind_eq_some_iff.mp hs
      exact h.changes_party hi (.inl rfl) (.inr (by rintro _ ⟨⟩)) hs
  | store i =>
      obtain ⟨p, hi, hs⟩ := Option.bind_eq_some_iff.mp hs
      exact h.changes_party hi (.inr (by rintro _ ⟨⟩)) (.inl rfl) hs
  | load i | lock i | unlock i | leave i | again i =>
      obtain ⟨p, hi, hs⟩ := Option.bind_eq_some_iff.mp hs
      exact h.changes_party hi (.inr (by rintro _ ⟨⟩)) (.inr (by rintro _ ⟨⟩)) hs
  | enterReader =>
      cases hs
      exact .unwritten (.of_rest rfl rfl rfl)
  | leaveReader sec =>
      obtain ⟨hin, ⟨⟩⟩ := Option.ite_none_right_eq_some.mp hs
      exact .unwritten (.of_rest rfl rfl rfl)
  | freeze | synchronize | synced | copy | publish | retire => exact changes_grow hs

end

end UDepot.Directory
