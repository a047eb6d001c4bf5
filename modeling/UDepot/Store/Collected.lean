import UDepot.Store.Accounting
import UDepot.Store.Linear

/-!
# A pass of the collector preserves the store

What a step of `gc_callback` does to the directory: an entry stays with its record, or it is made
to point at a copy of its record outside the victim, or it is the entry of a tombstone that is
dropped (`Carried`).  A pass that fails has given back what it was handed and leaves the entries it
did not come to where they are; after one that succeeds nothing points into the victim.
-/

namespace UDepot

open Transition

/-- The segment a pass of the collector is about. -/
def GcPhase.victim : GcPhase → Option Nat
  | .idle => none
  | .scan v _ _ _ _ | .sync v => some v
  | .walk p | .relocate p _ _ _ _ => some p.victim

section

variable (env : StoreEnv) (s s' : State)

/-- What becomes of the entry `x` of the record `r` in a step of the collector. -/
inductive Carried (x : Nat × EntryInfo) (r : Rec) : Prop
  | stays (hmem : x ∈ s'.core.curSnap.items) (hrec : s'.core.recs x.2.pba = some r)
  | moves {y : Nat × EntryInfo} {r' : Rec} (hvictim : s.gc.victim = some (env.geo.segOf x.2.pba))
      (hmem : y ∈ s'.core.curSnap.items) (hrec : s'.core.recs y.2.pba = some r')
      (hkey : r'.key = r.key) (hvalue : r'.value = r.value)
  | drops (hvictim : s.gc.victim = some (env.geo.segOf x.2.pba)) (htomb : r.value = none)

/-- A pass over `v` has failed. -/
structure Failed (v : Nat) : Prop where
  closed : s'.core.phase v = .closed
  items : s'.core.curSnap.items = s.core.curSnap.items
  here : ∀ {p r e sec stage}, s.gc = .relocate p r e sec stage →
    env.geo.segOf p.grain = v ∧ env.item r p.grain ∈ s'.core.curSnap.items
  given : ∀ {q rg}, s'.core.ranges q = some rg →
    ¬ rg.HeldBy .gc ∧ (rg.user = .gc → rg.released = true)

end

section

variable {env : StoreEnv} {s s' : State} {b : GcAct}

/-- What a step of the collector does to an entry. -/
theorem State.Inv.carried
    (h : s.Inv env) (hs : s.step env (.gc b) = some s') {x : Nat × EntryInfo}
    (hx : x ∈ s.core.curSnap.items) {r : Rec} (hr : s.core.recs x.2.pba = some r) :
  Carried env s s' x r
  := by
  have hstep := h.step hs
  obtain ⟨a, hf⟩ := hstep.frame
  have hrec := hf.record h.core hx hr
  cases hstep.effect with
  | quiet hq =>
      apply Carried.stays _ hrec
      rw [hq.items]
      apply hx
  | move hg hc =>
      rename_i p r₀ e sec dst
      obtain ⟨hentry, -⟩ := hc.replaced rfl
      by_cases hp : x.2.pba = e.pba
      · have hgc := h.gc
        rw [hg] at hgc
        cases hr.symm.trans (hp ▸ hentry.record)
        have hgrain : x.2.pba = p.grain := by rw [hp, hgc.stage.1.entry]; rfl
        refine .moves ?_ ((hc.mem_items h.core).mpr (.inl rfl)) (hc.entryOf h.core hf).record
          rfl rfl
        rw [hgrain, hgc.segOf_grain hgc.inside, hg]
        rfl
      · apply Carried.stays _ hrec
        apply (hc.mem_items h.core).mpr
        right
        use hx
        rintro e₀ r₀ ⟨⟩
        apply hp
  | drop hg hd =>
      rename_i p r₀
      have hmem := hx
      rw [hd.items] at hmem
      obtain rfl | hmem := Multiset.mem_cons.mp hmem
      · cases hr.symm.trans hd.record
        apply Carried.drops _ hd.tombstone
        rw [hg, show (env.item r p.grain).2.pba = p.grain from rfl, hd.segOf]
        rfl
      · apply Carried.stays hmem hrec

/-- An entry after a step of the collector was there before, or its record is a copy of the record
of one that was. -/
theorem State.Inv.carried_from
    (h : s.Inv env) (hs : s.step env (.gc b) = some s') {y : Nat × EntryInfo}
    (hy : y ∈ s'.core.curSnap.items) {r : Rec} (hr : s'.core.recs y.2.pba = some r) :
  ∃ x ∈ s.core.curSnap.items, ∃ r₀, s.core.recs x.2.pba = some r₀ ∧ r₀.key = r.key
    ∧ r₀.value = r.value
  := by
  have hstep := h.step hs
  obtain ⟨a, hf⟩ := hstep.frame
  have hkept : y ∈ s.core.curSnap.items → ∃ x ∈ s.core.curSnap.items, ∃ r₀,
      s.core.recs x.2.pba = some r₀ ∧ r₀.key = r.key ∧ r₀.value = r.value := by
    intro hmem
    obtain ⟨r₀, hr₀⟩ := h.core.dir.pointed hmem
    cases hr.symm.trans (hf.record h.core hmem hr₀.current.record)
    exact ⟨y, hmem, r, hr₀.current.record, rfl, rfl⟩
  cases hstep.effect with
  | quiet hq =>
      rw [hq.items] at hy
      apply hkept hy
  | move hg hc =>
      rename_i p r₀ e sec dst
      obtain ⟨hentry, -⟩ := hc.replaced rfl
      obtain rfl | ⟨hmem, -⟩ := (hc.mem_items h.core).mp hy
      · cases hr.symm.trans (hc.entryOf h.core hf).record
        exact ⟨_, hentry.mem, r₀, hentry.record, rfl, rfl⟩
      · apply hkept hmem
  | drop hg hd => exact hkept (hd.mem_before hy)

/-- A pass ends with its victim freed, or with an error that leaves the directory alone. -/
theorem GcPhase.Steps.ends
    {c c' : Core} {g g' : GcPhase} (hs : Steps env c g b c' g') (hg : GcInv env c g) {v : Nat}
    (hv : g.victim = some v) (hidle : g' = .idle) :
  c'.curSnap = c.curSnap ∧ (b = .synced ∧ g = .sync v
    ∨ b ≠ .synced ∧ c'.phase v = .closed ∧ ∀ {p r e sec stage}, g = .relocate p r e sec stage →
      env.geo.segOf p.grain = v ∧ env.item r p.grain ∈ c.curSnap.items)
  := by
  cases hs with
  | synced =>
      cases hv
      exact ⟨rfl, .inl ⟨rfl, rfl⟩⟩
  | readFails =>
      cases hv
      exact ⟨rfl, .inr ⟨nofun, Function.update_self _ _ _, nofun⟩⟩
  | relocate hrel =>
      cases hrel with
      | fail =>
          cases hv
          refine ⟨rfl, .inr ⟨nofun, Function.update_self _ _ _, ?_⟩⟩
          rintro p r e sec stage ⟨⟩
          exact ⟨hg.segOf_grain hg.inside, hg.stage.2.mem⟩
      | _ => cases hidle
  | _ => cases hidle

/-- A pass that fails. -/
theorem Opened.failed
    {s₀ : State} (hopen : Opened env s₀) (hreach : Reach (State.step env) (fun _ _ => True) s₀ s)
    (hs : s.step env (.gc b) = some s') {v : Nat} (hv : s.gc.victim = some v)
    (hidle : s'.gc = .idle) (hb : b ≠ .synced) :
  Failed env s s' v
  := by
  have h := hopen.reach hreach
  have hl := hopen.ledger_of_reach (hreach.tail trivial hs)
  obtain ⟨⟨c', g'⟩, hstep, ⟨⟩⟩ := Option.map_eq_some_iff.mp hs
  obtain ⟨hsnap, ⟨rfl, -⟩ | ⟨-, hclosed, hhere⟩⟩ :=
    (GcPhase.steps_of_step hstep).ends h.gc hv hidle
  · contradiction
  · have hduties : State.duties { s with core := c', gc := g' } .gc = .none := by
      rw [State.duties, hidle]
      rfl
    refine ⟨hclosed, congrArg _ hsnap, ?_, ?_⟩
    · intro p r e sec stage hg
      rw [hsnap]
      apply hhere hg
    · intro q rg hrg
      constructor
      · intro hheld
        have hmem := hl.held hrg hheld
        rw [hduties] at hmem
        cases hmem
      · intro huser
        by_contra hrel
        have hmem := hl.unreleased hrg (Bool.eq_false_iff.mpr hrel)
        rw [huser, hduties] at hmem
        cases hmem

/-- Nothing points into a segment that waits to be freed. -/
theorem State.Inv.segOf_ne_of_sync
    (h : s.Inv env) {v : Nat} (hg : s.gc = .sync v) {x : Nat × EntryInfo}
    (hx : x ∈ s.core.curSnap.items) :
  env.geo.segOf x.2.pba ≠ v
  := by
  rintro rfl
  have hgc := h.gc
  rw [hg] at hgc
  obtain ⟨waits, hph⟩ := hgc
  obtain ⟨r, hr⟩ := h.core.dir.pointed hx
  have huse := hr.inUse
  rw [hph] at huse
  cases huse

/-- The collector preserves the store.  In every state a run reaches, a step of `gc_callback` leaves
the map from keys to values as it is; every entry, live or deleted, points at a complete record
before and after it, and stays, is moved with its record, or is of a tombstone; when the pass fails,
the grains it was handed are given back and the entries of the victim are as they were; and when it
succeeds no entry points into the victim.  The entries fit their words, which they do where every
grain can be addressed (`Geometry.Addressable`). -/
theorem gc_preserves_store
    {s₀ : State} (hopen : Opened env s₀) (hreach : Reach (State.step env) (fun _ _ => True) s₀ s)
    (hs : s.step env (.gc b) = some s') :
  (∀ key, (s'.core.kvMap env key).map Prod.fst = (s.core.kvMap env key).map Prod.fst)
    ∧ (∀ x ∈ s.core.curSnap.items, ∃ r, s.core.recs x.2.pba = some r ∧ x = env.item r x.2.pba
      ∧ Carried env s s' x r)
    ∧ (∀ y ∈ s'.core.curSnap.items, ∃ r, s'.core.recs y.2.pba = some r ∧ y = env.item r y.2.pba
      ∧ ∃ x ∈ s.core.curSnap.items, ∃ r₀, s.core.recs x.2.pba = some r₀ ∧ r₀.key = r.key
        ∧ r₀.value = r.value)
    ∧ ∀ v, s.gc.victim = some v → s'.gc = .idle →
      (b ≠ .synced → Failed env s s' v)
        ∧ (b = .synced → ∀ x ∈ s'.core.curSnap.items, env.geo.segOf x.2.pba ≠ v)
  := by
  have h := hopen.reach hreach
  have h' := (h.step hs).inv
  refine ⟨?_, ?_, ?_, ?_⟩
  · intro key
    obtain hsame | ⟨i, _, _, _, _, heq, -⟩ | ⟨-, key', value, v, v', hbefore, hafter⟩ :=
      h.step_kvMap hs
    · rw [hsame]
    · cases heq
    · rw [hafter]
      by_cases hk : key = key'
      · rw [hk, Function.update_self, hbefore]
        rfl
      · rw [Function.update_of_ne hk]
  · intro x hx
    obtain ⟨r, hr⟩ := h.core.dir.pointed hx
    exact ⟨r, hr.current.record, hr.item, h.carried hs hx hr.current.record⟩
  · intro y hy
    obtain ⟨r, hr⟩ := h'.core.dir.pointed hy
    exact ⟨r, hr.current.record, hr.item, h.carried_from hs hy hr.current.record⟩
  · intro v hv hidle
    use hopen.failed hreach hs hv hidle
    rintro rfl x hx
    obtain ⟨⟨c', g'⟩, hstep, ⟨⟩⟩ := Option.map_eq_some_iff.mp hs
    obtain ⟨hsnap, ⟨-, hg⟩ | ⟨hne, -⟩⟩ := (GcPhase.steps_of_step hstep).ends h.gc hv hidle
    · rw [hsnap] at hx
      apply h.segOf_ne_of_sync hg hx
    · contradiction

end

/-- A small store with a key in its first segment, and a pass over that segment that has copied the
key's record. -/
def smallCopied : State :=
  .after .small (stampActs 0 .data ++ putActs 0 0 [2] [1] ++ [.op 0 (.commit false), .op 0 .call,
    .op 0 .call, .closeSegment 0] ++ stampActs 1 .reloc ++ [.gc (.pick 0), .gc .scanLive,
    .gc .scanLive, .gc .scanTimestamp, .gc .scanLive, .gc .scanLive, .gc .read, .gc .walk,
    .gc (.allocate 1), .gc .compare, .gc .check, .gc .loadTimestamp, .gc .writeRecord])

theorem smallCopied_repoint :
    ∃ s', smallCopied.step .small (.gc .repoint) = some s'
      ∧ (smallCopied.core.kvMap .small [1]).map Prod.fst = some [2]
      ∧ (s'.core.kvMap .small [1]).map Prod.fst = some [2]
      ∧ s'.core.curSnap.items ≠ smallCopied.core.curSnap.items := by
  have hreach : Reach (State.step .small) (fun _ _ => True) (.fresh 0) smallCopied :=
    State.after_reach (by decide +kernel) (fun _ _ _ => trivial)
  obtain ⟨s', hs'⟩ := Option.isSome_iff_exists.mp
    (show (smallCopied.step .small (.gc .repoint)).isSome = true by decide +kernel)
  have hbefore : (smallCopied.core.kvMap .small [1]).map Prod.fst = some [2] := by decide +kernel
  have hne : ((smallCopied.step .small (.gc .repoint)).map (·.core.curSnap.items))
      ≠ some smallCopied.core.curSnap.items := by decide +kernel
  refine ⟨s', hs', hbefore, ?_, ?_⟩
  · rw [(gc_preserves_store (State.fresh_opened .small) hreach hs').1 [1], hbefore]
  · intro heq
    apply hne
    rw [hs', ← heq]
    rfl

end UDepot
