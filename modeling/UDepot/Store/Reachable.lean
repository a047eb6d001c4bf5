import UDepot.Store.Commit
import UDepot.Store.GcSteps

/-!
# Runs of the store

The invariants of the shared state, of every operation and of the collector hold together in every
state a run reaches from one that `open` leaves (`Opened.inv`, `State.Inv.step`).  `StateStep`
says what one step of any actor does; what holds over whole runs is derived from it.
-/

namespace UDepot

/-- The invariants of a state. -/
structure State.Inv (env : StoreEnv) (s : State) : Prop where
  core : s.core.Inv env
  ops : ∀ {i o}, s.ops i = some o → OpInv env s.core i o
  gc : GcInv env s.core s.gc

/-- What a step does to the directory: nothing, the commit of an operation, a move of a record by
the collector, or the drop of a tombstone. -/
inductive Effect (env : StoreEnv) (s s' : State) : Act → Prop
  | quiet {a : Act} (h : Quiet s.core s'.core) : Effect env s s' a
  | commit {i : Nat} {b : OpAct} {o o' : Op} {p : Nat} {old : Option (EntryInfo × Rec)}
      {todo : List Call} (ho : s.ops i = some o) (ho' : s'.ops i = some o')
      (hphase : o.phase = .commit) (hown : o.own = some p)
      (hphase' : o'.phase = .calls todo (.ret .ok))
      (h : Commits env (.op i) s.core s'.core p
        (o.record env (s.core.segTimestamps (env.geo.segOf p))) old) :
      Effect env s s' (.op i b)
  | move {b : GcAct} {p : GcPass} {r : Rec} {e : EntryInfo} {sec : ReadSection} {dst : Nat}
      (hg : s.gc = .relocate p r e sec (.repoint dst))
      (h : Commits env .gc s.core s'.core dst
        { r with timestamp := s.core.segTimestamps (env.geo.segOf dst) } (some (e, r))) :
      Effect env s s' (.gc b)
  | drop {b : GcAct} {p : GcPass} {r : Rec} (hg : s.gc = .walk p)
      (h : Drops env s.core s'.core p r) : Effect env s s' (.gc b)

/-- What a step does. -/
structure StateStep (env : StoreEnv) (s : State) (a : Act) (s' : State) : Prop where
  frame : ∃ b, Frame env s.core s'.core (s.gc.locked env) b
  inv : s'.Inv env
  effect : Effect env s s' a

section

variable {env : StoreEnv} {s s' : State}

/-- The steps of a store: an operation begins or makes a step, the collector makes a step, or it is
a step of neither. -/
theorem State.step_cases {a : Act} (hs : s.step env a = some s') :
    (∃ i kind key, a = .start i kind key ∧ s.ops i = none ∧ admitted env kind key = true
      ∧ s' = { s with
        core := (s.core.enter (.op i)).1
        ops := Function.update s.ops i (some (Op.init kind key (s.core.enter (.op i)).2)) })
    ∨ (∃ i b o c' o', a = .op i b ∧ s.ops i = some o
      ∧ o.step env (s.gc.locked env) s.core i b = some (c', o')
      ∧ s' = { s with core := c', ops := Function.update s.ops i (some o') })
    ∨ (∃ b c' g', a = .gc b ∧ GcPhase.step env s.core s.gc b = some (c', g')
      ∧ s' = { s with core := c', gc := g' })
    ∨ ∃ c', s.core.envStep env.geo a = some c' ∧ s' = { s with core := c' } := by
  have henv : ∀ {a}, (s.core.envStep env.geo a).map (fun c => { s with core := c }) = some s' →
      ∃ c', s.core.envStep env.geo a = some c' ∧ s' = { s with core := c' } := by
    intro a hs
    obtain ⟨c', hc', rfl⟩ := Option.map_eq_some_iff.mp hs
    exact ⟨c', hc', rfl⟩
  cases a with
  | start i kind key =>
      left
      obtain ⟨⟨hnone, hadm⟩, ⟨⟩⟩ := Option.ite_none_right_eq_some.mp hs
      exact ⟨i, kind, key, rfl, Option.isNone_iff_eq_none.mp hnone, hadm, rfl⟩
  | op i b =>
      right
      left
      obtain ⟨o, ho, hs⟩ := Option.bind_eq_some_iff.mp hs
      obtain ⟨⟨c', o'⟩, hstep, ⟨⟩⟩ := Option.map_eq_some_iff.mp hs
      exact ⟨i, b, o, c', o', rfl, ho, hstep, rfl⟩
  | gc b =>
      right
      right
      left
      obtain ⟨⟨c', g'⟩, hstep, ⟨⟩⟩ := Option.map_eq_some_iff.mp hs
      exact ⟨b, c', g', rfl, hstep, rfl⟩
  | _ =>
      right
      right
      right
      exact henv hs

/-- The steps of no actor. -/
theorem Core.Inv.envStep
    {c c' : Core} (h : c.Inv env) {a : Act} (hs : c.envStep env.geo a = some c')
    (lock : Option Nat) :
  Frame env c c' lock none ∧ Quiet c c'
  := by
  cases Core.envSteps_of_envStep hs with
  | turn hturn => exact ⟨(h.turn hturn).frame h lock, rfl, rfl, rfl⟩
  | closeSegment seg => exact ⟨h.closeWhere _ lock none, rfl, rfl, rfl⟩
  | deferFree hph hall => exact ⟨h.deferFree hph hall lock, rfl, rfl, rfl⟩
  | freeDeferred hph hend =>
      refine ⟨h.freeSegment (.inl hph) hend lock fun _ _ hsync => ?_, rfl, rfl, rfl⟩
      cases hph.symm.trans hsync
  | growFreeze _ hbits =>
      refine ⟨h.growFreeze hbits lock, ?_, rfl, rfl⟩
      simp [Core.curSnap, Core.setCur, DirSnapshot.items, DirSnapshot.size]
  | growPublish hgrow _ =>
      refine ⟨h.growPublish hgrow lock, ?_, rfl, rfl⟩
      simp only [Core.curSnap, Function.update_self]
      apply (h.dir.wf.growCopy (h.grow hgrow)).2

/-- A step of no operation and not of the collector. -/
theorem State.Inv.of_frame
    (h : s.Inv env) {c' : Core} (hf : Frame env s.core c' (s.gc.locked env) none) :
  State.Inv env { s with core := c' }
  where
  core := hf.inv
  ops := fun ho => (h.ops ho).of_frame hf (by simp)
  gc := h.gc.of_frame hf (by simp)

/-- A step of an operation. -/
theorem State.Inv.of_op
    (h : s.Inv env) {i : Nat} {c' : Core} {o' : Op}
    (hf : Frame env s.core c' (s.gc.locked env) (some (.op i))) (ho' : OpInv env c' i o') :
  State.Inv env { s with core := c', ops := Function.update s.ops i (some o') }
  where
  core := hf.inv
  ops := fun {j o} ho => by
    by_cases hj : j = i
    · subst hj
      simp only [Function.update_self] at ho
      cases ho
      apply ho'
    · simp only [Function.update_of_ne hj] at ho
      apply (h.ops ho).of_frame hf
      simpa using fun heq => hj heq.symm
  gc := h.gc.of_frame hf (by simp)

/-- An operation begins. -/
theorem Op.init_inv
    {c : Core} {i : Nat} {kind : OpKind} {key : Bytes} (hadm : admitted env kind key = true) :
  OpInv env (c.enter (.op i)).1 i (Op.init kind key (c.enter (.op i)).2)
  := by
  constructor
  · exact ⟨hadm, rfl, (fun hp => nomatch hp), (fun hs => nomatch hs)⟩
  · intro p hp
    cases hp
  · intro _
    apply List.mem_cons_self
  · intro _
    rfl
  · intro hw
    cases kind with
    | put mode ifVersion value =>
        apply Op.grains_le_of_value (o := Op.init (.put mode ifVersion value) key _) hadm rfl
    | del | get => cases hw
  · intro _ p hp
    cases hp
  · cases kind <;> trivial

/-- Every step keeps the invariants. -/
theorem State.Inv.step
    {a : Act} (h : s.Inv env) (hs : s.step env a = some s') :
  StateStep env s a s'
  := by
  obtain ⟨i, kind, key, rfl, -, hadm, rfl⟩ | ⟨i, b, o, c', o', rfl, ho, hstep, rfl⟩
    | ⟨b, c', g', rfl, hstep, rfl⟩ | ⟨c', hc', rfl⟩ := State.step_cases hs
  · have hf := h.core.enter (.op i) (s.gc.locked env) (some (.op i))
    exact ⟨⟨_, hf⟩, h.of_op hf (Op.init_inv hadm), .quiet ⟨rfl, rfl, rfl⟩⟩
  · have hop := (h.ops ho).step h.core hstep
    refine ⟨⟨_, hop.frame⟩, h.of_op hop.frame hop.inv, ?_⟩
    obtain hq | ⟨p, old, hphase, hown, rfl, hc⟩ := hop.effect
    · exact .quiet hq
    · exact .commit ho (Function.update_self _ _ _) hphase hown rfl hc
  · have hgc := h.gc.step h.core hstep
    refine ⟨⟨_, hgc.frame _⟩, ⟨(hgc.frame none).inv, ?_, hgc.inv⟩, ?_⟩
    · intro i o ho
      apply (h.ops ho).of_frame (hgc.frame none)
      simp
    · obtain hq | ⟨p, r, e, sec, dst, hg, hc⟩ | ⟨p, r, hg, hd⟩ := hgc.effect
      · exact .quiet hq
      · exact .move hg hc
      · exact .drop hg hd
  · obtain ⟨hf, hq⟩ := h.core.envStep hc' (s.gc.locked env)
    exact ⟨⟨none, hf⟩, h.of_frame hf, .quiet hq⟩

end

end UDepot
