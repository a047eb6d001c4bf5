import UDepot.Store.Inversion
import UDepot.Store.Opened

/-!
# The accounts of grains

Every range salsa handed out is to be released once by the actor it was handed to, and every range
whose grains are still valid belongs to an entry or is to be invalidated by an actor.  What an
actor is to do is read off its own state (`State.duties`): the range it has been handed, and the
calls it has still to make.  In every state a run reaches, the duties cover the ranges
(`Ledger`), so nothing is left over when no operation is in progress.
-/

namespace UDepot

/-! ### Duties -/

/-- What an actor has to give up: the range it was handed, and what its calls give up. -/
structure Duties where
  own : Option Nat
  todo : List Call

namespace Duties

def none : Duties := ⟨.none, []⟩

def toInvalidate (d : Duties) : List Nat := d.own.toList ++ d.todo.filterMap Call.invalidated

def toRelease (d : Duties) : List Nat := d.own.toList ++ d.todo.filterMap Call.released

end Duties

def Op.duties (o : Op) : Duties where
  own := o.own
  todo := match o.phase with
    | .calls todo _ => todo
    | _ => []

def GcStage.duties : GcStage → Duties
  | .compare _ dst | .check dst | .stamp dst | .write dst _ | .repoint dst => ⟨some dst, []⟩
  | .calls todo _ => ⟨none, todo⟩
  | .alloc _ => .none

def GcPhase.duties : GcPhase → Duties
  | .relocate _ _ _ _ stage => stage.duties
  | _ => .none

def State.duties (s : State) : Actor → Duties
  | .op i => (s.ops i).elim .none Op.duties
  | .gc => s.gc.duties

/-- An actor is to invalidate the range. -/
def GrainRange.HeldBy (rg : GrainRange) (a : Actor) : Prop :=
  rg.holder = .writer a ∨ rg.holder = .remover a

/-- The ranges that are not given up yet are entries' or actors' to give up. -/
structure Ledger (c : Core) (d : Actor → Duties) : Prop where
  held : ∀ {p rg a}, c.ranges p = some rg → rg.HeldBy a → p ∈ (d a).toInvalidate
  unreleased : ∀ {p rg}, c.ranges p = some rg → rg.released = false → p ∈ (d rg.user).toRelease
  entry : ∀ {p rg}, c.ranges p = some rg → rg.holder = .entry →
    ∃ x ∈ c.curSnap.items, x.2.pba = p

section

variable {env : StoreEnv} {c c' : Core} {d : Actor → Duties} {d' : Duties} {a : Actor}

/-- The duties of others are as before. -/
theorem mem_update_duties
    {f : Duties → List Nat} {b : Actor} {p : Nat} (hb : p ∈ f (d b)) (ha : b = a → p ∈ f d') :
  p ∈ f (Function.update d a d' b)
  := by
  by_cases hba : b = a
  · rw [hba, Function.update_self]
    apply ha hba
  · rw [Function.update_of_ne hba]
    apply hb

/-- Ranges are given up, or passed on: from their actor to an entry, or from an entry to the actor,
which is then to invalidate them. -/
theorem Ledger.passOn
    (hl : Ledger c d)
    (hr : ∀ {q rg}, c'.ranges q = some rg → ∃ rg₀, c.ranges q = some rg₀
      ∧ (rg.released = false → rg₀.released = false) ∧ rg.user = rg₀.user
      ∧ (rg.holder = rg₀.holder ∨ rg.holder = .nobody
        ∨ rg.holder = .entry ∧ (∃ x ∈ c'.curSnap.items, x.2.pba = q)
        ∨ rg.holder = .remover a ∧ q ∈ d'.toInvalidate))
    (hi : ∀ x ∈ c.curSnap.items, ∀ rg, c'.ranges x.2.pba = some rg → rg.holder = .entry →
      ∃ y ∈ c'.curSnap.items, y.2.pba = x.2.pba)
    (hinv : ∀ {q rg}, c'.ranges q = some rg → rg.HeldBy a → q ∈ (d a).toInvalidate →
      q ∈ d'.toInvalidate)
    (hrel : ∀ {q rg}, c'.ranges q = some rg → rg.released = false → q ∈ (d a).toRelease →
      q ∈ d'.toRelease) :
  Ledger c' (Function.update d a d')
  := by
  constructor
  · intro q rg b hrg hheld
    obtain ⟨rg₀, hrg₀, -, -, hsame | hnobody | ⟨hentry, -⟩ | ⟨hremover, hq⟩⟩ := hr hrg
    · have hp := hl.held (a := b) hrg₀ (by rw [GrainRange.HeldBy, ← hsame]; apply hheld)
      apply mem_update_duties hp
      rintro rfl
      apply hinv hrg hheld hp
    · rw [GrainRange.HeldBy, hnobody] at hheld
      obtain ⟨⟨⟩⟩ | ⟨⟨⟩⟩ := hheld
    · rw [GrainRange.HeldBy, hentry] at hheld
      obtain ⟨⟨⟩⟩ | ⟨⟨⟩⟩ := hheld
    · rw [GrainRange.HeldBy, hremover] at hheld
      obtain ⟨⟨⟩⟩ | ⟨⟨⟩⟩ := hheld
      rw [Function.update_self]
      apply hq
  · intro q rg hrg hfalse
    obtain ⟨rg₀, hrg₀, hreleased, huser, -⟩ := hr hrg
    have hp := hl.unreleased hrg₀ (hreleased hfalse)
    rw [← huser] at hp
    apply mem_update_duties hp
    intro hab
    rw [hab] at hp
    apply hrel hrg hfalse hp
  · intro q rg hrg he
    obtain ⟨rg₀, hrg₀, -, -, hsame | hnobody | ⟨-, hx⟩ | ⟨hremover, -⟩⟩ := hr hrg
    · obtain ⟨x, hx, rfl⟩ := hl.entry hrg₀ (hsame.symm.trans he)
      apply hi x hx rg hrg he
    · cases hnobody.symm.trans he
    · apply hx
    · cases hremover.symm.trans he

/-- The ranges and the entries are as before, or fewer ranges are left. -/
theorem Ledger.of_ranges
    (hl : Ledger c d) (hr : ∀ {p rg}, c'.ranges p = some rg → c.ranges p = some rg)
    (hi : c'.curSnap.items = c.curSnap.items)
    (hinv : (d a).toInvalidate ⊆ d'.toInvalidate) (hrel : (d a).toRelease ⊆ d'.toRelease) :
  Ledger c' (Function.update d a d')
  := by
  refine hl.passOn (fun hrg => ⟨_, hr hrg, id, rfl, .inl rfl⟩) ?_ (fun _ _ hq => hinv hq)
    (fun _ _ hq => hrel hq)
  intro x hx _ _ _
  exact ⟨x, hi ▸ hx, rfl⟩

/-- An actor is handed a range. -/
theorem Ledger.allocate
    (hl : Ledger c d) {stream : Stream} {seg len p : Nat}
    (ha : Allocates env c c' a stream seg len p)
    (hinv : ∀ q, q = p ∨ q ∈ (d a).toInvalidate → q ∈ d'.toInvalidate)
    (hrel : ∀ q, q = p ∨ q ∈ (d a).toRelease → q ∈ d'.toRelease) :
  Ledger c' (Function.update d a d')
  := by
  have hcases : ∀ {q rg}, c'.ranges q = some rg →
      (q = p ∧ rg = ⟨len, false, a, .writer a⟩) ∨ c.ranges q = some rg := by
    intro q rg hrg
    rw [ha.after] at hrg
    by_cases hq : q = p
    · subst hq
      simp only [Function.update_self, Option.some.injEq] at hrg
      exact .inl ⟨rfl, hrg.symm⟩
    · simp only [Function.update_of_ne hq] at hrg
      exact .inr hrg
  have hitems : c'.curSnap.items = c.curSnap.items := by rw [ha.after]; rfl
  constructor
  · intro q rg b hrg hheld
    obtain ⟨rfl, rfl⟩ | hrg := hcases hrg
    · obtain ⟨⟨⟩⟩ | ⟨⟨⟩⟩ := hheld
      rw [Function.update_self]
      apply hinv q (.inl rfl)
    · have hp := hl.held hrg hheld
      apply mem_update_duties hp
      rintro rfl
      apply hinv q (.inr hp)
  · intro q rg hrg hfalse
    obtain ⟨rfl, rfl⟩ | hrg := hcases hrg
    · rw [Function.update_self]
      apply hrel q (.inl rfl)
    · have hp := hl.unreleased hrg hfalse
      apply mem_update_duties hp
      intro hab
      rw [hab] at hp
      apply hrel q (.inr hp)
  · intro q rg hrg he
    obtain ⟨rfl, rfl⟩ | hrg := hcases hrg
    · cases he
    · rw [hitems]
      apply hl.entry hrg he

/-- A range after a call, from the one before. -/
theorem Core.exists_before_call
    {x : Call} {q : Nat} {rg : GrainRange} (hrg : (c.call x).ranges q = some rg) :
  ∃ rg₀, c.ranges q = some rg₀ ∧ rg.user = rg₀.user
    ∧ (rg.holder = rg₀.holder ∧ x.invalidated ≠ some q ∨ rg.holder = .nobody)
    ∧ (rg.released = false → rg₀.released = false ∧ x.released ≠ some q)
  := by
  cases x with
  | drain stream => exact ⟨rg, hrg, rfl, .inl ⟨rfl, by rintro ⟨⟩⟩, fun hf => ⟨hf, by rintro ⟨⟩⟩⟩
  | invalidate p len =>
      obtain ⟨rg₀, hrg₀, ⟨-, rfl⟩ | ⟨hne, rfl⟩⟩ := RangeStep.exists_before hrg
      · exact ⟨rg₀, hrg₀, rfl, .inr rfl, fun hfalse => ⟨hfalse, by rintro ⟨⟩⟩⟩
      · refine ⟨rg, hrg₀, rfl, .inl ⟨rfl, ?_⟩, fun hfalse => ⟨hfalse, by rintro ⟨⟩⟩⟩
        simpa [Call.invalidated] using hne.symm
  | release p len =>
      obtain ⟨rg₀, hrg₀, ⟨-, rfl⟩ | ⟨hne, rfl⟩⟩ := RangeStep.exists_before hrg
      · exact ⟨rg₀, hrg₀, rfl, .inl ⟨rfl, by rintro ⟨⟩⟩, by rintro ⟨⟩⟩
      · refine ⟨rg, hrg₀, rfl, .inl ⟨rfl, by rintro ⟨⟩⟩, fun hfalse => ⟨hfalse, ?_⟩⟩
        simpa [Call.released] using hne.symm

/-- What is still to be done after the first call is made. -/
theorem mem_filterMap_tail
    {f : Call → Option Nat} {x : Call} {todo : List Call} {q : Nat}
    (hq : q ∈ (x :: todo).filterMap f) (hne : f x ≠ some q) :
  q ∈ todo.filterMap f
  := by
  obtain ⟨y, hy, hyq⟩ := List.mem_filterMap.mp hq
  obtain rfl | hy := List.mem_cons.mp hy
  · contradiction
  · exact List.mem_filterMap.mpr ⟨y, hy, hyq⟩

/-- An actor makes the first of its calls. -/
theorem Ledger.call
    (hl : Ledger c d) {x : Call} {todo : List Call} (hd : d a = ⟨none, x :: todo⟩) :
  Ledger (c.call x) (Function.update d a ⟨none, todo⟩)
  := by
  refine hl.passOn ?_ ?_ ?_ ?_
  · intro q rg hrg
    obtain ⟨rg₀, hrg₀, huser, hholder, hreleased⟩ := Core.exists_before_call hrg
    refine ⟨rg₀, hrg₀, fun hfalse => (hreleased hfalse).1, huser, ?_⟩
    obtain ⟨hsame, -⟩ | hnobody := hholder
    · exact .inl hsame
    · exact .inr (.inl hnobody)
  · intro y hy _ _ _
    refine ⟨y, ?_, rfl⟩
    cases x <;> exact hy
  · intro q rg hrg hheld hq
    rw [hd] at hq
    obtain ⟨rg₀, -, -, ⟨-, hne⟩ | hnobody, -⟩ := Core.exists_before_call hrg
    · exact mem_filterMap_tail hq hne
    · rw [GrainRange.HeldBy, hnobody] at hheld
      obtain ⟨⟨⟩⟩ | ⟨⟨⟩⟩ := hheld
  · intro q rg hrg hfalse hq
    rw [hd] at hq
    obtain ⟨rg₀, -, -, -, hreleased⟩ := Core.exists_before_call hrg
    exact mem_filterMap_tail hq (hreleased hfalse).2

theorem Core.give_ranges (c : Core) (p : Nat) (hh : Holder) (q : Nat) :
    (c.give p hh).ranges q
      = (c.ranges q).map fun rg => { rg with holder := if q = p then hh else rg.holder } := by
  by_cases hq : q = p
  · subst hq
    simp [Core.give, Core.mapRange]
  · simp [Core.give, Core.mapRange, hq]

/-- The ranges after a commit: the one committed is the entry's, and the one it replaces is the
actor's to invalidate. -/
theorem Commits.ranges_eq
    {p : Nat} {r : Rec} {old : Option (EntryInfo × Rec)} (hc : Commits env a c c' p r old)
    (q : Nat) :
  c'.ranges q = (c.ranges q).map fun rg => { rg with
    holder := if q = p then .entry else if old.any (·.1.pba == q) then .remover a else rg.holder }
  := by
  rw [hc.ranges, Core.give_ranges]
  cases old with
  | none => rfl
  | some er =>
      simp only [Option.elim_some, Core.give_ranges, Option.map_map, Option.any_some, beq_iff_eq]
      congr 1
      funext rg
      simp [Function.comp, eq_comm]

/-- An actor commits the range it was handed, in the place of an entry or as a new one. -/
theorem Ledger.commit
    (hl : Ledger c d) (h : c.Inv env) {p : Nat} {r : Rec} {old : Option (EntryInfo × Rec)}
    (hc : Commits env a c c' p r old)
    (hold : ∀ e r₀, old = some (e, r₀) → e.pba ∈ d'.toInvalidate)
    (hinv : ∀ q ∈ (d a).toInvalidate, q ≠ p → q ∈ d'.toInvalidate)
    (hrel : (d a).toRelease ⊆ d'.toRelease) :
  Ledger c' (Function.update d a d')
  := by
  have hnew : ∃ x ∈ c'.curSnap.items, x.2.pba = p :=
    ⟨env.item r p, (hc.mem_items h).mpr (.inl rfl), rfl⟩
  apply hl.passOn _ _ _ (fun _ _ hq => hrel hq)
  · intro q rg hrg
    rw [hc.ranges_eq] at hrg
    obtain ⟨rg₀, hrg₀, rfl⟩ := Option.map_eq_some_iff.mp hrg
    refine ⟨rg₀, hrg₀, id, rfl, ?_⟩
    simp only
    split_ifs with hq hany
    · rw [hq]
      exact .inr (.inr (.inl ⟨rfl, hnew⟩))
    · obtain ⟨⟨e, r₀⟩, heq, hpba⟩ := (Option.any_eq_true _ _).mp hany
      refine .inr (.inr (.inr ⟨rfl, ?_⟩))
      rw [← beq_iff_eq.mp hpba]
      apply hold e r₀ heq
    · left
      rfl
  · intro x hx rg hrg he
    rw [hc.ranges_eq] at hrg
    obtain ⟨rg₀, -, rfl⟩ := Option.map_eq_some_iff.mp hrg
    refine ⟨x, (hc.mem_items h).mpr (.inr ⟨hx, ?_⟩), rfl⟩
    rintro e r₀ rfl hpba
    rw [if_neg (hc.pba_ne h hx), if_pos (by simp [hpba])] at he
    cases he
  · intro q rg hrg hheld hq
    apply hinv q hq
    rintro rfl
    rw [hc.ranges_eq] at hrg
    obtain ⟨rg₀, -, rfl⟩ := Option.map_eq_some_iff.mp hrg
    simp [GrainRange.HeldBy] at hheld

/-! ### Operations -/

/-- The range an operation was handed is the same as the calls that give it back. -/
theorem Op.giveBack_duties
    (env : StoreEnv) {o : Op} (more : List Call) (next : Next) (htodo : o.duties.todo = []) :
  o.duties.toInvalidate ⊆ (o.giveBack env more next).duties.toInvalidate
    ∧ o.duties.toRelease ⊆ (o.giveBack env more next).duties.toRelease
  := by
  simp only [Duties.toInvalidate, Duties.toRelease, htodo]
  simp only [Op.duties, Op.giveBack]
  cases o.own with
  | none => simp
  | some p => simp [Call.invalidated, Call.released]

/-- A step of an operation. -/
theorem Ledger.op
    {lock : Option Nat} {i : Nat} {o o' : Op} {b : OpAct} (hl : Ledger c d)
    (hd : d (.op i) = o.duties) (h : c.Inv env) (ho : OpInv env c i o)
    (hs : o.step env lock c i b = some (c', o')) :
  Ledger c' (Function.update d (.op i) o'.duties)
  := by
  have hback : ∀ {c' : Core} (more next), o.duties.todo = [] → c'.ranges = c.ranges →
      c'.curSnap.items = c.curSnap.items →
      Ledger c' (Function.update d (.op i) (o.giveBack env more next).duties) := by
    intro c' more next htodo hr hi
    obtain ⟨hinv, hrel⟩ := Op.giveBack_duties env more next htodo
    refine hl.of_ranges (fun hrg => hr ▸ hrg) hi ?_ ?_
    · rw [hd]
      apply hinv
    · rw [hd]
      apply hrel
  have hsame : ∀ {c' : Core} {o' : Op}, c'.ranges = c.ranges →
      c'.curSnap.items = c.curSnap.items → o'.own = o.own → o.duties.todo = [] →
      Ledger c' (Function.update d (.op i) o'.duties) := by
    intro c' o' hr hi hown htodo
    refine hl.of_ranges (fun hrg => hr ▸ hrg) hi ?_ ?_
    all_goals
      rw [hd]
      intro q hq
      simp only [Duties.toInvalidate, Duties.toRelease, htodo, List.filterMap_nil,
        List.append_nil] at hq ⊢
      apply List.mem_append_left
      rw [show o'.duties.own = o'.own from rfl, hown]
      apply hq
  have hop := ho.step h hs
  have htodo : ∀ {ph}, o.phase = ph → (∀ todo next, ph ≠ .calls todo next) →
      o.duties.todo = [] := by
    rintro ph rfl hne
    cases hph : o.phase with
    | calls todo next => exact absurd hph (hne todo next)
    | _ => simp [Op.duties, hph]
  have hfree : o.phase = .alloc → o.own = none := by
    intro hph
    have hown := ho.phaseOk
    rw [hph] at hown
    apply hown
  have hfull : ∀ {hash kvSize pba : Nat} {snap : DirSnapshot},
      c.curSnap.insertLocked hash kvSize pba = (false, snap) →
      (c.setCur snap).curSnap.items = c.curSnap.items := by
    intro hash kvSize pba snap hins
    obtain ⟨-, -, -, -, -, hitems⟩ := h.dir.wf.insertLocked hins
    simpa [Core.setCur, Core.curSnap] using hitems
  cases Op.steps_of_step hs with
  | allocate hph ha hok =>
      apply hl.allocate (Core.allocate_spec ha)
      all_goals
        intro q hq
        rw [hd] at hq
        simpa [Duties.toInvalidate, Duties.toRelease, Op.duties, hph, hfree hph, eq_comm] using hq
  | allocateBad hph ha hok =>
      apply hl.allocate (Core.allocate_spec ha)
      all_goals
        intro q hq
        rw [hd] at hq
        simpa [Duties.toInvalidate, Duties.toRelease, Op.duties, Op.giveBack, hph, hfree hph,
          Call.invalidated, Call.released, eq_comm] using hq
  | @call x todo next hph =>
      have hown := ho.phaseOk
      rw [hph] at hown
      have hdo : d (.op i) = ⟨none, x :: todo⟩ := by
        rw [hd, Op.duties, hph, hown.1]
      have hcall := hl.call hdo
      simp only [Op.duties, hown.1]
      apply hcall
  | commit hph _ _ _ _ henact =>
      have hnone := htodo hph (by simp)
      cases henact with
      | refuse | rewrite => exact hback _ _ hnone rfl rfl
      | needTomb => exact hsame rfl rfl rfl hnone
      | insertFull hown hins hmax => exact hback _ _ hnone rfl (hfull hins)
      | insertGrow hown hins hmax => exact hsame rfl (hfull hins) rfl hnone
      | insert | replace =>
          obtain hq | ⟨p, old, -, hown, ho', hc⟩ := hop.effect
          · exact absurd hq.committed (List.cons_ne_self _ _)
          · rw [ho']
            have hdo : d (.op i) = ⟨some p, []⟩ := by rw [hd, Op.duties, hph, hown]
            apply hl.commit h hc
            · rintro e r₀ rfl
              simp [Duties.toInvalidate, Op.duties, Op.callsAfter, Call.invalidated]
            · intro q hq hne
              rw [hdo] at hq
              simp [Duties.toInvalidate] at hq
              contradiction
            · intro q hq
              rw [hdo] at hq
              simp only [Duties.toRelease, Option.toList_some, List.filterMap_nil, List.append_nil,
                List.mem_singleton] at hq
              simp [Duties.toRelease, Op.duties, Op.callsAfter, Call.released, hq]
  | returns hph | again hph => exact hsame rfl rfl rfl (by simp [Op.duties, hph])
  | tombFails hph | bufferFails hph | readFails hph | writeFails _ hph =>
      exact hback _ _ (htodo hph (by simp)) rfl rfl
  | growFails hph => exact hback [] (.ret .enospc) (htodo hph (by simp)) rfl rfl
  | allocAgain hph | allocFails hph | resumeAlloc hph | loadTimestamp hph | writeRecord hph
  | loadSnapshot hph | lookupEnd hph | lookup hph | readGet hph | readKey hph | frozen hph
  | unsettled hph | commitStale hph | resumeProbe hph | loadVersion hph =>
      exact hsame rfl rfl rfl (htodo hph (by simp))

theorem Core.freeSegment_ranges
    {seg p : Nat} {rg : GrainRange} (hrg : (c.freeSegment env.geo seg).ranges p = some rg) :
  c.ranges p = some rg
  := by
  simp only [Core.freeSegment] at hrg
  split at hrg
  · cases hrg
  · exact hrg

/-! ### The collector -/

/-- A step of `gc_record`. -/
theorem Ledger.relocates
    {p : GcPass} {r : Rec} {e : EntryInfo} {sec : ReadSection} {stage : GcStage} {b : GcAct}
    {g' : GcPhase} (hl : Ledger c d) (hd : d .gc = stage.duties) (h : c.Inv env)
    (hg : Relocating env c p r e sec stage)
    (hs : GcPhase.step env c (.relocate p r e sec stage) b = some (c', g')) :
  Ledger c' (Function.update d .gc g'.duties)
  := by
  have hinv : GcInv env c (.relocate p r e sec stage) := hg
  have hgc := hinv.step h hs
  have hsame : ∀ {c' : Core} {d' : Duties}, c'.ranges = c.ranges →
      c'.curSnap.items = c.curSnap.items → stage.duties.toInvalidate ⊆ d'.toInvalidate →
      stage.duties.toRelease ⊆ d'.toRelease → Ledger c' (Function.update d .gc d') := by
    intro c' d' hr hi hinv hrel
    exact hl.of_ranges (fun hrg => hr ▸ hrg) hi (hd ▸ hinv) (hd ▸ hrel)
  cases GcPhase.steps_of_step hs with
  | relocate hrel =>
      cases hrel with
      | allocate ha =>
          apply hl.allocate (Core.allocate_spec ha)
          all_goals
            intro q hq
            rw [hd] at hq
            simpa [GcStage.duties, GcPhase.duties, Duties.none, Duties.toInvalidate,
              Duties.toRelease, eq_comm] using hq
      | stale | again | mdBad | bufferFails | writeFails =>
          refine hsame rfl rfl ?_ ?_
          all_goals
            simp [GcStage.duties, GcPhase.duties, GcPhase.dropDst, Duties.toInvalidate,
              Duties.toRelease, Call.invalidated, Call.released]
      | @call x todo next =>
          have hcall := hl.call hd
          apply hcall
      | @repoint dst =>
          obtain hq | ⟨p', r', e', sec', dst', heq, hc⟩ | ⟨p', r', heq, -⟩ := hgc.effect
          · exact absurd hq.committed (List.cons_ne_self _ _)
          · cases heq
            apply hl.commit h hc
            · rintro e₀ r₀ ⟨⟩
              obtain ⟨hhere, -⟩ := hg.stage
              rw [hhere.entry]
              simp [GcStage.duties, GcPhase.duties, Duties.toInvalidate, Call.invalidated,
                StoreEnv.item]
            · intro q hq hne
              rw [hd] at hq
              simp [GcStage.duties, Duties.toInvalidate] at hq
              contradiction
            · rw [hd]
              simp [GcStage.duties, GcPhase.duties, Duties.toRelease, Call.released]
          · cases heq
      | allocFails | later | mdOk | loadTimestamp | writeRecord | advance | fail | retry =>
          refine hsame rfl rfl ?_ ?_
          all_goals
            simp [GcStage.duties, GcPhase.duties, Duties.none, Duties.toInvalidate,
              Duties.toRelease]

/-- A step of the collector. -/
theorem Ledger.gc
    {g g' : GcPhase} {b : GcAct} (hl : Ledger c d) (hd : d .gc = g.duties) (h : c.Inv env)
    (hg : GcInv env c g) (hs : g.step env c b = some (c', g')) :
  Ledger c' (Function.update d .gc g'.duties)
  := by
  have hgc := hg.step h hs
  have hidle : ∀ {c' : Core} {d' : Duties}, g.duties = .none →
      (∀ {p rg}, c'.ranges p = some rg → c.ranges p = some rg) →
      c'.curSnap.items = c.curSnap.items → Ledger c' (Function.update d .gc d') := by
    intro c' d' hnone hr hi
    refine hl.of_ranges hr hi ?_ ?_
    all_goals
      rw [hd, hnone]
      simp [Duties.none, Duties.toInvalidate, Duties.toRelease]
  cases GcPhase.steps_of_step hs with
  | relocate hrel => exact hl.relocates hd h hg hs
  | @drop p r e hin hr hfrozen he hdrop =>
      obtain hq | ⟨p', r', e', sec', dst', heq, hc⟩ | ⟨p', r', heq, hdrops⟩ := hgc.effect
      · exact absurd hq.dropped (List.cons_ne_self _ _)
      · cases heq
      · cases heq
        have hdo : d .gc = .none := hd
        refine hl.passOn ?_ ?_ ?_ ?_
        · intro q rg hrg
          obtain ⟨rg₀, hrg₀, rfl⟩ := Option.map_eq_some_iff.mp
            ((c.give_ranges p.grain (.remover .gc) q).symm.trans hrg)
          refine ⟨rg₀, hrg₀, id, rfl, ?_⟩
          simp only
          split_ifs with hq
          · rw [hq]
            refine .inr (.inr (.inr ?_))
            simp [GcStage.duties, GcPhase.duties, Duties.toInvalidate, Call.invalidated]
          · left
            rfl
        · intro x hx rg hrg hentry
          obtain ⟨rg₀, -, rfl⟩ := Option.map_eq_some_iff.mp
            ((c.give_ranges p.grain (.remover .gc) x.2.pba).symm.trans hrg)
          rw [hdrops.items] at hx
          obtain rfl | hx := Multiset.mem_cons.mp hx
          · simp [StoreEnv.item] at hentry
          · exact ⟨x, hx, rfl⟩
        · intro q rg _ _ hq
          rw [hdo] at hq
          cases hq
        · intro q rg _ _ hq
          rw [hdo] at hq
          cases hq
  | synced hph hended => exact hidle rfl Core.freeSegment_ranges rfl
  | pick | scanLive | scanSkip | scanTimestamp | read | readFails | walkEnd | walkSkip | walkPass
  | lock => exact hidle rfl (fun hrg => hrg) rfl

/-! ### Every step -/

theorem State.duties_op {s : State} {c' : Core} {i : Nat} {o' : Op} :
    State.duties { s with core := c', ops := Function.update s.ops i (some o') }
      = Function.update s.duties (.op i) o'.duties := by
  funext a
  cases a with
  | gc => rfl
  | op j =>
      by_cases hj : j = i
      · subst hj
        simp [State.duties]
      · simp [State.duties, hj]

theorem State.duties_gc {s : State} {c' : Core} {g' : GcPhase} :
    State.duties { s with core := c', gc := g' } = Function.update s.duties .gc g'.duties := by
  funext a
  cases a with
  | gc => rfl
  | op j => rfl

/-- A step of neither an operation nor the collector leaves the ranges alone, or frees a segment
without valid grains. -/
theorem Core.envStep_ranges
    {b : Act} (hs : c.envStep env.geo b = some c') :
  c'.ranges = c.ranges
    ∨ ∃ seg waits, c.phase seg = .deferred waits ∧ c' = c.freeSegment env.geo seg
  := by
  cases Core.envSteps_of_envStep hs with
  | freeDeferred hph _ => exact .inr ⟨_, _, hph, rfl⟩
  | _ => exact .inl rfl

/-- Every step keeps the accounts. -/
theorem Ledger.step
    {s s' : State} {b : Act} (hl : Ledger s.core s.duties) (h : s.Inv env)
    (hs : s.step env b = some s') :
  Ledger s'.core s'.duties
  := by
  obtain ⟨i, kind, key, rfl, hnone, -, rfl⟩ | ⟨i, b, o, c', o', rfl, ho, hstep, rfl⟩
    | ⟨b, c', g', rfl, hstep, rfl⟩ | ⟨c', hc', rfl⟩ := State.step_cases hs
  · have hd : s.duties (.op i) = .none := by simp [State.duties, hnone]
    rw [State.duties_op]
    refine hl.of_ranges (fun hrg => hrg) rfl ?_ ?_
    all_goals
      rw [hd]
      simp [Duties.none, Duties.toInvalidate, Duties.toRelease]
  · rw [State.duties_op]
    apply hl.op _ h.core (h.ops ho) hstep
    simp [State.duties, ho]
  · rw [State.duties_gc]
    apply hl.gc rfl h.core h.gc hstep
  · obtain ⟨-, hq⟩ := h.core.envStep hc' none
    have hr : ∀ {p rg}, c'.ranges p = some rg → s.core.ranges p = some rg := by
      intro p rg hrg
      obtain hr | ⟨seg, waits, -, rfl⟩ := Core.envStep_ranges hc'
      · rw [← hr]
        apply hrg
      · apply Core.freeSegment_ranges hrg
    have hled := hl.of_ranges (a := .gc) hr hq.items (List.Subset.refl _) (List.Subset.refl _)
    rw [Function.update_eq_self] at hled
    apply hled

/-- The accounts are right when the store is opened. -/
theorem Opened.ledger {s : State} (h : Opened env s) : Ledger s.core s.duties where
  held := fun hrg hheld => by
    obtain ⟨-, -, -, hh | hh⟩ := h.ranges hrg <;> rw [GrainRange.HeldBy, hh] at hheld <;>
      obtain ⟨⟨⟩⟩ | ⟨⟨⟩⟩ := hheld
  unreleased := fun hrg hfalse => by
    rw [(h.ranges hrg).2.2.1] at hfalse
    cases hfalse
  entry := h.held

/-- The accounts are right in every state a run reaches. -/
theorem Opened.ledger_of_reach
    {s s' : State} {ok : State → Act → Prop} (h : Opened env s)
    (hr : Transition.Reach (State.step env) ok s s') :
  Ledger s'.core s'.duties
  := by
  have hboth : s'.Inv env ∧ Ledger s'.core s'.duties := by
    apply hr.invariant ⟨h.inv, h.ledger⟩
    rintro s₁ b s₂ ⟨hinv, hl⟩ - hs
    exact ⟨(hinv.step hs).inv, hl.step hinv hs⟩
  apply hboth.2

/-! ### The grains of a segment -/

end

section

variable {env : StoreEnv} {c : Core}

/-- The grains of the ranges of a segment that satisfy `f`. -/
def Core.grainsWhere (geo : Geometry) (c : Core) (seg : Nat) (f : GrainRange → Bool) : Nat :=
  ∑ k ∈ Finset.range geo.segSize, ((c.ranges (geo.segBase seg + k)).filter f).elim 0 GrainRange.len

/-- The grains allocated in a segment in its present life. -/
def Core.allocatedGrains (geo : Geometry) (c : Core) (seg : Nat) : Nat :=
  c.grainsWhere geo seg fun _ => true

/-- The grains of a segment that were invalidated. -/
def Core.invalidatedGrains (geo : Geometry) (c : Core) (seg : Nat) : Nat :=
  c.grainsWhere geo seg fun rg => !rg.valid

/-- The grains of an entry: its size, or those of its tombstone. -/
def Core.entryGrains (c : Core) (e : EntryInfo) : Nat :=
  if e.deleted then (c.recs e.pba).elim 0 Rec.grains else e.kvSize

/-- The grains of the entries that point into a segment. -/
def Core.directoryGrains (geo : Geometry) (c : Core) (seg : Nat) : Nat :=
  ((c.curSnap.items.filter fun x => geo.segOf x.2.pba = seg).map fun x => c.entryGrains x.2).sum

/-- Grains are valid or invalidated. -/
theorem Core.allocatedGrains_eq (geo : Geometry) (c : Core) (seg : Nat) :
    c.allocatedGrains geo seg
      = c.invalidatedGrains geo seg + c.grainsWhere geo seg GrainRange.valid := by
  rw [allocatedGrains, invalidatedGrains, grainsWhere, grainsWhere, grainsWhere,
    ← Finset.sum_add_distrib]
  apply Finset.sum_congr rfl
  intro k _
  cases c.ranges (geo.segBase seg + k) with
  | none => rfl
  | some rg => cases hv : rg.valid <;> simp [Option.filter, hv]

/-- The valid grains at an address. -/
def Core.validAt (c : Core) (p : Nat) : Nat :=
  ((c.ranges p).filter GrainRange.valid).elim 0 GrainRange.len

/-- The grains of an entry are the valid grains at its address. -/
theorem Core.Inv.entryGrains_eq
    (h : c.Inv env) {x : Nat × EntryInfo} (hx : x ∈ c.curSnap.items) :
  c.entryGrains x.2 = c.validAt x.2.pba
  := by
  obtain ⟨r, hr⟩ := h.dir.pointed hx
  obtain ⟨rg, hrg, hlen⟩ := hr.current.range
  obtain ⟨rg', hrg', hheld⟩ := hr.held
  cases hrg.symm.trans hrg'
  have hvalid : rg.valid = true := by simp [GrainRange.valid, hheld]
  have hkv : x.2.kvSize = r.kvSize := by
    rw [hr.item]
    rfl
  rw [Core.validAt, hrg, Option.filter_some, if_pos hvalid, Option.elim_some, hlen,
    Core.entryGrains, EntryInfo.deleted, hkv, Rec.kvSize, hr.current.record, Option.elim_some]
  cases r.value with
  | none => simp
  | some v => simp

/-- If every valid range has its entry, the valid grains of a segment are those of the entries
that point into it. -/
theorem Core.Inv.valid_eq_directory
    (h : c.Inv env)
    (hentry : ∀ {p rg}, c.ranges p = some rg → rg.valid = true →
      ∃ x ∈ c.curSnap.items, x.2.pba = p) (seg : Nat) :
  c.grainsWhere env.geo seg GrainRange.valid = c.directoryGrains env.geo seg
  := by
  have hnodup : ((c.curSnap.items.filter fun x => env.geo.segOf x.2.pba = seg).map
      (·.2.pba)).Nodup :=
    Multiset.nodup_of_le (Multiset.map_le_map (Multiset.filter_le _ _)) h.dir.pbas
  have hmap : ((c.curSnap.items.filter fun x => env.geo.segOf x.2.pba = seg).map
        fun x => c.entryGrains x.2)
      = (((c.curSnap.items.filter fun x => env.geo.segOf x.2.pba = seg).map
        (·.2.pba)).map c.validAt) := by
    rw [Multiset.map_map]
    apply Multiset.map_congr rfl
    intro x hx
    apply h.entryGrains_eq (Multiset.mem_of_mem_filter hx)
  have hsum : c.directoryGrains env.geo seg = ∑ p ∈ ⟨_, hnodup⟩, c.validAt p := by
    rw [Core.directoryGrains, hmap]
    rfl
  have hsegOf : ∀ k < env.geo.segSize, env.geo.segOf (env.geo.segBase seg + k) = seg := by
    intro k hk
    rw [Geometry.segOf, Geometry.segBase, Nat.add_comm, Nat.add_mul_div_right _ _
      env.geo.segSize_pos, Nat.div_eq_of_lt hk, Nat.zero_add]
  have himage : c.grainsWhere env.geo seg GrainRange.valid
      = ∑ p ∈ (Finset.range env.geo.segSize).image (env.geo.segBase seg + ·), c.validAt p := by
    rw [Finset.sum_image]
    · rfl
    · intro k _ k' _ heq
      simpa using heq
  rw [hsum, himage]
  symm
  apply Finset.sum_subset
  · intro p hp
    obtain ⟨x, hx, rfl⟩ := Multiset.mem_map.mp hp
    obtain ⟨-, hseg⟩ := Multiset.mem_filter.mp hx
    obtain ⟨k, hk, hpba⟩ := env.geo.exists_place x.2.pba
    rw [hseg] at hpba
    exact Finset.mem_image.mpr ⟨k, Finset.mem_range.mpr hk, hpba.symm⟩
  · intro p hp hnot
    obtain ⟨k, hk, rfl⟩ := Finset.mem_image.mp hp
    rw [Core.validAt]
    cases hrg : c.ranges (env.geo.segBase seg + k) with
    | none => rfl
    | some rg =>
        cases hv : rg.valid with
        | false => simp [Option.filter, hv]
        | true =>
            obtain ⟨x, hx, hpba⟩ := hentry hrg hv
            exfalso
            apply hnot
            apply Multiset.mem_map.mpr
            refine ⟨x, Multiset.mem_filter.mpr ⟨hx, ?_⟩, hpba⟩
            rw [hpba]
            apply hsegOf k (Finset.mem_range.mp hk)

end

/-! ### Ranges from step to step -/

/-- What a step may do to the ranges there are: a range keeps its grains, once released or
invalidated it stays so, and it goes only when it is both. -/
def RangesKept (c c' : Core) : Prop :=
  ∀ p rg, c.ranges p = some rg →
    (c'.ranges p = none ∧ rg.released = true ∧ rg.valid = false)
    ∨ ∃ rg', c'.ranges p = some rg' ∧ rg'.len = rg.len ∧ rg'.user = rg.user
      ∧ (rg.released = true → rg'.released = true) ∧ (rg.valid = false → rg'.valid = false)

section

variable {env : StoreEnv} {c c' c'' : Core} {a : Actor}

theorem RangesKept.of_ranges (hr : c'.ranges = c.ranges) : RangesKept c c' := by
  intro p rg hrg
  right
  rw [hr]
  exact ⟨rg, hrg, rfl, rfl, id, id⟩

theorem RangesKept.call (x : Call) : RangesKept c (c.call x) := by
  cases x with
  | drain stream => exact .of_ranges rfl
  | invalidate p len =>
      intro q rg hrg
      right
      obtain ⟨rg', hrg', ⟨-, rfl⟩ | ⟨-, rfl⟩⟩ := RangeStep.exists_after (p := p)
        (f := fun r => { r with holder := .nobody }) hrg
      · exact ⟨_, hrg', rfl, rfl, id, fun _ => rfl⟩
      · exact ⟨_, hrg', rfl, rfl, id, id⟩
  | release p len =>
      intro q rg hrg
      right
      obtain ⟨rg', hrg', ⟨-, rfl⟩ | ⟨-, rfl⟩⟩ := RangeStep.exists_after (p := p)
        (f := fun r => { r with released := true }) hrg
      · exact ⟨_, hrg', rfl, rfl, fun _ => rfl, id⟩
      · exact ⟨_, hrg', rfl, rfl, id, id⟩

/-- An allocation takes no range from another. -/
theorem RangesKept.allocate
    (h : c.Inv env) {stream : Stream} {seg len p : Nat}
    (ha : Allocates env c c' a stream seg len p) :
  RangesKept c c'
  := by
  intro q rg hrg
  right
  have hne : q ≠ p := by
    rintro rfl
    rw [ha.ranges_pos h] at hrg
    cases hrg
  refine ⟨rg, ?_, rfl, rfl, id, id⟩
  rw [ha.after]
  simp only [Function.update_of_ne hne]
  apply hrg

theorem RangesKept.commit
    {p : Nat} {r : Rec} {old : Option (EntryInfo × Rec)} (h : c.Inv env)
    (hc : Commits env a c c' p r old) :
  RangesKept c c'
  := by
  intro q rg hrg
  right
  refine ⟨_, (hc.ranges_eq q).trans (congrArg _ hrg), rfl, rfl, id, ?_⟩
  intro hinvalid
  simp only [GrainRange.valid, ne_eq, decide_not, Bool.not_eq_false',
    decide_eq_true_eq] at hinvalid ⊢
  split_ifs with hq hany
  · subst hq
    cases hc.owned.symm.trans hrg
    cases hinvalid
  · obtain ⟨⟨e, r₀⟩, rfl, hpba⟩ := (Option.any_eq_true _ _).mp hany
    obtain ⟨hentry, -⟩ := hc.replaced rfl
    obtain ⟨r', hr'⟩ := h.dir.pointed hentry.mem
    obtain ⟨rg', hrg', hheld⟩ := hr'.held
    rw [← beq_iff_eq.mp hpba] at hrg
    cases hrg.symm.trans hrg'
    rw [hheld] at hinvalid
    cases hinvalid
  · apply hinvalid

theorem RangesKept.op
    {lock : Option Nat} {i : Nat} {o o' : Op} {b : OpAct} (h : c.Inv env) (ho : OpInv env c i o)
    (hs : o.step env lock c i b = some (c', o')) :
  RangesKept c c'
  := by
  have hop := ho.step h hs
  cases Op.steps_of_step hs with
  | allocate _ ha | allocateBad _ ha => exact .allocate h (Core.allocate_spec ha)
  | call => exact .call _
  | commit _ _ _ _ _ henact =>
      cases henact with
      | insert | replace =>
          obtain hq | ⟨p, old, -, -, -, hc⟩ := hop.effect
          · exact absurd hq.committed (List.cons_ne_self _ _)
          · exact .commit h hc
      | _ => exact .of_ranges rfl
  | _ => exact .of_ranges rfl

/-- The range at an address the collector takes the entry of is valid. -/
theorem RangesKept.drop
    {p : GcPass} {r : Rec} (h : c.Inv env) (hd : Drops env c c' p r)
    (hr : c'.ranges = (c.give p.grain (.remover .gc)).ranges) :
  RangesKept c c'
  := by
  intro q rg hrg
  right
  rw [hr]
  refine ⟨_, (c.give_ranges _ _ q).trans (congrArg _ hrg), rfl, rfl, id, ?_⟩
  intro hinvalid
  simp only [GrainRange.valid, ne_eq, decide_not, Bool.not_eq_false', decide_eq_true_eq]
    at hinvalid ⊢
  split_ifs with hq
  · obtain ⟨r', hr'⟩ := h.dir.pointed hd.mem_items
    obtain ⟨rg', hrg', hheld⟩ := hr'.held
    rw [hq] at hrg
    cases hrg.symm.trans hrg'
    rw [hheld] at hinvalid
    cases hinvalid
  · apply hinvalid

/-- The ranges of a segment without valid grains are forgotten. -/
theorem RangesKept.free
    {seg : Nat} (hall : ∀ {p rg}, env.geo.segOf p = seg → c.ranges p = some rg →
      rg.released = true ∧ rg.valid = false) :
  RangesKept c (c.freeSegment env.geo seg)
  := by
  intro q rg hrg
  simp only [Core.freeSegment]
  by_cases hq : env.geo.segOf q = seg
  · left
    exact ⟨if_pos hq, hall hq hrg⟩
  · right
    exact ⟨rg, (if_neg hq).trans hrg, rfl, rfl, id, id⟩

theorem RangesKept.gc
    {g g' : GcPhase} {b : GcAct} (h : c.Inv env) (hg : GcInv env c g)
    (hs : g.step env c b = some (c', g'))
    (hsync : ∀ {v waits}, c.phase v = .syncing waits → c.ended waits = true →
      ∀ {p rg}, env.geo.segOf p = v → c.ranges p = some rg →
        rg.released = true ∧ rg.valid = false) :
  RangesKept c c'
  := by
  have hgc := hg.step h hs
  cases GcPhase.steps_of_step hs with
  | relocate hrel =>
      cases hrel with
      | allocate ha => exact .allocate h (Core.allocate_spec ha)
      | call => exact .call _
      | repoint =>
          obtain hq | ⟨_, _, _, _, _, -, hc⟩ | ⟨_, _, heq, -⟩ := hgc.effect
          · exact absurd hq.committed (List.cons_ne_self _ _)
          · exact .commit h hc
          · cases heq
      | _ => exact .of_ranges rfl
  | drop =>
      obtain hq | ⟨_, _, _, _, _, heq, -⟩ | ⟨_, _, heq, hdrops⟩ := hgc.effect
      · exact absurd hq.dropped (List.cons_ne_self _ _)
      · cases heq
      · cases heq
        exact .drop h hdrops rfl
  | synced hph hend => exact .free (hsync hph hend)
  | _ => exact .of_ranges rfl

end

section

variable {env : StoreEnv} {s s' : State}

/-- What an actor is to do: it was handed the range it is to give back, and it makes its calls in a
read section. -/
theorem State.Inv.duties_ok
    (h : s.Inv env) (a : Actor) :
  (∀ {p}, (s.duties a).own = some p → ∃ len, Owned s.core a p len)
    ∧ ∀ x ∈ (s.duties a).todo, ∃ sec ∈ s.core.sections, sec.2 = a
      ∧ CallsOk env s.core sec (s.duties a).todo
  := by
  cases a with
  | op i =>
      cases hops : s.ops i with
      | none => simp [State.duties, hops, Duties.none]
      | some o =>
          have ho := h.ops hops
          simp only [State.duties, hops, Option.elim_some]
          refine ⟨fun hown => ⟨_, (ho.own hown).1⟩, ?_⟩
          intro x hx
          cases hph : o.phase with
          | calls todo next =>
              have hok := ho.phaseOk
              rw [hph] at hok
              simp only [Op.duties, hph]
              exact ⟨o.sec, ho.active (by rw [hph]; rfl), ho.sec, hok.2⟩
          | _ => simp [Op.duties, hph] at hx
  | gc =>
      have hg := h.gc
      cases hgc : s.gc with
      | relocate pass r e sec stage =>
          rw [hgc] at hg
          have hst := hg.stage
          simp only [State.duties, hgc, GcPhase.duties]
          cases stage with
          | alloc => simp [GcStage.duties, Duties.none]
          | calls todo next =>
              exact ⟨by rintro p ⟨⟩, fun x _ => ⟨sec, hg.active, hg.actor, hst.1⟩⟩
          | compare | check | stamp | write | repoint =>
              simp only [GcStage.duties, List.not_mem_nil, false_imp_iff, implies_true, and_true,
                Option.some.injEq]
              rintro p rfl
              first
                | exact ⟨_, hst.2⟩
                | exact ⟨_, hst.2.1⟩
                | exact ⟨_, hst.2.owned⟩
                | exact ⟨_, hst.2.1.owned⟩
      | _ => simp [State.duties, hgc, GcPhase.duties, Duties.none]

/-- Whoever is to invalidate a range holds it as long as nobody can have passed a grace period
there: it was handed the range and has not released it, or it is in a read section that the
segment waits for. -/
theorem State.Inv.not_held_of_ended
    (h : s.Inv env) (hl : Ledger s.core s.duties) {v p : Nat} {waits : List ReadSection}
    {rg : GrainRange} {a : Actor} (hph : s.core.phase v = .syncing waits)
    (hend : s.core.ended waits = true) (hp : env.geo.segOf p = v)
    (hrg : s.core.ranges p = some rg) :
  ¬ rg.HeldBy a
  := by
  intro hheld
  obtain ⟨howned, hcalls⟩ := h.duties_ok a
  obtain hown | hin := List.mem_append.mp (hl.held hrg hheld)
  · obtain ⟨len, ho⟩ := howned (Option.mem_toList.mp hown)
    have hw := h.core.ranges.unreleased ho rfl
    rw [hp, hph] at hw
    cases hw
  · obtain ⟨x, hx, hxp⟩ := List.mem_filterMap.mp hin
    obtain ⟨sec, hsec, -, hok⟩ := hcalls x hx
    cases x with
    | invalidate q len =>
        cases hxp
        have hkeeps := (hok.invalidate hx).keeps
        rw [hp, hph] at hkeeps
        exact Core.Inv.not_mem_of_ended hend hsec hkeeps
    | release | drain => cases hxp

/-- A victim that no entry points into and whose read sections have ended has no valid grain. -/
theorem State.Inv.invalid_of_ended
    (h : s.Inv env) (hl : Ledger s.core s.duties) {v p : Nat} {waits : List ReadSection}
    {rg : GrainRange} (hph : s.core.phase v = .syncing waits)
    (hend : s.core.ended waits = true) (hp : env.geo.segOf p = v)
    (hrg : s.core.ranges p = some rg) :
  rg.released = true ∧ rg.valid = false
  := by
  constructor
  · cases hrel : rg.released with
    | true => rfl
    | false =>
        have hw := h.core.ranges.unreleased hrg hrel
        rw [hp, hph] at hw
        cases hw
  · have hnot : ∀ {a}, ¬ rg.HeldBy a := h.not_held_of_ended hl hph hend hp hrg
    rw [GrainRange.valid]
    cases hh : rg.holder with
    | nobody => rfl
    | writer a => exact absurd (.inl hh) (hnot (a := a))
    | remover a => exact absurd (.inr hh) (hnot (a := a))
    | entry =>
        obtain ⟨x, hx, rfl⟩ := hl.entry hrg hh
        obtain ⟨r, hr⟩ := h.core.dir.pointed hx
        have huse := hr.inUse
        rw [hp, hph] at huse
        cases huse

/-- What every step does to the ranges there are. -/
theorem State.Inv.rangesKept
    {b : Act} (h : s.Inv env) (hl : Ledger s.core s.duties) (hs : s.step env b = some s') :
  RangesKept s.core s'.core
  := by
  obtain ⟨i, kind, key, rfl, -, -, rfl⟩ | ⟨i, b, o, c', o', rfl, ho, hstep, rfl⟩
    | ⟨b, c', g', rfl, hstep, rfl⟩ | ⟨c', hc', rfl⟩ := State.step_cases hs
  · exact .of_ranges rfl
  · exact .op h.core (h.ops ho) hstep
  · apply RangesKept.gc h.core h.gc hstep
    intro v waits hph hend p rg hp hrg
    apply h.invalid_of_ended hl hph hend hp hrg
  · obtain hr | ⟨seg, waits, hph, rfl⟩ := Core.envStep_ranges hc'
    · exact .of_ranges hr
    · apply RangesKept.free
      intro p rg hp hrg
      have hnobody := h.core.ranges.invalid hrg (by rw [hp]; apply hph)
      refine ⟨?_, by simp [GrainRange.valid, hnobody]⟩
      cases hrel : rg.released with
      | true => rfl
      | false =>
          have hw := h.core.ranges.unreleased hrg hrel
          rw [hp, hph] at hw
          cases hw

/-! ### The balance -/

/-- No operation is in progress, and the collector is not relocating a record. -/
structure State.Quiescent (s : State) : Prop where
  ops : ∀ {i o}, s.ops i = some o → ∃ rc res, o.phase = .done rc res
  gc : ∀ {p r e sec stage}, s.gc ≠ .relocate p r e sec stage

theorem State.Quiescent.duties (hq : s.Quiescent) (h : s.Inv env) (a : Actor) :
    s.duties a = .none := by
  cases a with
  | op i =>
      cases ho : s.ops i with
      | none => simp [State.duties, ho]
      | some o =>
          obtain ⟨rc, res, hph⟩ := hq.ops ho
          have hown := (h.ops ho).phaseOk
          rw [hph] at hown
          have hown : o.own = none := hown
          simp [State.duties, ho, Op.duties, hph, hown, Duties.none]
  | gc =>
      cases hg : s.gc with
      | relocate => exact absurd hg hq.gc
      | _ => simp [State.duties, hg, GcPhase.duties]

/-- What a call finds when it is made. -/
def Call.Meets (c : Core) (a : Actor) : Call → Prop
  | .release p len =>
      ∃ rg, c.ranges p = some rg ∧ rg.len = len ∧ rg.user = a ∧ rg.released = false
  | .invalidate p len =>
      ∃ rg, c.ranges p = some rg ∧ rg.len = len ∧ rg.HeldBy a ∧ rg.valid = true
  | .drain _ => True

theorem CallsOk.meets
    {c : Core} {sec : ReadSection} {todo : List Call} (hok : CallsOk env c sec todo) {x : Call}
    (hx : x ∈ todo) :
  x.Meets c sec.2
  := by
  cases x with
  | release p len =>
      obtain ⟨hh, hrg⟩ := hok.release hx
      exact ⟨_, hrg, rfl, rfl, rfl⟩
  | invalidate p len =>
      obtain ⟨rg, hrg, hlen, hheld⟩ := (hok.invalidate hx).range
      refine ⟨rg, hrg, hlen, hheld, ?_⟩
      obtain hh | hh := hheld <;> simp [GrainRange.valid, hh]
  | drain => trivial

/-- The calls an actor has still to make find what they give up. -/
theorem State.Inv.meets
    (h : s.Inv env) {a : Actor} {x : Call} (hx : x ∈ (s.duties a).todo) :
  x.Meets s.core a
  := by
  obtain ⟨sec, -, hactor, hok⟩ := (h.duties_ok a).2 x hx
  rw [← hactor]
  exact hok.meets hx

/-- The accounts of grains are exact.  In every state a run reaches, a call to release a range finds
it handed to the caller and not released, and a call to invalidate a range finds it valid and held
by the caller; a step makes no range whole again and forgets a range only when it is released and
invalidated; and when no operation is in progress every range has been released, and in every
segment the grains allocated are those invalidated and those of the entries.  So a victim for which
`gc_callback` returns has no valid grain.  The entries fit their words, which they do where every
grain can be addressed (`Geometry.Addressable`). -/
theorem grains_balance
    {s₀ : State} (hopen : Opened env s₀)
    (hreach : Transition.Reach (State.step env) (fun _ _ => True) s₀ s) :
  (∀ a x todo, (s.duties a).todo = x :: todo → x.Meets s.core a)
    ∧ (∀ b s', s.step env b = some s' → RangesKept s.core s'.core)
    ∧ (s.Quiescent → (∀ p rg, s.core.ranges p = some rg → rg.released = true)
      ∧ ∀ seg, s.core.allocatedGrains env.geo seg
        = s.core.invalidatedGrains env.geo seg + s.core.directoryGrains env.geo seg)
    ∧ ∀ v waits, s.core.phase v = .syncing waits → s.core.ended waits = true →
      ∀ p rg, env.geo.segOf p = v → s.core.ranges p = some rg → rg.valid = false
  := by
  have h := hopen.reach hreach
  have hl := hopen.ledger_of_reach hreach
  refine ⟨?_, ?_, ?_, ?_⟩
  · intro a x todo hd
    apply h.meets
    rw [hd]
    apply List.mem_cons_self
  · intro b s' hs
    apply h.rangesKept hl hs
  · intro hq
    constructor
    · intro p rg hrg
      cases hrel : rg.released with
      | true => rfl
      | false =>
          have hmem := hl.unreleased hrg hrel
          rw [hq.duties h] at hmem
          cases hmem
    · intro seg
      rw [Core.allocatedGrains_eq, h.core.valid_eq_directory]
      intro p rg hrg hvalid
      have hnot : ∀ {a}, ¬ rg.HeldBy a := by
        intro a hheld
        have hmem := hl.held hrg hheld
        rw [hq.duties h] at hmem
        cases hmem
      cases hh : rg.holder with
      | nobody => simp [GrainRange.valid, hh] at hvalid
      | writer a => exact absurd (.inl hh) (hnot (a := a))
      | remover a => exact absurd (.inr hh) (hnot (a := a))
      | entry => apply hl.entry hrg hh
  · intro v waits hph hend p rg hp hrg
    apply (h.invalid_of_ended hl hph hend hp hrg).2

end

/-- A small store in which a key was put twice.  The second put has invalidated the range of the
first, and is about to release its own. -/
def smallTwice : State :=
  .after .small (stampActs 0 .data ++ putActs 0 0 [2] [1] ++ [.op 0 (.commit false), .op 0 .call,
    .op 0 .call, .start 1 (.put .upsert none [3]) [1], .op 1 (.allocate 0), .op 1 .loadTimestamp,
    .op 1 .writeRecord, .op 1 .loadSnapshot, .op 1 (.lookup (some 0)), .op 1 .read,
    .op 1 .loadSnapshot, .op 1 (.lookup none), .op 1 (.commit false), .op 1 .call])

theorem smallTwice_release :
    (smallTwice.duties (.op 1)).todo = [.release 1 1]
      ∧ (∃ rg, smallTwice.core.ranges 1 = some rg ∧ rg.len = 1 ∧ rg.user = .op 1
        ∧ rg.released = false)
      ∧ smallTwice.core.allocatedGrains StoreEnv.small.geo 0 = 2
      ∧ smallTwice.core.invalidatedGrains StoreEnv.small.geo 0 = 1 := by
  have hreach : Transition.Reach (State.step .small) (fun _ _ => True) (.fresh 0) smallTwice :=
    State.after_reach (by decide +kernel) (fun _ _ _ => trivial)
  have htodo : (smallTwice.duties (.op 1)).todo = [.release 1 1] := by decide +kernel
  exact ⟨htodo, (grains_balance (State.fresh_opened .small) hreach).1 _ _ _ htodo,
    by decide +kernel, by decide +kernel⟩

end UDepot
