import UDepot.Store.Segments
import UDepot.Store.Entries

/-!
# Operations keep the invariants

What holds of an operation between its steps (`OpInv`): the range it was handed is its own and
holds the record it wrote, the addresses it loaded in its read section are of records that stay
there, and what its probe recorded of them is right.  None of this is disturbed by a step of
another actor, and each step of the operation itself establishes it for the next.
-/

namespace UDepot

/-! ### Calls of salsa to be made -/

def Call.invalidated : Call → Option Nat
  | .invalidate p _ => some p
  | _ => none

def Call.released : Call → Option Nat
  | .release p _ => some p
  | _ => none

/-- The calls an actor still has to make, in its read section: it holds what they give up, and
gives nothing up twice. -/
structure CallsOk (env : StoreEnv) (c : Core) (s : ReadSection) (todo : List Call) : Prop where
  invalidate : ∀ {p len}, .invalidate p len ∈ todo → ToInvalidate env c s p len
  release : ∀ {p len}, .release p len ∈ todo → Unreleased c s.2 p len
  invalidateOnce : (todo.filterMap Call.invalidated).Nodup
  releaseOnce : (todo.filterMap Call.released).Nodup

section

variable {env : StoreEnv} {c c' : Core} {s : ReadSection}

theorem CallsOk.nil : CallsOk env c s [] where
  invalidate := fun hp => nomatch hp
  release := fun hp => nomatch hp
  invalidateOnce := List.nodup_nil
  releaseOnce := List.nodup_nil

theorem CallsOk.of_tokens
    {todo : List Call} (hc : CallsOk env c s todo) (hs : s ∈ c.sections)
    (ht : Tokens env c c' s.2) :
  CallsOk env c' s todo
  where
  invalidate := fun hp => ht.toInvalidate s hs rfl (hc.invalidate hp)
  release := fun hp => ht.unreleased (hc.release hp)
  invalidateOnce := hc.invalidateOnce
  releaseOnce := hc.releaseOnce

theorem filterMap_drains
    {more : List Call} (hmore : ∀ x ∈ more, ∃ stream, x = .drain stream) :
  more.filterMap Call.invalidated = [] ∧ more.filterMap Call.released = []
  := by
  simp only [List.filterMap_eq_nil_iff]
  constructor
  all_goals
    intro x hx
    obtain ⟨stream, rfl⟩ := hmore x hx
    rfl

/-- The actor only drains streams. -/
theorem CallsOk.drains {more : List Call} (hmore : ∀ x ∈ more, ∃ stream, x = .drain stream) :
    CallsOk env c s more := by
  have hnone := filterMap_drains hmore
  constructor
  · intro p len hp
    obtain ⟨stream, hx⟩ := hmore _ hp
    cases hx
  · intro p len hp
    obtain ⟨stream, hx⟩ := hmore _ hp
    cases hx
  · rw [hnone.1]
    apply List.nodup_nil
  · rw [hnone.2]
    apply List.nodup_nil

/-- The actor gives back a range of its own, and then drains streams. -/
theorem CallsOk.giveBack
    (h : c.Inv env) {p len : Nat} (ho : Owned c s.2 p len) {more : List Call}
    (hmore : ∀ x ∈ more, ∃ stream, x = .drain stream) :
  CallsOk env c s ([.invalidate p len, .release p len] ++ more)
  := by
  have hnone := filterMap_drains hmore
  constructor
  · intro q len' hq
    simp only [List.cons_append, List.nil_append, List.mem_cons, Call.invalidate.injEq,
      reduceCtorEq, false_or] at hq
    obtain ⟨rfl, rfl⟩ | hq := hq
    · refine ⟨⟨_, ho, rfl, .inl rfl⟩, ?_⟩
      apply SegPhase.keeps_of_inUse
      apply SegPhase.inUse_of_writable (h.ranges.unreleased ho rfl)
    · obtain ⟨stream, hx⟩ := hmore _ hq
      cases hx
  · intro q len' hq
    simp only [List.cons_append, List.nil_append, List.mem_cons, Call.release.injEq,
      reduceCtorEq, false_or] at hq
    obtain ⟨rfl, rfl⟩ | hq := hq
    · exact ⟨_, ho⟩
    · obtain ⟨stream, hx⟩ := hmore _ hq
      cases hx
  · rw [List.filterMap_append, hnone.1]
    simp [List.filterMap_cons, Call.invalidated]
  · rw [List.filterMap_append, hnone.2]
    simp [List.filterMap_cons, Call.released]

/-- A call is made and the rest can still be. -/
theorem CallsOk.step
    {x : Call} {todo : List Call} (hc : CallsOk env c s (x :: todo)) (h : c.Inv env)
    (hs : s ∈ c.sections) (lock : Option Nat) :
  Frame env c (c.call x) lock (some s.2) ∧ CallsOk env (c.call x) s todo
  := by
  have hinv : ∀ {p len}, .invalidate p len ∈ todo → ToInvalidate env c s p len :=
    fun hp => hc.invalidate (List.mem_cons_of_mem x hp)
  have hrel : ∀ {p len}, .release p len ∈ todo → Unreleased c s.2 p len :=
    fun hp => hc.release (List.mem_cons_of_mem x hp)
  have honce := hc.invalidateOnce
  have honce' := hc.releaseOnce
  cases x with
  | invalidate p len =>
      simp only [List.filterMap_cons, Call.invalidated, Call.released,
        List.nodup_cons] at honce honce'
      use h.invalidate (hc.invalidate List.mem_cons_self) lock
      refine ⟨?_, ?_, honce.2, honce'⟩
      · intro q len' hq
        have hne : q ≠ p := by
          rintro rfl
          exact honce.1 (List.mem_filterMap.mpr ⟨_, hq, rfl⟩)
        refine ⟨?_, (hinv hq).keeps⟩
        simp only [Core.call, Core.invalidate, Core.give, Core.mapRange,
          Function.update_of_ne hne]
        apply (hinv hq).range
      · intro q len' hq
        obtain ⟨hh, hu⟩ := hrel hq
        by_cases hqp : q = p
        · use .nobody
          subst hqp
          apply Core.Inv.give_self .nobody hu
        · use hh
          simp only [Core.call, Core.invalidate, Core.give, Core.mapRange,
            Function.update_of_ne hqp]
          apply hu
  | release p len =>
      simp only [List.filterMap_cons, Call.invalidated, Call.released,
        List.nodup_cons] at honce honce'
      use h.release (hc.release List.mem_cons_self) lock
      refine ⟨?_, ?_, honce, honce'.2⟩
      · intro q len' hq
        obtain ⟨rg, hrg, hlen, hheld⟩ := (hinv hq).range
        refine ⟨?_, (hinv hq).keeps⟩
        obtain ⟨rg', hrg', ⟨-, rfl⟩ | ⟨-, rfl⟩⟩ := RangeStep.exists_after (p := p)
          (f := fun r => { r with released := true }) hrg
        · exact ⟨_, hrg', hlen, hheld⟩
        · exact ⟨_, hrg', hlen, hheld⟩
      · intro q len' hq
        obtain ⟨hh, hu⟩ := hrel hq
        have hne : q ≠ p := by
          rintro rfl
          exact honce'.1 (List.mem_filterMap.mpr ⟨_, hq, rfl⟩)
        use hh
        simp only [Core.call, Core.release, Core.mapRange, Function.update_of_ne hne]
        apply hu
  | drain stream =>
      have hframe : Frame env c (c.drain stream) lock none := h.closeWhere _ lock none
      use h.closeWhere _ lock (some s.2)
      have hrest : CallsOk env c s todo := ⟨hinv, hrel, honce, honce'⟩
      apply hrest.of_tokens hs (hframe.tokens s.2 (by simp))

end

/-! ### The invariant of an operation -/

namespace OpPhase

/-- The operation is in its read section. -/
def active : OpPhase → Bool
  | .spaceWait | .growWait | .done _ _ => false
  | _ => true

/-- The operation is about to write its record. -/
def writes : OpPhase → Bool
  | .alloc | .spaceWait | .stamp | .write _ => true
  | _ => false

end OpPhase

/-- The record an operation writes. -/
def Op.record (env : StoreEnv) (o : Op) (ts : Nat) : Rec := ⟨o.key, ts, o.value, o.grains env⟩

/-- A put is small enough for its entry. -/
theorem Op.grains_le_of_value
    {env : StoreEnv} {o : Op} (hadm : admitted env o.kind o.key = true)
    (hval : o.value.isSome = true) :
  o.grains env ≤ kKvSizeMask ∧ o.kind ≠ .get
  := by
  rw [Op.value] at hval
  rw [Op.grains]
  cases hk : o.kind with
  | put mode iv value =>
      simp only [hk, admitted, Bool.and_eq_true, decide_eq_true_eq] at hadm
      exact ⟨hadm.2.2, by simp⟩
  | del | get =>
      rw [hk] at hval
      cases hval

/-- What an operation's phase says. -/
def Op.PhaseOk (env : StoreEnv) (c : Core) (o : Op) : OpPhase → Prop
  | .alloc | .spaceWait | .done _ _ => o.own = none
  | .stamp => True
  | .write ts => ∀ p, o.own = some p → ts = c.segTimestamps (env.geo.segOf p)
  | .look gen => SnapLoaded env c o.sec gen
  | .verify e => ∃ r, (e.pba, r) ∈ o.loaded ∧ e = (env.item r e.pba).2
  | .calls todo _ => o.own = none ∧ CallsOk env c o.sec todo
  | .version p value =>
      o.own = none ∧ ∃ r, (p, r) ∈ o.loaded ∧ r.key = o.key ∧ r.value = some value
  | .probe | .commit | .growWait => True

/-- What an operation has seen in its read section. -/
structure OpView (env : StoreEnv) (c : Core) (i : Nat) (o : Op) : Prop where
  admitted : admitted env o.kind o.key = true
  sec : o.sec.2 = .op i
  loaded : ∀ {p r}, (p, r) ∈ o.loaded → Loaded env c o.sec p r
  seen : ∀ {s}, s ∈ o.probe → ∃ r, (s.pba, r) ∈ o.loaded ∧ (s.isMatch = true ↔ r.key = o.key)

structure OpInv (env : StoreEnv) (c : Core) (i : Nat) (o : Op) : Prop extends
    OpView env c i o where
  own : ∀ {p}, o.own = some p → Owned c (.op i) p (o.grains env)
    ∧ c.segMdOk (env.geo.segOf p) = true ∧ o.grains env ≤ kKvSizeMask ∧ o.kind ≠ .get
  active : o.phase.active = true → o.sec ∈ c.sections
  idle : o.phase.active = false → o.loaded = []
  small : o.phase.writes = true → o.grains env ≤ kKvSizeMask ∧ o.kind ≠ .get
  written : o.phase.writes = false → ∀ {p}, o.own = some p →
    c.recs p = some (o.record env (c.segTimestamps (env.geo.segOf p)))
  phaseOk : o.PhaseOk env c o.phase

section

variable {env : StoreEnv} {c c' : Core} {lock : Option Nat} {i : Nat} {o : Op}

/-- A step of another actor does not disturb an operation. -/
theorem OpInv.of_frame
    (ho : OpInv env c i o) {b : Option Actor} (hf : Frame env c c' lock b)
    (hb : b ≠ some (.op i)) :
  OpInv env c' i o
  := by
  have ht := hf.tokens (.op i) hb
  have hsec : o.phase.active = true → o.sec ∈ c'.sections :=
    fun ha => ht.sections o.sec (ho.active ha) ho.sec
  constructor
  · refine ⟨ho.admitted, ho.sec, ?_, ho.seen⟩
    intro p r hl
    cases ha : o.phase.active with
    | true => apply hf.loaded o.sec (ho.active ha) (ho.loaded hl)
    | false =>
        rw [ho.idle ha] at hl
        cases hl
  · intro p hp
    obtain ⟨hown, hok, hrest⟩ := ho.own hp
    exact ⟨ht.owned hown, (ht.arrays hown).2.trans hok, hrest⟩
  · exact hsec
  · apply ho.idle
  · apply ho.small
  · intro hw p hp
    obtain ⟨hown, -⟩ := ho.own hp
    rw [(ht.arrays hown).1]
    apply ht.written hown (ho.written hw hp)
  · have hph := ho.phaseOk
    cases hphase : o.phase with
    | alloc | spaceWait | stamp | probe | verify | commit | growWait | version | done =>
        rw [hphase] at hph
        apply hph
    | write ts =>
        rw [hphase] at hph
        intro p hp
        rw [(ht.arrays (ho.own hp).1).1]
        apply hph p hp
    | look gen =>
        rw [hphase] at hph
        apply hf.snaps o.sec (ho.active (by rw [hphase]; rfl)) hph
    | calls todo next =>
        rw [hphase] at hph
        use hph.1
        apply hph.2.of_tokens (ho.active (by rw [hphase]; rfl))
        rw [ho.sec]
        apply ht

/-! ### Steps of an operation -/

/-- A step of the operation itself leaves what it has seen. -/
theorem OpView.of_frame
    (hv : OpView env c i o) {b : Option Actor} (hf : Frame env c c' lock b)
    (hs : o.sec ∈ c.sections) :
  OpView env c' i o
  where
  admitted := hv.admitted
  sec := hv.sec
  loaded := fun hl => hf.loaded o.sec hs (hv.loaded hl)
  seen := hv.seen

/-- An operation has nothing left but calls to make. -/
theorem OpView.calls
    (hv : OpView env c i o) (hs : o.sec ∈ c.sections) {todo : List Call}
    (hc : CallsOk env c o.sec todo) (next : Next) :
  OpInv env c i { o with own := none, phase := .calls todo next }
  where
  admitted := hv.admitted
  sec := hv.sec
  loaded := hv.loaded
  seen := hv.seen
  own := fun hp => nomatch hp
  active := fun _ => hs
  idle := fun ha => nomatch ha
  small := fun hw => nomatch hw
  written := fun _ _ hp => nomatch hp
  phaseOk := ⟨rfl, hc⟩

/-- An operation gives back what it was handed. -/
theorem OpView.giveBack
    (hv : OpView env c i o) (h : c.Inv env) (hs : o.sec ∈ c.sections)
    (hown : ∀ {p}, o.own = some p → Owned c (.op i) p (o.grains env)) {more : List Call}
    (hmore : ∀ x ∈ more, ∃ stream, x = .drain stream) (next : Next) :
  OpInv env c i (o.giveBack env more next)
  := by
  apply hv.calls hs
  cases ho : o.own with
  | none => exact CallsOk.drains hmore
  | some p => exact CallsOk.giveBack h (hv.sec ▸ hown ho) hmore

/-- An operation that leaves its read section. -/
theorem OpInv.leave
    (ho : OpInv env c i o) (h : c.Inv env) (lock : Option Nat) (phase : OpPhase)
    (hactive : phase.active = false)
    (hsmall : phase.writes = true → o.own = none ∧ o.grains env ≤ kKvSizeMask ∧ o.kind ≠ .get)
    (hwritten : phase.writes = false → o.own = none ∨ o.phase.writes = false)
    (hdone : o.PhaseOk env c phase) :
  Frame env c (c.leave o.sec) lock (some (.op i))
    ∧ OpInv env (c.leave o.sec) i (o.unprotected phase)
  := by
  constructor
  · rw [← ho.sec]
    apply h.leave
  · constructor
    · exact ⟨ho.admitted, ho.sec, (fun hl => nomatch hl), (fun hl => nomatch hl)⟩
    · exact ho.own
    · intro ha
      exact absurd (hactive.symm.trans ha) (by simp)
    · intro _
      rfl
    · intro hw
      exact (hsmall hw).2
    · intro hw p hp
      obtain hnone | hold := hwritten hw
      · rw [show o.own = some p from hp] at hnone
        cases hnone
      · apply ho.written hold hp
    · cases phase with
      | spaceWait | growWait | done => apply hdone
      | _ => cases hactive

/-- An operation that comes back into a read section has seen nothing there yet. -/
theorem OpInv.reenter (ho : OpInv env c i o) (hidle : o.phase.active = false) :
    OpView env (c.enter (.op i)).1 i { o with sec := (c.enter (.op i)).2 } where
  admitted := ho.admitted
  sec := rfl
  loaded := fun hl => by
    simp only [ho.idle hidle] at hl
    cases hl
  seen := ho.seen

/-- An operation goes on after a wait. -/
theorem OpInv.resume
    (ho : OpInv env c i o) {phase : OpPhase} (hidle : o.phase.active = false)
    (hactive : phase.active = true) (hwrites : phase.writes = o.phase.writes)
    (hphase : Op.PhaseOk env (c.enter (.op i)).1
      { o with sec := (c.enter (.op i)).2, phase } phase) :
  OpInv env (c.enter (.op i)).1 i { o with sec := (c.enter (.op i)).2, phase }
  := by
  have hv := ho.reenter hidle
  constructor
  · exact ⟨hv.admitted, hv.sec, hv.loaded, hv.seen⟩
  · exact ho.own
  · intro _
    apply List.mem_cons_self
  · intro ha
    exact absurd (hactive.symm.trans ha) (by simp)
  · intro hw
    apply ho.small (hwrites ▸ hw)
  · intro hw p hp
    apply ho.written (hwrites ▸ hw) hp
  · apply hphase

end

end UDepot
