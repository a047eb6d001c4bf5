import UDepot.Store.Advance
import UDepot.Store.Linear

/-!
# A write that runs alone

`Solo` is a store with the counts of one of its operations.  From any state of a run on, in which
the operation may be anywhere and may have any probe, it runs while nobody else works on the store
and nothing fails; salsa goes on staging segments for it.  Then two passes settle the probe, the
second record is committed, and the operation returns.
-/

namespace UDepot

open Transition

structure Solo where
  state : State
  counts : Counts

/-- An operation begins to count, with the cursor of its pass somewhere.  The pass it is in counts
if it is at its beginning. -/
def Solo.begin (s : State) (i start : Nat) : Solo where
  state := s
  counts := {
    start := start
    passes := if (s.ops i).map Op.phase = some .probe ∧ start = 0 then 1 else 0
    writes := 0
    rewrites := 0
  }

/-- What a step of the store that leads the operation to a phase adds. -/
def Counts.noteAct (k : Counts) : Act → Option OpPhase → Counts
  | .op _ b, some phase => k.note b phase
  | _, _ => k

def Solo.step (env : StoreEnv) (i : Nat) (m : Solo) (a : Act) : Option Solo :=
  (m.state.step env a).map fun s' => ⟨s', m.counts.noteAct a ((s'.ops i).map Op.phase)⟩

/-- The steps there are while an operation runs alone: its own, and those of salsa. -/
def Solo.Ok (env : StoreEnv) (i : Nat) (m : Solo) : Act → Prop
  | .op j a => j = i ∧ ∀ o, m.state.ops i = some o → o.Goes env m.state.core m.counts.start a
  | .start _ _ _ | .gc _ | .growFreeze | .growPublish => False
  | .writeSegMd _ res => res = .ok
  | a => SalsaOk m.state a

def Act.ofOp : Act → Bool
  | .op _ _ => true
  | _ => false

/-- The operation has returned. -/
def Solo.Returned (i : Nat) (m : Solo) : Prop :=
  ∃ o rc res, m.state.ops i = some o ∧ o.phase = .done rc res

/-- The calls the operation has yet to make. -/
def OpPhase.todo : OpPhase → List Call
  | .calls todo _ => todo
  | _ => []

/-- Nobody but the operation is at work: no relocation and no grow, and no segment is being stamped
unless the operation waits for it.  The table of its key has room. -/
structure State.Alone (env : StoreEnv) (s : State) (o : Op) : Prop where
  lock : s.gc.locked env = none
  unfrozen : s.core.curSnap.frozen = false
  room : ∀ pba, (s.core.curSnap.insertLocked (env.hashKey o.key) (o.kvSize env) pba).1 = true
  stamped : o.phase.allocates = false →
    ∀ seg count stage, s.core.phase seg ≠ .stamping .data count stage

/-! ### The invariant -/

/-- What holds of an operation that has yet to be committed. -/
structure Op.Works (env : StoreEnv) (c : Core) (o : Op) (k : Counts) : Prop where
  unfrozen : c.curSnap.frozen = false
  room : ∀ pba, (c.curSnap.insertLocked (env.hashKey o.key) (o.kvSize env) pba).1 = true
  stamps : o.phase.allocates = false → c.StampsNewer env o.key
  fresh : k.rewrites = 0 ∨ o.Fresh env c
  passes : k.passes + o.passesLeft env c k.start ≤ 2

structure Op.Runs (env : StoreEnv) (c : Core) (o : Op) (k : Counts) : Prop where
  kind : o.kind ≠ .get
  holds : o.Holds
  passes : k.passes ≤ 2
  rewrites : k.rewrites ≤ 1
  writes : k.writes ≤ k.rewrites + o.wrote.toNat
  works : o.phase.returns = false → o.Works env c k

structure Solo.Inv (env : StoreEnv) (i : Nat) (m : Solo) : Prop where
  inv : m.state.Inv env
  staging : m.state.core.Staging env.geo
  lock : m.state.gc.locked env = none
  op : ∃ o, m.state.ops i = some o ∧ o.Runs env m.state.core m.counts

section

variable {env : StoreEnv} {c c' : Core} {i : Nat} {o o' : Op} {k k' : Counts} {a : OpAct}

/-- A step up to the commit. -/
theorem Op.Works.step
    (h : o.Works env c k) (hadv : o.Advances env c i k c' o' k') (hget : o.kind ≠ .get)
    (hkept : o'.kind = o.kind ∧ o'.key = o.key) (ho : OpInv env c i o)
    (hsteady : Steady env c c' o.key) (hstaging : c.Staging env.geo)
    (hstaging' : c'.Staging env.geo) (hret : o'.phase.returns = false) :
  o'.Works env c' k'
  := by
  obtain ⟨hsnaps, hcur⟩ := hadv.calm hret
  have hcurSnap : c'.curSnap = c.curSnap := by rw [Core.curSnap, Core.curSnap, hsnaps, hcur]
  have hsize : o'.kvSize env = o.kvSize env := by
    rw [Op.kvSize, Op.kvSize, Op.value, Op.value, Op.grains, Op.grains, hkept.1, hkept.2]
  refine ⟨?_, ?_, ?_, ?_, ?_⟩
  · rw [hcurSnap]
    apply h.unfrozen
  · rw [hcurSnap, hsize, hkept.2]
    apply h.room
  · intro hall
    rw [hkept.2]
    exact hadv.stamps hsteady hstaging' h.stamps hall hret
  · exact hadv.fresh h.fresh ho hsteady hstaging h.stamps
  · rw [Op.passesLeft_congr hsnaps hcur]
    exact hadv.passes hget h.passes

/-- A step on the way from the commit to the return. -/
theorem Op.Runs.step_returns
    (h : o.Runs env c k) (hret : o.phase.returns = true)
    (hs : o.step env none c i a = some (c', o')) :
  o'.phase.returns = true ∧ k.note a o'.phase = { k with start := 0, passes := 1 }
    ∧ o'.rank (k.note a o'.phase) < o.rank k
  := by
  have hnot : ∀ {ph}, o.phase = ph → ph.returns = true := by
    rintro ph rfl
    exact hret
  cases Op.steps_of_step hs with
  | @call x todo next hph =>
      cases next with
      | again => cases hnot hph
      | ret rc =>
          refine ⟨rfl, rfl, ?_⟩
          simp only [Op.rank, hph, List.length_cons]
          omega
  | returns hph =>
      refine ⟨rfl, rfl, ?_⟩
      simp only [Op.rank, Op.unprotected, hph]
      omega
  | loadVersion hph =>
      have hget := h.holds
      rw [Op.Holds, hph] at hget
      exact absurd hget h.kind
  | allocate hph | allocateBad hph | allocAgain hph | allocFails hph | resumeAlloc hph
  | tombFails hph | loadTimestamp hph | writeRecord hph | writeFails _ hph | loadSnapshot hph
  | lookupEnd hph | lookup hph | readGet hph | readKey hph | bufferFails hph | readFails hph
  | frozen hph | unsettled hph | commit hph | commitStale hph | resumeProbe hph | growFails hph
  | again hph => cases hnot hph

/-- A step of the operation. -/
theorem Op.Runs.step
    (h : o.Runs env c k) (hinv : c.Inv env) (ho : OpInv env c i o) (hstaging : c.Staging env.geo)
    (hgoes : o.Goes env c k.start a) (hs : o.step env none c i a = some (c', o')) :
  o'.Runs env c' (k.note a o'.phase) ∧ o'.rank (k.note a o'.phase) < o.rank k
  := by
  have hsteps := Op.steps_of_step hs
  have hkept := hsteps.kept
  have hkind : o'.kind ≠ .get := by
    rw [hkept.1]
    apply h.kind
  cases hret : o.phase.returns with
  | true =>
      obtain ⟨hret', hnote, hrank⟩ := h.step_returns hret hs
      refine ⟨?_, hrank⟩
      rw [hnote]
      refine ⟨hkind, h.holds.step hsteps, Nat.le_succ 1, h.rewrites, ?_, ?_⟩
      · have hwrites := h.writes
        rw [Op.wrote, hret] at hwrites
        rw [Op.wrote, hret']
        exact hwrites
      · intro hnot
        cases hret'.symm.trans hnot
  | false =>
      have hworks := h.works hret
      have hadv : o.Advances env c i k c' o' (k.note a o'.phase) :=
        Op.advances_of_step hinv ho hworks.unfrozen hworks.room h.kind hret hgoes hs
      have hpasses := Nat.le_of_add_right_le (hadv.passes h.kind hworks.passes)
      have hrewrites := hadv.rewrites hworks.fresh h.rewrites
      refine ⟨⟨hkind, h.holds.step hsteps, hpasses, hrewrites, hadv.writes h.writes, ?_⟩,
        hadv.rank_lt hpasses hrewrites⟩
      intro hret'
      have hop := ho.step hinv hs
      have hnone := hsteps.noneStaged hinv
      rcases hop.effect with hq | ⟨p, old, -, -, rfl, -⟩
      · have hsteady : Steady env c c' o.key := .of_quiet hinv hop.frame hq hnone.ages
        exact hworks.step hadv h.kind hkept ho hsteady hstaging (hstaging.step hnone) hret'
      · cases hret'

/-- A step of salsa. -/
theorem Op.Runs.salsa
    (h : o.Runs env c k) (ho : OpInv env c i o) (hsteady : Steady env c c' o.key)
    (hsnaps : c'.snaps = c.snaps) (hcur : c'.cur = c.cur) :
  o.Runs env c' k
  := by
  refine { h with works := fun hret => ?_ }
  have hworks := h.works hret
  have hcurSnap : c'.curSnap = c.curSnap := by rw [Core.curSnap, Core.curSnap, hsnaps, hcur]
  refine ⟨?_, ?_, ?_, ?_, ?_⟩
  · rw [hcurSnap]
    apply hworks.unfrozen
  · rw [hcurSnap]
    apply hworks.room
  · exact fun hall => (hworks.stamps hall).step hsteady
  · exact hworks.fresh.imp_right fun hfresh => hfresh.step hsteady ho
  · rw [Op.passesLeft_congr hsnaps hcur]
    apply hworks.passes

/-- Only a grow changes the directory without an operation or the collector. -/
theorem Core.calm
    {a : Act} (hs : c.envStep env.geo a = some c') (hfreeze : a ≠ .growFreeze)
    (hpublish : a ≠ .growPublish) :
  c'.snaps = c.snaps ∧ c'.cur = c.cur
  := by
  cases Core.envSteps_of_envStep hs with
  | growFreeze => exact absurd rfl hfreeze
  | growPublish => exact absurd rfl hpublish
  | _ => exact ⟨rfl, rfl⟩

theorem Counts.noteAct_of_not_op {a : Act} (h : a.ofOp = false) (phase : Option OpPhase) :
    k.noteAct a phase = k := by
  cases a with
  | op => cases h
  | _ => rfl

theorem Solo.Ok.salsaOk {m : Solo} {a : Act} (h : m.Ok env i a) : SalsaOk m.state a := by
  cases a with
  | takeSegment seg stream => exact h
  | _ => trivial

/-- A step of the operation keeps the invariant and leaves fewer to come. -/
theorem Solo.Inv.step_op
    {m : Solo} {s' : State} (h : m.Inv env i) (ho : m.state.ops i = some o)
    (hruns : o.Runs env m.state.core m.counts) (hgoes : o.Goes env m.state.core m.counts.start a)
    (hstep : o.step env none m.state.core i a = some (c', o')) (hs' : s'.Inv env)
    (hstaging : s'.core.Staging env.geo) (hc' : s'.core = c') (hgc : s'.gc = m.state.gc)
    (ho' : s'.ops i = some o') :
  Solo.Inv env i ⟨s', m.counts.note a o'.phase⟩
    ∧ o'.rank (m.counts.note a o'.phase) < o.rank m.counts
  := by
  subst hc'
  obtain ⟨hruns', hrank⟩ := hruns.step h.inv.core (h.inv.ops ho) h.staging hgoes hstep
  refine ⟨⟨hs', hstaging, ?_, o', ho', hruns'⟩, hrank⟩
  rw [hgc]
  apply h.lock

/-- Every step keeps the invariant, and none leads away from the return. -/
theorem Solo.Inv.step
    {m m' : Solo} {a : Act} (h : m.Inv env i) (hok : m.Ok env i a)
    (hs : m.step env i a = some m') :
  m'.Inv env i ∧ ∀ o o', m.state.ops i = some o → m'.state.ops i = some o' →
    o'.rank m'.counts + (if a.ofOp then 1 else 0) ≤ o.rank m.counts
  := by
  obtain ⟨s', hstep, rfl⟩ := Option.map_eq_some_iff.mp hs
  obtain ⟨o, ho, hruns⟩ := h.op
  have hinv' := (h.inv.step hstep).inv
  have hstaging' := h.staging.of_state_step h.inv hok.salsaOk hstep
  obtain ⟨j, kind, key, rfl, -, -, rfl⟩ | ⟨j, b, o₁, c', o', rfl, ho₁, hop, rfl⟩
    | ⟨b, c', g', rfl, -, rfl⟩ | ⟨c', henv, rfl⟩ := State.step_cases hstep
  · cases hok
  · obtain ⟨rfl, hgoes⟩ := hok
    cases ho.symm.trans ho₁
    rw [h.lock] at hop
    have ho' := Function.update_self j (some o') m.state.ops
    obtain ⟨hm', hrank⟩ := h.step_op ho hruns (hgoes o ho) hop hinv' hstaging' rfl rfl ho'
    simp only [Function.update_self, Option.map_some, Counts.noteAct]
    refine ⟨hm', ?_⟩
    intro o₂ o₂' ho₂ ho₂'
    cases ho.symm.trans ho₂
    obtain rfl := Option.some.inj ho₂'
    exact hrank
  · cases hok
  · have hnot : a.ofOp = false := by
      cases a with
      | op => cases henv
      | _ => rfl
    rw [Counts.noteAct_of_not_op hnot, hnot]
    have hfreeze : a ≠ .growFreeze := by
      rintro rfl
      cases hok
    have hpublish : a ≠ .growPublish := by
      rintro rfl
      cases hok
    obtain ⟨hsnaps, hcur⟩ := Core.calm henv hfreeze hpublish
    obtain ⟨hf, hq⟩ := h.inv.core.envStep henv none
    have hsteady : Steady env m.state.core c' o.key :=
      .of_quiet h.inv.core hf hq (h.inv.core.ages henv)
    refine ⟨⟨hinv', hstaging', h.lock, o, ho, ?_⟩, ?_⟩
    · exact hruns.salsa (h.inv.ops ho) hsteady hsnaps hcur
    · intro o₂ o₂' ho₂ ho₂'
      cases ho₂.symm.trans ho₂'
      apply Nat.le_refl

/-! ### Where the operation begins to count -/

theorem Op.init_holds (kind : OpKind) (key : Bytes) (sec : ReadSection) :
    (Op.init kind key sec).Holds := by
  cases kind with
  | put mode ifVersion value => trivial
  | del ifVersion | get => exact fun hval => nomatch hval

/-- In every run an operation that has a record to write or to commit holds its range. -/
theorem State.holds_of_reach
    {s₀ s : State} {ok : State → Act → Prop} (hopen : Opened env s₀)
    (hr : Reach (State.step env) ok s₀ s) (ho : s.ops i = some o) :
  o.Holds
  := by
  revert i o
  apply hr.invariant (I := fun s => ∀ {i o}, s.ops i = some o → o.Holds)
  · intro i o ho
    rw [hopen.ops] at ho
    cases ho
  · intro s a s' hs _ hstep i o ho
    have hupdate : ∀ {j x}, Function.update s.ops j (some x) i = some o → x.Holds → o.Holds := by
      intro j x hupd hx
      by_cases hij : i = j
      · subst hij
        rw [Function.update_self] at hupd
        cases hupd
        exact hx
      · rw [Function.update_of_ne hij] at hupd
        exact hs hupd
    obtain ⟨j, kind, key, rfl, -, -, rfl⟩ | ⟨j, b, o₁, c', o', rfl, ho₁, hop, rfl⟩
      | ⟨b, c', g', rfl, -, rfl⟩ | ⟨c', -, rfl⟩ := State.step_cases hstep
    · exact hupdate ho (Op.init_holds _ _ _)
    · exact hupdate ho ((hs ho₁).step (Op.steps_of_step hop))
    · exact hs ho
    · exact hs ho

theorem Solo.begin_inv
    {s : State} (hinv : s.Inv env) (hstaging : s.core.Staging env.geo) (ho : s.ops i = some o)
    (hkind : o.kind ≠ .get) (hholds : o.Holds) (halone : s.Alone env o) (start : Nat) :
  (Solo.begin s i start).Inv env i
  := by
  have hpasses : (Solo.begin s i start).counts.passes + o.passesLeft env s.core start ≤ 2 := by
    simp only [Solo.begin, ho, Option.map_some, Option.some.injEq]
    split_ifs with hfirst
    · obtain ⟨hph, rfl⟩ := hfirst
      exact Nat.add_le_add_left (Op.passesLeft_le_one hph) 1
    · rw [Nat.zero_add]
      apply Op.passesLeft_le
  refine ⟨hinv, hstaging, halone.lock, o, ho, hkind, hholds, Nat.le_of_add_right_le hpasses,
    Nat.zero_le 1, Nat.zero_le _, ?_⟩
  intro _
  refine ⟨halone.unfrozen, halone.room, ?_, .inl rfl, hpasses⟩
  intro hall e r _ seg count stage hph
  exact absurd hph (halone.stamped hall seg count stage)

theorem Op.rank_le (hk : k.rewrites = 0) : o.rank k ≤ 1299 + o.phase.todo.length := by
  have htomb : (if o.own.isSome then 0 else 317) ≤ 317 := by
    split_ifs
    · apply Nat.zero_le
    · apply Nat.le_refl
  rw [Op.rank, kHopRange, hk]
  cases hph : o.phase with
  | calls todo next =>
      cases next with
      | ret rc | again =>
          simp only [OpPhase.todo]
          omega
  | _ =>
      simp only
      omega

/-! ### The operation goes on -/

/-- A record that was written can be committed, or rejected. -/
theorem Op.enact_isSome (v : Verdict) (hown : o.own.isSome = true) :
    (o.enact env c i v).isSome = true := by
  obtain ⟨p, hp⟩ := Option.isSome_iff_exists.mp hown
  cases v with
  | refuse rc | needTomb => rfl
  | rewrite e | replace e =>
      rw [Op.enact, hp]
      rfl
  | insert =>
      rw [Op.enact, hp, Option.bind_some]
      split
      · rfl
      · split_ifs
        · rfl
        · rfl

theorem Op.tryCommit_isSome
    (hget : o.kind ≠ .get) (hunfrozen : c.curSnap.frozen = false)
    (hholds : o.value.isSome = true → o.own.isSome = true) (early : Bool) :
  (o.tryCommit env none c i early).isSome = true
  := by
  have hmay : c.mayWrite o.sec early = true := by
    rw [Core.mayWrite, hunfrozen]
    rfl
  simp only [Op.tryCommit, Option.any_none, Bool.false_eq_true, if_false, hmay, Bool.not_true]
  split
  · rfl
  · rw [Op.verdict]
    cases hkind : o.kind with
    | put mode ifVersion value =>
        have hown : o.own.isSome = true := hholds (by rw [Op.value, hkind]; rfl)
        obtain ⟨p, hp⟩ := Option.isSome_iff_exists.mp hown
        simp only [hp, Option.map_some, Option.bind_some]
        apply Op.enact_isSome _ hown
    | del ifVersion =>
        simp only [Option.bind_some]
        cases hown : o.own with
        | some p => exact Op.enact_isSome _ (by rw [hown]; rfl)
        | none =>
            rw [delVerdict]
            split
            · rfl
            · split_ifs
              · rfl
              · rfl
    | get => exact absurd hkind hget

/-- Unless the operation has returned or waits for an allocation it can make a step. -/
theorem Op.Runs.enabled (h : o.Runs env c k) (i : Nat) :
    (∃ rc res, o.phase = .done rc res) ∨ o.phase = .alloc
      ∨ ∃ b, o.Goes env c k.start b ∧ (o.step env none c i b).isSome = true := by
  have hholds := h.holds
  rw [Op.Holds] at hholds
  cases hph : o.phase with
  | alloc => exact .inr (.inl rfl)
  | done rc res => exact .inl ⟨rc, res, rfl⟩
  | spaceWait | growWait =>
      right
      right
      use .resume, trivial
      simp only [Op.step, hph, Option.isSome_some]
  | stamp =>
      rw [hph] at hholds
      right
      right
      use .loadTimestamp, trivial
      simp only [Op.step, hph, Option.isSome_map, hholds]
  | write ts =>
      rw [hph] at hholds
      right
      right
      use .writeRecord, trivial
      simp only [Op.step, hph, Option.isSome_map, hholds]
  | probe =>
      right
      right
      use .loadSnapshot, trivial
      simp only [Op.step, hph, Option.isSome_some]
  | look gen =>
      right
      right
      refine ⟨.lookup ((((c.snaps gen).tableForHash (env.hashKey o.key)).lookup
        (env.hashKey o.key) k.start true).map (·.offset)), ?_, ?_⟩
      · intro gen' hgen'
        cases hph.symm.trans hgen'
        rfl
      · cases hl : ((c.snaps gen).tableForHash (env.hashKey o.key)).lookup
            (env.hashKey o.key) k.start true with
        | none => simp only [Op.step, hph, Option.map_none, Option.isSome_some]
        | some e =>
            have hmatch := (HashTable.lookup_eq_some hl).2.2.1
            simp only [Op.step, hph, Option.map_some, ne_eq, h.kind, not_false_eq_true, decide_true,
              hmatch, Option.isSome_some]
  | verify e =>
      right
      right
      use .read, trivial
      simp only [Op.step, hph, h.kind, if_false, Option.isSome_some]
  | commit =>
      rw [hph] at hholds
      right
      right
      use .commit true, trivial
      simp only [Op.step, hph]
      apply Op.tryCommit_isSome h.kind (h.works (by rw [hph]; rfl)).unfrozen hholds
  | calls todo next =>
      right
      right
      use .call, trivial
      cases todo with
      | nil => cases next <;> simp only [Op.step, hph, Option.isSome_some]
      | cons x todo => simp only [Op.step, hph, Option.isSome_some]
  | version pba value =>
      rw [hph] at hholds
      exact absurd hholds h.kind

/-! ### The operation returns -/

/-- An operation that has returned makes no more steps. -/
theorem Solo.Returned.step
    {m m' : Solo} {a : Act} (h : m.Returned i) (hs : m.step env i a = some m') :
  m'.Returned i
  := by
  obtain ⟨o, rc, res, ho, hph⟩ := h
  obtain ⟨s', hstep, rfl⟩ := Option.map_eq_some_iff.mp hs
  obtain ⟨j, kind, key, rfl, hnone, -, rfl⟩ | ⟨j, b, o₁, c', o', rfl, ho₁, hop, rfl⟩
    | ⟨b, c', g', rfl, -, rfl⟩ | ⟨c', -, rfl⟩ := State.step_cases hstep
  · have hne : i ≠ j := by
      rintro rfl
      rw [ho] at hnone
      cases hnone
    exact ⟨o, rc, res, by simp only [Function.update_of_ne hne, ho], hph⟩
  · have hne : i ≠ j := by
      rintro rfl
      cases ho.symm.trans ho₁
      rw [Op.step_done hph] at hop
      cases hop
    exact ⟨o, rc, res, by simp only [Function.update_of_ne hne, ho], hph⟩
  · exact ⟨o, rc, res, ho, hph⟩
  · exact ⟨o, rc, res, ho, hph⟩

/-- The steps the operation has yet to make. -/
def Solo.rank (i : Nat) (m : Solo) : Nat := (m.state.ops i).elim 0 fun o => o.rank m.counts

theorem Solo.returned_of_path
    {m m' : Solo} {as : List Act} (hm : m.Inv env i)
    (hp : Path (Solo.step env i) (Solo.Ok env i) m as m') (hle : m.rank i < as.countP Act.ofOp) :
  m'.Returned i
  := by
  apply hp.met (I := Solo.Inv env i) (r := fun m => m.rank i + 1) (p := Act.ofOp) hm
  · intro m₁ a m₂ h hok hs
    exact (h.step hok hs).1
  · intro m₁ a m₂ h hs
    exact h.step hs
  · intro m₁
    apply Nat.succ_pos
  · intro m₁ a m₂ h hok hs _
    right
    obtain ⟨h', hrank⟩ := h.step hok hs
    obtain ⟨o, ho, -⟩ := h.op
    obtain ⟨o', ho', -⟩ := h'.op
    have hlow := hrank o o' ho ho'
    simp only [Solo.rank, ho, ho', Option.elim_some]
    omega
  · exact .inr hle

/-- A record that was written after another was rejected is newer than the entry. -/
theorem Op.Runs.newer
    {p : Nat} (h : o.Runs env c k) (ho : OpInv env c i o) (hk : k.rewrites = 1)
    (hown : o.own = some p) :
  c.NewerThanEntry env o.key p
  := by
  have hnone : ∀ {ph}, o.phase = ph → o.PhaseOk env c ph := by
    rintro ph rfl
    exact ho.phaseOk
  have hfresh : o.phase.returns = false → o.Fresh env c := by
    intro hret
    rcases (h.works hret).fresh with hzero | hfresh
    · rw [hzero] at hk
      cases hk
    · exact hfresh
  rw [Op.Fresh] at hfresh
  cases hph : o.phase with
  | calls todo next =>
      have hcalls := hnone hph
      cases hown.symm.trans hcalls.1
  | version pba value =>
      have hversion := hnone hph
      cases hown.symm.trans hversion.1
  | done rc res =>
      have hdone := hnone hph
      cases hown.symm.trans hdone
  | _ =>
      rw [hph, hown] at hfresh
      exact hfresh rfl

end

/-- A write that runs alone returns: it writes two records at most, of which one is rejected at
most, since the second is newer than the entry, and makes two passes at most for each; and whatever
a probe holds, two passes settle it.  The entries fit their words, which they do where every grain
can be addressed (`Geometry.Addressable`). -/
theorem alone_returns
    {env : StoreEnv} {s₀ s : State} {i : Nat} {o : Op} (hopen : Opened env s₀)
    (hr : Reach (State.step env) SalsaOk s₀ s) (ho : s.ops i = some o) (hkind : o.kind ≠ .get)
    (halone : s.Alone env o) :
  (∀ (start : Nat) {as : List Act} {m : Solo},
    Path (Solo.step env i) (Solo.Ok env i) (Solo.begin s i start) as m →
      m.counts.writes ≤ 2 ∧ m.counts.rewrites ≤ 1 ∧ m.counts.passes ≤ 2
      ∧ (1300 + o.phase.todo.length ≤ as.countP Act.ofOp → m.Returned i)
      ∧ ∃ o', m.state.ops i = some o'
        ∧ (m.counts.rewrites = 1 → ∀ p, o'.own = some p →
          m.state.core.NewerThanEntry env o'.key p)
        ∧ (m.Returned i ∨ o'.phase = .alloc
          ∨ ∃ b, m.Ok env i (.op i b) ∧ (m.step env i (.op i b)).isSome = true))
    ∧ ∀ (probe : KeyProbe) (t : HashTable) (hash : Nat) (verify verify' : EntryInfo → Bool),
      (probeSettled t hash ((probe.probeKey verify t hash).probeKey verify' t hash)).1 = true
  := by
  obtain ⟨hinv, hstaging⟩ := hopen.staging_of_reach hr
  have hholds := State.holds_of_reach hopen hr ho
  constructor
  · intro start as m hp
    have hbegin := Solo.begin_inv hinv hstaging ho hkind hholds halone start
    have hm : m.Inv env i := by
      apply hp.invariant hbegin
      intro m₁ a m₂ h hok hs
      exact (h.step hok hs).1
    obtain ⟨o', ho', hruns⟩ := hm.op
    have hwrites := hruns.writes
    have hwrote := Bool.toNat_le o'.wrote
    refine ⟨by have := hruns.rewrites; omega, hruns.rewrites, hruns.passes, ?_, o', ho', ?_, ?_⟩
    · intro hle
      apply Solo.returned_of_path hbegin hp
      have hrank : o.rank (Solo.begin s i start).counts ≤ 1299 + o.phase.todo.length :=
        Op.rank_le rfl
      have hcount : (Solo.begin s i start).rank i = o.rank (Solo.begin s i start).counts := by
        rw [Solo.rank, Solo.begin, ho]
        rfl
      omega
    · intro hk p hown
      exact hruns.newer (hm.inv.ops ho') hk hown
    · rcases hruns.enabled i with ⟨rc, res, hph⟩ | hph | ⟨b, hgoes, hstep⟩
      · exact .inl ⟨o', rc, res, ho', hph⟩
      · exact .inr (.inl hph)
      · right
        right
        refine ⟨b, ⟨rfl, ?_⟩, ?_⟩
        · intro o₁ ho₁
          cases ho'.symm.trans ho₁
          exact hgoes
        · rw [Solo.step, Option.isSome_map, State.step, ho', Option.bind_some, Option.isSome_map,
            hm.lock]
          exact hstep
  · intro probe t hash verify verify'
    apply settle_of_seen
    intro e he
    exact Option.isSome_iff_exists.mp (KeyProbe.covers_probeKey verify verify' t hash probe e
      he rfl)

theorem smallPut_reach : Reach (State.step .small) SalsaOk (.fresh 0) smallPut := by
  have hrun : (run (State.step .small) (.fresh 0)
      (stampActs 0 .data ++ putActs 0 0 [2] [1])).isSome = true := by decide +kernel
  obtain ⟨s, hs⟩ := Option.isSome_iff_exists.mp hrun
  have hput : smallPut = s := by
    rw [smallPut, State.after]
    exact (congrArg (Option.getD · _) hs).trans rfl
  rw [hput]
  apply Reach.of_run_cons _ _ hs
  · exact fun _ => rfl
  · have hrest : ∀ b ∈ (stampActs 0 .data ++ putActs 0 0 [2] [1]).tail, b.takesData = false := by
      decide
    exact fun b hb => .of_not_takesData (hrest b hb)

theorem smallPut_alone (o : Op) : smallPut.Alone .small o where
  lock := rfl
  unfrozen := by decide +kernel
  room := fun pba => by
    have hfree : (smallPut.core.curSnap.tableForHash 0).slots 0 = none := by decide +kernel
    obtain ⟨f, -, -, hins⟩ := HashTable.insertLocked_of_free 0 (o.kvSize .small) pba
      (t := smallPut.core.curSnap.tableForHash 0) (by decide +kernel) (by decide +kernel) hfree
    exact congrArg Prod.fst hins
  stamped := fun _ seg count stage hph => by
    have hopened : smallPut.core.phase 0 = .opened .data 1 := by decide +kernel
    have hstaging := ((State.fresh_opened .small).staging_of_reach smallPut_reach).2
    have heq : seg = 0 := hstaging.one (by rw [hph]; rfl) (by rw [hopened]; rfl)
    rw [heq, hopened] at hph
    cases hph

/-- The put of the small store returns once it has committed. -/
theorem smallPut_returns :
    ∃ m, Path (Solo.step .small 0) (Solo.Ok .small 0) (Solo.begin smallPut 0 0)
        [.op 0 (.commit true), .op 0 .call, .op 0 .call] m
      ∧ m.counts.writes ≤ 2 ∧ m.counts.rewrites ≤ 1 ∧ m.counts.passes ≤ 2 ∧ m.Returned 0 := by
  have hrun : ((run (Solo.step .small 0) (Solo.begin smallPut 0 0)
      [.op 0 (.commit true), .op 0 .call, .op 0 .call]).bind (·.state.ops 0)).map Op.phase
      = some (.done .ok none) := by decide +kernel
  obtain ⟨o', ho', hdone⟩ := Option.map_eq_some_iff.mp hrun
  obtain ⟨m, hm, ho'⟩ := Option.bind_eq_some_iff.mp ho'
  have hop : (smallPut.ops 0).map Op.kind = some (.put .upsert none [2]) := by decide +kernel
  obtain ⟨o, ho, hput⟩ := Option.map_eq_some_iff.mp hop
  have hkind : o.kind ≠ .get := by
    rw [hput]
    simp
  have hp : Path (Solo.step .small 0) (Solo.Ok .small 0) (Solo.begin smallPut 0 0)
      [.op 0 (.commit true), .op 0 .call, .op 0 .call] m := by
    apply Path.of_run _ hm
    intro a ha s
    simp only [List.mem_cons, List.not_mem_nil, or_false] at ha
    rcases ha with rfl | rfl | rfl <;> exact ⟨rfl, fun _ _ => trivial⟩
  obtain ⟨hwrites, hrewrites, hpasses, -⟩ := (alone_returns (State.fresh_opened .small)
    smallPut_reach ho hkind (smallPut_alone o)).1 0 hp
  exact ⟨m, hp, hwrites, hrewrites, hpasses, o', .ok, none, ho', hdone⟩

end UDepot
