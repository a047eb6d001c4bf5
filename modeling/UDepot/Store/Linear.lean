import UDepot.Store.KvMap
import UDepot.Store.Inversion

/-!
# Writes take effect at their commit

An abstract map answers a write at once (`OpKind.answer`): it refuses it, or gives the key the
write's value, or no value, with a new version.  The commit step of a put or a del answers as the
map the store holds would at that step, or goes round again for one of five reasons
(`Op.GoesRound`), or finds no room (`Op.NoRoom`); no other step of an operation changes the map,
and the collector changes versions only (`writes_linearize`).

The map tests `kCreate` first, as `commit_put` does.  The answers asked for are those of
`OpKind.Documented`; the two differ for a put that is to create its key and names a version
(`OpKind.StaleCreate`).
-/

namespace UDepot

open Transition

namespace OpKind

/-- A put that must not find its key. -/
def creates : OpKind → Bool
  | .put mode _ _ => mode = .create
  | _ => false

/-- The version a write asks for. -/
def ifVersion : OpKind → Option Nat
  | .put _ ifVersion _ | .del ifVersion => ifVersion
  | .get => none

/-- A write that must find its key. -/
def needsKey : OpKind → Bool
  | .put mode ifVersion _ => mode = .replace || ifVersion.isSome
  | .del _ => true
  | .get => false

/-- The answer of a map to a write, by the version the key has if it is there. -/
def answer (kind : OpKind) : Option Nat → Rc
  | none => if kind.needsKey then .enoent else .ok
  | some version =>
      if kind.creates then .eexist
      else if kind.ifVersion.any (version != ·) then .estale
      else .ok

/-- A write that asks for a version meets a key that has another. -/
def Stale (kind : OpKind) (version : Option Nat) : Prop :=
  ∃ v, version = some v ∧ kind.ifVersion.any (v != ·) = true

/-- Each refusal is given exactly where it is due. -/
def Documented (kind : OpKind) (version : Option Nat) (rc : Rc) : Prop :=
  (rc = .eexist ↔ kind.creates = true ∧ version.isSome = true)
    ∧ (rc = .enoent ↔ kind.needsKey = true ∧ version = none)
    ∧ (rc = .estale ↔ kind.Stale version)

/-- A put that must not find its key names a version, and the key is there with another. -/
def StaleCreate (kind : OpKind) (version : Option Nat) : Prop :=
  kind.creates = true ∧ kind.Stale version

/-- The map refuses where it is due, except for a stale put that must not find its key: two
refusals are due then. -/
theorem documented_iff
    {kind : OpKind} {version : Option Nat} {rc : Rc}
    (h : rc = kind.answer version ∨ rc = .enospc ∧ kind.answer version = .ok) :
  kind.Documented version rc ↔ ¬ kind.StaleCreate version
  := by
  have hrefusal : ∀ {x}, x = .eexist ∨ x = .enoent ∨ x = .estale →
      (rc = x ↔ kind.answer version = x) := by
    rintro x hx
    obtain rfl | ⟨rfl, hok⟩ := h
    · exact Iff.rfl
    · rw [hok]
      obtain rfl | rfl | rfl := hx <;> simp
  rw [Documented, hrefusal (by simp), hrefusal (by simp), hrefusal (by simp)]
  cases version with
  | none => cases hneeds : kind.needsKey <;> simp [answer, StaleCreate, Stale, hneeds]
  | some v =>
      cases hcreates : kind.creates <;> cases hstale : kind.ifVersion.any (v != ·)
        <;> simp [answer, StaleCreate, Stale, hcreates, hstale]

end OpKind

/-- What an operation will return, once that is decided. -/
def Op.outcome (o : Op) : Option Rc :=
  match o.phase with
  | .calls _ (.ret rc) => some rc
  | _ => none

/-- An entry whose record holds a key. -/
def Core.isEntryOf (c : Core) (key : Bytes) (x : Nat × EntryInfo) : Bool :=
  (c.recs x.2.pba).any (·.key == key)

/-! ### The decision of a commit -/

section

variable {env : StoreEnv} {c c' : Core} {lock : Option Nat} {i : Nat} {o o' : Op}

/-- The version of a key, from the entry a probe found. -/
theorem Core.Inv.version_of_found
    (h : c.Inv env) (key : Bytes) {m : Option EntryInfo}
    (hsome : ∀ e, m = some e → ∃ r, c.EntryOf env key e r) (hnone : m = none → c.Absent key) :
  (c.kvMap env key).map Prod.snd
    = (m.filter (fun e => !e.deleted)).map fun e => versionOf env.geo c.segTimestamps e.pba
  := by
  cases m with
  | none => rw [(hnone rfl).kvMap h, Option.filter_none, Option.map_none, Option.map_none]
  | some e =>
      obtain ⟨r, he⟩ := hsome e rfl
      obtain ⟨hcur, -, hitem⟩ := he.current h
      have hdel := (h.recs.shape he.record).deleted_iff e.pba
      rw [← hitem] at hdel
      rw [he.kvMap h]
      cases hv : r.value with
      | none => simp [hdel.mpr hv]
      | some value =>
          have hlive : e.deleted = false := by
            rw [← Bool.not_eq_true, hdel, hv]
            simp
          simp [hlive, versionOf, hcur.timestamp]

/-- A new record is never refused. -/
theorem placement_ne_refuse
    {geo : Geometry} {ts : Nat → Nat} {p : Nat} (m : Option EntryInfo) (rc : Rc) :
  placement geo ts p m ≠ .refuse rc
  := by
  cases m with
  | none => simp [placement]
  | some e =>
      rw [placement]
      split <;> simp

/-- A decision is the map's answer: a refusal is that of the map, and what is not refused the map
would accept. -/
def Verdict.Answers (answer : Rc) : Verdict → Prop
  | .refuse rc => rc = answer ∧ rc ≠ .ok ∧ rc ≠ .enospc
  | _ => answer = .ok

theorem Op.verdict_answer
    {geo : Geometry} {ts : Nat → Nat} {m : Option EntryInfo} {v : Verdict}
    (hv : o.verdict geo ts m = some v) {version : Option Nat}
    (hver : version = (m.filter (fun e => !e.deleted)).map fun e => versionOf geo ts e.pba) :
  v.Answers (o.kind.answer version)
  := by
  have hplace : ∀ {p}, o.kind.answer version = .ok →
      (placement geo ts p m).Answers (o.kind.answer version) := by
    intro p hok
    cases hp : placement geo ts p m with
    | refuse rc => exact absurd hp (placement_ne_refuse m rc)
    | insert | rewrite | replace | needTomb => apply hok
  subst hver
  rw [Op.verdict] at hv
  split at hv
  · rename_i mode iv value hk
    obtain ⟨p, -, rfl⟩ := Option.map_eq_some_iff.mp hv
    rw [hk] at hplace ⊢
    rw [putVerdict]
    cases hf : m.filter (fun e => !e.deleted) with
    | none =>
        rw [hf] at hplace
        by_cases hneeds : mode = .replace ∨ iv.isSome = true
        · simp [hneeds, Verdict.Answers, OpKind.answer, OpKind.needsKey]
        · simp only [hneeds, if_false]
          apply hplace
          simp [OpKind.answer, OpKind.needsKey, hneeds]
    | some e =>
        rw [hf] at hplace
        by_cases hcreate : mode = .create
        · simp [hcreate, Verdict.Answers, OpKind.answer, OpKind.creates]
        · by_cases hstale : staleVersion geo ts iv e = true
          · simp only [hcreate, if_false, hstale, if_true]
            rw [staleVersion] at hstale
            simp [Verdict.Answers, OpKind.answer, OpKind.creates, OpKind.ifVersion, hcreate, hstale]
          · simp only [hcreate, if_false, hstale]
            apply hplace
            rw [staleVersion] at hstale
            simp [OpKind.answer, OpKind.creates, OpKind.ifVersion, hcreate, hstale]
  · rename_i iv hk
    cases hv
    rw [hk] at hplace ⊢
    rw [delVerdict.eq_def]
    cases hf : m.filter (fun e => !e.deleted) with
    | none => simp [Verdict.Answers, OpKind.answer, OpKind.needsKey]
    | some e =>
        rw [hf] at hplace
        by_cases hstale : staleVersion geo ts iv e = true
        · simp only [hstale, if_true]
          rw [staleVersion] at hstale
          simp [Verdict.Answers, OpKind.answer, OpKind.creates, OpKind.ifVersion, hstale]
        · have hok : (OpKind.del iv).answer (some (versionOf geo ts e.pba)) = .ok := by
            rw [staleVersion] at hstale
            simp [OpKind.answer, OpKind.creates, OpKind.ifVersion, hstale]
          simp only [hstale]
          cases o.own with
          | none => apply hok
          | some p => apply hplace hok
  · cases hv

/-- There is no room for a write the map would accept: its table is full and the directory has as
many tables as it may have. -/
def Op.NoRoom (env : StoreEnv) (c : Core) (o : Op) : Prop :=
  o.kind.answer ((c.kvMap env o.key).map Prod.snd) = .ok
    ∧ ∃ p snap, o.own = some p
      ∧ c.curSnap.insertLocked (env.hashKey o.key) (o.kvSize env) p = (false, snap)
      ∧ kMaxTableBits ≤ snap.tableBits

/-- Why a commit step decides nothing and where the operation goes on.  The last three are steps
of a write the map would accept. -/
inductive Op.GoesRound (env : StoreEnv) (c : Core) (o o' : Op) : Prop
  /-- A grow has frozen the snapshot. -/
  | frozen (hfrozen : c.curSnap.frozen = true) (hph : o'.phase = .growWait)
  /-- An entry that matches has not been looked at. -/
  | unsettled {m : Option HashEntry}
      (hset : probeSettled (c.curSnap.tableForHash (env.hashKey o.key)) (env.hashKey o.key) o.probe
        = (false, m))
      (hph : o'.phase = .probe)
  /-- The table is full, and the directory can grow. -/
  | full {p : Nat} {snap : DirSnapshot}
      (hok : o.kind.answer ((c.kvMap env o.key).map Prod.snd) = .ok) (hown : o.own = some p)
      (hins : c.curSnap.insertLocked (env.hashKey o.key) (o.kvSize env) p = (false, snap))
      (hmax : snap.tableBits < kMaxTableBits) (hph : o'.phase = .growWait)
  /-- A del has yet to write its tombstone. -/
  | needTomb (hok : o.kind.answer ((c.kvMap env o.key).map Prod.snd) = .ok)
      (hval : o.value = none) (hown : o.own = none) (hph : o'.phase = .alloc)
  /-- The record written is not newer than the one the key has. -/
  | rewrite {p : Nat} {e : EntryInfo} {r : Rec} {todo : List Call}
      (hok : o.kind.answer ((c.kvMap env o.key).map Prod.snd) = .ok) (hown : o.own = some p)
      (he : c.EntryOf env o.key e r) (hold : newerThan env.geo c.segTimestamps p e.pba = false)
      (hph : o'.phase = .calls todo .again)

/-- An operation that goes round has nothing to return yet. -/
theorem Op.GoesRound.outcome (h : o.GoesRound env c o') : o'.outcome = none := by
  cases h with
  | frozen _ hph | unsettled _ hph | full _ _ _ _ hph | needTomb _ _ _ hph
  | rewrite _ _ _ _ hph => simp [Op.outcome, hph]

/-- What a commit step comes to: the map's answer, which it gives, or no room, or another round. -/
inductive Op.Committed (env : StoreEnv) (c c' : Core) (o o' : Op) : Prop
  | answers {rc : Rc} (hout : o'.outcome = some rc) (hne : rc ≠ .enospc)
      (hrc : rc = o.kind.answer ((c.kvMap env o.key).map Prod.snd))
      (hok : rc = .ok → c'.committed ≠ c.committed)
  | noRoom (hout : o'.outcome = some .enospc) (h : o.NoRoom env c)
  | goesRound (h : o.GoesRound env c o')

section

variable (h : o.Committed env c c' o')

include h

theorem Op.Committed.answer {rc : Rc} (hout : o'.outcome = some rc) (hne : rc ≠ .enospc) :
    rc = o.kind.answer ((c.kvMap env o.key).map Prod.snd) := by
  cases h with
  | answers hout' _ hrc =>
      cases hout.symm.trans hout'
      apply hrc
  | noRoom hout' =>
      cases hout.symm.trans hout'
      contradiction
  | goesRound hround =>
      rw [hround.outcome] at hout
      cases hout

theorem Op.Committed.commits (hout : o'.outcome = some .ok) : c'.committed ≠ c.committed := by
  cases h with
  | answers hout' _ _ hok =>
      cases hout.symm.trans hout'
      apply hok rfl
  | noRoom hout' => cases hout.symm.trans hout'
  | goesRound hround =>
      rw [hround.outcome] at hout
      cases hout

theorem Op.Committed.noRoom_of_enospc (hout : o'.outcome = some .enospc) : o.NoRoom env c := by
  cases h with
  | answers hout' hne =>
      cases hout.symm.trans hout'
      contradiction
  | noRoom _ hroom => apply hroom
  | goesRound hround =>
      rw [hround.outcome] at hout
      cases hout

theorem Op.Committed.again (hout : o'.outcome = none) : o.GoesRound env c o' := by
  cases h with
  | answers hout' | noRoom hout' =>
      rw [hout'] at hout
      cases hout
  | goesRound hround => apply hround

end

/-- A decision that fits what the directory holds, once carried out. -/
theorem Op.Enacts.committed
    {m : Option EntryInfo} {v : Verdict} (h : Op.Enacts env c i o v c' o')
    (hfits : v.Fits env.geo c.segTimestamps o m)
    (hans : v.Answers (o.kind.answer ((c.kvMap env o.key).map Prod.snd)))
    (hsome : ∀ e, m = some e → ∃ r, c.EntryOf env o.key e r) :
  o.Committed env c c' o'
  := by
  cases h with
  | refuse rc =>
      obtain ⟨hrc, hok, hne⟩ := hans
      exact .answers rfl hne hrc fun heq => absurd heq hok
  | needTomb => exact .goesRound (.needTomb hans hfits.2.2.1 hfits.1 rfl)
  | rewrite e hown =>
      obtain ⟨hm, p, hp, hold⟩ := hfits
      obtain ⟨r, he⟩ := hsome e hm
      exact .goesRound (.rewrite hans hp he hold rfl)
  | insert hown hins =>
      exact .answers rfl (by simp) (Eq.symm hans) fun _ => List.cons_ne_self _ _
  | insertFull hown hins hmax => exact .noRoom rfl ⟨hans, _, _, hown, hins, hmax⟩
  | insertGrow hown hins hmax =>
      exact .goesRound (.full hans hown hins (Nat.lt_of_not_le hmax) rfl)
  | replace e hown =>
      exact .answers rfl (by simp) (Eq.symm hans) fun _ => List.cons_ne_self _ _

/-- A commit step answers as the map does, finds no room, or goes round. -/
theorem OpInv.committed
    (h : c.Inv env) (ho : OpInv env c i o) {early : Bool}
    (hs : o.step env lock c i (.commit early) = some (c', o')) :
  o.Committed env c c' o'
  := by
  cases Op.steps_of_step hs with
  | frozen _ hmay =>
      refine .goesRound (.frozen ?_ rfl)
      cases hfrozen : c.curSnap.frozen with
      | true => rfl
      | false => simp [Core.mayWrite, hfrozen] at hmay
  | unsettled _ hset => exact .goesRound (.unsettled hset rfl)
  | commit _ _ _ hset hv henacts =>
      have hfound := ho.entryOf_of_settled h hset
      apply henacts.committed (Op.verdict_fits hv) ?_ hfound
      apply Op.verdict_answer hv
      exact h.version_of_found o.key hfound
        fun hm => (ho.settled h hset).2 (Option.map_eq_none_iff.mp hm)

end

/-! ### What an operation returns -/

/-- The operation has returned `rc`, or will. -/
def Op.Returns (o : Op) (rc : Rc) : Prop := o.outcome = some rc ∨ ∃ res, o.phase = .done rc res

section

variable {env : StoreEnv} {s s' : State} {i : Nat}

theorem Op.Returns.step
    {c c' : Core} {lock : Option Nat} {o o' : Op} {rc : Rc} {a : OpAct} (hr : o.Returns rc)
    (hs : o.step env lock c i a = some (c', o')) :
  o'.Returns rc
  := by
  have hcalls : ∀ {ph}, o.phase = ph → (∀ rc res, ph ≠ .done rc res) →
      ∃ todo, ph = .calls todo (.ret rc) := by
    rintro ph rfl hne
    obtain hr | ⟨res, hr⟩ := hr
    · rw [Op.outcome] at hr
      split at hr
      · rename_i hph
        cases hr
        exact ⟨_, hph⟩
      · cases hr
    · exact absurd hr (hne rc res)
  cases Op.steps_of_step hs with
  | call hph =>
      obtain ⟨todo, ⟨⟩⟩ := hcalls hph (by rintro _ _ ⟨⟩)
      exact .inl rfl
  | returns hph =>
      obtain ⟨todo, ⟨⟩⟩ := hcalls hph (by rintro _ _ ⟨⟩)
      exact .inr ⟨none, rfl⟩
  | allocate hph | allocateBad hph | allocAgain hph | allocFails hph | resumeAlloc hph
  | tombFails hph | loadTimestamp hph | writeRecord hph | writeFails _ hph | loadSnapshot hph
  | lookupEnd hph | lookup hph | readGet hph | readKey hph | bufferFails hph | readFails hph
  | frozen hph | unsettled hph | commit hph | commitStale hph | resumeProbe hph | growFails hph
  | again hph | loadVersion hph =>
      obtain ⟨todo, ⟨⟩⟩ := hcalls hph (by rintro _ _ ⟨⟩)

/-- What an operation returns is settled once and for all. -/
theorem State.returns_of_reach
    {o : Op} {rc : Rc} {ok : State → Act → Prop} (ho : s.ops i = some o) (hr : o.Returns rc)
    (hreach : Reach (State.step env) ok s s') :
  ∃ o', s'.ops i = some o' ∧ o'.Returns rc
  := by
  apply hreach.invariant (I := fun s => ∃ o, s.ops i = some o ∧ o.Returns rc) ⟨o, ho, hr⟩
  rintro s₁ a s₂ ⟨o₁, ho₁, hr₁⟩ - hstep
  obtain ⟨j, kind, key, rfl, hnone, -, rfl⟩ | ⟨j, b, o₂, c', o', rfl, ho₂, hop, rfl⟩
    | ⟨b, c', g', rfl, -, rfl⟩ | ⟨c', -, rfl⟩ := State.step_cases hstep
  · have hne : i ≠ j := by
      rintro rfl
      rw [ho₁] at hnone
      cases hnone
    exact ⟨o₁, by simp [hne, ho₁], hr₁⟩
  · by_cases hj : i = j
    · subst hj
      cases ho₁.symm.trans ho₂
      exact ⟨o', Function.update_self _ _ _, hr₁.step hop⟩
    · exact ⟨o₁, by simp [hj, ho₁], hr₁⟩
  · exact ⟨o₁, ho₁, hr₁⟩
  · exact ⟨o₁, ho₁, hr₁⟩

/-! ### Steps and runs on the map -/

/-- Commits are recorded for good. -/
theorem StateStep.committed {a : Act} (hs : StateStep env s a s') :
    s.core.committed ⊆ s'.core.committed := by
  obtain hq | ⟨-, -, -, -, -, hc⟩ | ⟨-, hc⟩ | ⟨-, hd⟩ := hs.effect
  · rw [hq.committed]
    apply List.Subset.refl
  · rw [hc.committed]
    apply List.subset_cons_self
  · rw [hc.committed]
    apply List.subset_cons_self
  · rw [hd.committed]
    apply List.Subset.refl

theorem State.Inv.committed_of_reach
    {ok : State → Act → Prop} (h : s.Inv env) (hreach : Reach (State.step env) ok s s') :
  s.core.committed ⊆ s'.core.committed
  := by
  have hboth : s'.Inv env ∧ s.core.committed ⊆ s'.core.committed := by
    apply hreach.invariant ⟨h, List.Subset.refl _⟩
    rintro s₁ a s₂ ⟨h₁, hsub⟩ - hstep
    have hs := h₁.step hstep
    exact ⟨hs.inv, List.Subset.trans hsub hs.committed⟩
  apply hboth.2

/-- A step leaves the map, is the commit of an operation that will succeed, or changes a version. -/
theorem State.Inv.step_kvMap
    {a : Act} (h : s.Inv env) (hstep : s.step env a = some s') :
  s'.core.kvMap env = s.core.kvMap env
    ∨ (∃ i b o o' todo, a = .op i b ∧ s.ops i = some o ∧ s'.ops i = some o' ∧ o.phase = .commit
      ∧ o'.phase = .calls todo (.ret .ok))
    ∨ (∃ b, a = .gc b) ∧ ∃ key value v v', s.core.kvMap env key = some (value, v)
      ∧ s'.core.kvMap env = Function.update (s.core.kvMap env) key (some (value, v'))
  := by
  have hs := h.step hstep
  obtain ⟨b, hf⟩ := hs.frame
  obtain hq | ⟨ho, ho', hph, -, hph', hc⟩ | ⟨hg, hc⟩ | ⟨-, hd⟩ := hs.effect
  · left
    funext key
    apply hq.kvMap h.core hf
  · rename_i i b o o' p old todo
    right
    left
    exact ⟨i, b, o, o', todo, rfl, ho, ho', hph, hph'⟩
  · rename_i p r e sec dst
    obtain ⟨hentry, -⟩ := hc.replaced rfl
    have hbefore := hentry.kvMap h.core
    have hafter := hc.kvMap_update h.core hf
    cases hv : r.value with
    | none =>
        left
        simp only [hv, Option.map_none] at hbefore hafter
        rw [hafter, ← hbefore, Function.update_eq_self]
    | some value =>
        right
        right
        simp only [hv, Option.map_some] at hbefore hafter
        exact ⟨⟨_, rfl⟩, r.key, value, _, _, hbefore, hafter⟩
  · left
    funext key
    apply hd.kvMap h.core hf

/-! ### Linearization -/

/-- What a commit step does to the map of a store opened as `s₀`: it answers as the map does, each
refusal where it is due, and that is what the operation returns, or it finds no room, or it goes
round again; a write that succeeds gives its key a version the key never had; nothing else
changes. -/
structure Linearizes (env : StoreEnv) (s₀ s s' : State) (i : Nat) (o o' : Op) : Prop where
  answer : ∀ {rc}, o'.outcome = some rc → rc ≠ .enospc →
    rc = o.kind.answer ((s.core.kvMap env o.key).map Prod.snd)
  documented : ∀ {rc}, o'.outcome = some rc →
    (o.kind.Documented ((s.core.kvMap env o.key).map Prod.snd) rc
      ↔ ¬ o.kind.StaleCreate ((s.core.kvMap env o.key).map Prod.snd))
  noRoom : o'.outcome = some .enospc → o.NoRoom env s.core
  again : o'.outcome = none → o.GoesRound env s.core o'
  returns : ∀ {rc}, o'.outcome = some rc → ∀ {s₁ o₁ rc₁ res},
    Reach (State.step env) (fun _ _ => True) s' s₁ → s₁.ops i = some o₁ →
    o₁.phase = .done rc₁ res → rc₁ = rc
  installs : o'.outcome = some .ok → ∃ version,
    s'.core.kvMap env
        = Function.update (s.core.kvMap env) o.key (o.value.map fun value => (value, version))
      ∧ ∀ {s₁ value v}, Reach (State.step env) (fun _ _ => True) s₀ s₁ →
        Reach (State.step env) (fun _ _ => True) s₁ s →
        s₁.core.kvMap env o.key = some (value, v) → v ≠ version
  unchanged : o'.outcome ≠ some .ok → s'.core.kvMap env = s.core.kvMap env

/-- An operation that has returned returned what was settled. -/
theorem State.returned
    {o o' : Op} {rc rc' : Rc} {res : Option (Bytes × Nat)} {ok : State → Act → Prop}
    (ho : s.ops i = some o) (hr : o.Returns rc) (hreach : Reach (State.step env) ok s s')
    (ho' : s'.ops i = some o') (hdone : o'.phase = .done rc' res) :
  rc' = rc
  := by
  obtain ⟨o₁, ho₁, hr₁⟩ := State.returns_of_reach ho hr hreach
  cases ho'.symm.trans ho₁
  obtain hr₁ | ⟨res₁, hr₁⟩ := hr₁
  · simp [Op.outcome, hdone] at hr₁
  · rw [hdone] at hr₁
    cases hr₁
    rfl

/-- A version the map ever had is that of a committed record. -/
theorem State.Inv.version_committed
    (h : s.Inv env) {key value : Bytes} {v : Nat} (hm : s.core.kvMap env key = some (value, v)) :
  ∃ y ∈ s.core.committed, v = versionOf env.geo (fun _ => y.timestamp) y.pba
  := by
  obtain ⟨e, r, he⟩ | ha := h.core.entryOf_or_absent key
  · rw [he.kvMap h.core] at hm
    obtain ⟨value', -, heq⟩ := Option.map_eq_some_iff.mp hm
    cases heq
    exact ⟨_, (he.current h.core).1.committed, rfl⟩
  · rw [ha.kvMap h.core] at hm
    cases hm

/-- A commit step linearizes. -/
theorem Opened.commit_linearizes
    {s₀ : State} (hopen : Opened env s₀)
    (hreach : Reach (State.step env) (fun _ _ => True) s₀ s) {early : Bool} {o o' : Op}
    (ho : s.ops i = some o) (hstep : s.step env (.op i (.commit early)) = some s')
    (ho' : s'.ops i = some o') :
  Linearizes env s₀ s s' i o o'
  := by
  have h := hopen.reach hreach
  have hcommit : o.Committed env s.core s'.core o' := by
    obtain ⟨o₁, ho₁, hs⟩ := Option.bind_eq_some_iff.mp hstep
    obtain ⟨⟨c', o₂⟩, hop, ⟨⟩⟩ := Option.map_eq_some_iff.mp hs
    cases ho.symm.trans ho₁
    simp only [Function.update_self, Option.some.injEq] at ho'
    subst ho'
    apply (h.ops ho).committed h.core hop
  have hs := h.step hstep
  obtain ⟨b, hf⟩ := hs.frame
  refine ⟨hcommit.answer, ?_, hcommit.noRoom_of_enospc, hcommit.again, ?_, ?_, ?_⟩
  · intro rc hrc
    apply OpKind.documented_iff
    by_cases hne : rc = .enospc
    · subst hne
      right
      exact ⟨rfl, (hcommit.noRoom_of_enospc hrc).1⟩
    · left
      apply hcommit.answer hrc hne
  · intro rc hrc s₁ o₁ rc₁ res hreach₁ ho₁ hdone
    apply State.returned ho' (.inl hrc) hreach₁ ho₁ hdone
  · intro hok
    have hcommitted := hcommit.commits hok
    obtain hq | ⟨ho₁, -, -, -, -, hc⟩ := hs.effect
    · exact absurd hq.committed hcommitted
    · cases ho.symm.trans ho₁
      refine ⟨_, hc.kvMap_update h.core hf, ?_⟩
      intro s₁ value v hreach₁ hreach₂ hm heq
      have h₁ := hopen.reach hreach₁
      obtain ⟨y, hy, hv⟩ := h₁.version_committed hm
      apply hc.version_fresh h.core (h₁.committed_of_reach hreach₂ hy)
      rw [← hv, heq]
  · intro hne
    obtain hq | ⟨-, ho₁, -, -, hph, -⟩ := hs.effect
    · funext key
      apply hq.kvMap h.core hf
    · cases ho'.symm.trans ho₁
      simp [Op.outcome, hph] at hne

/-- Only the commit step takes an operation from its commit to success. -/
theorem Op.commit_of_success
    {o o' : Op} {b : OpAct} {todo : List Call} {next : Next} (hph : o.phase = .commit)
    (hstep : s.step env (.op i b) = some s') (ho : s.ops i = some o) (ho' : s'.ops i = some o')
    (hph' : o'.phase = .calls todo next) :
  ∃ early, b = .commit early
  := by
  obtain ⟨o₁, ho₁, hs⟩ := Option.bind_eq_some_iff.mp hstep
  obtain ⟨⟨c', o₂⟩, hop, ⟨⟩⟩ := Option.map_eq_some_iff.mp hs
  cases ho.symm.trans ho₁
  simp only [Function.update_self, Option.some.injEq] at ho'
  subst ho'
  cases b with
  | commit early => exact ⟨early, rfl⟩
  | _ =>
      rw [Op.step.eq_def, hph] at hop
      cases hop <;> cases hph'

/-- Entries whose records hold one key are one entry. -/
theorem Core.Inv.card_isEntryOf
    {c : Core} (h : c.Inv env) (key : Bytes) :
  (c.curSnap.items.filter (fun x => c.isEntryOf key x = true)).card ≤ 1
  := by
  have hnodup : (c.curSnap.items.filter (fun x => c.isEntryOf key x = true)).Nodup :=
    (Multiset.Nodup.of_map _ h.dir.pbas).filter _
  apply (Finset.card_le_one (s := ⟨_, hnodup⟩)).mpr
  intro x hx y hy
  obtain ⟨hx, hkx⟩ := Multiset.mem_filter.mp hx
  obtain ⟨hy, hky⟩ := Multiset.mem_filter.mp hy
  simp only [Core.isEntryOf, Option.any_eq_true, beq_iff_eq] at hkx hky
  obtain ⟨r, hr, hkey⟩ := hkx
  obtain ⟨r', hr', hkey'⟩ := hky
  apply h.dir.keys hx hy hr hr' (hkey.trans hkey'.symm)

/-- Writes linearize at their commit.  In every state a run reaches, each key has one entry at
most, which points at a record holding it; a commit step answers as the map does, and nothing but
a commit that succeeds changes the map, apart from the collector, which changes versions; an
operation one of whose steps has changed the map returns no error. -/
theorem writes_linearize
    {s₀ : State} (hopen : Opened env s₀)
    (hreach : Reach (State.step env) (fun _ _ => True) s₀ s) :
  ((∀ key, (s.core.curSnap.items.filter (fun x => s.core.isEntryOf key x = true)).card ≤ 1)
      ∧ ∀ x ∈ s.core.curSnap.items, ∃ r, s.core.recs x.2.pba = some r ∧ x = env.item r x.2.pba)
    ∧ (∀ {i early o s' o'}, s.ops i = some o → s.step env (.op i (.commit early)) = some s' →
      s'.ops i = some o' → Linearizes env s₀ s s' i o o')
    ∧ (∀ {a s'}, s.step env a = some s' → (∀ i early, a ≠ .op i (.commit early)) →
      s'.core.kvMap env = s.core.kvMap env
        ∨ (∃ b, a = .gc b) ∧ ∃ key value v v', s.core.kvMap env key = some (value, v)
          ∧ s'.core.kvMap env = Function.update (s.core.kvMap env) key (some (value, v')))
    ∧ ∀ {i a s' s₁ o rc res}, s.step env (.op i a) = some s' →
      s'.core.kvMap env ≠ s.core.kvMap env →
      Reach (State.step env) (fun _ _ => True) s' s₁ → s₁.ops i = some o →
      o.phase = .done rc res → rc = .ok
  := by
  have h := hopen.reach hreach
  refine ⟨⟨h.core.card_isEntryOf, ?_⟩, hopen.commit_linearizes hreach, ?_, ?_⟩
  · intro x hx
    obtain ⟨r, hr⟩ := h.core.dir.pointed hx
    exact ⟨r, hr.current.record, hr.item⟩
  · intro a s' hstep hne
    obtain hsame | ⟨i, b, o, o', todo, rfl, ho, ho', hph, hph'⟩ | hgc := h.step_kvMap hstep
    · left
      apply hsame
    · obtain ⟨early, rfl⟩ := Op.commit_of_success hph hstep ho ho' hph'
      exact absurd rfl (hne i early)
    · right
      apply hgc
  · intro i a s' s₁ o rc res hstep hchanged hreach₁ ho hdone
    obtain hsame | ⟨i', b, o', o'', todo, heq, -, ho'', -, hph⟩ | ⟨⟨b, heq⟩, -⟩ :=
      h.step_kvMap hstep
    · contradiction
    · cases heq
      apply State.returned ho'' (.inl _) hreach₁ ho hdone
      simp [Op.outcome, hph]
    · cases heq

end

/-- A small store in which a put is about to commit. -/
def smallPut : State := .after .small (stampActs 0 .data ++ putActs 0 0 [2] [1])

theorem smallPut_linearizes :
    ∃ o s' o', smallPut.ops 0 = some o ∧ smallPut.step .small (.op 0 (.commit false)) = some s'
      ∧ s'.ops 0 = some o' ∧ o'.outcome = some .ok
      ∧ Linearizes .small (.fresh 0) smallPut s' 0 o o' := by
  have hreach : Reach (State.step .small) (fun _ _ => True) (.fresh 0) smallPut :=
    State.after_reach (by decide +kernel) (fun _ _ _ => trivial)
  have hout : ((smallPut.step .small (.op 0 (.commit false))).bind (·.ops 0)).map Op.outcome
      = some (some .ok) := by decide +kernel
  obtain ⟨o, ho⟩ := Option.isSome_iff_exists.mp (show (smallPut.ops 0).isSome = true by
    decide +kernel)
  obtain ⟨o', ho', hok⟩ := Option.map_eq_some_iff.mp hout
  obtain ⟨s', hs', ho'⟩ := Option.bind_eq_some_iff.mp ho'
  exact ⟨o, s', o', ho, hs', ho', hok,
    (writes_linearize (State.fresh_opened .small) hreach).2.1 ho hs' ho'⟩

/-- A small store with a key, and a put of it that is to create it and asks for version 0. -/
def smallCreate : State :=
  .after .small (stampActs 0 .data ++ putActs 0 0 [2] [1] ++ [.op 0 (.commit false),
    .start 1 (.put .create (some 0) [3]) [1], .op 1 (.allocate 0), .op 1 .loadTimestamp,
    .op 1 .writeRecord, .op 1 .loadSnapshot, .op 1 (.lookup (some 0)), .op 1 .read,
    .op 1 .loadSnapshot, .op 1 (.lookup none)])

/-- The key has version 16, not 0, and the put is told that the key exists, not that the version
is stale, which is due as well. -/
theorem smallCreate_eexist :
    Reach (State.step .small) (fun _ _ => True) (.fresh 0) smallCreate
      ∧ (smallCreate.ops 1).map (·.kind) = some (.put .create (some 0) [3])
      ∧ smallCreate.core.kvMap .small [1] = some ([2], 16)
      ∧ ((smallCreate.step .small (.op 1 (.commit false))).bind (·.ops 1)).map Op.outcome
        = some (some .eexist)
      ∧ ¬ (OpKind.put .create (some 0) [3]).Documented (some 16) .eexist := by
  refine ⟨State.after_reach (by decide +kernel) (fun _ _ _ => trivial), ?_, ?_, ?_, ?_⟩
  · decide +kernel
  · decide +kernel
  · decide +kernel
  · rintro ⟨-, -, hstale⟩
    cases hstale.mpr ⟨16, rfl, by decide⟩

end UDepot
