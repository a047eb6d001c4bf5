import UDepot.Probe.Passes
import UDepot.Store.Rewrites

/-!
# The loops of a write

The loops of `put` and `del` count nothing: a pass of `probe_key` is followed by another until the
probe is settled, and a record is followed by another until it is newer than the key's entry.
`Counts` counts them from some state on, in which the operation may be anywhere and may have any
probe.  `Op.Advances` lists the steps of an operation for which nothing fails; each of them leaves
fewer to come (`Op.Advances.rank_lt`).
-/

namespace UDepot

/-! ### What is counted -/

/-- The cursor of the pass that `probe_key` makes, the passes since the operation last wrote a
record or went round its loop, and the records it has written and those that were rejected. -/
structure Counts where
  start : Nat
  passes : Nat
  writes : Nat
  rewrites : Nat
  deriving DecidableEq, Repr

/-- What a step that leads to a phase adds. -/
def Counts.note (k : Counts) : OpAct → OpPhase → Counts
  | .lookup (some d), _ => { k with start := d + 1 }
  | .writeRecord, _ => { k with start := 0, passes := 1, writes := k.writes + 1 }
  | .resume, _ | .call, _ => { k with start := 0, passes := 1 }
  | .commit _, .probe => { k with start := 0, passes := k.passes + 1 }
  | .commit _, .calls _ .again => { k with rewrites := k.rewrites + 1 }
  | _, _ => k

/-- What an operation does if nothing fails.  It looks up entries in the order of their slots. -/
def Op.Goes (env : StoreEnv) (c : Core) (o : Op) (start : Nat) : OpAct → Prop
  | .allocate seg => c.segMdOk seg = true
  | .lookup slot => ∀ gen, o.phase = .look gen → slot =
      (((c.snaps gen).tableForHash (env.hashKey o.key)).lookup (env.hashKey o.key) start true).map
        (·.offset)
  | .resume | .loadTimestamp | .writeRecord | .loadSnapshot | .read | .commit _ | .call => True
  | _ => False

/-- The operation is at an allocation. -/
def OpPhase.allocates : OpPhase → Bool
  | .alloc | .spaceWait => true
  | _ => false

/-- The operation is between its record and the commit. -/
def OpPhase.probes : OpPhase → Bool
  | .probe | .look _ | .verify _ | .commit | .growWait => true
  | _ => false

/-- What the operation returns is settled. -/
def OpPhase.returns : OpPhase → Bool
  | .calls _ (.ret _) | .version _ _ | .done _ _ => true
  | _ => false

/-! ### What the operation holds -/

/-- An operation that has a record to write or to commit holds its range. -/
def Op.Holds (o : Op) : Prop :=
  match o.phase with
  | .stamp | .write _ => o.own.isSome = true
  | .probe | .look _ | .verify _ | .commit | .growWait =>
      o.value.isSome = true → o.own.isSome = true
  | .version _ _ => o.kind = .get
  | _ => True

section

variable {env : StoreEnv} {c c' : Core} {i : Nat} {o o' : Op} {lock : Option Nat} {a : OpAct}

theorem Op.Steps.kept (h : Op.Steps env c i o lock a c' o') :
    o'.kind = o.kind ∧ o'.key = o.key := by
  cases h with
  | commit _ _ _ _ _ h => cases h <;> exact ⟨rfl, rfl⟩
  | _ => exact ⟨rfl, rfl⟩

theorem Op.found_phase (e : EntryInfo) :
    (o.found c e).phase = .probe ∨ (o.found c e).phase = .verify e := by
  rw [Op.found]
  split_ifs
  · left
    rfl
  · right
    rfl

theorem Op.Holds.step (h : o.Holds) (hs : Op.Steps env c i o lock a c' o') : o'.Holds := by
  cases hs with
  | allocate hph ha hok => rfl
  | loadTimestamp hph hown =>
      rw [Op.Holds, hown]
      rfl
  | writeRecord hph hown =>
      intro _
      simp only [hown, Option.isSome_some]
  | loadSnapshot hph | unsettled hph | frozen hph | commitStale hph | resumeProbe hph
  | readKey hph =>
      rw [Op.Holds, hph] at h
      exact h
  | lookupEnd hph =>
      rw [Op.Holds, hph] at h
      rw [Op.Holds]
      by_cases hget : o.kind = .get
      · rw [if_pos hget]
        trivial
      · rw [if_neg hget]
        exact h
  | lookup hph he =>
      rw [Op.Holds, hph] at h
      rw [Op.Holds]
      rcases Op.found_phase _ with hph' | hph' <;> rw [hph'] <;> exact h
  | readGet hph hget =>
      rw [Op.Holds, hph] at h
      rw [Op.Holds]
      cases o.valueRead env c _ with
      | none => exact h
      | some v => exact hget
  | again hph =>
      rw [Op.Holds]
      split_ifs with hval
      · trivial
      · exact fun hval' => absurd hval' hval
  | call hph => trivial
  | commit hph hlock hmay hset hv h' =>
      cases h' with
      | insertGrow hown _ _ =>
          intro _
          simp [Op.unprotected, hown]
      | _ => trivial
  | _ => trivial

end

/-! ### The steps of an operation that runs alone -/

/-- The steps of an operation for which nothing fails, with what they count, up to the commit that
settles what it returns. -/
inductive Op.Advances (env : StoreEnv) (c : Core) (i : Nat) (o : Op) (k : Counts) :
    Core → Op → Counts → Prop
  | allocate {seg pba : Nat} {c' : Core} (hph : o.phase = .alloc)
      (ha : c.allocate env.geo (.op i) .data seg (o.grains env) = some (c', pba))
      (hok : c.segMdOk seg = true) :
      Advances env c i o k c' { o with own := some pba, phase := .stamp } k
  | resumeAlloc (hph : o.phase = .spaceWait) :
      Advances env c i o k (c.enter (.op i)).1
        { o with sec := (c.enter (.op i)).2, phase := .alloc } { k with start := 0, passes := 1 }
  | loadTimestamp {ts : Nat} (hph : o.phase = .stamp) :
      Advances env c i o k c { o with phase := .write ts } k
  | writeRecord {ts pba : Nat} (hph : o.phase = .write ts) (hown : o.own = some pba) :
      Advances env c i o k (c.writeRec pba ⟨o.key, ts, o.value, o.grains env⟩)
        { o with phase := .probe } { k with start := 0, passes := 1, writes := k.writes + 1 }
  | loadSnapshot (hph : o.phase = .probe) : Advances env c i o k c { o with phase := .look c.cur } k
  | lookupEnd {gen : Nat} (hph : o.phase = .look gen)
      (hend : ((c.snaps gen).tableForHash (env.hashKey o.key)).lookup (env.hashKey o.key) k.start
        true = none) :
      Advances env c i o k c { o with phase := .commit } k
  | lookup {gen : Nat} {e : HashEntry} (hph : o.phase = .look gen)
      (he : ((c.snaps gen).tableForHash (env.hashKey o.key)).lookup (env.hashKey o.key) k.start
        true = some e) :
      Advances env c i o k c (o.found c e.val) { k with start := e.offset + 1 }
  | read {e : EntryInfo} {isMatch : Bool} (hph : o.phase = .verify e) :
      Advances env c i o k c { o with probe := o.probe.push ⟨e.pba, isMatch⟩, phase := .probe } k
  | unsettled (hph : o.phase = .commit)
      (hset : (probeSettled (c.curSnap.tableForHash (env.hashKey o.key)) (env.hashKey o.key)
        o.probe).1 = false) :
      Advances env c i o k c { o with phase := .probe }
        { k with start := 0, passes := k.passes + 1 }
  | needTomb (hph : o.phase = .commit) (hown : o.own = none) :
      Advances env c i o k c { o with phase := .alloc } k
  | rewrite {pba : Nat} {e : EntryInfo} {r : Rec} (hph : o.phase = .commit)
      (hown : o.own = some pba) (he : c.EntryOf env o.key e r)
      (hold : newerThan env.geo c.segTimestamps pba e.pba = false) :
      Advances env c i o k c (o.giveBack env
        (if env.geo.segOf pba ≠ env.geo.segOf e.pba then [Call.drain .data] else []) .again)
        { k with rewrites := k.rewrites + 1 }
  | ends {c' : Core} {o' : Op} {todo : List Call} {rc : Rc} (hph : o.phase = .commit)
      (hph' : o'.phase = .calls todo (.ret rc)) (hlen : todo.length ≤ 2) :
      Advances env c i o k c' o' k
  | resumeProbe (hph : o.phase = .growWait) :
      Advances env c i o k (c.enter (.op i)).1
        { o with sec := (c.enter (.op i)).2, phase := .probe } { k with start := 0, passes := 1 }
  | call {x : Call} {todo : List Call} (hph : o.phase = .calls (x :: todo) .again) :
      Advances env c i o k (c.call x) { o with phase := .calls todo .again }
        { k with start := 0, passes := 1 }
  | again (hph : o.phase = .calls [] .again) :
      Advances env c i o k c { o with phase := if o.value.isSome then .alloc else .probe }
        { k with start := 0, passes := 1 }

section

variable {env : StoreEnv} {c c' : Core} {i : Nat} {o o' : Op} {k k' : Counts} {a : OpAct}

/-- A decision of an operation whose table has room. -/
theorem Op.Enacts.advances
    {m : Option EntryInfo} {v : Verdict} {early : Bool} (h : Op.Enacts env c i o v c' o')
    (hph : o.phase = .commit) (hfits : v.Fits env.geo c.segTimestamps o m)
    (hsome : ∀ e, m = some e → ∃ r, c.EntryOf env o.key e r)
    (hroom : ∀ pba, (c.curSnap.insertLocked (env.hashKey o.key) (o.kvSize env) pba).1 = true) :
  o.Advances env c i k c' o' (k.note (.commit early) o'.phase)
  := by
  cases h with
  | refuse rc =>
      refine .ends hph rfl ?_
      cases o.own with
      | none => exact Nat.zero_le 2
      | some p => exact Nat.le_refl 2
  | needTomb => exact .needTomb hph hfits.1
  | rewrite e hown =>
      obtain ⟨hm, p, hp, hold⟩ := hfits
      cases hown.symm.trans hp
      obtain ⟨r, he⟩ := hsome e hm
      exact .rewrite hph hown he hold
  | insert hown hins => exact .ends hph rfl (Nat.le_succ 1)
  | insertFull hown hins _ | insertGrow hown hins _ =>
      have hfull := congrArg Prod.fst hins
      rw [hroom] at hfull
      cases hfull
  | replace e hown => exact .ends hph rfl (Nat.le_refl 2)

theorem Op.advances_of_step
    (hinv : c.Inv env) (ho : OpInv env c i o) (hunfrozen : c.curSnap.frozen = false)
    (hroom : ∀ pba, (c.curSnap.insertLocked (env.hashKey o.key) (o.kvSize env) pba).1 = true)
    (hget : o.kind ≠ .get) (hph : o.phase.returns = false) (hgoes : o.Goes env c k.start a)
    (hs : o.step env none c i a = some (c', o')) :
  o.Advances env c i k c' o' (k.note a o'.phase)
  := by
  cases Op.steps_of_step hs with
  | allocate hph ha hok => exact .allocate hph ha hok
  | allocateBad hph ha hok => exact absurd hgoes hok
  | resumeAlloc hph => exact .resumeAlloc hph
  | loadTimestamp hph hown => exact .loadTimestamp hph
  | writeRecord hph hown => exact .writeRecord hph hown
  | loadSnapshot hph => exact .loadSnapshot hph
  | lookupEnd hph =>
      rw [if_neg hget]
      exact .lookupEnd hph (Option.map_eq_none_iff.mp (hgoes _ hph).symm)
  | lookup hph he =>
      obtain ⟨e, hfound, rfl⟩ := Option.map_eq_some_iff.mp (hgoes _ hph).symm
      have hmatch := (HashTable.lookup_eq_some hfound).2.2.1
      simp only [ne_eq, hget, not_false_eq_true, decide_true, hmatch, Option.some.injEq] at he
      subst he
      exact .lookup hph hfound
  | readGet hph hkind => exact absurd hkind hget
  | readKey hph _ => exact .read hph
  | frozen _ hmay => simp [Core.mayWrite, hunfrozen] at hmay
  | unsettled hph hset => exact .unsettled hph (by rw [hset])
  | commit hph _ _ hset hv henacts =>
      exact henacts.advances hph (Op.verdict_fits hv) (ho.entryOf_of_settled hinv hset) hroom
  | resumeProbe hph => exact .resumeProbe hph
  | @call x todo next hcalls =>
      cases next with
      | ret rc =>
          rw [hcalls] at hph
          cases hph
      | again => exact .call hcalls
  | returns hcalls =>
      rw [hcalls] at hph
      cases hph
  | again hph => exact .again hph
  | loadVersion hversion =>
      rw [hversion] at hph
      cases hph
  | _ => cases hgoes

/-- The directory stays as it is until the commit. -/
theorem Op.Advances.calm
    (h : o.Advances env c i k c' o' k') (hph' : o'.phase.returns = false) :
  c'.snaps = c.snaps ∧ c'.cur = c.cur
  := by
  cases h with
  | allocate hph ha hok =>
      rw [(Core.allocate_spec ha).after]
      exact ⟨rfl, rfl⟩
  | call hph =>
      rename_i x todo
      cases x <;> exact ⟨rfl, rfl⟩
  | ends hph hends hlen =>
      rw [hends] at hph'
      cases hph'
  | _ => exact ⟨rfl, rfl⟩

/-! ### Records that are newer -/

/-- A segment that is being stamped is newer than the entry, unless the operation waits for it. -/
theorem Op.Advances.stamps
    (h : o.Advances env c i k c' o' k') (hsteady : Steady env c c' o.key)
    (hstaging : c'.Staging env.geo) (hst : o.phase.allocates = false → c.StampsNewer env o.key)
    (hph' : o'.phase.allocates = false) (hret : o'.phase.returns = false) :
  c'.StampsNewer env o.key
  := by
  have hstep : ∀ {ph}, o.phase = ph → ph.allocates = false → c'.StampsNewer env o.key := by
    rintro ph rfl hall
    exact (hst hall).step hsteady
  cases h with
  | allocate hph ha hok =>
      -- The range was handed out in the one segment that is staged.
      intro e r _ seg' count stage hstamping
      have hspec := Core.allocate_spec ha
      have hopened := hspec.phase_seg
      have hstaged : (c'.phase seg').staged = true := by
        rw [hstamping]
        rfl
      have heq := hstaging.one hstaged (by rw [hopened]; rfl)
      rw [heq, hopened] at hstamping
      cases hstamping
  | resumeAlloc hph => cases hph'
  | ends hph hends hlen =>
      rw [hends] at hret
      cases hret
  | loadTimestamp hph | writeRecord hph _ | loadSnapshot hph | lookupEnd hph _ | lookup hph _
  | read hph | unsettled hph _ | needTomb hph _ | rewrite hph _ _ _ | resumeProbe hph | call hph
  | again hph => exact hstep hph rfl

/-- A record is rejected once at most. -/
theorem Op.Advances.rewrites
    (h : o.Advances env c i k c' o' k') (hfresh : k.rewrites = 0 ∨ o.Fresh env c)
    (hle : k.rewrites ≤ 1) :
  k'.rewrites ≤ 1
  := by
  cases h with
  | rewrite hph hown he hold =>
      rcases hfresh with hzero | hfresh
      · simp only [hzero, Nat.zero_add, Nat.le_refl]
      · rw [Op.Fresh, hph, hown] at hfresh
        cases hold.symm.trans (hfresh _ _ he)
  | _ => exact hle

/-- Once a record was rejected, the next is newer than the entry. -/
theorem Op.Advances.fresh
    (h : o.Advances env c i k c' o' k') (hfresh : k.rewrites = 0 ∨ o.Fresh env c)
    (ho : OpInv env c i o) (hsteady : Steady env c c' o.key) (hstaging : c.Staging env.geo)
    (hst : o.phase.allocates = false → c.StampsNewer env o.key) :
  k'.rewrites = 0 ∨ o'.Fresh env c'
  := by
  have hnone := ho.phaseOk
  cases h with
  | rewrite hph hown he hold =>
      right
      apply ho.fresh_of_rewrite hsteady.inv hstaging (hst (by rw [hph]; rfl)) hown he
  | allocate hph ha hok =>
      apply hfresh.imp_right
      intro hfresh
      rw [hph] at hnone
      rw [Op.Fresh, hph, hnone] at hfresh
      exact hfresh.allocate hsteady.inv hsteady ha hok
  | resumeAlloc hph | loadTimestamp hph | writeRecord hph _ | loadSnapshot hph | lookupEnd hph _
  | read hph | unsettled hph _ | needTomb hph _ | resumeProbe hph =>
      apply hfresh.imp_right
      intro hfresh
      have hsame := hfresh.step hsteady ho
      rw [Op.Fresh, hph] at hsame
      exact hsame
  | lookup hph he =>
      apply hfresh.imp_right
      intro hfresh
      have hsame := hfresh.step hsteady ho
      rw [Op.Fresh, hph] at hsame
      rw [Op.Fresh]
      rcases Op.found_phase _ with hph' | hph' <;> rw [hph'] <;> exact hsame
  | ends hph hph' hlen =>
      right
      rw [Op.Fresh, hph']
      trivial
  | call hph =>
      apply hfresh.imp_right
      intro hfresh
      rw [Op.Fresh, hph] at hfresh
      rcases hfresh with hnext | ⟨hmem, hstamps⟩
      · exact .inl (hnext.step hsteady)
      · rcases List.mem_cons.mp hmem with rfl | hmem
        · exact .inl (.of_drain hstamps)
        · exact .inr ⟨hmem, hstamps.step hsteady⟩
  | again hph =>
      apply hfresh.imp_right
      intro hfresh
      rw [hph] at hnone
      rw [Op.Fresh, hph] at hfresh
      have hnext := hfresh.resolve_right (by rintro ⟨⟨⟩, -⟩)
      rw [Op.Fresh]
      split_ifs
      · exact hnone.1 ▸ hnext
      · exact hnone.1 ▸ hnext

/-! ### Passes -/

/-- The entries a pass for a key goes through. -/
def Core.keyEntries (env : StoreEnv) (c : Core) (key : Bytes) : List HashEntry :=
  (c.curSnap.tableForHash (env.hashKey key)).entries (env.hashKey key) true

/-- How many more passes there may be after the one the operation is in.  A pass over a snapshot
that is not current may have to be made again from the start. -/
def Op.passesLeft (env : StoreEnv) (c : Core) (o : Op) (start : Nat) : Nat :=
  match o.phase with
  | .probe => o.probe.missing (c.keyEntries env o.key) (·.offset < start)
  | .look gen =>
      if gen = c.cur then o.probe.missing (c.keyEntries env o.key) (·.offset < start) else 2
  | .verify e => (o.probe.push ⟨e.pba, true⟩).missing (c.keyEntries env o.key) (·.offset < start)
  | .commit => o.probe.missing (c.keyEntries env o.key) fun _ => true
  | _ => 0

theorem Op.passesLeft_le {start : Nat} : o.passesLeft env c start ≤ 2 := by
  rw [Op.passesLeft]
  split
  · apply KeyProbe.missing_le_two
  · split
    · apply KeyProbe.missing_le_two
    · apply Nat.le_refl
  · apply KeyProbe.missing_le_two
  · apply KeyProbe.missing_le_two
  · apply Nat.zero_le

theorem Op.passesLeft_congr
    {start : Nat} (hsnaps : c'.snaps = c.snaps) (hcur : c'.cur = c.cur) :
  o.passesLeft env c' start = o.passesLeft env c start
  := by
  rw [Op.passesLeft, Op.passesLeft, Core.keyEntries, Core.keyEntries, Core.curSnap, Core.curSnap,
    hsnaps, hcur]

/-- A pass that begins leaves one more at most. -/
theorem Op.passesLeft_le_one (hph : o.phase = .probe) : o.passesLeft env c 0 ≤ 1 := by
  rw [Op.passesLeft, hph]
  apply KeyProbe.missing_le_one
  intro e _
  exact decide_eq_false (Nat.not_lt_zero _)

theorem Op.passesLeft_cur {start : Nat} (hph : o.phase = .look c.cur) :
    o.passesLeft env c start
      = o.probe.missing (c.keyEntries env o.key) (·.offset < start) := by
  rw [Op.passesLeft, hph]
  exact if_pos rfl

theorem Op.passesLeft_stale {gen start : Nat} (hph : o.phase = .look gen) (hne : gen ≠ c.cur) :
    o.passesLeft env c start = 2 := by
  rw [Op.passesLeft, hph]
  exact if_neg hne

/-- An entry that a pass over the current snapshot comes upon. -/
theorem Op.passesLeft_found
    {e : HashEntry} {start : Nat} (hget : o.kind ≠ .get) (hph : o.phase = .look c.cur)
    (he : (c.curSnap.tableForHash (env.hashKey o.key)).lookup (env.hashKey o.key) start true
      = some e) :
  (o.found c e.val).passesLeft env c (e.offset + 1) ≤ o.passesLeft env c start
  := by
  have hvisit :
      (o.probe.visit e.val true).missing (c.keyEntries env o.key) (·.offset < e.offset + 1)
        ≤ o.probe.missing (c.keyEntries env o.key) (·.offset < start) := by
    apply KeyProbe.missing_visit HashTable.entriesFrom_length (HashTable.mem_entries_of_lookup he)
    intro x hx hlt
    rw [decide_eq_true_eq] at hlt ⊢
    exact HashTable.lt_or_eq_of_lookup he hx hlt
  rw [Op.passesLeft_cur hph, Op.passesLeft]
  rw [KeyProbe.visit] at hvisit
  by_cases hfind : (o.probe.find e.val.pba).isSome = true
  · have hphase : (o.found c e.val).phase = .probe := if_pos ⟨hget, hfind⟩
    rw [if_pos hfind] at hvisit
    rw [hphase]
    exact hvisit
  · have hphase : (o.found c e.val).phase = .verify e.val := if_neg fun h => hfind h.2
    rw [if_neg hfind] at hvisit
    rw [hphase]
    exact hvisit

/-- A pass over the current snapshot comes to its end. -/
theorem Op.passesLeft_end
    {start : Nat} (hph : o.phase = .look c.cur)
    (hend : (c.curSnap.tableForHash (env.hashKey o.key)).lookup (env.hashKey o.key) start true
      = none) :
  Op.passesLeft env c { o with phase := .commit } start ≤ o.passesLeft env c start
  := by
  rw [Op.passesLeft_cur hph]
  apply KeyProbe.missing_le_missing _ id
  intro hcovers e he _
  exact hcovers e he (decide_eq_true (HashTable.lt_of_lookup_end hend he))

/-- A pass that did not settle the probe leaves fewer. -/
theorem Op.passesLeft_unsettled
    (start : Nat) (hph : o.phase = .commit)
    (hset : (probeSettled (c.curSnap.tableForHash (env.hashKey o.key)) (env.hashKey o.key)
      o.probe).1 = false) :
  Op.passesLeft env c { o with phase := .probe } 0 + 1 ≤ o.passesLeft env c start
  := by
  rw [Op.passesLeft, Op.passesLeft, hph]
  apply KeyProbe.missing_next
  · intro hcovers
    have hsettled : (probeSettled (c.curSnap.tableForHash (env.hashKey o.key))
        (env.hashKey o.key) o.probe).1 = true := by
      apply settle_of_seen
      intro e he
      exact Option.isSome_iff_exists.mp (hcovers e he rfl)
    cases hset.symm.trans hsettled
  · intro e _
    exact decide_eq_false (Nat.not_lt_zero _)

theorem Op.Advances.passes
    (h : o.Advances env c i k c' o' k') (hget : o.kind ≠ .get)
    (hpasses : k.passes + o.passesLeft env c k.start ≤ 2) :
  k'.passes + o'.passesLeft env c k'.start ≤ 2
  := by
  cases h with
  | allocate hph ha hok | loadTimestamp hph | needTomb hph _ | rewrite hph _ _ _ =>
      exact Nat.le_of_add_right_le hpasses
  | resumeAlloc hph | call hph => exact Nat.le_succ 1
  | ends hph hph' hlen =>
      rw [Op.passesLeft, hph']
      exact Nat.le_of_add_right_le hpasses
  | writeRecord hph hown => exact Nat.add_le_add_left (Op.passesLeft_le_one rfl) 1
  | resumeProbe hph => exact Nat.add_le_add_left (Op.passesLeft_le_one rfl) 1
  | again hph =>
      split_ifs
      · exact Nat.le_succ 1
      · exact Nat.add_le_add_left (Op.passesLeft_le_one rfl) 1
  | loadSnapshot hph =>
      rw [Op.passesLeft, hph] at hpasses
      rw [Op.passesLeft_cur rfl]
      exact hpasses
  | lookupEnd hph hend =>
      rename_i gen
      by_cases hgen : gen = c.cur
      · subst hgen
        exact (Nat.add_le_add_left (Op.passesLeft_end hph hend) _).trans hpasses
      · rw [Op.passesLeft_stale hph hgen] at hpasses
        exact (Nat.add_le_add_left Op.passesLeft_le _).trans hpasses
  | lookup hph he =>
      rename_i gen e
      by_cases hgen : gen = c.cur
      · subst hgen
        exact (Nat.add_le_add_left (Op.passesLeft_found hget hph he) _).trans hpasses
      · rw [Op.passesLeft_stale hph hgen] at hpasses
        exact (Nat.add_le_add_left Op.passesLeft_le _).trans hpasses
  | read hph =>
      rw [Op.passesLeft, hph] at hpasses
      exact (Nat.add_le_add_left (KeyProbe.missing_push _ _ _) _).trans hpasses
  | unsettled hph hset =>
      have hfewer := Op.passesLeft_unsettled k.start hph hset
      simp only
      omega

/-! ### Records written, and steps to come -/

/-- Whether the operation has written the record that it commits. -/
def Op.wrote (o : Op) : Bool := o.phase.returns || o.phase.probes && o.own.isSome

/-- There is a record for each that was rejected, and the one that is to be committed. -/
theorem Op.Advances.writes
    (h : o.Advances env c i k c' o' k') (hwrites : k.writes ≤ k.rewrites + o.wrote.toNat) :
  k'.writes ≤ k'.rewrites + o'.wrote.toNat
  := by
  have hbefore : o.wrote = false → k.writes ≤ k.rewrites + o'.wrote.toNat := by
    intro hnot
    rw [hnot] at hwrites
    exact hwrites.trans (Nat.add_le_add_left (Nat.zero_le _) _)
  cases h with
  | allocate hph ha hok | resumeAlloc hph | loadTimestamp hph | call hph | again hph =>
      apply hbefore
      rw [Op.wrote, hph]
      rfl
  | writeRecord hph hown =>
      rw [Op.wrote, hph] at hwrites
      rw [Op.wrote, hown]
      exact Nat.succ_le_succ hwrites
  | loadSnapshot hph | lookupEnd hph _ | read hph | unsettled hph _ | resumeProbe hph =>
      rw [Op.wrote, hph] at hwrites
      exact hwrites
  | lookup hph he =>
      rw [Op.wrote, hph] at hwrites
      rw [Op.wrote]
      rcases Op.found_phase _ with hph' | hph' <;> rw [hph'] <;> exact hwrites
  | needTomb hph hown =>
      apply hbefore
      rw [Op.wrote, hph, hown]
      rfl
  | rewrite hph hown he hold => exact hwrites.trans (Nat.add_le_add_left (Bool.toNat_le _) _)
  | ends hph hph' hlen =>
      rw [Op.wrote, hph']
      exact hwrites.trans (Nat.add_le_add_left (Bool.toNat_le _) _)

/-- A bound on the steps to come, by the rejections, passes and entries that there may be. -/
def Op.rank (o : Op) (k : Counts) : Nat :=
  let round := 640 * (1 - k.rewrites)
  let tomb := if o.own.isSome then 0 else 317
  let pass := 104 * (2 - k.passes)
  let rest := 3 * (kHopRange - k.start)
  match o.phase with
  | .calls todo .again => round + 631 + todo.length
  | .growWait => round + tomb + 312
  | .verify _ => round + tomb + pass + rest + 7
  | .probe => round + tomb + pass + rest + 6
  | .look _ => round + tomb + pass + rest + 5
  | .commit => round + tomb + pass + 4
  | .spaceWait => round + 316
  | .alloc => round + 315
  | .stamp => round + 314
  | .write _ => round + 313
  | .calls todo (.ret _) => todo.length + 1
  | .version _ _ => 1
  | .done _ _ => 0

theorem Op.Advances.rank_lt
    (h : o.Advances env c i k c' o' k') (hpasses : k'.passes ≤ 2) (hrewrites : k'.rewrites ≤ 1) :
  o'.rank k' < o.rank k
  := by
  cases h with
  | allocate hph ha hok | resumeAlloc hph | loadTimestamp hph =>
      simp only [Op.rank, hph]
      omega
  | writeRecord hph hown =>
      simp only [Op.rank, hph, hown, Option.isSome_some, if_true, kHopRange]
      omega
  | loadSnapshot hph | lookupEnd hph _ | read hph =>
      simp only [Op.rank, hph]
      omega
  | unsettled hph _ | resumeProbe hph =>
      simp only [Op.rank, hph, kHopRange] at hpasses ⊢
      omega
  | lookup hph he =>
      obtain ⟨hle, hlt, -⟩ := HashTable.lookup_eq_some he
      rw [kHopRange] at hlt
      rename_i gen e
      have hown : (o.found c e.val).own = o.own := rfl
      rcases Op.found_phase (c := c) (o := o) e.val with hph' | hph'
      · simp only [Op.rank, hph, hph', hown, kHopRange]
        omega
      · simp only [Op.rank, hph, hph', hown, kHopRange]
        omega
  | needTomb hph hown =>
      simp only [Op.rank, hph, hown]
      simp only [Option.isSome_none, Bool.false_eq_true, if_false]
      omega
  | rewrite hph hown he hold =>
      simp only at hrewrites
      have hlen : ∀ {more : List Call}, more.length ≤ 1 →
          (o.giveBack env more .again).rank { k with rewrites := k.rewrites + 1 } ≤ 634 := by
        intro more hmore
        simp only [Op.rank, Op.giveBack, hown, Option.elim_some, List.length_append,
          List.length_cons, List.length_nil]
        omega
      refine Nat.lt_of_le_of_lt (hlen ?_) ?_
      · split_ifs
        · apply Nat.le_refl
        · apply Nat.zero_le
      · simp only [Op.rank, hph]
        omega
  | ends hph hph' hlen =>
      simp only [Op.rank, hph, hph']
      omega
  | call hph =>
      simp only [Op.rank, hph, List.length_cons]
      omega
  | again hph =>
      simp only [Op.rank, hph, List.length_nil, kHopRange]
      split_ifs
      all_goals
        simp only
        omega

end

end UDepot
