import UDepot.Store.Inversion
import UDepot.Store.OpSteps

/-!
# The commit step

Once the probe is settled under the lock, an operation knows its key's entry or knows that there
is none, whatever other keys share the bucket and the tag.  What it then does to the directory
keeps the invariants.
-/

namespace UDepot

/-! ### The decision -/

/-- What a decision says about the entry found and the range of the operation. -/
def Verdict.Fits (geo : Geometry) (ts : Nat → Nat) (o : Op) (m : Option EntryInfo) :
    Verdict → Prop
  | .refuse _ => True
  | .insert => m = none
  | .rewrite e => m = some e ∧ ∃ p, o.own = some p ∧ newerThan geo ts p e.pba = false
  | .replace e => m = some e ∧ ∃ p, o.own = some p ∧ newerThan geo ts p e.pba = true
  | .needTomb => o.own = none ∧ o.kind ≠ .get ∧ o.value = none
      ∧ ∃ e, m = some e ∧ e.deleted = false

theorem placement_fits
    {geo : Geometry} {ts : Nat → Nat} {o : Op} {p : Nat} (hp : o.own = some p)
    (m : Option EntryInfo) :
  (placement geo ts p m).Fits geo ts o m
  := by
  cases m with
  | none => rfl
  | some e =>
      rw [placement]
      split
      · rename_i hnew
        exact ⟨rfl, p, hp, hnew⟩
      · rename_i hold
        exact ⟨rfl, p, hp, by simpa using hold⟩

theorem Op.verdict_fits
    {geo : Geometry} {ts : Nat → Nat} {o : Op} {m : Option EntryInfo} {v : Verdict}
    (hv : o.verdict geo ts m = some v) :
  v.Fits geo ts o m
  := by
  rw [Op.verdict] at hv
  split at hv
  · obtain ⟨p, hp, rfl⟩ := Option.map_eq_some_iff.mp hv
    rw [putVerdict]
    repeat' split
    all_goals first
      | trivial
      | apply placement_fits hp
  · rename_i iv hk
    cases hv
    simp only [delVerdict]
    split
    · trivial
    · rename_i e hm
      obtain ⟨rfl, hlive⟩ := Option.filter_eq_some_iff.mp hm
      split
      · trivial
      · cases hown : o.own with
        | none =>
            refine ⟨hown, by simp [hk], by simp [Op.value, hk], e, rfl, ?_⟩
            simpa using hlive
        | some p => apply placement_fits hown
  · cases hv

section

variable {env : StoreEnv} {c c' : Core} {lock : Option Nat} {i : Nat} {o : Op}
    (h : c.Inv env) (ho : OpInv env c i o)

include h ho

/-- A settled probe has found the key's entry, or there is none. -/
theorem OpInv.settled
    {m : Option HashEntry}
    (hset : probeSettled (c.curSnap.tableForHash (env.hashKey o.key)) (env.hashKey o.key) o.probe
      = (true, m)) :
  (∀ e, m = some e → ∃ r, c.EntryOf env o.key e.val r) ∧ (m = none → c.Absent o.key)
  := by
  have hwf := h.dir.wf
  have ht := hwf.tableForHash (env.hashKey o.key)
  obtain ⟨hall, -, hfound⟩ := settle_true hset
  obtain ⟨hsome, hnone⟩ := hfound rfl
  have hseen : ∀ {p s}, o.probe.find p = some s → ∃ r, c.recs p = some r
      ∧ (s.isMatch = true ↔ r.key = o.key) := by
    intro p s hs
    obtain ⟨hmem, rfl⟩ := KeyProbe.find_eq_some hs
    obtain ⟨r, hr, hmatch⟩ := ho.seen hmem
    exact ⟨r, (ho.loaded hr).current.record, hmatch⟩
  constructor
  · intro e he
    obtain ⟨hmem, s, hs, hmatch⟩ := hsome e he
    obtain ⟨r, hr, hkey⟩ := hseen hs
    obtain ⟨hitem, htag⟩ := ht.mem_entries_val.mp ⟨e, hmem, rfl⟩
    rw [hwf.tagOf] at htag
    rw [hwf.hashToBucket] at hitem
    exact ⟨r, (hwf.mem_items_iff htag).mpr hitem, hr, hkey.mp hmatch⟩
  · intro hm x hx r hr hkey
    obtain ⟨hbucket, htag, -⟩ := h.item_eq hx hr
    rw [hkey] at hbucket htag
    have hitem : (c.curSnap.bucketOf (env.hashKey o.key), x.2) ∈ c.curSnap.items := by
      rw [← hbucket]
      apply hx
    rw [hwf.mem_items_iff htag, ← hwf.hashToBucket] at hitem
    obtain ⟨e, he, heq⟩ := ht.mem_entries_val.mpr ⟨hitem, htag.trans (hwf.tagOf _).symm⟩
    obtain ⟨s, hs⟩ := hall e he
    have hmatch := hnone hm e he s hs
    obtain ⟨r', hr', hkey'⟩ := hseen hs
    rw [heq] at hr'
    cases hr.symm.trans hr'
    rw [hkey'.mpr hkey] at hmatch
    cases hmatch

theorem OpInv.entryOf_of_settled
    {m : Option HashEntry}
    (hset : probeSettled (c.curSnap.tableForHash (env.hashKey o.key)) (env.hashKey o.key) o.probe
      = (true, m)) (e : EntryInfo) (he : m.map (·.val) = some e) :
  ∃ r, c.EntryOf env o.key e r
  := by
  obtain ⟨e', rfl, rfl⟩ := Option.map_eq_some_iff.mp he
  exact (ho.settled h hset).1 e' rfl

/-- The record an operation wrote, committed in its segment's present life as soon as an entry
points at it. -/
theorem OpInv.record_spec {p : Nat} (hw : o.phase.writes = false) (hp : o.own = some p) :
    c.recs p = some (o.record env (c.segTimestamps (env.geo.segOf p)))
      ∧ env.item (o.record env (c.segTimestamps (env.geo.segOf p))) p
        = (c.curSnap.bucketOf (env.hashKey o.key),
          ⟨c.curSnap.tagOf (env.hashKey o.key), o.kvSize env, p⟩) := by
  use ho.written hw hp
  rw [DirSnapshot.bucketOf, DirSnapshot.tagOf, h.dir.bits]
  rfl

/-- A key's first entry. -/
theorem OpInv.insert
    {p : Nat} {snap : DirSnapshot} (hph : o.phase = .commit) (hp : o.own = some p)
    (habsent : c.Absent o.key)
    (hins : c.curSnap.insertLocked (env.hashKey o.key) (o.kvSize env) p = (true, snap)) :
  Frame env c (((c.setCur snap).give p .entry).recordCommit env.geo o.key p) lock (some (.op i))
    ∧ OpInv env (((c.setCur snap).give p .entry).recordCommit env.geo o.key p) i
      { o with own := none, phase := .calls [.release p (o.grains env)] (.ret .ok) }
    ∧ Commits env (.op i) c (((c.setCur snap).give p .entry).recordCommit env.geo o.key p) p
      (o.record env (c.segTimestamps (env.geo.segOf p))) none
  := by
  obtain ⟨hown, hok, -⟩ := ho.own hp
  have hw : o.phase.writes = false := by
    rw [hph]
    rfl
  have hsec := ho.active (by rw [hph]; rfl)
  obtain ⟨hrec, hitem⟩ := ho.record_spec h hw hp
  obtain ⟨hwf, htables, hbits, -, -, hitems⟩ := h.dir.wf.insertLocked hins
  rw [if_pos rfl, Multiset.singleton_add, ← hitem] at hitems
  have hf : Frame env c (((c.setCur snap).give p .entry).recordCommit env.geo o.key p) lock
      (some (.op i)) := h.insertEntry hown hrec rfl hok hwf hbits htables hitems habsent lock
  have hcur : (((c.setCur snap).give p .entry).recordCommit env.geo o.key p).curSnap = snap := by
    simp [Core.curSnap, Core.recordCommit, Core.give, Core.mapRange, Core.setCur]
  refine ⟨hf, ?_, hown, hrec, rfl, hok, rfl, rfl, rfl, rfl, rfl, fun _ => ⟨habsent, ?_⟩,
    by rintro _ _ ⟨⟩⟩
  swap
  · rw [hcur]
    apply hitems
  apply (ho.toOpView.of_frame hf hsec).calls hsec
  constructor
  · intro q len hq
    simp at hq
  · intro q len hq
    simp only [List.mem_singleton, Call.release.injEq] at hq
    obtain ⟨rfl, rfl⟩ := hq
    use .entry
    rw [ho.sec]
    exact Core.Inv.give_self .entry hown
  · simp [List.filterMap_cons, Call.invalidated]
  · simp [Call.released]

/-- The key's entry is replaced.  If the stripes of the entry's hash are locked, no commit is
made. -/
theorem OpInv.replace
    {p : Nat} {e : EntryInfo} {r : Rec} (hph : o.phase = .commit) (hp : o.own = some p)
    (hentry : c.EntryOf env o.key e r)
    (hnewer : newerThan env.geo c.segTimestamps p e.pba = true)
    (hlock : lock.any (c.curSnap.locksMeet (env.hashKey o.key)) = false) :
  ∃ snap, c.curSnap.updateLocked (env.hashKey o.key) e.pba (o.kvSize env) p = some snap
    ∧ Frame env c ((((c.setCur snap).give e.pba (.remover (.op i))).give p .entry).recordCommit
      env.geo o.key p) lock (some (.op i))
    ∧ OpInv env ((((c.setCur snap).give e.pba (.remover (.op i))).give p .entry).recordCommit
      env.geo o.key p) i
      { o with
        own := none
        phase := .calls [.invalidate e.pba (o.entryGrains env e), .release p (o.grains env)]
          (.ret .ok) }
    ∧ Commits env (.op i) c ((((c.setCur snap).give e.pba (.remover (.op i))).give p
      .entry).recordCommit env.geo o.key p) p
      (o.record env (c.segTimestamps (env.geo.segOf p))) (some (e, r))
  := by
  obtain ⟨hown, hok, -⟩ := ho.own hp
  have hsec := ho.active (by rw [hph]; rfl)
  obtain ⟨hrec, -⟩ := ho.record_spec h (by rw [hph]; rfl) hp
  have hown' : Owned c o.sec.2 p (o.grains env) := ho.sec ▸ hown
  obtain ⟨snap, hsnap, hafter⟩ := h.commitReplace _ (s := o.sec)
    (r := o.record env (c.segTimestamps (env.geo.segOf p))) hentry hnewer hown' hrec rfl hok
    (fun _ => hlock)
  rw [ho.sec] at hafter
  obtain ⟨hf, hc, hinv, hrel⟩ := hafter rfl
  refine ⟨snap, hsnap, hf, ?_, hc⟩
  obtain ⟨hmem, hr, hkey⟩ := hentry
  obtain ⟨-, -, hx⟩ := h.item_eq hmem hr
  have hgrains : o.entryGrains env e = r.grains := by
    rw [show e = (env.item r e.pba).2 from congrArg Prod.snd hx]
    apply (h.recs.shape hr).entryGrains hkey
  apply (ho.toOpView.of_frame hf hsec).calls hsec
  constructor
  · intro q len hq
    simp only [List.mem_cons, Call.invalidate.injEq, reduceCtorEq, List.not_mem_nil,
      or_false] at hq
    obtain ⟨rfl, rfl⟩ := hq
    rw [hgrains]
    apply hinv
  · intro q len hq
    simp only [List.mem_cons, Call.release.injEq, reduceCtorEq, List.not_mem_nil, or_false,
      false_or] at hq
    obtain ⟨rfl, rfl⟩ := hq
    rw [ho.sec]
    apply hrel
  · simp [List.filterMap_cons, Call.invalidated]
  · simp [List.filterMap_cons, Call.released]

/-- A live entry is of a record that is no smaller than a tombstone. -/
theorem OpInv.needTomb
    {e : EntryInfo} {r : Rec} (hph : o.phase = .commit) (hentry : c.EntryOf env o.key e r)
    (hown : o.own = none) (hget : o.kind ≠ .get) (hval : o.value = none) :
  OpInv env c i { o with phase := .alloc }
  := by
  have hshape := h.recs.shape hentry.record
  refine ho.goOn (by rw [hph]; rfl) (by rw [hph]; rfl) ?_ hown rfl
  intro _
  refine ⟨hown, ?_, hget⟩
  have hgrains : o.grains env = env.geo.kvTotalGrains o.key.length 0 := by
    rw [Op.value] at hval
    rw [Op.grains]
    split
    · rename_i hput
      rw [hput] at hval
      cases hval
    · rfl
  apply Nat.le_trans _ hshape.small
  rw [hgrains, hshape.grains, hentry.key_eq]
  apply env.geo.kvTotalGrains_mono (Nat.zero_le _)

/-- The table is full: no entry is made. -/
theorem OpInv.full
    {p : Nat} {snap : DirSnapshot}
    (hins : c.curSnap.insertLocked (env.hashKey o.key) (o.kvSize env) p = (false, snap)) :
  (∀ b, Frame env c (c.setCur snap) lock b) ∧ OpInv env (c.setCur snap) i o
    ∧ Quiet c (c.setCur snap)
  := by
  obtain ⟨hwf, htables, hbits, -, -, hitems⟩ := h.dir.wf.insertLocked hins
  have hf : ∀ b, Frame env c (c.setCur snap) lock b :=
    h.setCur_of_items hwf hbits htables (by simpa using hitems) lock
  refine ⟨hf, ho.of_frame (hf none) (by simp), ?_, rfl, rfl⟩
  simpa [Core.setCur, Core.curSnap] using hitems

/-- The calls an operation has to make after its commit. -/
def Op.callsAfter (env : StoreEnv) (o : Op) (p : Nat) (old : Option (EntryInfo × Rec)) :
    List Call :=
  (old.elim [] fun er => [.invalidate er.1.pba (o.entryGrains env er.1)])
    ++ [.release p (o.grains env)]

/-- What a step of an operation does: it keeps the invariants, and it leaves the directory alone
or commits the operation, which then has nothing to do but to give up the range it replaced and
return success. -/
structure OpStep (env : StoreEnv) (lock : Option Nat) (i : Nat) (c c' : Core) (o o' : Op) :
    Prop where
  frame : Frame env c c' lock (some (.op i))
  inv : OpInv env c' i o'
  effect : Quiet c c' ∨ ∃ p old, o.phase = .commit ∧ o.own = some p
    ∧ o' = { o with own := none, phase := .calls (o.callsAfter env p old) (.ret .ok) }
    ∧ Commits env (.op i) c c' p (o.record env (c.segTimestamps (env.geo.segOf p))) old

omit ho in
/-- An operation goes on, with no change to the store. -/
theorem Core.Inv.stays {o' : Op} (ho' : OpInv env c i o') : OpStep env lock i c c o o' :=
  ⟨h.refl lock _, ho', .inl .refl⟩

/-- An operation in its section gives back what it has and returns. -/
theorem OpInv.fails
    (ha : o.phase.active = true) {more : List Call} {next : Next}
    (hmore : ∀ x ∈ more, ∃ stream, x = Call.drain stream) :
  OpStep env lock i c c o (o.giveBack env more next)
  := h.stays (ho.toOpView.giveBack h (ho.active ha) (fun hp => (ho.own hp).1) hmore _)

/-- The operation waits for a grow. -/
theorem OpInv.waitForGrow (hph : o.phase = .commit) :
    OpStep env lock i c (c.leave o.sec) o (o.unprotected .growWait) := by
  obtain ⟨hf, hop⟩ := ho.leave h lock .growWait rfl (by rintro ⟨⟩)
    (fun _ => .inr (by rw [hph]; rfl)) trivial
  exact ⟨hf, hop, .inl ⟨rfl, rfl, rfl⟩⟩

/-- Carrying out a decision that fits what is in the directory. -/
theorem OpInv.enact
    {m : Option EntryInfo} {v : Verdict} {o' : Op} (hph : o.phase = .commit)
    (hlock : lock.any (c.curSnap.locksMeet (env.hashKey o.key)) = false)
    (hsome : ∀ e, m = some e → ∃ r, c.EntryOf env o.key e r)
    (hnone : m = none → c.Absent o.key) (hv : v.Fits env.geo c.segTimestamps o m)
    (hs : Op.Enacts env c i o v c' o') :
  OpStep env lock i c c' o o'
  := by
  have hactive : o.phase.active = true := by
    rw [hph]
    rfl
  cases hs with
  | refuse rc => exact ho.fails h hactive (by simp)
  | insert hp hins =>
      obtain ⟨hf, hop, hc⟩ := ho.insert h hph hp (hnone hv) hins
      exact ⟨hf, hop, .inr ⟨_, none, hph, hp, rfl, hc⟩⟩
  | insertFull hp hins _ =>
      obtain ⟨hf, ho', hq⟩ := ho.full h hins
      refine ⟨hf _, ?_, .inl hq⟩
      have hop : OpStep env lock i _ _ o (o.giveBack env [] (.ret .enospc)) :=
        ho'.fails (hf none).inv hactive (by simp)
      exact hop.inv
  | insertGrow hp hins _ =>
      obtain ⟨hf, ho', hq⟩ := ho.full h hins
      obtain ⟨hf', hop, -⟩ := ho'.waitForGrow (hf none).inv hph
      exact ⟨(hf _).trans hf' id (List.Subset.refl _), hop, .inl ⟨hq.items, rfl, rfl⟩⟩
  | rewrite e hp =>
      refine ho.fails h hactive fun x hx => ?_
      split at hx
      · exact ⟨_, List.mem_singleton.mp hx⟩
      · cases hx
  | replace e hp =>
      obtain ⟨hm, p', hp', hnewer⟩ := hv
      cases hp.symm.trans hp'
      obtain ⟨r, hentry⟩ := hsome e hm
      obtain ⟨snap, hsnap, hf, hop, hc⟩ := ho.replace h hph hp hentry hnewer hlock
      rw [hsnap, Option.getD_some]
      exact ⟨hf, hop, .inr ⟨_, some (e, r), hph, hp, rfl, hc⟩⟩
  | needTomb =>
      obtain ⟨hown, hget, hval, e, hm, -⟩ := hv
      obtain ⟨r, hentry⟩ := hsome e hm
      exact h.stays (ho.needTomb h hph hentry hown hget hval)

/-! ### Every step of an operation -/

theorem OpInv.allocates
    {seg pba : Nat} (hph : o.phase = .alloc)
    (ha : c.allocate env.geo (.op i) .data seg (o.grains env) = some (c', pba)) :
  (c.segMdOk seg = true → OpStep env lock i c c' o { o with own := some pba, phase := .stamp })
    ∧ OpStep env lock i c c' o ({ o with own := some pba }.giveBack env [] (.ret .eio))
  := by
  have ha := Core.allocate_spec ha
  obtain ⟨hf, hstamp, hback⟩ := ho.allocate h hph ha
  have hquiet : Quiet c c' := by
    rw [ha.after]
    exact ⟨rfl, rfl, rfl⟩
  exact ⟨fun hok => ⟨hf, hstamp hok, .inl hquiet⟩, hf, hback, .inl hquiet⟩

/-- An operation without a range has no more calls to make. -/
theorem OpInv.noCalls (ha : o.phase.active = true) (hown : o.own = none) (next : Next) :
    OpStep env lock i c c o { o with phase := .calls [] next } := by
  have hop := ho.toOpView.calls (ho.active ha) CallsOk.nil next
  rw [← hown] at hop
  exact h.stays hop

theorem OpInv.call
    {x : Call} {todo : List Call} {next : Next} (hph : o.phase = .calls (x :: todo) next) :
  OpStep env lock i c (c.call x) o { o with phase := .calls todo next }
  := by
  have hsec := ho.active (by rw [hph]; rfl)
  have hphase := ho.phaseOk
  rw [hph] at hphase
  obtain ⟨hown, hcalls⟩ := hphase
  obtain ⟨hf, hrest⟩ := hcalls.step h hsec lock
  rw [ho.sec] at hf
  have hsec' : o.sec ∈ (c.call x).sections := by
    cases x <;> exact hsec
  refine ⟨hf, ?_, .inl ?_⟩
  · have hop := (ho.toOpView.of_frame hf hsec).calls hsec' hrest next
    rw [← hown] at hop
    apply hop
  · cases x <;> exact ⟨rfl, rfl, rfl⟩

/-- Every step of an operation. -/
theorem OpInv.step
    {a : OpAct} {o' : Op} (hs : o.step env lock c i a = some (c', o')) :
  OpStep env lock i c c' o o'
  := by
  have hphase := ho.phaseOk
  -- a phase in which nothing is written can be gone on from
  have hgo : ∀ {ph}, o.phase.active = true → o.phase.writes = false → ph.writes = false →
      ph.active = true → o.PhaseOk env c ph → OpStep env lock i c c o { o with phase := ph } := by
    intro ph ha hw hw' ha' hok
    exact h.stays (ho.goOn ha hw (fun hwrites => absurd (hw'.symm.trans hwrites) (by simp)) hok
      ha')
  cases Op.steps_of_step hs with
  | allocate hph ha hok => exact (ho.allocates h hph ha).1 hok
  | allocateBad hph ha _ => exact (ho.allocates h hph ha).2
  | allocAgain hph =>
      rw [hph] at hphase
      obtain ⟨hf, hop⟩ := ho.leave h lock .spaceWait rfl
        (fun _ => ⟨hphase, ho.small (by rw [hph]; rfl)⟩) (by rintro ⟨⟩) hphase
      exact ⟨hf, hop, .inl ⟨rfl, rfl, rfl⟩⟩
  | allocFails hph =>
      rw [hph] at hphase
      exact ho.noCalls h (by rw [hph]; rfl) hphase _
  | resumeAlloc hph =>
      rw [hph] at hphase
      exact ⟨h.enter (.op i) lock (some (.op i)),
        ho.resume (by rw [hph]; rfl) rfl (by rw [hph]; rfl) hphase, .inl ⟨rfl, rfl, rfl⟩⟩
  | tombFails hph _ | bufferFails hph | readFails hph =>
      exact ho.fails h (by rw [hph]; rfl) (by simp)
  | loadTimestamp hph hp => exact h.stays (ho.loadTimestamp hph hp)
  | writeRecord hph hp =>
      obtain ⟨hf, hop⟩ := ho.writeRecord h hph hp
      exact ⟨hf, hop, .inl ⟨rfl, rfl, rfl⟩⟩
  | writeFails kill hph hp =>
      obtain ⟨hf, hop⟩ := ho.writeFails h hph hp kill
      exact ⟨hf, hop, .inl ⟨rfl, rfl, rfl⟩⟩
  | loadSnapshot hph =>
      exact hgo (by rw [hph]; rfl) (by rw [hph]; rfl) rfl rfl (h.snapLoaded o.sec)
  | lookupEnd hph =>
      by_cases hget : o.kind = .get
      · have hown : o.own = none := by
          cases hown : o.own with
          | none => rfl
          | some p => exact absurd hget (ho.own hown).2.2.2
        rw [if_pos hget]
        exact ho.noCalls h (by rw [hph]; rfl) hown _
      · rw [if_neg hget]
        exact hgo (by rw [hph]; rfl) (by rw [hph]; rfl) rfl rfl trivial
  | lookup hph he => exact h.stays (ho.found hph he)
  | readGet hph hget => exact h.stays (ho.getRead hph hget)
  | readKey hph _ => exact h.stays (ho.verifyRead h hph)
  | frozen hph _ | commitStale hph => exact ho.waitForGrow h hph
  | unsettled hph => exact hgo (by rw [hph]; rfl) (by rw [hph]; rfl) rfl rfl trivial
  | commit hph hlock _ hset hv henacts =>
      exact ho.enact h hph hlock (ho.entryOf_of_settled h hset)
        (fun hm => (ho.settled h hset).2 (Option.map_eq_none_iff.mp hm)) (Op.verdict_fits hv)
        henacts
  | resumeProbe hph =>
      exact ⟨h.enter (.op i) lock (some (.op i)),
        ho.resume (by rw [hph]; rfl) rfl (by rw [hph]; rfl) trivial, .inl ⟨rfl, rfl, rfl⟩⟩
  | growFails hph =>
      have hf := h.enter (.op i) lock (some (.op i))
      refine ⟨hf, ?_, .inl ⟨rfl, rfl, rfl⟩⟩
      exact (ho.reenter (by rw [hph]; rfl)).giveBack hf.inv List.mem_cons_self
        (fun hp => (ho.own hp).1) (by simp) _
  | call hph => exact ho.call h hph
  | returns hph =>
      rw [hph] at hphase
      obtain ⟨hf, hop⟩ := ho.leave h lock (.done _ none) rfl (by rintro ⟨⟩)
        (fun _ => .inl hphase.1) hphase.1
      exact ⟨hf, hop, .inl ⟨rfl, rfl, rfl⟩⟩
  | again hph =>
      rw [hph] at hphase
      cases hval : o.value.isSome with
      | true =>
          exact h.stays (ho.goOn (by rw [hph]; rfl) (by rw [hph]; rfl)
            (fun _ => ⟨hphase.1, Op.grains_le_of_value ho.admitted hval⟩) hphase.1 rfl)
      | false => exact hgo (by rw [hph]; rfl) (by rw [hph]; rfl) rfl rfl trivial
  | loadVersion hph =>
      rw [hph] at hphase
      obtain ⟨hf, hop⟩ := ho.leave h lock (.done .ok (some _)) rfl (by rintro ⟨⟩)
        (fun _ => .inl hphase.1) hphase.1
      exact ⟨hf, hop, .inl ⟨rfl, rfl, rfl⟩⟩

end

end UDepot
