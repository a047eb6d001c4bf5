import UDepot.Store.Device
import UDepot.Store.KvMap
import UDepot.Store.Restored

/-!
# The order of recovery

Recovery takes the newest record of a key, in the order of `newer_than`: by the timestamp of the
segment, then by the grain.  In every run the directory has the newest of the records of a key that
were ever committed, and a key without an entry will get one that is newer (`Core.Ordered`).  So a
crash brings back what the directory has, or a record that was never committed
(`directory_newest`).

A pass of the collector may drop a tombstone.  This keeps the order if every record that is still
to be written will be newer than the tombstone (`SafeDrop`).
-/

namespace UDepot

open Transition Newest

/-! ### Newer places -/

theorem NewerPair.trans
    {ts p ts' p' ts'' p'' : Nat} (h : NewerPair ts p ts' p') (h' : NewerPair ts' p' ts'' p'') :
  NewerPair ts p ts'' p''
  := by
  unfold NewerPair at *
  omega

/-- `newer_than`, for the timestamps of the segments. -/
theorem NewerPair.of_newerThan
    {geo : Geometry} {f : Nat → Nat} {p q : Nat} (h : newerThan geo f p q = true) :
  NewerPair (f (geo.segOf p)) p (f (geo.segOf q)) q
  := by
  rw [newerThan] at h
  split at h
  · exact .inl (of_decide_eq_true h)
  · rename_i hseg
    rw [not_not] at hseg
    rw [hseg]
    exact .inr ⟨rfl, of_decide_eq_true h⟩

/-! ### Commits in order -/

/-- An entry's record is the newest of those of its key that were committed; and if a key has no
entry, whatever record is written from now on is newer than those. -/
structure Core.Ordered (env : StoreEnv) (c : Core) : Prop where
  newest : ∀ {x r y}, x ∈ c.curSnap.items → c.recs x.2.pba = some r → y ∈ c.committed →
    y.key = r.key → y = ⟨r.key, r.timestamp, x.2.pba⟩
      ∨ NewerPair r.timestamp x.2.pba y.timestamp y.pba
  absent : ∀ {y ts}, y ∈ c.committed → c.Absent y.key → Ahead env c ts → y.timestamp < ts

/-- The next step of the collector drops a tombstone: its pass may, and the record under the walk
is the tombstone that its key's entry points at. -/
def State.DropsTombstone (env : StoreEnv) (s : State) (p : GcPass) : Act → Prop
  | .gc .walk => s.gc = .walk p ∧ p.dropTombstones = true ∧ ∃ r e,
      GcPhase.recordHere env p = some r ∧ e.val.deleted = true
        ∧ (s.core.curSnap.tableForHash (env.hashKey r.key)).entryAt (env.hashKey r.key) p.grain
          = some e
  | _ => False

/-- If a step drops a tombstone, all records that are still to be written are newer. -/
def SafeDrop (env : StoreEnv) (s : State) (a : Act) : Prop :=
  ∀ p, s.DropsTombstone env p a → ∀ ts, Ahead env s.core ts → p.victimTs < ts

section

variable {env : StoreEnv} {c c' : Core} {lock : Option Nat} {b : Option Actor}

/-- If no entry for a key appears, the key was absent. -/
theorem Core.Absent.of_frame
    {key : Bytes} (h : c.Inv env) (hf : Frame env c c' lock b) (ha : c'.Absent key)
    (hitems : ∀ x ∈ c.curSnap.items, ∀ r, c.recs x.2.pba = some r → r.key = key →
      x ∈ c'.curSnap.items) :
  c.Absent key
  := by
  intro x hx r hr hkey
  exact ha x (hitems x hx r hr hkey) r (hf.record h hx hr) hkey

/-- The record of an entry that was there before the step. -/
theorem Frame.record_eq
    (h : c.Inv env) (hf : Frame env c c' lock b) {x : Nat × EntryInfo}
    (hx : x ∈ c.curSnap.items) {r : Rec} (hr : c'.recs x.2.pba = some r) :
  c.recs x.2.pba = some r
  := by
  obtain ⟨r₀, hr₀⟩ := h.dir.pointed hx
  have hrec := hr₀.current.record
  cases hr.symm.trans (hf.record h hx hrec)
  exact hrec

namespace Core.Ordered

variable (hord : c.Ordered env) (h : c.Inv env) (hf : Frame env c c' lock b)

include hord h hf

theorem quiet (hq : Quiet c c') : c'.Ordered env where
  newest := by
    intro x r y hx hr hy
    rw [hq.items] at hx
    rw [hq.committed] at hy
    exact hord.newest hx (hf.record_eq h hx hr) hy
  absent := by
    intro y ts hy ha hts
    rw [hq.committed] at hy
    refine hord.absent hy (ha.of_frame h hf ?_) (hf.ahead hts)
    intro x hx _ _ _
    rw [hq.items]
    exact hx

omit hf in
/-- A record that is committed is newer than all that were committed for its key. -/
theorem newer_of_commits
    {a : Actor} {p : Nat} {r : Rec} {old : Option (EntryInfo × Rec)}
    (hc : Commits env a c c' p r old) {y : Commit} (hy : y ∈ c.committed) (hkey : y.key = r.key) :
  NewerPair r.timestamp p y.timestamp y.pba
  := by
  cases old with
  | none =>
      left
      obtain ⟨habsent, -⟩ := hc.first rfl
      rw [← hkey] at habsent
      rw [← hc.timestamp]
      exact hord.absent hy habsent (.unreleased hc.owned rfl hc.mdOk)
  | some er =>
      obtain ⟨e, r₀⟩ := er
      obtain ⟨hentry, hnewer, -⟩ := hc.replaced rfl
      have hpair := NewerPair.of_newerThan hnewer
      rw [hc.timestamp, (hentry.current h).1.timestamp] at hpair
      obtain rfl | hold := hord.newest hentry.mem hentry.record hy (hkey.trans hentry.key_eq.symm)
      · exact hpair
      · exact hpair.trans hold

theorem commits
    {a : Actor} {p : Nat} {r : Rec} {old : Option (EntryInfo × Rec)}
    (hc : Commits env a c c' p r old) :
  c'.Ordered env
  := by
  constructor
  · intro x r' y hx hr' hy hkey
    rw [hc.committed] at hy
    rw [hc.recs] at hr'
    obtain rfl | ⟨hx, hne⟩ := (hc.mem_items h).mp hx
    · cases hr'.symm.trans hc.record
      obtain rfl | hy := List.mem_cons.mp hy
      · exact .inl rfl
      · exact .inr (hord.newer_of_commits h hc hy hkey)
    · obtain rfl | hy := List.mem_cons.mp hy
      · -- an entry of the key that stays would be the one that was replaced
        exfalso
        cases old with
        | none => exact (hc.first rfl).1 x hx r' hr' hkey.symm
        | some er =>
            obtain ⟨hentry, -⟩ := hc.replaced rfl
            have heq := h.dir.keys hx hentry.mem hr' hentry.record
              (hkey.symm.trans hentry.key_eq.symm)
            exact hne _ _ rfl (by rw [heq])
      · exact hord.newest hx hr' hy hkey
  · intro y ts hy ha hts
    rw [hc.committed] at hy
    have hentry := hc.entryOf h hf
    obtain rfl | hy := List.mem_cons.mp hy
    · exact absurd rfl (ha _ hentry.mem _ hentry.record)
    · refine hord.absent hy (ha.of_frame h hf ?_) (hf.ahead hts)
      intro x hx r' hr' hkey
      refine (hc.mem_items h).mpr (.inr ⟨hx, ?_⟩)
      intro e r₀ hold hp
      obtain ⟨hentry₀, -⟩ := hc.replaced hold
      rw [hp, hentry₀.record] at hr'
      cases hr'
      have hne := ha _ hentry.mem _ hentry.record
      exact hne (hentry₀.key_eq.symm.trans hkey)

theorem drops
    {p : GcPass} {r : Rec} (hd : Drops env c c' p r)
    (hsafe : ∀ ts, Ahead env c ts → p.victimTs < ts) :
  c'.Ordered env
  := by
  constructor
  · intro x r' y hx hr' hy
    rw [hd.recs] at hr'
    rw [hd.committed] at hy
    exact hord.newest (hd.mem_before hx) hr' hy
  · intro y ts hy ha hts
    rw [hd.committed] at hy
    have hts' := hf.ahead hts
    by_cases hkey : y.key = r.key
    · have hrts := (hd.committed_victim h).2
      have hlt := hsafe ts hts'
      have hle : y.timestamp ≤ r.timestamp := by
        obtain rfl | hold := hord.newest hd.mem_items hd.record hy hkey
        · exact Nat.le_refl _
        · unfold NewerPair at hold
          omega
      omega
    · refine hord.absent hy (ha.of_frame h hf ?_) hts'
      intro x hx r' hr' hkey'
      rw [hd.items] at hx
      obtain rfl | hx := Multiset.mem_cons.mp hx
      · cases hr'.symm.trans hd.record
        exact absurd hkey'.symm hkey
      · exact hx

end Core.Ordered

end

section

variable {env : StoreEnv} {s s' : State}

/-- A step that drops a tombstone is one of the walk. -/
theorem Drops.dropsTombstone
    {p : GcPass} {r : Rec} {b : GcAct} (hd : Drops env s.core s'.core p r) (hg : s.gc = .walk p)
    (hs : s.step env (.gc b) = some s') :
  s.DropsTombstone env p (.gc b)
  := by
  obtain ⟨⟨c', g'⟩, hstep, rfl⟩ := Option.map_eq_some_iff.mp hs
  have hsteps := GcPhase.steps_of_step hstep
  rw [hg] at hsteps
  have hne : c'.dropped ≠ s.core.dropped := by
    rw [show c'.dropped = _ :: s.core.dropped from hd.dropped]
    exact List.cons_ne_self _ _
  cases hsteps with
  | @drop _ r' e _ hr _ he hdrop =>
      rw [Bool.and_eq_true] at hdrop
      exact ⟨hg, hdrop.2, r', e, hr, hdrop.1, he⟩
  | _ => exact absurd rfl hne

/-- Every step keeps the order, if it drops no tombstone before its time. -/
theorem State.Inv.ordered_step
    {a : Act} (h : s.Inv env) (hord : s.core.Ordered env) (hsafe : SafeDrop env s a)
    (hs : s.step env a = some s') :
  s'.core.Ordered env
  := by
  obtain ⟨⟨b, hf⟩, -, heffect⟩ := h.step hs
  cases heffect with
  | quiet hq => exact hord.quiet h.core hf hq
  | commit _ _ _ _ _ hc => exact hord.commits h.core hf hc
  | move _ hc => exact hord.commits h.core hf hc
  | drop hg hd => exact hord.drops h.core hf hd (hsafe _ (hd.dropsTombstone hg hs))

end

/-! ### Stores that are opened -/

/-- When a store is opened, only segments to come are written to. -/
theorem Opened.later
    {env : StoreEnv} {s : State} (h : Opened env s) {ts : Nat} (ha : Ahead env s.core ts) :
  s.core.segAllocNr < ts
  := by
  cases ha with
  | opened hph =>
      have hclosed := h.closed_of_ranged (by rw [hph]; rfl)
      cases hph.symm.trans hclosed
  | unreleased hrg hrel => cases hrel.symm.trans (h.ranges hrg).2.2.1
  | stamping hst => exact absurd hst h.not_stamps
  | later hlt => exact hlt

/-- A store that is opened is in order if its directory has the newest records. -/
theorem Opened.ordered
    {env : StoreEnv} {s : State} (h : Opened env s)
    (hnewest : ∀ {x r y}, x ∈ s.core.curSnap.items → s.core.recs x.2.pba = some r →
      y ∈ s.core.committed → y.key = r.key → y = ⟨r.key, r.timestamp, x.2.pba⟩
        ∨ NewerPair r.timestamp x.2.pba y.timestamp y.pba) :
  s.core.Ordered env
  where
  newest := hnewest
  absent := by
    intro y ts hy _ hts
    obtain ⟨r, hr, hy⟩ := h.committed hy
    have hle := (h.kv hr.2).1.le
    rw [hy]
    exact Nat.lt_of_le_of_lt hle (h.later hts)

theorem State.fresh_ordered (env : StoreEnv) : (State.fresh env.bucketBits).core.Ordered env := by
  apply (State.fresh_opened env).ordered
  intro x r y hx
  simp [State.fresh, Core.curSnap] at hx

/-- Recovery leaves the newest record of every key that has one. -/
theorem crashRecovery_ordered
    {env : RecoveryEnv} {img : Image} (hts : img.DistinctTimestamps env.geo.numSegments)
    (hpos : ∀ seg ts, img.segMd seg = some ⟨.kv, ts⟩ → 0 < ts) {order : List Nat}
    (hord : order.Perm (List.range env.geo.numSegments)) {s : RecState}
    (hs : crashRecovery env img order = .ok s) :
  (State.reopened env.geo (s.reopening env img)).core.Ordered env.store
  := by
  obtain ⟨hinv, -⟩ := (crashRecovery_spec hts hord).of_eq_ok hs
  have hlog := isLog_log hts
  apply (crashRecovery_opened hts hpos hord hs).opened.ordered
  intro x r y hx hr hy hkey
  have hx : x ∈ s.snap.items := hx
  rw [hinv.items] at hx
  obtain ⟨a, hnew, rfl⟩ := Multiset.mem_map.mp hx
  cases hr.symm.trans ((recordOf_eq_some hlog).mpr ⟨a, (mem_newest.mp hnew).1, rfl, rfl⟩)
  obtain ⟨p, -, hp⟩ := List.mem_filterMap.mp hy
  obtain ⟨r', hr', rfl⟩ := Option.map_eq_some_iff.mp hp
  obtain ⟨b, hb, rfl, rfl⟩ := (recordOf_eq_some hlog).mp hr'
  refine (eq_or_ne b a).imp ?_ (newer_of_mem_newest hlog.comparable hnew hb hkey)
  rintro rfl
  rfl

/-- A store with the commits of an earlier session, as far as it has their records. -/
def State.keeping (s : State) (commits : List Commit) : State :=
  { s with core := { s.core with
      committed := commits.filter fun y => (s.core.recs y.pba).any fun r =>
        r.key == y.key && r.timestamp == y.timestamp } }

theorem State.mem_keeping
    {s : State} {commits : List Commit} {y : Commit} :
  y ∈ (s.keeping commits).core.committed
    ↔ y ∈ commits ∧ ∃ r, s.core.recs y.pba = some r ∧ y = ⟨r.key, r.timestamp, y.pba⟩
  := by
  simp only [State.keeping, List.mem_filter, Option.any_eq_true, Bool.and_eq_true, beq_iff_eq]
  refine and_congr_right fun _ => exists_congr fun r => and_congr_right fun _ => ?_
  constructor
  · rintro ⟨hkey, hts⟩
    rw [hkey, hts]
  · intro hy
    rw [hy]
    exact ⟨rfl, rfl⟩

theorem Opened.keeping
    {env : StoreEnv} {s : State} {commits : List Commit} (h : Opened env s)
    (hrecs : ∀ {p r}, s.core.recs p = some r → s.core.Recoverable env.geo p r)
    (hentries : ∀ {x r}, x ∈ s.core.curSnap.items → s.core.recs x.2.pba = some r →
      ⟨r.key, r.timestamp, x.2.pba⟩ ∈ commits) :
  Opened env (s.keeping commits)
  := by
  refine { h with
    entries := ?_
    committed := ?_ }
  · intro x hx
    obtain ⟨r, hr, hok, hitem, -, hrange⟩ := h.entries hx
    refine ⟨r, hr, hok, hitem, ?_, hrange⟩
    exact State.mem_keeping.mpr ⟨hentries hx hr.1, r, hr.1, rfl⟩
  · intro y hy
    obtain ⟨-, r, hr, hy⟩ := State.mem_keeping.mp hy
    exact ⟨r, hrecs hr, hy⟩

/-- A store that is opened after a clean close has the commits there were, in order. -/
theorem restoreIndex_ordered
    {env : StoreEnv} {ienv : IndexEnv} {s : State} {tables tables' : List IndexTable} {ts k : Nat}
    {dev : Device} {heap : Nat → Buffer} {valid : Nat → Nat}
    (h : s.Inv env) (hord : s.core.Ordered env) (hin : s.core.Inside env.geo)
    (hgeo : env.geo.Addressable) (hmaps : ienv.Maps env s.core.curSnap tables)
    (hflush : ienv.Flushable s.core.segMd ts tables dev) (hread : ienv.TombstonesReadable tables)
    (hres : (ienv.restoreIndex s.core.segMd (ienv.flushed ts tables dev k) heap).restored
      = some (tables', valid)) :
  let o := ienv.reopening s.core.segMd s.core.recs tables' valid
  Opened env ((State.reopened env.geo o).keeping s.core.committed)
    ∧ ((State.reopened env.geo o).keeping s.core.committed).core.Ordered env
  := by
  intro o
  have hok := restoreIndex_opened h hin hgeo hmaps hflush hread hres
  have hitems := restoreIndex_items h hin hgeo hmaps hflush hread hres
  have hrecs : ∀ {p r}, o.recs p = some r → s.core.recs p = some r :=
    fun hr => (IndexEnv.reopening_recs.mp hr).2.1
  have hopened : Opened env ((State.reopened env.geo o).keeping s.core.committed) := by
    apply hok.opened.keeping
    · intro p r hr
      exact ⟨hr, (hok.records hr).2⟩
    · intro x r hx hr
      have hx : x ∈ o.snap.items := hx
      rw [hitems] at hx
      obtain ⟨r', hr'⟩ := h.core.dir.pointed hx
      cases (hrecs hr).symm.trans hr'.current.record
      exact hr'.current.committed
  refine ⟨hopened, hopened.ordered ?_⟩
  intro x r y hx hr hy hkey
  have hx : x ∈ o.snap.items := hx
  rw [hitems] at hx
  exact hord.newest hx (hrecs hr) (State.mem_keeping.mp hy).1 hkey

/-! ### Sessions and crashes -/

/-- The states of a store over its sessions, all of whose steps meet a condition: it is created, it
recovers from what a crash leaves, or it restores the index of the session before, whose commits
count on. -/
inductive Lifetime (env : StoreEnv) (ok : State → Act → Prop) : State → Prop where
  | create : Lifetime env ok (.fresh env.bucketBits)
  | recover {renv : RecoveryEnv} {img : Image} {order : List Nat} {s : RecState} :
      renv.store = env → img.DistinctTimestamps renv.geo.numSegments →
      (∀ seg ts, img.segMd seg = some ⟨.kv, ts⟩ → 0 < ts) →
      order.Perm (List.range renv.geo.numSegments) → crashRecovery renv img order = .ok s →
      Lifetime env ok (.reopened env.geo (s.reopening renv img))
  | restore {ienv : IndexEnv} {s : State} {tables tables' : List IndexTable} {ts k : Nat}
        {dev : Device} {heap : Nat → Buffer} {valid : Nat → Nat} :
      Lifetime env ok s → env.geo.Addressable → ienv.Maps env s.core.curSnap tables →
      ienv.Flushable s.core.segMd ts tables dev → ienv.TombstonesReadable tables →
      (ienv.restoreIndex s.core.segMd (ienv.flushed ts tables dev k) heap).restored
        = some (tables', valid) →
      Lifetime env ok ((State.reopened env.geo
        (ienv.reopening s.core.segMd s.core.recs tables' valid)).keeping s.core.committed)
  | step {s s' : State} {a : Act} : Lifetime env ok s → ok s a → s.step env a = some s' →
      Lifetime env ok s'

theorem Lifetime.of_reach
    {env : StoreEnv} {ok : State → Act → Prop} {s s' : State} (h : Lifetime env ok s)
    (hreach : Reach (State.step env) ok s s') :
  Lifetime env ok s'
  := by
  induction hreach with
  | refl => exact h
  | tail _ hok hs ih => exact ih.step hok hs

/-- A store whose commits are in order. -/
structure State.Ordered (env : StoreEnv) (s : State) : Prop where
  inv : s.Inv env
  inside : s.core.Inside env.geo
  mdInside : s.core.MdInside env.geo
  order : s.core.Ordered env

theorem State.Ordered.step
    {env : StoreEnv} {s s' : State} {a : Act} (h : s.Ordered env) (hsafe : SafeDrop env s a)
    (hs : s.step env a = some s') :
  s'.Ordered env
  where
  inv := (h.inv.step hs).inv
  inside := h.inside.step h.inv hs
  mdInside := h.mdInside.step h.inv h.inside hs
  order := h.inv.ordered_step h.order hsafe hs

/-- What holds of every store that is opened and is kept by the steps of a store in order holds over
all sessions, if it makes drops safe. -/
theorem Lifetime.ordered_and
    {env : StoreEnv} {ok : State → Act → Prop} {s : State} (h : Lifetime env ok s)
    {I : State → Prop}
    (hopen : ∀ {s}, Opened env s → I s)
    (hsafe : ∀ {s a}, s.Ordered env → I s → ok s a → SafeDrop env s a)
    (hstep : ∀ {s a s'}, s.Ordered env → I s → ok s a → s.step env a = some s' → I s') :
  s.Ordered env ∧ I s
  := by
  induction h with
  | create =>
      have hopened := State.fresh_opened env
      refine ⟨⟨hopened.inv, fun _ hne => absurd rfl hne, ?_, State.fresh_ordered env⟩,
        hopen hopened⟩
      rintro seg md ⟨⟩
  | recover henv hts hpos hord hs =>
      have hok := crashRecovery_opened hts hpos hord hs
      have hordered := crashRecovery_ordered hts hpos hord hs
      subst henv
      exact ⟨⟨hok.opened.inv, hok.segments_inside, fun _ _ hmd => hok.inside hmd, hordered⟩,
        hopen hok.opened⟩
  | restore _ hgeo hmaps hflush hread hres ih =>
      obtain ⟨⟨hinv, hin, -, hord⟩, -⟩ := ih
      have hok := restoreIndex_opened hinv hin hgeo hmaps hflush hread hres
      obtain ⟨hopened, hordered⟩ :=
        restoreIndex_ordered hinv hord hin hgeo hmaps hflush hread hres
      exact ⟨⟨hopened.inv, hok.segments_inside, fun _ _ hmd => hok.inside hmd, hordered⟩,
        hopen hopened⟩
  | step _ hok hs ih =>
      obtain ⟨hordered, hI⟩ := ih
      exact ⟨hordered.step (hsafe hordered hI hok) hs, hstep hordered hI hok hs⟩

theorem Lifetime.ordered
    {env : StoreEnv} {s : State} (h : Lifetime env (SafeDrop env) s) :
  s.Ordered env
  := by
  refine (h.ordered_and (I := fun _ => True) ?_ ?_ ?_).1
  · intros
    trivial
  · intro _ _ _ _ hok
    exact hok
  · intros
    trivial

/-- A record as the scan of the log finds it. -/
def Rec.logRecord (r : Rec) (pba : Nat) : LogRecord :=
  ⟨r.key, r.timestamp, r.value.isNone, r.grains, pba⟩

theorem entryOf_logRecord
    (renv : RecoveryEnv) (r : Rec) (pba : Nat) :
  renv.entryOf (r.logRecord pba) = renv.store.item r pba
  := by
  rw [RecoveryEnv.entryOf, StoreEnv.item, Rec.kvSize, Rec.logRecord]
  cases r.value <;> rfl

/-- What a crash leaves of a store: the metadata of its segments, and bytes in which the scan finds
the records that are recoverable. -/
structure Image.Shows (renv : RecoveryEnv) (img : Image) (c : Core) : Prop where
  segMd : ∀ seg < renv.geo.numSegments, img.segMd seg = c.segMd seg
  log : ∀ {a}, a ∈ renv.log img ↔ ∃ p r, c.Recoverable renv.geo p r
    ∧ renv.geo.segOf p < renv.geo.numSegments ∧ a = r.logRecord p

/-- The records of a store that are recoverable, in the order of the grains. -/
def Core.logged (geo : Geometry) (c : Core) : List LogRecord :=
  (List.range (geo.numSegments * geo.segSize)).filterMap fun p =>
    ((c.recs p).filter fun r => c.segMd (geo.segOf p) = some ⟨.kv, r.timestamp⟩).map
      fun r => r.logRecord p

section

variable {renv : RecoveryEnv} {img : Image} {c : Core}

variable (h : c.Inv renv.store) (hshows : img.Shows renv c)

include h hshows

/-- The metadata that a crash leaves has distinct counts. -/
theorem Image.Shows.distinct : img.DistinctTimestamps renv.geo.numSegments := by
  intro a ha b hb ts hmda hmdb
  rw [hshows.segMd a ha] at hmda
  rw [hshows.segMd b hb] at hmdb
  exact (h.segs.md a ts hmda).owner.symm.trans (h.segs.md b ts hmdb).owner

variable {order : List Nat} (hord : order.Perm (List.range renv.geo.numSegments)) {rs : RecState}
    (hs : crashRecovery renv img order = .ok rs)

include hord hs

/-- An entry that recovery makes is for the newest recoverable record of its key. -/
theorem Image.Shows.newest
    {x : Nat × EntryInfo} (hx : x ∈ rs.snap.items) :
  ∃ r, c.Recoverable renv.geo x.2.pba r ∧ x = renv.store.item r x.2.pba
    ∧ ∀ q r', c.Recoverable renv.geo q r' → renv.geo.segOf q < renv.geo.numSegments →
      r'.key = r.key → q = x.2.pba ∨ NewerPair r.timestamp x.2.pba r'.timestamp q
  := by
  have hts := hshows.distinct h
  have hlog := isLog_log hts
  obtain ⟨hinv, -⟩ := (crashRecovery_spec hts hord).of_eq_ok hs
  rw [hinv.items] at hx
  obtain ⟨m, hm, rfl⟩ := Multiset.mem_map.mp hx
  obtain ⟨p, r, hr, -, rfl⟩ := hshows.log.mp (mem_newest.mp hm).1
  refine ⟨r, hr, entryOf_logRecord renv r p, ?_⟩
  intro q r' hr' hseg hkey
  have hb : r'.logRecord q ∈ renv.log img := hshows.log.mpr ⟨q, r', hr', hseg, rfl⟩
  exact (eq_or_ne _ _).imp (congrArg LogRecord.pba)
    (newer_of_mem_newest hlog.comparable hm hb hkey)

end

end UDepot
