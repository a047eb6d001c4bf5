import UDepot.Lib.Transition
import UDepot.Store.Reachable

/-!
# The store as it is opened

`Opened` describes the state in which `open` returns, be it for a new store, after a clean close or
after a crash: nothing is running, the arrays are those read from the metadata of the KV segments,
and a segment that an entry points into is in use and has its records' ranges.

The new store is here; what `crash_recovery` and `restore_index` make of a device is shown to be so
in `Store.Reopened` and `Store.Restored`.  `Opened` leaves out what a device holds besides: records
of earlier lives of a segment, whose timestamps are not those of its metadata, and which may be past
the count; bytes that are no record; and that the directory keeps words, which hold the entries that
fit them (`Store.Packing`).  Nor does it ask that an entry be the newest record of its key.
-/

namespace UDepot

/-- The state in which `open` returns. -/
structure Opened (env : StoreEnv) (s : State) : Prop where
  ops : ∀ i, s.ops i = none
  gc : s.gc = .idle
  grow : s.core.grow = .idle
  sections : s.core.sections = []
  dropped : s.core.dropped = []
  phase : ∀ seg, s.core.phase seg = .free ∨ s.core.phase seg = .closed ∨ s.core.phase seg = .index
  kv : ∀ {seg ts}, s.core.segMd seg = some ⟨.kv, ts⟩ →
    s.core.Counted seg ts ∧ s.core.segTimestamps seg = ts ∧ s.core.segLive seg = true
  arrays : ∀ {seg}, 0 < s.core.segTimestamps seg ∨ s.core.segMdOk seg = true →
    s.core.segMd seg = some ⟨.kv, s.core.segTimestamps seg⟩
  records : ∀ {p r}, s.core.recs p = some r →
    r.Shape env.geo p ∧ r.timestamp ≤ s.core.segAllocNr
  disjoint : ∀ {p q rg rg'}, s.core.ranges p = some rg → s.core.ranges q = some rg' →
    p < q → p + rg.len ≤ q
  ranges : ∀ {p rg}, s.core.ranges p = some rg → s.core.phase (env.geo.segOf p) = .closed
    ∧ (∃ r, s.core.Recoverable env.geo p r ∧ rg.len = r.grains) ∧ rg.released = true
    ∧ (rg.holder = .entry ∨ rg.holder = .nobody)
  held : ∀ {p rg}, s.core.ranges p = some rg → rg.holder = .entry →
    ∃ x ∈ s.core.curSnap.items, x.2.pba = p
  ranged : ∀ {p r}, s.core.Recoverable env.geo p r → s.core.phase (env.geo.segOf p) = .closed →
    ∃ rg, s.core.ranges p = some rg
  wf : s.core.curSnap.Wf
  bits : s.core.curSnap.bucketBits = env.bucketBits
  entries : ∀ {x}, x ∈ s.core.curSnap.items → ∃ r, s.core.Recoverable env.geo x.2.pba r
    ∧ s.core.segMdOk (env.geo.segOf x.2.pba) = true ∧ x = env.item r x.2.pba
    ∧ ⟨r.key, r.timestamp, x.2.pba⟩ ∈ s.core.committed
    ∧ ∃ rg, s.core.ranges x.2.pba = some rg ∧ rg.holder = .entry
  pbas : (s.core.curSnap.items.map (·.2.pba)).Nodup
  keys : ∀ {x y r r'}, x ∈ s.core.curSnap.items → y ∈ s.core.curSnap.items →
    s.core.recs x.2.pba = some r → s.core.recs y.2.pba = some r' → r.key = r'.key → x = y
  committed : ∀ {y}, y ∈ s.core.committed →
    ∃ r, s.core.Recoverable env.geo y.pba r ∧ y = ⟨r.key, r.timestamp, y.pba⟩

section

variable {env : StoreEnv} {s : State} (h : Opened env s)

include h

theorem Opened.closed_of_ranged {seg : Nat} (hr : (s.core.phase seg).ranged = true) :
    s.core.phase seg = .closed := by
  obtain hp | hp | hp := h.phase seg
  · rw [hp] at hr
    cases hr
  · apply hp
  · rw [hp] at hr
    cases hr

theorem Opened.not_stamps {seg ts : Nat} : ¬ (s.core.phase seg).Stamps ts := by
  intro hs
  obtain hp | hp | hp := h.phase seg <;> rw [hp] at hs <;> cases hs

theorem Opened.segsInv : s.core.toSegTable.Inv where
  timestamp := fun _ hpos => (h.kv (h.arrays (.inl hpos))).1
  md := fun _ _ hmd => (h.kv hmd).1
  phase := fun seg => by
    obtain hp | hp | hp := h.phase seg <;> rw [hp]
    · trivial
    · intro hok
      have hmd := h.arrays (.inr hok)
      exact ⟨hmd, (h.kv hmd).2.2, (h.kv hmd).1.pos⟩
    · trivial

theorem Opened.rangeInv : RangeInv env.geo s.core.toSegTable s.core.ranges where
  ranged := fun hrg => by
    rw [(h.ranges hrg).1]
    rfl
  pos := fun hrg => by
    obtain ⟨-, ⟨r, hr, hlen⟩, -⟩ := h.ranges hrg
    rw [hlen]
    apply (h.records hr.1).1.grains_pos
  fits := fun hrg => by
    obtain ⟨-, ⟨r, hr, hlen⟩, -⟩ := h.ranges hrg
    rw [hlen]
    apply (h.records hr.1).1.fits
  opened := fun hp => by
    have hclosed := h.closed_of_ranged (by rw [hp]; rfl)
    rw [hp] at hclosed
    cases hclosed
  below := fun hrg hp => by
    rw [(h.ranges hrg).1] at hp
    cases hp
  disjoint := h.disjoint
  unreleased := fun hrg hrel => by
    rw [(h.ranges hrg).2.2.1] at hrel
    cases hrel
  invalid := fun hrg hp => by
    rw [(h.ranges hrg).1] at hp
    cases hp

theorem Opened.commitInv :
    CommitInv env.geo s.core.toSegTable s.core.ranges s.core.committed where
  counted := fun hx => by
    obtain ⟨r, hr, hx⟩ := h.committed hx
    rw [hx]
    apply (h.kv hr.2).1
  fresh := fun _ hst => absurd hst h.not_stamps
  range := fun hx hr _ _ => by
    obtain ⟨r, hrec, -⟩ := h.committed hx
    obtain ⟨rg, hrg⟩ := h.ranged hrec (h.closed_of_ranged hr)
    refine ⟨rg, hrg, ?_⟩
    intro a hheld
    obtain ⟨-, -, -, hh | hh⟩ := h.ranges hrg <;> rw [hheld] at hh <;> cases hh

theorem Opened.dirInv : DirInv env s.core.toSegTable s.core.recs s.core.ranges s.core.committed
    s.core.curSnap where
  wf := h.wf
  bits := h.bits
  pointed := fun hx => by
    obtain ⟨r, hr, hok, hitem, hcommitted, rg, hrg, hheld⟩ := h.entries hx
    obtain ⟨hclosed, ⟨r', hr', hlen⟩, -⟩ := h.ranges hrg
    cases hr.1.symm.trans hr'.1
    refine ⟨r, ⟨hr.1, ⟨rg, hrg, hlen⟩, (h.kv hr.2).2.1, hok, hcommitted⟩, hitem, ?_, rg, hrg, hheld⟩
    rw [hclosed]
    rfl
  pbas := h.pbas
  keys := h.keys

/-- The invariants hold in the state in which `open` returns. -/
theorem Opened.inv : s.Inv env where
  core := {
    segs := h.segsInv
    recs := {
      shape := fun hr => (h.records hr).1
      le := fun hr => (h.records hr).2
      fresh := fun _ hst => absurd hst h.not_stamps
      live := fun _ hmd => ⟨(h.kv hmd).2.2, (h.kv hmd).2.1⟩
    }
    ranges := h.rangeInv
    life := fun hr hranged hok hts => by
      have hmd := h.arrays (.inr hok)
      rw [hts] at hmd
      have hrec : s.core.Recoverable env.geo _ _ := ⟨hr, hmd⟩
      obtain ⟨rg, hrg⟩ := h.ranged hrec (h.closed_of_ranged hranged)
      obtain ⟨-, ⟨r', hr', hlen⟩, -⟩ := h.ranges hrg
      cases hr.symm.trans hr'.1
      exact ⟨rg, hrg, hlen⟩
    commits := h.commitInv
    dir := h.dirInv
    grow := fun hgrow => by
      rw [h.grow] at hgrow
      cases hgrow
  }
  ops := fun ho => by
    rw [h.ops] at ho
    cases ho
  gc := by
    rw [h.gc]
    trivial

/-- The invariants hold in every state a run reaches. -/
theorem Opened.reach
    {ok : State → Act → Prop} {s' : State} (hr : Transition.Reach (State.step env) ok s s') :
  s'.Inv env
  := by
  apply hr.invariant h.inv
  intro s₁ a s₂ hinv _ hstep
  apply (hinv.step hstep).inv

end

/-! ### A new store -/

/-- A new store: every segment is free and the directory is empty. -/
def State.fresh (bucketBits : Nat) : State where
  core := {
    segMd := fun _ => none
    segTimestamps := fun _ => 0
    segMdOk := fun _ => false
    segLive := fun _ => false
    segAllocNr := 0
    owner := fun _ => 0
    phase := fun _ => .free
    recs := fun _ => none
    ranges := fun _ => none
    snaps := fun _ => .create bucketBits
    cur := 0
    grow := .idle
    sections := []
    nextSection := 0
    committed := []
    dropped := []
  }
  ops := fun _ => none
  gc := .idle

theorem State.fresh_opened (env : StoreEnv) : Opened env (.fresh env.bucketBits) where
  ops := fun _ => rfl
  gc := rfl
  grow := rfl
  sections := rfl
  dropped := rfl
  phase := fun _ => .inl rfl
  kv := fun hmd => nomatch hmd
  arrays := fun ha => by simp [State.fresh] at ha
  records := fun hr => nomatch hr
  disjoint := fun hrg => nomatch hrg
  ranges := fun hrg => nomatch hrg
  held := fun hrg => nomatch hrg
  ranged := fun hr => nomatch hr.1
  wf := .create _
  bits := rfl
  entries := fun hx => by simp [State.fresh, Core.curSnap] at hx
  pbas := by simp [State.fresh, Core.curSnap]
  keys := fun hx => by simp [State.fresh, Core.curSnap] at hx
  committed := fun hy => nomatch hy

/-- The state a run of a new store leads to. -/
def State.after (env : StoreEnv) (acts : List Act) : State :=
  (Transition.run (State.step env) (.fresh env.bucketBits) acts).getD (.fresh env.bucketBits)

theorem State.after_reach
    {env : StoreEnv} {acts : List Act} {ok : State → Act → Prop}
    (hrun : (Transition.run (State.step env) (.fresh env.bucketBits) acts).isSome = true)
    (hok : ∀ a ∈ acts, ∀ s, ok s a) :
  Transition.Reach (State.step env) ok (.fresh env.bucketBits) (State.after env acts)
  :=
  .of_run_isSome hrun hok

/-! ### A small store -/

/-- A store of four segments, with seven grains each for records, in which all keys have one
hash. -/
def StoreEnv.small : StoreEnv where
  geo := .small
  hashKey := fun _ => 0
  bucketBits := 0

/-- A segment is taken and stamped. -/
def stampActs (seg : Nat) (stream : Stream) : List Act :=
  [.takeSegment seg stream, .writeSegMd seg .ok, .storeTimestamp seg, .storeLive seg,
    .storeMdOk seg, .finishStamp seg]

/-- A put up to its commit, for a key without entries of its hash. -/
def putActs (i seg : Nat) (value key : Bytes) : List Act :=
  [.start i (.put .upsert none value) key, .op i (.allocate seg), .op i .loadTimestamp,
    .op i .writeRecord, .op i .loadSnapshot, .op i (.lookup none)]

end UDepot
