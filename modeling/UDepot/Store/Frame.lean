import UDepot.Store.Invariant

/-!
# What a step leaves to others

An operation relies on facts about the shared state between its steps: the ranges it was handed,
the ranges it is to invalidate, and the records it loaded the addresses of in its read section.
`Frame env c c' lock b` says that a step of `b` from `c` to `c'` keeps the invariants of the
shared state, the records of segments in use, what every read section has loaded, and what every
other actor holds, and that no record gets a timestamp but one that was to be expected.
-/

namespace UDepot

section

variable (env : StoreEnv) (c c' : Core)

/-! ### Facts an actor relies on -/

/-- A read section came upon an address; the record there is committed and stays. -/
structure Loaded (s : ReadSection) (pba : Nat) (r : Rec) : Prop where
  current : Current env.geo c.toSegTable c.recs c.ranges c.committed pba r
  protects : (c.phase (env.geo.segOf pba)).Protects s

/-- A read section loaded a snapshot; whatever is in it is protected. -/
structure SnapLoaded (s : ReadSection) (gen : Nat) : Prop where
  le : gen ≤ c.cur
  wf : (c.snaps gen).Wf
  bits : (c.snaps gen).bucketBits = env.bucketBits
  loaded : ∀ {x}, x ∈ (c.snaps gen).items →
    ∃ r, Loaded env c s x.2.pba r ∧ x = env.item r x.2.pba

/-- The range was allocated for the actor and nothing points at it yet. -/
def Owned (a : Actor) (pba len : Nat) : Prop := c.ranges pba = some ⟨len, false, a, .writer a⟩

/-- The actor is to release the range. -/
def Unreleased (a : Actor) (pba len : Nat) : Prop := ∃ h, c.ranges pba = some ⟨len, false, a, h⟩

/-- The actor of a read section is to invalidate the range. -/
structure ToInvalidate (s : ReadSection) (pba len : Nat) : Prop where
  range : ∃ rg, c.ranges pba = some rg ∧ rg.len = len
    ∧ (rg.holder = .writer s.2 ∨ rg.holder = .remover s.2)
  keeps : (c.phase (env.geo.segOf pba)).Keeps s

/-! ### Timestamps to come -/

/-- The timestamps of records that may still be written: of opened segments, of ranges that are
not released, of segments being stamped and of segments to come. -/
inductive Ahead : Nat → Prop
  | opened {seg next : Nat} {stream : Stream} (h : c.phase seg = .opened stream next)
      (hok : c.segMdOk seg = true) : Ahead (c.segTimestamps seg)
  | unreleased {p : Nat} {rg : GrainRange} (h : c.ranges p = some rg) (hrel : rg.released = false)
      (hok : c.segMdOk (env.geo.segOf p) = true) : Ahead (c.segTimestamps (env.geo.segOf p))
  | stamping {seg ts : Nat} (h : (c.phase seg).Stamps ts) : Ahead ts
  | later {ts : Nat} (h : c.segAllocNr < ts) : Ahead ts

/-- The timestamps that records in a segment have, or may come to have in its present life or in
a later one. -/
inductive Around (seg : Nat) : Nat → Prop
  | ranged (h : (c.phase seg).ranged = true) (hok : c.segMdOk seg = true) :
      Around seg (c.segTimestamps seg)
  | recoverable {p : Nat} {r : Rec} (hp : env.geo.segOf p = seg)
      (h : c.Recoverable env.geo p r) : Around seg r.timestamp
  | stamping {ts : Nat} (h : (c.phase seg).Stamps ts) : Around seg ts
  | later {ts : Nat} (h : c.segAllocNr < ts) : Around seg ts

/-! ### Frames -/

/-- What an actor holds is kept. -/
structure Tokens (a : Actor) : Prop where
  sections : ∀ s ∈ c.sections, s.2 = a → s ∈ c'.sections
  owned : ∀ {p len}, Owned c a p len → Owned c' a p len
  arrays : ∀ {p len}, Owned c a p len →
    c'.segTimestamps (env.geo.segOf p) = c.segTimestamps (env.geo.segOf p)
      ∧ c'.segMdOk (env.geo.segOf p) = c.segMdOk (env.geo.segOf p)
  written : ∀ {p r}, Owned c a p r.grains → c.recs p = some r → c'.recs p = some r
  unreleased : ∀ {p len}, Unreleased c a p len → Unreleased c' a p len
  toInvalidate : ∀ s ∈ c.sections, s.2 = a → ∀ {p len}, ToInvalidate env c s p len →
    ToInvalidate env c' s p len

/-- What the collector relies on is kept: its victim, the records and the entries there, and the
entries of the hash it has locked. -/
structure VictimKept (lock : Option Nat) : Prop where
  victim : ∀ seg, c.phase seg = .victim → c'.phase seg = .victim
    ∧ c'.segTimestamps seg = c.segTimestamps seg ∧ c'.segMdOk seg = c.segMdOk seg
  syncing : ∀ seg waits, c.phase seg = .syncing waits → c'.phase seg = .syncing waits
  recs : ∀ q, c.phase (env.geo.segOf q) = .victim → c'.recs q = c.recs q
  items : ∀ x ∈ c'.curSnap.items, c.phase (env.geo.segOf x.2.pba) = .victim →
    x ∈ c.curSnap.items
  locked : ∀ x ∈ c.curSnap.items, ∀ hash, lock = some hash →
    x.1 = hash % 2 ^ env.bucketBits → x.2.keyTag = hashToTag hash env.bucketBits →
    x ∈ c'.curSnap.items

structure Frame (lock : Option Nat) (b : Option Actor) : Prop where
  inv : c'.Inv env
  current : ∀ {p r}, (c.phase (env.geo.segOf p)).inUse = true →
    Current env.geo c.toSegTable c.recs c.ranges c.committed p r →
    Current env.geo c'.toSegTable c'.recs c'.ranges c'.committed p r
  ahead : ∀ {ts}, Ahead env c' ts → Ahead env c ts
  around : ∀ {seg ts}, Around env c' seg ts → Around env c seg ts
  loaded : ∀ s ∈ c.sections, ∀ {p r}, Loaded env c s p r → Loaded env c' s p r
  snaps : ∀ s ∈ c.sections, ∀ {gen}, SnapLoaded env c s gen → SnapLoaded env c' s gen
  tokens : ∀ a, b ≠ some a → Tokens env c c' a
  victim : b ≠ some .gc → VictimKept env c c' lock

end

/-! ### Facts at a state -/

section

variable {env : StoreEnv} {c c' c'' : Core}

/-- Every entry of the current snapshot is protected, for any read section. -/
theorem Core.Inv.snapLoaded (h : c.Inv env) (s : ReadSection) : SnapLoaded env c s c.cur where
  le := Nat.le_refl c.cur
  wf := h.dir.wf
  bits := h.dir.bits
  loaded := fun {x} hx => by
    obtain ⟨r, hr⟩ := h.dir.pointed hx
    exact ⟨r, ⟨hr.current, SegPhase.protects_of_inUse s hr.inUse⟩, hr.item⟩

/-- A segment's timestamp is a count that was given. -/
theorem Core.Inv.timestamp_le (h : c.Inv env) (seg : Nat) :
    c.segTimestamps seg ≤ c.segAllocNr := by
  obtain hzero | hpos := Nat.eq_zero_or_pos (c.segTimestamps seg)
  · rw [hzero]
    apply Nat.zero_le
  · exact (h.segs.timestamp seg hpos).le

/-- A committed record of a segment's present life is not in a range of a writer. -/
theorem Core.Inv.not_owned
    (h : c.Inv env) {a : Actor} {p len : Nat} {r : Rec}
    (hc : Current env.geo c.toSegTable c.recs c.ranges c.committed p r) :
  ¬ Owned c a p len
  := by
  intro ho
  obtain ⟨rg, hrg, -⟩ := hc.range
  obtain ⟨rg', hrg', hne⟩ := h.commits.range hc.committed (h.ranges.ranged hrg) hc.mdOk
    hc.timestamp
  rw [ho] at hrg'
  cases hrg'
  apply hne a rfl

/-- A step that leaves the segments alone hands out nothing. -/
theorem Ahead.of_segs
    {ts : Nat} (ha : Ahead env c' ts) (hsegs : c'.toSegTable = c.toSegTable)
    (hranges : ∀ {p rg}, c'.ranges p = some rg → rg.released = false →
      ∃ rg', c.ranges p = some rg' ∧ rg'.released = false) :
  Ahead env c ts
  := by
  cases ha with
  | opened hph hok =>
      rw [hsegs] at hph hok ⊢
      apply Ahead.opened hph hok
  | unreleased hrg hrel hok =>
      obtain ⟨rg', hrg', hrel'⟩ := hranges hrg hrel
      rw [hsegs] at hok ⊢
      apply Ahead.unreleased hrg' hrel' hok
  | stamping hst =>
      rw [hsegs] at hst
      apply Ahead.stamping hst
  | later hlt =>
      rw [hsegs] at hlt
      apply Ahead.later hlt

/-- A step that leaves the segments alone writes no record but with the timestamp of a segment
that has ranges. -/
theorem Around.of_segs
    {seg ts : Nat} (ha : Around env c' seg ts) (hsegs : c'.toSegTable = c.toSegTable)
    (hrecs : ∀ {p r}, c'.recs p = some r → c.recs p = some r
      ∨ (c.phase (env.geo.segOf p)).ranged = true ∧ c.segMdOk (env.geo.segOf p) = true
        ∧ r.timestamp = c.segTimestamps (env.geo.segOf p)) :
  Around env c seg ts
  := by
  cases ha with
  | ranged hph hok =>
      rw [hsegs] at hph hok ⊢
      apply Around.ranged hph hok
  | recoverable hp hr =>
      obtain ⟨hr, hmd⟩ := hr
      rw [hsegs] at hmd
      obtain hr | ⟨hranged, hok, hts⟩ := hrecs hr
      · apply Around.recoverable hp ⟨hr, hmd⟩
      · rw [hp] at hranged hok hts
        rw [hts]
        apply Around.ranged hranged hok
  | stamping hst =>
      rw [hsegs] at hst
      apply Around.stamping hst
  | later hlt =>
      rw [hsegs] at hlt
      apply Around.later hlt

/-- A step that leaves the segments, the records and the entries alone leaves the collector's
victim alone. -/
theorem VictimKept.of_same
    {lock : Option Nat} (hsegs : c'.toSegTable = c.toSegTable) (hrecs : c'.recs = c.recs)
    (hitems : c'.curSnap.items = c.curSnap.items) :
  VictimKept env c c' lock
  where
  victim := fun seg hseg => by
    rw [hsegs]
    exact ⟨hseg, rfl, rfl⟩
  syncing := fun seg waits hseg => by
    rw [hsegs]
    apply hseg
  recs := fun q _ => by rw [hrecs]
  items := fun x hx _ => hitems ▸ hx
  locked := fun x hx _ _ _ _ => hitems ▸ hx

/-- A step that leaves the segments, the records and the ranges alone leaves an actor what it
holds, unless it ends its read section. -/
theorem Tokens.of_same
    {a : Actor} (hsegs : c'.toSegTable = c.toSegTable) (hrecs : c'.recs = c.recs)
    (hranges : c'.ranges = c.ranges)
    (hsections : ∀ s ∈ c.sections, s.2 = a → s ∈ c'.sections) :
  Tokens env c c' a
  where
  sections := hsections
  owned := fun ho => by
    rw [Owned, hranges]
    apply ho
  arrays := fun _ => by
    rw [hsegs]
    exact ⟨rfl, rfl⟩
  written := fun _ hr => by
    rw [hrecs]
    apply hr
  unreleased := fun hu => by
    rw [Unreleased, hranges]
    apply hu
  toInvalidate := fun s _ _ p len hi => by
    constructor
    · rw [hranges]
      apply hi.range
    · rw [hsegs]
      apply hi.keeps

/-- Nothing happens. -/
theorem Core.Inv.refl (h : c.Inv env) (lock : Option Nat) (b : Option Actor) :
    Frame env c c lock b where
  inv := h
  current := fun _ hc => hc
  ahead := fun ha => ha
  around := fun ha => ha
  loaded := fun _ _ _ _ hl => hl
  snaps := fun _ _ _ hl => hl
  tokens := fun _ _ => .of_same rfl rfl rfl fun _ hs _ => hs
  victim := fun _ => .of_same rfl rfl rfl

/-- Frames compose, as long as the first step ends no read section and takes no segment out of
use. -/
theorem Frame.trans
    {lock : Option Nat} {b : Option Actor} (h : Frame env c c' lock b)
    (h' : Frame env c' c'' lock b)
    (huse : ∀ {seg}, (c.phase seg).inUse = true → (c'.phase seg).inUse = true)
    (hsub : c.sections ⊆ c'.sections) :
  Frame env c c'' lock b
  where
  inv := h'.inv
  current := fun hu hc => h'.current (huse hu) (h.current hu hc)
  ahead := fun ha => h.ahead (h'.ahead ha)
  around := fun ha => h.around (h'.around ha)
  loaded := fun s hs _ _ hl => h'.loaded s (hsub hs) (h.loaded s hs hl)
  snaps := fun s hs _ hl => h'.snaps s (hsub hs) (h.snaps s hs hl)
  tokens := fun a ha => by
    have ht := h.tokens a ha
    have ht' := h'.tokens a ha
    constructor
    · intro s hs hsa
      apply ht'.sections s (hsub hs) hsa
    · intro p len ho
      apply ht'.owned (ht.owned ho)
    · intro p len ho
      obtain ⟨h₁, h₂⟩ := ht.arrays ho
      obtain ⟨h₁', h₂'⟩ := ht'.arrays (ht.owned ho)
      exact ⟨h₁'.trans h₁, h₂'.trans h₂⟩
    · intro p r ho hr
      apply ht'.written (ht.owned ho) (ht.written ho hr)
    · intro p len hu
      apply ht'.unreleased (ht.unreleased hu)
    · intro s hs hsa p len hi
      apply ht'.toInvalidate s (hsub hs) hsa (ht.toInvalidate s hs hsa hi)
  victim := fun hb => by
    have hv := h.victim hb
    have hv' := h'.victim hb
    constructor
    · intro seg hseg
      obtain ⟨h₁, h₂, h₃⟩ := hv.victim seg hseg
      obtain ⟨h₁', h₂', h₃'⟩ := hv'.victim seg h₁
      exact ⟨h₁', h₂'.trans h₂, h₃'.trans h₃⟩
    · intro seg waits hseg
      apply hv'.syncing seg waits (hv.syncing seg waits hseg)
    · intro q hq
      rw [hv'.recs q (hv.victim _ hq).1, hv.recs q hq]
    · intro x hx hseg
      apply hv.items x (hv'.items x hx (hv.victim _ hseg).1) hseg
    · intro x hx hash hlock hbucket htag
      apply hv'.locked x (hv.locked x hx hash hlock hbucket htag) hash hlock hbucket htag

/-! ### Steps of the segments -/

/-- How the phase of a segment with ranges may move. -/
inductive Moves (geo : Geometry) (c : Core) (seg : Nat) : SegPhase → Prop
  | same : Moves geo c seg (c.phase seg)
  | close {stream : Stream} {next : Nat} (h : c.phase seg = .opened stream next) :
      Moves geo c seg .closed
  | pick (h : c.phase seg = .closed)
      (hall : ∀ {p rg}, geo.segOf p = seg → c.ranges p = some rg → rg.released = true) :
      Moves geo c seg .victim
  | back (h : c.phase seg = .victim) : Moves geo c seg .closed
  | defer (h : c.phase seg = .closed)
      (hall : ∀ {p rg}, geo.segOf p = seg → c.ranges p = some rg →
        rg.released = true ∧ rg.holder = .nobody) :
      Moves geo c seg (.deferred c.sections)
  | sync (h : c.phase seg = .victim)
      (hnone : ∀ x ∈ c.curSnap.items, geo.segOf x.2.pba ≠ seg) :
      Moves geo c seg (.syncing c.sections)

section

variable {geo : Geometry} {seg : Nat} {ph : SegPhase} (hm : Moves geo c seg ph)

include hm

theorem Moves.ranged (h : (c.phase seg).ranged = true) : ph.ranged = true := by
  cases hm with
  | same => apply h
  | close | pick | back | defer | sync => rfl

theorem Moves.opened {stream : Stream} {next : Nat} (h : ph = .opened stream next) :
    c.phase seg = .opened stream next := by
  cases hm with
  | same => apply h
  | close | pick | back | defer | sync => cases h

theorem Moves.writable
    {p : Nat} {rg : GrainRange} (hp : geo.segOf p = seg) (hrg : c.ranges p = some rg)
    (hrel : rg.released = false) (hw : (c.phase seg).writable = true) :
  ph.writable = true
  := by
  cases hm with
  | same => apply hw
  | close | back => rfl
  | pick _ hall =>
      rw [hall hp hrg] at hrel
      cases hrel
  | defer _ hall =>
      rw [(hall hp hrg).1] at hrel
      cases hrel
  | sync h =>
      rw [h] at hw
      cases hw

theorem Moves.protects
    {s : ReadSection} (hs : s ∈ c.sections) (h : (c.phase seg).Protects s) : ph.Protects s := by
  cases hm with
  | same => apply h
  | close | pick | back => trivial
  | defer | sync => apply hs

theorem Moves.keeps
    {p : Nat} {rg : GrainRange} {s : ReadSection} (hs : s ∈ c.sections) (hp : geo.segOf p = seg)
    (hrg : c.ranges p = some rg) (hheld : rg.holder ≠ .nobody) (h : (c.phase seg).Keeps s) :
  ph.Keeps s
  := by
  cases hm with
  | same => apply h
  | close | pick | back => trivial
  | defer _ hall =>
      have hnobody := (hall hp hrg).2
      contradiction
  | sync => apply hs

theorem Moves.inUse
    {x : Nat × EntryInfo} {rg : GrainRange} (hx : x ∈ c.curSnap.items)
    (hp : geo.segOf x.2.pba = seg) (hrg : c.ranges x.2.pba = some rg) (hheld : rg.holder = .entry)
    (h : (c.phase seg).inUse = true) :
  ph.inUse = true
  := by
  cases hm with
  | same => apply h
  | close | pick | back => rfl
  | defer _ hall =>
      rw [(hall hp hrg).2] at hheld
      cases hheld
  | sync _ hnone =>
      have hne := hnone x hx
      contradiction

theorem Moves.invalid
    {p : Nat} {rg : GrainRange} {waits : List ReadSection} (hp : geo.segOf p = seg)
    (hrg : c.ranges p = some rg) (hph : ph = .deferred waits)
    (h : ∀ waits, c.phase seg = .deferred waits → rg.holder = .nobody) :
  rg.holder = .nobody
  := by
  cases hm with
  | same => apply h waits hph
  | close | pick | back | sync => cases hph
  | defer _ hall => apply (hall hp hrg).2

end

end

end UDepot
