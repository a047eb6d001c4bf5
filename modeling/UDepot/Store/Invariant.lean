import UDepot.Store.Step

/-!
# Invariants of the shared state

The invariants of the store that hold in every run, each stated on the parts of the state it is
about.

* A segment's metadata and arrays agree with how far it has come (`SegTable.Inv`); an allocation
  count goes to one segment (`SegTable.Counted`).
* A complete record on the device has the shape of one an operation writes and lies in its
  segment; the scan accepts it only if `seg_live_` is set and its timestamp is the array's
  (`RecordInv`).
* Ranges are disjoint and lie in segments that have not been freed (`RangeInv`), and every record
  and every commit of a segment's present life has its range (`LifeInv`, `CommitInv`).
* An entry of the directory points at a record with its key, of the present life of a segment in
  use, and no two entries point at records of one key (`DirInv`).
-/

namespace UDepot

namespace SegPhase

/-- The directory may point into the segment. -/
def inUse : SegPhase → Bool
  | .opened _ _ | .closed | .victim => true
  | _ => false

/-- The segment has ranges. -/
def ranged : SegPhase → Bool
  | .opened _ _ | .closed | .victim | .deferred _ | .syncing _ => true
  | _ => false

/-- The segment may have ranges that are not released. -/
def writable : SegPhase → Bool
  | .opened _ _ | .closed => true
  | _ => false

/-- The segment is stamped for data or for relocation, with the count `ts`. -/
def Stamps (ts : Nat) : SegPhase → Prop
  | .stamping stream ts' _ => stream ≠ .index ∧ ts' = ts
  | _ => False

/-- The segment is not freed before the read section `s` has ended, if the section came upon an
address in it. -/
def Protects (s : ReadSection) : SegPhase → Prop
  | .opened _ _ | .closed | .victim => True
  | .deferred waits | .syncing waits => s ∈ waits
  | _ => False

/-- The segment is not freed before the actor of the read section `s` has invalidated a range it
holds there. -/
def Keeps (s : ReadSection) : SegPhase → Prop
  | .opened _ _ | .closed | .victim => True
  | .syncing waits => s ∈ waits
  | _ => False

theorem ranged_of_inUse {p : SegPhase} (h : p.inUse = true) : p.ranged = true := by
  cases p <;> first | rfl | cases h

theorem inUse_of_writable {p : SegPhase} (h : p.writable = true) : p.inUse = true := by
  cases p <;> first | rfl | cases h

theorem protects_of_inUse {p : SegPhase} (s : ReadSection) (h : p.inUse = true) :
    p.Protects s := by
  cases p <;> trivial

theorem keeps_of_inUse {p : SegPhase} (s : ReadSection) (h : p.inUse = true) : p.Keeps s := by
  cases p <;> trivial

theorem ranged_of_protects {p : SegPhase} {s : ReadSection} (h : p.Protects s) :
    p.ranged = true := by
  cases p <;> first | rfl | cases h

theorem not_stamps_of_ranged {p : SegPhase} {ts : Nat} (h : p.ranged = true) : ¬ p.Stamps ts := by
  intro hs
  cases p with
  | stamping => cases h
  | _ => cases hs

end SegPhase

/-! ### Segments -/

/-- The count `ts` was given to a segment. -/
structure Counted (count : Nat) (ownerOf : Nat → Nat) (seg ts : Nat) : Prop where
  pos : 0 < ts
  le : ts ≤ count
  owner : ownerOf ts = seg

namespace SegTable

variable (t : SegTable)

abbrev Counted (seg ts : Nat) : Prop := UDepot.Counted t.segAllocNr t.owner seg ts

/-- The metadata and the arrays of a segment at each point of its life. -/
def PhaseOk (seg : Nat) : SegPhase → Prop
  | .stamping .index ts (.wrote true) | .stamping .index ts (.okStored true) =>
      t.segMd seg = some ⟨.index, ts⟩
  | .stamping .index _ .tsStored | .stamping .index _ .liveStored => False
  | .free | .index | .stamping .index _ _ => True
  | .stamping _ ts .counted | .stamping _ ts (.wrote false) =>
      t.Counted seg ts ∧ t.segTimestamps seg < ts
  | .stamping _ ts (.wrote true) =>
      t.Counted seg ts ∧ t.segTimestamps seg < ts ∧ t.segMd seg = some ⟨.kv, ts⟩
  | .stamping _ ts .tsStored =>
      t.Counted seg ts ∧ t.segTimestamps seg = ts ∧ t.segMd seg = some ⟨.kv, ts⟩
  | .stamping _ ts .liveStored =>
      t.Counted seg ts ∧ t.segTimestamps seg = ts ∧ t.segMd seg = some ⟨.kv, ts⟩
        ∧ t.segLive seg = true
  | .stamping _ ts (.okStored true) =>
      t.Counted seg ts ∧ t.segTimestamps seg = ts ∧ t.segMd seg = some ⟨.kv, ts⟩
        ∧ t.segLive seg = true
  | .stamping _ ts (.okStored false) =>
      t.Counted seg ts ∧ t.segTimestamps seg < ts ∧ t.segMdOk seg = false
  | .opened _ _ | .closed | .victim | .deferred _ | .syncing _ =>
      t.segMdOk seg = true →
        t.segMd seg = some ⟨.kv, t.segTimestamps seg⟩ ∧ t.segLive seg = true
          ∧ 0 < t.segTimestamps seg

structure Inv : Prop where
  timestamp : ∀ seg, 0 < t.segTimestamps seg → t.Counted seg (t.segTimestamps seg)
  md : ∀ seg ts, t.segMd seg = some ⟨.kv, ts⟩ → t.Counted seg ts
  phase : ∀ seg, t.PhaseOk seg (t.phase seg)

variable {t}

theorem PhaseOk.stamps {seg ts : Nat} {ph : SegPhase} (h : t.PhaseOk seg ph) (hs : ph.Stamps ts) :
    t.Counted seg ts ∧ t.segTimestamps seg ≤ ts := by
  cases ph with
  | stamping stream ts' stage =>
      obtain ⟨hne, rfl⟩ := hs
      rcases stage with _ | ⟨⟨⟩⟩ | _ | _ | ⟨⟨⟩⟩ <;> cases stream <;> first
        | contradiction
        | exact ⟨h.1, Nat.le_of_lt h.2⟩
        | exact ⟨h.1, Nat.le_of_lt h.2.1⟩
        | exact ⟨h.1, Nat.le_of_eq h.2.1⟩
  | _ => cases hs

theorem PhaseOk.ranged
    {seg : Nat} {ph : SegPhase} (h : t.PhaseOk seg ph) (hr : ph.ranged = true)
    (hok : t.segMdOk seg = true) :
  t.segMd seg = some ⟨.kv, t.segTimestamps seg⟩ ∧ t.segLive seg = true ∧ 0 < t.segTimestamps seg
  := by
  cases ph with
  | opened | closed | victim | deferred | syncing => apply h hok
  | free | index | stamping => cases hr

/-- A count is of one segment, so a segment being stamped and one with ranges differ in it. -/
theorem Inv.ne_of_stamps
    (h : t.Inv) {seg seg' ts : Nat} (hs : (t.phase seg).Stamps ts)
    (hr : (t.phase seg').ranged = true) (hok : t.segMdOk seg' = true) :
  t.segTimestamps seg' ≠ ts
  := by
  rintro rfl
  have hown := ((h.phase seg).stamps hs).1.owner
  have hown' := (h.timestamp seg' ((h.phase seg').ranged hr hok).2.2).owner
  rw [hown] at hown'
  rw [hown'] at hs
  apply SegPhase.not_stamps_of_ranged hr hs

theorem PhaseOk.of_ranged
    {seg : Nat} {ph : SegPhase} (hr : ph.ranged = true)
    (h : t.segMdOk seg = true → t.segMd seg = some ⟨.kv, t.segTimestamps seg⟩
      ∧ t.segLive seg = true ∧ 0 < t.segTimestamps seg) :
  t.PhaseOk seg ph
  := by
  cases ph with
  | opened | closed | victim | deferred | syncing => apply h
  | free | index | stamping => cases hr

theorem PhaseOk.congr
    {t' : SegTable} {seg : Nat} {ph : SegPhase} (h : t.PhaseOk seg ph)
    (hcounted : ∀ {ts}, t.Counted seg ts → t'.Counted seg ts)
    (hmd : t'.segMd seg = t.segMd seg) (hts : t'.segTimestamps seg = t.segTimestamps seg)
    (hok : t'.segMdOk seg = t.segMdOk seg) (hlive : t'.segLive seg = t.segLive seg) :
  t'.PhaseOk seg ph
  := by
  cases ph with
  | free | index => trivial
  | opened | closed | victim | deferred | syncing =>
      intro hok'
      rw [hmd, hts, hlive]
      apply h (hok.symm.trans hok')
  | stamping stream ts stage =>
      rcases stage with _ | ⟨⟨⟩⟩ | _ | _ | ⟨⟨⟩⟩ <;> cases stream <;>
        simp only [PhaseOk, hmd, hts, hok, hlive] at h ⊢ <;>
        first
          | exact h
          | exact ⟨hcounted h.1, h.2⟩

end SegTable

section

variable (env : StoreEnv) (geo : Geometry) (t : SegTable)
variable (recs : Nat → Option Rec) (ranges : Nat → Option GrainRange) (committed : List Commit)

/-! ### Records, ranges and commits -/

/-- The shape of the records operations write. -/
structure Rec.Shape (r : Rec) (pba : Nat) : Prop where
  key : r.key.length ≠ 0
  grains : r.grains = geo.kvTotalGrains r.key.length (r.value.elim 0 List.length)
  small : r.grains ≤ kKvSizeMask
  fits : pba + r.grains ≤ geo.segBase (geo.segOf pba) + geo.dataGrains

structure RecordInv : Prop where
  shape : ∀ {p r}, recs p = some r → r.Shape geo p
  le : ∀ {p r}, recs p = some r → r.timestamp ≤ t.segAllocNr
  fresh : ∀ {p r seg ts}, recs p = some r → (t.phase seg).Stamps ts → r.timestamp ≠ ts
  live : ∀ {p r}, recs p = some r → t.segMd (geo.segOf p) = some ⟨.kv, r.timestamp⟩ →
    t.segLive (geo.segOf p) = true ∧ t.segTimestamps (geo.segOf p) = r.timestamp

structure RangeInv : Prop where
  ranged : ∀ {p rg}, ranges p = some rg → (t.phase (geo.segOf p)).ranged = true
  pos : ∀ {p rg}, ranges p = some rg → 0 < rg.len
  fits : ∀ {p rg}, ranges p = some rg →
    p + rg.len ≤ geo.segBase (geo.segOf p) + geo.dataGrains
  opened : ∀ {seg stream next}, t.phase seg = .opened stream next →
    geo.segBase seg ≤ next ∧ next ≤ geo.segBase seg + geo.dataGrains
  below : ∀ {p rg stream next}, ranges p = some rg →
    t.phase (geo.segOf p) = .opened stream next → p + rg.len ≤ next
  disjoint : ∀ {p q rg rg'}, ranges p = some rg → ranges q = some rg' → p < q → p + rg.len ≤ q
  unreleased : ∀ {p rg}, ranges p = some rg → rg.released = false →
    (t.phase (geo.segOf p)).writable = true
  invalid : ∀ {p rg waits}, ranges p = some rg → t.phase (geo.segOf p) = .deferred waits →
    rg.holder = .nobody

/-- A record of the present life of a segment has its range. -/
def LifeInv : Prop :=
  ∀ {p r}, recs p = some r → (t.phase (geo.segOf p)).ranged = true →
    t.segMdOk (geo.segOf p) = true → t.segTimestamps (geo.segOf p) = r.timestamp →
    ∃ rg, ranges p = some rg ∧ rg.len = r.grains

structure CommitInv : Prop where
  counted : ∀ {x}, x ∈ committed → t.Counted (geo.segOf x.pba) x.timestamp
  fresh : ∀ {x seg ts}, x ∈ committed → (t.phase seg).Stamps ts → x.timestamp ≠ ts
  range : ∀ {x}, x ∈ committed → (t.phase (geo.segOf x.pba)).ranged = true →
    t.segMdOk (geo.segOf x.pba) = true → t.segTimestamps (geo.segOf x.pba) = x.timestamp →
    ∃ rg, ranges x.pba = some rg ∧ ∀ a, rg.holder ≠ .writer a

/-! ### The directory -/

/-- The entry for a record at an address, with its bucket. -/
def StoreEnv.item (r : Rec) (pba : Nat) : Nat × EntryInfo :=
  (env.hashKey r.key % 2 ^ env.bucketBits,
    ⟨hashToTag (env.hashKey r.key) env.bucketBits, r.kvSize, pba⟩)

/-- A committed record of the present life of its segment. -/
structure Current (pba : Nat) (r : Rec) : Prop where
  record : recs pba = some r
  range : ∃ rg, ranges pba = some rg ∧ rg.len = r.grains
  timestamp : t.segTimestamps (geo.segOf pba) = r.timestamp
  mdOk : t.segMdOk (geo.segOf pba) = true
  committed : ⟨r.key, r.timestamp, pba⟩ ∈ committed

/-- What an entry points at. -/
structure Pointed (x : Nat × EntryInfo) (r : Rec) : Prop where
  current : Current env.geo t recs ranges committed x.2.pba r
  item : x = env.item r x.2.pba
  inUse : (t.phase (env.geo.segOf x.2.pba)).inUse = true
  held : ∃ rg, ranges x.2.pba = some rg ∧ rg.holder = .entry

structure DirInv (snap : DirSnapshot) : Prop where
  wf : snap.Wf
  bits : snap.bucketBits = env.bucketBits
  pointed : ∀ {x}, x ∈ snap.items → ∃ r, Pointed env t recs ranges committed x r
  pbas : (snap.items.map (·.2.pba)).Nodup
  keys : ∀ {x y r r'}, x ∈ snap.items → y ∈ snap.items → recs x.2.pba = some r →
    recs y.2.pba = some r' → r.key = r'.key → x = y

variable {env t recs ranges committed} in
/-- No two entries have one address. -/
theorem DirInv.eq_of_pba
    {snap : DirSnapshot} (h : DirInv env t recs ranges committed snap) {x y : Nat × EntryInfo}
    (hx : x ∈ snap.items) (hy : y ∈ snap.items) (hp : x.2.pba = y.2.pba) :
  x = y
  := by
  obtain ⟨r, hr⟩ := h.pointed hx
  have hr' := hr.current.record
  rw [hp] at hr'
  apply h.keys hx hy hr.current.record hr' rfl

end

/-- The invariants of the shared state. -/
structure Core.Inv (env : StoreEnv) (c : Core) : Prop where
  segs : c.toSegTable.Inv
  recs : RecordInv env.geo c.toSegTable c.recs
  ranges : RangeInv env.geo c.toSegTable c.ranges
  life : LifeInv env.geo c.toSegTable c.recs c.ranges
  commits : CommitInv env.geo c.toSegTable c.ranges c.committed
  dir : DirInv env c.toSegTable c.recs c.ranges c.committed c.curSnap
  grow : ∀ {waits}, c.grow = .freezing waits → c.curSnap.tableBits < kMaxTableBits

end UDepot
