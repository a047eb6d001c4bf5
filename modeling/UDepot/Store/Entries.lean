import UDepot.Store.Ranges

/-!
# Changes of the directory

A commit makes the directory point at a record its actor has written: an entry is added, or
replaces the key's, whose range the actor then has to invalidate.  The collector removes the entry
of a tombstone.  A grow freezes the current snapshot and later publishes a copy with the same
entries.
-/

namespace UDepot

/-- No entry of the current snapshot is for a key. -/
def Core.Absent (c : Core) (key : Bytes) : Prop :=
  ∀ x ∈ c.curSnap.items, ∀ r, c.recs x.2.pba = some r → r.key ≠ key

/-- The entry of the current snapshot for a key. -/
structure Core.EntryOf (c : Core) (env : StoreEnv) (key : Bytes) (e : EntryInfo) (r : Rec) :
    Prop where
  mem : (c.curSnap.bucketOf (env.hashKey key), e) ∈ c.curSnap.items
  record : c.recs e.pba = some r
  key_eq : r.key = key

/-- A step leaves the directory's entries alone and records nothing. -/
structure Quiet (c c' : Core) : Prop where
  items : c'.curSnap.items = c.curSnap.items
  committed : c'.committed = c.committed
  dropped : c'.dropped = c.dropped

theorem Quiet.refl {c : Core} : Quiet c c := ⟨rfl, rfl, rfl⟩

/-- A step makes the directory point at the record `r` its actor wrote at `p`, in the place of the
key's entry if there is one. -/
structure Commits (env : StoreEnv) (a : Actor) (c c' : Core) (p : Nat) (r : Rec)
    (old : Option (EntryInfo × Rec)) : Prop where
  owned : Owned c a p r.grains
  record : c.recs p = some r
  timestamp : c.segTimestamps (env.geo.segOf p) = r.timestamp
  mdOk : c.segMdOk (env.geo.segOf p) = true
  segs : c'.toSegTable = c.toSegTable
  recs : c'.recs = c.recs
  ranges : c'.ranges = ((old.elim c fun er => c.give er.1.pba (.remover a)).give p .entry).ranges
  committed : c'.committed = ⟨r.key, r.timestamp, p⟩ :: c.committed
  dropped : c'.dropped = c.dropped
  first : old = none → c.Absent r.key ∧ c'.curSnap.items = env.item r p ::ₘ c.curSnap.items
  replaced : ∀ {e r₀}, old = some (e, r₀) → c.EntryOf env r.key e r₀
    ∧ newerThan env.geo c.segTimestamps p e.pba = true
    ∧ (c.curSnap.bucketOf (env.hashKey r.key), e) ::ₘ c'.curSnap.items
      = env.item r p ::ₘ c.curSnap.items

namespace Core.Inv

variable {env : StoreEnv} {c c' : Core} (h : c.Inv env)

include h

/-- The current snapshot is replaced by one whose entries all point at committed records. -/
theorem setItems
    {snap : DirSnapshot} (hwf : snap.Wf) (hbits : snap.bucketBits = c.curSnap.bucketBits)
    (htables : snap.tableBits = c.curSnap.tableBits)
    (hpointed : ∀ {x}, x ∈ snap.items →
      ∃ r, Pointed env c.toSegTable c.recs c.ranges c.committed x r)
    (hpbas : (snap.items.map (·.2.pba)).Nodup)
    (hkeys : ∀ {x y r r'}, x ∈ snap.items → y ∈ snap.items → c.recs x.2.pba = some r →
      c.recs y.2.pba = some r' → r.key = r'.key → x = y)
    {lock : Option Nat} {b : Option Actor}
    (hvictim : b ≠ some .gc → ∀ x ∈ snap.items, c.phase (env.geo.segOf x.2.pba) = .victim →
      x ∈ c.curSnap.items)
    (hlocked : b ≠ some .gc → ∀ x ∈ c.curSnap.items, ∀ hash, lock = some hash →
      x.1 = hash % 2 ^ env.bucketBits → x.2.keyTag = hashToTag hash env.bucketBits →
      x ∈ snap.items) :
  Frame env c (c.setCur snap) lock b
  := by
  have hcur : (c.setCur snap).curSnap = snap := by
    simp [Core.setCur, Core.curSnap]
  have hbits' : snap.bucketBits = env.bucketBits := hbits.trans h.dir.bits
  constructor
  · refine ⟨h.segs, h.recs, h.ranges, h.life, h.commits, ?_, ?_⟩
    · rw [hcur]
      exact ⟨hwf, hbits', hpointed, hpbas, hkeys⟩
    · rw [hcur, htables]
      exact h.grow
  · intro p r _ hc
    apply hc
  · exact fun ha => ha.of_segs rfl fun hrg hrel => ⟨_, hrg, hrel⟩
  · exact fun ha => ha.of_segs rfl fun hr => .inl hr
  · intro s _ p r hl
    exact ⟨hl.current, hl.protects⟩
  · intro s _ gen hl
    by_cases hgen : gen = c.cur
    · have hsnap : (c.setCur snap).snaps gen = snap := by
        rw [hgen]
        apply hcur
      constructor
      · apply hl.le
      · rw [hsnap]
        apply hwf
      · rw [hsnap]
        apply hbits'
      · rw [hsnap]
        intro x hx
        obtain ⟨r, hr⟩ := hpointed hx
        exact ⟨r, ⟨hr.current, SegPhase.protects_of_inUse s hr.inUse⟩, hr.item⟩
    · have hsnap : (c.setCur snap).snaps gen = c.snaps gen := Function.update_of_ne hgen _ _
      constructor
      · apply hl.le
      · rw [hsnap]
        apply hl.wf
      · rw [hsnap]
        apply hl.bits
      · rw [hsnap]
        intro x hx
        obtain ⟨r, hr, hitem⟩ := hl.loaded hx
        exact ⟨r, ⟨hr.current, hr.protects⟩, hitem⟩
  · intro a _
    exact .of_same rfl rfl rfl fun _ hs _ => hs
  · intro hb
    exact {
      victim := fun _ hv => ⟨hv, rfl, rfl⟩
      syncing := fun _ _ hv => hv
      recs := fun _ _ => rfl
      items := by
        rw [hcur]
        apply hvictim hb
      locked := by
        rw [hcur]
        apply hlocked hb
    }

/-- The current snapshot is replaced by one with the same entries. -/
theorem setCur_of_items
    {snap : DirSnapshot} (hwf : snap.Wf) (hbits : snap.bucketBits = c.curSnap.bucketBits)
    (htables : snap.tableBits = c.curSnap.tableBits) (hitems : snap.items = c.curSnap.items)
    (lock : Option Nat) (b : Option Actor) :
  Frame env c (c.setCur snap) lock b
  := by
  apply h.setItems hwf hbits htables
  all_goals rw [hitems]
  · exact h.dir.pointed
  · exact h.dir.pbas
  · exact h.dir.keys
  · intro _ x hx _
    apply hx
  · intro _ x hx _ _ _ _
    apply hx

/-- A committed record is recorded. -/
theorem recordCommit
    (key : Bytes) {p : Nat} {rg : GrainRange} (hrg : c.ranges p = some rg)
    (hne : ∀ a, rg.holder ≠ .writer a) (hok : c.segMdOk (env.geo.segOf p) = true)
    (lock : Option Nat) (b : Option Actor) :
  Frame env c (c.recordCommit env.geo key p) lock b
  := by
  have hranged := h.ranges.ranged hrg
  have hpos := ((h.segs.phase _).ranged hranged hok).2.2
  have hcurrent : ∀ {q r}, Current env.geo c.toSegTable c.recs c.ranges c.committed q r →
      Current env.geo c.toSegTable c.recs c.ranges (c.recordCommit env.geo key p).committed q r :=
    fun hc => ⟨hc.record, hc.range, hc.timestamp, hc.mdOk, List.mem_cons_of_mem _ hc.committed⟩
  constructor
  · refine ⟨h.segs, h.recs, h.ranges, h.life, ?_, ?_, h.grow⟩
    · constructor
      · intro x hx
        obtain rfl | hx := List.mem_cons.mp hx
        · apply h.segs.timestamp _ hpos
        · apply h.commits.counted hx
      · intro x seg ts hx hst
        obtain rfl | hx := List.mem_cons.mp hx
        · apply h.segs.ne_of_stamps hst hranged hok
        · apply h.commits.fresh hx hst
      · intro x hx hr hok hts
        obtain rfl | hx := List.mem_cons.mp hx
        · exact ⟨rg, hrg, hne⟩
        · apply h.commits.range hx hr hok hts
    · refine ⟨h.dir.wf, h.dir.bits, ?_, h.dir.pbas, h.dir.keys⟩
      intro x hx
      obtain ⟨r, hr⟩ := h.dir.pointed hx
      exact ⟨r, hcurrent hr.current, hr.item, hr.inUse, hr.held⟩
  · intro p r _ hc
    apply hcurrent hc
  · exact fun ha => ha.of_segs rfl fun hrg hrel => ⟨_, hrg, hrel⟩
  · exact fun ha => ha.of_segs rfl fun hr => .inl hr
  · intro s _ p r hl
    exact ⟨hcurrent hl.current, hl.protects⟩
  · intro s _ gen hl
    refine ⟨hl.le, hl.wf, hl.bits, ?_⟩
    intro x hx
    obtain ⟨r, hr, hitem⟩ := hl.loaded hx
    exact ⟨r, ⟨hcurrent hr.current, hr.protects⟩, hitem⟩
  · intro a _
    exact .of_same rfl rfl rfl fun _ hs _ => hs
  · intro _
    exact .of_same rfl rfl rfl

/-! ### Adding and removing an entry -/

/-- A writer passes its range on to the entry it is about to make. -/
theorem giveEntry {a : Actor} {p len : Nat} (ho : Owned c a p len) (lock : Option Nat) :
    Frame env c (c.give p .entry) lock (some a) := by
  refine RangeStep.frame ?_ h lock
  constructor
  · intro rg
    rfl
  · intro rg hrel
    apply hrel
  · intro rg waits hrg hph
    have hw := h.ranges.unreleased ho rfl
    rw [hph] at hw
    cases hw
  · intro rg a _ hheld
    cases hheld
  · intro rg x _ _ _ _
    rfl
  · intro rg _ _ hrel
    exact ⟨rfl, hrel⟩
  · intro rg a' hrg hne hheld
    rw [ho] at hrg
    cases hrg
    exfalso
    simp only [Holder.writer.injEq, reduceCtorEq, or_false] at hheld
    exact hne (congrArg some hheld)

omit h in
theorem give_self {p : Nat} {rg : GrainRange} (hh : Holder) (hrg : c.ranges p = some rg) :
    (c.give p hh).ranges p = some { rg with holder := hh } := by
  simp [Core.give, Core.mapRange, hrg]

/-- A writer makes an entry for the record it wrote, for a key without one. -/
theorem insertEntry
    {a : Actor} {p : Nat} {r : Rec} {snap : DirSnapshot} (ho : Owned c a p r.grains)
    (hr : c.recs p = some r) (hts : c.segTimestamps (env.geo.segOf p) = r.timestamp)
    (hok : c.segMdOk (env.geo.segOf p) = true) (hwf : snap.Wf)
    (hbits : snap.bucketBits = c.curSnap.bucketBits)
    (htables : snap.tableBits = c.curSnap.tableBits)
    (hitems : snap.items = env.item r p ::ₘ c.curSnap.items)
    (habsent : ∀ x ∈ c.curSnap.items, ∀ r', c.recs x.2.pba = some r' → r'.key ≠ r.key)
    (lock : Option Nat) :
  Frame env c (((c.setCur snap).give p .entry).recordCommit env.geo r.key p) lock (some a)
  := by
  have hfirst := h.giveEntry ho lock
  have hrange := give_self .entry ho
  have hsecond := hfirst.inv.recordCommit r.key hrange (by simp) hok lock (some a)
  have hboth := hfirst.trans hsecond id (List.Subset.refl _)
  have hinUse := SegPhase.inUse_of_writable (h.ranges.unreleased ho rfl)
  refine hboth.trans (hsecond.inv.setItems hwf hbits htables ?_ ?_ ?_ ?_ ?_)
    id (List.Subset.refl _)
  all_goals rw [hitems]
  · intro x hx
    obtain rfl | hx := Multiset.mem_cons.mp hx
    · refine ⟨r, ⟨hr, ⟨_, hrange, rfl⟩, hts, hok, ?_⟩, rfl, hinUse, _, hrange, rfl⟩
      rw [← hts]
      apply List.mem_cons_self
    · apply hsecond.inv.dir.pointed hx
  · rw [Multiset.map_cons]
    apply Multiset.nodup_cons.mpr
    use ?_, h.dir.pbas
    intro hmem
    obtain ⟨x, hx, hp⟩ := Multiset.mem_map.mp hmem
    obtain ⟨r', hr'⟩ := h.dir.pointed hx
    have hcur := hr'.current
    rw [hp] at hcur
    apply h.not_owned hcur ho
  · intro x y r₁ r₂ hx hy hr₁ hr₂ hkey
    obtain rfl | hx := Multiset.mem_cons.mp hx
    · cases hr.symm.trans hr₁
      obtain rfl | hy := Multiset.mem_cons.mp hy
      · rfl
      · exact absurd hkey.symm (habsent y hy r₂ hr₂)
    · obtain rfl | hy := Multiset.mem_cons.mp hy
      · cases hr.symm.trans hr₂
        exact absurd hkey (habsent x hx r₁ hr₁)
      · apply h.dir.keys hx hy hr₁ hr₂ hkey
  · intro _ x hx hv
    obtain rfl | hx := Multiset.mem_cons.mp hx
    · have hw := h.ranges.unreleased ho rfl
      simp only [StoreEnv.item] at hv
      rw [show c.phase (env.geo.segOf p) = .victim from hv] at hw
      cases hw
    · apply hx
  · intro _ x hx _ _ _ _
    apply Multiset.mem_cons_of_mem hx

/-- An entry is removed; the actor is to invalidate its range. -/
theorem removeEntry
    (lock : Option Nat) {a : Actor} {x : Nat × EntryInfo} {snap : DirSnapshot} (hwf : snap.Wf)
    (hbits : snap.bucketBits = c.curSnap.bucketBits)
    (htables : snap.tableBits = c.curSnap.tableBits)
    (hitems : c.curSnap.items = x ::ₘ snap.items)
    (hlock : a ≠ .gc → ∀ hash, lock = some hash → x.1 = hash % 2 ^ env.bucketBits →
      x.2.keyTag ≠ hashToTag hash env.bucketBits) :
  Frame env c ((c.setCur snap).give x.2.pba (.remover a)) lock (some a)
  := by
  have hmem : ∀ {y}, y ∈ snap.items → y ∈ c.curSnap.items := by
    intro y hy
    rw [hitems]
    apply Multiset.mem_cons_of_mem hy
  have hpbas := h.dir.pbas
  rw [hitems, Multiset.map_cons, Multiset.nodup_cons] at hpbas
  have hfirst : Frame env c (c.setCur snap) lock (some a) := by
    apply h.setItems hwf hbits htables
    · intro y hy
      apply h.dir.pointed (hmem hy)
    · apply hpbas.2
    · intro y z r r' hy hz
      apply h.dir.keys (hmem hy) (hmem hz)
    · intro _ y hy _
      apply hmem hy
    · intro hb y hy hash hlk hbucket htag
      rw [hitems] at hy
      obtain rfl | hy := Multiset.mem_cons.mp hy
      · exact absurd htag (hlock (fun ha => hb (by rw [ha])) hash hlk hbucket)
      · apply hy
  obtain ⟨r, hr⟩ := h.dir.pointed (x := x) (by rw [hitems]; apply Multiset.mem_cons_self)
  obtain ⟨rg₀, hrg₀, hheld₀⟩ := hr.held
  refine hfirst.trans (RangeStep.frame ?_ hfirst.inv lock) id (List.Subset.refl _)
  constructor
  · intro rg
    rfl
  · intro rg hrel
    apply hrel
  · intro rg waits _ hph
    have huse := hr.inUse
    rw [show c.phase (env.geo.segOf x.2.pba) = .deferred waits from hph] at huse
    cases huse
  · intro rg a _ hheld
    cases hheld
  · intro rg y _ hy hp _
    have hcur : (c.setCur snap).curSnap = snap := by
      simp [Core.setCur, Core.curSnap]
    rw [hcur] at hy
    exact absurd (Multiset.mem_map.mpr ⟨y, hy, hp⟩) hpbas.1
  · intro rg _ _ hrel
    exact ⟨rfl, hrel⟩
  · intro rg a' hrg _ hheld
    cases hrg₀.symm.trans hrg
    rw [hheld₀] at hheld
    simp at hheld

/-- An entry of the directory, by the hash of its record's key. -/
theorem item_eq
    {x : Nat × EntryInfo} {r : Rec} (hx : x ∈ c.curSnap.items) (hr : c.recs x.2.pba = some r) :
  x.1 = c.curSnap.bucketOf (env.hashKey r.key)
    ∧ x.2.keyTag = c.curSnap.tagOf (env.hashKey r.key) ∧ x = env.item r x.2.pba
  := by
  obtain ⟨r', hr'⟩ := h.dir.pointed hx
  cases hr.symm.trans hr'.current.record
  have hitem := hr'.item
  rw [DirSnapshot.bucketOf, DirSnapshot.tagOf, h.dir.bits]
  refine ⟨?_, ?_, hitem⟩ <;> rw [hitem] <;> rfl

/-- Every entry can be removed. -/
theorem exists_remove {x : Nat × EntryInfo} (hx : x ∈ c.curSnap.items) :
    ∃ snap : DirSnapshot, snap.Wf ∧ snap.bucketBits = c.curSnap.bucketBits
      ∧ snap.tableBits = c.curSnap.tableBits ∧ c.curSnap.items = x ::ₘ snap.items := by
  obtain ⟨r, hr⟩ := h.dir.pointed hx
  obtain ⟨hbucket, htag, -⟩ := h.item_eq hx hr.current.record
  have hmem : (c.curSnap.bucketOf (env.hashKey r.key), x.2) ∈ c.curSnap.items := by
    rw [← hbucket]
    apply hx
  obtain ⟨snap, hsnap⟩ := h.dir.wf.exists_removeLocked hmem htag rfl
  obtain ⟨hwf, htables, hbits, -, -, y, -, hpba, hitems⟩ := h.dir.wf.removeLocked hsnap
  refine ⟨snap, hwf, hbits, htables, ?_⟩
  have hy : (c.curSnap.bucketOf (env.hashKey r.key), y) ∈ c.curSnap.items := by
    rw [hitems]
    apply Multiset.mem_cons_self
  have heq := h.dir.eq_of_pba hy hx hpba
  rw [← heq]
  apply hitems

/-- A writer replaces the entry of its key by one for the record it wrote. -/
theorem replaceEntry
    {a : Actor} {p : Nat} {r r₀ : Rec} {x : Nat × EntryInfo} {snap : DirSnapshot}
    (hx : x ∈ c.curSnap.items) (hr₀ : c.recs x.2.pba = some r₀) (hkey : r₀.key = r.key)
    (ho : Owned c a p r.grains)
    (hr : c.recs p = some r) (hts : c.segTimestamps (env.geo.segOf p) = r.timestamp)
    (hok : c.segMdOk (env.geo.segOf p) = true) (hwf : snap.Wf)
    (hbits : snap.bucketBits = c.curSnap.bucketBits)
    (htables : snap.tableBits = c.curSnap.tableBits)
    (hitems : x ::ₘ snap.items = env.item r p ::ₘ c.curSnap.items) {lock : Option Nat}
    (hlock : a ≠ .gc → ∀ hash, lock = some hash → x.1 = hash % 2 ^ env.bucketBits →
      x.2.keyTag ≠ hashToTag hash env.bucketBits) :
  Frame env c ((((c.setCur snap).give x.2.pba (.remover a)).give p .entry).recordCommit env.geo
    r.key p) lock (some a)
  := by
  obtain ⟨rest, hwf', hbits', htables', hrest⟩ := h.exists_remove hx
  have hfirst := h.removeEntry lock hwf' hbits' htables' hrest hlock
  have hne : p ≠ x.2.pba := by
    rintro rfl
    obtain ⟨r', hr'⟩ := h.dir.pointed hx
    apply h.not_owned hr'.current ho
  have hcur : ((c.setCur rest).give x.2.pba (.remover a)).curSnap = rest := by
    simp [Core.give, Core.mapRange, Core.setCur, Core.curSnap]
  have hset : ((c.setCur rest).give x.2.pba (.remover a)).setCur snap
      = (c.setCur snap).give x.2.pba (.remover a) := by
    simp [Core.give, Core.mapRange, Core.setCur]
  have hpbas := h.dir.pbas
  rw [hrest, Multiset.map_cons, Multiset.nodup_cons] at hpbas
  rw [← hset]
  refine hfirst.trans (hfirst.inv.insertEntry ?_ hr hts hok hwf ?_ ?_ ?_ ?_ lock)
    id (List.Subset.refl _)
  · rw [Owned]
    simp only [Core.give, Core.mapRange]
    rw [Function.update_of_ne hne]
    apply ho
  · rw [hcur, hbits, hbits']
  · rw [hcur, htables, htables']
  · rw [hrest, Multiset.cons_swap] at hitems
    rw [hcur]
    apply (Multiset.cons_inj_right x).mp hitems
  · rw [hcur]
    intro y hy r' hr' hk
    have hy' : y ∈ c.curSnap.items := by
      rw [hrest]
      apply Multiset.mem_cons_of_mem hy
    have heq := h.dir.keys hy' hx hr' hr₀ (hk.trans hkey.symm)
    apply hpbas.1
    apply Multiset.mem_map.mpr ⟨y, hy, by rw [heq]⟩

/-- After a replacement the writer has the old range to invalidate and its own to release. -/
theorem replaced_tokens
    {s : ReadSection} {p len : Nat} {r₀ : Rec} {x : Nat × EntryInfo}
    (hx : x ∈ c.curSnap.items) (hr₀ : c.recs x.2.pba = some r₀) (ho : Owned c s.2 p len)
    (snap : DirSnapshot) (key : Bytes)
    (hc' : c' = (((c.setCur snap).give x.2.pba (.remover s.2)).give p .entry).recordCommit
      env.geo key p) :
  ToInvalidate env c' s x.2.pba r₀.grains ∧ Unreleased c' s.2 p len
  := by
  obtain ⟨r, hr⟩ := h.dir.pointed hx
  cases hr₀.symm.trans hr.current.record
  obtain ⟨rg, hrg, hlen⟩ := hr.current.range
  have hne : p ≠ x.2.pba := by
    rintro rfl
    apply h.not_owned hr.current ho
  rw [hc']
  constructor
  · refine ⟨⟨{ rg with holder := .remover s.2 }, ?_, hlen, .inr rfl⟩, ?_⟩
    · simp [Core.recordCommit, Core.give, Core.mapRange, Core.setCur, hne.symm, hrg]
    · apply SegPhase.keeps_of_inUse s hr.inUse
  · use .entry
    rw [Owned] at ho
    simp [Core.recordCommit, Core.give, Core.mapRange, Core.setCur, hne, ho]

/-- An actor commits the record it wrote in the place of the key's entry.  Unless the actor is the
collector, the stripes of the key must not be locked. -/
theorem commitReplace
    (lock : Option Nat) {s : ReadSection} {p : Nat} {r r₀ : Rec} {e : EntryInfo}
    (hentry : c.EntryOf env r.key e r₀) (hnewer : newerThan env.geo c.segTimestamps p e.pba = true)
    (ho : Owned c s.2 p r.grains) (hr : c.recs p = some r)
    (hts : c.segTimestamps (env.geo.segOf p) = r.timestamp)
    (hok : c.segMdOk (env.geo.segOf p) = true)
    (hlock : s.2 ≠ .gc → lock.any (c.curSnap.locksMeet (env.hashKey r.key)) = false) :
  ∃ snap, c.curSnap.updateLocked (env.hashKey r.key) e.pba r.kvSize p = some snap
    ∧ ∀ {c'}, c' = (((c.setCur snap).give e.pba (.remover s.2)).give p .entry).recordCommit env.geo
        r.key p →
      Frame env c c' lock (some s.2) ∧ Commits env s.2 c c' p r (some (e, r₀))
        ∧ ToInvalidate env c' s e.pba r₀.grains ∧ Unreleased c' s.2 p r.grains
  := by
  have hentry' := hentry
  obtain ⟨hmem, hr₀, hkey⟩ := hentry
  obtain ⟨-, htag, -⟩ := h.item_eq hmem hr₀
  rw [hkey] at htag
  obtain ⟨snap, hsnap⟩ := h.dir.wf.exists_updateLocked r.kvSize p hmem htag rfl
  obtain ⟨hwf, htables, hbits, -, -, y, -, hpba, hy, hitems⟩ := h.dir.wf.updateLocked hsnap
  cases h.dir.eq_of_pba hy hmem hpba
  have hitem : env.item r p = (c.curSnap.bucketOf (env.hashKey r.key),
      ⟨c.curSnap.tagOf (env.hashKey r.key), r.kvSize, p⟩) := by
    rw [DirSnapshot.bucketOf, DirSnapshot.tagOf, h.dir.bits]
    rfl
  rw [← hitem] at hitems
  use snap, hsnap
  intro c' hc'
  have hf : Frame env c c' lock (some s.2) := by
    rw [hc']
    refine h.replaceEntry hmem hr₀ hkey ho hr hts hok hwf hbits htables hitems ?_
    intro ha hash hlk hbucket htag'
    have hfree := hlock ha
    rw [← h.dir.bits] at hbucket htag'
    rw [hlk, Option.any_some, h.dir.wf.locksMeet hbucket (htag.symm.trans htag')] at hfree
    cases hfree
  refine ⟨hf, ?_, h.replaced_tokens hmem hr₀ ho snap r.key hc'⟩
  have hcur : c'.curSnap = snap := by
    rw [hc']
    simp [Core.curSnap, Core.recordCommit, Core.give, Core.mapRange, Core.setCur]
  refine ⟨ho, hr, hts, hok, ?_, ?_, ?_, ?_, ?_, by rintro ⟨⟩, ?_⟩
  · rw [hc']
    rfl
  · rw [hc']
    rfl
  · rw [hc']
    rfl
  · rw [hc', ← hts]
    rfl
  · rw [hc']
    rfl
  · rintro e' r' ⟨⟩
    refine ⟨hentry', hnewer, ?_⟩
    rw [hcur]
    apply hitems

/-! ### Grows -/

theorem growFreeze (hbits : c.curSnap.tableBits < kMaxTableBits) (lock : Option Nat) :
    Frame env c { c.setCur { c.curSnap with frozen := true } with grow := .freezing c.sections }
      lock none := by
  have hwf := h.dir.wf
  have hwf' : DirSnapshot.Wf { c.curSnap with frozen := true } :=
    ⟨hwf.bits, hwf.table, hwf.indexBits, hwf.tag, hwf.select⟩
  have hfrozen := h.setCur_of_items hwf' rfl rfl rfl lock none
  refine hfrozen.trans (hfrozen.inv.setSections lock (fun _ hs _ => hs) ?_) id (List.Subset.refl _)
  intro waits _
  simp only [Core.curSnap, Core.setCur, Function.update_self]
  apply hbits

theorem growPublish
    {waits : List ReadSection} (hgrow : c.grow = .freezing waits) (lock : Option Nat) :
  Frame env c { c with
    snaps := Function.update c.snaps (c.cur + 1) c.curSnap.growCopy
    cur := c.cur + 1
    grow := .idle } lock none
  := by
  obtain ⟨hcopied, hitems⟩ := h.dir.wf.growCopy (h.grow hgrow)
  have hcur : Core.curSnap { c with
      snaps := Function.update c.snaps (c.cur + 1) c.curSnap.growCopy
      cur := c.cur + 1
      grow := .idle } = c.curSnap.growCopy := by
    simp [Core.curSnap]
  constructor
  · refine ⟨h.segs, h.recs, h.ranges, h.life, h.commits, ?_, ?_⟩
    · rw [hcur]
      refine ⟨hcopied.wf, hcopied.bucketBits.trans h.dir.bits, ?_, ?_, ?_⟩
      all_goals rw [hitems]
      · exact h.dir.pointed
      · exact h.dir.pbas
      · exact h.dir.keys
    · intro waits hidle
      cases hidle
  · intro p r _ hc
    apply hc
  · exact fun ha => ha.of_segs rfl fun hrg hrel => ⟨_, hrg, hrel⟩
  · exact fun ha => ha.of_segs rfl fun hr => .inl hr
  · intro s _ p r hl
    exact ⟨hl.current, hl.protects⟩
  · intro s _ gen hl
    have hle := hl.le
    have hne : gen ≠ c.cur + 1 := by omega
    constructor
    · apply Nat.le_succ_of_le hle
    all_goals simp only [Function.update_of_ne hne]
    · apply hl.wf
    · apply hl.bits
    · intro x hx
      obtain ⟨r, hr, hitem⟩ := hl.loaded hx
      exact ⟨r, ⟨hr.current, hr.protects⟩, hitem⟩
  · intro a _
    exact .of_same rfl rfl rfl fun _ hs _ => hs
  · intro _
    exact .of_same rfl rfl (by rw [hcur, hitems])

end Core.Inv

section

variable {env : StoreEnv} {c c' : Core} {a : Actor} {p : Nat} {r : Rec}
    {old : Option (EntryInfo × Rec)} (hc : Commits env a c c' p r old) (h : c.Inv env)

include hc h

/-- No entry points at a record that is about to be committed. -/
theorem Commits.pba_ne {x : Nat × EntryInfo} (hx : x ∈ c.curSnap.items) : x.2.pba ≠ p := by
  rintro rfl
  obtain ⟨r', hr'⟩ := h.dir.pointed hx
  apply h.not_owned hr'.current hc.owned

/-- The entries after a commit: the new one, and those there were but the one replaced. -/
theorem Commits.mem_items {x : Nat × EntryInfo} :
    x ∈ c'.curSnap.items ↔ x = env.item r p
      ∨ x ∈ c.curSnap.items ∧ ∀ e r₀, old = some (e, r₀) → x.2.pba ≠ e.pba := by
  cases hold : old with
  | none =>
      rw [(hc.first hold).2, Multiset.mem_cons]
      simp
  | some er =>
      obtain ⟨e, r₀⟩ := er
      obtain ⟨hentry, -, hitems⟩ := hc.replaced hold
      have hpbas : (((c.curSnap.bucketOf (env.hashKey r.key), e) ::ₘ c'.curSnap.items).map
          (·.2.pba)).Nodup := by
        rw [hitems, Multiset.map_cons, Multiset.nodup_cons]
        use ?_, h.dir.pbas
        intro hmem
        obtain ⟨x, hx, hp⟩ := Multiset.mem_map.mp hmem
        apply hc.pba_ne h hx hp
      rw [Multiset.map_cons, Multiset.nodup_cons] at hpbas
      have hiff : x ∈ (c.curSnap.bucketOf (env.hashKey r.key), e) ::ₘ c'.curSnap.items
          ↔ x ∈ env.item r p ::ₘ c.curSnap.items := by rw [hitems]
      simp only [Multiset.mem_cons] at hiff
      constructor
      · intro hx
        obtain hx' | hx' := hiff.mp (.inr hx)
        · left
          apply hx'
        · right
          use hx'
          rintro e' r' ⟨⟩ hp
          apply hpbas.1 (Multiset.mem_map.mpr ⟨x, hx, hp⟩)
      · intro hx
        obtain rfl | ⟨hx, hne⟩ := hx
        · obtain heq | hx := hiff.mpr (.inl rfl)
          · have hp : p = e.pba := congrArg (·.2.pba) heq
            exact absurd hp.symm (hc.pba_ne h hentry.mem)
          · apply hx
        · obtain rfl | hx' := hiff.mpr (.inr hx)
          · exact absurd rfl (hne e r₀ rfl)
          · apply hx'

end

end UDepot
