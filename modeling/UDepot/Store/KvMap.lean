import UDepot.Store.Opened

/-!
# The map a store holds

What the directory and the records mean together: a map from keys to values with their versions
(`Core.kvMap`).  A key's version is the timestamp of its record's segment with its grain there, so
a record that is about to be committed gets a version its key never had.  A commit changes the map
at its key alone; a move by the collector changes a version; every other step leaves the map as it
is.
-/

namespace UDepot

/-- The entry of a key and its record: the entry with the key's bucket and tag whose record holds
the key. -/
def Core.find (env : StoreEnv) (c : Core) (key : Bytes) : Option (EntryInfo × Rec) :=
  ((c.curSnap.tableForHash (env.hashKey key)).entries (env.hashKey key) true).findSome? fun e =>
    ((c.recs e.val.pba).filter (·.key = key)).map fun r => (e.val, r)

/-- The map: a key's value, and its version. -/
def Core.kvMap (env : StoreEnv) (c : Core) (key : Bytes) : Option (Bytes × Nat) :=
  (c.find env key).bind fun (e, r) =>
    r.value.map fun value => (value, versionOf env.geo c.segTimestamps e.pba)

/-! ### Versions -/

/-- A version is that of one grain of one life of a segment. -/
theorem versionOf_inj
    {geo : Geometry} {f g : Nat → Nat} {p q : Nat} (h : versionOf geo f p = versionOf geo g q) :
  f (geo.segOf p) = g (geo.segOf q) ∧ p % geo.segSize = q % geo.segSize
  := by
  have hpos : 0 < geo.segSize := Nat.zero_lt_of_lt geo.segMdGrains_lt
  have hlt : ∀ n, n % geo.segSize < 2 ^ (geo.segSize.log2 + 1) :=
    fun n => Nat.lt_trans (Nat.mod_lt n hpos) Nat.lt_log2_self
  rw [versionOf, versionOf, ← Nat.shiftLeft_add_eq_or_of_lt (hlt p),
    ← Nat.shiftLeft_add_eq_or_of_lt (hlt q), Nat.shiftLeft_eq, Nat.shiftLeft_eq] at h
  have hdiv := congrArg (· / 2 ^ (geo.segSize.log2 + 1)) h
  have hmod := congrArg (· % 2 ^ (geo.segSize.log2 + 1)) h
  simp only [Nat.add_comm _ (_ % geo.segSize), Nat.add_mul_div_right _ _ (Nat.two_pow_pos _),
    Nat.add_mul_mod_self_right, Nat.div_eq_of_lt (hlt p), Nat.div_eq_of_lt (hlt q),
    Nat.mod_eq_of_lt (hlt p), Nat.mod_eq_of_lt (hlt q), Nat.zero_add] at hdiv hmod
  exact ⟨hdiv, hmod⟩

/-! ### Reading the map off the entries -/

section

variable {env : StoreEnv} {c c' : Core} {key : Bytes}

theorem Core.Absent.of_find (h : c.Inv env) (hf : c.find env key = none) : c.Absent key := by
  intro x hx r hr hkey
  obtain ⟨hbucket, htag, -⟩ := h.item_eq hx hr
  have hwf := h.dir.wf
  rw [hkey] at hbucket htag
  have hmem : (c.curSnap.bucketOf (env.hashKey key), x.2) ∈ c.curSnap.items := by
    rw [← hbucket]
    apply hx
  rw [hwf.mem_items_iff htag, ← hwf.hashToBucket] at hmem
  obtain ⟨e, he, heq⟩ := (hwf.tableForHash _).mem_entries_val.mpr
    ⟨hmem, htag.trans (hwf.tagOf _).symm⟩
  rw [Core.find, List.findSome?_eq_none_iff] at hf
  have hnone := hf e he
  rw [heq, hr] at hnone
  simp [Option.filter, hkey] at hnone

theorem Core.EntryOf.of_find
    (h : c.Inv env) {e : EntryInfo} {r : Rec} (hf : c.find env key = some (e, r)) :
  c.EntryOf env key e r
  := by
  obtain ⟨e', he, hsome⟩ := List.exists_of_findSome?_eq_some hf
  obtain ⟨r', hr', heq⟩ := Option.map_eq_some_iff.mp hsome
  cases heq
  obtain ⟨hr, hkey⟩ := Option.filter_eq_some_iff.mp hr'
  have hwf := h.dir.wf
  obtain ⟨hmem, htag⟩ := (hwf.tableForHash _).mem_entries_val.mp ⟨e', he, rfl⟩
  rw [hwf.hashToBucket] at hmem
  rw [hwf.tagOf] at htag
  exact ⟨(hwf.mem_items_iff htag).mpr hmem, hr, by simpa using hkey⟩

/-- A key has one entry at most. -/
theorem Core.EntryOf.unique
    (h : c.Inv env) {e e' : EntryInfo} {r r' : Rec} (he : c.EntryOf env key e r)
    (he' : c.EntryOf env key e' r') :
  e = e' ∧ r = r'
  := by
  have heq := h.dir.keys he.mem he'.mem he.record he'.record (he.key_eq.trans he'.key_eq.symm)
  cases heq
  exact ⟨rfl, Option.some.inj (he.record.symm.trans he'.record)⟩

theorem Core.EntryOf.find
    (h : c.Inv env) {e : EntryInfo} {r : Rec} (he : c.EntryOf env key e r) :
  c.find env key = some (e, r)
  := by
  cases hf : c.find env key with
  | none => exact absurd he.key_eq (Core.Absent.of_find h hf _ he.mem r he.record)
  | some er =>
      obtain ⟨rfl, rfl⟩ := he.unique h (.of_find h hf)
      rfl

/-- The record a key's entry points at. -/
theorem Core.EntryOf.current
    (h : c.Inv env) {e : EntryInfo} {r : Rec} (he : c.EntryOf env key e r) :
  Current env.geo c.toSegTable c.recs c.ranges c.committed e.pba r
    ∧ (c.phase (env.geo.segOf e.pba)).inUse = true ∧ e = (env.item r e.pba).2
  := by
  obtain ⟨r', hr'⟩ := h.dir.pointed he.mem
  cases he.record.symm.trans hr'.current.record
  exact ⟨hr'.current, hr'.inUse, congrArg Prod.snd hr'.item⟩

/-- The map at a key with an entry: the version is that of its record. -/
theorem Core.EntryOf.kvMap
    (h : c.Inv env) {e : EntryInfo} {r : Rec} (he : c.EntryOf env key e r) :
  c.kvMap env key = r.value.map fun value => (value, versionOf env.geo (fun _ => r.timestamp) e.pba)
  := by
  rw [Core.kvMap, he.find h, Option.bind_some]
  have hts := (he.current h).1.timestamp
  simp only [versionOf, hts]

theorem Core.Absent.kvMap (h : c.Inv env) (ha : c.Absent key) : c.kvMap env key = none := by
  cases hf : c.find env key with
  | none => rw [Core.kvMap, hf, Option.bind_none]
  | some er =>
      have he := Core.EntryOf.of_find h hf
      exact absurd he.key_eq (ha _ he.mem _ he.record)

/-- A key has an entry or is absent. -/
theorem Core.Inv.entryOf_or_absent (h : c.Inv env) (key : Bytes) :
    (∃ e r, c.EntryOf env key e r) ∨ c.Absent key := by
  cases hf : c.find env key with
  | none =>
      right
      apply Core.Absent.of_find h hf
  | some er =>
      left
      exact ⟨er.1, er.2, .of_find h hf⟩

/-- The map is the same where the entries and their records are. -/
theorem Core.kvMap_congr
    (h : c.Inv env) (h' : c'.Inv env)
    (hentry : ∀ {e r}, c.EntryOf env key e r → c'.EntryOf env key e r)
    (habsent : c.Absent key → c'.Absent key) :
  c'.kvMap env key = c.kvMap env key
  := by
  obtain ⟨e, r, he⟩ | ha := h.entryOf_or_absent key
  · rw [(hentry he).kvMap h', he.kvMap h]
  · rw [(habsent ha).kvMap h', ha.kvMap h]

end

/-! ### What steps do to the map -/

section

variable {env : StoreEnv} {c c' : Core} (h : c.Inv env)

include h

/-- A record an entry points at is there after a step. -/
theorem Frame.record
    {lock : Option Nat} {b : Option Actor} (hf : Frame env c c' lock b) {x : Nat × EntryInfo}
    (hx : x ∈ c.curSnap.items) {r : Rec} (hr : c.recs x.2.pba = some r) :
  c'.recs x.2.pba = some r
  := by
  obtain ⟨r', hr'⟩ := h.dir.pointed hx
  cases hr.symm.trans hr'.current.record
  apply (hf.current hr'.inUse hr'.current).record

omit h in
/-- The bucket of a hash is the same in every state. -/
theorem Core.Inv.bucketOf (h : c.Inv env) (h' : c'.Inv env) (hash : Nat) :
    c'.curSnap.bucketOf hash = c.curSnap.bucketOf hash := by
  rw [DirSnapshot.bucketOf, DirSnapshot.bucketOf, h.dir.bits, h'.dir.bits]

/-- An entry that stays is the entry of its key after a step. -/
theorem Core.EntryOf.of_frame
    {key : Bytes} {e : EntryInfo} {r : Rec} (he : c.EntryOf env key e r) {lock : Option Nat}
    {b : Option Actor} (hf : Frame env c c' lock b)
    (hmem : (c.curSnap.bucketOf (env.hashKey key), e) ∈ c'.curSnap.items) :
  c'.EntryOf env key e r
  := by
  refine ⟨?_, hf.record h he.mem he.record, he.key_eq⟩
  rw [h.bucketOf hf.inv]
  apply hmem

theorem Quiet.kvMap
    {lock : Option Nat} {b : Option Actor} (hf : Frame env c c' lock b) (hq : Quiet c c')
    (key : Bytes) :
  c'.kvMap env key = c.kvMap env key
  := by
  apply Core.kvMap_congr h hf.inv
  · intro e r he
    apply he.of_frame h hf
    rw [hq.items]
    apply he.mem
  · intro ha x hx r hr
    rw [hq.items] at hx
    obtain ⟨r', hr'⟩ := h.dir.pointed hx
    cases hr.symm.trans (hf.record h hx hr'.current.record)
    apply ha x hx r hr'.current.record

section

variable {a : Actor} {p : Nat} {r : Rec} {old : Option (EntryInfo × Rec)} {lock : Option Nat}
    {b : Option Actor} (hc : Commits env a c c' p r old) (hf : Frame env c c' lock b)

include hc hf

/-- After a commit the key's entry is for the record committed. -/
theorem Commits.entryOf : c'.EntryOf env r.key (env.item r p).2 r := by
  refine ⟨?_, ?_, rfl⟩
  · apply (hc.mem_items h).mpr
    left
    rw [DirSnapshot.bucketOf, hf.inv.dir.bits]
    rfl
  · rw [hc.recs]
    apply hc.record

/-- A commit changes the map at its key. -/
theorem Commits.kvMap_self :
    c'.kvMap env r.key
      = r.value.map fun value => (value, versionOf env.geo (fun _ => r.timestamp) p) :=
  (hc.entryOf h hf).kvMap hf.inv

/-- A commit leaves the map at other keys. -/
theorem Commits.kvMap_ne {key : Bytes} (hne : key ≠ r.key) :
    c'.kvMap env key = c.kvMap env key := by
  apply Core.kvMap_congr h hf.inv
  · intro e r' he
    apply he.of_frame h hf
    apply (hc.mem_items h).mpr
    right
    use he.mem
    rintro e₀ r₀ hold hp
    obtain ⟨hentry, -⟩ := hc.replaced hold
    have hrec := hentry.record
    rw [← hp] at hrec
    cases he.record.symm.trans hrec
    exact hne (he.key_eq.symm.trans hentry.key_eq)
  · intro ha x hx r' hr'
    rw [hc.recs] at hr'
    obtain rfl | ⟨hx, -⟩ := (hc.mem_items h).mp hx
    · cases hr'.symm.trans hc.record
      exact hne.symm
    · apply ha x hx r' hr'

/-- A commit on the map. -/
theorem Commits.kvMap_update :
    c'.kvMap env = Function.update (c.kvMap env) r.key
      (r.value.map fun value => (value, versionOf env.geo (fun _ => r.timestamp) p)) := by
  funext key
  by_cases hkey : key = r.key
  · rw [hkey, hc.kvMap_self h hf, Function.update_self]
  · rw [hc.kvMap_ne h hf hkey, Function.update_of_ne hkey]

omit hf in
/-- The version of a record that is about to be committed was never that of a committed record. -/
theorem Commits.version_fresh
    {y : Commit} (hy : y ∈ c.committed) :
  versionOf env.geo (fun _ => y.timestamp) y.pba ≠ versionOf env.geo (fun _ => r.timestamp) p
  := by
  intro heq
  obtain ⟨hts, hmod⟩ := versionOf_inj heq
  have hts : y.timestamp = r.timestamp := hts
  have hranged := h.ranges.ranged hc.owned
  have hpos := ((h.segs.phase _).ranged hranged hc.mdOk).2.2
  have hown := (h.segs.timestamp _ hpos).owner
  have hown' := (h.commits.counted hy).owner
  rw [hc.timestamp] at hown
  rw [hts, hown] at hown'
  have hpba : y.pba = p := by
    rw [← Nat.div_add_mod y.pba env.geo.segSize, ← Nat.div_add_mod p env.geo.segSize, hmod,
      show p / env.geo.segSize = y.pba / env.geo.segSize from hown']
  obtain ⟨rg, hrg, hne⟩ := h.commits.range hy (by rw [hpba]; apply hranged)
    (by rw [hpba]; apply hc.mdOk) (by rw [hpba, hts]; apply hc.timestamp)
  have ho := hc.owned
  rw [hpba] at hrg
  rw [Owned, hrg] at ho
  cases ho
  apply hne a rfl

end

/-- A key whose tombstone is dropped has no entry. -/
theorem Drops.absent {p : GcPass} {r : Rec} (hd : Drops env c c' p r) : c'.Absent r.key := by
  have hpbas := h.dir.pbas
  rw [hd.items, Multiset.map_cons, Multiset.nodup_cons] at hpbas
  intro x hx r' hr' hkey
  rw [hd.recs] at hr'
  have heq := h.dir.keys (hd.mem_before hx) hd.mem_items hr' hd.record hkey
  apply hpbas.1
  apply Multiset.mem_map.mpr ⟨x, hx, by rw [heq]⟩

/-- Dropping a tombstone leaves the map. -/
theorem Drops.kvMap
    {p : GcPass} {r : Rec} {lock : Option Nat} {b : Option Actor} (hd : Drops env c c' p r)
    (hf : Frame env c c' lock b) (key : Bytes) :
  c'.kvMap env key = c.kvMap env key
  := by
  by_cases hkey : key = r.key
  · have hentry : c.EntryOf env key (env.item r p.grain).2 r := by
      refine ⟨?_, hd.record, hkey.symm⟩
      rw [hkey, DirSnapshot.bucketOf, h.dir.bits]
      apply hd.mem_items
    rw [hentry.kvMap h, hd.tombstone, Option.map_none]
    apply Core.Absent.kvMap hf.inv
    rw [hkey]
    exact hd.absent h
  · apply Core.kvMap_congr h hf.inv
    · intro e r' he
      apply he.of_frame h hf
      have hmem := he.mem
      rw [hd.items] at hmem
      obtain heq | hmem := Multiset.mem_cons.mp hmem
      · have hrec := he.record
        rw [show e.pba = p.grain from congrArg (·.2.pba) heq] at hrec
        cases hrec.symm.trans hd.record
        exact absurd he.key_eq.symm hkey
      · apply hmem
    · intro ha x hx r' hr'
      rw [hd.recs] at hr'
      apply ha x (hd.mem_before hx) r' hr'

end

end UDepot
