import UDepot.Index.Restore

/-!
# The valid grains of an index

`restore_index` goes over the slots of the tables: it counts the grains of the live entries, and
then those of the tombstones, each of which it reads.  Together these are the grains of all
entries, if every entry points into a data segment.
-/

namespace UDepot

open Memory

namespace IndexEnv

/-- The entries in words of slots. -/
def entriesOf (words : List Nat) : List EntryInfo :=
  words.filterMap fun raw => (HashEntry.ofRaw raw).map Hopscotch.Cell.val

/-- The entries of tables. -/
def entries (env : IndexEnv) (tables : List IndexTable) : List EntryInfo :=
  entriesOf (env.words tables)

/-- The grains that an entry holds: those of its record, or those of its tombstone by the header of
the tombstone. -/
def entryGrains (env : IndexEnv) (dev : Device) (e : EntryInfo) : Nat :=
  if e.deleted then env.geo.kvTotalGrains (hdrAt env.geo dev e.pba).keySize 0 else e.kvSize

/-- The grains that entries hold in a segment. -/
def grainsIn (env : IndexEnv) (dev : Device) (es : List EntryInfo) (seg : Nat) : Nat :=
  ((es.filter fun e => env.geo.segOf e.pba == seg).map (env.entryGrains dev)).sum

/-- An entry points into a data segment, at a tombstone of the segment if it is deleted. -/
structure EntryPlaced (env : IndexEnv) (segMd : Nat → Option SegMd) (dev : Device)
    (e : EntryInfo) : Prop where
  seg_lt : env.geo.segOf e.pba < env.geo.numSegments
  data : dataTs segMd (env.geo.segOf e.pba) ≠ 0
  inside : e.pba + env.entryGrains dev e
    ≤ env.geo.segBase (env.geo.segOf e.pba) + env.geo.dataGrains
  tombstone : e.deleted = true → (hdrAt env.geo dev e.pba).keySize ≠ 0
    ∧ isTombstone (hdrAt env.geo dev e.pba) = true
    ∧ (hdrAt env.geo dev e.pba).timestamp = dataTs segMd (env.geo.segOf e.pba)

variable {env : IndexEnv} {segMd : Nat → Option SegMd} {dev : Device} {heap : Nat → Buffer}
  {e : EntryInfo} {es : List EntryInfo} {tables : List IndexTable} {seg : Nat}

/-! ### Sums -/

@[simp] theorem grainsIn_nil : env.grainsIn dev [] seg = 0 := rfl

theorem grainsIn_append (es es' : List EntryInfo) (seg : Nat) :
    env.grainsIn dev (es ++ es') seg = env.grainsIn dev es seg + env.grainsIn dev es' seg := by
  rw [grainsIn, List.filter_append, List.map_append, List.sum_append]
  rfl

theorem grainsIn_singleton (e : EntryInfo) (seg : Nat) :
    env.grainsIn dev [e] seg
      = if env.geo.segOf e.pba = seg then env.entryGrains dev e else 0 := by
  by_cases hseg : env.geo.segOf e.pba = seg
  · simp [grainsIn, hseg]
  · simp [grainsIn, hseg]

/-- The deleted entries and the others are all. -/
theorem grainsIn_split (es : List EntryInfo) (seg : Nat) :
    env.grainsIn dev (es.filter fun e => !e.deleted) seg
      + env.grainsIn dev (es.filter EntryInfo.deleted) seg = env.grainsIn dev es seg := by
  have hperm := (List.filter_append_perm EntryInfo.deleted es).filter
    fun e => env.geo.segOf e.pba == seg
  rw [Nat.add_comm, ← grainsIn_append]
  exact (hperm.map (env.entryGrains dev)).sum_eq

/-- Grains may be read anew where the tombstones are. -/
theorem grainsIn_congr
    {dev' : Device} (h : ∀ e ∈ es, env.entryGrains dev' e = env.entryGrains dev e) :
  env.grainsIn dev' es seg = env.grainsIn dev es seg
  := by
  rw [grainsIn, grainsIn]
  congr 1
  apply List.map_congr_left
  intro e he
  apply h e (List.mem_of_mem_filter he)

/-- An entry that points into a data segment is counted. -/
theorem EntryPlaced.account_eq (h : env.EntryPlaced segMd dev e) (valid : Nat → Nat) :
    env.account segMd valid e.pba (env.entryGrains dev e)
      = some fun seg => valid seg + env.grainsIn dev [e] seg := by
  rw [account, if_pos ⟨h.seg_lt, h.data, h.inside⟩]
  congr 1
  funext seg
  rw [grainsIn_singleton, addValid, Function.update_apply]
  by_cases hseg : seg = env.geo.segOf e.pba
  · rw [if_pos hseg, if_pos hseg.symm, hseg]
  · rw [if_neg hseg, if_neg (Ne.symm hseg), Nat.add_zero]

/-! ### The slots -/

theorem entriesOf_append (ws ws' : List Nat) :
    entriesOf (ws ++ ws') = entriesOf ws ++ entriesOf ws' := List.filterMap_append

/-- The pass over the slots counts the live entries and puts the tombstones by. -/
theorem foldlM_accountSlot
    {ws : List Nat} (h : ∀ e ∈ entriesOf ws, env.EntryPlaced segMd dev e) :
  ws.foldlM (env.accountSlot segMd) (fun _ => 0, [])
    = some (env.grainsIn dev ((entriesOf ws).filter fun e => !e.deleted),
        ((entriesOf ws).filter EntryInfo.deleted).map EntryInfo.pba)
  := by
  induction ws using List.reverseRecOn with
  | nil => rfl
  | append_singleton ws raw ih =>
      rw [entriesOf_append] at h ⊢
      rw [List.foldlM_append, ih fun e he => h e (List.mem_append_left _ he)]
      simp only [List.foldlM_cons, List.foldlM_nil, Option.bind_eq_bind, Option.bind_some,
        List.filter_append, List.map_append]
      cases hraw : HashEntry.ofRaw raw with
      | none => simp [accountSlot, entriesOf, hraw]
      | some c =>
          have hone : entriesOf [raw] = [c.val] := by simp [entriesOf, hraw]
          have hplaced := h c.val (List.mem_append_right _ (by rw [hone]; apply List.mem_cons_self))
          rw [hone, accountSlot, hraw]
          cases hdel : c.val.deleted with
          | true =>
              have hin : ¬ (env.geo.numSegments ≤ env.geo.segOf c.val.pba
                  ∨ dataTs segMd (env.geo.segOf c.val.pba) = 0) := by
                rw [not_or, Nat.not_le]
                exact ⟨hplaced.seg_lt, hplaced.data⟩
              simp [hdel, if_neg hin]
          | false =>
              have haccount := hplaced.account_eq
                (env.grainsIn dev ((entriesOf ws).filter fun e => !e.deleted))
              have hgrains : env.entryGrains dev c.val = c.val.kvSize := by simp [entryGrains, hdel]
              rw [hgrains] at haccount
              simp only [hdel, Bool.false_eq_true, if_false, haccount, Option.map_some,
                Option.bind_some]
              congr 2
              · funext seg
                rw [grainsIn_append]
                simp [hdel]
              · simp [hdel]

/-! ### The tombstones -/

/-- The pass over the tombstones counts them, if their headers are read. -/
theorem foldlM_accountTomb
    (h : ∀ e ∈ es, env.EntryPlaced segMd dev e)
    (hread : ∀ e ∈ es, env.tombstoneGrains dev (heap e.pba) e.pba
      (dataTs segMd (env.geo.segOf e.pba)) = some (env.entryGrains dev e))
    (valid : Nat → Nat) :
  (es.map EntryInfo.pba).foldlM (env.accountTomb segMd dev heap) valid
    = some fun seg => valid seg + env.grainsIn dev es seg
  := by
  induction es using List.reverseRecOn with
  | nil => rfl
  | append_singleton es e ih =>
      have hmem : e ∈ es ++ [e] := List.mem_append_right _ List.mem_cons_self
      rw [List.map_append, List.foldlM_append, ih]
      · simp only [List.map_cons, List.map_nil, List.foldlM_cons, List.foldlM_nil,
          Option.bind_eq_bind, Option.bind_some, accountTomb, hread e hmem,
          (h e hmem).account_eq, grainsIn_append, Nat.add_assoc]
        rfl
      · intro e' he'
        apply h e' (List.mem_append_left _ he')
      · intro e' he'
        apply hread e' (List.mem_append_left _ he')

/-- A pass that succeeds succeeds at every step. -/
theorem exists_of_foldlM {α β : Type} {f : β → α → Option β} {xs : List α} {x : α} {b c : β}
    (h : xs.foldlM f b = some c) (hx : x ∈ xs) : ∃ b' c', f b' x = some c' := by
  induction xs generalizing b with
  | nil => cases hx
  | cons y xs ih =>
      rw [List.foldlM_cons] at h
      obtain ⟨b', hb', hrest⟩ := Option.bind_eq_some_iff.mp h
      rcases List.mem_cons.mp hx with rfl | hx
      · exact ⟨b, b', hb'⟩
      · apply ih hrest hx

/-! ### All entries -/

section Tables

variable (h : ∀ e ∈ env.entries tables, env.EntryPlaced segMd dev e)

include h

/-- The valid grains are those of all entries, if the headers of the tombstones are read. -/
theorem countValid_eq
    (hread : ∀ e ∈ env.entries tables, e.deleted = true →
      env.tombstoneGrains dev (heap e.pba) e.pba (dataTs segMd (env.geo.segOf e.pba))
        = some (env.entryGrains dev e)) :
  env.countValid segMd dev heap tables = some (env.grainsIn dev (env.entries tables))
  := by
  rw [countValid, foldlM_accountSlot h, Option.bind_some, foldlM_accountTomb]
  · congr 1
    funext seg
    apply grainsIn_split
  · intro e he
    apply h e (List.mem_of_mem_filter he)
  · intro e he
    apply hread e (List.mem_of_mem_filter he) (List.mem_filter.mp he).2

/-- The grains are counted only if the header of every tombstone is read. -/
theorem tombstoneGrains_of_countValid
    {valid : Nat → Nat} (hcount : env.countValid segMd dev heap tables = some valid)
    (he : e ∈ env.entries tables) (hdel : e.deleted = true) :
  ∃ grains, env.tombstoneGrains dev (heap e.pba) e.pba (dataTs segMd (env.geo.segOf e.pba))
    = some grains
  := by
  rw [countValid, foldlM_accountSlot h, Option.bind_some] at hcount
  have hmem : e.pba ∈ ((env.entries tables).filter EntryInfo.deleted).map EntryInfo.pba :=
    List.mem_map_of_mem (List.mem_filter.mpr ⟨he, hdel⟩)
  obtain ⟨b, c, hstep⟩ := exists_of_foldlM hcount hmem
  obtain ⟨grains, hgrains, -⟩ := Option.bind_eq_some_iff.mp hstep
  exact ⟨grains, hgrains⟩

end Tables

/-! ### The header of a tombstone -/

theorem readLe_load
    {m behind : Buffer} {pos n : Nat} : ∀ {k off : Nat}, off + k ≤ n →
      readLe (load m pos n behind) off k = readLe m (pos + off) k
  | 0, _, _ => rfl
  | k + 1, off, h => by
      rw [readLe, readLe, readLe_load (by omega), load, if_pos (by omega), Nat.add_assoc]

/-- A grain that holds a whole header is enough to read it. -/
theorem EntryPlaced.tombstoneGrains_eq
    (h : env.EntryPlaced segMd dev e) (hdel : e.deleted = true)
    (hgrain : kKvHeaderBytes ≤ env.geo.grainSize) (behind : Buffer) :
  env.tombstoneGrains dev behind e.pba (dataTs segMd (env.geo.segOf e.pba))
    = some (env.entryGrains dev e)
  := by
  have hhdr : readHdr (load dev (e.pba * env.geo.grainSize) env.geo.grainSize behind) 0
      = hdrAt env.geo dev e.pba := by
    rw [kKvHeaderBytes] at hgrain
    rw [hdrAt, readHdr, readHdr, readLe_load (by omega), readLe_load (by omega),
      readLe_load (by omega)]
    rfl
  obtain ⟨hkey, htomb, htime⟩ := h.tombstone hdel
  rw [tombstoneGrains, hhdr, if_neg]
  · rw [entryGrains, if_pos hdel]
  · simp [hkey, htomb, htime]

/-- With grains smaller than a header a tombstone is refused for what is behind the buffer. -/
theorem exists_tombstoneGrains_none
    (hgrain : env.geo.grainSize < kKvHeaderBytes) (dev : Device) (pba segTs : Nat) :
  ∃ behind, env.tombstoneGrains dev behind pba segTs = none
  := by
  have hnone : ∀ behind, (readHdr (load dev (pba * env.geo.grainSize) env.geo.grainSize behind)
      0).timestamp ≠ segTs → env.tombstoneGrains dev behind pba segTs = none := by
    intro behind hne
    rw [tombstoneGrains, if_pos (.inr (.inr hne))]
  by_contra hall
  rw [not_exists] at hall
  have hzero := not_not.mp (mt (hnone fun _ => 0) (hall _))
  have hone := not_not.mp (mt (hnone fun i => if i = 13 then 1 else 0) (hall _))
  rw [← hzero] at hone
  have hlast : ¬ 13 < env.geo.grainSize := by
    rw [kKvHeaderBytes] at hgrain
    omega
  simp only [readHdr, readLe, load, hlast, Nat.reduceAdd, Nat.reduceEqDiff, if_false, if_true,
    UInt8.toNat_zero, UInt8.toNat_one] at hone
  omega

end IndexEnv

end UDepot
