import UDepot.Store.KvMap
import UDepot.Store.Staged

/-!
# Records newer than their key's entry

A commit rejects a record whose segment is not newer than that of the key's entry, and the
operation writes another.  It drains the data stream before it allocates again, unless the
rejected record lies in the entry's segment.  Either way what it is handed next is newer than the
entry: after the drain no segment is staged but one taken since, and in the entry's own segment the
next range lies behind the entry's.  `Op.Fresh` follows this through the operation's phases.
-/

namespace UDepot

section

variable (env : StoreEnv) (c : Core) (key : Bytes)

/-- A record at the address would be newer than the key's entry. -/
def Core.NewerThanEntry (p : Nat) : Prop :=
  ∀ e r, c.EntryOf env key e r → newerThan env.geo c.segTimestamps p e.pba = true

/-- The segment staged for data is newer than the segment of the key's entry, or is that segment. -/
def Core.NextNewer : Prop :=
  ∀ e r, c.EntryOf env key e r → ∀ seg count, c.Stages seg count →
    seg = env.geo.segOf e.pba ∨ c.segTimestamps (env.geo.segOf e.pba) < count

/-- A segment that is being stamped for data is newer than the segment of the key's entry. -/
def Core.StampsNewer : Prop :=
  ∀ e r, c.EntryOf env key e r → ∀ seg count stage, c.phase seg = .stamping .data count stage →
    c.segTimestamps (env.geo.segOf e.pba) < count

end

/-- The record an operation has, or the one it will have next, is newer than its key's entry. -/
def Op.Fresh (env : StoreEnv) (c : Core) (o : Op) : Prop :=
  match o.phase with
  | .calls todo .again =>
      c.NextNewer env o.key ∨ Call.drain .data ∈ todo ∧ c.StampsNewer env o.key
  | .calls _ (.ret _) | .version _ _ | .done _ _ => True
  | _ => o.own.elim (c.NextNewer env o.key) (c.NewerThanEntry env o.key)

/-- A step leaves the key's entry alone. -/
structure Steady (env : StoreEnv) (c c' : Core) (key : Bytes) : Prop where
  inv : c.Inv env
  entry : ∀ {e r}, c'.EntryOf env key e r → c.EntryOf env key e r
  ages : Ages env.geo c c'

section

variable {env : StoreEnv} {c c' : Core} {key : Bytes} {lock : Option Nat} {b : Option Actor}

theorem Steady.of_quiet
    (h : c.Inv env) (hf : Frame env c c' lock b) (hq : Quiet c c') (hages : Ages env.geo c c') :
  Steady env c c' key
  := by
  refine ⟨h, ?_, hages⟩
  intro e r he
  have hmem := he.mem
  rw [h.bucketOf hf.inv, hq.items] at hmem
  obtain ⟨r', hr'⟩ := h.dir.pointed hmem
  cases he.record.symm.trans (hf.record h hmem hr'.current.record)
  exact ⟨hmem, hr'.current.record, he.key_eq⟩

variable (hs : Steady env c c' key)

include hs

theorem Steady.timestamp {e : EntryInfo} {r : Rec} (he : c'.EntryOf env key e r) :
    c'.segTimestamps (env.geo.segOf e.pba) = c.segTimestamps (env.geo.segOf e.pba) := by
  obtain ⟨rg, hrg, -⟩ := ((hs.entry he).current hs.inv).1.range
  apply hs.ages.timestamps hrg

theorem Core.NewerThanEntry.step
    {p len : Nat} {a : Actor} (h : c.NewerThanEntry env key p) (hp : Owned c a p len) :
  c'.NewerThanEntry env key p
  := by
  intro e r he
  rw [newerThan, hs.timestamp he, hs.ages.timestamps hp]
  apply h e r (hs.entry he)

theorem Core.NextNewer.step (h : c.NextNewer env key) : c'.NextNewer env key := by
  intro e r he seg count hstages
  rw [hs.timestamp he]
  rcases hs.ages.stages hstages with hold | hlt
  · apply h e r (hs.entry he) seg count hold
  · right
    exact Nat.lt_of_le_of_lt (hs.inv.timestamp_le _) hlt

theorem Core.StampsNewer.step (h : c.StampsNewer env key) : c'.StampsNewer env key := by
  intro e r he seg count stage hph
  rw [hs.timestamp he]
  rcases hs.ages.stamps hph with ⟨stage', hold⟩ | hlt
  · apply h e r (hs.entry he) seg count stage' hold
  · exact Nat.lt_of_le_of_lt (hs.inv.timestamp_le _) hlt

end

section

variable {env : StoreEnv} {c c' : Core} {i : Nat} {o : Op}

/-- A step that leaves the key's entry and the operation alone. -/
theorem Op.Fresh.step
    (h : o.Fresh env c) (hs : Steady env c c' o.key) (ho : OpInv env c i o) :
  o.Fresh env c'
  := by
  have hown : o.own.elim (c.NextNewer env o.key) (c.NewerThanEntry env o.key) →
      o.own.elim (c'.NextNewer env o.key) (c'.NewerThanEntry env o.key) := by
    cases hp : o.own with
    | none => exact fun hnext => hnext.step hs
    | some p => exact fun hnewer => Core.NewerThanEntry.step hs hnewer (ho.own hp).1
  rw [Op.Fresh] at h ⊢
  split at h <;> rename_i hph
  · exact h.imp (fun hnext => hnext.step hs) (And.imp_right fun hstamps => hstamps.step hs)
  · trivial
  · trivial
  · trivial
  · apply hown h

/-- After the drain no segment is staged but one that is being stamped. -/
theorem Core.NextNewer.of_drain {key : Bytes} (h : c.StampsNewer env key) :
    (c.drain .data).NextNewer env key := by
  intro e r he seg count hstages
  right
  have hentry : c.EntryOf env key e r := ⟨he.mem, he.record, he.key_eq⟩
  cases hstages with
  | stamping hph =>
      simp only [Core.drain, Core.closeWhere] at hph
      split at hph
      · split at hph <;> cases hph
      · apply h e r hentry seg count _ hph
  | opened hph _ =>
      simp only [Core.drain, Core.closeWhere] at hph
      split at hph
      · rename_i stream next _
        split at hph
        · cases hph
        · rename_i hne
          cases hph
          simp at hne
      · rename_i hne
        exact absurd hph (hne _ _)

/-- A range that is handed out in the segment staged is newer than the entry. -/
theorem Core.NextNewer.allocate
    {key : Bytes} {seg len pba : Nat} (h : c.NextNewer env key) (hinv : c.Inv env)
    (hs : Steady env c c' key)
    (ha : c.allocate env.geo (.op i) .data seg len = some (c', pba))
    (hok : c.segMdOk seg = true) :
  c'.NewerThanEntry env key pba
  := by
  have hspec := Core.allocate_spec ha
  have hseg := hspec.segOf_pos hinv
  intro e r he
  have hentry := hs.entry he
  have hts : c'.segTimestamps = c.segTimestamps := by rw [hspec.after]
  rw [hts, newerThan, hseg]
  obtain ⟨rg, hrg, -⟩ := (hentry.current hinv).1.range
  rcases h e r hentry seg _ (.opened hspec.opened hok) with heq | hlt
  · have hbelow := hinv.ranges.below hrg (heq ▸ hspec.opened)
    have hpos := hinv.ranges.pos hrg
    rw [if_neg (not_not.mpr heq.symm)]
    simp only [decide_eq_true_eq]
    omega
  · have hne : env.geo.segOf e.pba ≠ seg := by
      rintro rfl
      exact absurd hlt (Nat.lt_irrefl _)
    rw [if_pos hne]
    simpa using hlt

/-- What an operation is handed after its record was rejected is newer than the entry. -/
theorem OpInv.fresh_of_rewrite
    {p : Nat} {e : EntryInfo} {r : Rec} (ho : OpInv env c i o) (hinv : c.Inv env)
    (hstaging : c.Staging env.geo) (hstamps : c.StampsNewer env o.key) (hown : o.own = some p)
    (he : c.EntryOf env o.key e r) :
  (o.giveBack env (if env.geo.segOf p ≠ env.geo.segOf e.pba then [Call.drain .data] else [])
    .again).Fresh env c
  := by
  by_cases hseg : env.geo.segOf p = env.geo.segOf e.pba
  · left
    intro e' r' he' seg count hstages
    obtain ⟨rfl, -⟩ := he'.unique hinv he
    by_cases heq : seg = env.geo.segOf e'.pba
    · left
      apply heq
    · right
      rw [← hseg] at heq ⊢
      apply hstaging.newest hstages (ho.own hown).1 rfl (Ne.symm heq)
  · right
    refine ⟨?_, hstamps⟩
    rw [if_pos hseg]
    apply List.mem_append_right _ (List.mem_singleton_self _)

end

end UDepot
