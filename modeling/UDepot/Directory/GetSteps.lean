import UDepot.Directory.Gets
import UDepot.Directory.Changes
import Mathlib.Tactic.IntervalCases

/-!
# A get finds a key that is there

The entry of a key is followed while a get is in progress.  In one snapshot it is never moved down,
so whoever goes through the bucket upward comes upon it.  A get that goes on in another snapshot
than the one it began in has to start at or below the entry there.

* Base: what holds whatever the get does.  Entries point at records of their size, and no call is
  inserting an entry of the key if the key has one (`GetState.Base`).
* Entry: a step that publishes nothing leaves the entry of a live key where it is or moves it up
  (`GetState.Base.entry_back`).
* Phase: a get has not passed the entry of the key (`GetState.PhaseOk`).
-/

namespace UDepot.Directory

open Hopscotch Transition

/-- Every entry of a snapshot points at a record of its size. -/
def SnapFits (env : StoreEnv) (recs : Nat → Option Rec) (snap : DirSnapshot) : Prop :=
  ∀ j < snap.size, ∀ idx e, (snap.tables j).slots idx = some e →
    Fits env recs e.val.kvSize e.val.pba

theorem Fits.congr
    {env : StoreEnv} {recs recs' : Nat → Option Rec} {kvSize pba : Nat}
    (h : Fits env recs kvSize pba) (heq : recs' pba = recs pba) :
  Fits env recs' kvSize pba
  := by
  obtain ⟨r, hr, hsize, hshape⟩ := h
  exact ⟨r, by rw [heq, hr], hsize, hshape⟩

theorem isKey_congr
    {recs recs' : Nat → Option Rec} {key : Bytes} {pba : Nat} (heq : recs' pba = recs pba) :
  isKey recs' key pba = isKey recs key pba
  := by
  rw [isKey, isKey, heq]

theorem isKey_eq_true {recs : Nat → Option Rec} {key : Bytes} {pba : Nat} :
    isKey recs key pba = true ↔ ∃ r, recs pba = some r ∧ r.key = key := by
  simp [isKey, Option.any_eq_true]

/-- Snapshots with the same items show the same addresses. -/
theorem SnapFits.of_items
    {env : StoreEnv} {recs : Nat → Option Rec} {snap new : DirSnapshot} (h : SnapFits env recs snap)
    (hwf : snap.Wf) (hnew : new.Wf) (hitems : new.items = snap.items) :
  SnapFits env recs new
  := by
  intro j hj idx e hslot
  have habove := (hnew.table hj).above hslot
  have hin : (idx - e.offset, e.val) ∈ (new.tables j).items := by
    refine (Hopscotch.Wf.mem_contents_iff (hnew.table hj)).mpr
      ⟨e.offset, (hnew.table hj).reach hslot, (hnew.table hj).home hslot, ?_⟩
    rw [Nat.sub_add_cancel habove]
    exact hslot
  have hin' : (idx - e.offset, e.val) ∈ snap.items :=
    hitems ▸ DirSnapshot.mem_items.mpr ⟨j, hj, hin⟩
  obtain ⟨j', hj', hin'⟩ := DirSnapshot.mem_items.mp hin'
  obtain ⟨d, -, -, hslot'⟩ := (Hopscotch.Wf.mem_contents_iff (hwf.table hj')).mp hin'
  exact h j' hj' _ ⟨d, e.val⟩ hslot'

/-- An update keeps the key of an entry. -/
theorem Replaces.keeps
    {env : StoreEnv} {recs : Nat → Option Rec} {key : Bytes} {c : HashTable.Call}
    (h : Replaces env recs c) :
  c.Keeps fun pba => isKey recs key pba = true
  := by
  cases c with
  | insert _ _ _ | remove _ _ => exact trivial
  | update hash oldPba newKvSize newPba =>
      intro hkey
      obtain ⟨r, hr, hrkey⟩ := isKey_eq_true.mp hkey
      have hmap := h.2
      rw [hr, Option.map_some] at hmap
      obtain ⟨r₀, hr₀, hkeys⟩ := Option.map_eq_some_iff.mp hmap
      exact isKey_eq_true.mpr ⟨r₀, hr₀, hkeys.trans hrkey⟩

namespace GetState

section

variable (env : StoreEnv) (key : Bytes) (s : GetState)

/-- An entry of the key in the current snapshot, live or deleted, that is not about to be
cleared. -/
def Entry (e : HashEntry) : Prop :=
  (s.table env key s.dir.cur).KeyEntry
    (s.dir.writersOn s.dir.cur (s.dir.curSnap.tableIndex (env.hashKey key))) (env.hashKey key)
    (fun pba => isKey s.recs key pba = true) e

/-- What holds whatever the get does. -/
structure Base (bits : Nat) (m : Multiset (Nat × EntryInfo)) : Prop where
  dir : Inv bits m s.dir
  fits : SnapFits env s.recs s.dir.curSnap
  inserting : ∀ {i p gen ok st ws hash kvSize pba}, s.dir.parties i = some p →
    p.stage = .writing gen ok (st :: ws) → p.call = .insert hash kvSize pba →
    Fits env s.recs kvSize pba ∧ (isKey s.recs key pba = true →
      hash = env.hashKey key ∧ ∀ e, ¬ s.Entry env key e)
  unique : ∀ {e e'}, s.Entry env key e → s.Entry env key e' → e.offset = e'.offset

end

variable {env : StoreEnv} {kind : ReadKind} {key : Bytes} {s s' : GetState} {bits : Nat}
  {m : Multiset (Nat × EntryInfo)} {e : HashEntry}

/-! ### The entry of the key -/

theorem Base.held
    (h : s.Base env key bits m) :
  HashTable.Held (s.table env key s.dir.cur)
    (s.dir.stripes s.dir.cur (s.dir.curSnap.tableIndex (env.hashKey key)))
    (s.dir.writersOn s.dir.cur (s.dir.curSnap.tableIndex (env.hashKey key)))
  := h.dir.held_table (Nat.le_refl _) _

theorem Base.tableIndex_lt
    (h : s.Base env key bits m) (hash : Nat) :
  s.dir.curSnap.tableIndex hash < s.dir.curSnap.size
  := DirSnapshot.tableIndex_lt (h.dir.wf (Nat.le_refl _)).bits _

theorem Base.shows
    (h : s.Base env key bits m) {hash i : Nat} {incl : Bool}
    (he : (s.dir.curSnap.tableForHash hash).matchAt hash i incl = some e) :
  Shows s.dir.curSnap e.val.pba
  := ⟨_, h.tableIndex_lt _, _, e, (HashTable.matchAt_eq_some.mp he).1, rfl⟩

/-- Where a lookup sees a live entry of the key there is one that is not about to be cleared, at
least as far up. -/
theorem Base.entry_of_liveAt
    (h : s.Base env key bits m) {d : Nat} (hlive : s.liveAt env key d = true) :
  ∃ e, s.Entry env key e ∧ d ≤ e.offset ∧ e.val.deleted = false
  := by
  obtain ⟨e₀, he₀, hkey⟩ := (Option.any_eq_true ..).mp hlive
  obtain ⟨hslot, hoffset, htag, hdel⟩ := HashTable.matchAt_eq_some.mp he₀
  have hfound : (s.table env key s.dir.cur).matchAt (env.hashKey key) e₀.offset true = some e₀ :=
    HashTable.matchAt_eq_some.mpr ⟨hoffset.symm ▸ hslot, rfl, htag, fun _ => rfl⟩
  obtain ⟨e, he, hle, hval⟩ :=
    h.held.exists_keyEntry (P := fun pba => isKey s.recs key pba = true) hfound hkey
  refine ⟨e, he, hoffset ▸ hle, ?_⟩
  rw [hval]
  exact Bool.eq_false_iff.mpr fun hd => Bool.false_ne_true (hdel hd)

/-- A lookup finds a live entry. -/
theorem Entry.found
    (he : s.Entry env key e) (hdel : e.val.deleted = false) :
  (s.table env key s.dir.cur).matchAt (env.hashKey key) e.offset false = some e
  := by
  obtain ⟨hslot, hoffset, htag, -⟩ := HashTable.matchAt_eq_some.mp (HashTable.KeyEntry.found he)
  refine HashTable.matchAt_eq_some.mpr ⟨hslot, hoffset, htag, ?_⟩
  rw [hdel]
  rintro ⟨⟩

/-- A call that is inserting for the key has the hash of the key, and the key has no entry. -/
theorem Base.adds
    (h : s.Base env key bits m) {i : Nat} {p : Party} {gen : Nat} {ok : Bool} {st : Store EntryInfo}
    {ws : List (Store EntryInfo)} (hi : s.dir.parties i = some p)
    (hstage : p.stage = .writing gen ok (st :: ws))
    (hadds : p.call.Adds fun pba => isKey s.recs key pba = true) :
  p.call.hash = env.hashKey key ∧ ∀ e, ¬ s.Entry env key e
  := by
  cases hcall : p.call with
  | insert hash kvSize pba =>
      rw [hcall] at hadds
      exact (h.inserting hi hstage hcall).2 hadds
  | update _ _ _ _ | remove _ _ =>
      rw [hcall] at hadds
      cases hadds

/-! ### A write to the device -/

theorem Base.write
    (h : s.Base env key bits m) {pba : Nat} (hfree : ¬ s.InUse pba) (r : Option Rec) :
  Base env key { s with recs := Function.update s.recs pba r } bits m
    ∧ ∀ e, Entry env key { s with recs := Function.update s.recs pba r } e → s.Entry env key e
  := by
  have hrec : ∀ {x}, s.InUse x → Function.update s.recs pba r x = s.recs x := by
    rintro x hx
    refine Function.update_of_ne ?_ _ _
    rintro rfl
    exact hfree hx
  have hentry : ∀ e, Entry env key { s with recs := Function.update s.recs pba r } e →
      s.Entry env key e := by
    intro e he
    refine HashTable.KeyEntry.congr he rfl rfl id ?_
    intro hkey
    rw [← isKey_congr (hrec (.inl (h.shows (HashTable.KeyEntry.found he))))]
    exact hkey
  refine ⟨⟨h.dir, ?_, ?_, fun he he' => h.unique (hentry _ he) (hentry _ he')⟩, hentry⟩
  · intro j hj idx e hslot
    exact (h.fits j hj idx e hslot).congr (hrec (.inl ⟨j, hj, idx, e, hslot, rfl⟩))
  · intro i p gen ok st ws hash kvSize x hi hstage hcall
    have hx := hrec (.inr (.inl ⟨i, p, hash, kvSize, hi, hcall⟩))
    obtain ⟨hfits, hnone⟩ := h.inserting hi hstage hcall
    refine ⟨hfits.congr hx, ?_⟩
    intro hkey
    rw [isKey_congr hx] at hkey
    obtain ⟨hhash, hnone⟩ := hnone hkey
    exact ⟨hhash, fun e he => hnone e (hentry e he)⟩

/-! ### A step of the directory -/

section Unwritten

variable {a : Act} {dir : State} (hu : Unwritten a s.dir dir)

include hu

theorem table_unwritten (gen : Nat) :
    table env key { s with dir } gen = s.table env key gen := by
  rw [table, table, hu.snaps gen]
  rfl

theorem curSnap_unwritten : dir.curSnap = { s.dir.curSnap with frozen := dir.curSnap.frozen } := by
  rw [State.curSnap, hu.cur]
  exact hu.snaps _

theorem entry_unwritten : Entry env key { s with dir } e ↔ s.Entry env key e := by
  have htable : table env key { s with dir } dir.cur = s.table env key s.dir.cur := by
    rw [table_unwritten hu, hu.cur]
  have hindex : dir.curSnap.tableIndex (env.hashKey key)
      = s.dir.curSnap.tableIndex (env.hashKey key) := by
    rw [curSnap_unwritten hu]
    rfl
  have hlower := hu.lower s.dir.cur (s.dir.curSnap.tableIndex (env.hashKey key))
  rw [Entry, Entry, htable, hindex, hu.cur]
  constructor
  · intro he
    exact HashTable.KeyEntry.congr he rfl rfl (hlower _).mpr id
  · intro he
    exact HashTable.KeyEntry.congr he rfl rfl (hlower _).mp id

theorem Base.unwritten
    (h : s.Base env key bits m) (hsound : s.Sound env (.dir a)) (hdir : Inv bits m dir) :
  Base env key { s with dir } bits m
  where
  dir := hdir
  fits := by
    intro j hj idx e hslot
    rw [curSnap_unwritten hu] at hj hslot
    exact h.fits j hj idx e hslot
  inserting := by
    intro i p gen ok st ws hash kvSize pba hi hstage hcall
    obtain hi | ⟨rfl, q, hq, hlocked, hqcall, hfrozen⟩ := hu.writing hi hstage
    · obtain ⟨hfits, hnone⟩ := h.inserting hi hstage hcall
      refine ⟨hfits, fun hkey => ⟨(hnone hkey).1, ?_⟩⟩
      intro e he
      exact (hnone hkey).2 e ((entry_unwritten hu).mp he)
    · -- the call begins: it sees that the key has no entry, in a snapshot that is the current one
      have hgen := (h.dir.parties hq).gen (g := gen) (by rw [hlocked]; rfl)
      have hcur : gen = s.dir.cur := by
        have hiff := h.dir.grow.frozen hgen
        rw [hfrozen] at hiff
        have hnot : ¬ gen < s.dir.cur := fun hlt => Bool.false_ne_true (hiff.mpr (.inl hlt))
        omega
      subst hcur
      have hinserts := hsound q _ hq hlocked hfrozen
      rw [hqcall, hcall] at hinserts
      obtain ⟨hfits, hkeyless⟩ := hinserts
      refine ⟨hfits, ?_⟩
      intro hkey
      obtain ⟨r, hr, rfl⟩ := isKey_eq_true.mp hkey
      obtain ⟨rfl, hkeyless⟩ := hkeyless r hr
      refine ⟨rfl, ?_⟩
      intro e he
      rw [entry_unwritten hu] at he
      have hno := hkeyless e (HashTable.KeyEntry.found he)
      exact Bool.false_ne_true (hno.symm.trans (HashTable.KeyEntry.address he))
  unique := fun he he' => h.unique ((entry_unwritten hu).mp he) ((entry_unwritten hu).mp he')

end Unwritten

section Stored

variable {i : Nat} {p : Party} {ok : Bool} {st : Store EntryInfo} {ws : List (Store EntryInfo)}

/-- After a store the key's entry is in the place that follows from where it was, the same or
further up, or it has been inserted. -/
theorem Base.entry_stored
    (h : s.Base env key bits m) (hi : s.dir.parties i = some p)
    (hstage : p.stage = .writing s.dir.cur ok (st :: ws)) (hreplaces : Replaces env s.recs p.call) :
  ∃ (f : Nat → Nat) (d : Nat), (∀ n, n ≤ f n) ∧
    ∀ e, Entry env key { s with dir := s.dir.stored i p s.dir.cur ok st ws } e →
      (∃ e₀, s.Entry env key e₀ ∧ e.offset = f e₀.offset)
        ∨ (p.call.Adds fun pba => isKey s.recs key pba = true) ∧ ws = [] ∧ e.offset = d
  := by
  have hw : p.writer = some (s.dir.cur, ⟨p.call, ok, st :: ws⟩) := by rw [Party.writer, hstage]
  have hindex : ((s.dir.stored i p s.dir.cur ok st ws).snaps s.dir.cur).tableIndex (env.hashKey key)
      = s.dir.curSnap.tableIndex (env.hashKey key) := by
    obtain ⟨tables, hsnap⟩ := stored_snaps s.dir i p ok st ws s.dir.cur
    rw [hsnap]
    rfl
  have hentry : ∀ {e}, Entry env key { s with dir := s.dir.stored i p s.dir.cur ok st ws } e →
      HashTable.KeyEntry (((s.dir.stored i p s.dir.cur ok st ws).snaps s.dir.cur).tables
          (s.dir.curSnap.tableIndex (env.hashKey key)))
        ((s.dir.stored i p s.dir.cur ok st ws).writersOn s.dir.cur
          (s.dir.curSnap.tableIndex (env.hashKey key)))
        (env.hashKey key) (fun pba => isKey s.recs key pba = true) e := by
    intro e he
    rw [← hindex]
    exact he
  by_cases hsame : s.dir.curSnap.tableIndex (env.hashKey key) = s.dir.curSnap.tableIndex p.call.hash
  · obtain ⟨htable, hwriters⟩ := stored_here s.dir i p ok st ws
    rw [hsame, htable, hwriters] at hentry
    have hheld := h.dir.held_table (Nat.le_refl _) p.call.hash
    have hi' := writersOn_party hi hw
    have hup : ∀ place, place ≤ HashTable.Writer.follow ⟨p.call, ok, st :: ws⟩ place := by
      intro place
      obtain hplace | ⟨-, hplace⟩ := (hheld.left hi').follow_owned place
      · exact hplace.ge
      · exact hplace.le
    let b := (s.dir.curSnap.tableForHash p.call.hash).hashToBucket (env.hashKey key)
    refine ⟨fun n => HashTable.Writer.follow ⟨p.call, ok, st :: ws⟩ (b + n) - b, st.idx - b, ?_, ?_⟩
    · intro n
      exact Nat.le_sub_of_add_le' (hup (b + n))
    · intro e he
      obtain ⟨e₀, he₀, hfollow⟩ | ⟨hadds, hlast, hidx⟩ :=
        hheld.keyEntry_store hi' hreplaces.keeps (hentry he)
      · left
        refine ⟨e₀, ?_, Nat.eq_sub_of_add_eq' hfollow⟩
        change HashTable.KeyEntry
          (s.dir.curSnap.tables (s.dir.curSnap.tableIndex (env.hashKey key)))
          _ _ _ _
        rw [hsame]
        exact he₀
      · exact .inr ⟨hadds, hlast, Nat.eq_sub_of_add_eq' hidx⟩
  · obtain ⟨htable, hwriters⟩ := stored_other hi hw (g := s.dir.cur)
      (j := s.dir.curSnap.tableIndex (env.hashKey key)) fun hboth => hsame hboth.2
    rw [htable, hwriters] at hentry
    exact ⟨id, 0, Nat.le_refl, fun e he => .inl ⟨e, hentry he, rfl⟩⟩

/-- What a store leaves in a table: entries from before, or the one of the call. -/
theorem Base.slot_stored
    (h : s.Base env key bits m) (hi : s.dir.parties i = some p)
    (hstage : p.stage = .writing s.dir.cur ok (st :: ws)) {j idx : Nat}
    (hslot : ((s.dir.stored i p s.dir.cur ok st ws).curSnap.tables j).slots idx = some e) :
  (∃ idx₀ e₀, (s.dir.curSnap.tables j).slots idx₀ = some e₀ ∧ e₀.val = e.val)
    ∨ p.call.stored = some (e.val.kvSize, e.val.pba)
  := by
  have hw : p.writer = some (s.dir.cur, ⟨p.call, ok, st :: ws⟩) := by rw [Party.writer, hstage]
  change (((s.dir.stored i p s.dir.cur ok st ws).snaps s.dir.cur).tables j).slots idx = some e
    at hslot
  by_cases hsame : j = s.dir.curSnap.tableIndex p.call.hash
  · subst hsame
    rw [(stored_here s.dir i p ok st ws).1] at hslot
    have hheld := h.dir.held_table (Nat.le_refl _) p.call.hash
    exact (hheld.left (writersOn_party hi hw)).val_store hslot
  · obtain ⟨htable, -⟩ := stored_other hi hw (g := s.dir.cur) (j := j) fun hboth => hsame hboth.2
    rw [htable] at hslot
    exact .inl ⟨idx, e, hslot, rfl⟩

/-- Two calls do not insert for one key at a time: they hold the same stripes. -/
theorem Base.one_inserting
    (h : s.Base env key bits m) {i' : Nat} {p' : Party} {ok' : Bool} {st' : Store EntryInfo}
    {ws' : List (Store EntryInfo)} (hi : s.dir.parties i = some p)
    (hstage : p.stage = .writing s.dir.cur ok (st :: ws)) (hi' : s.dir.parties i' = some p')
    (hstage' : p'.stage = .writing s.dir.cur ok' (st' :: ws'))
    (hhash : p.call.hash = p'.call.hash) :
  i = i'
  := by
  have hw : p.writer = some (s.dir.cur, ⟨p.call, ok, st :: ws⟩) := by rw [Party.writer, hstage]
  have hw' : p'.writer = some (s.dir.cur, ⟨p'.call, ok', st' :: ws'⟩) := by
    rw [Party.writer, hstage']
  have hheld := h.dir.held_table (Nat.le_refl _) p.call.hash
  have hl := hheld.locks (writersOn_party hi hw)
  rw [hhash] at hheld hl
  have hl' := hheld.locks (writersOn_party hi' hw')
  simp only at hl hl'
  exact Option.some.inj (hl.1.symm.trans hl'.1)

theorem Base.stored
    (h : s.Base env key bits m) (hi : s.dir.parties i = some p)
    (hstage : p.stage = .writing s.dir.cur ok (st :: ws)) (hreplaces : Replaces env s.recs p.call)
    (hdir : Inv bits m (s.dir.stored i p s.dir.cur ok st ws)) :
  Base env key { s with dir := s.dir.stored i p s.dir.cur ok st ws } bits m
  where
  dir := hdir
  fits := by
    intro j hj idx e hslot
    obtain ⟨tables, hsnap⟩ := stored_snaps s.dir i p ok st ws s.dir.cur
    have hj' : j < s.dir.curSnap.size := by
      change j < ((s.dir.stored i p s.dir.cur ok st ws).snaps s.dir.cur).size at hj
      rw [hsnap] at hj
      exact hj
    obtain ⟨idx₀, e₀, hslot₀, hval⟩ | hstored := h.slot_stored hi hstage hslot
    · rw [← hval]
      exact h.fits j hj' idx₀ e₀ hslot₀
    · cases hcall : p.call with
      | insert hash kvSize pba =>
          rw [hcall] at hstored
          cases hstored
          exact (h.inserting hi hstage hcall).1
      | update hash oldPba newKvSize newPba =>
          rw [hcall] at hstored hreplaces
          cases hstored
          exact hreplaces.1
      | remove hash pba =>
          rw [hcall] at hstored
          cases hstored
  inserting := by
    obtain ⟨f, d, -, hback⟩ := h.entry_stored hi hstage hreplaces
    intro i' p' gen ok' st' ws' hash kvSize pba hi' hstage' hcall
    obtain ⟨rfl, ⟨⟩⟩ | ⟨hne, hi'⟩ := update_eq_some hi'
    · -- the same call goes on: the entry is not there yet
      cases hstage'
      obtain ⟨hfits, hnone⟩ := h.inserting hi hstage hcall
      refine ⟨hfits, fun hkey => ⟨(hnone hkey).1, ?_⟩⟩
      intro e he
      obtain ⟨e₀, he₀, -⟩ | ⟨-, ⟨⟩, -⟩ := hback e he
      exact (hnone hkey).2 e₀ he₀
    · obtain ⟨hfits, hnone⟩ := h.inserting hi' hstage' hcall
      obtain ⟨rfl, -⟩ := (h.dir.parties hi').writing hstage'
      refine ⟨hfits, fun hkey => ⟨(hnone hkey).1, ?_⟩⟩
      intro e he
      obtain ⟨e₀, he₀, -⟩ | ⟨hadds, -⟩ := hback e he
      · exact (hnone hkey).2 e₀ he₀
      · obtain ⟨hhash, -⟩ := h.adds hi hstage hadds
        refine hne (h.one_inserting hi' hstage' hi hstage ?_)
        rw [hhash, hcall]
        exact (hnone hkey).1
  unique := by
    obtain ⟨f, d, -, hback⟩ := h.entry_stored hi hstage hreplaces
    intro e e' he he'
    obtain ⟨e₀, he₀, hplace⟩ | ⟨hadds, -, hplace⟩ := hback e he
    · obtain ⟨e₀', he₀', hplace'⟩ | ⟨hadds, -⟩ := hback e' he'
      · rw [hplace, hplace', h.unique he₀ he₀']
      · exact absurd he₀ ((h.adds hi hstage hadds).2 e₀)
    · obtain ⟨e₀', he₀', -⟩ | ⟨-, -, hplace'⟩ := hback e' he'
      · exact absurd he₀' ((h.adds hi hstage hadds).2 e₀')
      · rw [hplace, hplace']

end Stored

section Published

/-- In a snapshot with the items of another a key has as many entries as in that. -/
theorem unique_of_items
    {snap new : DirSnapshot} {P : Nat → Prop} {hash : Nat} (hwf : snap.Wf) (hnew : new.Wf)
    (hbits : new.bucketBits = snap.bucketBits) (hitems : new.items = snap.items)
    (hone : ∀ e e' : HashEntry, (snap.tableForHash hash).matchAt hash e.offset true = some e →
      P e.val.pba → (snap.tableForHash hash).matchAt hash e'.offset true = some e' →
      P e'.val.pba → e.offset = e'.offset)
    {e e' : HashEntry} (he : (new.tableForHash hash).matchAt hash e.offset true = some e)
    (hp : P e.val.pba) (he' : (new.tableForHash hash).matchAt hash e'.offset true = some e')
    (hp' : P e'.val.pba) :
  e.offset = e'.offset
  := by
  have hbucket : (new.tableForHash hash).hashToBucket hash
      = (snap.tableForHash hash).hashToBucket hash := by
    rw [hnew.hashToBucket, hwf.hashToBucket, DirSnapshot.bucketOf, DirSnapshot.bucketOf, hbits]
  have htag : new.tagOf hash = snap.tagOf hash := by
    rw [DirSnapshot.tagOf, DirSnapshot.tagOf, hbits]
  obtain ⟨hmem, hetag⟩ := (hnew.tableForHash hash).mem_items_of_matchAt he
  obtain ⟨hmem', hetag'⟩ := (hnew.tableForHash hash).mem_items_of_matchAt he'
  rw [hnew.tagOf] at hetag hetag'
  rw [← hnew.mem_items_iff hetag, hitems, hwf.mem_items_iff (hetag.trans htag), hbucket] at hmem
  rw [← hnew.mem_items_iff hetag', hitems, hwf.mem_items_iff (hetag'.trans htag), hbucket] at hmem'
  rw [htag, ← hwf.tagOf] at hetag hetag'
  by_contra hne
  by_cases hval : e.val = e'.val
  · -- one value in two slots, so there twice before as well
    have hslot := (HashTable.matchAt_eq_some.mp he).1
    have hslot' := (HashTable.matchAt_eq_some.mp he').1
    have htwice := ((hnew.tableForHash hash).one_lt_count (x := e.val)).mpr
      ⟨e.offset, e'.offset, hne, hslot, by rw [hval]; exact hslot'⟩
    rw [← hnew.count_items (by rw [htag, ← hwf.tagOf]; exact hetag), hitems,
      hwf.count_items (by rw [← hwf.tagOf]; exact hetag), hbucket] at htwice
    obtain ⟨d, d', hdd, hs, hs'⟩ := ((hwf.tableForHash hash).one_lt_count).mp htwice
    exact hdd (hone ⟨d, e.val⟩ ⟨d', e.val⟩
      (HashTable.matchAt_eq_some.mpr ⟨hs, rfl, hetag, fun _ => rfl⟩) hp
      (HashTable.matchAt_eq_some.mpr ⟨hs', rfl, hetag, fun _ => rfl⟩) hp)
  · obtain ⟨d, -, hd⟩ := (hwf.tableForHash hash).exists_matchAt hmem hetag
    obtain ⟨d', -, hd'⟩ := (hwf.tableForHash hash).exists_matchAt hmem' hetag'
    have hdd := hone ⟨d, e.val⟩ ⟨d', e'.val⟩ hd hp hd' hp'
    simp only at hdd
    subst hdd
    rw [hd] at hd'
    exact hval (congrArg (fun c => c.val) (Option.some.inj hd'))

variable {k : Nat} {new : DirSnapshot}

theorem Base.quiet
    (h : s.Base env key bits m) (hgrow : s.dir.grow = .copying s.dir.curSnap.size k new) {i : Nat}
    {p : Party} {gen : Nat} {ok : Bool} {ws : List (Store EntryInfo)}
    (hi : s.dir.parties i = some p) :
  p.stage ≠ .writing gen ok ws
  := by
  intro hstage
  have hawaits := ((h.dir.parties hi).writing hstage).2
  rw [hgrow] at hawaits
  exact hawaits

/-- While nobody writes every entry of the key counts. -/
theorem Base.entry_of_quiet
    (h : s.Base env key bits m) (hgrow : s.dir.grow = .copying s.dir.curSnap.size k new)
    (hfound : (s.table env key s.dir.cur).matchAt (env.hashKey key) e.offset true = some e)
    (hkey : isKey s.recs key e.val.pba = true) :
  s.Entry env key e
  := by
  refine ⟨hfound, hkey, ?_⟩
  rintro ⟨i, w, hw, hclears⟩
  cases hi : s.dir.parties i with
  | none =>
      rw [State.writersOn, hi] at hw
      cases hw
  | some p =>
      rw [State.writersOn, hi] at hw
      have hnone := Party.clears_of_stage (fun _ _ _ _ => h.quiet hgrow hi) (onTable_eq_some hw).1
      rw [hnone] at hclears
      cases hclears

theorem Base.published
    (h : s.Base env key bits m) (hgrow : s.dir.grow = .copying s.dir.curSnap.size k new) :
  Base env key { s with dir := s.dir.publish new } bits m
  := by
  obtain ⟨hdir, hitems, -⟩ := h.dir.publish hgrow
  have hlast : (s.dir.publish new).curSnap = new := Function.update_self ..
  have hwf : s.dir.curSnap.Wf := h.dir.wf (Nat.le_refl _)
  have hnew : new.Wf := hlast ▸ hdir.wf (Nat.le_refl _)
  have hbits : new.bucketBits = s.dir.curSnap.bucketBits := by
    rw [State.curSnap, h.dir.bucketBits (Nat.le_refl _), ← hdir.bucketBits (Nat.le_refl _)]
    exact congrArg DirSnapshot.bucketBits hlast.symm
  refine ⟨hdir, ?_, ?_, ?_⟩
  · change SnapFits env s.recs (s.dir.publish new).curSnap
    rw [hlast]
    exact h.fits.of_items hwf hnew hitems
  · intro i p gen ok st ws hash kvSize pba hi hstage
    exact absurd hstage (h.quiet hgrow hi)
  · intro e e' he he'
    have hfound := HashTable.KeyEntry.found he
    have hfound' := HashTable.KeyEntry.found he'
    change ((s.dir.publish new).curSnap.tableForHash _).matchAt _ _ _ = _ at hfound hfound'
    rw [hlast] at hfound hfound'
    exact unique_of_items (P := fun pba => isKey s.recs key pba = true) hwf hnew hbits hitems
      (fun _ _ he hp he' hp' =>
        h.unique (h.entry_of_quiet hgrow he hp) (h.entry_of_quiet hgrow he' hp'))
      hfound (HashTable.KeyEntry.address he) hfound' (HashTable.KeyEntry.address he')

end Published

section Dir

variable {a : Act} {dir : State}

theorem Base.stepDir
    (h : s.Base env key bits m) (hsound : s.Sound env (.dir a)) (hs : s.dir.step a = some dir) :
  Base env key { s with dir } bits m
  := by
  cases h.dir.changes hs with
  | unwritten hu => exact h.unwritten hu hsound (h.dir.step hs)
  | store ha hi hstage hs' =>
      subst ha hs'
      exact h.stored hi hstage (hsound _ hi) (h.dir.step hs)
  | publish hgrow hs' =>
      subst hs'
      exact h.published hgrow

/-- A step that publishes nothing leaves the entry of a live key where it is or moves it up. -/
theorem Base.entry_back
    (h : s.Base env key bits m) (hlive : s.Live env key) (hsound : s.Sound env (.dir a))
    (hs : s.dir.step a = some dir) (hcur : dir.cur = s.dir.cur)
    (he : Entry env key { s with dir } e) :
  ∃ e₀, s.Entry env key e₀ ∧ e₀.offset ≤ e.offset
  := by
  cases h.dir.changes hs with
  | unwritten hu => exact ⟨e, (entry_unwritten hu).mp he, Nat.le_refl _⟩
  | store ha hi hstage hs' =>
      subst ha hs'
      obtain ⟨f, d, hup, hback⟩ := h.entry_stored hi hstage (hsound _ hi)
      obtain ⟨e₀, he₀, hplace⟩ | ⟨hadds, -⟩ := hback e he
      · exact ⟨e₀, he₀, hplace ▸ hup _⟩
      · obtain ⟨d, -, hd⟩ := hlive
        obtain ⟨e₁, he₁, -⟩ := h.entry_of_liveAt hd
        exact absurd he₁ ((h.adds hi hstage hadds).2 e₁)
  | publish hgrow hs' =>
      subst hs'
      exact absurd hcur (Nat.succ_ne_self _)

theorem Base.cur_step
    (h : s.Base env key bits m) (hs : s.dir.step a = some dir) :
  s.dir.cur ≤ dir.cur
  := by
  cases h.dir.changes hs with
  | unwritten hu => exact hu.cur.ge
  | store _ _ _ hs' =>
      subst hs'
      exact Nat.le_refl _
  | publish _ hs' =>
      subst hs'
      exact Nat.le_succ _

/-- The tables of a snapshot that is not the current one do not change. -/
theorem Base.snaps_step
    (h : s.Base env key bits m) (hs : s.dir.step a = some dir) {gen : Nat} (hgen : gen ≤ s.dir.cur)
    (hne : gen ≠ dir.cur) :
  dir.snaps gen = { s.dir.snaps gen with frozen := (dir.snaps gen).frozen }
  := by
  cases h.dir.changes hs with
  | unwritten hu => exact hu.snaps gen
  | @store i p ok st ws _ _ _ hs' =>
      subst hs'
      have hsnap : (s.dir.stored i p s.dir.cur ok st ws).snaps gen = s.dir.snaps gen :=
        Function.update_of_ne hne _ _
      rw [hsnap]
  | publish _ hs' =>
      subst hs'
      rw [publish_snaps _ _ hgen]

end Dir

/-! ### Where the get is -/

section

variable (env : StoreEnv) (key : Bytes) (s : GetState)

/-- A get that goes on at a distance in a snapshot has not passed the entry of the key, if the
snapshot is the current one. -/
def Ahead (gen n : Nat) : Prop :=
  gen ≤ s.dir.cur ∧ (gen = s.dir.cur → ∀ e, s.Entry env key e → n ≤ e.offset)

/-- What holds in a lookup.  `Seen` is the records the entry of the key has pointed at since the get
began.  In a snapshot that is no longer the current one the entry is as it was when that was. -/
structure Scanning (Seen : Rec → Prop) (gen next : Nat) : Prop where
  ahead : s.Ahead env key gen next
  fits : SnapFits env s.recs (s.dir.snaps gen)
  there : gen ≠ s.dir.cur →
    ∃ e, (s.table env key gen).matchAt (env.hashKey key) e.offset false = some e
      ∧ isKey s.recs key e.val.pba = true ∧ next ≤ e.offset
  seen : gen ≠ s.dir.cur →
    ∀ e r, (s.table env key gen).matchAt (env.hashKey key) e.offset false = some e →
      s.recs e.val.pba = some r → r.key = key → Seen r

/-- What holds while a record is read. -/
structure Reading (Seen : Rec → Prop) (gen : Nat) (e : HashEntry) : Prop where
  fits : Fits env s.recs e.val.kvSize e.val.pba
  live : e.val.deleted = false
  seen : ∀ r, s.recs e.val.pba = some r → r.key = key → Seen r
  ahead : isKey s.recs key e.val.pba = false → s.Ahead env key gen (e.offset + 1)

/-- What holds wherever the get is. -/
def PhaseOk (Seen : Rec → Prop) : GetPhase → Prop
  | .idle => True
  | .lookup start last => last.elim (start = 0) fun gen => s.Ahead env key gen start
  | .scan gen next => s.Scanning env key Seen gen next
  | .read gen e => s.Reading env key Seen gen e
  | .done rc found => (∃ r, rc = .ok ∧ found = some r ∧ r.key = key ∧ Seen r)
      ∨ (rc = .eio ∨ rc = .enomem) ∧ found = none

end

section

variable {Seen Seen' : Rec → Prop} {a : Act} {dir : State} {gen next : Nat}

theorem Ahead.stepDir
    (ha : s.Ahead env key gen next) (h : s.Base env key bits m) (hlive : s.Live env key)
    (hsound : s.Sound env (.dir a)) (hs : s.dir.step a = some dir) :
  Ahead env key { s with dir } gen next
  := by
  have hle := h.cur_step hs
  refine ⟨ha.1.trans hle, ?_⟩
  intro hgen e he
  have hcur : dir.cur = s.dir.cur := Nat.le_antisymm (hgen ▸ ha.1) hle
  obtain ⟨e₀, he₀, hup⟩ := h.entry_back hlive hsound hs hcur he
  exact (ha.2 (hgen.trans hcur) e₀ he₀).trans hup

theorem Scanning.stepDir
    (hp : s.Scanning env key Seen gen next) (h : s.Base env key bits m) (hlive : s.Live env key)
    (hsound : s.Sound env (.dir a)) (hs : s.dir.step a = some dir) (hseen : ∀ r, Seen r → Seen' r)
    (hpoints : ∀ r, s.Points env key r → Seen' r) :
  Scanning env key { s with dir } Seen' gen next
  := by
  have htable : gen ≠ dir.cur → table env key { s with dir } gen = s.table env key gen := by
    intro hne
    rw [table, table, h.snaps_step hs hp.ahead.1 hne]
    rfl
  refine ⟨hp.ahead.stepDir h hlive hsound hs, ?_, ?_, ?_⟩
  · by_cases hgen : gen = dir.cur
    · subst hgen
      exact (h.stepDir hsound hs).fits
    · change SnapFits env s.recs (dir.snaps gen)
      rw [h.snaps_step hs hp.ahead.1 hgen]
      exact hp.fits
  · intro hne
    rw [htable hne]
    by_cases hgen : gen = s.dir.cur
    · -- the snapshot has just been replaced: the entry is the one that was live
      obtain ⟨d, -, hd⟩ := hlive
      obtain ⟨e, he, -, hdel⟩ := h.entry_of_liveAt hd
      rw [hgen]
      exact ⟨e, he.found hdel, HashTable.KeyEntry.address he, hp.ahead.2 hgen e he⟩
    · exact hp.there hgen
  · intro hne e r
    rw [htable hne]
    by_cases hgen : gen = s.dir.cur
    · rw [hgen]
      exact fun hfound hr hkey => hpoints r ⟨e, hfound, hr, hkey⟩
    · exact fun hfound hr hkey => hseen r (hp.seen hgen e r hfound hr hkey)

theorem Reading.stepDir
    (hp : s.Reading env key Seen gen e) (h : s.Base env key bits m) (hlive : s.Live env key)
    (hsound : s.Sound env (.dir a)) (hs : s.dir.step a = some dir)
    (hseen : ∀ r, Seen r → Seen' r) :
  Reading env key { s with dir } Seen' gen e
  := ⟨hp.fits, hp.live, fun r hr hkey => hseen r (hp.seen r hr hkey),
    fun hkey => (hp.ahead hkey).stepDir h hlive hsound hs⟩

theorem PhaseOk.stepDir
    {phase : GetPhase} (hp : s.PhaseOk env key Seen phase) (h : s.Base env key bits m)
    (hlive : phase.active = true → s.Live env key) (hsound : s.Sound env (.dir a))
    (hs : s.dir.step a = some dir) (hseen : ∀ r, Seen r → Seen' r)
    (hpoints : phase.active = true → ∀ r, s.Points env key r → Seen' r) :
  PhaseOk env key { s with dir } Seen' phase
  := by
  cases phase with
  | idle => exact trivial
  | lookup start last =>
      cases last with
      | none => exact hp
      | some gen => exact Ahead.stepDir hp h (hlive rfl) hsound hs
  | scan gen next => exact Scanning.stepDir hp h (hlive rfl) hsound hs hseen (hpoints rfl)
  | read gen e => exact Reading.stepDir hp h (hlive rfl) hsound hs hseen
  | done rc found =>
      obtain ⟨r, hrc, hfound, hkey, hr⟩ | hfailed := hp
      · exact .inl ⟨r, hrc, hfound, hkey, hseen r hr⟩
      · exact .inr hfailed

theorem PhaseOk.write
    (hp : s.PhaseOk env key Seen s.phase) (h : s.Base env key bits m) {pba : Nat}
    (hfree : ¬ s.InUse pba) (r : Option Rec) (hseen : ∀ r, Seen r → Seen' r) :
  PhaseOk env key { s with recs := Function.update s.recs pba r } Seen' s.phase
  := by
  have hrec : ∀ {x}, s.InUse x → Function.update s.recs pba r x = s.recs x := by
    rintro x hx
    refine Function.update_of_ne ?_ _ _
    rintro rfl
    exact hfree hx
  have hahead : ∀ {gen n}, s.Ahead env key gen n →
      Ahead env key { s with recs := Function.update s.recs pba r } gen n :=
    fun ha => ⟨ha.1, fun hgen e he => ha.2 hgen e ((h.write hfree r).2 e he)⟩
  cases hphase : s.phase with
  | idle => exact trivial
  | lookup start last =>
      rw [hphase] at hp
      cases last with
      | none => exact hp
      | some gen => exact hahead hp
  | scan gen next =>
      rw [hphase] at hp
      have hp : s.Scanning env key Seen gen next := hp
      have hwf := h.dir.wf hp.ahead.1
      have hshown : ∀ {x}, Shows (s.dir.snaps gen) x →
          Function.update s.recs pba r x = s.recs x := by
        intro x hx
        apply hrec
        rw [InUse, hphase]
        exact .inr (.inr hx)
      have hfound : ∀ {e : HashEntry},
          (s.table env key gen).matchAt (env.hashKey key) e.offset false = some e →
          Function.update s.recs pba r e.val.pba = s.recs e.val.pba := by
        intro e he
        exact hshown ⟨_, DirSnapshot.tableIndex_lt hwf.bits _, _, e,
          (HashTable.matchAt_eq_some.mp he).1, rfl⟩
      refine ⟨hahead hp.ahead, ?_, ?_, ?_⟩
      · intro j hj idx e hslot
        exact (hp.fits j hj idx e hslot).congr (hshown ⟨j, hj, idx, e, hslot, rfl⟩)
      · intro hne
        obtain ⟨e, he, hkey, hle⟩ := hp.there hne
        exact ⟨e, he, (isKey_congr (hfound he)).trans hkey, hle⟩
      · intro hne e r' he hr hkey
        exact hseen r' (hp.seen hne e r' he ((hfound he).symm.trans hr) hkey)
  | read gen e =>
      rw [hphase] at hp
      have hp : s.Reading env key Seen gen e := hp
      have heq : Function.update s.recs pba r e.val.pba = s.recs e.val.pba := by
        apply hrec
        rw [InUse, hphase]
        exact .inr (.inr rfl)
      refine ⟨hp.fits.congr heq, hp.live, ?_, ?_⟩
      · intro r' hr hkey
        exact hseen r' (hp.seen r' (heq.symm.trans hr) hkey)
      · intro hkey
        rw [isKey_congr heq] at hkey
        exact hahead (hp.ahead hkey)
  | done rc found =>
      rw [hphase] at hp
      obtain ⟨r, hrc, hfound, hkey, hr⟩ | hfailed := hp
      · exact .inl ⟨r, hrc, hfound, hkey, hseen r hr⟩
      · exact .inr hfailed

/-! ### Steps of the get -/

/-- A record that fits a live entry is accepted if it is the key's. -/
theorem accepts_of_fits
    (kind : ReadKind) (key : Bytes) {recs : Nat → Option Rec} {e : EntryInfo} {r : Rec}
    (h : Fits env recs e.kvSize e.pba) (hlive : e.deleted = false) (hr : recs e.pba = some r) :
  kind.accepts env key e r = (r.key == key)
  := by
  obtain ⟨r', hr', hsize, hshape⟩ := h
  obtain rfl := Option.some.inj (hr.symm.trans hr')
  obtain ⟨v, hv⟩ : ∃ v, r.value = some v := by
    cases hvalue : r.value with
    | some v => exact ⟨v, rfl⟩
    | none =>
        rw [Rec.kvSize, hvalue] at hsize
        rw [EntryInfo.deleted, hsize] at hlive
        cases hlive
  have hgrains : e.kvSize = env.geo.kvTotalGrains r.key.length v.length := by
    rw [hsize, Rec.kvSize, hshape.grains, hv]
    rfl
  have hfit := env.geo.kvTotalBytes_le r.key.length v.length
  rw [← hgrains] at hfit
  unfold ReadKind.accepts
  cases hkey : r.key == key with
  | false => rfl
  | true =>
      rw [eq_of_beq hkey] at hfit
      cases kind with
      | get => simpa [hv] using hfit
      | existsKey =>
          have hle : kvTotalBytes key.length 0 ≤ kvTotalBytes key.length v.length := by
            rw [kvTotalBytes, kvTotalBytes]
            omega
          simpa using hle.trans hfit

theorem load_ok
    {start : Nat} {last : Option Nat} (h : s.Base env key bits m)
    (hphase : s.phase = .lookup start last) (hp : s.PhaseOk env key Seen (.lookup start last))
    (hresumes : s.Resumes env key .load) :
  s.Scanning env key Seen s.dir.cur start
  := by
  refine ⟨⟨Nat.le_refl _, ?_⟩, h.fits, fun hne => absurd rfl hne, fun hne => absurd rfl hne⟩
  intro _ e he
  cases last with
  | none =>
      obtain rfl : start = 0 := hp
      exact Nat.zero_le _
  | some gen =>
      by_cases hgen : gen = s.dir.cur
      · exact hp.2 hgen e he
      · obtain ⟨d, -, hle, hd⟩ := hresumes start gen hphase hgen
        obtain ⟨e', he', hle', -⟩ := h.entry_of_liveAt hd
        rw [h.unique he he']
        exact hle.trans hle'

/-- The key's entry is in the snapshot of a lookup, at a distance the lookup has not come to. -/
theorem Scanning.exists_ahead
    (hp : s.Scanning env key Seen gen next) (h : s.Base env key bits m) (hlive : s.Live env key) :
  ∃ e, (s.table env key gen).matchAt (env.hashKey key) e.offset false = some e
    ∧ isKey s.recs key e.val.pba = true ∧ next ≤ e.offset
  := by
  by_cases hgen : gen = s.dir.cur
  · obtain ⟨d, -, hd⟩ := hlive
    obtain ⟨e, he, -, hdel⟩ := h.entry_of_liveAt hd
    refine ⟨e, ?_, HashTable.KeyEntry.address he, hp.ahead.2 hgen e he⟩
    rw [hgen]
    exact he.found hdel
  · exact hp.there hgen

/-- A slot that is not that of the key's entry is passed. -/
theorem Ahead.pass
    (ha : s.Ahead env key gen next)
    (hne : gen = s.dir.cur → ∀ e, s.Entry env key e → e.offset ≠ next) :
  s.Ahead env key gen (next + 1)
  := ⟨ha.1, fun hgen e he => Nat.lt_of_le_of_ne (ha.2 hgen e he) (hne hgen e he).symm⟩

/-- The key's entry is not in a slot with no live match: it is live. -/
theorem Scanning.pass
    (hp : s.Scanning env key Seen gen next) (h : s.Base env key bits m) (hlive : s.Live env key)
    (hseen : ∀ r, Seen r → Seen' r)
    (hnone : (s.table env key gen).matchAt (env.hashKey key) next false = none) :
  s.Scanning env key Seen' gen (next + 1)
  := by
  refine ⟨hp.ahead.pass ?_, hp.fits, ?_, ?_⟩
  · rintro rfl e he rfl
    obtain ⟨d, -, hd⟩ := hlive
    obtain ⟨e', he', -, hdel⟩ := h.entry_of_liveAt hd
    rw [h.unique he he', he'.found hdel] at hnone
    cases hnone
  · intro hgen
    obtain ⟨e, he, hkey, hle⟩ := hp.there hgen
    refine ⟨e, he, hkey, Nat.lt_of_le_of_ne hle ?_⟩
    rintro rfl
    rw [he] at hnone
    cases hnone
  · intro hgen e r he hr hkey
    exact hseen r (hp.seen hgen e r he hr hkey)

/-- A live match: its record is one of the key's, or the key's entry is further up. -/
theorem Scanning.found
    (hp : s.Scanning env key Seen gen next) (h : s.Base env key bits m)
    (hseen : ∀ r, Seen r → Seen' r) (hpoints : ∀ r, s.Points env key r → Seen' r)
    (hfound : (s.table env key gen).matchAt (env.hashKey key) next false = some e) :
  s.Reading env key Seen' gen e
  := by
  obtain ⟨hslot, rfl, htag, hdel⟩ := HashTable.matchAt_eq_some.mp hfound
  have hindex := DirSnapshot.tableIndex_lt (h.dir.wf hp.ahead.1).bits (env.hashKey key)
  refine ⟨hp.fits _ hindex _ e hslot, ?_, ?_, ?_⟩
  · exact Bool.eq_false_iff.mpr fun hd => Bool.false_ne_true (hdel hd)
  · intro r hr hkey
    by_cases hgen : gen = s.dir.cur
    · subst hgen
      exact hpoints r ⟨e, hfound, hr, hkey⟩
    · exact hseen r (hp.seen hgen e r hfound hr hkey)
  · intro hkey
    apply hp.ahead.pass
    rintro rfl e' he' hplace
    have hslot' := (HashTable.matchAt_eq_some.mp (HashTable.KeyEntry.found he')).1
    rw [hplace, hslot] at hslot'
    cases hslot'
    exact Bool.false_ne_true (hkey.symm.trans (HashTable.KeyEntry.address he'))

/-- A lookup does not come to the end of the bucket. -/
theorem Scanning.lt_hopRange
    (hp : s.Scanning env key Seen gen next) (h : s.Base env key bits m) (hlive : s.Live env key) :
  next < kHopRange
  := by
  obtain ⟨e, he, -, hle⟩ := hp.exists_ahead h hlive
  have hwf := (h.dir.wf hp.ahead.1).tableForHash (env.hashKey key)
  exact hle.trans_lt (hwf.reach (HashTable.matchAt_eq_some.mp he).1)

/-- The record that was read: the get returns it, or it is not the key's. -/
theorem Reading.read
    (kind : ReadKind) (hp : s.Reading env key Seen gen e) :
  (∃ r, (s.recs e.val.pba).filter (kind.accepts env key e.val) = some r ∧ r.key = key ∧ Seen r)
    ∨ (s.recs e.val.pba).filter (kind.accepts env key e.val) = none
      ∧ s.Ahead env key gen (e.offset + 1)
  := by
  obtain ⟨r, hr, -⟩ := hp.fits
  have haccepts := accepts_of_fits kind key hp.fits hp.live hr
  rw [hr, Option.filter_some, haccepts]
  cases hkey : r.key == key with
  | true => exact .inl ⟨r, rfl, eq_of_beq hkey, hp.seen r hr (eq_of_beq hkey)⟩
  | false =>
      refine .inr ⟨rfl, hp.ahead ?_⟩
      rw [isKey, hr]
      exact hkey

/-- The end of the read section changes nothing else. -/
theorem Base.finish
    (h : s.Base env key bits m) (rc : Rc) (found : Option Rec) :
  Base env key (s.finish rc found) bits m
  := by
  cases hs : s.dir.step (.leaveReader s.sec) with
  | none =>
      rw [GetState.finish, hs]
      exact ⟨h.dir, h.fits, h.inserting, h.unique⟩
  | some dir =>
      rw [GetState.finish, hs]
      have h' := h.stepDir (a := .leaveReader s.sec) trivial hs
      exact ⟨h'.dir, h'.fits, h'.inserting, h'.unique⟩

end

/-! ### Runs -/

/-- What is assumed of a step: that of the store, that the key is live while the get is in progress,
and that the get does not resume above the entry of the key. -/
def Ok (env : StoreEnv) (key : Bytes) (s : GetState) (a : GetAct) : Prop :=
  s.Sound env a ∧ (s.phase.active = true → s.Live env key) ∧ s.Resumes env key a

theorem step_ok
    {Seen Seen' : Rec → Prop} {a : GetAct} (h : s.Base env key bits m)
    (hp : s.PhaseOk env key Seen s.phase) (hok : s.Ok env key a)
    (hs : s.step env kind key a = some s') (hseen : ∀ r, Seen r → Seen' r)
    (hpoints : s.phase.active = true → ∀ r, s.Points env key r → Seen' r) :
  s'.Base env key bits m ∧ s'.PhaseOk env key Seen' s'.phase
  := by
  obtain ⟨hsound, hlive, hresumes⟩ := hok
  unfold GetState.step at hs
  split at hs
  · obtain ⟨-, hs⟩ := Option.ite_none_left_eq_some.mp hs
    obtain ⟨dir, hdir, rfl⟩ := Option.map_eq_some_iff.mp hs
    exact ⟨h.stepDir hsound hdir, hp.stepDir h hlive hsound hdir hseen hpoints⟩
  · cases hs
    exact ⟨(h.write hsound _).1, hp.write h hsound _ hseen⟩
  · obtain ⟨dir, hdir, rfl⟩ := Option.map_eq_some_iff.mp hs
    have h' := h.stepDir (a := .enterReader) trivial hdir
    exact ⟨⟨h'.dir, h'.fits, h'.inserting, h'.unique⟩, rfl⟩
  · rename_i start last hphase
    rw [hphase] at hp
    cases hs
    have hscan := load_ok h hphase hp hresumes
    exact ⟨⟨h.dir, h.fits, h.inserting, h.unique⟩, hscan.ahead, hscan.fits,
      fun hne => absurd rfl hne, fun hne => absurd rfl hne⟩
  · rename_i gen next hphase
    rw [hphase] at hp hlive hpoints
    have hp : s.Scanning env key Seen gen next := hp
    rw [if_pos (hp.lt_hopRange h (hlive rfl))] at hs
    split at hs
    · rename_i e hfound
      cases hs
      have hread := hp.found h hseen (hpoints rfl) hfound
      exact ⟨⟨h.dir, h.fits, h.inserting, h.unique⟩, hread.fits, hread.live, hread.seen,
        hread.ahead⟩
    · rename_i hnone
      cases hs
      have hscan := hp.pass h (hlive rfl) hseen hnone
      exact ⟨⟨h.dir, h.fits, h.inserting, h.unique⟩, hscan.ahead, hscan.fits, hscan.there,
        hscan.seen⟩
  · rename_i gen e hphase
    rw [hphase] at hp
    have hp : s.Reading env key Seen gen e := hp
    obtain ⟨r, hr, hkey, hrseen⟩ | ⟨hnone, hahead⟩ := hp.read kind
    · rw [hr] at hs
      cases hs
      exact ⟨h.finish _ _, .inl ⟨r, rfl, rfl, hkey, hseen r hrseen⟩⟩
    · rw [hnone] at hs
      cases hs
      exact ⟨⟨h.dir, h.fits, h.inserting, h.unique⟩, hahead⟩
  · cases hs
    exact ⟨h.finish _ _, .inr ⟨.inl rfl, rfl⟩⟩
  · cases hs
    exact ⟨h.finish _ _, .inr ⟨.inr rfl, rfl⟩⟩
  · cases hs

theorem Base.init
    {snap : DirSnapshot} {recs : Nat → Option Rec} (hwf : snap.Wf) (hfits : SnapFits env recs snap)
    (hone : ∀ e e', (snap.tableForHash (env.hashKey key)).matchAt (env.hashKey key) e.offset true
        = some e → isKey recs key e.val.pba = true →
      (snap.tableForHash (env.hashKey key)).matchAt (env.hashKey key) e'.offset true = some e' →
      isKey recs key e'.val.pba = true → e.offset = e'.offset) :
  Base env key (GetState.init snap recs) snap.bucketBits snap.items
  where
  dir := .init hwf
  fits := hfits
  inserting := nofun
  unique := fun he he' => hone _ _ (HashTable.KeyEntry.found he) (HashTable.KeyEntry.address he)
    (HashTable.KeyEntry.found he') (HashTable.KeyEntry.address he')

end GetState

variable {env : StoreEnv} {kind : ReadKind} {key : Bytes} {s : GetState}

/-- A get, or `exists`, of a key that has a live entry as long as it runs finds it, among any
writers and grows: it returns a record of the key that the key's entry pointed at at some moment
since the get began, unless the read of a record fails or there is no memory for it.  The store
inserts no second entry for a key, keeps the key of an entry, and overwrites nothing in use; and the
get does not resume above the entry of the key in a snapshot that was published in between. -/
theorem get_finds_key
    {snap : DirSnapshot} {recs : Nat → Option Rec} (hwf : snap.Wf) (hfits : SnapFits env recs snap)
    (hone : ∀ e e', (snap.tableForHash (env.hashKey key)).matchAt (env.hashKey key) e.offset true
        = some e → isKey recs key e.val.pba = true →
      (snap.tableForHash (env.hashKey key)).matchAt (env.hashKey key) e'.offset true = some e' →
      isKey recs key e'.val.pba = true → e.offset = e'.offset)
    (hr : Reach (GetState.step env kind key) (GetState.Ok env key) (.init snap recs) s)
    {rc : Rc} {found : Option Rec} (hdone : s.phase = .done rc found) :
  (∃ r, rc = .ok ∧ found = some r ∧ r.key = key
    ∧ ∃ s₁, Reach (GetState.step env kind key) (GetState.Ok env key) (.init snap recs) s₁
      ∧ s₁.phase.active = true ∧ s₁.Points env key r
      ∧ Reach (GetState.step env kind key) (GetState.Ok env key) s₁ s)
  ∨ (rc = .eio ∨ rc = .enomem) ∧ found = none
  := by
  have hinv : s.Base env key snap.bucketBits snap.items ∧ s.PhaseOk env key (fun r =>
      ∃ s₁, Reach (GetState.step env kind key) (GetState.Ok env key) (.init snap recs) s₁
        ∧ s₁.phase.active = true ∧ s₁.Points env key r
        ∧ Reach (GetState.step env kind key) (GetState.Ok env key) s₁ s) s.phase := by
    clear hdone
    induction hr with
    | refl => exact ⟨.init hwf hfits hone, trivial⟩
    | @tail s s' a hreach hok hs ih =>
        refine GetState.step_ok ih.1 ih.2 hok hs ?_ ?_
        · rintro r ⟨s₁, hr₁, hactive, hpoints, hr⟩
          exact ⟨s₁, hr₁, hactive, hpoints, .tail hr hok hs⟩
        · intro hactive r hpoints
          exact ⟨s, hreach, hactive, hpoints, .tail .refl hok hs⟩
  have hp := hinv.2
  rw [hdone] at hp
  exact hp

/-! ### Three keys in a bucket -/

/-- The keys other than the first have one hash. -/
def threeKeys : StoreEnv where
  geo := .small
  hashKey := fun key => if key = [0] then 128 else 0
  bucketBits := 0

def threeRecs (pba : Nat) : Option Rec :=
  if pba < 3 then some ⟨[.ofNat pba], 1, some [], 1⟩ else none

/-- The entries of the three keys in the first slots of the one bucket. -/
def threeEntries : DirSnapshot where
  tables := fun _ => ⟨0, fun idx =>
    if idx < 3 then some ⟨idx, ⟨if idx = 0 then 128 else 0, 1, idx⟩⟩ else none⟩
  tableBits := 0
  bucketBits := 0
  generation := 0
  frozen := false

theorem threeEntries_slot
    {j idx : Nat} {e : HashEntry} (h : (threeEntries.tables j).slots idx = some e) :
  idx < 3 ∧ e = ⟨idx, ⟨if idx = 0 then 128 else 0, 1, idx⟩⟩
  := by
  obtain ⟨hlt, ⟨⟩⟩ := Option.ite_none_right_eq_some.mp h
  exact ⟨hlt, rfl⟩

theorem threeEntries_wf : threeEntries.Wf where
  bits := Nat.zero_le _
  table := by
    intro j _
    refine ⟨?_, ?_, ?_⟩
    · intro idx e h
      obtain ⟨hlt, rfl⟩ := threeEntries_slot h
      exact hlt.trans (by decide)
    · intro idx e h
      obtain ⟨-, rfl⟩ := threeEntries_slot h
      exact Nat.le_refl _
    · intro idx e h
      obtain ⟨-, rfl⟩ := threeEntries_slot h
      simp [threeEntries, HashTable.numBuckets]
  indexBits := fun _ => rfl
  tag := by
    intro j x _ hx
    obtain ⟨idx, -, hitem⟩ := mem_contents.mp hx
    obtain ⟨e, h, rfl⟩ := itemAt_eq_some.mp hitem
    obtain ⟨-, rfl⟩ := threeEntries_slot h
    simp only
    split <;> omega
  select := by
    intro j x hj hx
    obtain ⟨idx, -, hitem⟩ := mem_contents.mp hx
    obtain ⟨e, h, rfl⟩ := itemAt_eq_some.mp hitem
    obtain ⟨-, rfl⟩ := threeEntries_slot h
    obtain rfl : j = 0 := Nat.lt_one_iff.mp hj
    simp only [threeEntries, kMaxTableBits]
    split <;> omega

theorem threeEntries_fits : SnapFits threeKeys threeRecs threeEntries := by
  intro j _ idx e h
  obtain ⟨hlt, rfl⟩ := threeEntries_slot h
  refine ⟨⟨[.ofNat idx], 1, some [], 1⟩, if_pos hlt, rfl, ⟨?_, ?_, ?_, ?_⟩⟩
  · simp
  · simp [threeKeys, Geometry.small, Geometry.kvTotalGrains, kvTotalBytes, kKvHeaderBytes,
      kKvSuffixBytes]
  · simp [kKvSizeMask]
  · simp [threeKeys, Geometry.small, Geometry.segBase, Geometry.segOf, Geometry.dataGrains]
    omega

instance (env : StoreEnv) (key : Bytes) (s : GetState) : Decidable (s.Live env key) :=
  inferInstanceAs (Decidable (∃ d < kHopRange, s.liveAt env key d = true))

/-- A step that is not one of a writer. -/
def GetAct.quiet : GetAct → Bool
  | .dir (.test _) | .dir (.store _) | .write _ _ => false
  | _ => true

theorem GetAct.sound_of_quiet
    {env : StoreEnv} {s : GetState} {a : GetAct} (h : a.quiet = true) :
  s.Sound env a
  := by
  cases a with
  | dir a =>
      cases a with
      | test i | store i => cases h
      | _ => exact trivial
  | write pba r => cases h
  | _ => exact trivial

/-- No writer is in between, the key is live, and the get resumes below its entry. -/
def Undisturbed (env : StoreEnv) (key : Bytes) (s : GetState) (a : GetAct) : Prop :=
  a.quiet = true ∧ s.Live env key
  ∧ match a, s.phase with
    | .load, .lookup start (some gen) => gen = s.dir.cur
        ∨ ∃ d < kHopRange, start ≤ d ∧ s.liveAt env key d = true
    | _, _ => True

instance (env : StoreEnv) (key : Bytes) (s : GetState) (a : GetAct) :
    Decidable (Undisturbed env key s a) := by
  unfold Undisturbed
  refine @instDecidableAnd _ _ inferInstance (@instDecidableAnd _ _ inferInstance ?_)
  split <;> infer_instance

theorem Undisturbed.ok
    {env : StoreEnv} {key : Bytes} {s : GetState} {a : GetAct} (h : Undisturbed env key s a) :
  s.Ok env key a
  := by
  obtain ⟨hquiet, hlive, hresumes⟩ := h
  refine ⟨GetAct.sound_of_quiet hquiet, fun _ => hlive, ?_⟩
  cases a with
  | load =>
      intro start gen hphase hne
      rw [hphase] at hresumes
      exact hresumes.resolve_left hne
  | _ => exact trivial

theorem threeEntries_place
    {e : HashEntry} (he : (threeEntries.tableForHash (threeKeys.hashKey [2])).matchAt
      (threeKeys.hashKey [2]) e.offset true = some e)
    (hkey : isKey threeRecs [2] e.val.pba = true) :
  e.offset = 2
  := by
  obtain ⟨hlt, heq⟩ := threeEntries_slot (HashTable.matchAt_eq_some.mp he).1
  have hzero : (threeEntries.tableForHash (threeKeys.hashKey [2])).hashToBucket
      (threeKeys.hashKey [2]) = 0 := Nat.mod_one _
  rw [hzero, Nat.zero_add] at hlt heq
  rw [congrArg (fun e => e.val.pba) heq] at hkey
  interval_cases e.offset
  · cases hkey
  · cases hkey
  · rfl

/-- The get comes upon the entry of another key and goes on behind it. -/
def twoLookups : List GetAct := [.begin, .load, .scan, .scan, .read, .load, .scan, .read]

theorem twoLookups_find :
    ∃ s s₁, guarded (GetState.step threeKeys .get [2]) (Undisturbed threeKeys [2])
        (.init threeEntries threeRecs) twoLookups = some s
      ∧ s.phase = .done .ok (some ⟨[2], 1, some [], 1⟩)
      ∧ GetPhase.active s₁.phase = true
        ∧ GetState.Points threeKeys [2] s₁ ⟨[2], 1, some [], 1⟩ := by
  have hphase : (guarded (GetState.step threeKeys .get [2]) (Undisturbed threeKeys [2])
      (.init threeEntries threeRecs) twoLookups).map GetState.phase
      = some (.done .ok (some ⟨[2], 1, some [], 1⟩)) := by
    decide +kernel
  obtain ⟨s, hs, hdone⟩ := Option.map_eq_some_iff.mp hphase
  obtain ⟨r, -, hr, -, s₁, -, hactive, hpoints, -⟩ | ⟨-, hnone⟩ := get_finds_key threeEntries_wf
    threeEntries_fits (fun _ _ he hkey he' hkey' =>
      (threeEntries_place he hkey).trans (threeEntries_place he' hkey').symm)
    ((Reach.of_guarded hs).mono fun _ _ => Undisturbed.ok) hdone
  · cases hr
    exact ⟨s, s₁, hs, hdone, hactive, hpoints⟩
  · cases hnone

/-- A get that is past every entry of its bucket returns that the key is absent. -/
theorem GetState.scan_misses
    {env : StoreEnv} {kind : ReadKind} {key : Bytes} {s : GetState} {ok : GetState → GetAct → Prop}
    {gen n next : Nat} (hn : next + n = kHopRange)
    (hnone : ∀ d < kHopRange, next ≤ d →
      (s.table env key gen).matchAt (env.hashKey key) d false = none)
    (hok : ∀ phase, ok { s with phase } .scan) :
  ∃ s', Reach (step env kind key) ok { s with phase := .scan gen next } s'
    ∧ s'.phase = .done .enoent none
  := by
  -- the scan changes the phase alone
  induction n generalizing next with
  | zero =>
      refine ⟨GetState.finish { s with phase := .scan gen next } .enoent none,
        .tail .refl (hok _) ?_, rfl⟩
      simp [step, ← hn]
  | succ n ih =>
      have hlt : next < kHopRange := by omega
      have hn' : next + 1 + n = kHopRange := by omega
      obtain ⟨s', hr, hs'⟩ := ih hn' fun d hd hle => hnone d hd (Nat.le_of_succ_le hle)
      refine ⟨s', Reach.trans (.tail .refl (hok _) ?_) hr, hs'⟩
      simp only [step, hlt, if_true]
      rw [show GetState.table env key { s with phase := .scan gen next } gen
        = s.table env key gen from rfl, hnone next hlt (Nat.le_refl _)]

/-- A get that begins while a grow waits for the readers before it.  It reads the record of the
second entry, the grow copies the entries and publishes them, and the get goes on at the third
slot. -/
def grownLookups : List GetAct :=
  ([.dir .freeze, .dir .synchronize, .begin, .load, .scan, .scan, .read,
      .dir .synced] : List GetAct)
    ++ List.replicate 34 (GetAct.dir .copy) ++ ([.dir .publish, .load] : List GetAct)

/-- Where the entry of the third key is. -/
def thirdPlace (s : GetState) : Nat := if s.dir.cur = 0 then 2 else 1

/-- The first entry goes to another table and the grow puts the third into the second slot, so the
get misses a key that is there all the time. -/
theorem grow_hides_key :
    ∃ s, Reach (GetState.step threeKeys .get [2])
        (fun s a => s.Sound threeKeys a ∧ s.Live threeKeys [2]) (.init threeEntries threeRecs) s
      ∧ s.phase = .done .enoent none := by
  have hrun : ((guarded (GetState.step threeKeys .get [2])
      (fun s a => a.quiet = true ∧ s.liveAt threeKeys [2] (thirdPlace s) = true)
      (.init threeEntries threeRecs) grownLookups).map fun s =>
        decide (s.phase = .scan 1 2 ∧ s.liveAt threeKeys [2] 1 = true ∧ ∀ d < kHopRange, 2 ≤ d →
          (s.table threeKeys [2] 1).matchAt (threeKeys.hashKey [2]) d false = none))
      = some true := by
    decide +kernel
  obtain ⟨s, hs, heq⟩ := Option.map_eq_some_iff.mp hrun
  obtain ⟨hphase, hlive, hnone⟩ := of_decide_eq_true heq
  have hmiss : ∃ s', Reach (GetState.step threeKeys .get [2])
      (fun s a => s.Sound threeKeys a ∧ s.Live threeKeys [2]) { s with phase := .scan 1 2 } s'
      ∧ s'.phase = .done .enoent none :=
    GetState.scan_misses (n := 30) rfl hnone fun _ => ⟨trivial, 1, by decide, hlive⟩
  rw [← hphase] at hmiss
  obtain ⟨s', hr, hdone⟩ := hmiss
  refine ⟨s', Reach.trans ((Reach.of_guarded hs).mono ?_) hr, hdone⟩
  rintro s a ⟨hquiet, hlive⟩
  refine ⟨GetAct.sound_of_quiet hquiet, thirdPlace s, ?_, hlive⟩
  rw [thirdPlace]
  split <;> decide

end UDepot.Directory
