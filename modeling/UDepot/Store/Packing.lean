import UDepot.Store.Restored

/-!
# Entries as words

The distance of an entry from its bucket and its size fit their fields in every run; its address
does just if the device has no record at a grain past the field of the address.  Nothing in `open`
sees to that (`entries_survive_packing_iff`).
-/

namespace UDepot

open Transition HashEntry

/-! ### A store with one record -/

/-- A device with one record. -/
def Reopening.one (env : StoreEnv) (r : Rec) (pba : Nat) : Reopening where
  segMd := Function.update (fun _ => none) (env.geo.segOf pba) (some ⟨.kv, 1⟩)
  segTimestamps := Function.update (fun _ => 0) (env.geo.segOf pba) 1
  segMdOk := Function.update (fun _ => false) (env.geo.segOf pba) true
  segLive := Function.update (fun _ => false) (env.geo.segOf pba) true
  segAllocNr := 1
  recs := Function.update (fun _ => none) pba (some { r with timestamp := 1 })
  snap := ((DirSnapshot.create env.bucketBits).insertLocked (env.hashKey r.key) r.kvSize pba).2
  valid := Function.update (fun _ => 0) (env.geo.segOf pba) r.grains
  index := fun _ => false

namespace Reopening

variable (env : StoreEnv) (r : Rec) (pba : Nat)

/-- The directory of a device with one record. -/
theorem one_snap :
    (one env r pba).snap.Wf ∧ (one env r pba).snap.bucketBits = env.bucketBits
      ∧ (one env r pba).snap.items = {env.item r pba} := by
  have hfree := HashTable.insertLocked_of_free (t := HashTable.clear env.bucketBits)
    (env.hashKey r.key) r.kvSize pba (Nat.le_refl _) (by rw [Nat.sub_self]; decide) rfl
  obtain ⟨f, -, -, hins⟩ := hfree
  have hok : (DirSnapshot.create env.bucketBits).insertLocked (env.hashKey r.key) r.kvSize pba
      = (true, (one env r pba).snap) := by
    ext1
    · change ((HashTable.clear env.bucketBits).insertLocked _ _ _).1 = true
      rw [hins]
    · rfl
  obtain ⟨hwf, -, hbits, -, -, hitems⟩ := (DirSnapshot.Wf.create env.bucketBits).insertLocked hok
  refine ⟨hwf, hbits, ?_⟩
  rw [hitems, if_pos rfl, DirSnapshot.items_create, add_zero]
  rfl

variable {env r pba}

theorem one_ok (h : r.Shape env.geo pba) (hseg : env.geo.segOf pba < env.geo.numSegments) :
    (one env r pba).Ok env := by
  obtain ⟨hwf, hbits, hitems⟩ := one_snap env r pba
  have hat : ∀ {α : Type} {d v x : α} {seg seg' : Nat},
      Function.update (fun _ => d) seg v seg' = x → x ≠ d → seg' = seg ∧ v = x := by
    intro α d v x seg seg' hx hne
    by_cases heq : seg' = seg
    · subst heq
      rw [Function.update_self] at hx
      exact ⟨rfl, hx⟩
    · rw [Function.update_of_ne heq] at hx
      exact absurd hx.symm hne
  have hmd : ∀ {seg md}, (one env r pba).segMd seg = some md →
      seg = env.geo.segOf pba ∧ some ⟨.kv, 1⟩ = some md :=
    fun hmd => hat hmd (Option.some_ne_none _)
  have hrec : ∀ {p r'}, (one env r pba).recs p = some r' →
      p = pba ∧ some { r with timestamp := 1 } = some r' :=
    fun hr => hat hr (Option.some_ne_none _)
  have hmem : ∀ {x}, x ∈ (one env r pba).snap.items → x = env.item r pba := by
    intro x hx
    rw [hitems] at hx
    exact Multiset.mem_singleton.mp hx
  refine {
    inside := ?_
    distinct := fun ha hb => (hmd ha).1.trans (hmd hb).1.symm
    kv := ?_
    arrays := ?_
    records := ?_
    disjoint := ?_
    wf := hwf
    bits := hbits
    entries := ?_
    pbas := ?_
    keys := ?_
    used := ?_ }
  · intro seg md h'
    rw [(hmd h').1]
    exact hseg
  · intro seg ts h'
    obtain ⟨rfl, ⟨⟩⟩ := hmd h'
    exact ⟨⟨Nat.one_pos, Nat.le_refl 1⟩, by simp [one], by simp [one], by simp [one]⟩
  · rintro seg (hts | hok)
    · by_cases heq : seg = env.geo.segOf pba
      · exact ⟨1, by simp [one, heq]⟩
      · simp [one, Function.update_of_ne heq] at hts
    · obtain ⟨rfl, -⟩ := hat hok (by decide)
      exact ⟨1, by simp [one]⟩
  · intro p r' hr
    obtain ⟨rfl, ⟨⟩⟩ := hrec hr
    exact ⟨⟨h.key, h.grains, h.small, h.fits⟩, by simp [one]⟩
  · intro p q r₁ r₂ hr₁ hr₂ _ _ hlt
    rw [(hrec hr₁).1, (hrec hr₂).1] at hlt
    exact absurd hlt (Nat.lt_irrefl _)
  · intro x hx
    obtain rfl := hmem hx
    refine ⟨?_, { r with timestamp := 1 }, by simp [one, StoreEnv.item], rfl⟩
    simpa [one, StoreEnv.item] using h.grains_pos.ne'
  · rw [hitems]
    simp
  · intro x y _ _ hx hy _ _ _
    rw [hmem hx, hmem hy]
  · rintro seg (hvalid | ⟨⟨⟩⟩)
    by_cases heq : seg = env.geo.segOf pba
    · rw [heq]
      exact hseg
    · exact absurd (by simp [one, Function.update_of_ne heq]) hvalid

end Reopening

/-- Every entry of every run survives its packing just if every place of the device has a grain
number that an entry can hold.  Then the entries survive over all sessions of a store, those that
recovery and restoring make among them. -/
theorem entries_survive_packing_iff (env : StoreEnv) :
    ((∀ {s₀ s : State}, Opened env s₀ → s₀.core.Inside env.geo →
      Reach (State.step env) (fun _ _ => True) s₀ s → ∀ {j idx e}, j < s.core.curSnap.size →
      (s.core.curSnap.tables j).slots idx = some e → Survives s.core e)
      ↔ env.geo.Addressable)
    ∧ (env.geo.Addressable → ∀ {s : State}, Sessions env s → ∀ {j idx e},
      j < s.core.curSnap.size → (s.core.curSnap.tables j).slots idx = some e →
        Survives s.core e) := by
  refine ⟨⟨?_, ?_⟩, ?_⟩
  · intro h pba r hshape hseg
    have hok := Reopening.one_ok hshape hseg
    have hmem : env.item r pba ∈ (Reopening.one env r pba).snap.items := by
      rw [(Reopening.one_snap env r pba).2.2]
      apply Multiset.mem_singleton_self
    obtain ⟨j, hj, hx⟩ := DirSnapshot.mem_items.mp hmem
    obtain ⟨idx, -, hidx⟩ := Hopscotch.mem_contents.mp hx
    obtain ⟨e, he, hitem⟩ := Hopscotch.itemAt_eq_some.mp hidx
    have hsurvives := h hok.opened hok.segments_inside .refl hj he
    rw [show pba = e.val.pba from congrArg (·.2.pba) hitem]
    exact hsurvives.pba
  · intro hgeo s₀ s hopen hin hreach j idx e hj he
    exact (hopen.reach hreach).survives (hopen.inside_of_reach hin hreach) hgeo hj he
  · intro hgeo s hs j idx e hj he
    obtain ⟨hinv, hin⟩ := hs.inv hgeo
    exact hinv.survives hin hgeo hj he

/-- A store on a device of 2^41 + 1 grains, the last of which is the tail. -/
def StoreEnv.far : StoreEnv where
  geo := ⟨512, 2 ^ 20, 1, 2 ^ 21, Geometry.sector_pos, by decide⟩
  hashKey := fun _ => 0
  bucketBits := 0

/-- A put in the middle of the device. -/
def farPut : List Act :=
  stampActs (2 ^ 20) .data ++ putActs 0 (2 ^ 20) [1] [2] ++ [.op 0 (.commit false)]

/-- The entry of the put is read back with the address 0. -/
theorem far_entry_lost :
    (run (State.step .far) (.fresh 0) farPut).isSome = true
      ∧ ((State.after .far farPut).core.curSnap.tables 0).slots 0 = some ⟨0, ⟨0, 1, 2 ^ 40⟩⟩
      ∧ ofRaw (slotRaw (((State.after .far farPut).core.curSnap.tables 0).slots 0))
        = some ⟨0, ⟨0, 1, 0⟩⟩ := by
  and_intros
  all_goals decide +kernel

end UDepot
