import UDepot.Store.Inversion
import UDepot.Store.KvMap

/-!
# Read sections protect what they have seen

From the moment an operation finds an entry until its read section ends, the segment of the entry
is not allocated again and keeps its timestamp, along both ways in which segments are freed: after
the grace period of a pass of the collector, and through `defer_free_seg`.  So the value and the
version a get returns are of one record, and what a probe recorded of an address is true of the
record there whenever it is consulted (`sections_protect`).
-/

namespace UDepot

open Transition

section

variable {env : StoreEnv} {s s' : State}

/-- What a read section has come upon stays as long as the section lasts. -/
theorem State.Inv.loaded_of_reach
    {sec : ReadSection} {p : Nat} {r : Rec} (h : s.Inv env) (hl : Loaded env s.core sec p r)
    (hreach : Reach (State.step env) (fun s _ => sec ∈ s.core.sections) s s') :
  Loaded env s'.core sec p r
  := by
  have hboth : s'.Inv env ∧ Loaded env s'.core sec p r := by
    apply hreach.invariant ⟨h, hl⟩
    rintro s₁ a s₂ ⟨h₁, hl₁⟩ hsec hstep
    have hs := h₁.step hstep
    obtain ⟨b, hf⟩ := hs.frame
    exact ⟨hs.inv, hf.loaded sec hsec hl₁⟩
  apply hboth.2

/-- A segment that has ranges is not allocated. -/
theorem Core.takeSegment_ranged
    (env : StoreEnv) {c : Core} {seg : Nat} (hr : (c.phase seg).ranged = true) :
  (∀ stream, c.takeSegment env.geo seg stream = none) ∧ c.takeIndexSegment env.geo seg = none
  := by
  have hne : c.phase seg ≠ .free := by
    intro hfree
    rw [hfree] at hr
    cases hr
  constructor
  · intro stream
    rw [Core.takeSegment, if_neg]
    rintro ⟨hfree, -⟩
    contradiction
  · rw [Core.takeIndexSegment, if_neg]
    rintro ⟨hfree, -⟩
    contradiction

section

variable {c c' : Core} {lock : Option Nat} {i : Nat} {o o' : Op} {value : Bytes} {version : Nat}

/-- Only a get that has loaded its version ends with a result. -/
theorem Op.step_result
    {a : OpAct} (hs : o.step env lock c i a = some (c', o'))
    (hdone : o'.phase = .done .ok (some (value, version))) :
  ∃ p, o.phase = .version p value ∧ version = versionOf env.geo c.segTimestamps p
  := by
  cases Op.steps_of_step hs with
  | loadVersion hph =>
      cases hdone
      exact ⟨_, hph, rfl⟩
  | commit hph _ _ _ _ henact => cases henact <;> cases hdone
  | lookupEnd | again =>
      simp only at hdone
      split at hdone <;> cases hdone
  | lookup =>
      simp only [Op.found] at hdone
      split at hdone <;> cases hdone
  | @readGet e =>
      simp only at hdone
      cases hv : o.valueRead env c e <;> rw [hv] at hdone <;> cases hdone
  | _ => cases hdone

/-- A get returns the value and the version of one committed record of its key. -/
theorem OpInv.get_result
    {a : OpAct} (ho : OpInv env c i o) (hs : o.step env lock c i a = some (c', o'))
    (hdone : o'.phase = .done .ok (some (value, version))) :
  ∃ p r, Loaded env c o.sec p r ∧ r.key = o.key ∧ r.value = some value
    ∧ version = versionOf env.geo (fun _ => r.timestamp) p
  := by
  obtain ⟨p, hph, hversion⟩ := Op.step_result hs hdone
  have hphase := ho.phaseOk
  rw [hph] at hphase
  obtain ⟨-, r, hr, hkey, hvalue⟩ := hphase
  have hl := ho.loaded hr
  refine ⟨p, r, hl, hkey, hvalue, ?_⟩
  rw [hversion, versionOf, versionOf, hl.current.timestamp]

end

/-- In every state a run reaches: an entry an operation finds is in a segment that is not allocated
again and keeps its timestamp and the record until the read section has ended; the value and the
version a get returns are of one record; and what a probe has recorded holds.  Entries are read back
as they were stored, which they are where every grain can be addressed (`Geometry.Addressable`). -/
theorem sections_protect
    {s₀ : State} (hopen : Opened env s₀)
    (hreach : Reach (State.step env) (fun _ _ => True) s₀ s) :
  (∀ {i o gen d e s₁ s₂}, s.ops i = some o → o.phase = .look gen →
      ((s.core.snaps gen).tableForHash (env.hashKey o.key)).matchAt (env.hashKey o.key) d
        (o.kind ≠ .get) = some e →
      s.step env (.op i (.lookup (some d))) = some s₁ →
      Reach (State.step env) (fun s _ => o.sec ∈ s.core.sections) s₁ s₂ →
      (∀ stream, s₂.core.takeSegment env.geo (env.geo.segOf e.val.pba) stream = none)
        ∧ s₂.core.takeIndexSegment env.geo (env.geo.segOf e.val.pba) = none
        ∧ s₂.core.segTimestamps (env.geo.segOf e.val.pba)
          = s.core.segTimestamps (env.geo.segOf e.val.pba)
        ∧ s₂.core.recs e.val.pba = s.core.recs e.val.pba)
    ∧ (∀ {i o a s₁ o₁ value version}, s.ops i = some o → s.step env (.op i a) = some s₁ →
      s₁.ops i = some o₁ → o₁.phase = .done .ok (some (value, version)) →
      ∃ p r, s.core.recs p = some r ∧ r.key = o.key ∧ r.value = some value
        ∧ s.core.segTimestamps (env.geo.segOf p) = r.timestamp
        ∧ version = versionOf env.geo (fun _ => r.timestamp) p)
    ∧ ∀ {i o seen}, s.ops i = some o → seen ∈ o.probe →
      ∃ r, s.core.recs seen.pba = some r ∧ (seen.isMatch = true ↔ r.key = o.key)
  := by
  have h := hopen.reach hreach
  refine ⟨?_, ?_, ?_⟩
  · intro i o gen d e s₁ s₂ ho hph he hstep hreach'
    obtain ⟨r, hl, -⟩ := (h.ops ho).loads hph he
    have hsec := (h.ops ho).active (by rw [hph]; rfl)
    have hl₂ := h.loaded_of_reach hl (Reach.trans (.tail .refl hsec hstep) hreach')
    obtain ⟨htake, hindex⟩ := Core.takeSegment_ranged env
      (SegPhase.ranged_of_protects hl₂.protects)
    refine ⟨htake, hindex, ?_, ?_⟩
    · rw [hl₂.current.timestamp, hl.current.timestamp]
    · rw [hl₂.current.record, hl.current.record]
  · intro i o a s₁ o₁ value version ho hstep ho₁ hdone
    obtain ⟨o', ho', hs⟩ := Option.bind_eq_some_iff.mp hstep
    obtain ⟨⟨c', o₂⟩, hop, ⟨⟩⟩ := Option.map_eq_some_iff.mp hs
    cases ho.symm.trans ho'
    simp only [Function.update_self, Option.some.injEq] at ho₁
    subst ho₁
    obtain ⟨p, r, hl, hkey, hvalue, hversion⟩ := (h.ops ho).get_result hop hdone
    exact ⟨p, r, hl.current.record, hkey, hvalue, hl.current.timestamp, hversion⟩
  · intro i o seen ho hseen
    obtain ⟨r, hr, hmatch⟩ := (h.ops ho).seen hseen
    exact ⟨r, ((h.ops ho).loaded hr).current.record, hmatch⟩

end

/-- A small store in which a get has read its record and is about to load its version. -/
def smallGet : State :=
  .after .small (stampActs 0 .data ++ putActs 0 0 [2] [1] ++ [.op 0 (.commit false),
    .start 1 .get [1], .op 1 .loadSnapshot, .op 1 (.lookup (some 0)), .op 1 .read])

theorem smallGet_result :
    ∃ s' o' p r, smallGet.step .small (.op 1 .loadVersion) = some s' ∧ s'.ops 1 = some o'
      ∧ o'.phase = .done .ok (some ([2], 16)) ∧ smallGet.core.recs p = some r ∧ r.key = [1]
      ∧ r.value = some [2] ∧ 16 = versionOf StoreEnv.small.geo (fun _ => r.timestamp) p := by
  have hreach : Reach (State.step .small) (fun _ _ => True) (.fresh 0) smallGet :=
    State.after_reach (by decide +kernel) (fun _ _ _ => trivial)
  have hout : ((smallGet.step .small (.op 1 .loadVersion)).bind (·.ops 1)).map (·.phase)
      = some (.done .ok (some ([2], 16))) := by decide +kernel
  have hkey : (smallGet.ops 1).map (·.key) = some [1] := by decide +kernel
  obtain ⟨o, ho, hk⟩ := Option.map_eq_some_iff.mp hkey
  obtain ⟨o', ho', hdone⟩ := Option.map_eq_some_iff.mp hout
  obtain ⟨s', hs', ho'⟩ := Option.bind_eq_some_iff.mp ho'
  obtain ⟨p, r, hr, hrk, hv, -, hver⟩ :=
    (sections_protect (State.fresh_opened .small) hreach).2.1 ho hs' ho' hdone
  exact ⟨s', o', p, r, hs', ho', hdone, hr, hrk.trans hk, hv, hver⟩

end UDepot
