import UDepot.Record.Format
import UDepot.Store.Inside
import UDepot.Store.Linear

/-!
# Reads of operations

A get reads the grains of an entry; an exists, a put or a del reads the header and the key of a
record from an entry's address on, in whole grains, with the length of its own key.  A live entry
that is too small for the key is passed over, so these reads are inside the device.  For a deleted
entry the size is that of a tombstone of the operation's key, whatever key the tombstone has, and
the read may go past the end of the device (`reads_inside_device_iff`), unless the device is long
enough behind the last data grain of its last segment (`reads_inside_of_tail`).
-/

namespace UDepot

open Transition Memory

namespace Geometry

variable (geo : Geometry)

/-- The read of `verify_key_at_pba`, its offset and its length, if the grains can hold the key. -/
def verifyRead (pba kvGrains keySize : Nat) : Option (Nat × Nat) :=
  if kvGrains * geo.grainSize < kvTotalBytes keySize 0 then none
  else some (pba * geo.grainSize, geo.alignedKeyBytes keySize)

/-- The read of `probe_key` for an entry; the grains of a tombstone are kept in 16 bits. -/
def probeRead (e : EntryInfo) (keySize : Nat) : Option (Nat × Nat) :=
  geo.verifyRead e.pba
    (if e.deleted then geo.kvTotalGrains keySize 0 % 2 ^ 16 else e.kvSize) keySize

/-- The read of `get_record` for an entry. -/
def getRead (e : EntryInfo) : Nat × Nat := (e.pba * geo.grainSize, e.kvSize * geo.grainSize)

end Geometry

/-- The reads of an operation that has found an entry.  An exists comes upon the entries that a get
of its key does, and reads what `verify_key_at_pba` does. -/
def Op.reads (geo : Geometry) (o : Op) (e : EntryInfo) : List (Nat × Nat) :=
  match o.kind with
  | .get => geo.getRead e :: (geo.verifyRead e.pba e.kvSize o.key.length).toList
  | _ => (geo.probeRead e o.key.length).toList

/-- A read lies in the device. -/
def Within (devSize : Nat) (read : Nat × Nat) : Prop := read.1 + read.2 ≤ devSize

/-- The key read at a tombstone lies in the device. -/
def TombReadInside (geo : Geometry) (devSize : Nat) (e : EntryInfo) (keySize : Nat) : Prop :=
  geo.kvTotalGrains keySize 0 < 2 ^ 16 →
    e.pba * geo.grainSize + geo.alignedKeyBytes keySize ≤ devSize

/-- From the last data grain of the last segment on, the device has room for the header and the key
of a tombstone. -/
def TailHolds (geo : Geometry) (devSize keySize : Nat) : Prop :=
  (geo.numSegments * geo.segSize - geo.segMdGrains - 1) * geo.grainSize
    + geo.alignedKeyBytes keySize ≤ devSize

namespace Geometry

variable {geo : Geometry} {devSize : Nat}

/-- A tombstone of a key is as long as its grains, unless they are too many for 16 bits. -/
theorem verifyRead_tomb
    {keySize : Nat} (hkey : keySize < 2 ^ 16) (pba : Nat) :
  geo.verifyRead pba (geo.kvTotalGrains keySize 0 % 2 ^ 16) keySize
    = if geo.kvTotalGrains keySize 0 < 2 ^ 16 then
        some (pba * geo.grainSize, geo.alignedKeyBytes keySize)
      else none
  := by
  by_cases hfew : geo.kvTotalGrains keySize 0 < 2 ^ 16
  · have hle := geo.kvTotalBytes_le keySize 0
    rw [if_pos hfew, verifyRead, Nat.mod_eq_of_lt hfew, if_neg (Nat.not_lt.mpr hle)]
  · -- only with grains of one byte are there so many
    have hpos := geo.grainSize_pos
    have hdiv : geo.kvTotalGrains keySize 0 * geo.grainSize
        ≤ kvTotalBytes keySize 0 + geo.grainSize - 1 := Nat.div_mul_le_self ..
    have hmul := Nat.mul_le_mul_right geo.grainSize (Nat.not_lt.mp hfew)
    rw [kvTotalBytes, kKvHeaderBytes, kKvSuffixBytes] at hdiv
    have hone : geo.grainSize = 1 := by omega
    rw [hone] at hdiv
    rw [if_neg hfew, verifyRead, hone, if_pos]
    rw [kvTotalBytes, kKvHeaderBytes, kKvSuffixBytes]
    omega

end Geometry

/-! ### The models of `verify_key_at_pba` -/

section VerifyKey

variable {geo : Geometry} {dev : Device} {pba kvGrains : Nat} {key : Bytes}

/-- The key of a record is told from the bytes of the device that are read. -/
theorem Reader.verifyKeyAtPba_eq_some_iff
    (heap : Buffer) {hdr : KvHeader} :
  Reader.verifyKeyAtPba geo dev heap pba kvGrains key = some hdr
    ↔ geo.verifyRead pba kvGrains key.length
        = some (pba * geo.grainSize, geo.alignedKeyBytes key.length)
      ∧ readHdr dev (pba * geo.grainSize) = hdr ∧ hdr.keySize = key.length
      ∧ readBytes dev (pba * geo.grainSize + kKvHeaderBytes) key.length = key
  := by
  have hle := geo.le_alignedKeyBytes key.length
  rw [Reader.verifyKeyAtPba, Geometry.verifyRead]
  by_cases hsmall : kvGrains * geo.grainSize < kvTotalBytes key.length 0
  · simp only [if_pos hsmall, reduceCtorEq, false_and]
  · simp only [if_neg hsmall]
    rw [readHdr_load heap (by omega), readBytes_load heap hle]
    grind

/-- Crash recovery asks the same of a record, in a call that may fail. -/
theorem verifyKeyAtPba_eq_reader
    (env : RecoveryEnv) (img : Image) (heap : Buffer) (s : RecState) :
  verifyKeyAtPba env img pba kvGrains key s
    = (if (env.geo.verifyRead pba kvGrains key.length).isSome then external env s else .ok s).map
      fun s' => ((Reader.verifyKeyAtPba env.geo img.bytes heap pba kvGrains key).isSome, s')
  := by
  have hle := env.geo.le_alignedKeyBytes key.length
  rw [verifyKeyAtPba, Reader.verifyKeyAtPba, Geometry.verifyRead]
  by_cases hsmall : kvGrains * env.geo.grainSize < kvTotalBytes key.length 0
  · simp only [if_pos hsmall]
    rfl
  · simp only [if_neg hsmall]
    rw [readHdr_load heap (by omega), readBytes_load heap hle]
    simp only [Option.isSome_some, if_true]
    cases external env s with
    | error err => rfl
    | ok s' =>
        simp only [Except.map, bind, Except.bind, Except.ok.injEq, Prod.mk.injEq, and_true]
        grind

/-- An operation of the store asks the same of the record at an entry, wherever the device reads it
back. -/
theorem Op.verifies_eq_reader
    {env : StoreEnv} {c : Core} {o : Op} {e : EntryInfo} {r : Rec} {crc16 : KvHeader → UInt16}
    {ts : Nat} (hrec : c.recs e.pba = some r) (hshape : r.Shape env.geo e.pba)
    (he : e = (env.item r e.pba).2) (hback : ReadsBack env.geo crc16 dev e.pba r.key ts r.value)
    (heap : Buffer) :
  o.verifies env c e
    = (Reader.verifyKeyAtPba env.geo dev heap e.pba (o.entryGrains env e) o.key).isSome
  := by
  have hreads : Reader.verifyKeyAtPba env.geo dev heap e.pba (o.entryGrains env e) o.key
      = if o.key = r.key then some (headerOf r.key ts r.value) else none := by
    rw [Op.entryGrains, he]
    cases hv : r.value with
    | none =>
        rw [hv] at hback
        rw [if_pos ((hshape.deleted_iff _).mpr hv)]
        exact hback.verify heap o.key
    | some val =>
        rw [hv] at hback
        have hlive :
            (env.item r e.pba).2.kvSize = env.geo.kvTotalGrains r.key.length val.length := by
          simp only [StoreEnv.item, Rec.kvSize, hv, Option.isSome_some, if_true, hshape.grains]
          rfl
        rw [if_neg (by rw [hshape.deleted_iff, hv]; rintro ⟨⟩), hlive]
        exact hback.verify heap o.key
  rw [hreads, Op.verifies, hrec]
  by_cases hkey : o.key = r.key
  · have hroom : kvTotalBytes r.key.length 0 ≤ o.entryGrains env e * env.geo.grainSize := by
      rw [he, hshape.entryGrains hkey.symm, hshape.grains]
      refine Nat.le_trans ?_ (env.geo.kvTotalBytes_le _ _)
      simp only [kvTotalBytes]
      omega
    simp [hkey, hroom]
  · simp [hkey, Ne.symm hkey]

end VerifyKey

/-! ### Reads for an entry -/

section

variable {env : StoreEnv} {devSize : Nat} {s : State} {i : Nat} {o : Op} {e : EntryInfo}

/-- An entry that an operation has found points at a record in a segment of the device. -/
theorem State.Inv.found_record
    (h : s.Inv env) (hin : s.core.Inside env.geo) (ho : s.ops i = some o)
    (hph : o.phase = .verify e) :
  ∃ r : Rec, e.pba + r.grains + env.geo.segMdGrains ≤ env.geo.numSegments * env.geo.segSize
    ∧ e.kvSize ≤ r.grains ∧ 0 < r.grains
  := by
  have hinv := h.ops ho
  have hverify := hinv.phaseOk
  rw [hph] at hverify
  obtain ⟨r, hmem, he⟩ := hverify
  have hl := hinv.loaded hmem
  have hshape := h.core.recs.shape hl.current.record
  have hseg : env.geo.segOf e.pba < env.geo.numSegments := by
    apply hin
    intro hfree
    have hprot := hl.protects
    rw [hfree] at hprot
    cases hprot
  refine ⟨r, hshape.lt_device hseg, ?_, ?_⟩
  · rw [he]
    simp only [StoreEnv.item, Rec.kvSize]
    split
    · exact Nat.le_refl _
    · exact Nat.zero_le _
  · rw [hshape.grains]
    exact env.geo.kvTotalGrains_pos _ _

/-- The record of an entry that an operation has found lies on the device. -/
theorem State.Inv.found_inside
    (h : s.Inv env) (hin : s.core.Inside env.geo)
    (hdev : env.geo.numSegments * env.geo.segSize * env.geo.grainSize ≤ devSize)
    (ho : s.ops i = some o) (hph : o.phase = .verify e) :
  e.pba * env.geo.grainSize + e.kvSize * env.geo.grainSize ≤ devSize
  := by
  obtain ⟨r, hlt, hkv, -⟩ := h.found_record hin ho hph
  rw [← Nat.add_mul]
  refine Nat.le_trans (Nat.mul_le_mul_right _ ?_) hdev
  omega

/-- A tombstone is in the last data grain of the last segment, or before it. -/
theorem State.Inv.tombRead_inside
    (h : s.Inv env) (hin : s.core.Inside env.geo) (ho : s.ops i = some o)
    (hph : o.phase = .verify e) (htail : TailHolds env.geo devSize o.key.length) :
  TombReadInside env.geo devSize e o.key.length
  := by
  intro _
  obtain ⟨r, hlt, -, hpos⟩ := h.found_record hin ho hph
  refine Nat.le_trans (Nat.add_le_add_right (Nat.mul_le_mul_right _ ?_) _) htail
  omega

/-- The reads for an entry are inside the device, but for those of a put or a del at a tombstone. -/
theorem Op.reads_inside_iff
    (hkey : o.kind ≠ .get → o.key.length < 2 ^ 16)
    (hrec : e.pba * env.geo.grainSize + e.kvSize * env.geo.grainSize ≤ devSize) :
  (∀ read ∈ o.reads env.geo e, Within devSize read)
    ↔ (o.kind ≠ .get → e.deleted = true → TombReadInside env.geo devSize e o.key.length)
  := by
  have hverify : ∀ read ∈ env.geo.verifyRead e.pba e.kvSize o.key.length, Within devSize read := by
    intro read hread
    rw [Geometry.verifyRead] at hread
    split at hread
    · cases hread
    · rename_i hguard
      cases hread
      have hle := Geometry.alignedKeyBytes_le (Nat.not_lt.mp hguard)
      exact Nat.le_trans (Nat.add_le_add_left hle _) hrec
  rw [Op.reads]
  cases hk : o.kind with
  | get =>
      simp only [List.mem_cons, Option.mem_toList, forall_eq_or_imp, ne_eq, not_true_eq_false,
        false_implies, iff_true]
      exact ⟨hrec, hverify⟩
  | put | del =>
      simp only [Option.mem_toList, ne_eq, reduceCtorEq, not_false_eq_true, true_implies]
      rw [Geometry.probeRead]
      cases hdel : e.deleted with
      | false =>
          simp only [Bool.false_eq_true, if_false, false_implies, iff_true]
          exact hverify
      | true =>
          have hlt : o.key.length < 2 ^ 16 := hkey (by rw [hk]; exact nofun)
          rw [if_pos rfl, Geometry.verifyRead_tomb hlt]
          rw [TombReadInside]
          split
          · rename_i hfew
            simp only [Option.some.injEq, forall_eq', Within, true_implies]
            exact ⟨fun hle _ => hle, fun hle => hle hfew⟩
          · rename_i hfew
            exact ⟨fun _ _ hfew' => absurd hfew' hfew, fun _ => nofun⟩

end

/-! ### A device without errors -/

/-- A put or a del gets fewer bytes than it needs to look at the key of an entry. -/
def Op.ShortRead (geo : Geometry) (devSize : Nat) (o : Op) (e : EntryInfo) : Prop :=
  o.kind ≠ .get ∧ ∃ read ∈ geo.probeRead e o.key.length,
    devSize < read.1 + (kKvHeaderBytes + o.key.length)

/-- The device returns no errors: writes succeed, and a read fails only if it is short. -/
def FaultFree (env : StoreEnv) (devSize : Nat) (s : State) : Act → Prop
  | .writeSegMd _ res => res = .ok
  | .op _ (.writeFails _) => False
  | .op i .readFails => ∃ o e, s.ops i = some o ∧ o.phase = .verify e
      ∧ o.ShortRead env.geo devSize e
  | _ => True

/-- No put or del is about to look at a tombstone past whose end the device ends too soon. -/
def ProbesInside (env : StoreEnv) (devSize : Nat) (s : State) : Prop :=
  ∀ {i o e}, s.ops i = some o → o.phase = .verify e → o.kind ≠ .get → e.deleted = true →
    TombReadInside env.geo devSize e o.key.length

/-- The metadata of every segment that is opened was written. -/
def Core.MdWritten (c : Core) : Prop := ∀ seg, (c.phase seg).Good (c.segMdOk seg)

section

variable {env : StoreEnv} {devSize : Nat} {s s' : State} {c c' : Core} {lock : Option Nat} {i : Nat}
    {o o' : Op}

theorem NoneTaken.mdWritten (h : NoneTaken c c') (hmd : c.MdWritten) : c'.MdWritten := by
  intro seg
  rw [h.mdOk]
  exact h.good seg (hmd seg)

/-- A segment whose metadata was written so far, on a device without errors. -/
theorem SegTable.Turns.good
    {t t' : SegTable} {seg : Nat} {a : Act} (h : t.Turns env.geo seg a t')
    (hfree : FaultFree env devSize s a) (hgood : (t.phase seg).Good (t.segMdOk seg)) :
  (t'.phase seg).Good (t'.segMdOk seg)
  := by
  cases h with
  | write res _ =>
      simp only [Function.update_self]
      exact decide_eq_true hfree
  | mdOk hph hstage =>
      simp only [Function.update_self]
      rw [hph] at hgood
      obtain ⟨rfl, -⟩ | ⟨rfl, rfl⟩ := hstage
      · exact ⟨hgood, hgood⟩
      · exact ⟨rfl, rfl⟩
  | opened hph _ =>
      simp only [Function.update_self]
      rw [hph] at hgood
      exact hgood.2
  | take | takeIndex | timestamp | live | index | back | retire =>
      simp only [Function.update_self]
      trivial

theorem Core.MdWritten.envStep
    (h : c.MdWritten) {a : Act} (hfree : FaultFree env devSize s a)
    (hs : c.envStep env.geo a = some c') :
  c'.MdWritten
  := by
  obtain hnone | ⟨seg, t, hturn, rfl⟩ := (Core.envSteps_of_envStep hs).noneTaken
  · exact hnone.mdWritten h
  · intro j
    by_cases heq : j = seg
    · subst heq
      exact hturn.good hfree (h j)
    · obtain ⟨hph, hok⟩ := hturn.phase.2 heq
      rw [hph, hok]
      exact h j

theorem Core.MdWritten.step
    {a : Act} (h : s.core.MdWritten) (hinv : s.Inv env) (hfree : FaultFree env devSize s a)
    (hs : s.step env a = some s') :
  s'.core.MdWritten
  := by
  obtain ⟨i, kind, key, rfl, -, -, rfl⟩ | ⟨i, b, o, c', o', rfl, ho, hstep, rfl⟩
    | ⟨b, c', g', rfl, hstep, rfl⟩ | ⟨c', hc', rfl⟩ := State.step_cases hs
  · exact h
  · exact (Op.steps_of_step hstep).noneTaken.mdWritten h
  · exact ((GcPhase.steps_of_step hstep).noneTaken hinv.gc).mdWritten h
  · exact h.envStep hfree hc'

/-- A commit does not refuse with an I/O error. -/
theorem Op.verdict_ne_eio
    {geo : Geometry} {segTimestamps : Nat → Nat} {m : Option EntryInfo} :
  o.verdict geo segTimestamps m ≠ some (.refuse .eio)
  := by
  have hplace : ∀ pba, placement geo segTimestamps pba m ≠ .refuse .eio :=
    fun pba => placement_ne_refuse m .eio
  intro h
  rw [Op.verdict] at h
  split at h
  · obtain ⟨pba, -, h⟩ := Option.map_eq_some_iff.mp h
    rw [putVerdict] at h
    split at h
    · split at h
      · cases h
      · exact hplace pba h
    · split at h
      · cases h
      · split at h
        · cases h
        · exact hplace pba h
  · have h := Option.some.inj h
    rw [delVerdict.eq_def] at h
    split at h
    · cases h
    · split at h
      · cases h
      · split at h
        · cases h
        · exact hplace _ h
  · cases h

theorem Op.not_returns
    {rc : Rc} (hcalls : ∀ todo, o.phase ≠ .calls todo (.ret rc))
    (hdone : ∀ res, o.phase ≠ .done rc res) :
  ¬ o.Returns rc
  := by
  rintro (hr | ⟨res, hr⟩)
  · rw [Op.outcome] at hr
    split at hr
    · rename_i todo rc' hph
      cases hr
      exact hcalls todo hph
    · cases hr
  · exact hdone res hr

/-- How an operation comes to return an I/O error. -/
theorem Op.Steps.eio
    {a : OpAct} (h : Op.Steps env c i o lock a c' o') (hr : o'.Returns .eio) :
  o.Returns .eio ∨ (∃ seg pba, c.allocate env.geo (.op i) .data seg (o.grains env) = some (c', pba)
      ∧ ¬ c.segMdOk seg = true)
    ∨ (∃ kill, a = .writeFails kill) ∨ a = .readFails
  := by
  cases h with
  | allocateBad hph ha hok => exact .inr (.inl ⟨_, _, ha, hok⟩)
  | writeFails kill hph hown => exact .inr (.inr (.inl ⟨kill, rfl⟩))
  | readFails hph => exact .inr (.inr (.inr rfl))
  | @call x todo next hph =>
      left
      left
      obtain hr | ⟨res, hr⟩ := hr
      · cases next with
        | ret rc =>
            rw [Op.outcome, hph]
            exact hr
        | again => cases hr
      · cases hr
  | @returns rc hph =>
      left
      left
      obtain hr | ⟨res, hr⟩ := hr
      · cases hr
      · cases hr
        rw [Op.outcome, hph]
  | @commit early m v c' o' hph hlock hmay hset hv h =>
      exfalso
      cases h with
      | refuse rc =>
          obtain hr | ⟨res, hr⟩ := hr
          · obtain rfl : rc = .eio := Option.some.inj hr
            exact Op.verdict_ne_eio hv
          · cases hr
      | _ =>
          revert hr
          apply Op.not_returns <;> rintro _ ⟨⟩
  | lookupEnd hph =>
      exfalso
      revert hr
      apply Op.not_returns
      all_goals
        intro x
        simp only
        split <;> rintro ⟨⟩
  | lookup hph he =>
      exfalso
      revert hr
      apply Op.not_returns
      all_goals
        intro x
        simp only [Op.found]
        split <;> rintro ⟨⟩
  | @readGet e hph hget =>
      exfalso
      revert hr
      apply Op.not_returns
      all_goals
        intro x
        simp only
        cases o.valueRead env c e <;> rintro ⟨⟩
  | again hph =>
      exfalso
      revert hr
      apply Op.not_returns
      all_goals
        intro x
        simp only
        split <;> rintro ⟨⟩
  | _ =>
      exfalso
      revert hr
      apply Op.not_returns <;> rintro _ ⟨⟩

/-- A read that fails is that of a put or a del at a tombstone near the end of the device. -/
theorem Op.ShortRead.not_inside
    {e : EntryInfo} (h : o.ShortRead env.geo devSize e) :
  ¬ ∀ read ∈ o.reads env.geo e, Within devSize read
  := by
  obtain ⟨hget, read, hread, hlt⟩ := h
  intro hall
  have hmem : read ∈ o.reads env.geo e := by
    rw [Op.reads]
    split
    · contradiction
    · exact Option.mem_toList.mpr hread
  have hin := hall read hmem
  obtain ⟨-, ⟨⟩⟩ := Option.ite_none_left_eq_some.mp hread
  have hle := env.geo.le_alignedKeyBytes o.key.length
  rw [Within] at hin
  simp only at hin hlt
  omega

/-- A put or a del has a key of at most 16 bits of length. -/
theorem key_length_lt_of_admitted
    {kind : OpKind} {key : Bytes} (h : admitted env kind key = true) (hget : kind ≠ .get) :
  key.length < 2 ^ 16
  := by
  cases kind with
  | get => contradiction
  | put mode iv value =>
      simp only [admitted, Bool.and_eq_true, decide_eq_true_eq] at h
      exact h.2.1.1
  | del iv =>
      simp only [admitted, Bool.and_eq_true, decide_eq_true_eq] at h
      exact h.2

/-- No operation returns an I/O error, and the segments in use have their metadata. -/
structure NoError (env : StoreEnv) (s : State) : Prop where
  inv : s.Inv env
  inside : s.core.Inside env.geo
  mdWritten : s.core.MdWritten
  ops : ∀ {i o}, s.ops i = some o → ¬ o.Returns .eio

theorem NoError.step
    (hdev : env.geo.numSegments * env.geo.segSize * env.geo.grainSize ≤ devSize) {a : Act}
    (h : NoError env s) (hfree : FaultFree env devSize s a) (hprobes : ProbesInside env devSize s)
    (hs : s.step env a = some s') :
  NoError env s'
  := by
  refine ⟨(h.inv.step hs).inv, h.inside.step h.inv hs, h.mdWritten.step h.inv hfree hs, ?_⟩
  intro j p hj hret
  obtain ⟨i, kind, key, rfl, -, -, rfl⟩ | ⟨i, b, o, c', o', rfl, ho, hstep, rfl⟩
    | ⟨b, c', g', rfl, hstep, rfl⟩ | ⟨c', hc', rfl⟩ := State.step_cases hs
  · by_cases hij : j = i
    · subst hij
      simp only [Function.update_self, Option.some.injEq] at hj
      subst hj
      revert hret
      apply Op.not_returns
      all_goals
        intro x
        cases kind <;> exact nofun
    · simp only [Function.update_of_ne hij] at hj
      exact h.ops hj hret
  · by_cases hij : j = i
    · subst hij
      simp only [Function.update_self, Option.some.injEq] at hj
      subst hj
      obtain hret | ⟨seg, pba, ha, hok⟩ | ⟨kill, rfl⟩ | rfl := (Op.steps_of_step hstep).eio hret
      · exact h.ops ho hret
      · apply hok
        have hgood := h.mdWritten seg
        rw [Core.allocate] at ha
        split at ha
        · rename_i hph
          rw [hph] at hgood
          exact hgood
        · cases ha
      · exact hfree
      · obtain ⟨o₁, e, ho₁, hph, hshort⟩ := hfree
        cases ho.symm.trans ho₁
        apply hshort.not_inside
        rw [Op.reads_inside_iff _ (h.inv.found_inside h.inside hdev ho hph)]
        · exact hprobes ho hph
        · exact key_length_lt_of_admitted (h.inv.ops ho).admitted
    · simp only [Function.update_of_ne hij] at hj
      exact h.ops hj hret
  · exact h.ops hj hret
  · exact h.ops hj hret

/-- Along a run on a device without errors, whose states have the tombstones' keys in the device. -/
theorem Opened.noError
    {ok : State → Act → Prop} {s₀ : State} (hopen : Opened env s₀) (hin : s₀.core.Inside env.geo)
    (hdev : env.geo.numSegments * env.geo.segSize * env.geo.grainSize ≤ devSize)
    (hok : ∀ s a, NoError env s → ok s a → FaultFree env devSize s a ∧ ProbesInside env devSize s)
    (hreach : Reach (State.step env) ok s₀ s) :
  NoError env s
  := by
  apply hreach.invariant
  · refine ⟨hopen.inv, hin, ?_, ?_⟩
    · intro seg
      obtain hp | hp | hp := hopen.phase seg <;> rw [hp] <;> trivial
    · intro i o ho
      rw [hopen.ops] at ho
      cases ho
  · intro s₁ a s₂ h₁ hact hstep
    obtain ⟨hfree, hprobes⟩ := hok s₁ a h₁ hact
    exact h₁.step hdev hfree hprobes hstep

/-- Every read of an operation lies in the device, but for the key of a put or a del that is looked
for at a tombstone; and if those do as well and the device returns no errors, no operation fails
with an I/O error. -/
theorem reads_inside_device_iff
    (env : StoreEnv) (devSize : Nat)
    (hdev : env.geo.numSegments * env.geo.segSize * env.geo.grainSize ≤ devSize) {s₀ : State}
    (hopen : Opened env s₀) (hin : s₀.core.Inside env.geo) :
  (∀ {s}, Reach (State.step env) (fun _ _ => True) s₀ s → ∀ {i o e}, s.ops i = some o →
      o.phase = .verify e → ((∀ read ∈ o.reads env.geo e, Within devSize read)
        ↔ (o.kind ≠ .get → e.deleted = true → TombReadInside env.geo devSize e o.key.length)))
    ∧ ∀ {s}, Reach (State.step env)
      (fun s a => FaultFree env devSize s a ∧ ProbesInside env devSize s) s₀ s →
      ∀ {i o}, s.ops i = some o → ¬ o.Returns .eio
  := by
  constructor
  · intro s hreach i o e ho hph
    have hinv := hopen.reach hreach
    apply Op.reads_inside_iff
    · exact key_length_lt_of_admitted (hinv.ops ho).admitted
    · exact hinv.found_inside (hopen.inside_of_reach hin hreach) hdev ho hph
  · intro s hreach i o ho
    exact (hopen.noError hin hdev (fun _ _ _ hok => hok) hreach).ops ho

/-- It is enough that the device goes on behind the last data grain of its last segment for as long
as the key of every put and del needs. -/
theorem reads_inside_of_tail
    (env : StoreEnv) (devSize : Nat)
    (hdev : env.geo.numSegments * env.geo.segSize * env.geo.grainSize ≤ devSize) {s₀ : State}
    (hopen : Opened env s₀) (hin : s₀.core.Inside env.geo) :
  (∀ {s}, Reach (State.step env) (fun _ _ => True) s₀ s → ∀ {i o e}, s.ops i = some o →
      o.phase = .verify e → TailHolds env.geo devSize o.key.length →
      ∀ read ∈ o.reads env.geo e, Within devSize read)
    ∧ ∀ {s}, Reach (State.step env)
      (fun s a => FaultFree env devSize s a
        ∧ ∀ i o, s.ops i = some o → TailHolds env.geo devSize o.key.length) s₀ s →
      ∀ {i o}, s.ops i = some o → ¬ o.Returns .eio
  := by
  constructor
  · intro s hreach i o e ho hph htail
    have hinv := hopen.reach hreach
    have hinside := hopen.inside_of_reach hin hreach
    apply (Op.reads_inside_iff (key_length_lt_of_admitted (hinv.ops ho).admitted)
      (hinv.found_inside hinside hdev ho hph)).mpr
    intro _ _
    exact hinv.tombRead_inside hinside ho hph htail
  · intro s hreach i o ho
    refine (hopen.noError hin hdev ?_ hreach).ops ho
    rintro s₁ a h₁ ⟨hfree, htails⟩
    refine ⟨hfree, ?_⟩
    intro j o₁ e ho₁ hph _ _
    exact h₁.inv.tombRead_inside h₁.inside ho₁ hph (htails j o₁ ho₁)

end

/-! ### A tombstone in the last data grain -/

/-- A key of 2000 bytes. -/
def longKey : Bytes := List.replicate 2000 1

/-- A short key is put and deleted so that its tombstone is in the last data grain of the last
segment; then a put of a long key of the same hash looks at it. -/
def tombActs : List Act :=
  stampActs 3 .data ++ putActs 0 3 (List.replicate 3000 0) [7]
    ++ [.op 0 (.commit false), .op 0 .call, .op 0 .call]
    ++ [.start 1 (.del none) [7], .op 1 .loadSnapshot, .op 1 (.lookup (some 0)), .op 1 .read,
      .op 1 .loadSnapshot, .op 1 (.lookup none), .op 1 (.commit false), .op 1 (.allocate 3),
      .op 1 .loadTimestamp, .op 1 .writeRecord, .op 1 .loadSnapshot, .op 1 (.lookup none),
      .op 1 (.commit false), .op 1 .call, .op 1 .call, .op 1 .call]
    ++ stampActs 2 .data
    ++ [.start 2 (.put .upsert none [1]) longKey, .op 2 (.allocate 2), .op 2 .loadTimestamp,
      .op 2 .writeRecord, .op 2 .loadSnapshot, .op 2 (.lookup (some 0))]

/-- On a device with one grain behind its segments, the put reads past the end and needs what is
there, so it fails. -/
theorem long_key_reads_past_end :
    (run (State.step .small) (.fresh 0) tombActs).isSome = true
      ∧ ((State.after .small tombActs).ops 2).map (·.phase) = some (.verify ⟨0, 0, 30⟩)
      ∧ ((State.after .small tombActs).ops 2).map (·.reads StoreEnv.small.geo ⟨0, 0, 30⟩)
        = some [(30 * 512, 4 * 512)]
      ∧ 33 * 512 < 30 * 512 + 4 * 512
      ∧ 33 * 512 < 30 * 512 + (kKvHeaderBytes + longKey.length)
      ∧ ((State.after .small (tombActs ++ [.op 2 .readFails])).ops 2).bind (·.outcome)
        = some .eio := by
  and_intros
  all_goals decide +kernel

/-- One more grain is enough. -/
theorem long_key_reads_inside :
    ∃ o, (State.after .small tombActs).ops 2 = some o ∧ o.phase = .verify ⟨0, 0, 30⟩
      ∧ ∀ read ∈ o.reads StoreEnv.small.geo ⟨0, 0, 30⟩, Within (34 * 512) read := by
  have hphase : ((State.after .small tombActs).ops 2).map (fun o => (o.phase, o.key))
      = some (.verify ⟨0, 0, 30⟩, longKey) := by decide +kernel
  obtain ⟨o, ho, heq⟩ := Option.map_eq_some_iff.mp hphase
  obtain ⟨hph, hkey⟩ := Prod.mk.inj heq
  have hreach : Reach (State.step .small) (fun _ _ => True) (.fresh 0)
      (State.after .small tombActs) :=
    State.after_reach (by decide +kernel) fun _ _ _ => trivial
  use o, ho, hph
  apply ((reads_inside_device_iff .small (34 * 512) (by decide)
    (State.fresh_opened .small) (fun _ hne => absurd rfl hne)).1 hreach ho hph).mpr
  intro _ _ _
  rw [hkey]
  decide +kernel

end UDepot
