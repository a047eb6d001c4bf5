import Mathlib.Algebra.Group.Basic
import Mathlib.Algebra.Order.Ring.Nat
import UDepot.Open.Geometry

/-!
# The segment size of a new store

The loop of `open` over segment sizes ends, whatever salsa makes of them.  The size it accepts is
at most the one asked for and leaves the device metadata alone.  A fitted size is in whole pages,
and so is a sanitized one; but a size of the caller's is halved without being sanitized again, and
its bytes may be a multiple of `2 ^ 64`, which `open` divides by.  So the loop ends soundly exactly
if the sizes it gets to are in whole pages and have bytes (`EndsSoundly.pageSizes`,
`PageSizes.endsSoundly`).
-/

namespace UDepot

/-! ### Fitted sizes -/

section Fitted

variable {grain tableBytes tableBytes' : Nat}

/-- The grain sizes that pages are made of, or that are made of pages. -/
def PageGrain (grain : Nat) : Prop := grain ∣ 4096 ∨ 4096 ∣ grain

/-- The larger of a page and a grain is in whole pages and whole grains. -/
theorem PageGrain.dvd_max (h : PageGrain grain) (hpos : 0 < grain) :
    grain ∣ max 4096 grain ∧ 4096 ∣ max 4096 grain := by
  rcases h with h | h
  · rw [max_eq_left (Nat.le_of_dvd (by decide) h)]
    exact ⟨h, dvd_refl _⟩
  · rw [max_eq_right (Nat.le_of_dvd hpos h)]
    exact ⟨dvd_refl _, h⟩

/-- The bytes of a fitted segment. -/
def fittedBytes (tableBytes grain : Nat) : Nat :=
  alignUp (tableBytes + (2 * kIndexMdBytes + 32 * 8 + alignUp kSegMdBytes grain)) (max 4096 grain)

theorem fittedSegmentSize_mul (h : PageGrain grain) (hpos : 0 < grain) :
    fittedSegmentSize tableBytes grain * grain = fittedBytes tableBytes grain :=
  Nat.div_mul_cancel (Nat.dvd_trans (h.dvd_max hpos).1 (dvd_alignUp _ _))

theorem fittedSegmentSize_pages (h : PageGrain grain) (hpos : 0 < grain) :
    4096 ∣ fittedSegmentSize tableBytes grain * grain := by
  rw [fittedSegmentSize_mul h hpos]
  apply Nat.dvd_trans (h.dvd_max hpos).2 (dvd_alignUp _ _)

theorem fittedSegmentSize_mono (hle : tableBytes ≤ tableBytes') :
    fittedSegmentSize tableBytes grain ≤ fittedSegmentSize tableBytes' grain := by
  apply Nat.div_le_div_right
  apply alignUp_mono _ (Nat.add_le_add_right hle _)

theorem fittedSegmentSize_pos (h : PageGrain grain) (hpos : 0 < grain) :
    0 < fittedSegmentSize tableBytes grain := by
  have hbytes : 0 < fittedSegmentSize tableBytes grain * grain := by
    rw [fittedSegmentSize_mul h hpos]
    apply lt_of_lt_of_le _ (le_alignUp _ (lt_max_of_lt_right hpos))
    rw [kIndexMdBytes]
    omega
  apply Nat.pos_of_mul_pos_right hbytes

/-- The bytes of a segment fitted to at most the default table are a 64-bit number. -/
theorem fittedBytes_lt (hpos : 0 < grain) (hgrain : grain < 2 ^ 32)
    (htable : tableBytes ≤ kDefaultTable) : fittedBytes tableBytes grain < 2 ^ 64 := by
  have hmd := alignUp_lt kSegMdBytes hpos
  apply lt_trans (alignUp_lt _ (by omega))
  rw [kSegMdBytes] at hmd
  rw [kIndexMdBytes, kSegMdBytes]
  rw [kDefaultTable] at htable
  omega

end Fitted

namespace DeviceSize

variable {dev : DeviceSize} {segmentSize : Nat} {accept : Candidate → Bool} {restored : Bool}
  {c c' : Candidate}

/-- A size in whole pages is as it should be. -/
theorem sanitize_eq_self
    {seg : Nat} (h : PageGrain dev.grainSize) (hgrain : 0 < dev.grainSize) (hpos : 0 < seg)
    (hpages : 4096 ∣ seg * dev.grainSize) :
  dev.sanitize seg = seg
  := by
  rw [sanitize]
  split
  · rename_i hlt
    have hdvd : dev.grainSize ∣ 4096 := by
      rcases h with h | h
      · apply h
      · exact absurd (Nat.le_of_dvd hgrain h) (Nat.not_le_of_lt hlt)
    have hstep : 4096 / dev.grainSize ∣ seg := by
      apply Nat.dvd_of_mul_dvd_mul_right hgrain
      rwa [Nat.div_mul_cancel hdvd]
    rw [Nat.div_mul_cancel hstep, max_eq_right hpos]
  · rw [Nat.div_one, Nat.mul_one, max_eq_right hpos]

/-! ### A round of the loop -/

/-- The verdict of a salsa that refuses every size. -/
def refusing : Candidate → Bool := fun _ => false

/-- A round ends with the size tried or goes on as if it were refused. -/
theorem round_eq (accept : Candidate → Bool) (restored : Bool) (c : Candidate) :
    dev.round accept restored c
      = if dev.hasTail c.seg && accept c then .done (.accepted c.seg)
        else dev.round refusing restored c := by
  cases htail : dev.hasTail c.seg with
  | true =>
      rw [round_of_hasTail htail, round_of_hasTail htail]
      rfl
  | false =>
      rw [round, round, htail]
      rfl

theorem refit_eq_again {fittedTable : Nat} (h : dev.refit fittedTable = .again c) :
    4096 ≤ fittedTable / 2
      ∧ c = ⟨fittedSegmentSize (fittedTable / 2) dev.grainSize, fittedTable / 2⟩ := by
  rw [refit] at h
  split_ifs at h with hsmall
  rw [nextFitted] at h hsmall
  split_ifs at h hsmall with hroom
  · exact ⟨hroom, (Loop.Turn.again.inj h).symm⟩
  · exact absurd (Nat.zero_le 1) hsmall

/-- The round after: a smaller table to fit to, or a smaller size. -/
theorem round_eq_again (h : dev.round accept false c = .again c') :
    c.fittedTable ≠ 0 ∧ 4096 ≤ c.fittedTable / 2
        ∧ c' = ⟨fittedSegmentSize (c.fittedTable / 2) dev.grainSize, c.fittedTable / 2⟩
      ∨ c.fittedTable = 0 ∧ c'.fittedTable = 0 ∧ 0 < c'.seg ∧ c'.seg < c.seg := by
  unfold round at h
  split_ifs at h
  · unfold noTail at h
    simp only [Bool.false_eq_true, if_false] at h
    split_ifs at h with htable
    · left
      exact ⟨htable, refit_eq_again h⟩
    · right
      split at h
      · cases h
      · split_ifs at h with hbest
        obtain rfl := Loop.Turn.again.inj h
        obtain ⟨hne, hlt⟩ := not_or.mp hbest
        exact ⟨not_not.mp htable, rfl, Nat.pos_of_ne_zero hne, Nat.lt_of_not_le hlt⟩
  · unfold afterRefusal at h
    split_ifs at h with htable hsmall
    · left
      exact ⟨htable, refit_eq_again h⟩
    · right
      obtain rfl := Loop.Turn.again.inj h
      refine ⟨not_not.mp htable, rfl, ?_⟩
      simp only
      omega

theorem refit_eq_done {fittedTable : Nat} {choice : Choice}
    (h : dev.refit fittedTable = .done choice) : choice = .refused := by
  rw [refit] at h
  split_ifs at h
  exact (Loop.Turn.done.inj h).symm

/-- The end of the loop if salsa refuses.  A round with a fitted size divides by its bytes
only. -/
theorem round_refusing_eq_done
    {choice : Choice} (h : dev.round refusing false c = .done choice) :
  choice = .refused ∨ choice = .trapped ∧ (c.fittedTable ≠ 0 → dev.segBytes c.seg = 0)
  := by
  unfold round at h
  split_ifs at h with hbytes htail hrefusing
  · right
    exact ⟨(Loop.Turn.done.inj h).symm, fun _ => hbytes⟩
  · unfold noTail at h
    simp only [Bool.false_eq_true, if_false] at h
    split_ifs at h with htable
    · left
      apply refit_eq_done h
    · split at h
      · right
        exact ⟨(Loop.Turn.done.inj h).symm, (absurd · htable)⟩
      · split_ifs at h
        left
        exact (Loop.Turn.done.inj h).symm
  · cases hrefusing
  · left
    unfold afterRefusal at h
    split_ifs at h
    · apply refit_eq_done h
    · exact (Loop.Turn.done.inj h).symm

/-- A size accepted is one that leaves a tail. -/
theorem round_eq_accepted
    {seg : Nat} (h : dev.round accept false c = .done (.accepted seg)) :
  seg = c.seg ∧ dev.hasTail c.seg = true
  := by
  rw [round_eq] at h
  split_ifs at h with hacc
  · simp only [Loop.Turn.done.injEq, Choice.accepted.injEq] at h
    exact ⟨h.symm, (Bool.and_eq_true _ _ ▸ hacc).1⟩
  · rcases round_refusing_eq_done h with h | ⟨h, -⟩
    · cases h
    · cases h

/-! ### The candidates of a new store -/

/-- What the loop of a new store tries as long as salsa refuses. -/
def Tried (dev : DeviceSize) (segmentSize : Nat) : Candidate → Prop :=
  Loop.Gets (dev.round refusing false) (dev.firstCandidate segmentSize)

/-- The size asked for, or the default. -/
def askedSize (dev : DeviceSize) (segmentSize : Nat) : Nat :=
  if segmentSize = 0 then fittedSegmentSize kDefaultTable dev.grainSize else segmentSize

/-- The loop tries the same candidates whatever salsa makes of them, as far as it gets. -/
theorem Tried.of_gets
    (h : Loop.Gets (dev.round accept false) (dev.firstCandidate segmentSize) c) :
  dev.Tried segmentSize c
  := by
  apply h.mono
  intro a b hab
  rw [round_eq] at hab
  split_ifs at hab
  apply hab

/-- If salsa accepts one candidate only, the loop gets to it if it is tried. -/
theorem Tried.gets (h : dev.Tried segmentSize c) :
    Loop.Gets (dev.round (fun a => a = c) false) (dev.firstCandidate segmentSize) c := by
  unfold Tried at h
  generalize dev.firstCandidate segmentSize = first at h ⊢
  induction h using Relation.ReflTransGen.head_induction_on with
  | refl => apply Relation.ReflTransGen.refl
  | @head a b hab _ ih =>
      by_cases hac : a = c
      · subst hac
        apply Relation.ReflTransGen.refl
      · apply Relation.ReflTransGen.head _ ih
        rw [round_eq]
        simpa [hac] using hab

/-- What the loop tries is at most the size asked for. -/
theorem Tried.le_askedSize
    (hpage : PageGrain dev.grainSize) (hgrain : 0 < dev.grainSize) (h : dev.Tried segmentSize c) :
  c.seg ≤ dev.askedSize segmentSize
    ∧ (c.fittedTable ≠ 0 →
      fittedSegmentSize c.fittedTable dev.grainSize ≤ dev.askedSize segmentSize)
  := by
  induction h with
  | refl =>
      rw [firstCandidate, askedSize]
      split
      · exact ⟨dev.sanitize_le (fittedSegmentSize_pos hpage hgrain), fun _ => le_rfl⟩
      · exact ⟨dev.sanitize_le (by omega), absurd rfl⟩
  | tail _ hround ih =>
      obtain ⟨hseg, hfitted⟩ := ih
      rcases round_eq_again hround with ⟨htable, -, rfl⟩ | ⟨-, hnone, -, hlt⟩
      · have hle := (fittedSegmentSize_mono (Nat.div_le_self _ 2)).trans (hfitted htable)
        exact ⟨hle, fun _ => hle⟩
      · exact ⟨hlt.le.trans hseg, absurd hnone⟩

/-- Without a size of the caller's every size tried is fitted to at most the default table. -/
theorem Tried.fitted
    (hpage : PageGrain dev.grainSize) (hgrain : 0 < dev.grainSize) (h : dev.Tried 0 c) :
  c.fittedTable ≠ 0 ∧ c.fittedTable ≤ kDefaultTable
    ∧ c.seg = fittedSegmentSize c.fittedTable dev.grainSize
  := by
  induction h with
  | refl =>
      refine ⟨by simp [firstCandidate, kDefaultTable], le_rfl, ?_⟩
      apply sanitize_eq_self hpage hgrain (fittedSegmentSize_pos hpage hgrain)
      apply fittedSegmentSize_pages hpage hgrain
  | tail _ hround ih =>
      obtain ⟨hne, hle, -⟩ := ih
      rcases round_eq_again hround with ⟨-, hroom, rfl⟩ | ⟨hnone, -⟩
      · refine ⟨?_, (Nat.div_le_self _ _).trans hle, rfl⟩
        simp only
        omega
      · exact absurd hnone hne

theorem Tried.segBytes_ne_zero_of_fitted
    (hpage : PageGrain dev.grainSize) (hgrain : 0 < dev.grainSize) (hlt : dev.grainSize < 2 ^ 32)
    (h : dev.Tried 0 c) :
  dev.segBytes c.seg ≠ 0
  := by
  obtain ⟨-, htable, hseg⟩ := h.fitted hpage hgrain
  have hseg_pos : 0 < fittedSegmentSize c.fittedTable dev.grainSize :=
    fittedSegmentSize_pos hpage hgrain
  have hpos := Nat.mul_pos hseg_pos hgrain
  rw [fittedSegmentSize_mul hpage hgrain] at hpos
  rw [segBytes, hseg, fittedSegmentSize_mul hpage hgrain,
    Nat.mod_eq_of_lt (fittedBytes_lt hgrain hlt htable)]
  apply hpos.ne'

/-! ### The end of the loop -/

/-- What gets smaller in every round: the table a size is fitted to, or the size. -/
def Candidate.rounds (c : Candidate) : Nat := if c.fittedTable ≠ 0 then c.fittedTable else c.seg

theorem rounds_lt_of_again (h : dev.round accept false c = .again c') :
    Candidate.rounds c' < Candidate.rounds c := by
  rcases round_eq_again h with ⟨htable, hroom, rfl⟩ | ⟨htable, htable', -, hlt⟩
  · rw [Candidate.rounds, Candidate.rounds, if_pos htable, if_pos (by simp only; omega)]
    simp only
    omega
  · rw [Candidate.rounds, Candidate.rounds, if_neg (not_not.mpr htable),
      if_neg (not_not.mpr htable')]
    apply hlt

/-- The loop ends, whatever salsa makes of the sizes. -/
theorem chooseSegmentSize_ends (accept : Candidate → Bool) (c : Candidate) :
    ∃ n choice, dev.chooseSegmentSize accept false n c = some choice := by
  use Candidate.rounds c + 1
  apply Loop.run_ends Candidate.rounds _ (Nat.lt_succ_self _)
  intro s t hround
  apply rounds_lt_of_again hround

/-- The segments of `seg` grains and the device metadata do not overlap. -/
def Apart (dev : DeviceSize) (seg : Nat) : Prop :=
  ∀ i < dev.size / (seg * dev.grainSize), (i + 1) * seg ≤ dev.devMdGrainOffset

/-- A size that leaves a tail keeps the device metadata apart. -/
theorem apart_of_hasTail
    {seg : Nat} (hsize : dev.size < 2 ^ 64) (h : dev.hasTail seg = true) :
  dev.Apart seg
  := by
  intro i hi
  have hbytes : seg * dev.grainSize < 2 ^ 64 := by
    by_contra hge
    rw [Nat.div_eq_of_lt (by omega)] at hi
    cases hi
  rw [hasTail, segBytes, Nat.mod_eq_of_lt hbytes, Bool.and_eq_true] at h
  have hlogical := of_decide_eq_true h.2
  have hgrain : 0 < dev.grainSize := by
    apply Nat.pos_of_ne_zero
    intro hzero
    rw [hzero] at hi
    simp at hi
  apply Nat.le_of_mul_le_mul_right _ hgrain
  calc (i + 1) * seg * dev.grainSize
      = (i + 1) * (seg * dev.grainSize) := Nat.mul_assoc _ _ _
    _ ≤ dev.size / (seg * dev.grainSize) * (seg * dev.grainSize) := Nat.mul_le_mul_right _ hi
    _ ≤ dev.devMdGrainOffset * dev.grainSize % 2 ^ 64 := hlogical
    _ ≤ dev.devMdGrainOffset * dev.grainSize := Nat.mod_le _ _

/-- A sound end of the loop: no division by zero, and a size accepted is at most the one asked
for, in whole pages and apart from the device metadata. -/
def SoundChoice (dev : DeviceSize) (segmentSize : Nat) : Choice → Prop
  | .accepted seg =>
      seg ≤ dev.askedSize segmentSize ∧ 4096 ∣ seg * dev.grainSize ∧ dev.Apart seg
  | .refused => True
  | .trapped => False

/-- The loop of a new store ends soundly, whatever salsa makes of the sizes. -/
def EndsSoundly (dev : DeviceSize) (segmentSize : Nat) : Prop :=
  ∀ accept, ∃ n choice,
    dev.chooseSegmentSize accept false n (dev.firstCandidate segmentSize) = some choice
      ∧ dev.SoundChoice segmentSize choice

/-- Where the loop tries sizes of the caller's only in whole pages, and none whose bytes it
cannot divide by. -/
def PageSizes (dev : DeviceSize) (segmentSize : Nat) : Prop :=
  ∀ c, dev.Tried segmentSize c → dev.round refusing false c ≠ .done .trapped
    ∧ (dev.hasTail c.seg = true → 4096 ∣ c.seg * dev.grainSize)

theorem pageSizes_zero
    (hpage : PageGrain dev.grainSize) (hgrain : 0 < dev.grainSize) (hlt : dev.grainSize < 2 ^ 32) :
  dev.PageSizes 0
  := by
  intro c hc
  obtain ⟨htable, -, hseg⟩ := hc.fitted hpage hgrain
  constructor
  · intro htrap
    apply hc.segBytes_ne_zero_of_fitted hpage hgrain hlt
    rcases round_refusing_eq_done htrap with h | ⟨-, hbytes⟩
    · cases h
    · apply hbytes htable
  · intro _
    rw [hseg]
    apply fittedSegmentSize_pages hpage hgrain

/-- Where sizes are in whole pages, every end of the loop is sound. -/
theorem PageSizes.soundChoice
    {n : Nat} {choice : Choice} (h : dev.PageSizes segmentSize) (hpage : PageGrain dev.grainSize)
    (hgrain : 0 < dev.grainSize) (hsize : dev.size < 2 ^ 64)
    (hrun : dev.chooseSegmentSize accept false n (dev.firstCandidate segmentSize) = some choice) :
  dev.SoundChoice segmentSize choice
  := by
  obtain ⟨c, hgets, hround⟩ := Loop.run_eq_some hrun
  have hc := Tried.of_gets hgets
  obtain ⟨hdivides, hpages⟩ := h c hc
  cases choice with
  | accepted seg =>
      obtain ⟨rfl, htail⟩ := round_eq_accepted hround
      exact ⟨(hc.le_askedSize hpage hgrain).1, hpages htail, apart_of_hasTail hsize htail⟩
  | refused => trivial
  | trapped =>
      rw [round_eq] at hround
      split_ifs at hround
      · cases hround
      · exact absurd hround hdivides

/-- Every end of the loop is sound only where sizes are in whole pages. -/
theorem EndsSoundly.pageSizes (h : dev.EndsSoundly segmentSize) : dev.PageSizes segmentSize := by
  intro c hc
  constructor
  · intro htrap
    obtain ⟨n, choice, hrun, hsound⟩ := h refusing
    rw [Loop.run_unique hc htrap hrun] at hsound
    apply hsound
  · intro htail
    obtain ⟨n, choice, hrun, hsound⟩ := h fun a => a = c
    have hround : dev.round (fun a => a = c) false c = .done (.accepted c.seg) := by
      rw [round_eq, htail]
      simp
    rw [Loop.run_unique hc.gets hround hrun] at hsound
    apply hsound.2.1

theorem EndsSoundly.grainSize_pos (h : dev.EndsSoundly segmentSize) : 0 < dev.grainSize := by
  apply Nat.pos_of_ne_zero
  intro hzero
  apply (h.pageSizes _ .refl).1
  rw [round, segBytes, hzero]
  rfl

theorem PageSizes.endsSoundly
    (h : dev.PageSizes segmentSize) (hpage : PageGrain dev.grainSize) (hgrain : 0 < dev.grainSize)
    (hsize : dev.size < 2 ^ 64) :
  dev.EndsSoundly segmentSize
  := by
  intro accept
  obtain ⟨n, choice, hrun⟩ := chooseSegmentSize_ends accept (dev.firstCandidate segmentSize)
  exact ⟨n, choice, hrun, h.soundChoice hpage hgrain hsize hrun⟩

end DeviceSize

end UDepot
