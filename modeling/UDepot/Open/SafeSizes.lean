import Mathlib.Algebra.Order.Ring.Nat
import Mathlib.Algebra.Ring.Parity
import Mathlib.Data.Nat.Factorization.Basic
import Mathlib.Data.Nat.GCD.Basic
import Mathlib.Data.Nat.Prime.Basic
import Mathlib.Tactic.IntervalCases
import Mathlib.Tactic.Ring
import UDepot.Open.SegmentSize

/-!
# The sizes a caller may ask for

Which segment sizes of the caller's are safe on every device (`SafeSize`), and on a device where
every halving leaves a tail, when the one asked for is (`chooseSegmentSize_sound_iff`).

A size that is not safe goes wrong on one of these devices: an empty one, where every size leaves a
tail; one with a grain or two behind a single segment, where so does every halving; one that the
size divides, where the search for the least waste gets to a size without bytes, or to one whose
half is not in pages.
-/

namespace UDepot

namespace DeviceSize

variable {dev : DeviceSize} {grain segmentSize seg : Nat}

/-! ### Halvings -/

/-- The halvings of a size that the loop would try. -/
def Halving (seg k : Nat) : Prop := k = 0 ∨ 1 < seg / 2 ^ k

theorem Halving.pred {k : Nat} (h : Halving seg (k + 1)) : Halving seg k := by
  right
  have hlt : 1 < seg / 2 ^ (k + 1) := h.resolve_left (Nat.succ_ne_zero k)
  apply lt_of_lt_of_le hlt
  apply Nat.div_le_div_left _ (by positivity)
  apply Nat.pow_le_pow_right (by decide) (Nat.le_succ k)

theorem div_two_pow_succ' (seg k : Nat) : seg / 2 ^ (k + 1) = seg / 2 ^ k / 2 := by
  rw [Nat.pow_succ, Nat.div_div_eq_div_mul]

theorem firstCandidate_of_ne_zero (h : segmentSize ≠ 0) :
    dev.firstCandidate segmentSize = ⟨dev.sanitize segmentSize, 0⟩ := if_neg h

/-- A size that leaves a tail and is refused is halved. -/
theorem round_refusing_of_hasTail (htail : dev.hasTail seg = true) :
    dev.round refusing false ⟨seg, 0⟩
      = if seg / 2 ≤ 1 then .done .refused else .again ⟨seg / 2, 0⟩ := by
  rw [round_of_hasTail htail]
  rfl

/-- The loop gets to a halving if all before it leave a tail. -/
theorem Tried.halved
    {k : Nat} (hne : segmentSize ≠ 0) (hk : Halving (dev.sanitize segmentSize) k)
    (htails : ∀ j < k, dev.hasTail (dev.sanitize segmentSize / 2 ^ j) = true) :
  dev.Tried segmentSize ⟨dev.sanitize segmentSize / 2 ^ k, 0⟩
  := by
  induction k with
  | zero =>
      rw [Nat.pow_zero, Nat.div_one, ← firstCandidate_of_ne_zero hne]
      exact .refl
  | succ k ih =>
      refine (ih hk.pred fun j hj => htails j (Nat.lt_succ_of_lt hj)).tail ?_
      have hlt : 1 < dev.sanitize segmentSize / 2 ^ (k + 1) := hk.resolve_left (Nat.succ_ne_zero k)
      rw [div_two_pow_succ'] at hlt ⊢
      change dev.round refusing false _ = _
      rw [round_refusing_of_hasTail (htails k (Nat.lt_succ_self k)), if_neg (Nat.not_le_of_lt hlt)]

/-- Where every halving leaves a tail, the loop tries halvings only. -/
theorem Tried.exists_halving
    {c : Candidate} (hne : segmentSize ≠ 0)
    (htails : ∀ k, Halving (dev.sanitize segmentSize) k →
      dev.hasTail (dev.sanitize segmentSize / 2 ^ k) = true)
    (h : dev.Tried segmentSize c) :
  ∃ k, Halving (dev.sanitize segmentSize) k ∧ c = ⟨dev.sanitize segmentSize / 2 ^ k, 0⟩
  := by
  induction h with
  | refl =>
      refine ⟨0, .inl rfl, ?_⟩
      rw [firstCandidate_of_ne_zero hne, Nat.pow_zero, Nat.div_one]
  | tail _ hround ih =>
      obtain ⟨k, hk, rfl⟩ := ih
      change dev.round refusing false _ = _ at hround
      rw [round_refusing_of_hasTail (htails k hk)] at hround
      split_ifs at hround with hsmall
      obtain rfl := Loop.Turn.again.inj hround
      rw [← div_two_pow_succ'] at hsmall ⊢
      exact ⟨k + 1, .inr (Nat.lt_of_not_le hsmall), rfl⟩

/-- The loop ends soundly only if the halvings it gets to are in whole pages. -/
theorem EndsSoundly.halving
    {k : Nat} (h : dev.EndsSoundly segmentSize) (hne : segmentSize ≠ 0)
    (hk : Halving (dev.sanitize segmentSize) k)
    (htails : ∀ j ≤ k, dev.hasTail (dev.sanitize segmentSize / 2 ^ j) = true) :
  4096 ∣ dev.sanitize segmentSize / 2 ^ k * dev.grainSize
  := by
  apply (h.pageSizes _ (Tried.halved hne hk fun j hj => htails j hj.le)).2
  apply htails k le_rfl

theorem segBytes_ne_zero_of_hasTail (h : dev.hasTail seg = true) : dev.segBytes seg ≠ 0 := by
  simp only [hasTail, Bool.and_eq_true, decide_eq_true_eq] at h
  apply h.1.1

/-- Where every halving leaves a tail, the loop ends soundly exactly if they are in whole pages. -/
theorem endsSoundly_iff_of_tails
    (hpage : PageGrain dev.grainSize) (hsize : dev.size < 2 ^ 64) (hne : segmentSize ≠ 0)
    (htails : ∀ k, Halving (dev.sanitize segmentSize) k →
      dev.hasTail (dev.sanitize segmentSize / 2 ^ k) = true) :
  dev.EndsSoundly segmentSize ↔ ∀ k, Halving (dev.sanitize segmentSize) k →
    4096 ∣ dev.sanitize segmentSize / 2 ^ k * dev.grainSize
  := by
  constructor
  · intro h k hk
    apply (h.pageSizes _ (Tried.halved hne hk ?_)).2 (htails k hk)
    intro j hj
    apply htails j
    rcases Nat.eq_zero_or_pos j with rfl | hpos
    · exact .inl rfl
    · right
      have hlt : 1 < dev.sanitize segmentSize / 2 ^ k := hk.resolve_left (by omega)
      apply lt_of_lt_of_le hlt
      apply Nat.div_le_div_left _ (by positivity)
      apply Nat.pow_le_pow_right (by decide) hj.le
  · intro h
    have hgrain : 0 < dev.grainSize := by
      apply Nat.pos_of_ne_zero
      intro hzero
      apply segBytes_ne_zero_of_hasTail (htails 0 (.inl rfl))
      rw [segBytes, hzero]
      rfl
    apply PageSizes.endsSoundly _ hpage hgrain hsize
    intro c hc
    obtain ⟨k, hk, rfl⟩ := hc.exists_halving hne htails
    refine ⟨?_, fun _ => h k hk⟩
    rw [round_refusing_of_hasTail (htails k hk)]
    split_ifs <;> simp

/-! ### Sizes without bytes -/

/-- The least size whose bytes are a multiple of `2 ^ 64`. -/
def wrapSize (grain : Nat) : Nat := 2 ^ 64 / Nat.gcd grain (2 ^ 64)

theorem segBytes_eq_zero_iff : dev.segBytes seg = 0 ↔ wrapSize dev.grainSize ∣ seg := by
  have hpos : 0 < Nat.gcd dev.grainSize (2 ^ 64) := Nat.gcd_pos_of_pos_right _ (by decide)
  have hcoprime := Nat.coprime_div_gcd_div_gcd hpos
  obtain ⟨g, hg⟩ := Nat.gcd_dvd_left dev.grainSize (2 ^ 64)
  obtain ⟨u, hu⟩ := Nat.gcd_dvd_right dev.grainSize (2 ^ 64)
  rw [segBytes, wrapSize, ← Nat.dvd_iff_mod_eq_zero]
  generalize Nat.gcd dev.grainSize (2 ^ 64) = d at *
  have hg' : dev.grainSize / d = g := by rw [hg, Nat.mul_div_cancel_left _ hpos]
  have hu' : 2 ^ 64 / d = u := by rw [hu, Nat.mul_div_cancel_left _ hpos]
  rw [hg', hu'] at hcoprime
  rw [hu', hg, hu, Nat.mul_left_comm, Nat.mul_dvd_mul_iff_left hpos]
  exact hcoprime.symm.dvd_mul_right

theorem wrapSize_pos (grain : Nat) : 0 < wrapSize grain := by
  apply Nat.div_pos (Nat.le_of_dvd (by decide) (Nat.gcd_dvd_right _ _))
  apply Nat.gcd_pos_of_pos_right _ (by decide)

/-- The sizes without bytes are in whole pages. -/
theorem pages_of_wrapSize_dvd (h : wrapSize dev.grainSize ∣ seg) : 4096 ∣ seg * dev.grainSize := by
  rw [← segBytes_eq_zero_iff, segBytes, ← Nat.dvd_iff_mod_eq_zero] at h
  apply Nat.dvd_trans (by decide) h

/-- Below the least size without bytes nothing wraps. -/
theorem mul_lt_of_lt_wrapSize
    (hgrain : grain ∣ 4096) (h : seg < wrapSize grain) : seg * grain < 2 ^ 64 := by
  have hdvd : grain ∣ 2 ^ 64 := Nat.dvd_trans hgrain (by decide)
  rw [wrapSize, Nat.gcd_eq_left hdvd] at h
  calc seg * grain < 2 ^ 64 / grain * grain :=
        Nat.mul_lt_mul_of_pos_right h (Nat.pos_of_dvd_of_pos hgrain (by decide))
    _ = 2 ^ 64 := Nat.div_mul_cancel hdvd

/-! ### The search for the least waste -/

theorem sanitize_mono {seg' : Nat} (h : seg ≤ seg') : dev.sanitize seg ≤ dev.sanitize seg' := by
  apply max_le_max le_rfl
  apply Nat.mul_le_mul_right
  apply Nat.div_le_div_right h

/-- What a size wastes of the device. -/
def waste (dev : DeviceSize) (ns : Nat) : Nat :=
  let net := (dev.size + 2 ^ 64 - dev.grainSize) % 2 ^ 64
  net - net / dev.segBytes ns * dev.segBytes ns

section

variable {half ns best minWaste : Nat}

theorem leastWaste_of_le (h : ns ≤ half) : dev.leastWaste half ns best minWaste = some best := by
  rw [leastWaste, if_neg (Nat.not_lt_of_le h)]

theorem leastWaste_of_segBytes (hlt : half < ns) (hbytes : dev.segBytes ns = 0) :
    dev.leastWaste half ns best minWaste = none := by
  rw [leastWaste, if_pos hlt]
  simp only [hbytes, if_true]

/-- A step of the search. -/
theorem leastWaste_step (hlt : half < ns) (hbytes : dev.segBytes ns ≠ 0) :
    dev.leastWaste half ns best minWaste
      = if ns = 1 then some (if dev.waste ns < minWaste then ns else best)
        else dev.leastWaste half (dev.sanitize (ns - 1))
          (if dev.waste ns < minWaste then ns else best)
          (if dev.waste ns < minWaste then dev.waste ns else minWaste) := by
  rw [leastWaste, if_pos hlt]
  simp only [hbytes, if_false]
  rfl

theorem leastWaste_ne_none
    (h : ∀ z, half < z → z ≤ ns → dev.segBytes z ≠ 0) :
  dev.leastWaste half ns best minWaste ≠ none
  := by
  induction ns using Nat.strong_induction_on generalizing best minWaste with
  | _ ns ih =>
      by_cases hlt : half < ns
      · rw [leastWaste_step hlt (h ns hlt le_rfl)]
        by_cases hone : ns = 1
        · simp only [hone, if_true]
          simp
        · have hle := dev.sanitize_le (show 0 < ns - 1 by omega)
          rw [if_neg hone]
          apply ih _ (by omega)
          intro z hz hz'
          apply h z hz (by omega)
      · rw [leastWaste_of_le (Nat.le_of_not_lt hlt)]
        simp

/-- The search traps if it gets to a size without bytes. -/
theorem leastWaste_eq_none
    {z : Nat} (hlt : half < z) (hle : z ≤ ns) (hz : dev.sanitize z = z)
    (hbytes : dev.segBytes z = 0) :
  dev.leastWaste half ns best minWaste = none
  := by
  induction ns using Nat.strong_induction_on generalizing best minWaste with
  | _ ns ih =>
      by_cases hns : dev.segBytes ns = 0
      · apply leastWaste_of_segBytes (by omega) hns
      · have hne : z ≠ ns := by
          rintro rfl
          exact hns hbytes
        have hle' := dev.sanitize_le (show 0 < ns - 1 by omega)
        rw [leastWaste_step (by omega) hns, if_neg (by omega)]
        apply ih _ (by omega)
        rw [← hz]
        apply sanitize_mono (by omega)

/-- The search keeps what it has if nothing wastes less. -/
theorem leastWaste_eq_best
    (h : ∀ z, half < z → z ≤ ns → dev.segBytes z ≠ 0)
    (hwaste : ∀ z, half < dev.sanitize z → dev.sanitize z ≤ ns →
      minWaste ≤ dev.waste (dev.sanitize z))
    (hns : ∃ z, ns = dev.sanitize z) :
  dev.leastWaste half ns best minWaste = some best
  := by
  induction ns using Nat.strong_induction_on with
  | _ ns ih =>
      by_cases hlt : half < ns
      · obtain ⟨z, rfl⟩ := hns
        have hle := Nat.not_lt_of_le (hwaste z hlt le_rfl)
        rw [leastWaste_step hlt (h _ hlt le_rfl), if_neg hle, if_neg hle]
        split_ifs with hone
        · rfl
        · have hle' := dev.sanitize_le (show 0 < dev.sanitize z - 1 by omega)
          apply ih _ (by omega) _ _ ⟨_, rfl⟩
          · intro z' hz' hz''
            apply h z' hz' (by omega)
          · intro z' hz' hz''
            apply hwaste z' hz' (by omega)
      · apply leastWaste_of_le (Nat.le_of_not_lt hlt)

end

/-! ### Devices in whole grains -/

/-- The grains of the device metadata. -/
def mdGrains (grain : Nat) : Nat := alignUp kDevMdBytes grain / grain

theorem mdGrains_mul (grain : Nat) : mdGrains grain * grain = alignUp kDevMdBytes grain :=
  Nat.div_mul_cancel (dvd_alignUp _ _)

theorem mdGrains_pos (hgrain : 0 < grain) : 0 < mdGrains grain := by
  apply Nat.pos_of_ne_zero
  intro hzero
  have hmul := mdGrains_mul grain
  have hle := le_alignUp kDevMdBytes hgrain
  rw [hzero, Nat.zero_mul] at hmul
  rw [← hmul, kDevMdBytes] at hle
  omega

/-- Where the device metadata is, on a device that has room for it. -/
theorem devMdGrainOffset_mul
    (hgrain : 0 < dev.grainSize) (hsize : dev.size < 2 ^ 64)
    (hmd : mdGrains dev.grainSize ≤ dev.totalGrains) :
  dev.devMdGrainOffset * dev.grainSize % 2 ^ 64
    = (dev.totalGrains - mdGrains dev.grainSize) * dev.grainSize
  := by
  have htotal : dev.totalGrains * dev.grainSize ≤ dev.size := Nat.div_mul_le_self _ _
  have hlt : dev.totalGrains < 2 ^ 64 :=
    (Nat.le_mul_of_pos_right _ hgrain).trans_lt (htotal.trans_lt hsize)
  have hoff : dev.devMdGrainOffset = dev.totalGrains - mdGrains dev.grainSize := by
    rw [devMdGrainOffset, ← mdGrains, Nat.sub_add_comm hmd, Nat.add_mod_right, Nat.mod_eq_of_lt]
    omega
  rw [hoff, Nat.mod_eq_of_lt]
  exact (Nat.mul_le_mul_right _ (Nat.sub_le _ _)).trans_lt (htotal.trans_lt hsize)

/-- A size leaves a tail on a device of `n` grains if the metadata fits behind the last whole
segment. -/
theorem hasTail_iff
    {n : Nat} (hdev : dev.size = n * dev.grainSize) (hgrain : 0 < dev.grainSize)
    (hsize : dev.size < 2 ^ 64) (hmd : mdGrains dev.grainSize < n) (hseg : 0 < seg)
    (hbytes : seg * dev.grainSize < 2 ^ 64) :
  dev.hasTail seg = true ↔ mdGrains dev.grainSize ≤ n % seg
  := by
  have htotal : dev.totalGrains = n := by rw [totalGrains, hdev, Nat.mul_div_cancel n hgrain]
  have hoff := devMdGrainOffset_mul hgrain hsize (by
    rw [htotal]
    exact hmd.le)
  rw [htotal] at hoff
  have hseg' : dev.segBytes seg = seg * dev.grainSize := Nat.mod_eq_of_lt hbytes
  have hne : seg * dev.grainSize ≠ 0 := (Nat.mul_pos hseg hgrain).ne'
  have hoff_ne : (n - mdGrains dev.grainSize) * dev.grainSize ≠ 0 :=
    (Nat.mul_pos (Nat.sub_pos_of_lt hmd) hgrain).ne'
  have hmod := Nat.div_add_mod' n seg
  simp only [hasTail, hseg', hoff, hne, hoff_ne, ne_eq, not_false_eq_true, decide_true,
    Bool.true_and, decide_eq_true_eq, hdev, Nat.mul_div_mul_right _ _ hgrain, ← Nat.mul_assoc]
  rw [Nat.mul_le_mul_right_iff hgrain]
  omega

/-- The waste of a size on a device of `n` grains. -/
theorem waste_eq
    {n : Nat} (hdev : dev.size = n * dev.grainSize) (hgrain : 0 < dev.grainSize)
    (hsize : dev.size < 2 ^ 64) (hn : 0 < n) (hbytes : seg * dev.grainSize < 2 ^ 64) :
  dev.waste seg = (n - 1) % seg * dev.grainSize
  := by
  have hnet : (dev.size + 2 ^ 64 - dev.grainSize) % 2 ^ 64 = (n - 1) * dev.grainSize := by
    have hle : dev.grainSize ≤ dev.size := hdev ▸ Nat.le_mul_of_pos_left _ hn
    rw [Nat.sub_add_comm hle, Nat.add_mod_right, Nat.mod_eq_of_lt (by omega), hdev, Nat.sub_one_mul]
  have hseg : dev.segBytes seg = seg * dev.grainSize := Nat.mod_eq_of_lt hbytes
  have hmod := Nat.div_add_mod' (n - 1) seg
  simp only [waste, hnet, hseg, Nat.mul_div_mul_right _ _ hgrain, ← Nat.mul_assoc]
  rw [← Nat.sub_mul]
  congr 1
  omega

/-! ### Where a size is not safe -/

/-- Some device on which the loop does not end soundly. -/
def Fails (grain segmentSize : Nat) : Prop :=
  ∃ size < 2 ^ 64, ¬ EndsSoundly ⟨size, grain⟩ segmentSize

/-- A size without bytes is divided by at once. -/
theorem not_endsSoundly_of_segBytes
    (hne : segmentSize ≠ 0) (hbytes : dev.segBytes (dev.sanitize segmentSize) = 0) :
  ¬ dev.EndsSoundly segmentSize
  := by
  intro h
  apply (h.pageSizes _ .refl).1
  rw [firstCandidate_of_ne_zero hne, round, if_pos hbytes]

/-- The next candidate on a device on which a size leaves no tail. -/
theorem round_refusing_of_not_hasTail
    (hbytes : dev.segBytes seg ≠ 0) (htail : dev.hasTail seg = false) :
  dev.round refusing false ⟨seg, 0⟩
    = match dev.leastWaste (seg / 2) (dev.sanitize (seg - 1)) 0 (2 ^ 64 - 1) with
      | none => .done .trapped
      | some best => if best = 0 ∨ seg ≤ best then .done .refused else .again ⟨best, 0⟩
  := by
  rw [round, if_neg hbytes, htail]
  rfl

/-- On a device that a size divides it leaves no tail. -/
theorem hasTail_eq_false
    (hgrain : 0 < dev.grainSize) (hsize : dev.size < 2 ^ 64) (hdvd : dev.segBytes seg ∣ dev.size)
    (hmd : alignUp kDevMdBytes dev.grainSize ≤ dev.size) :
  dev.hasTail seg = false
  := by
  have hmd' : mdGrains dev.grainSize ≤ dev.totalGrains := Nat.div_le_div_right hmd
  have hlt : dev.devMdGrainOffset * dev.grainSize % 2 ^ 64 < dev.size := by
    rw [devMdGrainOffset_mul hgrain hsize hmd', Nat.sub_mul]
    have htotal : dev.totalGrains * dev.grainSize ≤ dev.size := Nat.div_mul_le_self _ _
    have hpos := Nat.mul_pos (mdGrains_pos hgrain) hgrain
    have hle := Nat.mul_le_mul_right dev.grainSize hmd'
    omega
  simp only [hasTail, Nat.div_mul_cancel hdvd, Nat.not_le_of_lt hlt, decide_false, Bool.and_false]

/-- There is a device on which a size leaves no tail: the least one in whole segments with room for
the metadata. -/
theorem exists_hasTail_eq_false
    (hgrain : 0 < grain) (hlt : grain < 2 ^ 32) (hbytes : segBytes ⟨0, grain⟩ seg ≠ 0) :
  ∃ size < 2 ^ 64, hasTail ⟨size, grain⟩ seg = false
  := by
  have hpos : 0 < segBytes ⟨0, grain⟩ seg := Nat.pos_of_ne_zero hbytes
  have hmod : segBytes ⟨0, grain⟩ seg < 2 ^ 64 := Nat.mod_lt _ (by decide)
  have hmd := alignUp_lt kDevMdBytes hgrain
  rw [kDevMdBytes] at hmd
  have hsize : alignUp (alignUp kDevMdBytes grain) (segBytes ⟨0, grain⟩ seg) < 2 ^ 64 := by
    rw [kDevMdBytes]
    by_cases hle : alignUp 44 grain ≤ segBytes ⟨0, grain⟩ seg
    · rw [← Nat.one_mul (segBytes ⟨0, grain⟩ seg)] at hle
      apply lt_of_le_of_lt (alignUp_mono _ hle)
      rwa [alignUp_mul 1 hpos, Nat.one_mul]
    · have hup := alignUp_lt (alignUp 44 grain) hpos
      omega
  exact ⟨_, hsize, hasTail_eq_false hgrain hsize (dvd_alignUp _ _) (le_alignUp _ hpos)⟩

/-- From a size with bytes that is not less than one without, the search gets to one without. -/
theorem leastWaste_traps
    (hpage : PageGrain dev.grainSize) (hgrain : 0 < dev.grainSize)
    (hle : wrapSize dev.grainSize ≤ seg) (hbytes : dev.segBytes seg ≠ 0) {best minWaste : Nat} :
  dev.leastWaste (seg / 2) (dev.sanitize (seg - 1)) best minWaste = none
  := by
  have hpos := wrapSize_pos dev.grainSize
  generalize hu : wrapSize dev.grainSize = u at hle hpos
  have hz : wrapSize dev.grainSize ∣ seg / u * u := hu ▸ Nat.dvd_mul_left _ _
  have hzero := segBytes_eq_zero_iff.mpr hz
  have hz_le := Nat.div_mul_le_self seg u
  have hz_lt := Nat.lt_div_mul_add (a := seg) hpos
  have hz_ge : u ≤ seg / u * u := Nat.le_mul_of_pos_left _ (Nat.div_pos hle hpos)
  have hz_self := sanitize_eq_self hpage hgrain (by omega) (pages_of_wrapSize_dvd hz)
  have hz_ne : seg / u * u ≠ seg := by
    intro heq
    rw [heq] at hzero
    exact hbytes hzero
  apply leastWaste_eq_none (by omega) _ hz_self hzero
  rw [← hz_self]
  apply sanitize_mono (by omega)

/-- A size that is not less than one without bytes fails. -/
theorem fails_of_wrapSize_le
    (hpage : PageGrain grain) (hgrain : 0 < grain) (hlt : grain < 2 ^ 32) (hne : segmentSize ≠ 0)
    (hle : wrapSize grain ≤ sanitize ⟨0, grain⟩ segmentSize) :
  Fails grain segmentSize
  := by
  by_cases hbytes : segBytes ⟨0, grain⟩ (sanitize ⟨0, grain⟩ segmentSize) = 0
  · exact ⟨0, by decide, not_endsSoundly_of_segBytes hne hbytes⟩
  · obtain ⟨size, hsize, htail⟩ := exists_hasTail_eq_false hgrain hlt hbytes
    refine ⟨size, hsize, fun h => (h.pageSizes _ .refl).1 ?_⟩
    have hbytes' : segBytes ⟨size, grain⟩ (sanitize ⟨size, grain⟩ segmentSize) ≠ 0 := hbytes
    rw [firstCandidate_of_ne_zero hne, round_refusing_of_not_hasTail hbytes' htail,
      leastWaste_traps hpage hgrain hle hbytes']

/-- A size one of whose halvings is not in pages fails on the device of one segment and the
metadata, where every halving leaves a tail. -/
theorem fails_of_halving
    {j h : Nat} (hgrain : 0 < grain) (hne : segmentSize ≠ 0)
    (hseg : sanitize ⟨0, grain⟩ segmentSize = 2 ^ j * h) (hmd : mdGrains grain < h)
    (hbytes : (2 ^ j * h + mdGrains grain) * grain < 2 ^ 64) (hpages : ¬ 4096 ∣ h * grain) :
  Fails grain segmentSize
  := by
  refine ⟨_, hbytes, fun hends => ?_⟩
  have hmdpos := mdGrains_pos hgrain
  have hpos : 0 < 2 ^ j * h := Nat.mul_pos (by positivity) (by omega)
  have hhalf : ∀ k ≤ j, sanitize ⟨(2 ^ j * h + mdGrains grain) * grain, grain⟩ segmentSize / 2 ^ k
      = 2 ^ (j - k) * h := by
    intro k hk
    change sanitize ⟨0, grain⟩ segmentSize / 2 ^ k = _
    rw [hseg, ← Nat.pow_sub_mul_pow 2 hk, Nat.mul_right_comm, Nat.mul_div_cancel _ (by positivity)]
  have hlast := hhalf j le_rfl
  rw [Nat.sub_self, Nat.pow_zero, Nat.one_mul] at hlast
  have hpages' := hends.halving hne (k := j) (.inr (by omega)) ?_
  · rw [hlast] at hpages'
    exact hpages hpages'
  · intro k hk
    have hge : h ≤ 2 ^ (j - k) * h := Nat.le_mul_of_pos_left h (by positivity)
    have hdvd : 2 ^ (j - k) * h ∣ 2 ^ j * h :=
      Nat.mul_dvd_mul_right (Nat.pow_dvd_pow 2 (Nat.sub_le j k)) h
    have hle := Nat.le_of_dvd hpos hdvd
    have hmd_lt : mdGrains grain < 2 ^ j * h + mdGrains grain := by omega
    have hseg_lt : 2 ^ (j - k) * h * grain < 2 ^ 64 :=
      lt_of_le_of_lt (Nat.mul_le_mul_right _ (by omega)) hbytes
    rw [hhalf k hk, hasTail_iff rfl hgrain hbytes hmd_lt (by omega) hseg_lt, Nat.add_mod,
      Nat.mod_eq_zero_of_dvd hdvd, Nat.zero_add, Nat.mod_mod, Nat.mod_eq_of_lt (by omega)]

/-- The grain sizes below a page. -/
theorem exists_two_pow (hdvd : grain ∣ 4096) (hlt : grain < 4096) : ∃ i ≤ 11, grain = 2 ^ i := by
  obtain ⟨i, hi, rfl⟩ := (Nat.dvd_prime_pow Nat.prime_two).mp (show grain ∣ 2 ^ 12 from hdvd)
  refine ⟨i, ?_, rfl⟩
  by_contra hgt
  obtain rfl : i = 12 := by omega
  exact absurd hlt (by decide)

theorem sanitize_of_two_pow {i size : Nat} (hi : i ≤ 11) :
    sanitize ⟨size, 2 ^ i⟩ segmentSize
      = max 1 (segmentSize / 2 ^ (12 - i) * 2 ^ (12 - i)) := by
  have hlt : (2 : Nat) ^ i < 4096 := Nat.pow_lt_pow_right (by decide) (show i < 12 by omega)
  have hstep : 4096 / 2 ^ i = 2 ^ (12 - i) :=
    Nat.pow_div (show i ≤ 12 by omega) (show 0 < 2 by decide)
  simp only [sanitize, hlt, if_true, hstep]

/-- Less than a page is made a size of one grain, which leaves a tail on an empty device. -/
theorem fails_of_lt_page
    {i : Nat} (hi : i ≤ 11) (hne : segmentSize ≠ 0) (hlt : segmentSize < 2 ^ (12 - i)) :
  Fails (2 ^ i) segmentSize
  := by
  have hone : sanitize ⟨0, 2 ^ i⟩ segmentSize = 1 := by
    rw [sanitize_of_two_pow hi, Nat.div_eq_of_lt hlt, Nat.zero_mul]
    rfl
  have htail : hasTail ⟨0, 2 ^ i⟩ 1 = true ∧ ¬ 4096 ∣ 1 * 2 ^ i := by
    interval_cases i <;> decide
  refine ⟨0, by decide, fun h => htail.2 ?_⟩
  have hpages := (h.pageSizes _ .refl).2
  rw [firstCandidate_of_ne_zero hne, hone] at hpages
  apply hpages htail.1

/-- There is room for less than a page behind whole pages. -/
theorem add_lt_of_pages {x y : Nat} (hx : x * 4096 < 2 ^ 64) (hy : y < 4096) :
    x * 4096 + y < 2 ^ 64 := by
  have hlt : x < 2 ^ 52 := Nat.lt_of_mul_lt_mul_right hx
  calc x * 4096 + y < x * 4096 + 4096 := Nat.add_lt_add_left hy _
    _ = (x + 1) * 4096 := (Nat.succ_mul x 4096).symm
    _ ≤ 2 ^ 52 * 4096 := Nat.mul_le_mul_right _ hlt

/-- A whole number of pages is halved until it is odd, and then once more. -/
theorem fails_of_odd
    {i j m : Nat} (hi : i ≤ 11) (hne : segmentSize ≠ 0) (hodd : Odd m)
    (hsize : segmentSize / 2 ^ (12 - i) = 2 ^ j * m) (hmd : mdGrains (2 ^ i) < m * 2 ^ (11 - i))
    (hlt : sanitize ⟨0, 2 ^ i⟩ segmentSize < wrapSize (2 ^ i)) :
  Fails (2 ^ i) segmentSize
  := by
  have hdvd : 2 ^ i ∣ 4096 := Nat.pow_dvd_pow 2 (show i ≤ 12 by omega)
  have hpow : (2 : Nat) ^ (12 - i) = 2 * 2 ^ (11 - i) := by
    rw [← Nat.pow_succ']
    congr 1
    omega
  have hgrain : 2 ^ (11 - i) * 2 ^ i = 2048 := by
    rw [← Nat.pow_add, Nat.sub_add_cancel hi]
  have hpos : 0 < 2 ^ j * m := Nat.mul_pos (by positivity) hodd.pos
  have hseg : sanitize ⟨0, 2 ^ i⟩ segmentSize = 2 ^ (j + 1) * (m * 2 ^ (11 - i)) := by
    rw [sanitize_of_two_pow hi, hsize, hpow, max_eq_right (Nat.mul_pos hpos (by positivity))]
    ring
  -- in pages, of which `2 ^ 64` bytes have a whole number
  have hbytes : 2 ^ j * m * 4096 < 2 ^ 64 := by
    have hmul := mul_lt_of_lt_wrapSize hdvd hlt
    rw [hseg] at hmul
    calc 2 ^ j * m * 4096 = 2 ^ (j + 1) * (m * 2 ^ (11 - i)) * 2 ^ i := by
          rw [Nat.mul_assoc (2 ^ (j + 1)), Nat.mul_assoc m, hgrain]
          ring
      _ < 2 ^ 64 := hmul
  have hmd_lt : mdGrains (2 ^ i) * 2 ^ i < 4096 := by
    have hup := alignUp_lt kDevMdBytes (show 0 < 2 ^ i by positivity)
    have hle : (2 : Nat) ^ i ≤ 2 ^ 11 := Nat.pow_le_pow_right (by decide) hi
    rw [mdGrains_mul, kDevMdBytes]
    rw [kDevMdBytes] at hup
    omega
  apply fails_of_halving (by positivity) hne hseg hmd
  · calc (2 ^ (j + 1) * (m * 2 ^ (11 - i)) + mdGrains (2 ^ i)) * 2 ^ i
        = 2 ^ j * m * (2 * (2 ^ (11 - i) * 2 ^ i)) + mdGrains (2 ^ i) * 2 ^ i := by ring
      _ = 2 ^ j * m * 4096 + mdGrains (2 ^ i) * 2 ^ i := by rw [hgrain]
      _ < 2 ^ 64 := add_lt_of_pages hbytes hmd_lt
  · rw [Nat.mul_assoc, hgrain]
    obtain ⟨n, rfl⟩ := hodd
    omega

theorem sanitize_half_page (hgrain : dev.grainSize = 2048) (seg : Nat) :
    dev.sanitize seg = max 1 (seg / 2 * 2) := by
  simp [sanitize, hgrain]

section HalfPage

variable {m : Nat} (hgrain : dev.grainSize = 2048) (hdev : dev.size = 2 * m * 2048)
  (hsize : dev.size < 2 ^ 64) (hm : 4 ≤ m)

include hgrain hdev hsize hm

theorem hasTail_half_page {seg : Nat} (hpos : 0 < seg) (hle : seg ≤ 2 * m) :
    dev.hasTail seg = true ↔ 1 ≤ 2 * m % seg := by
  have hmd : mdGrains dev.grainSize = 1 := by
    rw [hgrain]
    decide
  rw [hasTail_iff (n := 2 * m) (by rw [hdev, hgrain]) (by omega) hsize (by omega) hpos
    (by rw [hgrain]; omega), hmd]

theorem segBytes_half_page {seg : Nat} (hpos : 0 < seg) (hle : seg ≤ 2 * m) :
    dev.segBytes seg ≠ 0 := by
  rw [segBytes, hgrain, Nat.mod_eq_of_lt (by omega)]
  omega

/-- The search on a device of `2 * m` grains of half a page, from `2 * m` on: the next size wastes
one grain, and every even size wastes one at least. -/
theorem leastWaste_half_page :
    dev.leastWaste m (2 * m - 2) 0 (2 ^ 64 - 1) = some (2 * m - 2) := by
  have hwaste : ∀ z, z ≤ 2 * m → dev.waste z = (2 * m - 1) % z * 2048 := by
    intro z hz
    rw [waste_eq (n := 2 * m) (by rw [hdev, hgrain]) (by omega) hsize (by omega)
      (by rw [hgrain]; omega), hgrain]
  have hone : dev.waste (2 * m - 2) = 2048 := by
    rw [hwaste _ (by omega), show 2 * m - 1 = 1 + (2 * m - 2) by omega, Nat.add_mod_right,
      Nat.mod_eq_of_lt (by omega), Nat.one_mul]
  rw [leastWaste_step (by omega) (segBytes_half_page hgrain hdev hsize hm (by omega) (by omega)),
    if_neg (by omega), hone, if_pos (by decide), if_pos (by decide)]
  have hnext := sanitize_le dev (show 0 < 2 * m - 2 - 1 by omega)
  apply leastWaste_eq_best _ _ ⟨_, rfl⟩
  · intro z hlt hle
    apply segBytes_half_page hgrain hdev hsize hm (by omega) (by omega)
  · intro z hlt hle
    have heven := sanitize_half_page hgrain z
    rw [hwaste _ (by omega)]
    have hodd : (2 * m - 1) % dev.sanitize z ≠ 0 := by
      intro hzero
      have hdvd : 2 ∣ 2 * m - 1 := by
        apply Nat.dvd_trans _ (Nat.dvd_of_mod_eq_zero hzero)
        rw [heven, max_eq_right (by omega)]
        exact Nat.dvd_mul_left _ _
      omega
    omega

/-- A whole number of double pages in grains of half a page fails on the device it fills: the search
goes to the next size, whose half is odd. -/
theorem not_endsSoundly_of_even
    (heven : Even m) (hne : segmentSize ≠ 0) (hseg : dev.sanitize segmentSize = 2 * m) :
  ¬ dev.EndsSoundly segmentSize
  := by
  intro hends
  have htail : ∀ {seg}, 0 < seg → seg ≤ 2 * m → (dev.hasTail seg = true ↔ 1 ≤ 2 * m % seg) :=
    fun hpos hle => hasTail_half_page hgrain hdev hsize hm hpos hle
  have hfirst : dev.Tried segmentSize ⟨2 * m, 0⟩ := by
    rw [← hseg, ← firstCandidate_of_ne_zero hne]
    exact .refl
  have hnext : dev.Tried segmentSize ⟨2 * m - 2, 0⟩ := by
    refine hfirst.tail ?_
    have hno : dev.hasTail (2 * m) = false := by
      rw [← Bool.not_eq_true, htail (by omega) le_rfl, Nat.mod_self]
      decide
    have hns : dev.sanitize (2 * m - 1) = 2 * m - 2 := by
      rw [sanitize_half_page hgrain]
      omega
    change dev.round refusing false _ = _
    rw [round_refusing_of_not_hasTail
      (segBytes_half_page hgrain hdev hsize hm (by omega) le_rfl) hno, hns,
      Nat.mul_div_cancel_left m (by decide), leastWaste_half_page hgrain hdev hsize hm]
    simp only
    rw [if_neg (by omega)]
  have hhalf : dev.Tried segmentSize ⟨m - 1, 0⟩ := by
    refine hnext.tail ?_
    have hyes : dev.hasTail (2 * m - 2) = true := by
      have hmod : 2 * m % (2 * m - 2) = 2 := by
        rw [Nat.mod_eq_sub_mod (by omega), Nat.mod_eq_of_lt (by omega)]
        omega
      rw [htail (by omega) (by omega), hmod]
      decide
    change dev.round refusing false _ = _
    rw [round_refusing_of_hasTail hyes, show (2 * m - 2) / 2 = m - 1 by omega, if_neg (by omega)]
  have hyes : dev.hasTail (m - 1) = true := by
    have hmod : 2 * m % (m - 1) = 2 := by
      rw [Nat.mod_eq_sub_mod (by omega), Nat.mod_eq_sub_mod (by omega), Nat.mod_eq_of_lt (by omega)]
      omega
    rw [htail (by omega) (by omega), hmod]
    decide
  have hdvd : 4096 ∣ (m - 1) * dev.grainSize := (hends.pageSizes _ hhalf).2 hyes
  rw [hgrain] at hdvd
  obtain ⟨n, rfl⟩ := heven
  omega

end HalfPage

/-! ### Where a size is safe -/

/-- Of grains of half a page, two and four are not halved to anything but one and two. -/
theorem pageSizes_half_page
    (hgrain : dev.grainSize = 2048) (hge : 2 ≤ segmentSize) (hlt : segmentSize < 6) :
  dev.PageSizes segmentSize
  := by
  have hstep := sanitize_half_page hgrain
  have hbytes : ∀ seg, 0 < seg → seg ≤ 4 → dev.segBytes seg ≠ 0 := by
    intro seg hpos hle
    rw [segBytes, hgrain]
    omega
  have hsearch : ∀ seg, seg = 2 ∨ seg = 4 → dev.hasTail seg = false →
      dev.round refusing false ⟨seg, 0⟩ = .done .refused := by
    intro seg hseg htail
    rw [round_refusing_of_not_hasTail (hbytes seg (by omega) (by omega)) htail,
      leastWaste_of_le (by rw [hstep]; omega)]
    rfl
  have htwo : ∀ seg, seg = 2 ∨ seg = 4 → dev.round refusing false ⟨seg, 0⟩ = .done .refused
      ∨ dev.round refusing false ⟨seg, 0⟩ = .again ⟨2, 0⟩ := by
    intro seg hseg
    cases htail : dev.hasTail seg with
    | false => exact .inl (hsearch seg hseg htail)
    | true =>
        rw [round_refusing_of_hasTail htail]
        obtain rfl | rfl := hseg
        · exact .inl rfl
        · exact .inr rfl
  have htried : ∀ c, dev.Tried segmentSize c → c = ⟨2, 0⟩ ∨ c = ⟨4, 0⟩ := by
    intro c hc
    induction hc with
    | refl =>
        rw [firstCandidate_of_ne_zero (by omega), hstep]
        simp only [Candidate.mk.injEq, and_true]
        omega
    | @tail b _ _ hround ih =>
        have hb : dev.round refusing false b = .done .refused
            ∨ dev.round refusing false b = .again ⟨2, 0⟩ := by
          obtain rfl | rfl := ih
          · exact htwo 2 (.inl rfl)
          · exact htwo 4 (.inr rfl)
        change dev.round refusing false _ = _ at hround
        obtain h | h := hb
        · rw [h] at hround
          cases hround
        · rw [h] at hround
          exact .inl (Loop.Turn.again.inj hround).symm
  intro c hc
  have hc' := htried c hc
  constructor
  · intro htrap
    obtain rfl | rfl := hc'
    · obtain h | h := htwo 2 (.inl rfl) <;> rw [h] at htrap <;> cases htrap
    · obtain h | h := htwo 4 (.inr rfl) <;> rw [h] at htrap <;> cases htrap
  · intro _
    rw [hgrain]
    obtain rfl | rfl := hc' <;> decide

/-- Grains of whole pages are safe below the least size without bytes. -/
theorem pageSizes_of_lt_wrapSize
    (hdvd : 4096 ∣ dev.grainSize) (hne : segmentSize ≠ 0)
    (hlt : segmentSize < wrapSize dev.grainSize) :
  dev.PageSizes segmentSize
  := by
  have htried : ∀ c, dev.Tried segmentSize c →
      c.fittedTable = 0 ∧ 0 < c.seg ∧ c.seg ≤ segmentSize := by
    intro c hc
    induction hc with
    | refl =>
        rw [firstCandidate_of_ne_zero hne]
        exact ⟨rfl, Nat.lt_of_lt_of_le Nat.one_pos (le_max_left _ _),
          dev.sanitize_le (Nat.pos_of_ne_zero hne)⟩
    | tail _ hround ih =>
        obtain ⟨htable, -, hle⟩ := ih
        rcases round_eq_again hround with ⟨h, -⟩ | ⟨-, htable', hpos, hless⟩
        · exact absurd htable h
        · exact ⟨htable', hpos, hless.le.trans hle⟩
  have hbytes : ∀ z, 0 < z → z ≤ segmentSize → dev.segBytes z ≠ 0 := by
    intro z hpos hle hzero
    have := Nat.le_of_dvd hpos (segBytes_eq_zero_iff.mp hzero)
    omega
  intro c hc
  obtain ⟨htable, hpos, hle⟩ := htried c hc
  obtain ⟨seg, table⟩ := c
  obtain rfl : table = 0 := htable
  refine ⟨fun htrap => ?_, fun _ => Nat.dvd_mul_left_of_dvd hdvd seg⟩
  cases htail : dev.hasTail seg with
  | true =>
      rw [round_refusing_of_hasTail htail] at htrap
      split_ifs at htrap
      cases htrap
  | false =>
      rw [round_refusing_of_not_hasTail (hbytes seg hpos hle) htail] at htrap
      split at htrap
      · rename_i hnone
        refine leastWaste_ne_none ?_ hnone
        intro z hz hle'
        have hmax : dev.sanitize (seg - 1) ≤ max 1 (seg - 1) :=
          max_le_max le_rfl (Nat.div_mul_le_self _ _)
        apply hbytes z (by omega)
        simp only at hpos hle
        omega
      · split_ifs at htrap
        cases htrap

/-! ### Safe sizes -/

/-- The segment sizes that are safe on every device: the default; with grains of half a page, two to
five grains; with grains of whole pages, all below the least size without bytes. -/
def SafeSize (grain segmentSize : Nat) : Prop :=
  0 < grain ∧ (segmentSize = 0
    ∨ grain = 2048 ∧ 2 ≤ segmentSize ∧ segmentSize < 6
    ∨ 4096 ≤ grain ∧ segmentSize < wrapSize grain)

theorem SafeSize.pageSizes
    (h : SafeSize dev.grainSize segmentSize) (hpage : PageGrain dev.grainSize)
    (hlt : dev.grainSize < 2 ^ 32) :
  dev.PageSizes segmentSize
  := by
  by_cases hne : segmentSize = 0
  · subst hne
    apply pageSizes_zero hpage h.1 hlt
  · obtain ⟨-, hzero | ⟨hgrain, hge, hless⟩ | ⟨hgrain, hless⟩⟩ := h
    · contradiction
    · apply pageSizes_half_page hgrain hge hless
    · apply pageSizes_of_lt_wrapSize _ hne hless
      rcases hpage with hdvd | hdvd
      · rw [Nat.le_antisymm (Nat.le_of_dvd (by decide) hdvd) hgrain]
      · exact hdvd

/-- A size that is not safe fails, with grains of less than a page. -/
theorem fails_of_lt
    {i : Nat} (hi : i ≤ 11) (hne : segmentSize ≠ 0)
    (hother : ¬ (i = 11 ∧ 2 ≤ segmentSize ∧ segmentSize < 6)) :
  Fails (2 ^ i) segmentSize
  := by
  have hdvd : 2 ^ i ∣ 4096 := Nat.pow_dvd_pow 2 (show i ≤ 12 by omega)
  have hgrain : 0 < 2 ^ i := by positivity
  have hgrain_lt : 2 ^ i < 2 ^ 32 := Nat.pow_lt_pow_right (by decide) (by omega)
  by_cases hpage : segmentSize < 2 ^ (12 - i)
  · exact fails_of_lt_page hi hne hpage
  by_cases hwrap : wrapSize (2 ^ i) ≤ sanitize ⟨0, 2 ^ i⟩ segmentSize
  · exact fails_of_wrapSize_le (.inl hdvd) hgrain hgrain_lt hne hwrap
  have hwrap := Nat.lt_of_not_le hwrap
  have hpages : segmentSize / 2 ^ (12 - i) ≠ 0 :=
    (Nat.div_pos (Nat.le_of_not_lt hpage) (by positivity)).ne'
  by_cases hhalf : i = 11
  · subst hhalf
    have hge : 3 ≤ segmentSize / 2 := by
      simp only [true_and, not_and, not_lt, Nat.reduceSub, Nat.pow_one] at hother hpage
      omega
    obtain heven | hodd := Nat.even_or_odd (segmentSize / 2)
    · have hfour : 4 ≤ segmentSize / 2 := by
        obtain ⟨m, hm⟩ := heven
        omega
      have hseg : sanitize ⟨0, 2 ^ 11⟩ segmentSize = 2 * (segmentSize / 2) := by
        rw [sanitize_half_page rfl]
        omega
      rw [hseg] at hwrap
      have hsize := mul_lt_of_lt_wrapSize hdvd hwrap
      exact ⟨_, hsize, not_endsSoundly_of_even rfl rfl hsize hfour heven hne hseg⟩
    · apply fails_of_odd (j := 0) le_rfl hne hodd (Nat.one_mul _).symm _ hwrap
      have hmd : mdGrains (2 ^ 11) = 1 := by decide
      rw [hmd]
      omega
  · obtain ⟨j, m, hodd, hm⟩ := Nat.exists_eq_two_pow_mul_odd hpages
    apply fails_of_odd hi hne hodd hm _ hwrap
    apply lt_of_lt_of_le _ (Nat.le_mul_of_pos_left _ hodd.pos)
    interval_cases i <;> first | decide | contradiction

/-- A size is safe on every device exactly if the loop ends soundly on each. -/
theorem endsSoundly_iff_safeSize
    (hpage : PageGrain grain) (hlt : grain < 2 ^ 32) :
  (∀ size < 2 ^ 64, EndsSoundly ⟨size, grain⟩ segmentSize) ↔ SafeSize grain segmentSize
  := by
  constructor
  · intro h
    have hgrain : 0 < grain := (h 0 (by decide)).grainSize_pos
    have hnot : ¬ Fails grain segmentSize := by
      rintro ⟨size, hsize, hends⟩
      exact hends (h size hsize)
    refine ⟨hgrain, ?_⟩
    by_contra hother
    obtain ⟨hne, hhalf, hbig⟩ := by simpa only [not_or] using hother
    apply hnot
    by_cases hless : grain < 4096
    · have hdvd : grain ∣ 4096 :=
        hpage.resolve_right fun hdvd => absurd (Nat.le_of_dvd hgrain hdvd) (Nat.not_le_of_lt hless)
      obtain ⟨i, hi, rfl⟩ := exists_two_pow hdvd hless
      apply fails_of_lt hi hne
      rintro ⟨rfl, hrest⟩
      exact hhalf ⟨rfl, hrest⟩
    · have hge := Nat.le_of_not_lt hless
      apply fails_of_wrapSize_le hpage hgrain hlt hne
      have hseg : sanitize ⟨0, grain⟩ segmentSize = segmentSize := by
        simp only [sanitize, if_neg hless, Nat.div_one, Nat.mul_one]
        omega
      rw [hseg]
      exact Nat.le_of_not_lt fun hsmall => hbig ⟨hge, hsmall⟩
  · intro h size hsize
    apply (SafeSize.pageSizes h hpage hlt).endsSoundly hpage h.1 hsize

/-- The loop of a new store ends soundly on every device, whatever salsa makes of the sizes, exactly
for a safe size.  For another one, on a device where each of its halvings leaves a tail, it ends
soundly exactly if they are all in whole pages; and on any device only if those are that the loop
comes to before one that leaves no tail. -/
theorem chooseSegmentSize_sound_iff
    (grain segmentSize : Nat) (hpage : PageGrain grain) (hlt : grain < 2 ^ 32) :
  ((∀ size < 2 ^ 64, EndsSoundly ⟨size, grain⟩ segmentSize) ↔ SafeSize grain segmentSize)
  ∧ ∀ size < 2 ^ 64, segmentSize ≠ 0 →
    ((∀ k, Halving (sanitize ⟨size, grain⟩ segmentSize) k →
        hasTail ⟨size, grain⟩ (sanitize ⟨size, grain⟩ segmentSize / 2 ^ k) = true) →
      (EndsSoundly ⟨size, grain⟩ segmentSize ↔
        ∀ k, Halving (sanitize ⟨size, grain⟩ segmentSize) k →
          4096 ∣ sanitize ⟨size, grain⟩ segmentSize / 2 ^ k * grain))
    ∧ (EndsSoundly ⟨size, grain⟩ segmentSize → ∀ k,
      Halving (sanitize ⟨size, grain⟩ segmentSize) k →
      (∀ j ≤ k, hasTail ⟨size, grain⟩ (sanitize ⟨size, grain⟩ segmentSize / 2 ^ j) = true) →
      4096 ∣ sanitize ⟨size, grain⟩ segmentSize / 2 ^ k * grain)
  := by
  refine ⟨endsSoundly_iff_safeSize hpage hlt, fun size hsize hne => ⟨?_, ?_⟩⟩
  · exact endsSoundly_iff_of_tails hpage hsize hne
  · intro h k hk htails
    exact h.halving hne hk htails

/-- On a device of 16 segments of 8008 grains of 512 bytes and one grain, a size of 8008 grains that
salsa refuses is halved to one of 500 pages and a half; and a size of `2 ^ 55` grains has no bytes
to divide by. -/
theorem halved_size_not_pages :
  chooseSegmentSize ⟨(16 * 8008 + 1) * 512, 512⟩ (fun c => c.seg = 4004) false 3
      (firstCandidate ⟨(16 * 8008 + 1) * 512, 512⟩ 8008) = some (.accepted 4004)
    ∧ ¬ SoundChoice ⟨(16 * 8008 + 1) * 512, 512⟩ 8008 (.accepted 4004)
    ∧ chooseSegmentSize ⟨(16 * 8008 + 1) * 512, 512⟩ (fun _ => true) false 1
      (firstCandidate ⟨(16 * 8008 + 1) * 512, 512⟩ (2 ^ 55)) = some .trapped
  := by
  refine ⟨by decide, ?_, by decide⟩
  rintro ⟨-, hpages, -⟩
  revert hpages
  decide

/-- The default size, and one of 8008 grains of a page, where salsa takes segments of at most 3000
grains. -/
theorem default_size_sound :
  (∃ n choice,
    chooseSegmentSize ⟨(16 * 8008 + 1) * 512, 512⟩ (fun c => c.seg ≤ 3000) false n
        (firstCandidate ⟨(16 * 8008 + 1) * 512, 512⟩ 0) = some choice
      ∧ SoundChoice ⟨(16 * 8008 + 1) * 512, 512⟩ 0 choice)
  ∧ ∃ n choice,
    chooseSegmentSize ⟨(16 * 8008 + 1) * 4096, 4096⟩ (fun c => c.seg ≤ 3000) false n
        (firstCandidate ⟨(16 * 8008 + 1) * 4096, 4096⟩ 8008) = some choice
      ∧ SoundChoice ⟨(16 * 8008 + 1) * 4096, 4096⟩ 8008 choice
  := by
  constructor
  · have hiff := (chooseSegmentSize_sound_iff 512 0 (.inl (by decide)) (by decide)).1
    exact hiff.mpr ⟨by decide, .inl rfl⟩ _ (by decide) _
  · have hiff := (chooseSegmentSize_sound_iff 4096 8008 (.inl (by decide)) (by decide)).1
    exact hiff.mpr ⟨by decide, .inr (.inr ⟨by decide, by decide⟩)⟩ _ (by decide) _

end DeviceSize

end UDepot
