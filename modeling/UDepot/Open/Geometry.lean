import Mathlib.Algebra.Order.Group.Nat
import Mathlib.Tactic.Basic
import UDepot.Lib.Loop

/-!
# The geometry of a store

`open` finds the segment size: that of the store on the device, if the device metadata is
valid, and otherwise the configured one or the default.  It then tries sizes until salsa
(`Scm::init`) accepts one.  What salsa accepts is arbitrary here.
-/

namespace UDepot

/-- `align_up` of `store.cc`. -/
def alignUp (val align : Nat) : Nat := (val + align - 1) / align * align

theorem dvd_alignUp (val align : Nat) : align ∣ alignUp val align :=
  Nat.dvd_mul_left align _

theorem le_alignUp (val : Nat) {align : Nat} (hpos : 0 < align) : val ≤ alignUp val align := by
  have hlt := Nat.lt_div_mul_add (a := val + align - 1) hpos
  rw [alignUp]
  omega

theorem alignUp_lt (val : Nat) {align : Nat} (hpos : 0 < align) :
    alignUp val align < val + align := by
  have hle := Nat.div_mul_le_self (val + align - 1) align
  rw [alignUp]
  omega

theorem alignUp_mono {val val' : Nat} (align : Nat) (hle : val ≤ val') :
    alignUp val align ≤ alignUp val' align := by
  apply Nat.mul_le_mul_right
  apply Nat.div_le_div_right
  omega

/-- A multiple is aligned. -/
theorem alignUp_mul (n : Nat) {align : Nat} (hpos : 0 < align) :
    alignUp (n * align) align = n * align := by
  rw [alignUp, Nat.add_sub_assoc hpos, Nat.add_comm, Nat.add_mul_div_right _ _ hpos,
    Nat.div_eq_of_lt (Nat.sub_one_lt hpos.ne'), Nat.zero_add]

/-- The size of a `salsa_dev_md`. -/
def kDevMdBytes : Nat := 44

/-- The size of a `salsa_seg_md`. -/
def kSegMdBytes : Nat := 53

/-- The size of an index table's header and of its footer, `TableRegion::kMdBytes`. -/
def kIndexMdBytes : Nat := 512

structure StoreConfig where
  grainSize : Nat
  segmentSize : Nat
  overprovision : Nat
  forceDestroy : Bool
  deriving DecidableEq, Repr

/-- The device metadata, `salsa_dev_md`. -/
structure DevMd where
  physicalSize : Nat
  logicalSize : Nat
  segmentSize : Nat
  grainSize : Nat
  seed : Nat
  csum : Nat
  deriving DecidableEq, Repr

/-- The fields of `salsa_seg_md` its checksum covers, and the checksum. -/
structure RawSegMd where
  segmentSize : Nat
  grainSize : Nat
  timestamp : Nat
  seed : Nat
  ctlrType : Nat
  csum : Nat
  deriving DecidableEq, Repr

/-- The checksums of the metadata, as functions of the other fields. -/
structure Checksums where
  devMd : DevMd → Nat
  segMd : RawSegMd → Nat

/-- The segment size whose index table holds `tableBytes` of buckets. -/
def fittedSegmentSize (tableBytes grainSize : Nat) : Nat :=
  let mdBytes := alignUp kSegMdBytes grainSize
  let room := 2 * kIndexMdBytes + 32 * 8 + mdBytes
  let page := max 4096 grainSize
  alignUp (tableBytes + room) page / grainSize

/-- The default table, `2 ^ 29` bytes. -/
def kDefaultTable : Nat := 2 ^ 29

/-- A device of `size` bytes, in grains of `grainSize`. -/
structure DeviceSize where
  size : Nat
  grainSize : Nat

namespace DeviceSize

variable (dev : DeviceSize)

def totalGrains : Nat := dev.size / dev.grainSize

/-- The grain of the device metadata, in 64-bit arithmetic. -/
def devMdGrainOffset : Nat :=
  (dev.totalGrains + 2 ^ 64 - alignUp kDevMdBytes dev.grainSize / dev.grainSize) % 2 ^ 64

/-- The bytes of a segment, in 64-bit arithmetic.  `open` divides by them. -/
def segBytes (seg : Nat) : Nat := seg * dev.grainSize % 2 ^ 64

/-- Whether the device metadata lies past the last whole segment.  Where a segment has no bytes
`open` traps and this is not asked. -/
def hasTail (seg : Nat) : Bool :=
  let logical := dev.size / dev.segBytes seg * dev.segBytes seg
  let mdOff := dev.devMdGrainOffset * dev.grainSize % 2 ^ 64
  dev.segBytes seg ≠ 0 && mdOff ≠ 0 && logical ≤ mdOff

/-- A segment size in whole pages. -/
def sanitize (seg : Nat) : Nat :=
  let step := if dev.grainSize < 4096 then 4096 / dev.grainSize else 1
  max 1 (seg / step * step)

theorem sanitize_le {seg : Nat} (hpos : 0 < seg) : dev.sanitize seg ≤ seg := by
  apply max_le hpos (Nat.div_mul_le_self _ _)

/-- The size with the least waste among the sanitized ones from `ns` down to above `half`, if it
wastes less than `minWaste`, and otherwise `best`.  `none` is a division by zero. -/
def leastWaste (half ns best minWaste : Nat) : Option Nat :=
  if half < ns then
    let segBytes := dev.segBytes ns
    if segBytes = 0 then none
    else
      let net := (dev.size + 2 ^ 64 - dev.grainSize) % 2 ^ 64
      let waste := net - net / segBytes * segBytes
      let best := if waste < minWaste then ns else best
      let minWaste := if waste < minWaste then waste else minWaste
      if ns = 1 then some best
      else leastWaste half (dev.sanitize (ns - 1)) best minWaste
  else some best
termination_by ns
decreasing_by
  have hle := dev.sanitize_le (show 0 < ns - 1 by omega)
  omega

end DeviceSize

/-- A size the loop of `open` tries.  `fittedTable` is the table it is fitted to, 0 if it is not a
fitted one. -/
structure Candidate where
  seg : Nat
  fittedTable : Nat
  deriving DecidableEq, Repr

/-- How the loop of `open` ends: with a size that salsa accepted, with `-EINVAL`, or with a
division by zero. -/
inductive Choice where
  | accepted (seg : Nat)
  | refused
  | trapped
  deriving DecidableEq, Repr

/-- The accepted size. -/
def Choice.size : Choice → Option Nat
  | accepted seg => some seg
  | refused | trapped => none

/-- What a round of the loop does. -/
abbrev Round := Loop.Turn Candidate Choice

namespace DeviceSize

variable (dev : DeviceSize)

/-- The next smaller fitted size. -/
def nextFitted (fittedTable : Nat) : Nat :=
  if 4096 ≤ fittedTable / 2 then fittedSegmentSize (fittedTable / 2) dev.grainSize else 0

/-- A smaller fitted size, if there is one. -/
def refit (fittedTable : Nat) : Round :=
  if dev.nextFitted fittedTable ≤ 1 then .done .refused
  else .again ⟨dev.nextFitted fittedTable, fittedTable / 2⟩

/-- What follows on a size that leaves no tail. -/
def noTail (restored : Bool) (c : Candidate) : Round :=
  if restored then .done .refused
  else if c.fittedTable ≠ 0 then dev.refit c.fittedTable
  else match dev.leastWaste (c.seg / 2) (dev.sanitize (c.seg - 1)) 0 (2 ^ 64 - 1) with
    | none => .done .trapped
    | some best =>
        if best = 0 ∨ c.seg ≤ best then .done .refused
        else .again ⟨best, 0⟩

/-- What follows on a size that salsa refuses. -/
def afterRefusal (c : Candidate) : Round :=
  if c.fittedTable ≠ 0 then dev.refit c.fittedTable
  else if c.seg / 2 ≤ 1 then .done .refused
  else .again ⟨c.seg / 2, 0⟩

/-- A round of the loop. -/
def round (accept : Candidate → Bool) (restored : Bool) (c : Candidate) : Round :=
  if dev.segBytes c.seg = 0 then .done .trapped
  else if !dev.hasTail c.seg then dev.noTail restored c
  else if accept c then .done (.accepted c.seg)
  else dev.afterRefusal c

/-- The loop over segment sizes, in less than `n` rounds.  No two rounds try the same candidate,
so a function of it is as general as any verdict of salsa. -/
def chooseSegmentSize (accept : Candidate → Bool) (restored : Bool) (n : Nat) (c : Candidate) :
    Option Choice :=
  Loop.run (dev.round accept restored) n c

/-- The first candidate of a new store. -/
def firstCandidate (segmentSize : Nat) : Candidate :=
  if segmentSize = 0 then
    ⟨dev.sanitize (fittedSegmentSize kDefaultTable dev.grainSize), kDefaultTable⟩
  else ⟨dev.sanitize segmentSize, 0⟩

end DeviceSize

/-! ### Opening a device -/

/-- Whether device metadata is that of a store with this grain and device size. -/
def validateDevMd (cs : Checksums) (dev : DeviceSize) (md : DevMd) : Bool :=
  md.csum == cs.devMd md && md.grainSize == dev.grainSize
    && md.physicalSize == dev.totalGrains * dev.grainSize

/-- Whether segment metadata is that of a segment of the running store. -/
def validateSegMd (cs : Checksums) (seed segSize grainSize : Nat) (md : RawSegMd) : Bool :=
  md.seed == seed && md.segmentSize == segSize && md.grainSize == grainSize
    && md.csum == cs.segMd md

/-- What an open store runs with. -/
structure Running where
  segmentSize : Nat
  seed : Nat
  restored : Bool
  deriving DecidableEq, Repr

/-- What `open` depends on besides the configuration: the device and the metadata read from it,
the seed drawn for a new store, the sizes `Scm::init` accepts, and whether the steps after it
succeed with a given size. -/
structure OpenEnv where
  checksums : Checksums
  deviceBytes : Nat
  devMd : Option DevMd
  newSeed : Nat
  accept : Nat → Bool
  later : Nat → Bool

def OpenEnv.dev (env : OpenEnv) (config : StoreConfig) : DeviceSize :=
  ⟨env.deviceBytes, config.grainSize⟩

/-- The metadata of the store on the device, if there is one and it is to be kept. -/
def OpenEnv.storedMd (env : OpenEnv) (config : StoreConfig) : Option DevMd :=
  if config.forceDestroy then none
  else env.devMd.filter (validateDevMd env.checksums (env.dev config))

/-- The first candidate of the loop. -/
def OpenEnv.candidate (env : OpenEnv) (config : StoreConfig) : Candidate :=
  match env.storedMd config with
  | some md =>
      if md.segmentSize = 0 then
        ⟨fittedSegmentSize kDefaultTable config.grainSize, kDefaultTable⟩
      else ⟨md.segmentSize, 0⟩
  | none => (env.dev config).firstCandidate config.segmentSize

/-- The segment size `open` settles on. -/
def OpenEnv.chosen (env : OpenEnv) (config : StoreConfig) : Option Nat :=
  ((env.dev config).chooseSegmentSize (fun c => env.accept c.seg) (env.storedMd config).isSome
    ((env.candidate config).seg + 32) (env.candidate config)).bind Choice.size

def openStore (env : OpenEnv) (config : StoreConfig) : Option Running :=
  ((env.chosen config).filter env.later).map fun s =>
    ⟨s, (env.storedMd config).elim env.newSeed DevMd.seed, (env.storedMd config).isSome⟩

/-! ### Reopening a store -/

/-- The halvings of a recorded size that the loop gets to: each before was refused and left a
tail. -/
def HalvedTo (dev : DeviceSize) (accept : Nat → Bool) (size k : Nat) : Prop :=
  (∀ j < k, dev.hasTail (size / 2 ^ j) = true ∧ accept (size / 2 ^ j) = false)
    ∧ (0 < k → 1 < size / 2 ^ k) ∧ dev.hasTail (size / 2 ^ k) = true
    ∧ accept (size / 2 ^ k) = true

theorem div_two_pow_succ (size j : Nat) : size / 2 ^ (j + 1) = size / 2 / 2 ^ j := by
  rw [Nat.div_div_eq_div_mul, Nat.pow_succ']

theorem halvedTo_zero
    {dev : DeviceSize} {accept : Nat → Bool} {size : Nat} :
  HalvedTo dev accept size 0 ↔ dev.hasTail size = true ∧ accept size = true
  := by
  simp [HalvedTo]

/-- The first halving. -/
theorem halvedTo_succ
    {dev : DeviceSize} {accept : Nat → Bool} {size k : Nat} :
  HalvedTo dev accept size (k + 1) ↔
    dev.hasTail size = true ∧ accept size = false ∧ 1 < size / 2
      ∧ HalvedTo dev accept (size / 2) k
  := by
  constructor
  · rintro ⟨hall, hlt, htail, hacc⟩
    obtain ⟨ht₀, ha₀⟩ := hall 0 (Nat.succ_pos k)
    rw [Nat.pow_zero, Nat.div_one] at ht₀ ha₀
    have hlt := hlt (Nat.succ_pos k)
    rw [div_two_pow_succ] at hlt htail hacc
    refine ⟨ht₀, ha₀, lt_of_lt_of_le hlt (Nat.div_le_self _ _), ?_, fun _ => hlt, htail, hacc⟩
    intro j hj
    rw [← div_two_pow_succ]
    apply hall (j + 1) (Nat.succ_lt_succ hj)
  · rintro ⟨ht₀, ha₀, hlt₀, hall, hlt, htail, hacc⟩
    unfold HalvedTo
    rw [div_two_pow_succ]
    refine ⟨?_, ?_, htail, hacc⟩
    · rintro (_ | j) hj
      · rw [Nat.pow_zero, Nat.div_one]
        exact ⟨ht₀, ha₀⟩
      · rw [div_two_pow_succ]
        apply hall j (Nat.lt_of_succ_lt_succ hj)
    · intro _
      obtain rfl | hk := Nat.eq_zero_or_pos k
      · simpa using hlt₀
      · apply hlt hk

theorem Choice.size_eq_some {c : Choice} {seg : Nat} :
    c.size = some seg ↔ c = .accepted seg := by
  cases c <;> simp [size]

namespace DeviceSize

variable {dev : DeviceSize} {accept : Candidate → Bool} {restored : Bool} {c : Candidate}

theorem segBytes_ne_zero {seg : Nat} (h : dev.hasTail seg = true) : dev.segBytes seg ≠ 0 := by
  rw [hasTail, Bool.and_eq_true, Bool.and_eq_true] at h
  exact of_decide_eq_true h.1.1

/-- A round with a size that leaves a tail asks salsa. -/
theorem round_of_hasTail (h : dev.hasTail c.seg = true) :
    dev.round accept restored c
      = if accept c then .done (.accepted c.seg) else dev.afterRefusal c := by
  rw [round, if_neg (segBytes_ne_zero h), h]
  rfl

/-- A round of a restored store with a size that leaves no tail is the last. -/
theorem round_restored_of_not_hasTail (h : dev.hasTail c.seg = false) :
    dev.round accept true c = .done .trapped ∨ dev.round accept true c = .done .refused := by
  rw [round, h]
  split
  · left
    rfl
  · right
    rfl

end DeviceSize

/-- On a restored store the loop halves the recorded size until salsa accepts it. -/
theorem chooseSegmentSize_restored
    {dev : DeviceSize} {accept : Nat → Bool} :
  ∀ {n seg s : Nat}, seg < n →
    (dev.chooseSegmentSize (fun c => accept c.seg) true n ⟨seg, 0⟩ = some (.accepted s) ↔
      ∃ k, HalvedTo dev accept seg k ∧ s = seg / 2 ^ k)
  | n + 1, seg, s, hn => by
      have hsplit : (∃ k, HalvedTo dev accept seg k ∧ s = seg / 2 ^ k) ↔
          (dev.hasTail seg = true ∧ accept seg = true ∧ s = seg)
          ∨ (dev.hasTail seg = true ∧ accept seg = false ∧ 1 < seg / 2
            ∧ ∃ k, HalvedTo dev accept (seg / 2) k ∧ s = seg / 2 / 2 ^ k) := by
        constructor
        · rintro ⟨_ | k, hk, rfl⟩
          · obtain ⟨ht, ha⟩ := halvedTo_zero.mp hk
            left
            exact ⟨ht, ha, by simp⟩
          · obtain ⟨ht, ha, hlt, hk⟩ := halvedTo_succ.mp hk
            right
            exact ⟨ht, ha, hlt, k, hk, div_two_pow_succ seg k⟩
        · rintro (⟨ht, ha, rfl⟩ | ⟨ht, ha, hlt, k, hk, rfl⟩)
          · exact ⟨0, halvedTo_zero.mpr ⟨ht, ha⟩, by simp⟩
          · exact ⟨k + 1, halvedTo_succ.mpr ⟨ht, ha, hlt, hk⟩, (div_two_pow_succ seg k).symm⟩
      rw [hsplit, DeviceSize.chooseSegmentSize, Loop.run]
      cases ht : dev.hasTail seg with
      | false =>
          have hlast : dev.round (fun c => accept c.seg) true ⟨seg, 0⟩ = .done .trapped ∨ _ :=
            DeviceSize.round_restored_of_not_hasTail ht
          rcases hlast with h | h
          · rw [h]
            simp
          · rw [h]
            simp
      | true =>
          rw [DeviceSize.round_of_hasTail ht]
          cases ha : accept seg with
          | true => simp [eq_comm]
          | false =>
              rw [DeviceSize.afterRefusal]
              by_cases hsmall : seg / 2 ≤ 1
              · simp [hsmall]
              · simp only [Bool.false_eq_true, if_false, ne_eq, not_true_eq_false,
                  hsmall, false_and, and_false, true_and, false_or, Nat.lt_of_not_le hsmall]
                apply chooseSegmentSize_restored
                omega

/-- Whether metadata is valid for a store is decided by what it records. -/
theorem storedMd_eq_some
    {env : OpenEnv} {config : StoreConfig} {md : DevMd} (hdestroy : config.forceDestroy = false)
    (hmd : env.devMd = some md)
    (hvalid : validateDevMd env.checksums (env.dev config) md = true) :
  env.storedMd config = some md
  := by
  rw [OpenEnv.storedMd, hdestroy, hmd]
  simp [hvalid]

/-- Reopening a store ends with a halving of the recorded size that salsa accepts. -/
theorem openStore_restored
    {env : OpenEnv} {config : StoreConfig} {md : DevMd} (hdestroy : config.forceDestroy = false)
    (hmd : env.devMd = some md)
    (hvalid : validateDevMd env.checksums (env.dev config) md = true) (hpos : 0 < md.segmentSize)
    {r : Running} :
  openStore env config = some r ↔
    ∃ k, HalvedTo (env.dev config) env.accept md.segmentSize k
      ∧ env.later (md.segmentSize / 2 ^ k) = true
      ∧ r = ⟨md.segmentSize / 2 ^ k, md.seed, true⟩
  := by
  have hstored := storedMd_eq_some hdestroy hmd hvalid
  have hcand : env.candidate config = ⟨md.segmentSize, 0⟩ := by
    rw [OpenEnv.candidate, hstored]
    simp only [hpos.ne', if_false]
  have hchosen : ∀ s, env.chosen config = some s ↔
      ∃ k, HalvedTo (env.dev config) env.accept md.segmentSize k
        ∧ s = md.segmentSize / 2 ^ k := by
    intro s
    have hrounds : md.segmentSize < md.segmentSize + 32 := by omega
    rw [OpenEnv.chosen, hstored, hcand, ← chooseSegmentSize_restored hrounds,
      Option.bind_eq_some_iff]
    simp [Choice.size_eq_some]
  rw [openStore, hstored, Option.map_eq_some_iff]
  constructor
  · rintro ⟨s, hs, rfl⟩
    obtain ⟨hs, hlater⟩ := Option.filter_eq_some_iff.mp hs
    obtain ⟨k, hk, rfl⟩ := (hchosen s).mp hs
    exact ⟨k, hk, hlater, rfl⟩
  · rintro ⟨k, hk, hlater, rfl⟩
    refine ⟨md.segmentSize / 2 ^ k, ?_, rfl⟩
    exact Option.filter_eq_some_iff.mpr ⟨(hchosen _).mpr ⟨k, hk, rfl⟩, hlater⟩

/-- A reopened store keeps its geometry exactly if salsa does not refuse the recorded size and
then accept a halving of it that every earlier round left a tail for. -/
theorem openStore_keeps_geometry_iff
    (env : OpenEnv) (config : StoreConfig) (md : DevMd) (hdestroy : config.forceDestroy = false)
    (hmd : env.devMd = some md)
    (hvalid : validateDevMd env.checksums (env.dev config) md = true)
    (hpos : 0 < md.segmentSize) :
  (∀ r, openStore env config = some r →
    r.segmentSize = md.segmentSize ∧ r.seed = md.seed
      ∧ ∀ smd, validateSegMd env.checksums md.seed md.segmentSize config.grainSize smd = true →
        validateSegMd env.checksums r.seed r.segmentSize config.grainSize smd = true)
  ↔ ¬ ∃ k, 0 < k ∧ HalvedTo (env.dev config) env.accept md.segmentSize k
    ∧ env.later (md.segmentSize / 2 ^ k) = true
  := by
  constructor
  · rintro hkeeps ⟨k, hk, hhalved, hlater⟩
    have hopen := (openStore_restored hdestroy hmd hvalid hpos).mpr ⟨k, hhalved, hlater, rfl⟩
    obtain ⟨hsize, -⟩ := hkeeps _ hopen
    have hlt : md.segmentSize / 2 ^ k < md.segmentSize :=
      Nat.div_lt_self hpos (Nat.one_lt_two_pow hk.ne')
    simp only at hsize
    omega
  · intro hno r hopen
    obtain ⟨k, hhalved, hlater, rfl⟩ := (openStore_restored hdestroy hmd hvalid hpos).mp hopen
    obtain rfl | hk := Nat.eq_zero_or_pos k
    · rw [Nat.pow_zero, Nat.div_one]
      exact ⟨rfl, rfl, fun _ h => h⟩
    · exact absurd ⟨k, hk, hhalved, hlater⟩ hno

/-- A store with segments of eight grains on a device of seventeen. -/
def eightGrainStore : OpenEnv where
  checksums := ⟨fun _ => 0, fun _ => 0⟩
  deviceBytes := 17 * 4096
  devMd := some ⟨17 * 4096, 17 * 4096, 8, 4096, 7, 0⟩
  newSeed := 1
  accept := fun seg => seg ≤ 4
  later := fun _ => true

/-- If salsa refuses segments of eight grains and accepts segments of four, reopening the store
runs it with segments of four, and its segments are no longer recognised. -/
theorem eightGrainStore_halved :
  ∃ md, eightGrainStore.devMd = some md
    ∧ validateDevMd eightGrainStore.checksums ⟨17 * 4096, 4096⟩ md = true
    ∧ openStore eightGrainStore ⟨4096, 0, 200, false⟩ = some ⟨4, md.seed, true⟩
    ∧ md.segmentSize = 8
    ∧ validateSegMd eightGrainStore.checksums md.seed 8 4096 ⟨8, 4096, 1, 7, 0, 0⟩ = true
    ∧ validateSegMd eightGrainStore.checksums md.seed 4 4096 ⟨8, 4096, 1, 7, 0, 0⟩ = false
  := by
  refine ⟨⟨17 * 4096, 17 * 4096, 8, 4096, 7, 0⟩, rfl, ?_⟩
  decide

/-- The geometry is kept when salsa accepts the recorded size. -/
theorem eightGrainStore_kept :
  ∃ r, openStore { eightGrainStore with accept := fun _ => true } ⟨4096, 0, 200, false⟩ = some r
    ∧ r.segmentSize = 8
  := by
  have hopen : openStore { eightGrainStore with accept := fun _ => true } ⟨4096, 0, 200, false⟩
      = some ⟨8, 7, true⟩ := by decide
  have hkeeps := openStore_keeps_geometry_iff { eightGrainStore with accept := fun _ => true }
    ⟨4096, 0, 200, false⟩ ⟨17 * 4096, 17 * 4096, 8, 4096, 7, 0⟩ rfl rfl (by decide) (by decide)
  refine ⟨_, hopen, (hkeeps.mpr ?_ _ hopen).1⟩
  rintro ⟨k, hk, ⟨hall, -⟩, -⟩
  have h₀ := (hall 0 hk).2
  cases h₀

end UDepot
