import UDepot.Store.Frame

/-!
# Ranges, records and read sections

An actor is handed ranges, writes records in them, and invalidates and releases them.  Ranges are
disjoint, so a write in a range of one's own harms no record that another range holds; in
particular none that an entry points at and none that a read section has loaded.
-/

namespace UDepot

variable {env : StoreEnv} {c c' : Core}

/-- Addresses in different segments are apart. -/
theorem Geometry.apart
    (geo : Geometry) {p q len : Nat} (hfits : p + len ≤ geo.segBase (geo.segOf p) + geo.dataGrains)
    (hlt : geo.segOf p < geo.segOf q) :
  p + len ≤ q
  := by
  obtain ⟨k, -, hq⟩ := geo.exists_place q
  have hle : geo.segBase (geo.segOf p) + geo.segSize ≤ geo.segBase (geo.segOf q) := by
    rw [segBase, segBase, ← Nat.succ_mul]
    apply Nat.mul_le_mul_right _ hlt
  have hdata : geo.dataGrains ≤ geo.segSize := Nat.sub_le _ _
  omega

namespace Core.Inv

variable (h : c.Inv env)

include h

/-! ### Read sections -/

/-- Only the read sections of `b`, the state of a grow and the tombstones dropped change. -/
theorem setSections
    {secs : List ReadSection} {n : Nat} {g : GrowPhase} {d : List Commit} (lock : Option Nat)
    {b : Option Actor} (hsecs : ∀ s ∈ c.sections, b ≠ some s.2 → s ∈ secs)
    (hgrow : ∀ {waits}, g = .freezing waits → c.curSnap.tableBits < kMaxTableBits) :
  Frame env c { c with sections := secs, nextSection := n, grow := g, dropped := d } lock b
  where
  inv := ⟨h.segs, h.recs, h.ranges, h.life, h.commits, h.dir, hgrow⟩
  current := fun _ hc => hc
  ahead := fun ha => ha.of_segs rfl fun hrg hrel => ⟨_, hrg, hrel⟩
  around := fun ha => ha.of_segs rfl fun hr => .inl hr
  loaded := fun _ _ _ _ hl => ⟨hl.current, hl.protects⟩
  snaps := fun _ _ _ hl => ⟨hl.le, hl.wf, hl.bits, fun hx => by
    obtain ⟨r, hr, hitem⟩ := hl.loaded hx
    exact ⟨r, ⟨hr.current, hr.protects⟩, hitem⟩⟩
  tokens := fun a ha => .of_same rfl rfl rfl fun s hs hsa => hsecs s hs (hsa ▸ ha)
  victim := fun _ => .of_same rfl rfl rfl

theorem enter (a : Actor) (lock : Option Nat) (b : Option Actor) :
    Frame env c (c.enter a).1 lock b :=
  h.setSections lock (fun _ hs _ => List.mem_cons_of_mem _ hs) h.grow

theorem leave (s : ReadSection) (lock : Option Nat) : Frame env c (c.leave s) lock (some s.2) := by
  refine h.setSections lock ?_ h.grow
  intro s' hs' hne
  apply (List.mem_erase_of_ne _).mpr hs'
  rintro rfl
  exact hne rfl

end Core.Inv

/-! ### Giving up a range -/

/-- What an actor may do to a range: it keeps its length, and the holder and the user of others
stay. -/
structure RangeStep (env : StoreEnv) (c : Core) (b : Option Actor) (p : Nat)
    (f : GrainRange → GrainRange) : Prop where
  len : ∀ rg, (f rg).len = rg.len
  released : ∀ rg, (f rg).released = false → rg.released = false
  deferred : ∀ {rg waits}, c.ranges p = some rg → c.phase (env.geo.segOf p) = .deferred waits →
    (f rg).holder = .nobody
  writer : ∀ {rg a}, c.ranges p = some rg → (f rg).holder = .writer a → rg.holder = .writer a
  entry : ∀ {rg x}, c.ranges p = some rg → x ∈ c.curSnap.items → x.2.pba = p →
    rg.holder = .entry → (f rg).holder = .entry
  used : ∀ {rg}, c.ranges p = some rg → b ≠ some rg.user → rg.released = false →
    (f rg).user = rg.user ∧ (f rg).released = false
  held : ∀ {rg a}, c.ranges p = some rg → b ≠ some a →
    rg.holder = .writer a ∨ rg.holder = .remover a → (f rg).holder = rg.holder

namespace RangeStep

variable {b : Option Actor} {p : Nat} {f : GrainRange → GrainRange}
    (hf : RangeStep env c b p f)

/-- A range after the step, from the one before. -/
theorem exists_after {q : Nat} {rg : GrainRange} (hrg : c.ranges q = some rg) :
    ∃ rg', (c.mapRange p f).ranges q = some rg'
      ∧ (q = p ∧ rg' = f rg ∨ q ≠ p ∧ rg' = rg) := by
  by_cases hq : q = p
  · subst hq
    use f rg
    simp [Core.mapRange, hrg]
  · use rg
    simp [Core.mapRange, hq, hrg]

/-- A range before the step, from the one after. -/
theorem exists_before {q : Nat} {rg' : GrainRange}
    (hrg : (c.mapRange p f).ranges q = some rg') :
    ∃ rg, c.ranges q = some rg ∧ (q = p ∧ rg' = f rg ∨ q ≠ p ∧ rg' = rg) := by
  by_cases hq : q = p
  · subst hq
    simp only [Core.mapRange, Function.update_self, Option.map_eq_some_iff] at hrg
    obtain ⟨rg, hrg, rfl⟩ := hrg
    exact ⟨rg, hrg, .inl ⟨rfl, rfl⟩⟩
  · simp only [Core.mapRange, Function.update_of_ne hq] at hrg
    exact ⟨rg', hrg, .inr ⟨hq, rfl⟩⟩

include hf

theorem exists_before_len {q : Nat} {rg' : GrainRange}
    (hrg : (c.mapRange p f).ranges q = some rg') :
    ∃ rg, c.ranges q = some rg ∧ rg.len = rg'.len
      ∧ (rg'.released = false → rg.released = false) := by
  obtain ⟨rg, hrg₀, ⟨-, rfl⟩ | ⟨-, rfl⟩⟩ := exists_before hrg
  · exact ⟨rg, hrg₀, (hf.len rg).symm, hf.released rg⟩
  · exact ⟨rg', hrg₀, rfl, fun hrel => hrel⟩

theorem exists_after_len {q len : Nat} (hrg : ∃ rg, c.ranges q = some rg ∧ rg.len = len) :
    ∃ rg, (c.mapRange p f).ranges q = some rg ∧ rg.len = len := by
  obtain ⟨rg, hrg, rfl⟩ := hrg
  obtain ⟨rg', hrg', ⟨-, rfl⟩ | ⟨-, rfl⟩⟩ := exists_after (p := p) (f := f) hrg
  · exact ⟨f rg, hrg', hf.len rg⟩
  · exact ⟨rg', hrg', rfl⟩

theorem current
    {q : Nat} {r : Rec} (hc : Current env.geo c.toSegTable c.recs c.ranges c.committed q r) :
  Current env.geo c.toSegTable c.recs (c.mapRange p f).ranges c.committed q r
  :=
  ⟨hc.record, hf.exists_after_len hc.range, hc.timestamp, hc.mdOk, hc.committed⟩

theorem inv (h : c.Inv env) : (c.mapRange p f).Inv env where
  segs := h.segs
  recs := h.recs
  ranges := by
    constructor
    · intro q rg hrg
      obtain ⟨rg, hrg, -⟩ := exists_before hrg
      apply h.ranges.ranged hrg
    · intro q rg' hrg
      obtain ⟨rg, hrg, hlen, -⟩ := hf.exists_before_len hrg
      rw [← hlen]
      apply h.ranges.pos hrg
    · intro q rg' hrg
      obtain ⟨rg, hrg, hlen, -⟩ := hf.exists_before_len hrg
      rw [← hlen]
      apply h.ranges.fits hrg
    · exact h.ranges.opened
    · intro q rg' stream next hrg
      obtain ⟨rg, hrg, hlen, -⟩ := hf.exists_before_len hrg
      rw [← hlen]
      apply h.ranges.below hrg
    · intro q q' rg rg' hrg hrg'
      obtain ⟨rg₀, hrg, hlen, -⟩ := hf.exists_before_len hrg
      obtain ⟨rg₀', hrg', -⟩ := exists_before hrg'
      rw [← hlen]
      apply h.ranges.disjoint hrg hrg'
    · intro q rg' hrg hrel
      obtain ⟨rg, hrg, -, hrel'⟩ := hf.exists_before_len hrg
      apply h.ranges.unreleased hrg (hrel' hrel)
    · intro q rg' waits hrg hph
      obtain ⟨rg, hrg₀, ⟨rfl, rfl⟩ | ⟨-, rfl⟩⟩ := exists_before hrg
      · apply hf.deferred hrg₀ hph
      · apply h.ranges.invalid hrg₀ hph
  life := fun hr hranged hok hts => hf.exists_after_len (h.life hr hranged hok hts)
  commits := by
    refine ⟨h.commits.counted, h.commits.fresh, ?_⟩
    intro x hx hranged hok hts
    obtain ⟨rg, hrg, hne⟩ := h.commits.range hx hranged hok hts
    obtain ⟨rg', hrg', ⟨hp, rfl⟩ | ⟨-, rfl⟩⟩ := exists_after (p := p) (f := f) hrg
    · use f rg, hrg'
      intro a ha
      rw [hp] at hrg
      apply hne a (hf.writer hrg ha)
    · exact ⟨rg', hrg', hne⟩
  dir := by
    refine ⟨h.dir.wf, h.dir.bits, ?_, h.dir.pbas, h.dir.keys⟩
    intro x hx
    obtain ⟨r, hr⟩ := h.dir.pointed hx
    refine ⟨r, hf.current hr.current, hr.item, hr.inUse, ?_⟩
    obtain ⟨rg, hrg, hheld⟩ := hr.held
    obtain ⟨rg', hrg', ⟨hp, rfl⟩ | ⟨-, rfl⟩⟩ := exists_after (p := p) (f := f) hrg
    · rw [hp] at hrg
      exact ⟨f rg, hrg', hf.entry hrg hx hp hheld⟩
    · exact ⟨rg', hrg', hheld⟩
  grow := h.grow

theorem tokens {a : Actor} (ha : b ≠ some a) : Tokens env c (c.mapRange p f) a where
  sections := fun _ hs _ => hs
  owned := fun {q len} ho => by
    obtain ⟨rg', hrg', ⟨rfl, rfl⟩ | ⟨-, rfl⟩⟩ := exists_after (p := p) (f := f) ho
    · obtain ⟨huser, hrel⟩ := hf.used ho ha rfl
      have hheld := hf.held ho ha (.inl rfl)
      have hlen := hf.len ⟨len, false, a, .writer a⟩
      rw [Owned, hrg']
      cases hfr : f ⟨len, false, a, .writer a⟩
      simp_all
    · apply hrg'
  arrays := fun _ => ⟨rfl, rfl⟩
  written := fun _ hr => hr
  unreleased := fun {q len} hu => by
    obtain ⟨hh, hu⟩ := hu
    obtain ⟨rg', hrg', ⟨rfl, rfl⟩ | ⟨-, rfl⟩⟩ := exists_after (p := p) (f := f) hu
    · obtain ⟨huser, hrel⟩ := hf.used hu ha rfl
      have hlen := hf.len ⟨len, false, a, hh⟩
      use (f ⟨len, false, a, hh⟩).holder
      rw [hrg']
      cases hfr : f ⟨len, false, a, hh⟩
      simp_all
    · exact ⟨hh, hrg'⟩
  toInvalidate := fun s _ hsa {q len} hi => by
    obtain ⟨rg, hrg, hlen, hheld⟩ := hi.range
    refine ⟨?_, hi.keeps⟩
    obtain ⟨rg', hrg', ⟨rfl, rfl⟩ | ⟨-, rfl⟩⟩ := exists_after (p := p) (f := f) hrg
    · refine ⟨f rg, hrg', (hf.len rg).trans hlen, ?_⟩
      rw [hf.held hrg (hsa ▸ ha) hheld]
      apply hheld
    · exact ⟨rg', hrg', hlen, hheld⟩

theorem frame (h : c.Inv env) (lock : Option Nat) : Frame env c (c.mapRange p f) lock b where
  inv := hf.inv h
  current := fun _ hc => hf.current hc
  ahead := fun ha => ha.of_segs rfl fun hrg hrel => by
    obtain ⟨rg', hrg', -, hrel'⟩ := hf.exists_before_len hrg
    exact ⟨rg', hrg', hrel' hrel⟩
  around := fun ha => ha.of_segs rfl fun hr => .inl hr
  loaded := fun _ _ _ _ hl => ⟨hf.current hl.current, hl.protects⟩
  snaps := fun _ _ _ hl => ⟨hl.le, hl.wf, hl.bits, fun hx => by
    obtain ⟨r, hr, hitem⟩ := hl.loaded hx
    exact ⟨r, ⟨hf.current hr.current, hr.protects⟩, hitem⟩⟩
  tokens := fun _ ha => hf.tokens ha
  victim := fun _ => .of_same rfl rfl rfl

end RangeStep

namespace Core.Inv

variable (h : c.Inv env)

include h

theorem release {a : Actor} {p len : Nat} (hu : Unreleased c a p len) (lock : Option Nat) :
    Frame env c (c.release p) lock (some a) := by
  obtain ⟨hh, hu⟩ := hu
  refine RangeStep.frame ?_ h lock
  constructor
  · intro rg
    rfl
  · intro rg hrel
    cases hrel
  · intro rg waits hrg hph
    apply h.ranges.invalid hrg hph
  · intro rg a _ hheld
    apply hheld
  · intro rg x _ _ _ hheld
    apply hheld
  · intro rg hrg hne
    rw [hu] at hrg
    cases hrg
    exact absurd rfl hne
  · intro rg a _ _ _
    rfl

theorem invalidate
    {s : ReadSection} {p len : Nat} (hi : ToInvalidate env c s p len) (lock : Option Nat) :
  Frame env c (c.invalidate p) lock (some s.2)
  := by
  obtain ⟨rg₀, hrg₀, -, hheld₀⟩ := hi.range
  refine RangeStep.frame ?_ h lock
  constructor
  · intro rg
    rfl
  · intro rg hrel
    apply hrel
  · intro rg waits hrg hph
    rfl
  · intro rg a _ hheld
    cases hheld
  · intro rg x hrg _ _ hheld
    rw [hrg₀] at hrg
    cases hrg
    rw [hheld] at hheld₀
    simp at hheld₀
  · intro rg _ _ hrel
    exact ⟨rfl, hrel⟩
  · intro rg a hrg hne hheld
    rw [hrg₀] at hrg
    cases hrg
    exfalso
    apply hne
    obtain hheld₀ | hheld₀ := hheld₀ <;> rw [hheld₀] at hheld <;> simpa using hheld

end Core.Inv

/-! ### Allocation -/

/-- An allocation is in an opened segment, at the end of the ranges handed out there. -/
structure Allocates (env : StoreEnv) (c c' : Core) (a : Actor) (stream : Stream)
    (seg len pos : Nat) : Prop where
  opened : c.phase seg = .opened stream pos
  nonempty : 0 < len
  fits : pos + len ≤ env.geo.segBase seg + env.geo.dataGrains
  after : c' = { c with
    phase := Function.update c.phase seg (.opened stream (pos + len))
    ranges := Function.update c.ranges pos (some ⟨len, false, a, .writer a⟩) }

theorem Core.allocate_spec
    {a : Actor} {stream : Stream} {seg len pos : Nat}
    (hs : c.allocate env.geo a stream seg len = some (c', pos)) :
  Allocates env c c' a stream seg len pos
  := by
  rw [Core.allocate] at hs
  split at hs
  · rename_i stream' pos' hph
    obtain ⟨⟨rfl, hpos, hfits⟩, ⟨⟩⟩ := Option.ite_none_right_eq_some.mp hs
    exact ⟨hph, hpos, hfits, rfl⟩
  · cases hs

namespace Allocates

variable {a : Actor} {stream : Stream} {seg len pos : Nat}
    (hs : Allocates env c c' a stream seg len pos) (h : c.Inv env)

include hs

/-- A range after an allocation is the new one or was there. -/
theorem ranges_before {p : Nat} {rg : GrainRange} (hrg : c'.ranges p = some rg) :
    p = pos ∧ rg = ⟨len, false, a, .writer a⟩ ∨ p ≠ pos ∧ c.ranges p = some rg := by
  rw [hs.after] at hrg
  by_cases hp : p = pos
  · subst hp
    simp only [Function.update_self] at hrg
    left
    exact ⟨rfl, (Option.some.inj hrg).symm⟩
  · simp only [Function.update_of_ne hp] at hrg
    right
    exact ⟨hp, hrg⟩

theorem owned : Owned c' a pos len := by
  rw [hs.after, Owned]
  simp

theorem phase_of_ne {j : Nat} (hj : j ≠ seg) : c'.phase j = c.phase j := by
  rw [hs.after]
  apply Function.update_of_ne hj

theorem phase_seg : c'.phase seg = .opened stream (pos + len) := by
  rw [hs.after]
  apply Function.update_self

/-- A property of the phases that has the same value for all opened segments stays. -/
theorem phase_iff
    {α : Type} {f : SegPhase → α} (hf : ∀ next next', f (.opened stream next)
      = f (.opened stream next')) (j : Nat) :
  f (c'.phase j) = f (c.phase j)
  := by
  by_cases hj : j = seg
  · rw [hj, hs.phase_seg, hs.opened]
    apply hf
  · rw [hs.phase_of_ne hj]

include h

theorem segOf_pos : env.geo.segOf pos = seg := by
  have hfits := hs.fits
  have hpos := hs.nonempty
  apply env.geo.segOf_eq (h.ranges.opened hs.opened).1
  omega

/-- No range is at the end of the ranges. -/
theorem ranges_pos : c.ranges pos = none := by
  cases hrg : c.ranges pos with
  | none => rfl
  | some rg =>
      have hbelow := h.ranges.below hrg (by rw [hs.segOf_pos h]; apply hs.opened)
      have hlen := h.ranges.pos hrg
      omega

theorem ranges_after {p : Nat} {rg : GrainRange} (hrg : c.ranges p = some rg) :
    c'.ranges p = some rg := by
  have hne : p ≠ pos := by
    rintro rfl
    rw [hs.ranges_pos h] at hrg
    cases hrg
  rw [hs.after]
  simp only
  rw [Function.update_of_ne hne, hrg]

theorem disjoint_before {p : Nat} {rg : GrainRange} (hrg : c.ranges p = some rg) (hlt : p < pos) :
    p + rg.len ≤ pos := by
  have hseg := hs.segOf_pos h
  obtain hp | hp | hp := Nat.lt_trichotomy (env.geo.segOf p) seg
  · apply env.geo.apart (h.ranges.fits hrg) (hp.trans_eq hseg.symm)
  · apply h.ranges.below hrg (by rw [hp]; apply hs.opened)
  · rw [← hseg] at hp
    have hle := Nat.div_le_div_right (c := env.geo.segSize) (Nat.le_of_lt hlt)
    exact absurd hp (Nat.not_lt_of_le hle)

theorem disjoint_after {q : Nat} {rg : GrainRange} (hrg : c.ranges q = some rg) (hlt : pos < q) :
    pos + len ≤ q := by
  have hseg := hs.segOf_pos h
  have hpos := h.ranges.pos hrg
  obtain hq | hq | hq := Nat.lt_trichotomy (env.geo.segOf q) seg
  · rw [← hseg] at hq
    have hle := Nat.div_le_div_right (c := env.geo.segSize) (Nat.le_of_lt hlt)
    exact absurd hq (Nat.not_lt_of_le hle)
  · have hbelow := h.ranges.below hrg (by rw [hq]; apply hs.opened)
    omega
  · apply env.geo.apart (by rw [hseg]; apply hs.fits) (hseg.trans_lt hq)

theorem current
    {q : Nat} {r : Rec} (hc : Current env.geo c.toSegTable c.recs c.ranges c.committed q r) :
  Current env.geo c'.toSegTable c'.recs c'.ranges c'.committed q r
  := by
  obtain ⟨rg, hrg, hlen⟩ := hc.range
  refine ⟨?_, ⟨rg, hs.ranges_after h hrg, hlen⟩, ?_, ?_, ?_⟩ <;> rw [hs.after]
  · apply hc.record
  · apply hc.timestamp
  · apply hc.mdOk
  · apply hc.committed

theorem rangeInv : RangeInv env.geo c'.toSegTable c'.ranges := by
  have hseg := hs.segOf_pos h
  constructor
  · intro p rg hrg
    rw [hs.phase_iff (f := SegPhase.ranged) (fun _ _ => rfl)]
    obtain ⟨rfl, rfl⟩ | ⟨-, hrg⟩ := hs.ranges_before hrg
    · rw [hseg, hs.opened]
      rfl
    · apply h.ranges.ranged hrg
  · intro p rg hrg
    obtain ⟨rfl, rfl⟩ | ⟨-, hrg⟩ := hs.ranges_before hrg
    · apply hs.nonempty
    · apply h.ranges.pos hrg
  · intro p rg hrg
    obtain ⟨rfl, rfl⟩ | ⟨-, hrg⟩ := hs.ranges_before hrg
    · rw [hseg]
      apply hs.fits
    · apply h.ranges.fits hrg
  · intro j stream' next hj
    by_cases hjs : j = seg
    · rw [hjs, hs.phase_seg] at hj
      cases hj
      have hle := (h.ranges.opened hs.opened).1
      rw [hjs]
      exact ⟨by omega, hs.fits⟩
    · rw [hs.phase_of_ne hjs] at hj
      apply h.ranges.opened hj
  · intro p rg stream' next hrg hopen
    by_cases hp : env.geo.segOf p = seg
    · rw [hp, hs.phase_seg] at hopen
      cases hopen
      obtain ⟨rfl, rfl⟩ | ⟨-, hrg⟩ := hs.ranges_before hrg
      · apply Nat.le_refl
      · have hle := h.ranges.below hrg (by rw [hp]; apply hs.opened)
        omega
    · rw [hs.phase_of_ne hp] at hopen
      obtain ⟨rfl, rfl⟩ | ⟨-, hrg⟩ := hs.ranges_before hrg
      · contradiction
      · apply h.ranges.below hrg hopen
  · intro p q rg rg' hrg hrg' hlt
    obtain ⟨rfl, rfl⟩ | ⟨-, hrg⟩ := hs.ranges_before hrg
    · obtain ⟨rfl, rfl⟩ | ⟨-, hrg'⟩ := hs.ranges_before hrg'
      · omega
      · apply hs.disjoint_after h hrg' hlt
    · obtain ⟨rfl, rfl⟩ | ⟨-, hrg'⟩ := hs.ranges_before hrg'
      · apply hs.disjoint_before h hrg hlt
      · apply h.ranges.disjoint hrg hrg' hlt
  · intro p rg hrg hrel
    rw [hs.phase_iff (f := SegPhase.writable) (fun _ _ => rfl)]
    obtain ⟨rfl, rfl⟩ | ⟨-, hrg⟩ := hs.ranges_before hrg
    · rw [hseg, hs.opened]
      rfl
    · apply h.ranges.unreleased hrg hrel
  · intro p rg waits hrg hph
    have hp : env.geo.segOf p ≠ seg := by
      intro heq
      rw [heq, hs.phase_seg] at hph
      cases hph
    rw [hs.phase_of_ne hp] at hph
    obtain ⟨rfl, rfl⟩ | ⟨-, hrg⟩ := hs.ranges_before hrg
    · contradiction
    · apply h.ranges.invalid hrg hph

theorem segsInv : c'.toSegTable.Inv := by
  rw [hs.after]
  refine ⟨h.segs.timestamp, h.segs.md, ?_⟩
  intro j
  by_cases hj : j = seg
  · rw [hj]
    simp only [Function.update_self]
    apply SegTable.PhaseOk.of_ranged rfl
    apply (h.segs.phase seg).ranged
    rw [hs.opened]
    rfl
  · simp only [Function.update_of_ne hj]
    exact (h.segs.phase j).congr (fun hc => hc) rfl rfl rfl rfl

theorem inv : c'.Inv env := by
  have hstamps : ∀ {j ts}, (c'.phase j).Stamps ts → (c.phase j).Stamps ts := by
    intro j ts hst
    rw [hs.phase_iff (f := SegPhase.Stamps ts) (fun _ _ => rfl)] at hst
    apply hst
  have hranged := hs.phase_iff (f := SegPhase.ranged) (fun _ _ => rfl)
  have hinUse := hs.phase_iff (f := SegPhase.inUse) (fun _ _ => rfl)
  have hranges : ∀ {p rg}, c.ranges p = some rg → c'.ranges p = some rg := hs.ranges_after h
  have hcurrent := fun {q r} => hs.current h (q := q) (r := r)
  refine ⟨hs.segsInv h, ?_, hs.rangeInv h, ?_, ?_, ?_, ?_⟩
  all_goals simp only [hs.after] at hstamps hranged hinUse hranges hcurrent ⊢
  · exact ⟨h.recs.shape, h.recs.le, fun hr hst => h.recs.fresh hr (hstamps hst), h.recs.live⟩
  · intro p r hr hr' hok hts
    obtain ⟨rg, hrg, hlen⟩ := h.life hr ((hranged _).symm.trans hr') hok hts
    exact ⟨rg, hranges hrg, hlen⟩
  · refine ⟨h.commits.counted, fun hx hst => h.commits.fresh hx (hstamps hst), ?_⟩
    intro x hx hr' hok hts
    obtain ⟨rg, hrg, hne⟩ := h.commits.range hx ((hranged _).symm.trans hr') hok hts
    exact ⟨rg, hranges hrg, hne⟩
  · refine ⟨h.dir.wf, h.dir.bits, ?_, h.dir.pbas, h.dir.keys⟩
    intro x hx
    obtain ⟨r, hr⟩ := h.dir.pointed hx
    obtain ⟨rg, hrg, hheld⟩ := hr.held
    exact ⟨r, hcurrent hr.current, hr.item, (hinUse _).trans hr.inUse, rg, hranges hrg, hheld⟩
  · exact h.grow

/-- The timestamp of the new range is that of its segment, which was opened. -/
theorem ahead {ts : Nat} (ha : Ahead env c' ts) : Ahead env c ts := by
  cases ha with
  | opened hph hok =>
      rename_i j next stream'
      by_cases hj : j = seg
      · rw [hs.after] at hok ⊢
        rw [hj] at hok ⊢
        exact Ahead.opened hs.opened hok
      · rw [hs.phase_of_ne hj] at hph
        rw [hs.after] at hok ⊢
        exact Ahead.opened hph hok
  | unreleased hrg hrel hok =>
      have hrg' := hs.ranges_before hrg
      rw [hs.after] at hok ⊢
      obtain ⟨rfl, -⟩ | ⟨-, hrg'⟩ := hrg'
      · simp only [hs.segOf_pos h] at hok ⊢
        exact Ahead.opened hs.opened hok
      · exact Ahead.unreleased hrg' hrel hok
  | stamping hst =>
      rw [hs.phase_iff (f := SegPhase.Stamps ts) (fun _ _ => rfl)] at hst
      exact Ahead.stamping hst
  | later hlt =>
      rw [hs.after] at hlt
      exact Ahead.later hlt

omit h in
theorem around {j ts : Nat} (ha : Around env c' j ts) : Around env c j ts := by
  cases ha with
  | ranged hph hok =>
      rw [hs.phase_iff (f := SegPhase.ranged) (fun _ _ => rfl)] at hph
      rw [hs.after] at hok ⊢
      exact Around.ranged hph hok
  | recoverable hp hr =>
      rw [hs.after] at hr
      exact Around.recoverable hp hr
  | stamping hst =>
      rw [hs.phase_iff (f := SegPhase.Stamps ts) (fun _ _ => rfl)] at hst
      exact Around.stamping hst
  | later hlt =>
      rw [hs.after] at hlt
      exact Around.later hlt

theorem frame (lock : Option Nat) (b : Option Actor) : Frame env c c' lock b := by
  have hloaded : ∀ {s p r}, Loaded env c s p r → Loaded env c' s p r := by
    intro s p r hl
    use hs.current h hl.current
    rw [hs.phase_iff (f := SegPhase.Protects s) (fun _ _ => rfl)]
    apply hl.protects
  constructor
  · apply hs.inv h
  · intro p r _ hc
    apply hs.current h hc
  · exact hs.ahead h
  · exact hs.around
  · intro s _ p r hl
    apply hloaded hl
  · intro s _ gen hl
    have hsnaps : c'.snaps = c.snaps := by rw [hs.after]
    refine ⟨?_, ?_, ?_, ?_⟩
    · rw [hs.after]
      apply hl.le
    · rw [hsnaps]
      apply hl.wf
    · rw [hsnaps]
      apply hl.bits
    · rw [hsnaps]
      intro x hx
      obtain ⟨r, hr, hitem⟩ := hl.loaded hx
      exact ⟨r, hloaded hr, hitem⟩
  · intro a' _
    constructor
    · rw [hs.after]
      intro s hsec _
      apply hsec
    · intro p len' ho
      apply hs.ranges_after h ho
    · rw [hs.after]
      intro p len' _
      exact ⟨rfl, rfl⟩
    · rw [hs.after]
      intro p r _ hr
      apply hr
    · rintro p len' ⟨hh, hu⟩
      exact ⟨hh, hs.ranges_after h hu⟩
    · intro s _ _ p len' hi
      obtain ⟨rg, hrg, hheld⟩ := hi.range
      use ⟨rg, hs.ranges_after h hrg, hheld⟩
      rw [hs.phase_iff (f := SegPhase.Keeps s) (fun _ _ => rfl)]
      apply hi.keeps
  · intro _
    constructor
    · intro j hj
      have hne : j ≠ seg := by
        rintro rfl
        rw [hs.opened] at hj
        cases hj
      rw [hs.phase_of_ne hne, hs.after]
      exact ⟨hj, rfl, rfl⟩
    · intro j waits hj
      have hne : j ≠ seg := by
        rintro rfl
        rw [hs.opened] at hj
        cases hj
      rw [hs.phase_of_ne hne]
      apply hj
    all_goals rw [hs.after]
    · intro _ _
      rfl
    · intro x hx _
      apply hx
    · intro x hx _ _ _ _
      apply hx

end Allocates

/-! ### Writing in a range of one's own -/

/-- A write in a range of its actor: the record there may appear, and records that share no grain
with the range stay. -/
structure WriteStep (env : StoreEnv) (c : Core) (a : Actor) (p len : Nat)
    (recs : Nat → Option Rec) : Prop where
  owned : Owned c a p len
  mdOk : c.segMdOk (env.geo.segOf p) = true
  before : ∀ {q r}, recs q = some r → c.recs q = some r
    ∨ q = p ∧ r.grains = len ∧ r.timestamp = c.segTimestamps (env.geo.segOf p)
      ∧ r.Shape env.geo p
  kept : ∀ {q r}, c.recs q = some r → q ≠ p → p + len ≤ q ∨ q + r.grains ≤ p → recs q = some r

/-- A record in another segment is apart from the range. -/
theorem Rec.Shape.apart
    {p q len : Nat} {r : Rec} (hs : r.Shape env.geo q)
    (hfits : p + len ≤ env.geo.segBase (env.geo.segOf p) + env.geo.dataGrains)
    (hne : env.geo.segOf q ≠ env.geo.segOf p) :
  p + len ≤ q ∨ q + r.grains ≤ p
  := by
  obtain hlt | hlt := Nat.lt_or_gt_of_ne hne
  · right
    apply env.geo.apart hs.fits hlt
  · left
    apply env.geo.apart hfits hlt

namespace WriteStep

variable {a : Actor} {p len : Nat} {recs : Nat → Option Rec}
    (hw : WriteStep env c a p len recs) (h : c.Inv env)

include hw h

/-- A record in another range stays. -/
theorem kept_of_range
    {q : Nat} {r : Rec} (hr : c.recs q = some r)
    (hrg : ∃ rg, c.ranges q = some rg ∧ rg.len = r.grains) (hne : q ≠ p) :
  recs q = some r
  := by
  apply hw.kept hr hne
  obtain ⟨rg, hrg, hlen⟩ := hrg
  obtain hlt | hlt := Nat.lt_or_gt_of_ne hne
  · right
    rw [← hlen]
    apply h.ranges.disjoint hrg hw.owned hlt
  · left
    apply h.ranges.disjoint hw.owned hrg hlt

theorem current
    {q : Nat} {r : Rec} (hc : Current env.geo c.toSegTable c.recs c.ranges c.committed q r) :
  Current env.geo c.toSegTable recs c.ranges c.committed q r
  := by
  refine ⟨?_, hc.range, hc.timestamp, hc.mdOk, hc.committed⟩
  apply hw.kept_of_range h hc.record hc.range
  rintro rfl
  apply h.not_owned hc hw.owned

theorem recordInv : RecordInv env.geo c.toSegTable recs := by
  have hranged := h.ranges.ranged hw.owned
  have hpos := ((h.segs.phase _).ranged hranged hw.mdOk).2.2
  constructor
  · intro q r hr
    obtain hr | ⟨rfl, -, -, hshape⟩ := hw.before hr
    · apply h.recs.shape hr
    · apply hshape
  · intro q r hr
    obtain hr | ⟨rfl, -, hts, -⟩ := hw.before hr
    · apply h.recs.le hr
    · rw [hts]
      apply (h.segs.timestamp _ hpos).le
  · intro q r seg ts hr hst
    obtain hr | ⟨rfl, -, hts, -⟩ := hw.before hr
    · apply h.recs.fresh hr hst
    · rw [hts]
      apply h.segs.ne_of_stamps hst hranged hw.mdOk
  · intro q r hr hmd
    obtain hr | ⟨rfl, -, hts, -⟩ := hw.before hr
    · apply h.recs.live hr hmd
    · exact ⟨((h.segs.phase _).ranged hranged hw.mdOk).2.1, hts.symm⟩

theorem inv : Core.Inv env { c with recs := recs } where
  segs := h.segs
  recs := hw.recordInv h
  ranges := h.ranges
  life := fun {q r} hr hranged hok hts => by
    obtain hr | ⟨rfl, hlen, -⟩ := hw.before hr
    · apply h.life hr hranged hok hts
    · exact ⟨_, hw.owned, hlen.symm⟩
  commits := h.commits
  dir := by
    have hne : ∀ {x}, x ∈ c.curSnap.items → ∀ {r}, recs x.2.pba = some r →
        c.recs x.2.pba = some r := by
      intro x hx r hr
      obtain ⟨r', hr'⟩ := h.dir.pointed hx
      have hcur := (hw.current h hr'.current).record
      rw [hr] at hcur
      cases hcur
      apply hr'.current.record
    refine ⟨h.dir.wf, h.dir.bits, ?_, h.dir.pbas, ?_⟩
    · intro x hx
      obtain ⟨r, hr⟩ := h.dir.pointed hx
      exact ⟨r, hw.current h hr.current, hr.item, hr.inUse, hr.held⟩
    · intro x y r r' hx hy hr hr'
      apply h.dir.keys hx hy (hne hx hr) (hne hy hr')
  grow := h.grow

theorem victimKept (lock : Option Nat) : VictimKept env c { c with recs := recs } lock where
  victim := fun _ hv => ⟨hv, rfl, rfl⟩
  syncing := fun _ _ hv => hv
  recs := fun q hv => by
    have hne : env.geo.segOf q ≠ env.geo.segOf p := by
      intro heq
      have hwr := h.ranges.unreleased hw.owned rfl
      rw [← heq, hv] at hwr
      cases hwr
    cases hr : c.recs q with
    | none =>
        cases hr' : recs q with
        | none => exact hr'
        | some r =>
            obtain hr'' | ⟨rfl, -⟩ := hw.before hr'
            · rw [hr] at hr''
              cases hr''
            · contradiction
    | some r =>
        have hqp : q ≠ p := fun heq => hne (by rw [heq])
        exact hw.kept hr hqp ((h.recs.shape hr).apart (h.ranges.fits hw.owned) hne)
  items := fun _ hx _ => hx
  locked := fun _ hx _ _ _ _ => hx

theorem frame (lock : Option Nat) : Frame env c { c with recs := recs } lock (some a) where
  inv := hw.inv h
  current := fun _ hc => hw.current h hc
  ahead := fun ha => ha.of_segs rfl fun hrg hrel => ⟨_, hrg, hrel⟩
  around := fun ha => ha.of_segs rfl fun {q r} hr => by
    obtain hr | ⟨rfl, -, hts, -⟩ := hw.before hr
    · left
      apply hr
    · right
      exact ⟨h.ranges.ranged hw.owned, hw.mdOk, hts⟩
  loaded := fun _ _ _ _ hl => ⟨hw.current h hl.current, hl.protects⟩
  snaps := fun _ _ _ hl => ⟨hl.le, hl.wf, hl.bits, fun hx => by
    obtain ⟨r, hr, hitem⟩ := hl.loaded hx
    exact ⟨r, ⟨hw.current h hr.current, hr.protects⟩, hitem⟩⟩
  tokens := fun a' ha => {
    sections := fun _ hs _ => hs
    owned := fun ho => ho
    arrays := fun _ => ⟨rfl, rfl⟩
    written := fun {q r} ho hr => by
      apply hw.kept_of_range h hr ⟨_, ho, rfl⟩
      rintro rfl
      have ho' := hw.owned
      rw [Owned, ho] at ho'
      cases ho'
      exact ha rfl
    unreleased := fun hu => hu
    toInvalidate := fun _ _ _ _ _ hi => ⟨hi.range, hi.keeps⟩
  }
  victim := fun _ => hw.victimKept h lock

end WriteStep

namespace Core

variable {a : Actor} {p : Nat}

theorem not_overlaps {len q : Nat} {r : Rec} (hapart : p + len ≤ q ∨ q + r.grains ≤ p) :
    overlaps p len q r = false := by
  simp only [overlaps, Bool.and_eq_false_iff, decide_eq_false_iff_not]
  omega

/-- A record with the segment's timestamp is written in a range of its size. -/
theorem writeRec_step
    {r : Rec} (ho : Owned c a p r.grains) (hok : c.segMdOk (env.geo.segOf p) = true)
    (hts : r.timestamp = c.segTimestamps (env.geo.segOf p)) (hshape : r.Shape env.geo p) :
  WriteStep env c a p r.grains (c.writeRec p r).recs
  where
  owned := ho
  mdOk := hok
  before := fun {q r'} hr => by
    by_cases hq : q = p
    · subst hq
      simp only [writeRec, if_true] at hr
      cases hr
      right
      exact ⟨rfl, rfl, hts, hshape⟩
    · simp only [writeRec, if_neg hq, Option.filter_eq_some_iff] at hr
      left
      apply hr.1
  kept := fun {q r'} hr hne hapart => by
    simp only [writeRec, if_neg hne, Option.filter_eq_some_iff]
    use hr
    rw [not_overlaps hapart]
    rfl

theorem tearRecs_step
    {len : Nat} (ho : Owned c a p len) (hok : c.segMdOk (env.geo.segOf p) = true)
    (kill : List Nat) :
  WriteStep env c a p len (c.tearRecs p len kill).recs
  where
  owned := ho
  mdOk := hok
  before := fun {q r} hr => by
    simp only [tearRecs, Option.filter_eq_some_iff] at hr
    left
    apply hr.1
  kept := fun {q r} hr _ hapart => by
    simp only [tearRecs, Option.filter_eq_some_iff]
    use hr
    rw [not_overlaps hapart, Bool.and_false]
    rfl

end Core

end UDepot
