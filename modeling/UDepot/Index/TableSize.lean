import UDepot.Index.Layout
import UDepot.Open.SegmentSize

/-!
# The size of a table

`index_bits_for` finds the largest table that a net segment holds, and `fitted_segment_size` the
segment whose table is of a given size.
-/

namespace UDepot

/-! ### Fitted segments -/

/-- The grains of a segment's metadata. -/
def segMdGrainsFor (grain : Nat) : Nat := alignUp kSegMdBytes grain / grain

/-- The net bytes of the segment that is fitted to a table. -/
def fittedNetBytes (tableBytes grain : Nat) : Nat :=
  (fittedSegmentSize tableBytes grain - segMdGrainsFor grain) * grain

theorem fittedNetBytes_eq {tableBytes grain : Nat} (hgrain : grain ∣ 4096) :
    fittedNetBytes tableBytes grain
      = fittedBytes tableBytes grain - alignUp kSegMdBytes grain := by
  have hpos : 0 < grain := Nat.pos_of_dvd_of_pos hgrain (by decide)
  rw [fittedNetBytes, segMdGrainsFor, Nat.sub_mul, fittedSegmentSize_mul (.inl hgrain) hpos,
    Nat.div_mul_cancel (dvd_alignUp _ _)]

/-- A fitted segment has room for its table, and for less than a page more. -/
theorem fittedNetBytes_bounds (tableBytes : Nat) {grain : Nat} (hgrain : grain ∣ 4096) :
    tableBytes + 1280 ≤ fittedNetBytes tableBytes grain
      ∧ fittedNetBytes tableBytes grain < tableBytes + 1280 + 4096 := by
  have hpage : max 4096 grain = 4096 := max_eq_left (Nat.le_of_dvd (by decide) hgrain)
  have hle := le_alignUp (tableBytes + (2 * kIndexMdBytes + 32 * 8 + alignUp kSegMdBytes grain))
    (show 0 < 4096 by decide)
  have hlt := alignUp_lt (tableBytes + (2 * kIndexMdBytes + 32 * 8 + alignUp kSegMdBytes grain))
    (show 0 < 4096 by decide)
  rw [fittedNetBytes_eq hgrain, fittedBytes, hpage]
  rw [kIndexMdBytes] at *
  omega

/-- The table of a fitted segment is the one it is fitted to. -/
theorem indexBitsFor_fittedNetBytes {b grain : Nat} (hb : 9 ≤ b) (hgrain : grain ∣ 4096) :
    Geometry.indexBitsFor (fittedNetBytes (2 ^ b * 8) grain) = b := by
  obtain ⟨hle, hlt⟩ := fittedNetBytes_bounds (2 ^ b * 8) hgrain
  have hlarge : 2 ^ 9 ≤ 2 ^ b := Nat.pow_le_pow_right (by decide) hb
  apply Geometry.indexBitsFor_eq (by omega)
  · rw [TableFits, usedBytesFor, kIndexMdBytes, kHopRange]
    omega
  · rw [TableFits, usedBytesFor, kIndexMdBytes, kHopRange, Nat.pow_succ]
    omega

/-- **The largest table that fits is found, and a fitted segment holds the table it is fitted
to.**  No sum of `fitted_segment_size` reaches `2 ^ 64` for the size of a table that does not. -/
theorem table_geometry :
    (∀ netBytes, Geometry.indexBitsFor netBytes ≠ 0 →
      usedBytesFor (2 ^ Geometry.indexBitsFor netBytes) ≤ netBytes - kIndexMdBytes
        ∧ ¬ TableFits netBytes (2 ^ (Geometry.indexBitsFor netBytes + 1)))
    ∧ (∀ netBytes, Geometry.indexBitsFor netBytes = 0 → ¬ TableFits netBytes 2)
    ∧ ∀ k ≥ 12, ∀ grain, grain ∣ 4096 →
      4096 ∣ fittedSegmentSize (2 ^ k) grain * grain
        ∧ 2 ^ Geometry.indexBitsFor (fittedNetBytes (2 ^ k) grain) * 8 = 2 ^ k
        ∧ (k < 64 → 2 ^ k + (2 * kIndexMdBytes + 32 * 8 + alignUp kSegMdBytes grain)
          + (max 4096 grain - 1) < 2 ^ 64)
  := by
  refine ⟨?_, fun _ => Geometry.indexBitsFor_eq_zero.mp, ?_⟩
  · intro netBytes hb
    obtain ⟨hfits, hnext⟩ := Geometry.tableFits_of_indexBitsFor hb
    use Nat.le_sub_of_add_le hfits
  · intro k hk grain hgrain
    have hpos : 0 < grain := Nat.pos_of_dvd_of_pos hgrain (by decide)
    obtain ⟨b, rfl⟩ := Nat.exists_eq_add_of_le hk
    have hpow : 2 ^ (12 + b) = 2 ^ (9 + b) * 8 := by
      rw [show 12 + b = 9 + b + 3 by omega, Nat.pow_add]
    refine ⟨fittedSegmentSize_pages (.inl hgrain) hpos, ?_, ?_⟩
    · rw [hpow, indexBitsFor_fittedNetBytes (Nat.le_add_right 9 b) hgrain]
    · intro hlt
      have hgrainLe := Nat.le_of_dvd (by decide) hgrain
      have hmd := alignUp_lt kSegMdBytes hpos
      have hword : 2 ^ (12 + b) ≤ 2 ^ 63 := Nat.pow_le_pow_right (by decide) (by omega)
      rw [kSegMdBytes] at *
      rw [kIndexMdBytes]
      omega

end UDepot
