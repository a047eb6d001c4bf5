import Mathlib.Logic.Function.Iterate

/-!
# Reflected cyclic redundancy checks

The remainder takes the bits of a message at its low end.  To shift it is linear, so the shifts of
a byte are those of its low eight bits, which a table may hold, and a shift of the rest by a byte.
-/

namespace Crc

variable {w : Nat} {poly : BitVec w}

/-! ### Shifts -/

/-- What a bit that is shifted out adds to a remainder. -/
def tap (poly : BitVec w) (bit : Bool) : BitVec w := if bit then poly else 0

theorem tap_false : tap poly false = 0 := rfl

theorem tap_xor (a b : Bool) : tap poly (a ^^ b) = tap poly a ^^^ tap poly b := by
  cases a <;> cases b <;> simp [tap]

/-- Shift a remainder by a bit, and add the polynomial if the bit is set. -/
def shift (poly c : BitVec w) : BitVec w := (c >>> 1) ^^^ tap poly (c.getLsbD 0)

theorem shift_xor (a b : BitVec w) : shift poly (a ^^^ b) = shift poly a ^^^ shift poly b := by
  rw [shift, shift, shift, BitVec.ushiftRight_xor_distrib, BitVec.getLsbD_xor, tap_xor]
  ac_rfl

theorem iterate_shift_xor (n : Nat) (a b : BitVec w) :
    (shift poly)^[n] (a ^^^ b) = (shift poly)^[n] a ^^^ (shift poly)^[n] b := by
  induction n generalizing a b with
  | zero => rfl
  | succ n ih =>
      rw [Function.iterate_succ_apply, Function.iterate_succ_apply, Function.iterate_succ_apply,
        shift_xor, ih]

/-- Where no bit is set, the polynomial is not added. -/
theorem iterate_shift_of_low_clear
    {n : Nat} {c : BitVec w} (hclear : ∀ i < n, c.getLsbD i = false) :
  (shift poly)^[n] c = c >>> n
  := by
  induction n with
  | zero => rw [Function.iterate_zero_apply, BitVec.ushiftRight_zero]
  | succ n ih =>
      have hbit : (c >>> n).getLsbD 0 = false := by
        rw [BitVec.getLsbD_ushiftRight]
        apply hclear n (Nat.lt_succ_self n)
      rw [Function.iterate_succ_apply', ih fun i hi => hclear i (Nat.lt_succ_of_lt hi), shift, hbit,
        tap_false, BitVec.shiftRight_add]
      apply BitVec.xor_zero

/-- The low bits of a remainder. -/
def low (n : Nat) (c : BitVec w) : BitVec w := (c.setWidth n).setWidth w

/-- Shifts of a remainder are those of its low bits, and a shift of the rest. -/
theorem iterate_shift_eq_low (n : Nat) (c : BitVec w) :
    (shift poly)^[n] c = (shift poly)^[n] (low n c) ^^^ (c >>> n) := by
  have hsplit : c = low n c ^^^ (low n c ^^^ c) := by
    rw [← BitVec.xor_assoc, BitVec.xor_self, BitVec.zero_xor]
  have hrest : (low n c ^^^ c) >>> n = c >>> n := by
    ext i hi
    simp [low]
  rw [← hrest, ← iterate_shift_of_low_clear, ← iterate_shift_xor, ← hsplit]
  intro i hi
  rw [low, BitVec.getLsbD_xor, BitVec.getLsbD_setWidth, BitVec.getLsbD_setWidth, decide_eq_true hi,
    Bool.true_and]
  by_cases hw : i < w
  · simp [hw]
  · simp [BitVec.getLsbD_of_ge c i (Nat.not_lt.mp hw)]

/-! ### Bytes -/

/-- Take a byte, bit by bit. -/
def takeByte (poly c : BitVec w) (b : BitVec 8) : BitVec w := (shift poly)^[8] (c ^^^ b.setWidth w)

/-- Take a byte with a table of the shifts of bytes. -/
theorem takeByte_eq_table (c : BitVec w) (b : BitVec 8) :
    takeByte poly c b
      = (shift poly)^[8] (((c ^^^ b.setWidth w).setWidth 8).setWidth w) ^^^ (c >>> 8) := by
  rw [takeByte, iterate_shift_eq_low, low]
  congr 1
  ext i hi
  simp

end Crc
