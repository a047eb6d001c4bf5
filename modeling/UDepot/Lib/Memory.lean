import Mathlib.Algebra.Order.Ring.Nat
import Mathlib.Data.List.Basic
import Mathlib.Data.List.Induction
import Mathlib.Tactic.Basic

/-!
# Memories and buffers

A memory is a function from addresses to cells, whether it is a device, a mapping or a buffer.
`write` stores a list of cells at an address, `Holds` says that they are there, and `load` is what
a buffer holds after cells were read into its beginning.  Numbers are kept in bytes, lowest first.
-/

namespace Memory

variable {α : Type}

/-- Store cells from an address on. -/
def write (m : Nat → α) (off : Nat) (xs : List α) : Nat → α :=
  fun i => if off ≤ i then (xs[i - off]?).getD (m i) else m i

/-- The cells from an address on. -/
def Holds (m : Nat → α) (off : Nat) (xs : List α) : Prop :=
  ∀ i x, xs[i]? = some x → m (off + i) = x

/-- A buffer with `n` cells of a memory at its beginning, and what is behind it. -/
def load (m : Nat → α) (off n : Nat) (behind : Nat → α) : Nat → α :=
  fun i => if i < n then m (off + i) else behind i

variable {m m' : Nat → α} {off off' n : Nat} {xs ys : List α}

theorem holds_nil : Holds m off [] := by
  intro i x hx
  cases hx

theorem holds_cons {x : α} : Holds m off (x :: xs) ↔ m off = x ∧ Holds m (off + 1) xs := by
  constructor
  · intro h
    refine ⟨h 0 x rfl, ?_⟩
    intro i y hy
    rw [Nat.add_assoc, Nat.add_comm 1]
    apply h (i + 1) y hy
  · rintro ⟨hx, h⟩ (_ | i) y hy
    · cases hy
      apply hx
    · rw [Nat.add_comm i, ← Nat.add_assoc]
      apply h i y hy

theorem holds_append :
    Holds m off (xs ++ ys) ↔ Holds m off xs ∧ Holds m (off + xs.length) ys := by
  induction xs generalizing off with
  | nil => simp [holds_nil]
  | cons x xs ih =>
      rw [List.cons_append, holds_cons, holds_cons, ih, List.length_cons, and_assoc,
        Nat.add_assoc, Nat.add_comm 1]

theorem Holds.left (h : Holds m off (xs ++ ys)) : Holds m off xs := (holds_append.mp h).1

theorem Holds.right (h : Holds m off (xs ++ ys)) : Holds m (off + xs.length) ys :=
  (holds_append.mp h).2

/-- Cells that are the same hold the same, in another memory and at another place. -/
theorem Holds.of_eq
    (h : Holds m off xs) (heq : ∀ i < xs.length, m' (off' + i) = m (off + i)) :
  Holds m' off' xs
  := by
  intro i x hx
  rw [heq i (List.getElem?_eq_some_iff.mp hx).1]
  apply h i x hx

/-- What a memory holds depends on its cells there only. -/
theorem Holds.congr
    (h : Holds m off xs) (heq : ∀ i, off ≤ i → i < off + xs.length → m' i = m i) :
  Holds m' off xs
  := by
  apply h.of_eq
  intro i hi
  apply heq (off + i) (by omega) (by omega)

theorem holds_write (m : Nat → α) (off : Nat) (xs : List α) : Holds (write m off xs) off xs := by
  intro i x hx
  rw [write, if_pos (by omega), Nat.add_sub_cancel_left, hx]
  rfl

/-- A store changes no cell outside its range. -/
theorem write_of_outside
    {i : Nat} (h : i < off ∨ off + xs.length ≤ i) :
  write m off xs i = m i
  := by
  rw [write]
  split
  · rw [List.getElem?_eq_none (by omega)]
    rfl
  · rfl

theorem write_nil (m : Nat → α) (off : Nat) : write m off [] = m := by
  funext i
  exact write_of_outside (by rw [List.length_nil]; omega)

/-- A store can be made in two. -/
theorem write_append (m : Nat → α) (off : Nat) (xs ys : List α) :
    write m off (xs ++ ys) = write (write m off xs) (off + xs.length) ys := by
  funext i
  simp only [write]
  by_cases hle : off ≤ i
  · by_cases hlt : i - off < xs.length
    · rw [if_pos hle, if_neg (by omega), if_pos hle, List.getElem?_append_left hlt]
    · rw [if_pos hle, if_pos (by omega), if_pos hle, List.getElem?_append_right (by omega),
        List.getElem?_eq_none (by omega : xs.length ≤ i - off), Option.getD_none, Nat.sub_sub]
  · rw [if_neg hle, if_neg (by omega), if_neg hle]

theorem Holds.write_apart
    (h : Holds m off xs) (hapart : off + xs.length ≤ off' ∨ off' + ys.length ≤ off) :
  Holds (write m off' ys) off xs
  := by
  apply h.congr
  intro i hle hlt
  apply write_of_outside
  omega

theorem Holds.load
    {behind : Nat → α} (h : Holds m (off + off') xs) (hroom : off' + xs.length ≤ n) :
  Holds (load m off n behind) off' xs
  := by
  intro i x hx
  have hlt := (List.getElem?_eq_some_iff.mp hx).1
  rw [Memory.load, if_pos (by omega), ← Nat.add_assoc]
  apply h i x hx

/-! ### Sequences of stores -/

/-- Store cells at several places, one after the other. -/
def writeAll (m : Nat → α) (ws : List (Nat × List α)) : Nat → α :=
  ws.foldl (fun m w => write m w.1 w.2) m

/-- A store covers a cell. -/
def Covers (w : Nat × List α) (i : Nat) : Prop := w.1 ≤ i ∧ i < w.1 + w.2.length

variable {ws ws' : List (Nat × List α)} {i : Nat} {x : α}

theorem writeAll_append : writeAll m (ws ++ ws') = writeAll (writeAll m ws) ws' :=
  List.foldl_append ..

theorem write_of_not_covers {w : Nat × List α} (h : ¬ Covers w i) : write m w.1 w.2 i = m i := by
  apply write_of_outside
  rw [Covers] at h
  omega

/-- A store leaves its content in its range. -/
theorem write_of_inside (hle : off ≤ i) (h : xs[i - off]? = some x) : write m off xs i = x := by
  rw [write, if_pos hle, h]
  rfl

/-- A cell that no store covers is as it was. -/
theorem writeAll_of_not_covers (h : ∀ w ∈ ws, ¬ Covers w i) : writeAll m ws i = m i := by
  induction ws generalizing m with
  | nil => rfl
  | cons w ws ih =>
      rw [writeAll, List.foldl_cons, ← writeAll, ih, write_of_not_covers]
      · apply h w List.mem_cons_self
      · intro w' hw'
        apply h w' (List.mem_cons_of_mem _ hw')

/-- A cell that is covered, always with the same content, has it. -/
theorem writeAll_of_covers
    (hcovered : ∃ w ∈ ws, Covers w i) (hx : ∀ w ∈ ws, Covers w i → w.2[i - w.1]? = some x) :
  writeAll m ws i = x
  := by
  induction ws using List.reverseRecOn generalizing m with
  | nil =>
      obtain ⟨w, hw, -⟩ := hcovered
      cases hw
  | append_singleton ws w ih =>
      have hlast : w ∈ ws ++ [w] := List.mem_append_right _ List.mem_cons_self
      rw [writeAll_append]
      by_cases hw : Covers w i
      · exact write_of_inside hw.1 (hx w hlast hw)
      · rw [writeAll, List.foldl_cons, List.foldl_nil, write_of_not_covers hw]
        apply ih
        · obtain ⟨w', hw', hcov⟩ := hcovered
          rcases List.mem_append.mp hw' with hw' | hw'
          · exact ⟨w', hw', hcov⟩
          · rw [List.mem_singleton.mp hw'] at hcov
            exact absurd hcov hw
        · intro w' hw'
          apply hx w' (List.mem_append_left _ hw')

/-! ### Numbers -/

/-- The `n` bytes of a number, lowest first. -/
def leBytes : Nat → Nat → List UInt8
  | 0, _ => []
  | n + 1, x => .ofNat x :: leBytes n (x / 256)

def leNat : List UInt8 → Nat
  | [] => 0
  | b :: bs => b.toNat + 256 * leNat bs

theorem length_leBytes (n x : Nat) : (leBytes n x).length = n := by
  induction n generalizing x with
  | zero => rfl
  | succ n ih => rw [leBytes, List.length_cons, ih]

theorem leNat_leBytes {n x : Nat} (h : x < 256 ^ n) : leNat (leBytes n x) = x := by
  induction n generalizing x with
  | zero =>
      rw [Nat.pow_zero, Nat.lt_one_iff] at h
      rw [h]
      rfl
  | succ n ih =>
      rw [Nat.pow_succ, Nat.mul_comm] at h
      rw [leBytes, leNat, ih (Nat.div_lt_of_lt_mul h), UInt8.toNat_ofNat']
      apply Nat.mod_add_div

end Memory
