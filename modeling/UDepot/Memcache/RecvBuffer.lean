import UDepot.Record
import Mathlib.Data.List.TakeDrop

/-!
# The receive buffer of a connection

`RecvBuffer` holds what was received and not yet parsed: the bytes of `data` from `parsed` up to
`used`.  Compacting and growing it leave these bytes as they are, and receiving appends to them.
-/

namespace UDepot.Memcache

/-- The place of the first CR LF. -/
def crlfAt : Bytes → Option Nat
  | [] | [_] => none
  | c :: d :: cs => if c = 13 ∧ d = 10 then some 0 else (crlfAt (d :: cs)).map (· + 1)

theorem crlfAt_lt {u : Bytes} {i : Nat} (h : crlfAt u = some i) : i + 2 ≤ u.length := by
  induction u using crlfAt.induct generalizing i with
  | case1 => cases h
  | case2 => cases h
  | case3 c d cs heq =>
      rw [crlfAt, if_pos heq] at h
      cases h
      simp
  | case4 c d cs hne ih =>
      rw [crlfAt, if_neg hne] at h
      obtain ⟨j, hj, rfl⟩ := Option.map_eq_some_iff.mp h
      have hle := ih hj
      simp only [List.length_cons] at hle ⊢
      omega

/-- More bytes do not move the first CR LF. -/
theorem crlfAt_append {u : Bytes} {i : Nat} (h : crlfAt u = some i) (v : Bytes) :
    crlfAt (u ++ v) = some i := by
  induction u using crlfAt.induct generalizing i with
  | case1 => cases h
  | case2 => cases h
  | case3 c d cs heq =>
      rw [crlfAt, if_pos heq] at h
      simp only [List.cons_append]
      rw [crlfAt, if_pos heq, h]
  | case4 c d cs hne ih =>
      rw [crlfAt, if_neg hne] at h
      obtain ⟨j, hj, rfl⟩ := Option.map_eq_some_iff.mp h
      simp only [List.cons_append] at ih ⊢
      rw [crlfAt, if_neg hne, ih hj]
      rfl

theorem getElem?_crlf
    {data cs : Bytes} {c d : UInt8} {p : Nat}
    (hu : ∀ i < (c :: d :: cs).length, (c :: d :: cs)[i]? = data[p + i]?) :
  data[p]? = some 13 ∧ data[p + 1]? = some 10 ↔ c = 13 ∧ d = 10
  := by
  have hc := hu 0 (by simp)
  have hd := hu 1 (by simp)
  simp only [List.getElem?_cons_zero, Nat.add_zero, List.getElem?_cons_succ] at hc hd
  rw [← hc, ← hd, Option.some.injEq, Option.some.injEq]

/-- A scan of the places from `p` on, where the bytes `u` are. -/
theorem find?_crlf
    (data u : Bytes) (p : Nat) (hu : ∀ i < u.length, u[i]? = data[p + i]?) :
  (List.range' p (u.length - 1)).find? (fun i => data[i]? = some 13 ∧ data[i + 1]? = some 10)
    = (crlfAt u).map (· + p)
  := by
  induction u using crlfAt.induct generalizing p with
  | case1 | case2 => rfl
  | case3 c d cs heq =>
      rw [crlfAt, if_pos heq, List.length_cons, List.length_cons, Nat.add_sub_cancel,
        List.range'_succ, List.find?_cons_of_pos]
      · rw [Option.map_some, Nat.zero_add]
      · simpa using (getElem?_crlf hu).mpr heq
  | case4 c d cs hne ih =>
      rw [crlfAt, if_neg hne, List.length_cons, List.length_cons, Nat.add_sub_cancel,
        List.range'_succ, List.find?_cons_of_neg]
      · have hscan := ih (p + 1) (by
          intro i hi
          have hnext := hu (i + 1) (by simpa using hi)
          rw [List.getElem?_cons_succ] at hnext
          rw [hnext, Nat.add_assoc, Nat.add_comm 1])
        rw [List.length_cons, Nat.add_sub_cancel] at hscan
        rw [hscan, Option.map_map]
        congr 1
        funext i
        simp only [Function.comp]
        omega
      · simpa using fun hc hd => hne ((getElem?_crlf hu).mp ⟨hc, hd⟩)

structure RecvBuffer where
  data : Bytes
  used : Nat
  parsed : Nat
  deriving DecidableEq, Repr

namespace RecvBuffer

def new : RecvBuffer := ⟨List.replicate 4096 0, 0, 0⟩

variable (b : RecvBuffer)

/-- The bytes from `start` up to `stop`. -/
def slice (start stop : Nat) : Bytes := (b.data.take stop).drop start

/-- What is received and not parsed. -/
def unparsed : Bytes := b.slice b.parsed b.used

def findCrlf : Option Nat :=
  (List.range' b.parsed (b.used - 1 - b.parsed)).find? fun i =>
    b.data[i]? = some 13 ∧ b.data[i + 1]? = some 10

def compact : RecvBuffer :=
  if 0 < b.parsed then
    { data := (b.data.drop b.parsed).take (b.used - b.parsed) ++ b.data.drop (b.used - b.parsed)
      used := b.used - b.parsed
      parsed := 0 }
  else b

def ensureSpace (n : Nat) : RecvBuffer :=
  if b.data.length < b.used + n then
    { b with data := b.data
      ++ List.replicate (max (b.data.length * 2) (b.used + n) - b.data.length) 0 }
  else b

def writeAvail : Nat := b.data.length - b.used

/-- The buffer after a `recv` into it. -/
def receive (bs : Bytes) : RecvBuffer :=
  { b with
    data := b.data.take b.used ++ bs ++ b.data.drop (b.used + bs.length)
    used := b.used + bs.length }

structure Ok : Prop where
  parsed : b.parsed ≤ b.used
  used : b.used ≤ b.data.length

variable {b}

theorem new_ok : new.Ok := ⟨Nat.le_refl _, Nat.zero_le _⟩

section

variable (h : b.Ok)

include h

theorem Ok.length_unparsed : b.unparsed.length = b.used - b.parsed := by
  have hu := h.used
  simp only [unparsed, slice, List.length_drop, List.length_take]
  omega

omit h in
theorem getElem?_unparsed {i : Nat} (hi : i < b.used - b.parsed) :
    b.unparsed[i]? = b.data[b.parsed + i]? := by
  rw [unparsed, slice, List.getElem?_drop, List.getElem?_take_of_lt]
  omega

theorem Ok.compact : b.compact.Ok ∧ b.compact.unparsed = b.unparsed ∧ b.compact.parsed = 0 := by
  have hp := h.parsed
  have hu := h.used
  rw [RecvBuffer.compact]
  split
  · refine ⟨⟨Nat.zero_le _, ?_⟩, ?_, rfl⟩
    · simp only [List.length_append, List.length_take, List.length_drop]
      omega
    · rw [unparsed, unparsed, slice, slice, List.drop_zero, List.take_append_of_le_length,
        List.take_take, Nat.min_self, List.drop_take]
      simp only [List.length_take, List.length_drop]
      omega
  · exact ⟨h, rfl, by omega⟩

theorem Ok.ensureSpace (n : Nat) :
    (b.ensureSpace n).Ok ∧ (b.ensureSpace n).unparsed = b.unparsed
      ∧ n ≤ (b.ensureSpace n).writeAvail := by
  have hu := h.used
  rw [RecvBuffer.ensureSpace]
  split
  · refine ⟨⟨h.parsed, ?_⟩, ?_, ?_⟩
    · simp only [List.length_append]
      omega
    · rw [unparsed, unparsed, slice, slice, List.take_append_of_le_length hu]
    · simp only [writeAvail, List.length_append, List.length_replicate]
      omega
  · exact ⟨h, rfl, by rw [writeAvail]; omega⟩

/-- Received bytes that fit are written into the buffer and appended to what is not parsed. -/
theorem Ok.receive {bs : Bytes} (hbs : bs.length ≤ b.writeAvail) :
    (b.receive bs).Ok ∧ (b.receive bs).unparsed = b.unparsed ++ bs
      ∧ (b.receive bs).data.length = b.data.length := by
  have hp := h.parsed
  have hu := h.used
  rw [writeAvail] at hbs
  have hlen : (b.data.take b.used).length = b.used := by simp [hu]
  have hdata : (b.receive bs).data.length = b.data.length := by
    simp only [RecvBuffer.receive, List.length_append, List.length_take, List.length_drop]
    omega
  refine ⟨⟨Nat.le_add_right_of_le hp, ?_⟩, ?_, hdata⟩
  · rw [hdata]
    simp only [RecvBuffer.receive]
    omega
  · simp only [RecvBuffer.receive, unparsed, slice]
    rw [List.take_append_of_le_length (by simp [hu]), List.take_of_length_le (by simp [hu]),
      List.drop_append_of_le_length (by omega)]

/-- The scan of the buffer finds the first CR LF of what is not parsed. -/
theorem Ok.findCrlf_eq : b.findCrlf = (crlfAt b.unparsed).map (· + b.parsed) := by
  have hlen := h.length_unparsed
  have hscan := find?_crlf b.data b.unparsed b.parsed (by
    intro i hi
    rw [hlen] at hi
    apply getElem?_unparsed hi)
  rw [findCrlf, ← hscan, hlen]
  congr 2
  omega

/-- Parsing takes bytes from the front. -/
theorem Ok.advance {k : Nat} (hk : b.parsed + k ≤ b.used) :
    Ok { b with parsed := b.parsed + k }
      ∧ b.slice b.parsed (b.parsed + k) = b.unparsed.take k
      ∧ unparsed { b with parsed := b.parsed + k } = b.unparsed.drop k := by
  have hu := h.used
  refine ⟨⟨hk, hu⟩, ?_, ?_⟩
  · rw [unparsed, slice, slice, List.take_drop, List.take_take, Nat.min_eq_left hk]
  · simp [unparsed, slice, List.drop_drop]

end

end RecvBuffer

end UDepot.Memcache
