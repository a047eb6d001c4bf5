import UDepot.Directory

/-!
# Looking up before a write

A tag is only a filter, so finding a key's entry takes a read for each entry with the key's
bucket and tag.  `probe_key` makes these reads without a lock and records what it saw by
address; `probe_settled` then checks under the lock that every entry with the bucket and tag is
one that was seen, and takes the one that matched.
-/

namespace UDepot

namespace HashTable

/-- The entries an iterated lookup returns from distance `start` on, in at most `n` steps. -/
def entriesFrom (t : HashTable) (hash : Nat) (includeDeleted : Bool) :
    Nat → Nat → List HashEntry
  | 0, _ => []
  | n + 1, start =>
      match t.lookup hash start includeDeleted with
      | none => []
      | some e => e :: t.entriesFrom hash includeDeleted n (e.offset + 1)

/-- The entries of a hash's bucket with its tag, in the order of their slots. -/
def entries (t : HashTable) (hash : Nat) (includeDeleted : Bool) : List HashEntry :=
  t.entriesFrom hash includeDeleted kHopRange 0

theorem mem_entriesFrom
    {t : HashTable} {hash : Nat} {incl : Bool} {e : HashEntry} :
  ∀ {n start : Nat}, kHopRange ≤ start + n →
    (e ∈ t.entriesFrom hash incl n start ↔
      start ≤ e.offset ∧ e.offset < kHopRange ∧ t.matchAt hash e.offset incl = some e)
  | 0, start, hle => by
      simp only [entriesFrom, List.not_mem_nil, false_iff]
      omega
  | n + 1, start, hle => by
      rw [entriesFrom]
      cases hl : t.lookup hash start incl with
      | none =>
          simp only [List.not_mem_nil, false_iff, not_and]
          intro hs hlt hm
          rw [lookup_eq_none.mp hl e.offset hs hlt] at hm
          cases hm
      | some c =>
          obtain ⟨hs, hlt, hm, hbelow⟩ := lookup_eq_some hl
          rw [List.mem_cons, mem_entriesFrom (by omega)]
          constructor
          · rintro (rfl | ⟨hle', hlt', hm'⟩)
            · exact ⟨hs, hlt, hm⟩
            · exact ⟨by omega, hlt', hm'⟩
          · rintro ⟨hs', hlt', hm'⟩
            obtain hoff | hoff | hoff := Nat.lt_trichotomy e.offset c.offset
            · rw [hbelow e.offset hs' hoff] at hm'
              cases hm'
            · left
              rw [hoff, hm] at hm'
              exact (Option.some.inj hm').symm
            · right
              exact ⟨hoff, hlt', hm'⟩

/-- An iterated lookup returns every match in the neighborhood. -/
theorem mem_entries
    {t : HashTable} {hash : Nat} {incl : Bool} {e : HashEntry} :
  e ∈ t.entries hash incl ↔ e.offset < kHopRange ∧ t.matchAt hash e.offset incl = some e
  := by
  rw [entries, mem_entriesFrom (by omega)]
  simp

/-- A neighborhood holds at most `kHopRange` entries. -/
theorem entriesFrom_length
    {t : HashTable} {hash : Nat} {incl : Bool} :
  ∀ {n start : Nat}, (t.entriesFrom hash incl n start).length ≤ n
  | 0, start => Nat.le_refl 0
  | n + 1, start => by
      rw [entriesFrom]
      cases t.lookup hash start incl with
      | none => exact Nat.zero_le _
      | some c => exact Nat.succ_le_succ entriesFrom_length

/-- The entries of a hash are the items in its bucket with its tag. -/
theorem Wf.mem_entries_val
    {t : HashTable} (ht : t.Wf) {hash : Nat} {x : EntryInfo} :
  (∃ e ∈ t.entries hash true, e.val = x) ↔
    (t.hashToBucket hash, x) ∈ t.items ∧ x.keyTag = t.tagOf hash
  := by
  constructor
  · rintro ⟨e, he, rfl⟩
    obtain ⟨-, hm⟩ := mem_entries.mp he
    apply ht.mem_items_of_matchAt hm
  · rintro ⟨hx, htag⟩
    obtain ⟨d, hd, hm⟩ := ht.exists_matchAt hx htag
    exact ⟨⟨d, x⟩, mem_entries.mpr ⟨hd, hm⟩, rfl⟩

end HashTable

/-! ### Probes -/

/-- What a probe recorded of an address: whether the record there holds the key. -/
structure Seen where
  pba : Nat
  isMatch : Bool
  deriving DecidableEq, Repr

/-- The addresses a probe has read, in the order of the reads. -/
abbrev KeyProbe := List Seen

namespace KeyProbe

def find (probe : KeyProbe) (pba : Nat) : Option Seen := List.find? (·.pba == pba) probe

/-- Record a read.  A full record starts over. -/
def push (probe : KeyProbe) (s : Seen) : KeyProbe :=
  if probe.length = kHopRange then [s] else probe ++ [s]

theorem find_eq_some {probe : KeyProbe} {pba : Nat} {s : Seen} (h : probe.find pba = some s) :
    s ∈ probe ∧ s.pba = pba := by
  rw [find] at h
  use List.mem_of_find?_eq_some h
  simpa using List.find?_some h

theorem exists_find {probe : KeyProbe} {s : Seen} (h : s ∈ probe) :
    ∃ s', probe.find s.pba = some s' := by
  rw [find, ← Option.isSome_iff_exists, List.find?_isSome]
  exact ⟨s, h, by simp⟩

theorem mem_push {probe : KeyProbe} {s s' : Seen} (h : s' ∈ probe.push s) :
    s' = s ∨ s' ∈ probe := by
  rw [push] at h
  split at h
  · left
    apply List.mem_singleton.mp h
  · obtain h | h := List.mem_append.mp h
    · right
      apply h
    · left
      apply List.mem_singleton.mp h

end KeyProbe

/-- Go through a hash's entries: whether all of them were seen, and the first that matched. -/
def settle (probe : KeyProbe) : List HashEntry → Option HashEntry → Bool × Option HashEntry
  | [], m => (true, m)
  | e :: es, m =>
      match probe.find e.val.pba with
      | none => (false, m)
      | some seen => settle probe es (if seen.isMatch && m.isNone then some e else m)

def probeSettled (t : HashTable) (hash : Nat) (probe : KeyProbe) : Bool × Option HashEntry :=
  settle probe (t.entries hash true) none

/-- If a pass of `settle` comes to its end, every entry was seen; what it found before it began
stands, and otherwise it finds an entry exactly if one was seen to match. -/
theorem settle_true
    {probe : KeyProbe} :
  ∀ {es : List HashEntry} {m m' : Option HashEntry}, settle probe es m = (true, m') →
    (∀ e ∈ es, ∃ s, probe.find e.val.pba = some s)
    ∧ (∀ e, m = some e → m' = some e)
    ∧ (m = none →
      (∀ e, m' = some e → e ∈ es ∧ ∃ s, probe.find e.val.pba = some s ∧ s.isMatch = true)
      ∧ (m' = none → ∀ e ∈ es, ∀ s, probe.find e.val.pba = some s → s.isMatch = false))
  | [], m, m', h => by
      obtain ⟨-, rfl⟩ := Prod.mk.inj h
      simp +contextual
  | c :: es, m, m', h => by
      rw [settle] at h
      cases hc : probe.find c.val.pba with
      | none => simp [hc] at h
      | some s =>
          simp only [hc] at h
          obtain ⟨hall, hkept, hfound⟩ := settle_true h
          refine ⟨?_, ?_, ?_⟩
          · intro e he
            obtain rfl | he := List.mem_cons.mp he
            · exact ⟨s, hc⟩
            · apply hall e he
          · rintro e rfl
            apply hkept
            simp
          · rintro rfl
            cases hs : s.isMatch with
            | true =>
                have hm' : m' = some c := hkept c (by simp [hs])
                rw [hm']
                constructor
                · rintro e ⟨rfl⟩
                  exact ⟨List.mem_cons_self, s, hc, hs⟩
                · intro hnone
                  cases hnone
            | false =>
                obtain ⟨hsome, hnone⟩ := hfound (by simp [hs])
                constructor
                · intro e he
                  obtain ⟨hmem, hseen⟩ := hsome e he
                  exact ⟨List.mem_cons_of_mem c hmem, hseen⟩
                · intro hm' e he s' hs'
                  obtain rfl | he := List.mem_cons.mp he
                  · rw [hc] at hs'
                    cases hs'
                    apply hs
                  · apply hnone hm' e he s' hs'

/-- A pass over entries that were all seen comes to its end. -/
theorem settle_of_seen
    {probe : KeyProbe} :
  ∀ {es : List HashEntry} {m : Option HashEntry},
    (∀ e ∈ es, ∃ s, probe.find e.val.pba = some s) → (settle probe es m).1 = true
  | [], _, _ => rfl
  | c :: es, m, h => by
      obtain ⟨s, hs⟩ := h c List.mem_cons_self
      rw [settle, hs]
      apply settle_of_seen
      intro e he
      apply h e (List.mem_cons_of_mem c he)

end UDepot
