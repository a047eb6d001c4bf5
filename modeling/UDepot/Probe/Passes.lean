import UDepot.Probe
import Mathlib.Data.List.Nodup
import Mathlib.Data.List.Perm.Subperm

/-!
# Passes over a bucket

`probe_key` goes through the entries of a hash's bucket once and records those it has not seen.  The
record has room for a full neighborhood, but what earlier rounds left in it may be of entries that
are gone, so it may run full in the middle of a pass and start over, and the entries before are
missing from it again.  From then on it holds only entries that are there, so it does not run full
a second time (`KeyProbe.missing_visit`), and the next pass completes it.
-/

namespace UDepot

namespace HashTable

variable {t : HashTable} {hash start : Nat} {e : HashEntry}

theorem mem_entries_of_lookup (h : t.lookup hash start true = some e) :
    e ∈ t.entries hash true := by
  obtain ⟨-, hlt, hmatch, -⟩ := lookup_eq_some h
  exact mem_entries.mpr ⟨hlt, hmatch⟩

/-- A lookup passes over no entry. -/
theorem lt_or_eq_of_lookup
    (h : t.lookup hash start true = some e) {x : HashEntry} (hx : x ∈ t.entries hash true)
    (hlt : x.offset < e.offset + 1) :
  x.offset < start ∨ x = e
  := by
  obtain ⟨-, -, hmatch, hbelow⟩ := lookup_eq_some h
  obtain ⟨-, hxmatch⟩ := mem_entries.mp hx
  rcases Nat.lt_or_ge x.offset start with hbefore | hle
  · exact .inl hbefore
  · right
    rcases Nat.lt_or_eq_of_le (Nat.lt_succ_iff.mp hlt) with hlt | heq
    · rw [hbelow x.offset hle hlt] at hxmatch
      cases hxmatch
    · rw [heq, hmatch] at hxmatch
      exact (Option.some.inj hxmatch).symm

/-- A lookup that comes to its end has all entries behind it. -/
theorem lt_of_lookup_end
    (h : t.lookup hash start true = none) {x : HashEntry} (hx : x ∈ t.entries hash true) :
  x.offset < start
  := by
  obtain ⟨hlt, hmatch⟩ := mem_entries.mp hx
  by_contra hnot
  rw [lookup_eq_none.mp h x.offset (Nat.not_lt.mp hnot) hlt] at hmatch
  cases hmatch

end HashTable

namespace KeyProbe

/-- What a pass makes of an entry it comes upon. -/
def visit (probe : KeyProbe) (e : EntryInfo) (isMatch : Bool) : KeyProbe :=
  if (probe.find e.pba).isSome then probe else probe.push ⟨e.pba, isMatch⟩

/-- The entries that were visited are in the record. -/
def Covers (probe : KeyProbe) (es : List HashEntry) (visited : HashEntry → Bool) : Prop :=
  ∀ e ∈ es, visited e = true → (probe.find e.val.pba).isSome = true

/-- The record holds entries that are there, and none twice. -/
def Clean (probe : KeyProbe) (es : List HashEntry) : Prop :=
  (probe.map Seen.pba).Nodup ∧ ∀ x ∈ probe.map Seen.pba, x ∈ es.map (·.val.pba)

instance (probe : KeyProbe) (es : List HashEntry) (visited : HashEntry → Bool) :
    Decidable (probe.Covers es visited) :=
  inferInstanceAs (Decidable (∀ e ∈ es, _ → _))

instance (probe : KeyProbe) (es : List HashEntry) : Decidable (probe.Clean es) :=
  inferInstanceAs (Decidable (_ ∧ _))

/-- How many more passes there may be after the one that has come so far. -/
def missing (probe : KeyProbe) (es : List HashEntry) (visited : HashEntry → Bool) : Nat :=
  (if probe.Covers es visited then 0 else 1) + if probe.Clean es then 0 else 1

variable {probe : KeyProbe} {es : List HashEntry} {visited visited' : HashEntry → Bool}

theorem missing_le_two : probe.missing es visited ≤ 2 := by
  rw [missing]
  split <;> split <;> decide

/-- A pass that begins has visited nothing. -/
theorem missing_le_one (h : ∀ e ∈ es, visited e = false) : probe.missing es visited ≤ 1 := by
  have hcovers : probe.Covers es visited := by
    intro e he hv
    rw [h e he] at hv
    cases hv
  rw [missing, if_pos hcovers]
  split <;> decide

theorem find_isSome {pba : Nat} : (probe.find pba).isSome = true ↔ pba ∈ probe.map Seen.pba := by
  rw [find, List.find?_isSome, List.mem_map]
  simp only [beq_iff_eq]

/-- A clean record that misses an entry is not full. -/
theorem Clean.length_lt
    (h : probe.Clean es) (hlen : es.length ≤ kHopRange) {e : HashEntry} (he : e ∈ es)
    (hnew : e.val.pba ∉ probe.map Seen.pba) :
  probe.length < kHopRange
  := by
  have hnodup : (e.val.pba :: probe.map Seen.pba).Nodup := List.nodup_cons.mpr ⟨hnew, h.1⟩
  have hsub : e.val.pba :: probe.map Seen.pba ⊆ es.map (·.val.pba) := by
    intro x hx
    rcases List.mem_cons.mp hx with rfl | hx
    · apply List.mem_map_of_mem he
    · apply h.2 x hx
  have hle := (hnodup.subperm hsub).length_le
  rw [List.length_cons, List.length_map, List.length_map] at hle
  omega

/-- A record that grows by an entry covers that entry too. -/
theorem Covers.grow
    {probe' : KeyProbe} (h : probe.Covers es visited) {e : HashEntry}
    (hsub : probe.map Seen.pba ⊆ probe'.map Seen.pba) (hmem : e.val.pba ∈ probe'.map Seen.pba)
    (hvisited : ∀ x ∈ es, visited' x = true → visited x = true ∨ x = e) :
  probe'.Covers es visited'
  := by
  intro x hx hv
  rw [find_isSome]
  rcases hvisited x hx hv with hold | rfl
  · apply hsub (find_isSome.mp (h x hx hold))
  · apply hmem

theorem map_push {s : Seen} (h : probe.length ≠ kHopRange) :
    (probe.push s).map Seen.pba = probe.map Seen.pba ++ [s.pba] := by
  rw [push, if_neg h, List.map_append]
  rfl

theorem map_push_full {s : Seen} (h : probe.length = kHopRange) :
    (probe.push s).map Seen.pba = [s.pba] := by
  rw [push, if_pos h]
  rfl

/-- A clean record stays clean, and one that runs full becomes it. -/
theorem clean_push
    {e : HashEntry} (he : e ∈ es) (hnew : e.val.pba ∉ probe.map Seen.pba) (isMatch : Bool)
    (h : probe.length = kHopRange ∨ probe.Clean es) :
  (probe.push ⟨e.val.pba, isMatch⟩).Clean es
  := by
  have hmem : e.val.pba ∈ es.map (·.val.pba) := List.mem_map_of_mem he
  by_cases hfull : probe.length = kHopRange
  · rw [Clean, map_push_full hfull]
    constructor
    · apply List.nodup_singleton
    · intro x hx
      obtain rfl := List.mem_singleton.mp hx
      apply hmem
  · have hclean := h.resolve_left hfull
    rw [Clean, map_push hfull]
    constructor
    · rw [List.nodup_append_comm]
      exact List.nodup_cons.mpr ⟨hnew, hclean.1⟩
    · intro x hx
      rcases List.mem_append.mp hx with hx | hx
      · apply hclean.2 x hx
      · obtain rfl := List.mem_singleton.mp hx
        apply hmem

theorem missing_le_missing
    {probe' : KeyProbe} (hcovers : probe.Covers es visited → probe'.Covers es visited')
    (hclean : probe.Clean es → probe'.Clean es) :
  probe'.missing es visited' ≤ probe.missing es visited
  := by
  rw [missing, missing]
  apply Nat.add_le_add
  · split
    · apply Nat.zero_le
    · rename_i hnot
      rw [if_neg (mt hcovers hnot)]
  · split
    · apply Nat.zero_le
    · rename_i hnot
      rw [if_neg (mt hclean hnot)]

/-- What is missing does not depend on what was read of the entries seen. -/
theorem missing_push (pba : Nat) (isMatch isMatch' : Bool) :
    (probe.push ⟨pba, isMatch⟩).missing es visited
      ≤ (probe.push ⟨pba, isMatch'⟩).missing es visited := by
  have hmap : (probe.push ⟨pba, isMatch⟩).map Seen.pba
      = (probe.push ⟨pba, isMatch'⟩).map Seen.pba := by
    by_cases hfull : probe.length = kHopRange
    · rw [map_push_full hfull, map_push_full hfull]
    · rw [map_push hfull, map_push hfull]
  apply missing_le_missing
  · intro hcovers e he hv
    rw [find_isSome, hmap, ← find_isSome]
    apply hcovers e he hv
  · intro hclean
    rw [Clean, hmap]
    apply hclean

/-- Visiting the next entry leaves no more to do than there was. -/
theorem missing_visit
    (hlen : es.length ≤ kHopRange) {e : HashEntry} (he : e ∈ es) (isMatch : Bool)
    (hvisited : ∀ x ∈ es, visited' x = true → visited x = true ∨ x = e) :
  (probe.visit e.val isMatch).missing es visited' ≤ probe.missing es visited
  := by
  rw [visit]
  split
  · rename_i hfound
    apply missing_le_missing _ id
    intro hcovers
    apply hcovers.grow (List.Subset.refl _) (find_isSome.mp hfound) hvisited
  · rename_i hfound
    rw [find_isSome] at hfound
    by_cases hfull : probe.length = kHopRange
    · have hnot : ¬ probe.Clean es :=
        fun hclean => (hclean.length_lt hlen he hfound).ne hfull
      rw [missing, missing, if_pos (clean_push he hfound isMatch (.inl hfull)), if_neg hnot]
      split <;> omega
    · apply missing_le_missing
      · intro hcovers
        apply hcovers.grow _ _ hvisited
        · rw [map_push hfull]
          apply List.subset_append_left
        · rw [map_push hfull]
          apply List.mem_append_right _ (List.mem_singleton_self _)
      · intro hclean
        apply clean_push he hfound isMatch (.inr hclean)

/-- A pass that ends without all entries seen has fewer after it. -/
theorem missing_next
    (h : ¬ probe.Covers es visited) (hnew : ∀ e ∈ es, visited' e = false) :
  probe.missing es visited' + 1 ≤ probe.missing es visited
  := by
  have hcovers : probe.Covers es visited' := by
    intro e he hv
    rw [hnew e he] at hv
    cases hv
  rw [missing, missing, if_pos hcovers, if_neg h]
  omega

/-- A record that covers all entries has nothing to add. -/
theorem visit_of_covers (h : probe.Covers es fun _ => true) {e : HashEntry} (he : e ∈ es)
    (isMatch : Bool) : probe.visit e.val isMatch = probe := by
  rw [visit, if_pos (h e he rfl)]

/-- A pass of `probe_key` while nothing is written, with what it reads of the entries. -/
def probeKey (probe : KeyProbe) (verify : EntryInfo → Bool) (t : HashTable) (hash : Nat) :
    KeyProbe :=
  (t.entries hash true).foldl (fun probe e => probe.visit e.val (verify e.val)) probe

section

variable (verify verify' : EntryInfo → Bool) (t : HashTable) (hash : Nat) (probe : KeyProbe)

/-- A pass leaves no more to do than there was. -/
theorem missing_probeKey :
    (probe.probeKey verify t hash).missing (t.entries hash true) (fun _ => true)
      ≤ probe.missing (t.entries hash true) (fun _ => false) := by
  have hfold : ∀ {rest seen : List HashEntry} {probe : KeyProbe},
      t.entries hash true = seen ++ rest →
      (rest.foldl (fun probe e => probe.visit e.val (verify e.val)) probe).missing
          (t.entries hash true) (fun _ => true)
        ≤ probe.missing (t.entries hash true) (fun x => seen.contains x) := by
    intro rest
    induction rest with
    | nil =>
        intro seen probe hsplit
        rw [List.append_nil] at hsplit
        apply missing_le_missing _ id
        intro hcovers e he _
        apply hcovers e he
        rw [List.contains_iff_mem, ← hsplit]
        apply he
    | cons e rest ih =>
        intro seen probe hsplit
        have hmem : e ∈ t.entries hash true := by
          rw [hsplit]
          apply List.mem_append_right _ List.mem_cons_self
        have hsplit' : t.entries hash true = (seen ++ [e]) ++ rest := by
          rw [hsplit, List.append_assoc]
          rfl
        rw [List.foldl_cons]
        apply (ih hsplit').trans
        apply missing_visit HashTable.entriesFrom_length hmem
        intro x _ hx
        rw [List.contains_iff_mem, List.mem_append, List.mem_singleton] at hx
        exact hx.imp_left List.contains_iff_mem.mpr
  exact hfold (List.nil_append _).symm

/-- Whatever a record holds at first, two passes make it cover every entry. -/
theorem covers_probeKey :
    ((probe.probeKey verify t hash).probeKey verify' t hash).Covers (t.entries hash true)
      fun _ => true := by
  by_cases hcovers : (probe.probeKey verify t hash).Covers (t.entries hash true) fun _ => true
  · have hsame : (probe.probeKey verify t hash).probeKey verify' t hash
        = probe.probeKey verify t hash := by
      apply List.foldlRecOn (motive := fun q => q = probe.probeKey verify t hash) _ _ rfl
      rintro _ rfl e he
      apply visit_of_covers hcovers he
    rw [hsame]
    apply hcovers
  · have hone : probe.missing (t.entries hash true) (fun _ => false) ≤ 1 :=
      missing_le_one fun _ _ => rfl
    have hnone : ∀ e ∈ t.entries hash true, (fun _ : HashEntry => false) e = false :=
      fun _ _ => rfl
    have hfirst := missing_probeKey verify t hash probe
    have hnext := missing_next hcovers hnone
    have hsecond := missing_probeKey verify' t hash (probe.probeKey verify t hash)
    by_contra hnot
    have hlast := missing_next hnot hnone
    omega

end

end KeyProbe

end UDepot
