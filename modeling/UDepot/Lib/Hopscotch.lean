import Mathlib.Algebra.BigOperators.Group.Finset.Piecewise
import Mathlib.Algebra.Order.BigOperators.Group.Finset
import Mathlib.Data.Multiset.AddSub

/-!
# Hopscotch slot arrays

A hopscotch array of cells, over an arbitrary type of values.  Every cell has a home bucket,
stays within a fixed distance `hop` above it, and stores that distance.  A value is placed by
finding the first free slot above its bucket and moving cells up, each within its own reach,
until the free slot is within reach of the bucket.

All changes are sequences of single-slot stores, so that the states between two stores can be
spoken of.  What an array holds is the multiset `contents` of pairs of a home and a value:
`place` adds one pair or none, and the moves it makes on the way change nothing (`Shifts`).
-/

namespace Hopscotch

variable {α : Type}

/-- A value with its distance from its home bucket. -/
structure Cell (α : Type) where
  offset : Nat
  val : α
  deriving DecidableEq, Repr

/-- The slots of an array; an unused slot holds nothing. -/
abbrev Slots (α : Type) := Nat → Option (Cell α)

/-- A store to a single slot. -/
structure Store (α : Type) where
  idx : Nat
  cell : Option (Cell α)
  deriving DecidableEq, Repr

/-- The slots after one store. -/
def Slots.store (σ : Slots α) (w : Store α) : Slots α :=
  Function.update σ w.idx w.cell

/-- The slots after a sequence of stores. -/
def Slots.apply (σ : Slots α) (ws : List (Store α)) : Slots α :=
  ws.foldl Slots.store σ

@[simp] theorem Slots.apply_nil (σ : Slots α) : σ.apply [] = σ := rfl

@[simp] theorem Slots.apply_cons (σ : Slots α) (w : Store α) (ws : List (Store α)) :
    σ.apply (w :: ws) = (σ.store w).apply ws := rfl

theorem Slots.apply_append (σ : Slots α) (ws ws' : List (Store α)) :
    σ.apply (ws ++ ws') = (σ.apply ws).apply ws' :=
  List.foldl_append

theorem Slots.store_same (σ : Slots α) (w : Store α) : σ.store w w.idx = w.cell := by
  simp [Slots.store]

theorem Slots.store_ne
    (σ : Slots α) (w : Store α) {i : Nat} (h : i ≠ w.idx) :
  σ.store w i = σ i
  := by
  simp [Slots.store, h]

/-! ### Well-formed arrays and their contents -/

/-- Every cell is less than `hop` above its home, and its home is one of `buckets`. -/
structure Wf (hop buckets : Nat) (σ : Slots α) : Prop where
  reach : ∀ {i c}, σ i = some c → c.offset < hop
  above : ∀ {i c}, σ i = some c → c.offset ≤ i
  home : ∀ {i c}, σ i = some c → i - c.offset < buckets

/-- The home and the value of the cell in a slot. -/
def itemAt (σ : Slots α) (i : Nat) : Option (Nat × α) :=
  (σ i).map fun c => (i - c.offset, c.val)

/-- An optional element as a multiset. -/
def ofOption {β : Type} : Option β → Multiset β
  | none => 0
  | some b => {b}

@[simp] theorem ofOption_none {β : Type} : ofOption (none : Option β) = 0 := rfl

@[simp] theorem ofOption_some {β : Type} (b : β) : ofOption (some b) = {b} := rfl

theorem mem_ofOption {β : Type} {b : β} : ∀ {o : Option β}, b ∈ ofOption o ↔ o = some b
  | none => by simp
  | some c => by simp [eq_comm]

/-- The pairs of a home and a value an array of `total` slots holds. -/
def contents (total : Nat) (σ : Slots α) : Multiset (Nat × α) :=
  ∑ i ∈ Finset.range total, ofOption (itemAt σ i)

theorem mem_contents {total : Nat} {σ : Slots α} {x : Nat × α} :
    x ∈ contents total σ ↔ ∃ i < total, itemAt σ i = some x := by
  simp [contents, Multiset.mem_sum, mem_ofOption]

/-- An item is there more than once if two slots hold it. -/
theorem one_lt_count_contents
    [DecidableEq α] {total : Nat} {σ : Slots α} {x : Nat × α} :
  1 < (contents total σ).count x
    ↔ ∃ i < total, ∃ j < total, i ≠ j ∧ itemAt σ i = some x ∧ itemAt σ j = some x
  := by
  have hcount : ∀ i, (ofOption (itemAt σ i)).count x = if itemAt σ i = some x then 1 else 0 := by
    intro i
    cases itemAt σ i with
    | none => rfl
    | some y =>
        simp only [ofOption_some, Multiset.count_singleton, Option.some.injEq]
        simp only [eq_comm]
  rw [contents, Multiset.count_sum', Finset.sum_congr rfl fun i _ => hcount i, ← Finset.card_filter,
    Finset.one_lt_card]
  simp only [Finset.mem_filter, Finset.mem_range]
  constructor
  · rintro ⟨i, ⟨hi, hx⟩, j, ⟨hj, hx'⟩, hne⟩
    exact ⟨i, hi, j, hj, hne, hx, hx'⟩
  · rintro ⟨i, hi, j, hj, hne, hx, hx'⟩
    exact ⟨i, ⟨hi, hx⟩, j, ⟨hj, hx'⟩, hne⟩

theorem itemAt_eq_some {σ : Slots α} {i : Nat} {x : Nat × α} :
    itemAt σ i = some x ↔ ∃ c, σ i = some c ∧ x = (i - c.offset, c.val) := by
  unfold itemAt
  cases σ i with
  | none => simp
  | some c => simp [eq_comm]

/-- In a well-formed array, a pair is in the contents exactly when a slot within reach of the
home holds the value at the right distance. -/
theorem Wf.mem_contents_iff
    {hop buckets : Nat} {σ : Slots α} (hσ : Wf hop buckets σ) {b : Nat} {v : α} :
  (b, v) ∈ contents (buckets + hop) σ ↔ ∃ d < hop, b < buckets ∧ σ (b + d) = some ⟨d, v⟩
  := by
  rw [mem_contents]
  constructor
  · rintro ⟨i, -, hi⟩
    obtain ⟨⟨d, v'⟩, hc, hx⟩ := itemAt_eq_some.mp hi
    obtain ⟨rfl, rfl⟩ := Prod.mk.inj hx
    have hd := hσ.above hc
    use d, hσ.reach hc, hσ.home hc
    simp only at hd ⊢
    rw [Nat.sub_add_cancel hd, hc]
  · rintro ⟨d, hd, hb, hc⟩
    use b + d, by omega
    apply itemAt_eq_some.mpr
    use ⟨d, v⟩, hc
    simp

/-- A store changes the contents by the pair it takes away and the pair it brings. -/
theorem contents_store
    {total : Nat} (σ : Slots α) (w : Store α) (h : w.idx < total) :
  contents total (σ.store w) + ofOption (itemAt σ w.idx)
    = contents total σ + ofOption (itemAt (σ.store w) w.idx)
  := by
  have hmem : w.idx ∈ Finset.range total := Finset.mem_range.mpr h
  have hrest : ∑ i ∈ (Finset.range total).erase w.idx, ofOption (itemAt (σ.store w) i)
      = ∑ i ∈ (Finset.range total).erase w.idx, ofOption (itemAt σ i) := by
    apply Finset.sum_congr rfl
    intro i hi
    rw [itemAt, Slots.store_ne σ w (Finset.ne_of_mem_erase hi), itemAt]
  unfold contents
  rw [← Finset.add_sum_erase _ _ hmem, hrest,
    ← Finset.add_sum_erase _ (fun i => ofOption (itemAt σ i)) hmem]
  ac_rfl

/-- Filling a free slot adds the pair of its new cell. -/
theorem contents_fill
    {total : Nat} {σ : Slots α} {i : Nat} {c : Cell α} (hi : i < total) (hfree : σ i = none) :
  contents total (σ.store ⟨i, some c⟩) = (i - c.offset, c.val) ::ₘ contents total σ
  := by
  have h := contents_store σ ⟨i, some c⟩ hi
  simp only [itemAt, Slots.store_same σ ⟨i, some c⟩, hfree, Option.map_none, Option.map_some,
    ofOption_none, ofOption_some, add_zero] at h
  rw [h, add_comm, Multiset.singleton_add]

/-- Clearing a used slot takes the pair of its cell away. -/
theorem contents_clear
    {total : Nat} {σ : Slots α} {i : Nat} {c : Cell α} (hi : i < total) (hc : σ i = some c) :
  contents total σ = (i - c.offset, c.val) ::ₘ contents total (σ.store ⟨i, none⟩)
  := by
  have h := contents_store σ ⟨i, none⟩ hi
  simp only [itemAt, Slots.store_same σ ⟨i, none⟩, hc, Option.map_none, Option.map_some,
    ofOption_none, ofOption_some, add_zero] at h
  rw [← h, add_comm, Multiset.singleton_add]

/-- Storing over a used slot exchanges the pair of its cell for the new one. -/
theorem contents_replace
    {total : Nat} {σ : Slots α} {i : Nat} {c : Cell α} (hi : i < total) (hc : σ i = some c)
    (c' : Cell α) :
  (i - c.offset, c.val) ::ₘ contents total (σ.store ⟨i, some c'⟩)
    = (i - c'.offset, c'.val) ::ₘ contents total σ
  := by
  have h := contents_store σ ⟨i, some c'⟩ hi
  simp only [itemAt, Slots.store_same σ ⟨i, some c'⟩, hc, Option.map_some, ofOption_some] at h
  rw [← Multiset.singleton_add, add_comm, h, add_comm, Multiset.singleton_add]

/-- A store of a cell in its place, or of nothing, keeps an array well formed. -/
theorem Wf.store
    {hop buckets : Nat} {σ : Slots α} (hσ : Wf hop buckets σ) (w : Store α)
    (hw : ∀ c, w.cell = some c → c.offset < hop ∧ c.offset ≤ w.idx ∧ w.idx - c.offset < buckets) :
  Wf hop buckets (σ.store w)
  := by
  have key : ∀ {i c}, σ.store w i = some c →
      c.offset < hop ∧ c.offset ≤ i ∧ i - c.offset < buckets := by
    intro i c hc
    by_cases hi : i = w.idx
    · subst hi
      rw [Slots.store_same] at hc
      apply hw c hc
    · rw [Slots.store_ne σ w hi] at hc
      exact ⟨hσ.reach hc, hσ.above hc, hσ.home hc⟩
  exact ⟨fun hc => (key hc).1, fun hc => (key hc).2.1, fun hc => (key hc).2.2⟩

/-- The empty array is well formed. -/
theorem Wf.empty (hop buckets : Nat) : Wf hop buckets (fun _ => none : Slots α) :=
  ⟨fun h => (nomatch h), fun h => (nomatch h), fun h => (nomatch h)⟩

@[simp] theorem contents_empty (total : Nat) : contents total (fun _ => none : Slots α) = 0 := by
  simp [contents, itemAt]

/-! ### Moving cells up -/

/-- A sequence of moves.  Each moves a cell to a higher free slot still within `hop` of its
home: it is written there first and cleared from the lower slot after. -/
inductive Shifts (hop : Nat) : Slots α → List (Store α) → Prop
  | nil (σ) : Shifts hop σ []
  | cons {σ : Slots α} {low high : Nat} {c : Cell α} {ws : List (Store α)}
      (hlow : σ low = some c) (hhigh : σ high = none) (hlt : low < high)
      (hreach : high - (low - c.offset) < hop)
      (hrest : Shifts hop ((σ.store ⟨high, some ⟨high - (low - c.offset), c.val⟩⟩).store
        ⟨low, none⟩) ws) :
      Shifts hop σ (⟨high, some ⟨high - (low - c.offset), c.val⟩⟩ :: ⟨low, none⟩ :: ws)

/-- Moves keep an array well formed. -/
theorem Shifts.wf
    {hop buckets : Nat} {σ : Slots α} {ws : List (Store α)} (h : Shifts hop σ ws)
    (hσ : Wf hop buckets σ) :
  Wf hop buckets (σ.apply ws)
  := by
  induction h with
  | nil σ => apply hσ
  | @cons σ low high c ws hlow hhigh hlt hreach hrest ih =>
      have habove := hσ.above hlow
      have hhome := hσ.home hlow
      apply ih
      apply Wf.store _ _ (by simp)
      apply hσ.store
      rintro c' ⟨rfl⟩
      simp only
      omega

/-- Moves leave the contents as they are. -/
theorem Shifts.contents
    {hop buckets : Nat} {σ : Slots α} {ws : List (Store α)} (h : Shifts hop σ ws)
    (hσ : Wf hop buckets σ) :
  contents (buckets + hop) (σ.apply ws) = contents (buckets + hop) σ
  := by
  induction h with
  | nil σ => rfl
  | @cons σ low high c ws hlow hhigh hlt hreach hrest ih =>
      have habove := hσ.above hlow
      have hhome := hσ.home hlow
      have hmoved : high - (high - (low - c.offset)) = low - c.offset := by omega
      set σ₁ := σ.store ⟨high, some ⟨high - (low - c.offset), c.val⟩⟩ with hσ₁
      have hlow₁ : σ₁ low = some c := by
        rw [hσ₁, Slots.store_ne _ _ (by simp only; omega), hlow]
      have hwf₁ : Wf hop buckets (σ₁.store ⟨low, none⟩) := by
        apply Wf.store _ _ (by simp)
        apply hσ.store
        rintro c' ⟨rfl⟩
        simp only
        omega
      have hin : high < buckets + hop := by omega
      have hfill := contents_fill (c := ⟨high - (low - c.offset), c.val⟩) hin hhigh
      have hclear := contents_clear (hlt.trans hin) hlow₁
      rw [Slots.apply_cons, Slots.apply_cons, ih hwf₁]
      rw [← hσ₁, hclear, hmoved] at hfill
      apply (Multiset.cons_inj_right _).mp hfill

/-! ### Placing a value -/

/-- The first free slot among the `n` slots from `i` on. -/
def firstFree (σ : Slots α) : Nat → Nat → Option Nat
  | 0, _ => none
  | n + 1, i => if (σ i).isNone then some i else firstFree σ n (i + 1)

/-- The first cell among those `d, d - 1, …, 1` slots below `free`, and not below `target`,
that may move to `free`: its slot, and the cell as it is stored at `free`. -/
def displace (hop : Nat) (σ : Slots α) (target free : Nat) : Nat → Option (Nat × Cell α)
  | 0 => none
  | d + 1 =>
      if free < d + 1 then displace hop σ target free d
      else if free - (d + 1) < target then none
      else match σ (free - (d + 1)) with
        | none => displace hop σ target free d
        | some c =>
            if hop ≤ free - (free - (d + 1) - c.offset) then displace hop σ target free d
            else some (free - (d + 1), ⟨free - (free - (d + 1) - c.offset), c.val⟩)

/-- Move cells up until the free slot is within reach of `bucket`: the stores made, and the
free slot reached, if one was.  The first argument bounds the number of moves. -/
def bringHome (hop : Nat) : Nat → Slots α → Nat → Nat → List (Store α) × Option Nat
  | 0, _, _, _ => ([], none)
  | n + 1, σ, bucket, free =>
      if free - bucket < hop then ([], some free)
      else match displace hop σ bucket free (hop - 1) with
        | none => ([], none)
        | some (low, moved) =>
            let rest := bringHome hop n ((σ.store ⟨free, some moved⟩).store ⟨low, none⟩)
              bucket low
            (⟨free, some moved⟩ :: ⟨low, none⟩ :: rest.1, rest.2)

/-- Place a value at `bucket`, searching the slots below `limit`: whether it was placed, and
the stores made. -/
def place (hop : Nat) (σ : Slots α) (bucket limit : Nat) (v : α) : Bool × List (Store α) :=
  match firstFree σ (limit - bucket) bucket with
  | none => (false, [])
  | some free =>
      match bringHome hop (free - bucket + 1) σ bucket free with
      | (moves, none) => (false, moves)
      | (moves, some slot) => (true, moves ++ [⟨slot, some ⟨slot - bucket, v⟩⟩])

theorem firstFree_eq_some
    {σ : Slots α} :
  ∀ {n i f : Nat}, firstFree σ n i = some f →
    i ≤ f ∧ f < i + n ∧ σ f = none ∧ ∀ j, i ≤ j → j < f → σ j ≠ none
  | n + 1, i, f, h => by
      rw [firstFree] at h
      split at h
      · rename_i hfree
        cases h
        refine ⟨le_rfl, by omega, Option.isNone_iff_eq_none.mp hfree, ?_⟩
        intro j hij hji
        omega
      · rename_i hused
        obtain ⟨hle, hlt, hnone, hbelow⟩ := firstFree_eq_some h
        refine ⟨by omega, by omega, hnone, ?_⟩
        intro j hij hjf hj
        obtain rfl | hne := Nat.eq_or_lt_of_le hij
        · apply hused
          rw [hj]
          rfl
        · apply hbelow j hne hjf hj

/-- The first free slot is found when there is a free slot in range, and lies no higher. -/
theorem exists_firstFree
    {σ : Slots α} :
  ∀ {n i j : Nat}, i ≤ j → j < i + n → σ j = none → ∃ f ≤ j, firstFree σ n i = some f
  | 0, i, j, hij, hjn, _ => by omega
  | n + 1, i, j, hij, hjn, hj => by
      rw [firstFree]
      split
      · exact ⟨i, hij, rfl⟩
      · rename_i hused
        obtain rfl | hne := Nat.eq_or_lt_of_le hij
        · exact absurd (by rw [hj]; rfl) hused
        · apply exists_firstFree hne (by omega) hj

theorem displace_eq_some
    {hop : Nat} {σ : Slots α} {target free : Nat} :
  ∀ {d low : Nat} {moved : Cell α}, displace hop σ target free d = some (low, moved) →
    ∃ c, σ low = some c ∧ low < free ∧ target ≤ low ∧ free - (low - c.offset) < hop
      ∧ moved = ⟨free - (low - c.offset), c.val⟩
  | d + 1, low, moved, h => by
      rw [displace] at h
      split at h
      · apply displace_eq_some h
      · split at h
        · exact nomatch h
        · split at h
          · apply displace_eq_some h
          · split at h
            · apply displace_eq_some h
            · rename_i c hc hreach
              obtain ⟨rfl, rfl⟩ := Prod.mk.inj (Option.some.inj h)
              exact ⟨c, hc, by omega, by omega, by omega, rfl⟩

/-- The moves of `bringHome`, the free slot they lead to, and the slots they touch. -/
theorem bringHome_spec
    (hop : Nat) {bucket : Nat} :
  ∀ (n : Nat) {σ : Slots α} {free : Nat}, bucket ≤ free → σ free = none →
    Shifts hop σ (bringHome hop n σ bucket free).1
      ∧ (∀ w ∈ (bringHome hop n σ bucket free).1, bucket ≤ w.idx ∧ w.idx ≤ free)
      ∧ ∀ slot, (bringHome hop n σ bucket free).2 = some slot →
        bucket ≤ slot ∧ slot ≤ free ∧ slot - bucket < hop
          ∧ σ.apply (bringHome hop n σ bucket free).1 slot = none
  | 0, σ, free, _, _ => ⟨.nil σ, fun _ hw => (nomatch hw), fun _ h => (nomatch h)⟩
  | n + 1, σ, free, hle, hfree => by
      rw [bringHome]
      split
      · rename_i hnear
        refine ⟨.nil σ, fun _ hw => (nomatch hw), ?_⟩
        rintro slot ⟨rfl⟩
        exact ⟨hle, le_rfl, hnear, hfree⟩
      · cases hd : displace hop σ bucket free (hop - 1) with
        | none => exact ⟨.nil σ, fun _ hw => (nomatch hw), fun _ h => (nomatch h)⟩
        | some p =>
            obtain ⟨low, moved⟩ := p
            obtain ⟨c, hc, hlt, htarget, hreach, rfl⟩ := displace_eq_some hd
            have hlow : ((σ.store ⟨free, some ⟨free - (low - c.offset), c.val⟩⟩).store
                ⟨low, none⟩) low = none := Slots.store_same _ ⟨low, none⟩
            obtain ⟨hshifts, hidx, hslot⟩ := bringHome_spec hop n htarget hlow
            refine ⟨.cons hc hfree hlt hreach hshifts, ?_, ?_⟩
            · intro w hw
              simp only [List.mem_cons] at hw
              obtain rfl | rfl | hw := hw
              · exact ⟨hle, le_rfl⟩
              · exact ⟨htarget, hlt.le⟩
              · obtain ⟨h₁, h₂⟩ := hidx w hw
                exact ⟨h₁, by omega⟩
            · intro slot hs
              obtain ⟨h₁, h₂, h₃, h₄⟩ := hslot slot hs
              exact ⟨h₁, by omega, h₃, h₄⟩

/-- The loop of `bringHome` with no bound on its rounds.  It ends when the free slot is within
reach, or when no cell can move to it; otherwise it moves a cell and goes on from the slot the
cell left. -/
inductive Brings (hop bucket : Nat) : Slots α → Nat → List (Store α) → Option Nat → Prop
  | near {σ : Slots α} {free : Nat} (hnear : free - bucket < hop) :
      Brings hop bucket σ free [] (some free)
  | stuck {σ : Slots α} {free : Nat} (hfar : ¬ free - bucket < hop)
      (hd : displace hop σ bucket free (hop - 1) = none) :
      Brings hop bucket σ free [] none
  | move {σ : Slots α} {free low : Nat} {moved : Cell α} {ws : List (Store α)}
      {found : Option Nat} (hfar : ¬ free - bucket < hop)
      (hd : displace hop σ bucket free (hop - 1) = some (low, moved))
      (hrest : Brings hop bucket ((σ.store ⟨free, some moved⟩).store ⟨low, none⟩) low ws found) :
      Brings hop bucket σ free (⟨free, some moved⟩ :: ⟨low, none⟩ :: ws) found

/-- The loop comes to its end within the bound: every move brings the free slot down. -/
theorem bringHome_brings
    {hop bucket : Nat} :
  ∀ {n : Nat} {σ : Slots α} {free : Nat}, bucket ≤ free → free - bucket < n →
    Brings hop bucket σ free (bringHome hop n σ bucket free).1 (bringHome hop n σ bucket free).2
  | n + 1, σ, free, hle, hn => by
      rw [bringHome]
      split
      · rename_i hnear
        apply Brings.near hnear
      · rename_i hfar
        cases hd : displace hop σ bucket free (hop - 1) with
        | none => apply Brings.stuck hfar hd
        | some p =>
            obtain ⟨low, moved⟩ := p
            obtain ⟨c, -, hlt, htarget, -, -⟩ := displace_eq_some hd
            apply Brings.move hfar hd
            apply bringHome_brings htarget (by omega)

/-- `place` makes the stores of the loop, and the store of the value in the slot it leads to. -/
theorem place_brings
    {hop : Nat} {σ : Slots α} {bucket limit free : Nat} (v : α)
    (hfree : firstFree σ (limit - bucket) bucket = some free) :
  ∃ moves found, Brings hop bucket σ free moves found
    ∧ place hop σ bucket limit v = match found with
      | none => (false, moves)
      | some slot => (true, moves ++ [⟨slot, some ⟨slot - bucket, v⟩⟩])
  := by
  obtain ⟨hle, -, -, -⟩ := firstFree_eq_some hfree
  refine ⟨_, _, bringHome_brings (n := free - bucket + 1) hle (Nat.lt_succ_self _), ?_⟩
  rw [place, hfree]
  simp only
  rcases bringHome hop (free - bucket + 1) σ bucket free with ⟨moves, _ | slot⟩
  · rfl
  · rfl

/-- Placing a value when the first free slot is within reach makes the one store. -/
theorem place_near
    {hop : Nat} {σ : Slots α} {bucket limit free : Nat} (v : α)
    (hfree : firstFree σ (limit - bucket) bucket = some free) (hnear : free - bucket < hop) :
  place hop σ bucket limit v = (true, [⟨free, some ⟨free - bucket, v⟩⟩])
  := by
  rw [place, hfree]
  simp only [bringHome, hnear, if_true, List.nil_append]

/-- If a slot within reach of `bucket` is free, a value is placed by one store, no higher than
that slot. -/
theorem place_of_free
    {hop : Nat} {σ : Slots α} {bucket limit s : Nat} (v : α) (hle : bucket ≤ s)
    (hreach : s - bucket < hop) (hlimit : s < limit) (hfree : σ s = none) :
  ∃ f, bucket ≤ f ∧ f ≤ s ∧ σ f = none
    ∧ place hop σ bucket limit v = (true, [⟨f, some ⟨f - bucket, v⟩⟩])
  := by
  obtain ⟨f, hfs, hf⟩ := exists_firstFree (n := limit - bucket) hle (by omega) hfree
  obtain ⟨hbf, -, hnone, -⟩ := firstFree_eq_some hf
  use f, hbf, hfs, hnone
  apply place_near v hf (by omega)

/-- What `place` does: the moves it makes, the slots it touches, and where the value goes. -/
theorem place_cases
    {hop : Nat} {σ : Slots α} {bucket limit : Nat} {v : α} {ok : Bool} {ws : List (Store α)}
    (h : place hop σ bucket limit v = (ok, ws)) :
  (∀ w ∈ ws, bucket ≤ w.idx ∧ w.idx < limit) ∧
    ((ok = false ∧ Shifts hop σ ws) ∨
      (ok = true ∧ ∃ moves slot, ws = moves ++ [⟨slot, some ⟨slot - bucket, v⟩⟩]
        ∧ Shifts hop σ moves ∧ bucket ≤ slot ∧ slot < limit ∧ slot - bucket < hop
        ∧ σ.apply moves slot = none))
  := by
  rw [place] at h
  cases hf : firstFree σ (limit - bucket) bucket with
  | none =>
      rw [hf] at h
      obtain ⟨rfl, rfl⟩ := Prod.mk.inj h
      exact ⟨fun _ hw => (nomatch hw), .inl ⟨rfl, .nil σ⟩⟩
  | some free =>
      simp only [hf] at h
      obtain ⟨hle, hlt, hnone, -⟩ := firstFree_eq_some hf
      obtain ⟨hshifts, hidx, hslot⟩ := bringHome_spec hop (free - bucket + 1) hle hnone
      generalize bringHome hop (free - bucket + 1) σ bucket free = r at h hshifts hidx hslot
      obtain ⟨moves, found⟩ := r
      cases found with
      | none =>
          obtain ⟨rfl, rfl⟩ := Prod.mk.inj h
          refine ⟨?_, .inl ⟨rfl, hshifts⟩⟩
          intro w hw
          obtain ⟨h₁, h₂⟩ := hidx w hw
          exact ⟨h₁, by omega⟩
      | some slot =>
          obtain ⟨rfl, rfl⟩ := Prod.mk.inj h
          obtain ⟨h₁, h₂, h₃, h₄⟩ := hslot slot rfl
          refine ⟨?_, .inr ⟨rfl, moves, slot, rfl, hshifts, h₁, by omega, h₃, h₄⟩⟩
          intro w hw
          obtain hw | hw := List.mem_append.mp hw
          · obtain ⟨h₁, h₂⟩ := hidx w hw
            exact ⟨h₁, by omega⟩
          · obtain rfl := List.mem_singleton.mp hw
            exact ⟨h₁, by simp only; omega⟩

/-- Placing a value keeps the array well formed and adds the value to the contents if it was
placed; a value not placed leaves the contents as they are. -/
theorem place_spec
    {hop buckets : Nat} {σ : Slots α} (hσ : Wf hop buckets σ) {bucket limit : Nat} {v : α}
    {ok : Bool} {ws : List (Store α)} (h : place hop σ bucket limit v = (ok, ws))
    (hbucket : bucket < buckets) (hlimit : limit ≤ buckets + hop) :
  Wf hop buckets (σ.apply ws) ∧
    contents (buckets + hop) (σ.apply ws)
      = (if ok then {(bucket, v)} else 0) + contents (buckets + hop) σ
  := by
  obtain ⟨-, ⟨rfl, hshifts⟩ | ⟨rfl, moves, slot, rfl, hshifts, hle, hlt, hreach, hfree⟩⟩ :=
    place_cases h
  · use hshifts.wf hσ
    simp [hshifts.contents hσ]
  · rw [Slots.apply_append]
    constructor
    · apply (hshifts.wf hσ).store
      rintro c ⟨rfl⟩
      simp only
      omega
    · have hin : slot < buckets + hop := by omega
      have hfill := contents_fill (c := ⟨slot - bucket, v⟩) hin hfree
      have hhome : slot - (slot - bucket) = bucket := by omega
      rw [Slots.apply_cons, Slots.apply_nil, hfill, hshifts.contents hσ]
      simp [hhome]

end Hopscotch
