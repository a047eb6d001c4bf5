import UDepot.Lib.Hopscotch

/-!
# The accesses of a write

The writes of a slot array as programs that load and store one slot at a time.  `Prog.run` gives the
stores a program makes on an array and its result.  `Prog.Within R Q` says that every slot it loads
or stores to is in a region `R` and that its result satisfies `Q`, whatever it finds in the slots it
loads.

`placeProg` makes the stores of `place` (`run_placeProg`), and all its accesses are to the slots it
may search (`within_placeProg`).
-/

namespace Hopscotch

variable {α β γ : Type}

/-- A program on a slot array. -/
inductive Prog (α β : Type) where
  | ret (b : β)
  | load (i : Nat) (k : Option (Cell α) → Prog α β)
  | store (w : Store α) (k : Prog α β)

namespace Prog

/-- The stores made, and the result. -/
def run : Prog α β → Slots α → List (Store α) × β
  | .ret b, _ => ([], b)
  | .load i k, σ => (k (σ i)).run σ
  | .store w k, σ => (w :: (k.run (σ.store w)).1, (k.run (σ.store w)).2)

/-- Every access is to a slot of the region, and the result is as said. -/
def Within (R : Nat → Prop) (Q : β → Prop) : Prog α β → Prop
  | .ret b => Q b
  | .load i k => R i ∧ ∀ o, (k o).Within R Q
  | .store w k => R w.idx ∧ k.Within R Q

/-- The slots a program may load or store to. -/
inductive Touches (idx : Nat) : Prog α β → Prop
  | load {k : Option (Cell α) → Prog α β} : Touches idx (.load idx k)
  | store {w : Store α} {k : Prog α β} (hw : w.idx = idx) : Touches idx (.store w k)
  | afterLoad {i : Nat} {k : Option (Cell α) → Prog α β} (o : Option (Cell α))
      (h : Touches idx (k o)) : Touches idx (.load i k)
  | afterStore {w : Store α} {k : Prog α β} (h : Touches idx k) : Touches idx (.store w k)

def bind : Prog α β → (β → Prog α γ) → Prog α γ
  | .ret b, f => f b
  | .load i k, f => .load i fun o => (k o).bind f
  | .store w k, f => .store w (k.bind f)

theorem run_bind (f : β → Prog α γ) :
  ∀ (p : Prog α β) (σ : Slots α), (p.bind f).run σ
    = ((p.run σ).1 ++ ((f (p.run σ).2).run (σ.apply (p.run σ).1)).1,
      ((f (p.run σ).2).run (σ.apply (p.run σ).1)).2)
  | .ret _, _ => rfl
  | .load i k, σ => run_bind f (k (σ i)) σ
  | .store w k, σ => by
      rw [bind, run, run_bind f k]
      rfl

variable {R : Nat → Prop} {Q Q' : β → Prop} {S : γ → Prop}

/-- A program that stays within a region touches its slots only. -/
theorem Within.of_touches
    {p : Prog α β} {idx : Nat} (h : p.Within R Q) (ht : p.Touches idx) :
  R idx
  := by
  induction ht with
  | load => exact h.1
  | store hw => exact hw ▸ h.1
  | afterLoad o _ ih => exact ih (h.2 o)
  | afterStore _ ih => exact ih h.2

theorem Within.bind
    {f : β → Prog α γ} (hf : ∀ b, Q b → (f b).Within R S) :
  ∀ {p : Prog α β}, p.Within R Q → (p.bind f).Within R S
  | .ret b, h => hf b h
  | .load _ _, h => ⟨h.1, fun o => Within.bind hf (h.2 o)⟩
  | .store _ _, h => ⟨h.1, Within.bind hf h.2⟩

theorem Within.mono
    {R' : Nat → Prop} (hR : ∀ i, R i → R' i) (hQ : ∀ b, Q b → Q' b) :
  ∀ {p : Prog α β}, p.Within R Q → p.Within R' Q'
  | .ret b, h => hQ b h
  | .load i _, h => ⟨hR i h.1, fun o => Within.mono hR hQ (h.2 o)⟩
  | .store w _, h => ⟨hR w.idx h.1, Within.mono hR hQ h.2⟩

end Prog

/-! ### Placing a value, access by access -/

/-- The search for a free slot. -/
def firstFreeProg : Nat → Nat → Prog α (Option Nat)
  | 0, _ => .ret none
  | n + 1, i => .load i fun o => if o.isNone then .ret (some i) else firstFreeProg n (i + 1)

/-- The search for a cell that may move to `free`, and the move. -/
def displaceProg (hop target free : Nat) : Nat → Prog α (Option Nat)
  | 0 => .ret none
  | d + 1 =>
      if free < d + 1 then displaceProg hop target free d
      else if free - (d + 1) < target then .ret none
      else .load (free - (d + 1)) fun
        | none => displaceProg hop target free d
        | some c =>
            if hop ≤ free - (free - (d + 1) - c.offset) then displaceProg hop target free d
            else .store ⟨free, some ⟨free - (free - (d + 1) - c.offset), c.val⟩⟩
              (.store ⟨free - (d + 1), none⟩ (.ret (some (free - (d + 1)))))

/-- The loop of moves. -/
def bringHomeProg (hop bucket : Nat) : Nat → Nat → Prog α (Option Nat)
  | 0, _ => .ret none
  | n + 1, free =>
      if free - bucket < hop then .ret (some free)
      else (displaceProg hop bucket free (hop - 1)).bind fun
        | none => .ret none
        | some low => bringHomeProg hop bucket n low

/-- The whole write. -/
def placeProg (hop bucket limit : Nat) (v : α) : Prog α Bool :=
  (firstFreeProg (limit - bucket) bucket).bind fun
    | none => .ret false
    | some free => (bringHomeProg hop bucket (free - bucket + 1) free).bind fun
      | none => .ret false
      | some slot => .store ⟨slot, some ⟨slot - bucket, v⟩⟩ (.ret true)

theorem run_firstFreeProg
    (σ : Slots α) :
  ∀ n i, (firstFreeProg n i).run σ = ([], firstFree σ n i)
  | 0, _ => rfl
  | n + 1, i => by
      rw [firstFreeProg, Prog.run, firstFree]
      split
      · rfl
      · apply run_firstFreeProg

theorem run_displaceProg
    (hop target free : Nat) (σ : Slots α) :
  ∀ d, (displaceProg hop target free d).run σ = match displace hop σ target free d with
    | none => ([], none)
    | some (low, moved) => ([⟨free, some moved⟩, ⟨low, none⟩], some low)
  | 0 => rfl
  | d + 1 => by
      rw [displaceProg, displace]
      split
      · apply run_displaceProg
      · split
        · rfl
        · rw [Prog.run]
          cases σ (free - (d + 1)) with
          | none => apply run_displaceProg
          | some c =>
              simp only
              split
              · apply run_displaceProg
              · rfl

theorem run_bringHomeProg
    (hop bucket : Nat) :
  ∀ (n free : Nat) (σ : Slots α),
    (bringHomeProg hop bucket n free).run σ = bringHome hop n σ bucket free
  | 0, _, _ => rfl
  | n + 1, free, σ => by
      rw [bringHomeProg, bringHome]
      split
      · rfl
      · rw [Prog.run_bind, run_displaceProg]
        cases displace hop σ bucket free (hop - 1) with
        | none => rfl
        | some p =>
            obtain ⟨low, moved⟩ := p
            simp only [run_bringHomeProg hop bucket n low]
            rfl

/-- The program makes the stores of `place`. -/
theorem run_placeProg
    (hop bucket limit : Nat) (v : α) (σ : Slots α) :
  (placeProg hop bucket limit v).run σ
    = ((place hop σ bucket limit v).2, (place hop σ bucket limit v).1)
  := by
  rw [placeProg, Prog.run_bind, run_firstFreeProg, place]
  cases firstFree σ (limit - bucket) bucket with
  | none => rfl
  | some free =>
      simp only [Prog.run_bind, run_bringHomeProg, List.nil_append, Slots.apply_nil]
      cases hb : bringHome hop (free - bucket + 1) σ bucket free with
      | mk moves found =>
          cases found with
          | none => simp [Prog.run]
          | some slot => simp [Prog.run]

theorem within_firstFreeProg :
  ∀ n i, (firstFreeProg (α := α) n i).Within (fun j => i ≤ j ∧ j < i + n)
    fun o => ∀ f, o = some f → i ≤ f ∧ f < i + n
  | 0, _ => nofun
  | n + 1, i => by
      refine ⟨⟨Nat.le_refl _, by omega⟩, fun o => ?_⟩
      simp only
      split
      · rintro f ⟨⟩
        exact ⟨Nat.le_refl _, by omega⟩
      · refine (within_firstFreeProg n (i + 1)).mono ?_ ?_
        · intro j hj
          omega
        · intro o ho f hf
          have := ho f hf
          omega

theorem within_displaceProg
    {hop target free : Nat} (hle : target ≤ free) :
  ∀ d, (displaceProg (α := α) hop target free d).Within (fun j => target ≤ j ∧ j ≤ free)
    fun o => ∀ low, o = some low → target ≤ low ∧ low < free
  | 0 => nofun
  | d + 1 => by
      rw [displaceProg]
      split
      · apply within_displaceProg hle
      · split
        · nofun
        · refine ⟨by omega, fun o => ?_⟩
          cases o with
          | none => apply within_displaceProg hle
          | some c =>
              simp only
              split
              · apply within_displaceProg hle
              · refine ⟨⟨hle, Nat.le_refl _⟩, ⟨by simp only; omega, by simp only; omega⟩, ?_⟩
                rintro low ⟨⟩
                omega

theorem within_bringHomeProg
    {hop bucket : Nat} :
  ∀ {n free : Nat}, bucket ≤ free →
    (bringHomeProg (α := α) hop bucket n free).Within (fun j => bucket ≤ j ∧ j ≤ free)
      fun o => ∀ slot, o = some slot → bucket ≤ slot ∧ slot ≤ free
  | 0, _, _ => nofun
  | n + 1, free, hle => by
      rw [bringHomeProg]
      split
      · rintro slot ⟨⟩
        exact ⟨hle, Nat.le_refl _⟩
      · refine (within_displaceProg hle (hop - 1)).bind ?_
        intro o ho
        cases o with
        | none => nofun
        | some low =>
            obtain ⟨htarget, hlt⟩ := ho low rfl
            refine (within_bringHomeProg htarget).mono ?_ ?_
            · intro j hj
              omega
            · intro o ho slot hslot
              have := ho slot hslot
              omega

/-- All accesses of the write are to slots from the bucket on and below the limit. -/
theorem within_placeProg
    (hop bucket limit : Nat) (v : α) :
  (placeProg hop bucket limit v).Within (fun j => bucket ≤ j ∧ j < limit) fun _ => True
  := by
  refine Prog.Within.bind (Q := fun o => ∀ f, o = some f → bucket ≤ f ∧ f < limit) ?_
    ((within_firstFreeProg _ _).mono ?_ ?_)
  · intro o ho
    cases o with
    | none => trivial
    | some free =>
        obtain ⟨hle, hlt⟩ := ho free rfl
        refine Prog.Within.bind ?_ ((within_bringHomeProg hle).mono ?_ fun _ h => h)
        · intro o ho
          cases o with
          | none => trivial
          | some slot =>
              have := ho slot rfl
              exact ⟨⟨this.1, by simp only; omega⟩, trivial⟩
        · intro j hj
          omega
  · intro j hj
    omega
  · intro o ho f hf
    have := ho f hf
    omega

end Hopscotch
