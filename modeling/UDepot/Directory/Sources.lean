import UDepot.Directory.Grows

/-!
# The tables of a directory

The tables of a directory come from a source and go back to it (`TableSource`).  A call of
`Directory::grow` gets twice as many as there are, one by one.  If the source has none for now the
call keeps those it got for the next one, and if it has none at all the call gives them back.  Else
they are the tables of the next snapshot, and those of the last one are given back.

Tables are numbered as the source makes them.  Every one is at all times in one place: in the
current snapshot, among the spare ones, given back, or in the hands of a call that has not returned
(`Sources.Inv`).
-/

namespace UDepot.Sources

open Transition

/-- The `seen` that is every generation. -/
def kAnyGeneration : Nat := 2 ^ 64 - 1

def EAGAIN : Int := 11

def ENOSPC : Int := 28

/-- A directory: its current snapshot and the tables of it, the spare ones, how many there are in
all, and those given back to the source, in that order. -/
structure SourcedDir where
  snap : DirSnapshot
  tables : List Nat
  spare : List Nat
  made : Nat
  retired : List Nat

/-- Where a call of `grow` is, with the tables it has in hand, or what the last one returned if
nothing was written since. -/
inductive GrowCall where
  | idle (rc : Option Int)
  | getting (tables : List Nat)
  | failing (rc : Int) (tables : List Nat)
  | ready (tables : List Nat)
  | frozen (tables : List Nat)
  | retiring (tables : List Nat)

/-- The tables a call has in hand.  After the new snapshot is published these are the old ones. -/
def GrowCall.held : GrowCall → List Nat
  | .idle _ => []
  | .getting tables | .failing _ tables | .ready tables | .frozen tables | .retiring tables =>
      tables

/-- A directory and the call of `grow` on it, with the directory as it was when it was called. -/
structure GrowState where
  dir : SourcedDir
  grow : GrowCall
  seen : Nat
  before : SourcedDir

/-- A write between two calls of `grow`, a call, an answer of the source, or the next step of a call
that is not an answer. -/
inductive Act where
  | write (c : HashTable.Call)
  | grow (seen : Nat)
  | newTable (rc : Int)
  | next

namespace GrowState

variable (s : GrowState)

/-- A directory of cleared tables. -/
def init (tableBits bucketBits : Nat) : GrowState :=
  let dir : SourcedDir :=
    ⟨.cleared tableBits bucketBits, List.range (2 ^ tableBits), [], 2 ^ tableBits, []⟩
  ⟨dir, .idle none, kAnyGeneration, dir⟩

/-- A call of `grow` up to its loop. -/
def call (seen : Nat) : GrowState :=
  let s := { s with seen := seen, before := s.dir }
  if seen ≠ kAnyGeneration ∧ seen ≠ s.dir.snap.generation then { s with grow := .idle (some 0) }
  else if kMaxTableBits ≤ s.dir.snap.tableBits then { s with grow := .idle (some (-ENOSPC)) }
  else { s with dir := { s.dir with spare := [] }, grow := .getting s.dir.spare }

/-- An answer of `new_table`. -/
def answer (rc : Int) (tables : List Nat) : GrowState :=
  if rc = 0 then
    { s with
      dir := { s.dir with made := s.dir.made + 1 }
      grow := .getting (tables ++ [s.dir.made]) }
  else if rc = -EAGAIN then
    { s with dir := { s.dir with spare := tables }, grow := .idle (some (-EAGAIN)) }
  else { s with grow := .failing rc tables }

def retireTable (t : Nat) (grow : GrowCall) : GrowState :=
  { s with dir := { s.dir with retired := s.dir.retired ++ [t] }, grow := grow }

/-- A call keeps what it needs, and any more is spare, taken from the back. -/
def keep (tables : List Nat) : GrowState :=
  { s with
    dir :=
      { s.dir with spare := s.dir.spare ++ (tables.drop (2 * s.dir.snap.size)).reverse }
    grow := .ready (tables.take (2 * s.dir.snap.size)) }

def freeze (tables : List Nat) : GrowState :=
  { s with
    dir := { s.dir with snap := { s.dir.snap with frozen := true } }
    grow := .frozen tables }

/-- The entries are copied and the new snapshot is current. -/
def publish (tables : List Nat) : GrowState :=
  { s with
    dir := { s.dir with snap := s.dir.snap.growCopy, tables := tables }
    grow := .retiring s.dir.tables }

def next : Option GrowState :=
  match s.grow with
  | .idle _ => none
  | .getting tables =>
      if tables.length < 2 * s.dir.snap.size then none else some (s.keep tables)
  | .failing rc (t :: tables) => some (s.retireTable t (.failing rc tables))
  | .failing rc [] => some { s with grow := .idle (some rc) }
  | .ready tables => some (s.freeze tables)
  | .frozen tables => some (s.publish tables)
  | .retiring (t :: tables) => some (s.retireTable t (.retiring tables))
  | .retiring [] => some { s with grow := .idle (some 0) }

def step (a : Act) : Option GrowState :=
  match a, s.grow with
  | .write c, .idle _ =>
      some { s with
        dir := { s.dir with snap := (s.dir.snap.call c).2 }
        grow := .idle none }
  | .grow seen, .idle _ => some (s.call seen)
  | .newTable rc, .getting tables =>
      if tables.length < 2 * s.dir.snap.size then some (s.answer rc tables) else none
  | .next, _ => s.next
  | _, _ => none

end GrowState

/-! ### Invariants -/

/-- The snapshot and its tables are as they were when `grow` was called, for a generation that is
the current one, of a directory that can grow. -/
structure GrowState.Unchanged (s : GrowState) : Prop where
  snap : s.dir.snap = s.before.snap
  tables : s.dir.tables = s.before.tables
  seen : s.seen = kAnyGeneration ∨ s.seen = s.before.snap.generation
  bits : s.dir.snap.tableBits < kMaxTableBits

/-- What a call of `grow` has done. -/
def GrowCall.Ok (s : GrowState) : GrowCall → Prop
  | .idle rc => s.dir.snap.frozen = false ∧ ∀ c, rc = some c →
      (c ≠ 0 → s.dir.snap = s.before.snap ∧ s.dir.tables = s.before.tables)
      ∧ (s.seen ≠ kAnyGeneration → s.seen ≠ s.before.snap.generation → c = 0 ∧ s.dir = s.before)
  | .getting _ => s.Unchanged ∧ s.dir.snap.frozen = false ∧ s.dir.spare = []
  | .failing rc _ => s.Unchanged ∧ s.dir.snap.frozen = false ∧ rc ≠ 0
  | .ready tables => s.Unchanged ∧ tables.length = 2 * s.dir.snap.size
  | .frozen tables => (s.seen = kAnyGeneration ∨ s.seen = s.before.snap.generation)
      ∧ s.dir.snap.tableBits < kMaxTableBits ∧ tables.length = 2 * s.dir.snap.size
  | .retiring _ => (s.seen = kAnyGeneration ∨ s.seen = s.before.snap.generation)
      ∧ s.dir.snap.frozen = false

structure Inv (s : GrowState) : Prop where
  wf : s.dir.snap.Wf
  length : s.dir.tables.length = s.dir.snap.size
  owned : (s.dir.tables ++ s.dir.spare ++ s.dir.retired ++ s.grow.held).Perm (List.range s.dir.made)
  grow : s.grow.Ok s

variable {s s' : GrowState}

theorem Inv.init {tableBits : Nat} (hbits : tableBits ≤ kMaxTableBits) (bucketBits : Nat) :
    Inv (.init tableBits bucketBits) where
  wf := .cleared hbits bucketBits
  length := List.length_range
  owned := by
    simp only [GrowState.init, GrowCall.held, List.append_nil]
    apply List.Perm.refl
  grow := ⟨rfl, nofun⟩

/-! ### Steps -/

theorem Inv.write
    (h : Inv s) {rc : Option Int} (hidle : s.grow = .idle rc) (c : HashTable.Call) :
  Inv { s with dir := { s.dir with snap := (s.dir.snap.call c).2 }, grow := .idle none }
  where
  wf := h.wf.call c
  length := h.length
  owned := by
    have howned := h.owned
    rw [hidle] at howned
    apply howned
  grow := by
    have hok := h.grow
    rw [hidle] at hok
    exact ⟨hok.1, nofun⟩

theorem Inv.call
    (h : Inv s) {rc : Option Int} (hidle : s.grow = .idle rc) (seen : Nat) :
  Inv (s.call seen)
  := by
  have howned := h.owned
  have hok := h.grow
  rw [hidle] at howned hok
  rw [GrowState.call]
  simp only
  split
  · exact ⟨h.wf, h.length, howned, hok.1, fun c hc => ⟨fun _ => ⟨rfl, rfl⟩, fun _ _ =>
      ⟨(Option.some.inj hc).symm, rfl⟩⟩⟩
  · rename_i hseen
    rw [not_and_or, not_ne_iff, not_ne_iff] at hseen
    split
    · refine ⟨h.wf, h.length, howned, hok.1, fun c hc => ⟨fun _ => ⟨rfl, rfl⟩, ?_⟩⟩
      intro hany hgen
      exact absurd hseen (not_or.mpr ⟨hany, hgen⟩)
    · rename_i hbits
      refine ⟨h.wf, h.length, ?_, ⟨rfl, rfl, hseen, Nat.lt_of_not_le hbits⟩, hok.1, rfl⟩
      apply List.Perm.trans _ howned
      rw [List.perm_iff_count]
      intro t
      simp only [GrowCall.held, List.count_append, List.count_nil]
      omega

theorem Inv.answer
    (h : Inv s) {tables : List Nat} (hget : s.grow = .getting tables) (rc : Int) :
  Inv (s.answer rc tables)
  := by
  have howned := h.owned
  have hok := h.grow
  rw [hget] at howned hok
  obtain ⟨hsame, hfrozen, hspare⟩ := hok
  rw [GrowState.answer]
  split
  · refine ⟨h.wf, h.length, ?_, { hsame with }, hfrozen, hspare⟩
    rw [List.range_succ]
    simp only [GrowCall.held]
    rw [← List.append_assoc]
    apply howned.append_right
  · split
    · refine ⟨h.wf, h.length, ?_, hfrozen, ?_⟩
      · apply List.Perm.trans _ howned
        rw [hspare, List.perm_iff_count]
        intro t
        simp only [GrowCall.held, List.count_append, List.count_nil]
        omega
      · rintro c -
        refine ⟨fun _ => ⟨hsame.snap, hsame.tables⟩, ?_⟩
        intro hany hgen
        exact absurd hsame.seen (not_or.mpr ⟨hany, hgen⟩)
    · rename_i hrc _
      exact ⟨h.wf, h.length, howned, { hsame with }, hfrozen, hrc⟩

/-- A table in hand is given back. -/
theorem Inv.retireTable
    (h : Inv s) {t : Nat} {tables : List Nat} {grow : GrowCall} (hheld : s.grow.held = t :: tables)
    (hheld' : grow.held = tables) (hok : grow.Ok (s.retireTable t grow)) :
  Inv (s.retireTable t grow)
  where
  wf := h.wf
  length := h.length
  owned := by
    have howned := h.owned
    rw [hheld, ← List.singleton_append, ← List.append_assoc] at howned
    simp only [GrowState.retireTable, hheld', ← List.append_assoc] at howned ⊢
    apply howned
  grow := hok

theorem Inv.keep
    (h : Inv s) {tables : List Nat} (hget : s.grow = .getting tables)
    (hle : 2 * s.dir.snap.size ≤ tables.length) :
  Inv (s.keep tables)
  := by
  have howned := h.owned
  have hok := h.grow
  rw [hget] at howned hok
  refine ⟨h.wf, h.length, ?_, { hok.1 with }, ?_⟩
  · apply List.Perm.trans _ howned
    rw [List.perm_iff_count]
    intro t
    have hsplit : (tables.take (2 * s.dir.snap.size)).count t
        + (tables.drop (2 * s.dir.snap.size)).count t = tables.count t := by
      rw [← List.count_append, List.take_append_drop]
    simp only [GrowState.keep, GrowCall.held, List.count_append, List.count_reverse]
    omega
  · apply List.length_take_of_le hle

theorem Inv.freeze
    (h : Inv s) {tables : List Nat} (hready : s.grow = .ready tables) :
  Inv (s.freeze tables)
  := by
  have howned := h.owned
  have hok := h.grow
  rw [hready] at howned hok
  exact ⟨⟨h.wf.bits, h.wf.table, h.wf.indexBits, h.wf.tag, h.wf.select⟩, h.length, howned,
    hok.1.seen, hok.1.bits, hok.2⟩

theorem Inv.publish
    (h : Inv s) {tables : List Nat} (hfrozen : s.grow = .frozen tables) :
  Inv (s.publish tables)
  := by
  have howned := h.owned
  have hok := h.grow
  rw [hfrozen] at howned hok
  obtain ⟨hseen, hbits, hlen⟩ := hok
  obtain ⟨hcopied, -⟩ := h.wf.growCopy hbits
  refine ⟨hcopied.wf, ?_, ?_, hseen, hcopied.frozen⟩
  · show tables.length = 2 ^ s.dir.snap.growCopy.tableBits
    rw [hlen, hcopied.tableBits, Nat.pow_succ, Nat.mul_comm]
    rfl
  · apply List.Perm.trans _ howned
    rw [List.perm_iff_count]
    intro t
    simp only [GrowState.publish, GrowCall.held, List.count_append]
    omega

theorem Inv.next (h : Inv s) (hs : s.next = some s') : Inv s' := by
  have howned := h.owned
  have hok := h.grow
  rw [GrowState.next] at hs
  split at hs
  · cases hs
  · rename_i tables hget
    split at hs
    · cases hs
    · rename_i hle
      cases hs
      apply h.keep hget (Nat.le_of_not_lt hle)
  · rename_i rc t tables hfail
    cases hs
    rw [hfail] at hok
    obtain ⟨hsame, hrest⟩ := hok
    apply h.retireTable (by rw [hfail]; rfl) rfl
    exact ⟨{ hsame with }, hrest⟩
  · rename_i rc hfail
    cases hs
    rw [hfail] at howned hok
    obtain ⟨hsame, hfrozen, -⟩ := hok
    refine ⟨h.wf, h.length, howned, hfrozen, ?_⟩
    rintro c -
    refine ⟨fun _ => ⟨hsame.snap, hsame.tables⟩, ?_⟩
    intro hany hgen
    exact absurd hsame.seen (not_or.mpr ⟨hany, hgen⟩)
  · rename_i tables hready
    cases hs
    apply h.freeze hready
  · rename_i tables hfrozen
    cases hs
    apply h.publish hfrozen
  · rename_i t tables hretire
    cases hs
    rw [hretire] at hok
    apply h.retireTable (by rw [hretire]; rfl) rfl
    exact hok
  · rename_i hretire
    cases hs
    rw [hretire] at howned hok
    refine ⟨h.wf, h.length, howned, hok.2, ?_⟩
    intro c hc
    refine ⟨fun hne => absurd (Option.some.inj hc).symm hne, ?_⟩
    intro hany hgen
    exact absurd hok.1 (not_or.mpr ⟨hany, hgen⟩)

theorem Inv.step (h : Inv s) {a : Act} (hs : s.step a = some s') : Inv s' := by
  unfold GrowState.step at hs
  split at hs
  · rename_i hidle
    cases hs
    apply h.write hidle
  · rename_i hidle
    cases hs
    apply h.call hidle
  · rename_i hget
    obtain ⟨-, ⟨⟩⟩ := Option.ite_none_right_eq_some.mp hs
    apply h.answer hget
  · apply h.next hs
  · cases hs

/-! ### Runs -/

/-- In every run of writes and calls of `grow`, for any generations and any answers of the source:
a call that has not returned zero has left the current snapshot as it was, with its tables, its
entries, its flag and its generation; a call for a generation that was not the current one has
changed nothing and returned zero; no snapshot that is published has more than 256 tables; and every
table the source has made is at all times in exactly one of the current snapshot, the spare tables,
the tables given back, each once, and those in the hands of a call that has not returned. -/
theorem grow_loses_no_table
    {tableBits bucketBits : Nat} (hbits : tableBits ≤ kMaxTableBits)
    (hr : Reach GrowState.step (fun _ _ => True) (.init tableBits bucketBits) s) :
  (∀ {rc}, s.grow = .idle (some rc) → rc ≠ 0 →
      s.dir.snap = s.before.snap ∧ s.dir.tables = s.before.tables)
    ∧ (∀ {rc}, s.grow = .idle (some rc) → s.seen ≠ kAnyGeneration →
      s.seen ≠ s.before.snap.generation → rc = 0 ∧ s.dir = s.before)
    ∧ s.dir.snap.size ≤ 256 ∧ s.dir.tables.length = s.dir.snap.size
    ∧ (s.dir.tables ++ s.dir.spare ++ s.dir.retired ++ s.grow.held).Perm (List.range s.dir.made)
    ∧ ∀ {rc}, s.grow = .idle rc → s.dir.snap.frozen = false
      ∧ (s.dir.tables ++ s.dir.spare ++ s.dir.retired).Perm (List.range s.dir.made)
  := by
  have h : Inv s := hr.invariant (.init hbits bucketBits) fun _ _ _ h _ hs => h.step hs
  have hok := h.grow
  refine ⟨?_, ?_, ?_, h.length, h.owned, ?_⟩
  · intro rc hidle
    rw [hidle] at hok
    apply (hok.2 rc rfl).1
  · intro rc hidle
    rw [hidle] at hok
    apply (hok.2 rc rfl).2
  · exact Nat.pow_le_pow_right Nat.two_pos h.wf.bits
  · intro rc hidle
    have howned := h.owned
    rw [hidle] at hok howned
    rw [GrowCall.held, List.append_nil] at howned
    exact ⟨hok.1, howned⟩

/-- A directory of two tables.  The source has two more and then none for now; the next call gets
the rest and grows the directory.  A call for the old generation follows, and one that gets a table
and then an error. -/
def fourGrows : Option GrowState :=
  run GrowState.step (.init 1 3)
    (([.grow kAnyGeneration, .newTable 0, .newTable 0, .newTable (-EAGAIN), .write (.insert 9 1 7),
      .grow 0, .newTable 0, .newTable 0] : List Act)
    ++ List.replicate 6 Act.next
    ++ ([.grow 0, .grow 1, .newTable 0, .newTable (-ENOSPC), .next, .next] : List Act))

theorem fourGrows_tables :
    ∃ s, fourGrows = some s ∧ s.grow.held = [] ∧ s.dir.tables = [2, 3, 4, 5] ∧ s.dir.made = 7
      ∧ s.dir.snap.generation = s.before.snap.generation
      ∧ ([2, 3, 4, 5] ++ s.dir.spare ++ s.dir.retired).Perm (List.range 7) := by
  have hsome : fourGrows.isSome = true := by decide +kernel
  have hmade : fourGrows.map (fun s => (s.dir.tables, s.dir.made)) = some ([2, 3, 4, 5], 7) := by
    decide +kernel
  have hidle : fourGrows.map (fun s => match s.grow with | .idle rc => rc | _ => none)
      = some (some (-ENOSPC)) := by decide +kernel
  obtain ⟨s, hs⟩ := Option.isSome_iff_exists.mp hsome
  rw [hs, Option.map_some, Option.some.injEq] at hmade hidle
  obtain ⟨htables, hmade⟩ := Prod.mk.inj hmade
  have hgrow : s.grow = .idle (some (-ENOSPC)) := by
    cases hg : s.grow with
    | idle rc =>
        rw [hg] at hidle
        rw [← hidle]
    | _ =>
        rw [hg] at hidle
        cases hidle
  obtain ⟨hsame, -, -, -, -, howned⟩ :=
    grow_loses_no_table (by decide) (.of_run .refl (fun _ _ _ => trivial) hs)
  obtain ⟨-, howned⟩ := howned hgrow
  rw [htables, hmade] at howned
  refine ⟨s, hs, by rw [hgrow]; rfl, htables, hmade, ?_, howned⟩
  rw [(hsame hgrow (by decide)).1]

end UDepot.Sources
