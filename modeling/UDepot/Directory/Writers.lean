import UDepot.HashTable.Stores
import UDepot.Directory.Grows

/-!
# Writers and grows

Any number of writers on a directory that grows, step by step.  A writer enters a read section,
loads the current snapshot, takes the stripes of its hash, and sees whether the snapshot is frozen.
If it is, the writer leaves its section and waits for the next snapshot; if not, it makes the stores
of its call one by one.  A grow freezes the snapshot, waits for the sections begun before, copies
the entries slot by slot and publishes the copy.

Writers and grows agree on one thing: a writer that saw the snapshot not frozen is in a section that
began before the grow waits.  So nobody writes while entries are copied (`Grow.Awaits`).
-/

namespace UDepot.Directory

open Hopscotch Transition

/-- Where a writer is. -/
inductive Stage where
  | entered
  | loaded (gen : Nat)
  | locked (gen : Nat)
  | writing (gen : Nat) (ok : Bool) (pending : List (Store EntryInfo))
  | unlocked (ok : Bool)
  | refused (gen : Nat)
  | waiting (gen : Nat)
  deriving DecidableEq, Repr

/-- A writer: the number of its call, the call, the number of its read section, and where it is. -/
structure Party where
  num : Nat
  call : HashTable.Call
  sec : Nat
  stage : Stage
  deriving DecidableEq, Repr

/-- Where a grow is.  It waits for the sections with a number below `first`, and it copies slot `s`
of table `j` next. -/
inductive Grow where
  | idle
  | frozen
  | syncing (first : Nat)
  | copying (j s : Nat) (new : DirSnapshot)
  | published

/-- A directory with its snapshots, the owners of the stripes of their tables, the writers and the
read sections there are, some of them of readers.  `log` is the calls that had their effect, in that
order, and `returned` the calls that returned. -/
structure State where
  snaps : Nat → DirSnapshot
  cur : Nat
  stripes : Nat → Nat → Nat → Option Nat
  parties : Nat → Option Party
  sections : Finset Nat
  readers : Finset Nat
  nextSec : Nat
  nextNum : Nat
  grow : Grow
  log : List (Nat × HashTable.Call)
  returned : List (Nat × HashTable.Call × Bool)

inductive Act
  | call (i : Nat) (c : HashTable.Call)
  | load (i : Nat)
  | lock (i : Nat)
  | test (i : Nat)
  | store (i : Nat)
  | unlock (i : Nat)
  | leave (i : Nat)
  | again (i : Nat)
  | enterReader
  | leaveReader (sec : Nat)
  | freeze
  | synchronize
  | synced
  | copy
  | publish
  | retire
  deriving DecidableEq, Repr

namespace State

/-- A directory of one snapshot that nobody uses. -/
def init (snap : DirSnapshot) : State where
  snaps := fun _ => { snap with frozen := false }
  cur := 0
  stripes := fun _ _ _ => none
  parties := fun _ => none
  sections := ∅
  readers := ∅
  nextSec := 0
  nextNum := 0
  grow := .idle
  log := []
  returned := []

variable (s : State)

def curSnap : DirSnapshot := s.snaps s.cur

def setSnap (gen : Nat) (snap : DirSnapshot) : State :=
  { s with snaps := Function.update s.snaps gen snap }

def setParty (i : Nat) (p : Party) : State :=
  { s with parties := Function.update s.parties i (some p) }

/-- The owners of the stripes of one table. -/
def setStripes (gen j : Nat) (stripes : Nat → Option Nat) : State :=
  { s with stripes := Function.update s.stripes gen (Function.update (s.stripes gen) j stripes) }

/-- A read section begins. -/
def enter : State := { s with sections := insert s.nextSec s.sections, nextSec := s.nextSec + 1 }

/-- A writer makes its next store, in the table of its hash. -/
def stored (i : Nat) (p : Party) (gen : Nat) (ok : Bool) (st : Store EntryInfo)
    (ws : List (Store EntryInfo)) : State :=
  let snap := s.snaps gen
  let t := snap.tableForHash p.call.hash
  { (s.setSnap gen (snap.setTable (snap.tableIndex p.call.hash) (t.apply [st]))).setParty i
      { p with stage := .writing gen ok ws } with
    log := if ws = [] ∧ ok = true then s.log ++ [(p.num, p.call)] else s.log }

/-- The current snapshot is frozen. -/
def freeze : State :=
  { s.setSnap s.cur { s.curSnap with frozen := true } with grow := .frozen }

/-- A snapshot becomes the current one. -/
def publish (new : DirSnapshot) : State :=
  { s.setSnap (s.cur + 1) new with cur := s.cur + 1, grow := .published }

/-- A step of a writer. -/
def stepParty (i : Nat) (p : Party) (a : Act) : Option State :=
  match p.stage, a with
  | .entered, .load _ => some (s.setParty i { p with stage := .loaded s.cur })
  | .loaded gen, .lock _ =>
      let snap := s.snaps gen
      let t := snap.tableForHash p.call.hash
      let j := snap.tableIndex p.call.hash
      if s.stripes gen j (t.lockFor p.call.hash).1 = none
          ∧ s.stripes gen j (t.lockFor p.call.hash).2 = none then
        some ((s.setStripes gen j (t.lock (s.stripes gen j) i p.call.hash)).setParty i
          { p with stage := .locked gen })
      else none
  | .locked gen, .test _ =>
      let snap := s.snaps gen
      let t := snap.tableForHash p.call.hash
      let j := snap.tableIndex p.call.hash
      if snap.frozen then
        some ((s.setStripes gen j (t.unlock (s.stripes gen j) p.call.hash)).setParty i
          { p with stage := .refused gen })
      else some (s.setParty i
        { p with stage := .writing gen (p.call.stores t).1 (p.call.stores t).2 })
  | .writing gen ok (st :: ws), .store _ => some (s.stored i p gen ok st ws)
  | .writing gen ok [], .unlock _ =>
      let snap := s.snaps gen
      let t := snap.tableForHash p.call.hash
      let j := snap.tableIndex p.call.hash
      some ((s.setStripes gen j (t.unlock (s.stripes gen j) p.call.hash)).setParty i
        { p with stage := .unlocked ok })
  | .unlocked ok, .leave _ =>
      some { s with
        parties := Function.update s.parties i none
        sections := s.sections.erase p.sec
        returned := s.returned ++ [(p.num, p.call, ok)] }
  | .refused gen, .leave _ =>
      some { s.setParty i { p with stage := .waiting gen } with
        sections := s.sections.erase p.sec }
  | .waiting gen, .again _ =>
      if s.curSnap.generation ≠ (s.snaps gen).generation then
        some (s.enter.setParty i { p with sec := s.nextSec, stage := .entered })
      else none
  | _, _ => none

/-- A step of a grow. -/
def stepGrow (a : Act) : Option State :=
  match s.grow, a with
  | .idle, .freeze =>
      if s.curSnap.tableBits < kMaxTableBits then some s.freeze else none
  | .frozen, .synchronize => some { s with grow := .syncing s.nextSec }
  | .syncing first, .synced =>
      if ∀ sec ∈ s.sections, first ≤ sec then
        some { s with grow := .copying 0 0 s.curSnap.doubled }
      else none
  | .copying j k new, .copy =>
      if j < s.curSnap.size then
        if k < (s.curSnap.tables j).totalSlots then
          some { s with grow := .copying j (k + 1) (s.curSnap.copySlot j k new) }
        else some { s with grow := .copying (j + 1) 0 new }
      else none
  | .copying j _ new, .publish =>
      if j = s.curSnap.size then some (s.publish new) else none
  | .published, .retire => some { s with grow := .idle }
  | _, _ => none

def step (a : Act) : Option State :=
  match a with
  | .call i c =>
      match s.parties i with
      | some _ => none
      | none =>
          some { s.enter.setParty i ⟨s.nextNum, c, s.nextSec, .entered⟩ with
            nextNum := s.nextNum + 1 }
  | .load i | .lock i | .test i | .store i | .unlock i | .leave i | .again i =>
      (s.parties i).bind fun p => s.stepParty i p a
  | .enterReader => some { s.enter with readers := insert s.nextSec s.readers }
  | .leaveReader sec =>
      if sec ∈ s.readers then
        some { s with readers := s.readers.erase sec, sections := s.sections.erase sec }
      else none
  | .freeze | .synchronize | .synced | .copy | .publish | .retire => s.stepGrow a

end State

/-! ### What is kept -/

/-- The writer a party is on the tables of a snapshot, with the generation of that. -/
def Party.writer (p : Party) : Option (Nat × HashTable.Writer) :=
  match p.stage with
  | .locked gen => some (gen, ⟨p.call, false, []⟩)
  | .writing gen ok ws => some (gen, ⟨p.call, ok, ws⟩)
  | _ => none

/-- The writer a party is on one table. -/
def onTable (snap : DirSnapshot) (gen j : Nat) (o : Option Party) : Option HashTable.Writer :=
  match o.bind Party.writer with
  | some (g, w) => if g = gen ∧ snap.tableIndex w.call.hash = j then some w else none
  | none => none

/-- The snapshot a writer has loaded. -/
def Stage.gen : Stage → Option Nat
  | .entered | .unlocked _ => none
  | .loaded gen | .locked gen | .writing gen _ _ | .refused gen | .waiting gen => some gen

/-- Whether the call has had its effect. -/
def Stage.done : Stage → Bool
  | .writing _ ok ws => ok && ws.isEmpty
  | .unlocked ok => ok
  | _ => false

/-- A writer of a section may be writing. -/
def Grow.Awaits (sec : Nat) : Grow → Prop
  | .idle | .frozen | .published => True
  | .syncing first => sec < first
  | .copying _ _ _ => False

/-- The current snapshot is frozen. -/
def Grow.freezes : Grow → Bool
  | .idle | .published => false
  | .frozen | .syncing _ | .copying _ _ _ => true

namespace State

variable (s : State)

/-- The writers on a table. -/
def writersOn (gen j i : Nat) : Option HashTable.Writer := onTable (s.snaps gen) gen j (s.parties i)

/-- The items of the current snapshot, each counted once. -/
noncomputable def counted : Multiset (Nat × EntryInfo) :=
  ∑ j ∈ Finset.range s.curSnap.size, (s.curSnap.tables j).counted (s.writersOn s.cur j)

end State

/-- The multiset after the effects of calls, one after the other. -/
inductive Applies (bits : Nat) (m : Multiset (Nat × EntryInfo)) :
    List (Nat × HashTable.Call) → Multiset (Nat × EntryInfo) → Prop
  | nil : Applies bits m [] m
  | snoc {log : List (Nat × HashTable.Call)} {m₁ m₂ : Multiset (Nat × EntryInfo)} {n : Nat}
      {c : HashTable.Call} (h : Applies bits m log m₁)
      (heffect : c.Effect (c.hash % 2 ^ bits) (hashToTag c.hash bits) true m₁ m₂) :
      Applies bits m (log ++ [(n, c)]) m₂

/-- What is kept for a writer. -/
structure Party.Ok (s : State) (p : Party) : Prop where
  gen : ∀ {g}, p.stage.gen = some g → g ≤ s.cur
  sec : p.sec < s.nextSec
  inside : (∀ g, p.stage ≠ .waiting g) → p.sec ∈ s.sections
  reader : p.sec ∉ s.readers
  writing : ∀ {g ok ws}, p.stage = .writing g ok ws → g = s.cur ∧ s.grow.Awaits p.sec
  num : p.num < s.nextNum
  logged : p.stage.done = true → (p.num, p.call) ∈ s.log
  unlogged : p.stage.done = false → ∀ x ∈ s.log, x.1 ≠ p.num
  unreturned : ∀ x ∈ s.returned, x.1 ≠ p.num

/-- What is kept for the calls that have had their effect and for those that have returned. -/
structure Logs (s : State) : Prop where
  nodup : (s.log.map Prod.fst).Nodup
  log : ∀ x ∈ s.log, x.1 < s.nextNum
  returned : ∀ x ∈ s.returned, x.1 < s.nextNum ∧ ((x.1, x.2.1) ∈ s.log ↔ x.2.2 = true)

/-- What is kept for a grow. -/
structure GrowOk (s : State) : Prop where
  frozen : ∀ {g}, g ≤ s.cur → ((s.snaps g).frozen = true ↔ g < s.cur ∨ s.grow.freezes = true)
  bits : s.grow.freezes = true → s.curSnap.tableBits < kMaxTableBits
  first : ∀ {first}, s.grow = .syncing first → first ≤ s.nextSec
  copying : ∀ {j k new}, s.grow = .copying j k new → j ≤ s.curSnap.size
    ∧ (j = s.curSnap.size → k = 0) ∧ k ≤ (s.curSnap.tables j).totalSlots
    ∧ new = s.curSnap.copySlots j k (s.curSnap.copyTables j s.curSnap.doubled)

structure Inv (bits : Nat) (m : Multiset (Nat × EntryInfo)) (s : State) : Prop where
  wf : ∀ {g}, g ≤ s.cur → (s.snaps g).Wf
  bucketBits : ∀ {g}, g ≤ s.cur → (s.snaps g).bucketBits = bits
  held : ∀ {g j}, g ≤ s.cur → j < (s.snaps g).size →
    HashTable.Held ((s.snaps g).tables j) (s.stripes g j) (s.writersOn g j)
  parties : ∀ {i p}, s.parties i = some p → p.Ok s
  apart : ∀ {i i' p p'}, s.parties i = some p → s.parties i' = some p' → i ≠ i' →
    p.num ≠ p'.num ∧ p.sec ≠ p'.sec
  readers : ∀ sec ∈ s.readers, sec < s.nextSec
  sections : ∀ sec ∈ s.sections, sec < s.nextSec
  logs : Logs s
  grow : GrowOk s
  counted : Applies bits m s.log s.counted

section

variable {bits : Nat} {m : Multiset (Nat × EntryInfo)} {s s' : State} {i : Nat} {p : Party}

/-! ### Writers of a table -/

theorem Party.writer_call
    {gen : Nat} {w : HashTable.Writer} (hw : p.writer = some (gen, w)) :
  w.call = p.call
  := by
  rw [Party.writer] at hw
  split at hw
  · cases hw
    rfl
  · cases hw
    rfl
  · cases hw

theorem Party.gen_of_writer
    {gen : Nat} {w : HashTable.Writer} (hw : p.writer = some (gen, w)) :
  p.stage.gen = some gen
  := by
  rw [Party.writer] at hw
  split at hw
  · rename_i hstage
    cases hw
    rw [hstage]
    rfl
  · rename_i hstage
    cases hw
    rw [hstage]
    rfl
  · cases hw

theorem onTable_of_writer
    (snap : DirSnapshot) {gen : Nat} {w : HashTable.Writer} (hw : p.writer = some (gen, w)) :
  onTable snap gen (snap.tableIndex p.call.hash) (some p) = some w
  := by
  rw [onTable, Option.bind_some, hw]
  exact if_pos ⟨rfl, by rw [Party.writer_call hw]⟩

theorem onTable_eq_some
    {snap : DirSnapshot} {gen j : Nat} {w : HashTable.Writer}
    (h : onTable snap gen j (some p) = some w) :
  p.writer = some (gen, w) ∧ snap.tableIndex p.call.hash = j
  := by
  rw [onTable, Option.bind_some] at h
  cases hw : p.writer with
  | none =>
      rw [hw] at h
      cases h
  | some x =>
      obtain ⟨g, w'⟩ := x
      rw [hw] at h
      simp only at h
      obtain ⟨⟨rfl, hj⟩, ⟨⟩⟩ := Option.ite_none_right_eq_some.mp h
      rw [Party.writer_call hw] at hj
      exact ⟨rfl, hj⟩

theorem onTable_eq_none
    {snap : DirSnapshot} {gen j : Nat}
    (h : ∀ {w}, p.writer = some (gen, w) → snap.tableIndex p.call.hash ≠ j) :
  onTable snap gen j (some p) = none
  := by
  cases ho : onTable snap gen j (some p) with
  | none => rfl
  | some w =>
      obtain ⟨hw, hj⟩ := onTable_eq_some ho
      exact absurd hj (h hw)

/-- The writers of a table after one party has changed. -/
theorem onTable_update (snap : DirSnapshot) (gen j : Nat) (parties : Nat → Option Party) (i : Nat)
    (o : Option Party) :
  (fun k => onTable snap gen j (Function.update parties i o k))
    = Function.update (fun k => onTable snap gen j (parties k)) i (onTable snap gen j o)
  := by
  funext k
  by_cases hk : k = i
  · subst hk
    rw [Function.update_self, Function.update_self]
  · rw [Function.update_of_ne hk, Function.update_of_ne hk]

/-- A party whose writer is on one table only, before and after, leaves the other tables as they
are. -/
theorem Inv.held_update
    (h : Inv bits m s) (hi : s.parties i = some p) {p' : Party} {gen : Nat}
    {str : Nat → Option Nat} (hcall : p'.call = p.call)
    (hold : ∀ {g w}, p.writer = some (g, w) → g = gen)
    (hnew : ∀ {g w}, p'.writer = some (g, w) → g = gen)
    (hheld : HashTable.Held ((s.snaps gen).tableForHash p.call.hash) str
      (Function.update (s.writersOn gen ((s.snaps gen).tableIndex p.call.hash)) i
        (onTable (s.snaps gen) gen ((s.snaps gen).tableIndex p.call.hash) (some p'))))
    {g j : Nat} (hg : g ≤ s.cur) (hj : j < (s.snaps g).size) :
  HashTable.Held ((s.snaps g).tables j)
    ((s.setStripes gen ((s.snaps gen).tableIndex p.call.hash) str).stripes g j)
    (fun k => onTable (s.snaps g) g j (Function.update s.parties i (some p') k))
  := by
  rw [onTable_update]
  by_cases hplace : g = gen ∧ j = (s.snaps gen).tableIndex p.call.hash
  · obtain ⟨rfl, rfl⟩ := hplace
    simp only [State.setStripes, Function.update_self]
    exact hheld
  · have hnone : ∀ {q : Party}, q.call = p.call → (∀ {g w}, q.writer = some (g, w) → g = gen) →
        onTable (s.snaps g) g j (some q) = none := by
      intro q hq hwriter
      apply onTable_eq_none
      intro w hw hidx
      obtain rfl := hwriter hw
      rw [hq] at hidx
      exact hplace ⟨rfl, hidx.symm⟩
    have hstripes : (s.setStripes gen ((s.snaps gen).tableIndex p.call.hash) str).stripes g j
        = s.stripes g j := by
      simp only [State.setStripes, Function.update_apply]
      split
      · rename_i hgg
        subst hgg
        rw [Function.update_apply, if_neg]
        exact fun hjj => hplace ⟨rfl, hjj⟩
      · rfl
    rw [hstripes, hnone hcall hnew]
    have hsame : Function.update (s.writersOn g j) i none = s.writersOn g j := by
      rw [← hnone rfl hold, ← hi]
      exact Function.update_eq_self ..
    have hheld' := h.held hg hj
    rw [← hsame] at hheld'
    exact hheld'

/-! ### Steps that change one party -/

/-- A party after another, or itself, has changed. -/
theorem update_eq_some
    {parties : Nat → Option Party} {o : Option Party} {k : Nat} {q : Party}
    (h : Function.update parties i o k = some q) :
  k = i ∧ o = some q ∨ k ≠ i ∧ parties k = some q
  := by
  by_cases hki : k = i
  · rw [hki, Function.update_self] at h
    exact .inl ⟨hki, h⟩
  · rw [Function.update_of_ne hki] at h
    exact .inr ⟨hki, h⟩

/-- Parties stay apart if one takes a number and a section no other has. -/
theorem Inv.apart_update
    (h : Inv bits m s) {o : Option Party}
    (ho : ∀ {q k q'}, o = some q → k ≠ i → s.parties k = some q' →
      q.num ≠ q'.num ∧ q.sec ≠ q'.sec)
    {k k' : Nat} {q q' : Party} (hk : Function.update s.parties i o k = some q)
    (hk' : Function.update s.parties i o k' = some q') (hne : k ≠ k') :
  q.num ≠ q'.num ∧ q.sec ≠ q'.sec
  := by
  obtain ⟨rfl, hq⟩ | ⟨hki, hq⟩ := update_eq_some hk
  · obtain ⟨rfl, -⟩ | ⟨hki', hq'⟩ := update_eq_some hk'
    · exact absurd rfl hne
    · exact ho hq hki' hq'
  · obtain ⟨rfl, hq'⟩ | ⟨-, hq'⟩ := update_eq_some hk'
    · obtain ⟨hnum, hsec⟩ := ho hq' hki hq
      exact ⟨hnum.symm, hsec.symm⟩
    · exact h.apart hq hq' hne

/-- What is kept for a party that does nothing. -/
theorem Party.Ok.frame
    (h : p.Ok s) (hcur : s'.cur = s.cur) (hgrow : s'.grow = s.grow)
    (hnextSec : s.nextSec ≤ s'.nextSec) (hnextNum : s.nextNum ≤ s'.nextNum)
    (hsections : p.sec ∈ s.sections → p.sec ∈ s'.sections) (hreaders : p.sec ∉ s'.readers)
    (hlog : s.log ⊆ s'.log) (hlog' : ∀ x ∈ s'.log, x ∈ s.log ∨ x.1 ≠ p.num)
    (hreturned : ∀ x ∈ s'.returned, x ∈ s.returned ∨ x.1 ≠ p.num) :
  p.Ok s'
  where
  gen := fun hg => hcur ▸ h.gen hg
  sec := h.sec.trans_le hnextSec
  inside := fun hin => hsections (h.inside hin)
  reader := hreaders
  writing := by
    rw [hcur, hgrow]
    exact h.writing
  num := h.num.trans_le hnextNum
  logged := fun hdone => hlog (h.logged hdone)
  unlogged := fun hdone x hx => (hlog' x hx).elim (h.unlogged hdone x) id
  unreturned := fun x hx => (hreturned x hx).elim (h.unreturned x) id

/-- A party goes on, in its section, with the locks it takes or releases. -/
theorem Inv.setStage
    (h : Inv bits m s) (hi : s.parties i = some p) (stage : Stage) (gen : Nat)
    (str : Nat → Option Nat)
    (hold : ∀ {g w}, p.writer = some (g, w) → g = gen ∧ w.clears = none)
    (hnew : ∀ {g w}, { p with stage := stage }.writer = some (g, w) → g = gen ∧ w.clears = none)
    (hheld : HashTable.Held ((s.snaps gen).tableForHash p.call.hash) str
      (Function.update (s.writersOn gen ((s.snaps gen).tableIndex p.call.hash)) i
        (onTable (s.snaps gen) gen ((s.snaps gen).tableIndex p.call.hash)
          (some { p with stage := stage }))))
    (hgen : ∀ {g}, stage.gen = some g → g ≤ s.cur) (hin : ∀ g, p.stage ≠ .waiting g)
    (hwriting : ∀ {g ok ws}, stage = .writing g ok ws → g = s.cur ∧ s.grow.Awaits p.sec)
    (hdone : stage.done = p.stage.done) :
  Inv bits m ((s.setStripes gen ((s.snaps gen).tableIndex p.call.hash) str).setParty i
    { p with stage := stage })
  := by
  have hp := h.parties hi
  refine ⟨h.wf, h.bucketBits, ?_, ?_, ?_, h.readers, h.sections,
    ⟨h.logs.nodup, h.logs.log, h.logs.returned⟩,
    ⟨h.grow.frozen, h.grow.bits, h.grow.first, h.grow.copying⟩, ?_⟩
  · intro g j hg hj
    exact h.held_update hi (show ({ p with stage := stage } : Party).call = p.call from rfl)
      (fun hw => (hold hw).1) (fun hw => (hnew hw).1) hheld hg hj
  · intro k q hk
    obtain ⟨rfl, ⟨⟩⟩ | ⟨-, hq⟩ := update_eq_some hk
    · refine ⟨hgen, hp.sec, fun _ => hp.inside hin, hp.reader, hwriting, hp.num, ?_, ?_,
        hp.unreturned⟩
      · intro hd
        exact hp.logged (hdone ▸ hd)
      · intro hd
        exact hp.unlogged (hdone ▸ hd)
    · exact (h.parties hq).frame rfl rfl (Nat.le_refl _) (Nat.le_refl _) id (h.parties hq).reader
        (List.Subset.refl _) (fun _ hx => .inl hx) fun _ hx => .inl hx
  · refine fun hk hk' hne => h.apart_update ?_ hk hk' hne
    rintro _ k q' ⟨⟩ hki hq'
    exact h.apart (p := p) hi hq' (Ne.symm hki)
  · have hcounted : ((s.setStripes gen ((s.snaps gen).tableIndex p.call.hash) str).setParty i
        { p with stage := stage }).counted = s.counted := by
      apply Finset.sum_congr rfl
      intro j _
      have hupdate :=
        onTable_update (s.snaps s.cur) s.cur j s.parties i (some { p with stage := stage })
      change HashTable.counted _ (fun k => onTable (s.snaps s.cur) s.cur j
        (Function.update s.parties i (some { p with stage := stage }) k)) = _
      rw [hupdate]
      refine HashTable.counted_update ?_ ?_
      · intro w hw
        rw [hi] at hw
        exact (hold (onTable_eq_some hw).1).2
      · intro w hw
        exact (hnew (onTable_eq_some hw).1).2
    rw [hcounted]
    exact h.counted

/-- The table of a party's call, with the writers on it. -/
theorem Inv.held_table
    (h : Inv bits m s) {gen : Nat} (hgen : gen ≤ s.cur) (hash : Nat) :
  HashTable.Held ((s.snaps gen).tableForHash hash) (s.stripes gen ((s.snaps gen).tableIndex hash))
    (s.writersOn gen ((s.snaps gen).tableIndex hash))
  := h.held hgen (DirSnapshot.tableIndex_lt (h.wf hgen).bits hash)

theorem writersOn_party
    {gen : Nat} {w : HashTable.Writer} (hi : s.parties i = some p) (hw : p.writer = some (gen, w)) :
  s.writersOn gen ((s.snaps gen).tableIndex p.call.hash) i = some w
  := by
  rw [State.writersOn, hi]
  exact onTable_of_writer _ hw

theorem Inv.load
    (h : Inv bits m s) (hi : s.parties i = some p) (hstage : p.stage = .entered) :
  Inv bits m (s.setParty i { p with stage := .loaded s.cur })
  := by
  have hnone : p.writer = none := by rw [Party.writer, hstage]
  have hset : s.setStripes s.cur (s.curSnap.tableIndex p.call.hash)
      (s.stripes s.cur (s.curSnap.tableIndex p.call.hash)) = s := by
    simp only [State.setStripes, Function.update_eq_self]
  have hinv := h.setStage hi (.loaded s.cur) s.cur
    (s.stripes s.cur (s.curSnap.tableIndex p.call.hash)) (by rw [hnone]; nofun) nofun ?_
    (by rintro _ ⟨⟩; exact Nat.le_refl _) (by rw [hstage]; nofun) nofun (by rw [hstage]; rfl)
  · rw [State.curSnap] at hset
    rw [State.curSnap, hset] at hinv
    exact hinv
  · have hsame : onTable (s.snaps s.cur) s.cur ((s.snaps s.cur).tableIndex p.call.hash)
        (some { p with stage := .loaded s.cur })
        = s.writersOn s.cur ((s.snaps s.cur).tableIndex p.call.hash) i := by
      rw [State.writersOn, hi, onTable, onTable, Option.bind_some, Option.bind_some, hnone]
      rfl
    rw [hsame, Function.update_eq_self]
    exact h.held_table (Nat.le_refl _) _

theorem Inv.lock
    (h : Inv bits m s) (hi : s.parties i = some p) {gen : Nat} (hstage : p.stage = .loaded gen)
    (hfirst : s.stripes gen ((s.snaps gen).tableIndex p.call.hash)
      (((s.snaps gen).tableForHash p.call.hash).lockFor p.call.hash).1 = none)
    (hsecond : s.stripes gen ((s.snaps gen).tableIndex p.call.hash)
      (((s.snaps gen).tableForHash p.call.hash).lockFor p.call.hash).2 = none) :
  Inv bits m ((s.setStripes gen ((s.snaps gen).tableIndex p.call.hash)
    (((s.snaps gen).tableForHash p.call.hash).lock
      (s.stripes gen ((s.snaps gen).tableIndex p.call.hash)) i p.call.hash)).setParty i
    { p with stage := .locked gen })
  := by
  have hgen := (h.parties hi).gen (g := gen) (by rw [hstage]; rfl)
  have hnone : p.writer = none := by rw [Party.writer, hstage]
  have hnew : onTable (s.snaps gen) gen ((s.snaps gen).tableIndex p.call.hash)
      (some { p with stage := .locked gen }) = some ⟨p.call, false, []⟩ :=
    onTable_of_writer (s.snaps gen) (p := { p with stage := .locked gen }) rfl
  refine h.setStage hi _ _ _ (by rw [hnone]; nofun) ?_ ?_ (by rintro _ ⟨⟩; exact hgen)
    (by rw [hstage]; nofun) nofun (by rw [hstage]; rfl)
  · rintro g w ⟨⟩
    exact ⟨rfl, HashTable.Writer.clears_nil _ _⟩
  · rw [hnew]
    exact (h.held_table hgen _).lock (w := ⟨p.call, false, []⟩) hfirst hsecond fun _ => .finished

/-- A party with no store to make releases its locks. -/
theorem Inv.release
    (h : Inv bits m s) (hi : s.parties i = some p) {gen : Nat} {ok : Bool} {stage : Stage}
    (hw : p.writer = some (gen, ⟨p.call, ok, []⟩)) (hgen : gen ≤ s.cur)
    (hnone : { p with stage := stage }.writer = none)
    (hstage : stage.gen = some gen ∨ stage.gen = none) (hin : ∀ g, p.stage ≠ .waiting g)
    (hdone : stage.done = p.stage.done) :
  Inv bits m ((s.setStripes gen ((s.snaps gen).tableIndex p.call.hash)
    (((s.snaps gen).tableForHash p.call.hash).unlock
      (s.stripes gen ((s.snaps gen).tableIndex p.call.hash)) p.call.hash)).setParty i
    { p with stage := stage })
  := by
  refine h.setStage hi _ _ _ ?_ (by rw [hnone]; nofun) ?_ ?_ hin ?_ hdone
  · rw [hw]
    rintro g w ⟨⟩
    exact ⟨rfl, HashTable.Writer.clears_nil _ _⟩
  · have hnew : onTable (s.snaps gen) gen ((s.snaps gen).tableIndex p.call.hash)
        (some { p with stage := stage }) = none := by
      rw [onTable, Option.bind_some, hnone]
    rw [hnew]
    exact (h.held_table hgen _).finish (writersOn_party hi hw)
  · intro g hg
    obtain hsome | hnil := hstage
    · rw [hsome] at hg
      cases hg
      exact hgen
    · rw [hnil] at hg
      cases hg
  · rintro g ok' ws rfl
    cases hnone

/-- A party that saw the snapshot not frozen begins with its call. -/
theorem Inv.begin
    (h : Inv bits m s) (hi : s.parties i = some p) {gen : Nat} {t : HashTable}
    (ht : t = (s.snaps gen).tableForHash p.call.hash) (hstage : p.stage = .locked gen)
    (hfrozen : (s.snaps gen).frozen = false) :
  Inv bits m (s.setParty i { p with stage := .writing gen (p.call.stores t).1 (p.call.stores t).2 })
  := by
  have hgen := (h.parties hi).gen (g := gen) (by rw [hstage]; rfl)
  have hw : p.writer = some (gen, ⟨p.call, false, []⟩) := by rw [Party.writer, hstage]
  have hcur : gen = s.cur ∧ s.grow.freezes = false := by
    have hnot := mt (h.grow.frozen hgen).mpr (by rw [hfrozen]; nofun)
    simp only [not_or, Bool.not_eq_true] at hnot
    exact ⟨by omega, hnot.2⟩
  have hset : s.setStripes gen ((s.snaps gen).tableIndex p.call.hash)
      (s.stripes gen ((s.snaps gen).tableIndex p.call.hash)) = s := by
    simp only [State.setStripes, Function.update_eq_self]
  have hinv := h.setStage hi (.writing gen (p.call.stores t).1 (p.call.stores t).2) gen
    (s.stripes gen ((s.snaps gen).tableIndex p.call.hash)) ?_ ?_ ?_
    (by rintro _ ⟨⟩; exact hgen) (by rw [hstage]; nofun) ?_ ?_
  · rw [hset] at hinv
    exact hinv
  · rw [hw]
    rintro g w ⟨⟩
    exact ⟨rfl, HashTable.Writer.clears_nil _ _⟩
  · rintro g w ⟨⟩
    exact ⟨rfl, HashTable.Writer.clears_start _ _⟩
  · have hnew := onTable_of_writer (s.snaps gen)
      (p := { p with stage := .writing gen (p.call.stores t).1 (p.call.stores t).2 }) rfl
    rw [hnew, ← ht]
    have hbegin := (h.held_table hgen p.call.hash).begin (writersOn_party hi hw)
    rw [← ht] at hbegin
    exact hbegin
  · rintro g ok ws ⟨⟩
    refine ⟨hcur.1, ?_⟩
    cases hgrow : s.grow with
    | idle | published | frozen => trivial
    | syncing _ | copying _ _ _ =>
        rw [hgrow] at hcur
        cases hcur.2
  · rw [hstage]
    simp only [Stage.done, Bool.and_eq_false_iff, List.isEmpty_eq_false_iff]
    cases hok : (p.call.stores t).1 with
    | false => exact .inl rfl
    | true => exact .inr (HashTable.Call.stores_ne_nil hok)

section Store

variable {ok : Bool} {st : Store EntryInfo} {ws : List (Store EntryInfo)}

/-- A snapshot after a store differs in its tables only. -/
theorem stored_snaps (s : State) (i : Nat) (p : Party) (ok : Bool) (st : Store EntryInfo)
    (ws : List (Store EntryInfo)) (g : Nat) :
    ∃ tables, (s.stored i p s.cur ok st ws).snaps g = { s.snaps g with tables } := by
  simp only [State.stored, State.setParty, State.setSnap, Function.update_apply]
  split
  · rename_i hg
    subst hg
    exact ⟨_, rfl⟩
  · exact ⟨_, rfl⟩

/-- The table a party has stored to. -/
theorem stored_here (s : State) (i : Nat) (p : Party) (ok : Bool) (st : Store EntryInfo)
    (ws : List (Store EntryInfo)) :
  ((s.stored i p s.cur ok st ws).snaps s.cur).tables (s.curSnap.tableIndex p.call.hash)
      = (s.curSnap.tableForHash p.call.hash).apply [st]
    ∧ (s.stored i p s.cur ok st ws).writersOn s.cur (s.curSnap.tableIndex p.call.hash)
      = Function.update (s.writersOn s.cur (s.curSnap.tableIndex p.call.hash)) i
        (some ⟨p.call, ok, ws⟩)
  := by
  constructor
  · simp only [State.stored, State.setParty, State.setSnap, Function.update_self]
    exact DirSnapshot.setTable_self ..
  · have hnew := onTable_of_writer s.curSnap (p := { p with stage := .writing s.cur ok ws }) rfl
    rw [← hnew]
    have hupdate := onTable_update s.curSnap s.cur (s.curSnap.tableIndex p.call.hash) s.parties i
      (some { p with stage := .writing s.cur ok ws })
    refine Eq.trans ?_ hupdate
    funext k
    simp only [State.writersOn, State.stored, State.setParty, State.setSnap, Function.update_self]
    rfl

/-- The other tables. -/
theorem stored_other
    (hi : s.parties i = some p) (hw : p.writer = some (s.cur, ⟨p.call, ok, st :: ws⟩)) {g j : Nat}
    (hne : ¬ (g = s.cur ∧ j = s.curSnap.tableIndex p.call.hash)) :
  ((s.stored i p s.cur ok st ws).snaps g).tables j = (s.snaps g).tables j
    ∧ (s.stored i p s.cur ok st ws).writersOn g j = s.writersOn g j
  := by
  constructor
  · simp only [State.stored, State.setParty, State.setSnap, Function.update_apply]
    split
    · rename_i hg
      subst hg
      exact DirSnapshot.setTable_ne _ _ fun hj => hne ⟨rfl, hj⟩
    · rfl
  · have hindex : ∀ hash, ((s.stored i p s.cur ok st ws).snaps g).tableIndex hash
        = (s.snaps g).tableIndex hash := by
      obtain ⟨tables, hsnap⟩ := stored_snaps s i p ok st ws g
      intro hash
      rw [hsnap]
      rfl
    have hnone : ∀ {snap : DirSnapshot} {q : Party}, (∀ hash, snap.tableIndex hash
        = (s.snaps g).tableIndex hash) → q.call = p.call → (∀ {g' w}, q.writer = some (g', w) →
        g' = s.cur) → onTable snap g j (some q) = none := by
      intro snap q hsnap hcall hwriter
      apply onTable_eq_none
      intro w hw' hj
      obtain rfl := hwriter hw'
      rw [hcall, hsnap] at hj
      exact hne ⟨rfl, hj.symm⟩
    funext k
    by_cases hk : k = i
    · subst hk
      have hset : (s.stored k p s.cur ok st ws).parties k
          = some { p with stage := .writing s.cur ok ws } := Function.update_self ..
      rw [State.writersOn, State.writersOn, hset, hi,
        hnone hindex (show ({ p with stage := .writing s.cur ok ws } : Party).call = _ from rfl),
        hnone (fun _ => rfl) rfl]
      · rw [hw]
        rintro g' w ⟨⟩
        rfl
      · rintro g' w ⟨⟩
        rfl
    · have hset : (s.stored i p s.cur ok st ws).parties k = s.parties k :=
        Function.update_of_ne hk _ _
      rw [State.writersOn, State.writersOn, hset]
      simp only [onTable, hindex]

/-- The last store of a call that succeeds has the effect of the call; the others have none. -/
theorem Inv.stored_counted
    (h : Inv bits m s) (hi : s.parties i = some p)
    (hw : p.writer = some (s.cur, ⟨p.call, ok, st :: ws⟩)) :
  Applies bits m (s.stored i p s.cur ok st ws).log (s.stored i p s.cur ok st ws).counted
  := by
  have hwf := h.wf (Nat.le_refl s.cur)
  have hlt : s.curSnap.tableIndex p.call.hash < s.curSnap.size :=
    DirSnapshot.tableIndex_lt hwf.bits p.call.hash
  have hheld := h.held_table (Nat.le_refl _) p.call.hash
  obtain ⟨htable, hwriters⟩ := stored_here s i p ok st ws
  have hsize : (s.stored i p s.cur ok st ws).curSnap.size = s.curSnap.size := by
    obtain ⟨tables, hsnap⟩ := stored_snaps s i p ok st ws s.cur
    change ((s.stored i p s.cur ok st ws).snaps s.cur).size = _
    rw [hsnap]
    rfl
  have hsum := HashTable.sum_change (a := s.curSnap.tableIndex p.call.hash)
    (f := fun j => (s.curSnap.tables j).counted (s.writersOn s.cur j))
    (g := fun j => (((s.stored i p s.cur ok st ws).snaps s.cur).tables j).counted
      ((s.stored i p s.cur ok st ws).writersOn s.cur j)) hlt ?_
  · rw [htable, hwriters] at hsum
    have heq : (s.stored i p s.cur ok st ws).counted = ∑ j ∈ Finset.range s.curSnap.size,
        (((s.stored i p s.cur ok st ws).snaps s.cur).tables j).counted
          ((s.stored i p s.cur ok st ws).writersOn s.cur j) := by
      rw [State.counted, hsize]
      rfl
    have hstore := hheld.store_counted (writersOn_party hi hw)
    rw [← heq] at hsum
    simp only [State.stored]
    split
    · rename_i hlast
      rw [if_pos hlast, hwf.hashToBucket, hwf.tagOf, DirSnapshot.bucketOf, DirSnapshot.tagOf,
        h.bucketBits (Nat.le_refl _)] at hstore
      refine .snoc h.counted (hstore.lift ?_ hsum)
      exact Finset.single_le_sum (f := fun j => (s.curSnap.tables j).counted (s.writersOn s.cur j))
        (fun _ _ => Multiset.zero_le _) (Finset.mem_range.mpr hlt)
    · rename_i hmore
      rw [if_neg hmore] at hstore
      change _ = (s.curSnap.tableForHash p.call.hash).counted _ at hstore
      have hsame : (s.stored i p s.cur ok st ws).counted = s.counted := by
        exact add_right_cancel (hsum.trans (congrArg _ hstore))
      change Applies bits m s.log (s.stored i p s.cur ok st ws).counted
      rw [hsame]
      exact h.counted
  · intro j hj
    obtain ⟨htable', hwriters'⟩ := stored_other hi hw fun hplace => hj hplace.2
    rw [htable', hwriters']
    rfl

/-- A party makes its next store. -/
theorem Inv.store
    (h : Inv bits m s) (hi : s.parties i = some p) {gen : Nat}
    (hstage : p.stage = .writing gen ok (st :: ws)) :
  Inv bits m (s.stored i p gen ok st ws)
  := by
  have hp := h.parties hi
  obtain ⟨rfl, hawaits⟩ := hp.writing hstage
  have hw : p.writer = some (s.cur, ⟨p.call, ok, st :: ws⟩) := by rw [Party.writer, hstage]
  have hheld := h.held_table (Nat.le_refl _) p.call.hash
  have hwi := writersOn_party hi hw
  have hwf := h.wf (Nat.le_refl s.cur)
  have hlt := DirSnapshot.tableIndex_lt hwf.bits p.call.hash
  have hundone : p.stage.done = false := by
    rw [hstage]
    exact Bool.and_false _
  have hlog : ∀ x ∈ (s.stored i p s.cur ok st ws).log, x ∈ s.log ∨ x = (p.num, p.call) := by
    intro x hx
    simp only [State.stored] at hx
    split at hx
    · obtain hx | hx := List.mem_append.mp hx
      · exact .inl hx
      · exact .inr (List.mem_singleton.mp hx)
    · exact .inl hx
  have hsub : s.log ⊆ (s.stored i p s.cur ok st ws).log := by
    simp only [State.stored]
    split
    · exact List.subset_append_left _ _
    · exact List.Subset.refl _
  have hshape := fun g => stored_snaps s i p ok st ws g
  refine ⟨?_, ?_, ?_, ?_, ?_, h.readers, h.sections, ?_, ?_, ?_⟩
  · intro g hg
    by_cases hcur : g = s.cur
    · subst hcur
      have hsnap : (s.stored i p s.cur ok st ws).snaps s.cur
          = s.curSnap.setTable (s.curSnap.tableIndex p.call.hash)
            ((s.curSnap.tableForHash p.call.hash).apply [st]) := Function.update_self ..
      rw [hsnap]
      refine hwf.setTable (hheld.store hwi).wf (hwf.indexBits hlt) fun x hx => ?_
      apply hwf.select_table
      rw [← hwf.tagOf]
      exact (hheld.left hwi).mem_items hheld.wf hx
    · have hsnap : (s.stored i p s.cur ok st ws).snaps g = s.snaps g :=
        Function.update_of_ne hcur _ _
      rw [hsnap]
      exact h.wf hg
  · intro g hg
    obtain ⟨tables, hsnap⟩ := hshape g
    rw [hsnap]
    exact h.bucketBits hg
  · intro g j hg hj
    by_cases hplace : g = s.cur ∧ j = s.curSnap.tableIndex p.call.hash
    · obtain ⟨rfl, rfl⟩ := hplace
      obtain ⟨htable, hwriters⟩ := stored_here s i p ok st ws
      rw [htable, hwriters]
      exact hheld.store hwi
    · obtain ⟨htable, hwriters⟩ := stored_other hi hw hplace
      rw [htable, hwriters]
      obtain ⟨tables, hsnap⟩ := hshape g
      rw [hsnap] at hj
      exact h.held hg hj
  · intro k q hk
    obtain ⟨rfl, ⟨⟩⟩ | ⟨hki, hq⟩ := update_eq_some hk
    · refine ⟨?_, hp.sec, fun _ => hp.inside (by rw [hstage]; nofun), hp.reader, ?_, hp.num, ?_, ?_,
        hp.unreturned⟩
      · rintro g ⟨⟩
        exact Nat.le_refl _
      · rintro g ok' ws' ⟨⟩
        exact ⟨rfl, hawaits⟩
      · intro hdone
        simp only [Stage.done, Bool.and_eq_true, List.isEmpty_iff] at hdone
        simp only [State.stored, if_pos hdone.symm]
        exact List.mem_append_right _ (List.mem_singleton_self _)
      · intro hdone x hx
        have hnot : ¬ (ws = [] ∧ ok = true) := by
          rintro ⟨rfl, rfl⟩
          cases hdone
        simp only [State.stored, if_neg hnot] at hx
        exact hp.unlogged hundone x hx
    · have hnum := (h.apart hi hq (Ne.symm hki)).1
      refine (h.parties hq).frame rfl rfl (Nat.le_refl _) (Nat.le_refl _) id (h.parties hq).reader
        hsub (fun x hx => ?_) fun _ hx => .inl hx
      obtain hx | rfl := hlog x hx
      · exact .inl hx
      · exact .inr hnum
  · refine fun hk hk' hne => h.apart_update ?_ hk hk' hne
    rintro _ k q' ⟨⟩ hki hq'
    exact h.apart (p := p) hi hq' (Ne.symm hki)
  · refine ⟨?_, ?_, ?_⟩
    · simp only [State.stored]
      split
      · rw [List.map_append, List.nodup_append]
        refine ⟨h.logs.nodup, List.nodup_singleton _, ?_⟩
        intro n hn n' hn'
        obtain ⟨x, hx, rfl⟩ := List.mem_map.mp hn
        rw [List.map_singleton, List.mem_singleton] at hn'
        rw [hn']
        exact hp.unlogged hundone x hx
      · exact h.logs.nodup
    · intro x hx
      obtain hx | rfl := hlog x hx
      · exact h.logs.log x hx
      · exact hp.num
    · intro x hx
      obtain ⟨hnum, hiff⟩ := h.logs.returned x hx
      refine ⟨hnum, ⟨fun hmem => ?_, fun hok => hsub (hiff.mpr hok)⟩⟩
      obtain hmem | heq := hlog _ hmem
      · exact hiff.mp hmem
      · exact absurd (congrArg Prod.fst heq) (hp.unreturned x hx)
  · refine ⟨?_, ?_, h.grow.first, ?_⟩
    · intro g hg
      obtain ⟨tables, hsnap⟩ := hshape g
      rw [hsnap]
      exact h.grow.frozen hg
    · obtain ⟨tables, hsnap⟩ := hshape s.cur
      intro hfreezes
      change ((s.stored i p s.cur ok st ws).snaps s.cur).tableBits < _
      rw [hsnap]
      exact h.grow.bits hfreezes
    · intro j k new hgrow
      change s.grow = _ at hgrow
      rw [hgrow] at hawaits
      exact hawaits.elim
  · exact h.stored_counted hi hw

end Store

end

end UDepot.Directory
