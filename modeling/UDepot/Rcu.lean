import UDepot.Lib.Transition
import Mathlib.Algebra.BigOperators.Group.List.Basic
import Mathlib.Algebra.Order.BigOperators.Group.List
import Mathlib.Algebra.Order.Ring.Nat
import Mathlib.Data.Finset.Card

/-!
# Grace periods

The read sections and the grace periods of `rcu.cc`, step by step.  A thread counts the sections it
enters and leaves on a slot of its own, or on a shared one if no slot was free; `synchronize` sums
the counters one by one, first those of sections left and then those of sections entered.

* No two threads have one private slot, so a counter that is loaded and stored in two steps is not
  changed in between, and the counters count all sections (`Rcu.Inv`).
* A sum of the sections left is at most what it is when it is complete, and a sum of the sections
  entered, which starts after, is at least what it is then.  If they are equal no section was inside
  (`ScanOk`).
-/

namespace UDepot.Rcu

open Transition

variable (n : Nat)

/-- The counters in the order `drained` reads them.  There are `n` private slots, `kMaxThreads`, and
the slot of that number is the shared one. -/
def slotOrder : List Nat := n :: List.range n

/-- A read section: its number, and the index it is counted on. -/
abbrev Section := Nat × Nat

/-- Where a thread is in `read_lock` or `read_unlock`. -/
inductive Pc where
  | out
  | lock (slot : Nat)
  | lockBump (slot idx : Nat)
  | lockStore (slot idx count : Nat)
  | unlockBump (slot : Nat) (sec : Section)
  | unlockStore (slot : Nat) (sec : Section) (count : Nat)
  deriving DecidableEq, Repr

/-- A thread, with the slot it owns and the one it used last. -/
structure Thread where
  owned : Option Nat
  last : Option Nat
  pc : Pc
  deriving DecidableEq, Repr

def Thread.new : Thread := ⟨none, none, .out⟩

/-- How far `drained` has come: the counters it has still to load, and the sums. -/
inductive Scan where
  | unlocks (rest : List Nat) (sum : Nat)
  | locks (rest : List Nat) (unlocks sum : Nat)
  deriving DecidableEq, Repr

/-- Where a call of `synchronize` is; `cur` is the index it has loaded. -/
inductive SyncPc where
  | begun
  | locked
  | drainOther (cur : Nat) (scan : Scan)
  | flip (cur : Nat)
  | drainCur (cur : Nat) (scan : Scan)
  | done
  deriving DecidableEq, Repr

/-- A call of `synchronize`, with the sections that were inside when it began. -/
structure Sync where
  before : Finset Section
  pc : SyncPc

/-- The state of an `Rcu`.  `inside` is the sections that are entered and not left, and `leaving`
those among them that a thread is about to leave. -/
structure State where
  gpIdx : Nat
  lock : Nat → Nat → Nat
  unlock : Nat → Nat → Nat
  inUse : Nat → Bool
  gpMu : Option Nat
  threads : Nat → Thread
  syncs : Nat → Option Sync
  inside : Finset Section
  leaving : Finset Section
  nextId : Nat

def State.init : State where
  gpIdx := 0
  lock := fun _ _ => 0
  unlock := fun _ _ => 0
  inUse := fun _ => false
  gpMu := none
  threads := fun _ => .new
  syncs := fun _ => none
  inside := ∅
  leaving := ∅
  nextId := 0

/-- A counter of a slot and an index is set. -/
def setCtr (ctr : Nat → Nat → Nat) (slot idx count : Nat) : Nat → Nat → Nat :=
  Function.update ctr slot (Function.update (ctr slot) idx count)

inductive Act where
  | readLock (t : Nat)
  | readUnlock (t : Nat) (sec : Section)
  | thread (t : Nat)
  | otherInstance (t : Nat)
  | exit (t : Nat)
  | synchronize (k : Nat)
  | sync (k : Nat)

namespace State

variable (s : State)

/-- The first free slot, or the shared one. -/
def claimSlot : Nat := ((List.range n).find? fun i => !s.inUse i).getD n

def setThread (t : Nat) (th : Thread) : State :=
  { s with threads := Function.update s.threads t th }

def setSync (k : Nat) (y : Sync) : State := { s with syncs := Function.update s.syncs k (some y) }

/-- The slot of a thread, `this_thread_slot`, and the state after it is found. -/
def thisThreadSlot (t : Nat) : Nat × State :=
  let th := s.threads t
  match th.last with
  | some slot => (slot, s)
  | none =>
      match th.owned with
      | some slot => (slot, s.setThread t { th with last := some slot })
      | none =>
          let slot := s.claimSlot n
          if slot = n then (slot, s.setThread t { th with last := some slot })
          else
            (slot, { s.setThread t { th with owned := some slot, last := some slot } with
              inUse := Function.update s.inUse slot true })

/-- A section is counted as entered. -/
def enter (t slot idx count : Nat) : State :=
  { s.setThread t { s.threads t with pc := .out } with
    lock := setCtr s.lock slot idx count
    inside := insert (s.nextId, idx) s.inside
    nextId := s.nextId + 1 }

/-- A section is counted as left. -/
def leave (t slot : Nat) (sec : Section) (count : Nat) : State :=
  { s.setThread t { s.threads t with pc := .out } with
    unlock := setCtr s.unlock slot sec.2 count
    inside := s.inside.erase sec
    leaving := s.leaving.erase sec }

/-- The next step of a thread in `read_lock` or `read_unlock`. -/
def threadStep (t : Nat) : Option State :=
  let th := s.threads t
  match th.pc with
  | .out => none
  | .lock slot => some (s.setThread t { th with pc := .lockBump slot (s.gpIdx % 2) })
  | .lockBump slot idx =>
      if slot = n then some (s.enter t slot idx (s.lock slot idx + 1))
      else some (s.setThread t { th with pc := .lockStore slot idx (s.lock slot idx) })
  | .lockStore slot idx count => some (s.enter t slot idx (count + 1))
  | .unlockBump slot sec =>
      if slot = n then some (s.leave t slot sec (s.unlock slot sec.2 + 1))
      else some (s.setThread t { th with pc := .unlockStore slot sec (s.unlock slot sec.2) })
  | .unlockStore slot sec count => some (s.leave t slot sec (count + 1))

/-- A step of `drained(idx)`: the next state of the scan, or its answer. -/
def scanStep (idx : Nat) : Scan → Scan ⊕ Bool
  | .unlocks (slot :: rest) sum => .inl (.unlocks rest (sum + s.unlock slot idx))
  | .unlocks [] sum => .inl (.locks (slotOrder n) sum 0)
  | .locks (slot :: rest) unlocks sum => .inl (.locks rest unlocks (sum + s.lock slot idx))
  | .locks [] unlocks sum => .inr (sum == unlocks)

/-- A scan that has not begun. -/
def scanStart : Scan := .unlocks (slotOrder n) 0

/-- The next step of a call of `synchronize`. -/
def syncStep (k : Nat) (y : Sync) : Option State :=
  match y.pc with
  | .begun =>
      if s.gpMu.isNone then some { s.setSync k { y with pc := .locked } with gpMu := some k }
      else none
  | .locked => some (s.setSync k { y with pc := .drainOther s.gpIdx (scanStart n) })
  | .drainOther cur scan =>
      match s.scanStep n ((cur + 1) % 2) scan with
      | .inl scan' => some (s.setSync k { y with pc := .drainOther cur scan' })
      | .inr true => some (s.setSync k { y with pc := .flip cur })
      | .inr false => some (s.setSync k { y with pc := .drainOther cur (scanStart n) })
  | .flip cur =>
      some { s.setSync k { y with pc := .drainCur cur (scanStart n) } with gpIdx := cur + 1 }
  | .drainCur cur scan =>
      match s.scanStep n (cur % 2) scan with
      | .inl scan' => some (s.setSync k { y with pc := .drainCur cur scan' })
      | .inr true => some { s.setSync k { y with pc := .done } with gpMu := none }
      | .inr false => some (s.setSync k { y with pc := .drainCur cur (scanStart n) })
  | .done => none

/-- A section is entered by a thread that is in no call, and left by one, the same or another. -/
def step : Act → Option State
  | .readLock t =>
      if (s.threads t).pc = .out then
        let (slot, s') := s.thisThreadSlot n t
        some (s'.setThread t { s'.threads t with pc := .lock slot })
      else none
  | .readUnlock t sec =>
      if (s.threads t).pc = .out ∧ sec ∈ s.inside ∧ sec ∉ s.leaving then
        let (slot, s') := s.thisThreadSlot n t
        some { s'.setThread t { s'.threads t with pc := .unlockBump slot sec } with
          leaving := insert sec s'.leaving }
      else none
  | .thread t => s.threadStep n t
  | .otherInstance t =>
      if (s.threads t).pc = .out then some (s.setThread t { s.threads t with last := none })
      else none
  | .exit t =>
      if (s.threads t).pc = .out then
        match (s.threads t).owned with
        | some slot => some { s.setThread t .new with inUse := Function.update s.inUse slot false }
        | none => some (s.setThread t .new)
      else none
  | .synchronize k =>
      if (s.syncs k).isNone then some (s.setSync k ⟨s.inside, .begun⟩) else none
  | .sync k => (s.syncs k).bind (s.syncStep n k)

end State

/-! ### Sums of counters -/

section

variable {n}

/-- The sum of the counters of an index. -/
def sumOf (slots : List Nat) (ctr : Nat → Nat → Nat) (idx : Nat) : Nat :=
  (slots.map fun slot => ctr slot idx).sum

variable (n) in
abbrev total (ctr : Nat → Nat → Nat) (idx : Nat) : Nat := sumOf (slotOrder n) ctr idx

/-- One counter of one index is one more. -/
def Bumped (ctr ctr' : Nat → Nat → Nat) (slot idx : Nat) : Prop :=
  ctr' = setCtr ctr slot idx (ctr slot idx + 1)

variable {ctr ctr' : Nat → Nat → Nat} {slot idx : Nat}

theorem Bumped.apply (h : Bumped ctr ctr' slot idx) (slot' idx' : Nat) :
    ctr' slot' idx' = ctr slot' idx' + if slot' = slot ∧ idx' = idx then 1 else 0 := by
  rw [h, setCtr]
  by_cases hs : slot' = slot
  · subst hs
    by_cases hi : idx' = idx
    · subst hi
      simp
    · simp [hi]
  · simp [hs]

theorem Bumped.le (h : Bumped ctr ctr' slot idx) (slot' idx' : Nat) :
    ctr slot' idx' ≤ ctr' slot' idx' := by
  rw [h.apply]
  apply Nat.le_add_right

/-- A sum over slots counts the bump once for each time the slot is in it. -/
theorem Bumped.sumOf (h : Bumped ctr ctr' slot idx) (slots : List Nat) (idx' : Nat) :
    sumOf slots ctr' idx' = sumOf slots ctr idx' + if idx' = idx then slots.count slot else 0 := by
  induction slots with
  | nil => simp [Rcu.sumOf]
  | cons slot' slots ih =>
      simp only [Rcu.sumOf, List.map_cons, List.sum_cons, List.count_cons] at ih ⊢
      rw [ih, h.apply]
      by_cases hi : idx' = idx <;> by_cases hs : slot' = slot <;> simp [hi, hs] <;> omega

theorem sumOf_le (h : ∀ slot, ctr slot idx ≤ ctr' slot idx) (slots : List Nat) :
    sumOf slots ctr idx ≤ sumOf slots ctr' idx :=
  List.sum_le_sum fun slot _ => h slot

theorem count_slotOrder (h : slot ≤ n) : (slotOrder n).count slot = 1 := by
  apply List.count_eq_one_of_mem
  · rw [slotOrder, List.nodup_cons]
    exact ⟨by simp, List.nodup_range⟩
  · rw [slotOrder, List.mem_cons, List.mem_range]
    omega

theorem Bumped.total (h : Bumped ctr ctr' slot idx) (hs : slot ≤ n) (idx' : Nat) :
    total n ctr' idx' = total n ctr idx' + if idx' = idx then 1 else 0 := by
  rw [Rcu.total, h.sumOf, count_slotOrder hs]

end

/-! ### Invariants -/

/-- The section a thread is leaving. -/
def Pc.leaves : Pc → Option Section
  | .unlockBump _ sec | .unlockStore _ sec _ => some sec
  | _ => none

section

variable (s : State)

/-- A slot a thread may count on. -/
def Thread.Uses (th : Thread) (slot : Nat) : Prop := slot = n ∨ th.owned = some slot

/-- What a thread has loaded is still so. -/
def Pc.Ok (th : Thread) : Pc → Prop
  | .out => True
  | .lock slot => th.Uses n slot
  | .lockBump slot idx => th.Uses n slot ∧ idx < 2
  | .lockStore slot idx count => th.owned = some slot ∧ idx < 2 ∧ s.lock slot idx = count
  | .unlockBump slot sec => th.Uses n slot ∧ sec ∈ s.leaving
  | .unlockStore slot sec count =>
      th.owned = some slot ∧ sec ∈ s.leaving ∧ s.unlock slot sec.2 = count

structure Thread.Ok (th : Thread) : Prop where
  owned : ∀ {slot}, th.owned = some slot → slot < n ∧ s.inUse slot = true
  last : ∀ {slot}, th.last = some slot → th.Uses n slot
  pc : th.pc.Ok n s th

/-- The sections of an index among those that were inside before are not inside. -/
def Gone (before : Finset Section) (idx : Nat) : Prop :=
  ∀ x ∈ before, x.2 = idx → x ∉ s.inside

/-- What the sums of a scan say. -/
def ScanOk (before : Finset Section) (idx : Nat) : Scan → Prop
  | .unlocks rest sum => ∃ seen, slotOrder n = seen ++ rest ∧ sum ≤ sumOf seen s.unlock idx
  | .locks rest unlocks sum =>
      unlocks + ((before ∩ s.inside).filter fun x => x.2 = idx).card
        ≤ sum + sumOf rest s.lock idx

def SyncPc.Ok (before : Finset Section) : SyncPc → Prop
  | .begun | .locked => True
  | .drainOther cur scan => ScanOk n s before ((cur + 1) % 2) scan
  | .flip cur => Gone s before ((cur + 1) % 2)
  | .drainCur cur scan => Gone s before ((cur + 1) % 2) ∧ ScanOk n s before (cur % 2) scan
  | .done => ∀ x ∈ before, x ∉ s.inside

structure Sync.Ok (y : Sync) : Prop where
  before : ∀ x ∈ y.before, x.1 < s.nextId ∧ x.2 < 2
  pc : y.pc.Ok n s y.before

structure Inv : Prop where
  threads : ∀ t, (s.threads t).Ok n s
  apart : ∀ {t t' slot}, (s.threads t).owned = some slot → (s.threads t').owned = some slot →
    t = t'
  leaves : ∀ {t t' sec}, (s.threads t).pc.leaves = some sec →
    (s.threads t').pc.leaves = some sec → t = t'
  leaving : s.leaving ⊆ s.inside
  ids : ∀ x ∈ s.inside, x.1 < s.nextId ∧ x.2 < 2
  counts : ∀ idx, total n s.lock idx
    = total n s.unlock idx + (s.inside.filter fun x => x.2 = idx).card
  entered : total n s.lock 0 + total n s.lock 1 = s.nextId
  syncs : ∀ {k y}, s.syncs k = some y → y.Ok n s

end

/-! ### Grace periods under steps of others -/

section

variable {n} {s s' : State} {y : Sync}

/-- Counters only grow, and a section that is inside was inside before or is new. -/
structure Grows (s s' : State) : Prop where
  lock : ∀ slot idx, s.lock slot idx ≤ s'.lock slot idx
  unlock : ∀ slot idx, s.unlock slot idx ≤ s'.unlock slot idx
  inside : ∀ {x}, x ∈ s'.inside → x ∈ s.inside ∨ s.nextId ≤ x.1
  nextId : s.nextId ≤ s'.nextId

theorem Grows.of_eq
    (hlock : s'.lock = s.lock) (hunlock : s'.unlock = s.unlock) (hinside : s'.inside = s.inside)
    (hnext : s'.nextId = s.nextId) :
  Grows s s'
  := by
  refine ⟨fun _ _ => ?_, fun _ _ => ?_, fun hx => .inl ?_, ?_⟩
  · rw [hlock]
  · rw [hunlock]
  · rw [← hinside]
    exact hx
  · rw [hnext]

theorem Grows.not_inside
    (h : Grows s s') {x : Section} (hid : x.1 < s.nextId) (hx : x ∉ s.inside) :
  x ∉ s'.inside
  := by
  intro hx'
  obtain hx' | hle := h.inside hx'
  · exact hx hx'
  · omega

theorem ScanOk.of_grows
    {before : Finset Section} {idx : Nat} {scan : Scan} (h : ScanOk n s before idx scan)
    (hg : Grows s s') (hbefore : ∀ x ∈ before, x.1 < s.nextId ∧ x.2 < 2) :
  ScanOk n s' before idx scan
  := by
  cases scan with
  | unlocks rest sum =>
      obtain ⟨seen, hseen, hle⟩ := h
      exact ⟨seen, hseen, hle.trans (sumOf_le (fun slot => hg.unlock slot idx) seen)⟩
  | locks rest unlocks sum =>
      have hsub : before ∩ s'.inside ⊆ before ∩ s.inside := by
        intro x hx
        obtain ⟨hb, hx⟩ := Finset.mem_inter.mp hx
        apply Finset.mem_inter.mpr ⟨hb, ?_⟩
        by_contra hnot
        exact hg.not_inside (hbefore x hb).1 hnot hx
      have hcard := Finset.card_le_card (Finset.filter_subset_filter (fun x => x.2 = idx) hsub)
      have hsum := sumOf_le (fun slot => hg.lock slot idx) rest
      simp only [ScanOk] at h ⊢
      omega

theorem Sync.Ok.of_grows (h : y.Ok n s) (hg : Grows s s') : y.Ok n s' := by
  have hgone : ∀ {idx}, Gone s y.before idx → Gone s' y.before idx := fun hgone x hx hidx =>
    hg.not_inside (h.before x hx).1 (hgone x hx hidx)
  refine ⟨fun x hx => ⟨(h.before x hx).1.trans_le hg.nextId, (h.before x hx).2⟩, ?_⟩
  have hpc := h.pc
  cases hy : y.pc with
  | begun | locked => trivial
  | drainOther cur scan =>
      rw [hy] at hpc
      exact ScanOk.of_grows hpc hg h.before
  | flip cur =>
      rw [hy] at hpc
      exact hgone hpc
  | drainCur cur scan =>
      rw [hy] at hpc
      exact ⟨hgone hpc.1, ScanOk.of_grows hpc.2 hg h.before⟩
  | done =>
      rw [hy] at hpc
      exact fun x hx => hg.not_inside (h.before x hx).1 (hpc x hx)

/-! ### Steps of `synchronize` -/

theorem scanStart_ok (before : Finset Section) {idx : Nat} :
    ScanOk n s before idx (State.scanStart n) :=
  ⟨[], rfl, Nat.zero_le _⟩

/-- A scan that goes on says what it must, and one that succeeds saw that no section was inside. -/
theorem Inv.scanStep
    (h : Inv n s) {before : Finset Section} {idx : Nat} {scan : Scan}
    (hok : ScanOk n s before idx scan) :
  (∀ {scan'}, s.scanStep n idx scan = .inl scan' → ScanOk n s before idx scan')
    ∧ (s.scanStep n idx scan = .inr true → Gone s before idx)
  := by
  match scan with
  | .unlocks (slot :: rest) sum =>
      obtain ⟨seen, hseen, hle⟩ := hok
      refine ⟨?_, nofun⟩
      rintro _ ⟨⟩
      refine ⟨seen ++ [slot], ?_, ?_⟩
      · rw [hseen, List.append_assoc]
        rfl
      · simp only [sumOf, List.map_append, List.sum_append, List.map_singleton, List.sum_singleton]
        exact Nat.add_le_add_right hle _
  | .unlocks [] sum =>
      obtain ⟨seen, hseen, hle⟩ := hok
      rw [List.append_nil] at hseen
      refine ⟨?_, nofun⟩
      rintro _ ⟨⟩
      have hcounts := h.counts idx
      have hcard := Finset.card_le_card
        (Finset.filter_subset_filter (fun x => x.2 = idx)
          (show before ∩ s.inside ⊆ s.inside from Finset.inter_subset_right))
      rw [← hseen] at hle
      simp only [ScanOk, total] at hcounts ⊢
      omega
  | .locks (slot :: rest) unlocks sum =>
      refine ⟨?_, nofun⟩
      rintro _ ⟨⟩
      simp only [ScanOk, sumOf, List.map_cons, List.sum_cons] at hok ⊢
      omega
  | .locks [] unlocks sum =>
      refine ⟨nofun, ?_⟩
      intro heq x hx hidx hin
      simp only [State.scanStep, Sum.inr.injEq, beq_iff_eq] at heq
      simp only [ScanOk, sumOf, List.map_nil, List.sum_nil, heq] at hok
      have hempty : ((before ∩ s.inside).filter fun x => x.2 = idx).card = 0 := by omega
      rw [Finset.card_eq_zero] at hempty
      apply Finset.notMem_empty x
      rw [← hempty]
      exact Finset.mem_filter.mpr ⟨Finset.mem_inter.mpr ⟨hx, hin⟩, hidx⟩

/-- What a thread relies on is its slot's use and counters, and the section it is leaving. -/
theorem Thread.Ok.congr
    {th : Thread} (h : th.Ok n s)
    (hown : ∀ {slot}, th.owned = some slot → s'.inUse slot = s.inUse slot
      ∧ s'.lock slot = s.lock slot ∧ s'.unlock slot = s.unlock slot)
    (hleaves : ∀ {sec}, th.pc.leaves = some sec → sec ∈ s.leaving → sec ∈ s'.leaving) :
  th.Ok n s'
  := by
  refine ⟨fun howned => ?_, h.last, ?_⟩
  · rw [(hown howned).1]
    exact h.owned howned
  · have hpc := h.pc
    cases hth : th.pc with
    | out => trivial
    | lock slot =>
        rw [hth] at hpc
        exact hpc
    | lockBump slot idx =>
        rw [hth] at hpc
        exact hpc
    | lockStore slot idx count =>
        rw [hth] at hpc
        obtain ⟨howned, hidx, hcount⟩ := hpc
        exact ⟨howned, hidx, by rw [(hown howned).2.1, hcount]⟩
    | unlockBump slot sec =>
        rw [hth] at hpc hleaves
        exact ⟨hpc.1, hleaves rfl hpc.2⟩
    | unlockStore slot sec count =>
        rw [hth] at hpc hleaves
        obtain ⟨howned, hsec, hcount⟩ := hpc
        exact ⟨howned, hleaves rfl hsec, by rw [(hown howned).2.2, hcount]⟩

/-- A state that differs in its calls of `synchronize` only. -/
theorem Inv.setSync
    (h : Inv n s) {k : Nat} (hy : y.Ok n s) (gpIdx : Nat) (gpMu : Option Nat) :
  Inv n { s.setSync k y with gpIdx := gpIdx, gpMu := gpMu }
  where
  threads := fun t => (h.threads t).congr (fun _ => ⟨rfl, rfl, rfl⟩) fun _ hsec => hsec
  apart := h.apart
  leaves := h.leaves
  leaving := h.leaving
  ids := h.ids
  counts := h.counts
  entered := h.entered
  syncs := by
    intro k' y' hk
    by_cases hkk : k' = k
    · subst hkk
      simp only [State.setSync, Function.update_self, Option.some.injEq] at hk
      subst hk
      exact hy.of_grows (.of_eq rfl rfl rfl rfl)
    · simp only [State.setSync, Function.update_of_ne hkk] at hk
      exact (h.syncs hk).of_grows (.of_eq rfl rfl rfl rfl)

theorem Inv.syncStep
    (h : Inv n s) {k : Nat} (hk : s.syncs k = some y) (hs : s.syncStep n k y = some s') :
  Inv n s'
  := by
  have hy := h.syncs hk
  obtain ⟨before, pc⟩ := y
  have hset : ∀ {pc' : SyncPc} (gpIdx : Nat) (gpMu : Option Nat), pc'.Ok n s before →
      Inv n { s.setSync k ⟨before, pc'⟩ with gpIdx := gpIdx, gpMu := gpMu } :=
    fun {pc'} gpIdx gpMu hpc => h.setSync (y := ⟨before, pc'⟩) ⟨hy.before, hpc⟩ gpIdx gpMu
  have hpc := hy.pc
  cases pc with
  | begun =>
      obtain ⟨-, ⟨⟩⟩ := Option.ite_none_right_eq_some.mp hs
      exact hset _ _ trivial
  | locked =>
      cases hs
      exact hset _ _ (scanStart_ok before)
  | drainOther cur scan =>
      obtain ⟨hmore, hend⟩ := h.scanStep hpc
      rw [State.syncStep] at hs
      simp only at hs
      split at hs
      · rename_i scan' hscan
        cases hs
        exact hset _ _ (hmore hscan)
      · rename_i hscan
        cases hs
        exact hset _ _ (hend hscan)
      · cases hs
        exact hset _ _ (scanStart_ok before)
  | flip cur =>
      cases hs
      exact hset _ _ ⟨hpc, scanStart_ok before⟩
  | drainCur cur scan =>
      obtain ⟨hgone, hscan⟩ := hpc
      obtain ⟨hmore, hend⟩ := h.scanStep hscan
      rw [State.syncStep] at hs
      simp only at hs
      split at hs
      · rename_i scan' hscan
        cases hs
        exact hset _ _ ⟨hgone, hmore hscan⟩
      · rename_i hscan
        cases hs
        apply hset
        -- a section counts on one index or on the other
        intro x hx
        have hlt := (hy.before x hx).2
        by_cases hidx : x.2 = cur % 2
        · exact hend hscan x hx hidx
        · exact hgone x hx (by omega)
      · cases hs
        exact hset _ _ ⟨hgone, scanStart_ok before⟩
  | done => cases hs

/-! ### Steps of threads -/

/-- A thread changes, and the others stay as they are. -/
theorem Inv.setThread
    (h : Inv n s) {t : Nat} {th : Thread} (hth : th.Ok n s)
    (hapart : ∀ {t' slot}, th.owned = some slot → (s.threads t').owned = some slot → t' = t)
    (hleaves : ∀ {t' sec}, th.pc.leaves = some sec → (s.threads t').pc.leaves = some sec →
      t' = t) :
  Inv n (s.setThread t th)
  where
  threads := by
    intro t'
    by_cases ht : t' = t
    · subst ht
      simp only [State.setThread, Function.update_self]
      exact hth.congr (fun _ => ⟨rfl, rfl, rfl⟩) fun _ hsec => hsec
    · simp only [State.setThread, Function.update_of_ne ht]
      exact (h.threads t').congr (fun _ => ⟨rfl, rfl, rfl⟩) fun _ hsec => hsec
  apart := by
    intro t₁ t₂ slot h₁ h₂
    simp only [State.setThread, Function.update_apply] at h₁ h₂
    split at h₁ <;> split at h₂
    · simp_all
    · rename_i ht₁ ht₂
      rw [ht₁]
      exact (hapart h₁ h₂).symm
    · rename_i ht₁ ht₂
      rw [ht₂]
      exact hapart h₂ h₁
    · exact h.apart h₁ h₂
  leaves := by
    intro t₁ t₂ sec h₁ h₂
    simp only [State.setThread, Function.update_apply] at h₁ h₂
    split at h₁ <;> split at h₂
    · simp_all
    · rename_i ht₁ ht₂
      rw [ht₁]
      exact (hleaves h₁ h₂).symm
    · rename_i ht₁ ht₂
      rw [ht₂]
      exact hleaves h₂ h₁
    · exact h.leaves h₁ h₂
  leaving := h.leaving
  ids := h.ids
  counts := h.counts
  entered := h.entered
  syncs := fun hk => (h.syncs hk).of_grows (.of_eq rfl rfl rfl rfl)

/-- A thread goes on with what it owns. -/
theorem Inv.setPc
    (h : Inv n s) {t : Nat} {pc : Pc} (hpc : pc.Ok n s { s.threads t with pc := pc })
    (hleaves : pc.leaves = none ∨ pc.leaves = (s.threads t).pc.leaves) :
  Inv n (s.setThread t { s.threads t with pc := pc })
  := by
  have hth : Thread.Ok n s { s.threads t with pc := pc } :=
    ⟨(h.threads t).owned, (h.threads t).last, hpc⟩
  refine h.setThread hth ?_ ?_
  · intro t' slot howned howned'
    exact h.apart howned' howned
  · intro t' sec hsec hsec'
    obtain hnone | hsame := hleaves
    · rw [hnone] at hsec
      cases hsec
    · rw [hsame] at hsec
      exact h.leaves hsec' hsec

/-- The slot that is claimed is the shared one or nobody's. -/
theorem State.claimSlot_free (hne : s.claimSlot n ≠ n) :
    s.claimSlot n < n ∧ s.inUse (s.claimSlot n) = false := by
  rw [State.claimSlot] at hne ⊢
  cases hfind : (List.range n).find? fun i => !s.inUse i with
  | none =>
      rw [hfind] at hne
      exact absurd rfl hne
  | some slot =>
      have hfree := List.find?_some hfind
      have hmem := List.mem_of_find?_eq_some hfind
      simp only [Bool.not_eq_true'] at hfree
      exact ⟨List.mem_range.mp hmem, hfree⟩

/-- A thread in no call changes what it owns. -/
theorem Inv.setOut
    (h : Inv n s) {t : Nat} {th : Thread} (hout : th.pc = .out)
    (howned : ∀ {slot}, th.owned = some slot → slot < n ∧ s.inUse slot = true)
    (hlast : ∀ {slot}, th.last = some slot → th.Uses n slot)
    (hapart : ∀ {t' slot}, th.owned = some slot → (s.threads t').owned = some slot → t' = t) :
  Inv n (s.setThread t th)
  := by
  apply h.setThread ⟨howned, hlast, by rw [hout]; trivial⟩ hapart
  intro t' sec hsec
  rw [hout] at hsec
  cases hsec

/-- A slot that nobody owns is taken into use or given back. -/
theorem Inv.setInUse
    (h : Inv n s) {slot : Nat} (hfree : ∀ t, (s.threads t).owned ≠ some slot) (b : Bool) :
  Inv n { s with inUse := Function.update s.inUse slot b }
  where
  threads := by
    intro t
    refine (h.threads t).congr ?_ fun _ hsec => hsec
    intro slot' howned
    refine ⟨Function.update_of_ne ?_ _ _, rfl, rfl⟩
    rintro rfl
    exact hfree t howned
  apart := h.apart
  leaves := h.leaves
  leaving := h.leaving
  ids := h.ids
  counts := h.counts
  entered := h.entered
  syncs := fun hk => (h.syncs hk).of_grows (.of_eq rfl rfl rfl rfl)

/-- A thread finds its slot. -/
theorem Inv.thisThreadSlot
    (h : Inv n s) {t slot : Nat} (hout : (s.threads t).pc = .out)
    (hs : s.thisThreadSlot n t = (slot, s')) :
  Inv n s' ∧ (s'.threads t).Uses n slot ∧ (s'.threads t).pc = .out
    ∧ s'.inside = s.inside ∧ s'.leaving = s.leaving
  := by
  have hth := h.threads t
  have hget : ∀ {c : State} {th : Thread}, (c.setThread t th).threads t = th :=
    Function.update_self ..
  rw [State.thisThreadSlot] at hs
  simp only at hs
  split at hs
  · rename_i hlast
    cases hs
    exact ⟨h, hth.last hlast, hout, rfl, rfl⟩
  · split at hs
    · rename_i howned
      cases hs
      rw [hget]
      refine ⟨h.setOut hout hth.owned ?_ (fun ho ho' => h.apart ho' ho), .inr howned, hout,
        rfl, rfl⟩
      rintro _ ⟨⟩
      exact .inr howned
    · split at hs
      · rename_i heq
        cases hs
        rw [hget]
        refine ⟨h.setOut hout hth.owned ?_ (fun ho ho' => h.apart ho' ho), .inl heq, hout, rfl, rfl⟩
        rintro _ ⟨⟩
        exact .inl heq
      · rename_i hne
        cases hs
        obtain ⟨hlt, hused⟩ := State.claimSlot_free hne
        have hfree : ∀ t, (s.threads t).owned ≠ some (s.claimSlot n) := by
          intro t' howned
          rw [((h.threads t').owned howned).2] at hused
          cases hused
        have hinv := h.setInUse hfree true
        refine ⟨?_, .inr ?_, ?_, rfl, rfl⟩
        · refine hinv.setOut hout ?_ ?_ ?_
          · rintro _ ⟨⟩
            exact ⟨hlt, Function.update_self ..⟩
          · rintro _ ⟨⟩
            exact .inr rfl
          · rintro t' _ ⟨⟩ howned
            exact absurd howned (hfree t')
        · exact congrArg Thread.owned (hget (c := s))
        · exact (congrArg Thread.pc (hget (c := s))).trans hout

/-- A thread that is in no call relies on no counter. -/
theorem Thread.Ok.of_out
    {th : Thread} {slot : Nat} (h : th.Ok n s) (hout : th.owned = some slot → th.pc = .out)
    (hinUse : s'.inUse = s.inUse) (hlock : ∀ {i}, i ≠ slot → s'.lock i = s.lock i)
    (hunlock : ∀ {i}, i ≠ slot → s'.unlock i = s.unlock i)
    (hleaves : ∀ {sec}, th.pc.leaves = some sec → sec ∈ s.leaving → sec ∈ s'.leaving) :
  th.Ok n s'
  := by
  by_cases howned : th.owned = some slot
  · refine ⟨?_, h.last, ?_⟩
    · rw [hinUse]
      exact h.owned
    · rw [hout howned]
      trivial
  · refine h.congr ?_ hleaves
    intro slot' howned'
    have hne : slot' ≠ slot := by
      rintro rfl
      exact howned howned'
    exact ⟨by rw [hinUse], hlock hne, hunlock hne⟩

/-- A section is counted as entered, on a slot that no thread in a call owns. -/
theorem Inv.lockBump
    (h : Inv n s) {slot idx : Nat} (hle : slot ≤ n) (hidx : idx < 2)
    (hout : ∀ t, (s.threads t).owned = some slot → (s.threads t).pc = .out) :
  Inv n { s with
    lock := setCtr s.lock slot idx (s.lock slot idx + 1)
    inside := insert (s.nextId, idx) s.inside
    nextId := s.nextId + 1 }
  := by
  have hbump : Bumped s.lock (setCtr s.lock slot idx (s.lock slot idx + 1)) slot idx := rfl
  have hnew : (s.nextId, idx) ∉ s.inside := fun hin => absurd (h.ids _ hin).1 (Nat.lt_irrefl _)
  refine ⟨?_, h.apart, h.leaves, h.leaving.trans (Finset.subset_insert _ _), ?_, ?_, ?_,
    fun hk => (h.syncs hk).of_grows ⟨hbump.le, fun _ _ => Nat.le_refl _, ?_, Nat.le_succ _⟩⟩
  · intro t
    exact (h.threads t).of_out (hout t) rfl (fun hne => Function.update_of_ne hne _ _)
      (fun _ => rfl) fun _ hsec => hsec
  · intro x hx
    obtain rfl | hx := Finset.mem_insert.mp hx
    · exact ⟨Nat.lt_succ_self _, hidx⟩
    · exact ⟨(h.ids x hx).1.trans (Nat.lt_succ_self _), (h.ids x hx).2⟩
  · intro idx'
    change total n _ idx' = total n s.unlock idx' + _
    have hcounts := h.counts idx'
    rw [hbump.total hle, Finset.filter_insert]
    by_cases hi : idx' = idx
    · subst hi
      rw [if_pos rfl, if_pos rfl, Finset.card_insert_of_notMem]
      · omega
      · exact fun hin => hnew (Finset.mem_filter.mp hin).1
    · rw [if_neg hi, if_neg (Ne.symm hi)]
      exact hcounts
  · have hentered := h.entered
    rw [hbump.total hle, hbump.total hle]
    have hcases : idx = 0 ∨ idx = 1 := by omega
    obtain rfl | rfl := hcases
    · simp
      omega
    · simp
      omega
  · intro x hx
    obtain rfl | hx := Finset.mem_insert.mp hx
    · exact .inr (Nat.le_refl _)
    · exact .inl hx

/-- A section is counted as left, on a slot that no thread in a call owns. -/
theorem Inv.unlockBump
    (h : Inv n s) {slot : Nat} {sec : Section} (hle : slot ≤ n) (hin : sec ∈ s.inside)
    (hout : ∀ t, (s.threads t).owned = some slot → (s.threads t).pc = .out)
    (hsec : ∀ t, (s.threads t).pc.leaves ≠ some sec) :
  Inv n { s with
    unlock := setCtr s.unlock slot sec.2 (s.unlock slot sec.2 + 1)
    inside := s.inside.erase sec
    leaving := s.leaving.erase sec }
  := by
  have hbump : Bumped s.unlock (setCtr s.unlock slot sec.2 (s.unlock slot sec.2 + 1)) slot sec.2 :=
    rfl
  refine ⟨?_, h.apart, h.leaves, Finset.erase_subset_erase _ h.leaving, ?_, ?_, h.entered,
    fun hk => (h.syncs hk).of_grows ⟨fun _ _ => Nat.le_refl _, hbump.le, ?_, Nat.le_refl _⟩⟩
  · intro t
    refine (h.threads t).of_out (hout t) rfl (fun _ => rfl)
      (fun hne => Function.update_of_ne hne _ _) ?_
    intro sec' hleaves hmem
    apply Finset.mem_erase_of_ne_of_mem _ hmem
    rintro rfl
    exact hsec t hleaves
  · intro x hx
    exact h.ids x (Finset.mem_of_mem_erase hx)
  · intro idx'
    change total n s.lock idx' = total n _ idx' + _
    have hcounts := h.counts idx'
    rw [hbump.total hle, Finset.filter_erase]
    by_cases hi : idx' = sec.2
    · subst hi
      have hmem : sec ∈ s.inside.filter fun x => x.2 = sec.2 := Finset.mem_filter.mpr ⟨hin, rfl⟩
      have hpos := Finset.card_pos.mpr ⟨sec, hmem⟩
      rw [if_pos rfl, Finset.card_erase_of_mem hmem]
      omega
    · rw [if_neg hi, Finset.erase_eq_of_notMem]
      · exact hcounts
      · exact fun hmem => hi (Finset.mem_filter.mp hmem).2.symm
  · intro x hx
    exact .inl (Finset.mem_of_mem_erase hx)

/-- A thread that counts on a slot is the only one in a call that owns it. -/
theorem Inv.out_of_uses
    (h : Inv n s) {t slot : Nat} (huses : (s.threads t).Uses n slot) {th : Thread}
    (hth : th.pc = .out) :
  ∀ t', ((s.setThread t th).threads t').owned = some slot →
    ((s.setThread t th).threads t').pc = .out
  := by
  intro t' howned
  by_cases ht : t' = t
  · subst ht
    simp only [State.setThread, Function.update_self]
    exact hth
  · simp only [State.setThread, Function.update_of_ne ht] at howned
    obtain rfl | hown := huses
    · exact absurd ((h.threads t').owned howned).1 (Nat.lt_irrefl _)
    · exact absurd (h.apart howned hown) ht

theorem Inv.uses_le
    (h : Inv n s) {t slot : Nat} (huses : (s.threads t).Uses n slot) :
  slot ≤ n
  := by
  obtain rfl | hown := huses
  · exact Nat.le_refl _
  · exact ((h.threads t).owned hown).1.le

theorem Inv.enter
    (h : Inv n s) {t slot idx : Nat} (huses : (s.threads t).Uses n slot) (hidx : idx < 2) :
  Inv n (s.enter t slot idx (s.lock slot idx + 1))
  := by
  have hout : Inv n (s.setThread t { s.threads t with pc := .out }) := h.setPc trivial (.inl rfl)
  exact hout.lockBump (h.uses_le huses) hidx (h.out_of_uses huses rfl)

theorem Inv.leave
    (h : Inv n s) {t slot : Nat} {sec : Section} (huses : (s.threads t).Uses n slot)
    (hleaves : (s.threads t).pc.leaves = some sec) (hsec : sec ∈ s.leaving) :
  Inv n (s.leave t slot sec (s.unlock slot sec.2 + 1))
  := by
  have hout : Inv n (s.setThread t { s.threads t with pc := .out }) := h.setPc trivial (.inl rfl)
  refine hout.unlockBump (h.uses_le huses) (h.leaving hsec) (h.out_of_uses huses rfl) ?_
  intro t' hleaves'
  by_cases ht : t' = t
  · subst ht
    simp only [State.setThread, Function.update_self] at hleaves'
    cases hleaves'
  · simp only [State.setThread, Function.update_of_ne ht] at hleaves'
    exact ht (h.leaves hleaves' hleaves)

theorem Inv.threadStep
    (h : Inv n s) {t : Nat} (hs : s.threadStep n t = some s') :
  Inv n s'
  := by
  have hpc := (h.threads t).pc
  rw [State.threadStep] at hs
  cases hth : (s.threads t).pc with
  | out =>
      rw [hth] at hs
      cases hs
  | lock slot =>
      rw [hth] at hs hpc
      cases hs
      exact h.setPc ⟨hpc, Nat.mod_lt _ Nat.two_pos⟩ (.inl rfl)
  | lockBump slot idx =>
      rw [hth] at hs hpc
      simp only at hs
      split at hs
      · cases hs
        exact h.enter hpc.1 hpc.2
      · rename_i hne
        cases hs
        exact h.setPc ⟨hpc.1.resolve_left hne, hpc.2, rfl⟩ (.inl rfl)
  | lockStore slot idx count =>
      rw [hth] at hs hpc
      obtain ⟨howned, hidx, rfl⟩ := hpc
      cases hs
      exact h.enter (.inr howned) hidx
  | unlockBump slot sec =>
      rw [hth] at hs hpc
      simp only at hs
      split at hs
      · cases hs
        exact h.leave hpc.1 (by rw [hth]; rfl) hpc.2
      · rename_i hne
        cases hs
        exact h.setPc ⟨hpc.1.resolve_left hne, hpc.2, rfl⟩ (.inr (by rw [hth]; rfl))
  | unlockStore slot sec count =>
      rw [hth] at hs hpc
      obtain ⟨howned, hsec, rfl⟩ := hpc
      cases hs
      exact h.leave (.inr howned) (by rw [hth]; rfl) hsec

/-! ### Runs -/

/-- A section that is inside is claimed for leaving. -/
theorem Inv.claim
    (h : Inv n s) {sec : Section} (hin : sec ∈ s.inside) :
  Inv n { s with leaving := insert sec s.leaving }
  where
  threads := fun t => (h.threads t).congr (fun _ => ⟨rfl, rfl, rfl⟩)
    fun _ hsec => Finset.mem_insert_of_mem hsec
  apart := h.apart
  leaves := h.leaves
  leaving := Finset.insert_subset hin h.leaving
  ids := h.ids
  counts := h.counts
  entered := h.entered
  syncs := fun hk => (h.syncs hk).of_grows (.of_eq rfl rfl rfl rfl)

/-- A section that a thread is leaving is claimed. -/
theorem Inv.mem_leaving
    (h : Inv n s) {t : Nat} {sec : Section} (hleaves : (s.threads t).pc.leaves = some sec) :
  sec ∈ s.leaving
  := by
  have hpc := (h.threads t).pc
  cases hth : (s.threads t).pc with
  | out | lock _ | lockBump _ _ | lockStore _ _ _ =>
      rw [hth] at hleaves
      cases hleaves
  | unlockBump _ _ =>
      rw [hth] at hleaves hpc
      cases hleaves
      exact hpc.2
  | unlockStore _ _ _ =>
      rw [hth] at hleaves hpc
      cases hleaves
      exact hpc.2.1

theorem Inv.step (h : Inv n s) {a : Act} (hs : s.step n a = some s') : Inv n s' := by
  cases a with
  | readLock t =>
      simp only [State.step, Option.ite_none_right_eq_some, Option.some.injEq] at hs
      obtain ⟨hout, rfl⟩ := hs
      obtain ⟨h₁, huses, -⟩ := h.thisThreadSlot hout rfl
      exact h₁.setPc (show Pc.Ok n _ _ (.lock _) from huses) (.inl rfl)
  | readUnlock t sec =>
      simp only [State.step, Option.ite_none_right_eq_some, Option.some.injEq] at hs
      obtain ⟨⟨hout, hin, hsec⟩, rfl⟩ := hs
      generalize hslot : s.thisThreadSlot n t = found
      obtain ⟨slot, s₁⟩ := found
      obtain ⟨h₁, huses, -, hinside, hleaving⟩ := h.thisThreadSlot hout hslot
      have h₂ := h₁.claim (by rw [hinside]; exact hin)
      have hth : Thread.Ok n { s₁ with leaving := insert sec s₁.leaving }
          { s₁.threads t with pc := .unlockBump slot sec } :=
        ⟨(h₂.threads t).owned, (h₂.threads t).last, huses, Finset.mem_insert_self _ _⟩
      refine h₂.setThread hth (fun howned howned' => h₁.apart howned' howned) ?_
      rintro t' _ ⟨⟩ hleaves
      have hmem := h₁.mem_leaving hleaves
      rw [hleaving] at hmem
      exact absurd hmem hsec
  | thread t => exact h.threadStep hs
  | otherInstance t =>
      obtain ⟨hout, ⟨⟩⟩ := Option.ite_none_right_eq_some.mp hs
      exact h.setOut hout (h.threads t).owned nofun fun howned howned' => h.apart howned' howned
  | exit t =>
      obtain ⟨hout, hs⟩ := Option.ite_none_right_eq_some.mp hs
      have hnew : Inv n (s.setThread t .new) := h.setOut rfl nofun nofun nofun
      split at hs
      · rename_i slot howned
        cases hs
        apply hnew.setInUse _ false
        intro t' howned'
        by_cases ht : t' = t
        · subst ht
          simp only [State.setThread, Function.update_self] at howned'
          cases howned'
        · simp only [State.setThread, Function.update_of_ne ht] at howned'
          exact ht (h.apart howned' howned)
      · cases hs
        exact hnew
  | synchronize k =>
      obtain ⟨-, ⟨⟩⟩ := Option.ite_none_right_eq_some.mp hs
      exact h.setSync (y := ⟨s.inside, .begun⟩) ⟨h.ids, trivial⟩ s.gpIdx s.gpMu
  | sync k =>
      obtain ⟨y, hk, hs⟩ := Option.bind_eq_some_iff.mp hs
      exact h.syncStep hk hs

theorem Inv.init : Inv n .init where
  threads := fun _ => ⟨nofun, nofun, trivial⟩
  apart := nofun
  leaves := nofun
  leaving := Finset.Subset.refl _
  ids := nofun
  counts := fun idx => by simp [State.init, sumOf]
  entered := by simp [State.init, sumOf]
  syncs := nofun

/-- In every run, a call of `synchronize` that returns has seen all sections left that were inside
when it began; no two threads own one slot, and the counters count every section entered and every
section left. -/
theorem grace_period
    (hr : Reach (State.step n) (fun _ _ => True) .init s) :
  (∀ {k y}, s.syncs k = some y → y.pc = .done → ∀ x ∈ y.before, x ∉ s.inside)
    ∧ (∀ {t t' slot}, (s.threads t).owned = some slot → (s.threads t').owned = some slot → t = t')
    ∧ total n s.lock 0 + total n s.lock 1 = s.nextId
    ∧ ∀ idx, total n s.lock idx = total n s.unlock idx + (s.inside.filter fun x => x.2 = idx).card
  := by
  have h : Inv n s := hr.invariant .init fun _ _ _ h _ hs => h.step hs
  refine ⟨?_, h.apart, h.entered, h.counts⟩
  intro k y hk hdone
  have hpc := (h.syncs hk).pc
  rw [hdone] at hpc
  exact hpc

end

/-- One private slot: a thread enters a section on it, a second enters one on the shared slot, and
`synchronize` begins, drains the other index, flips and scans once in vain; then each section is
left by the other thread, and the next scan succeeds. -/
def twoSections : Option State :=
  run (State.step 1) .init (([.readLock 0, .thread 0, .thread 0, .thread 0, .readLock 1, .thread 1,
    .thread 1, .synchronize 0] : List Act) ++ List.replicate 15 (Act.sync 0)
    ++ ([.readUnlock 1 (0, 0), .thread 1, .readUnlock 0 (1, 0), .thread 0, .thread 0] : List Act)
    ++ List.replicate 6 (Act.sync 0))

theorem twoSections_gone :
    ∃ s y, twoSections = some s ∧ s.syncs 0 = some y ∧ y.before = {(0, 0), (1, 0)} ∧ y.pc = .done
      ∧ (0, 0) ∉ s.inside ∧ (1, 0) ∉ s.inside := by
  have hsync : (twoSections.bind (·.syncs 0)).isSome = true := by decide +kernel
  have hbefore : (twoSections.bind (·.syncs 0)).map Sync.before = some {(0, 0), (1, 0)} := by
    decide +kernel
  have hpc : (twoSections.bind (·.syncs 0)).map Sync.pc = some .done := by decide +kernel
  obtain ⟨y, hy⟩ := Option.isSome_iff_exists.mp hsync
  rw [hy, Option.map_some, Option.some.injEq] at hbefore hpc
  obtain ⟨s, hs, hk⟩ := Option.bind_eq_some_iff.mp hy
  have hgone := (grace_period (.of_run .refl (fun _ _ _ => trivial) hs)).1 hk hpc
  rw [hbefore] at hgone
  exact ⟨s, y, hs, hk, hbefore, hpc, hgone _ (by decide), hgone _ (by decide)⟩

end UDepot.Rcu
