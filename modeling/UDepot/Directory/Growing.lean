import UDepot.Directory.Writers

/-!
# No write is lost to a grow

The steps that begin and end sections and the steps of a grow keep what the steps of writers keep.
So in every run of any number of writers and grows, the entries of the current snapshot are those
the completed calls make of the first snapshot.
-/

namespace UDepot.Directory

open Hopscotch Transition

section

variable {bits : Nat} {m : Multiset (Nat × EntryInfo)} {s s' : State} {i : Nat} {p : Party}

/-! ### Steps that write no table -/

/-- A step that leaves the snapshots, the locks, the writers on the tables, the grow and the log as
they are. -/
theorem Inv.rest
    (h : Inv bits m s) (hsnaps : s'.snaps = s.snaps) (hcur : s'.cur = s.cur)
    (hstripes : s'.stripes = s.stripes) (hgrow : s'.grow = s.grow) (hlog : s'.log = s.log)
    (hwriters : ∀ gen j, s'.writersOn gen j = s.writersOn gen j) (hsec : s.nextSec ≤ s'.nextSec)
    (hnum : s.nextNum ≤ s'.nextNum) (hparties : ∀ {k q}, s'.parties k = some q → q.Ok s')
    (hapart : ∀ {k k' q q'}, s'.parties k = some q → s'.parties k' = some q' → k ≠ k' →
      q.num ≠ q'.num ∧ q.sec ≠ q'.sec)
    (hreaders : ∀ sec ∈ s'.readers, sec < s'.nextSec)
    (hsections : ∀ sec ∈ s'.sections, sec < s'.nextSec)
    (hreturned : ∀ x ∈ s'.returned, x.1 < s'.nextNum ∧ ((x.1, x.2.1) ∈ s.log ↔ x.2.2 = true)) :
  Inv bits m s'
  := by
  have hcurSnap : s'.curSnap = s.curSnap := by rw [State.curSnap, hsnaps, hcur, State.curSnap]
  refine ⟨?_, ?_, ?_, hparties, hapart, hreaders, hsections, ⟨?_, ?_, ?_⟩, ⟨?_, ?_, ?_, ?_⟩, ?_⟩
  · rw [hsnaps, hcur]
    exact h.wf
  · rw [hsnaps, hcur]
    exact h.bucketBits
  · rw [hsnaps, hcur, hstripes]
    intro g j hg hj
    rw [hwriters]
    exact h.held hg hj
  · rw [hlog]
    exact h.logs.nodup
  · rw [hlog]
    exact fun x hx => (h.logs.log x hx).trans_le hnum
  · rw [hlog]
    exact hreturned
  · rw [hsnaps, hcur, hgrow]
    exact h.grow.frozen
  · rw [hgrow, hcurSnap]
    exact h.grow.bits
  · rw [hgrow]
    exact fun hfirst => (h.grow.first hfirst).trans hsec
  · rw [hgrow, hcurSnap]
    exact h.grow.copying
  · have hcounted : s'.counted = s.counted := by
      rw [State.counted, State.counted, hcurSnap, hcur]
      simp only [hwriters]
    rw [hlog, hcounted]
    exact h.counted

/-- A party that is on no table, before and after. -/
theorem writersOn_outside
    {o : Option Party} (hsnaps : s'.snaps = s.snaps)
    (hparties : s'.parties = Function.update s.parties i o)
    (hold : (s.parties i).bind Party.writer = none) (hnew : o.bind Party.writer = none)
    (gen j : Nat) :
  s'.writersOn gen j = s.writersOn gen j
  := by
  funext k
  rw [State.writersOn, State.writersOn, hsnaps, hparties]
  by_cases hk : k = i
  · subst hk
    rw [Function.update_self, onTable, onTable, hold, hnew]
  · rw [Function.update_of_ne hk]

/-- What is kept for a party is kept when a section begins that is not its own. -/
theorem Party.Ok.enter
    (h : p.Ok s) (hcur : s'.cur = s.cur) (hgrow : s'.grow = s.grow) (hlog : s'.log = s.log)
    (hreturned : s'.returned = s.returned) (hnum : s.nextNum ≤ s'.nextNum)
    (hsections : s'.sections = insert s.nextSec s.sections)
    (hsec : s'.nextSec = s.nextSec + 1) (hreaders : s'.readers ⊆ insert s.nextSec s.readers) :
  p.Ok s'
  := by
  refine h.frame hcur hgrow (by omega) hnum ?_ ?_ (by rw [hlog]; exact List.Subset.refl _) ?_ ?_
  · rw [hsections]
    exact Finset.mem_insert_of_mem
  · intro hin
    obtain heq | hin := Finset.mem_insert.mp (hreaders hin)
    · have hlt := h.sec
      omega
    · exact h.reader hin
  · rw [hlog]
    exact fun _ hx => .inl hx
  · rw [hreturned]
    exact fun _ hx => .inl hx

/-- The section that begins is new. -/
theorem Inv.sections_enter
    (h : Inv bits m s) :
  ∀ sec ∈ insert s.nextSec s.sections, sec < s.nextSec + 1
  := by
  intro sec hsec
  obtain rfl | hsec := Finset.mem_insert.mp hsec
  · exact Nat.lt_succ_self _
  · exact (h.sections sec hsec).trans (Nat.lt_succ_self _)

theorem Inv.call
    (h : Inv bits m s) (hi : s.parties i = none) (c : HashTable.Call) :
  Inv bits m { s.enter.setParty i ⟨s.nextNum, c, s.nextSec, .entered⟩ with
    nextNum := s.nextNum + 1 }
  := by
  refine h.rest rfl rfl rfl rfl rfl
    (writersOn_outside (i := i) (o := some ⟨s.nextNum, c, s.nextSec, .entered⟩) rfl rfl
      (by rw [hi]; rfl) rfl)
    (Nat.le_succ _) (Nat.le_succ _) ?_ ?_ ?_ h.sections_enter ?_
  · intro k q hk
    obtain ⟨rfl, ⟨⟩⟩ | ⟨-, hq⟩ := update_eq_some hk
    · refine ⟨nofun, Nat.lt_succ_self _, fun _ => Finset.mem_insert_self _ _, ?_, nofun,
        Nat.lt_succ_self _, nofun, ?_, ?_⟩
      · exact fun hin => absurd (h.readers _ hin) (Nat.lt_irrefl _)
      · exact fun _ x hx => (h.logs.log x hx).ne
      · exact fun x hx => (h.logs.returned x hx).1.ne
    · exact (h.parties hq).enter rfl rfl rfl rfl (Nat.le_succ _) rfl rfl
        (Finset.subset_insert _ _)
  · refine fun hk hk' hne => h.apart_update ?_ hk hk' hne
    rintro _ k q' ⟨⟩ - hq'
    exact ⟨(h.parties hq').num.ne', (h.parties hq').sec.ne'⟩
  · exact fun sec hsec => (h.readers sec hsec).trans (Nat.lt_succ_self _)
  · intro x hx
    obtain ⟨hnum, hiff⟩ := h.logs.returned x hx
    exact ⟨hnum.trans (Nat.lt_succ_self _), hiff⟩

/-- A party that waited for a grow enters a new section. -/
theorem Inv.again
    (h : Inv bits m s) (hi : s.parties i = some p) {gen : Nat} (hstage : p.stage = .waiting gen) :
  Inv bits m (s.enter.setParty i { p with sec := s.nextSec, stage := .entered })
  := by
  have hp := h.parties hi
  have hnone : p.writer = none := by rw [Party.writer, hstage]
  have hundone : p.stage.done = false := by rw [hstage]; rfl
  refine h.rest rfl rfl rfl rfl rfl
    (writersOn_outside (i := i) (o := some { p with sec := s.nextSec, stage := .entered }) rfl rfl
      (by rw [hi]; exact hnone) rfl)
    (Nat.le_succ _) (Nat.le_refl _) ?_ ?_ ?_ h.sections_enter h.logs.returned
  · intro k q hk
    obtain ⟨rfl, ⟨⟩⟩ | ⟨-, hq⟩ := update_eq_some hk
    · refine ⟨by rintro _ ⟨⟩, Nat.lt_succ_self _, fun _ => Finset.mem_insert_self _ _, ?_,
        by rintro _ _ _ ⟨⟩, hp.num, by rintro ⟨⟩, fun _ => hp.unlogged hundone, hp.unreturned⟩
      exact fun hin => absurd (h.readers _ hin) (Nat.lt_irrefl _)
    · exact (h.parties hq).enter rfl rfl rfl rfl (Nat.le_refl _) rfl rfl
        (Finset.subset_insert _ _)
  · refine fun hk hk' hne => h.apart_update ?_ hk hk' hne
    rintro _ k q' ⟨⟩ hki hq'
    exact ⟨(h.apart hi hq' (Ne.symm hki)).1, (h.parties hq').sec.ne'⟩
  · exact fun sec hsec => (h.readers sec hsec).trans (Nat.lt_succ_self _)

/-- The sections of the other parties go on when one party leaves its own. -/
theorem Inv.mem_erase
    (h : Inv bits m s) (hi : s.parties i = some p) {k : Nat} {q : Party} (hki : k ≠ i)
    (hq : s.parties k = some q) (hin : q.sec ∈ s.sections) :
  q.sec ∈ s.sections.erase p.sec
  :=
  Finset.mem_erase_of_ne_of_mem (h.apart hi hq (Ne.symm hki)).2.symm hin

/-- A party that saw the snapshot frozen leaves its section. -/
theorem Inv.leaveRefused
    (h : Inv bits m s) (hi : s.parties i = some p) {gen : Nat} (hstage : p.stage = .refused gen) :
  Inv bits m { s.setParty i { p with stage := .waiting gen } with
    sections := s.sections.erase p.sec }
  := by
  have hp := h.parties hi
  have hnone : p.writer = none := by rw [Party.writer, hstage]
  have hundone : p.stage.done = false := by rw [hstage]; rfl
  refine h.rest rfl rfl rfl rfl rfl
    (writersOn_outside (i := i) (o := some { p with stage := .waiting gen }) rfl rfl
      (by rw [hi]; exact hnone) rfl)
    (Nat.le_refl _) (Nat.le_refl _) ?_ ?_ h.readers ?_ h.logs.returned
  · intro k q hk
    obtain ⟨rfl, ⟨⟩⟩ | ⟨hki, hq⟩ := update_eq_some hk
    · refine ⟨?_, hp.sec, fun hin => absurd rfl (hin gen), hp.reader, by rintro _ _ _ ⟨⟩, hp.num,
        by rintro ⟨⟩, fun _ => hp.unlogged hundone, hp.unreturned⟩
      rintro g ⟨⟩
      exact hp.gen (by rw [hstage]; rfl)
    · exact (h.parties hq).frame rfl rfl (Nat.le_refl _) (Nat.le_refl _) (h.mem_erase hi hki hq)
        (h.parties hq).reader (List.Subset.refl _) (fun _ hx => .inl hx) fun _ hx => .inl hx
  · refine fun hk hk' hne => h.apart_update ?_ hk hk' hne
    rintro _ k q' ⟨⟩ hki hq'
    exact h.apart (p := p) hi hq' (Ne.symm hki)
  · exact fun sec hsec => h.sections sec (Finset.mem_of_mem_erase hsec)

/-- A party that has released its locks leaves its section, and its call returns. -/
theorem Inv.leave
    (h : Inv bits m s) (hi : s.parties i = some p) {ok : Bool} (hstage : p.stage = .unlocked ok) :
  Inv bits m { s with
    parties := Function.update s.parties i none
    sections := s.sections.erase p.sec
    returned := s.returned ++ [(p.num, p.call, ok)] }
  := by
  have hp := h.parties hi
  have hnone : p.writer = none := by rw [Party.writer, hstage]
  refine h.rest rfl rfl rfl rfl rfl
    (writersOn_outside (i := i) (o := none) rfl rfl (by rw [hi]; exact hnone) rfl)
    (Nat.le_refl _) (Nat.le_refl _) ?_ ?_ h.readers ?_ ?_
  · intro k q hk
    obtain ⟨rfl, ⟨⟩⟩ | ⟨hki, hq⟩ := update_eq_some hk
    refine (h.parties hq).frame rfl rfl (Nat.le_refl _) (Nat.le_refl _) (h.mem_erase hi hki hq)
      (h.parties hq).reader (List.Subset.refl _) (fun _ hx => .inl hx) fun x hx => ?_
    obtain hx | hx := List.mem_append.mp hx
    · exact .inl hx
    · rw [List.mem_singleton.mp hx]
      exact .inr (h.apart hi hq (Ne.symm hki)).1
  · refine fun hk hk' hne => h.apart_update ?_ hk hk' hne
    rintro _ k q' ⟨⟩
  · exact fun sec hsec => h.sections sec (Finset.mem_of_mem_erase hsec)
  · intro x hx
    obtain hx | hx := List.mem_append.mp hx
    · exact h.logs.returned x hx
    · rw [List.mem_singleton.mp hx]
      refine ⟨hp.num, ⟨fun hmem => ?_, fun hok => hp.logged (by rw [hstage]; exact hok)⟩⟩
      cases ok with
      | true => rfl
      | false => exact absurd rfl (hp.unlogged (by rw [hstage]; rfl) _ hmem)

theorem Inv.enterReader
    (h : Inv bits m s) :
  Inv bits m { s.enter with readers := insert s.nextSec s.readers }
  := by
  refine h.rest rfl rfl rfl rfl rfl (fun _ _ => rfl) (Nat.le_succ _) (Nat.le_refl _) ?_ h.apart ?_
    h.sections_enter h.logs.returned
  · exact fun hq => (h.parties hq).enter rfl rfl rfl rfl (Nat.le_refl _) rfl rfl
      (Finset.Subset.refl _)
  · intro sec hsec
    obtain rfl | hsec := Finset.mem_insert.mp hsec
    · exact Nat.lt_succ_self _
    · exact (h.readers sec hsec).trans (Nat.lt_succ_self _)

theorem Inv.leaveReader
    (h : Inv bits m s) {sec : Nat} (hin : sec ∈ s.readers) :
  Inv bits m { s with readers := s.readers.erase sec, sections := s.sections.erase sec }
  := by
  refine h.rest rfl rfl rfl rfl rfl (fun _ _ => rfl) (Nat.le_refl _) (Nat.le_refl _) ?_ h.apart ?_
    ?_ h.logs.returned
  · intro k q hq
    have hq' := h.parties hq
    refine hq'.frame rfl rfl (Nat.le_refl _) (Nat.le_refl _) ?_ ?_ (List.Subset.refl _)
      (fun _ hx => .inl hx) fun _ hx => .inl hx
    · apply Finset.mem_erase_of_ne_of_mem
      rintro rfl
      exact hq'.reader hin
    · exact fun hmem => hq'.reader (Finset.mem_of_mem_erase hmem)
  · exact fun sec' hsec => h.readers sec' (Finset.mem_of_mem_erase hsec)
  · exact fun sec' hsec => h.sections sec' (Finset.mem_of_mem_erase hsec)

/-! ### Steps of a grow -/

/-- A step of a grow that leaves the snapshots as they are. -/
theorem Inv.setGrow
    (h : Inv bits m s) {g : Grow} (hgrow : GrowOk { s with grow := g })
    (hawaits : ∀ {k q gen ok ws}, s.parties k = some q → q.stage = .writing gen ok ws →
      g.Awaits q.sec) :
  Inv bits m { s with grow := g }
  where
  wf := h.wf
  bucketBits := h.bucketBits
  held := h.held
  parties := by
    intro k q hq
    obtain ⟨hgen, hsec, hinside, hreader, hwriting, hnum, hlogged, hunlogged, hunreturned⟩ :=
      h.parties hq
    exact ⟨hgen, hsec, hinside, hreader,
      fun hstage => ⟨(hwriting hstage).1, hawaits hq hstage⟩, hnum, hlogged, hunlogged, hunreturned⟩
  apart := h.apart
  readers := h.readers
  sections := h.sections
  logs := ⟨h.logs.nodup, h.logs.log, h.logs.returned⟩
  grow := hgrow
  counted := h.counted

section Freeze

/-- A snapshot after the freeze differs in that only. -/
theorem freeze_snaps (s : State) (g : Nat) :
    s.freeze.snaps g = { s.snaps g with frozen := g == s.cur || (s.snaps g).frozen } := by
  simp only [State.freeze, State.setSnap, Function.update_apply]
  split
  · rename_i hg
    subst hg
    rw [beq_self_eq_true, Bool.true_or]
    rfl
  · rename_i hg
    rw [beq_false_of_ne hg, Bool.false_or]

theorem freeze_writersOn (s : State) (g j : Nat) : s.freeze.writersOn g j = s.writersOn g j := by
  funext k
  rw [State.writersOn, freeze_snaps]
  rfl

theorem freeze_counted (s : State) : s.freeze.counted = s.counted := by
  change ∑ j ∈ Finset.range (s.freeze.snaps s.cur).size,
    ((s.freeze.snaps s.cur).tables j).counted (s.freeze.writersOn s.cur j) = _
  simp only [freeze_snaps, freeze_writersOn]
  rfl

theorem Inv.freeze
    (h : Inv bits m s) (hbits : s.curSnap.tableBits < kMaxTableBits) (hidle : s.grow = .idle) :
  Inv bits m s.freeze
  := by
  refine ⟨?_, ?_, ?_, ?_, h.apart, h.readers, h.sections,
    ⟨h.logs.nodup, h.logs.log, h.logs.returned⟩, ⟨?_, ?_, nofun, nofun⟩, ?_⟩
  · intro g hg
    rw [freeze_snaps]
    exact ⟨(h.wf hg).bits, (h.wf hg).table, (h.wf hg).indexBits, (h.wf hg).tag, (h.wf hg).select⟩
  · intro g hg
    rw [freeze_snaps]
    exact h.bucketBits hg
  · intro g j hg hj
    rw [freeze_snaps] at hj
    rw [freeze_writersOn, freeze_snaps]
    exact h.held hg hj
  · intro k q hq
    obtain ⟨hgen, hsec, hinside, hreader, hwriting, hnum, hlogged, hunlogged, hunreturned⟩ :=
      h.parties hq
    exact ⟨hgen, hsec, hinside, hreader, fun hstage => ⟨(hwriting hstage).1, trivial⟩, hnum,
      hlogged, hunlogged, hunreturned⟩
  · intro g hg
    change g ≤ s.cur at hg
    rw [freeze_snaps]
    simp only [Bool.or_eq_true, beq_iff_eq, h.grow.frozen hg, hidle, Grow.freezes, State.freeze,
      State.setSnap, reduceCtorEq, or_false, or_true, iff_true]
    omega
  · intro _
    change (s.freeze.snaps s.cur).tableBits < _
    rw [freeze_snaps]
    exact hbits
  · rw [freeze_counted]
    exact h.counted

end Freeze

section Publish

/-- If no party is writing, what is counted is the items. -/
theorem counted_of_quiet
    (hquiet : ∀ {k q gen ok ws}, s.parties k = some q → q.stage ≠ .writing gen ok ws) :
  s.counted = s.curSnap.items
  := by
  apply Finset.sum_congr rfl
  intro j _
  apply HashTable.counted_eq_items
  rintro idx ⟨k, w, hk, hclears⟩
  cases hq : s.parties k with
  | none =>
      rw [State.writersOn, hq] at hk
      cases hk
  | some q =>
      rw [State.writersOn, hq] at hk
      obtain ⟨hw, -⟩ := onTable_eq_some hk
      cases hstage : q.stage with
      | locked gen =>
          rw [Party.writer, hstage] at hw
          cases hw
          rw [HashTable.Writer.clears_nil] at hclears
          cases hclears
      | writing gen ok ws => exact hquiet hq hstage
      | entered | loaded _ | unlocked _ | refused _ | waiting _ =>
          rw [Party.writer, hstage] at hw
          cases hw

theorem publish_snaps (s : State) (new : DirSnapshot) {g : Nat} (hg : g ≤ s.cur) :
    (s.publish new).snaps g = s.snaps g :=
  Function.update_of_ne (by omega) _ _

/-- The copy is complete, and becomes the current snapshot: it holds the same items. -/
theorem Inv.publish
    (h : Inv bits m s) {new : DirSnapshot} {k : Nat}
    (hgrow : s.grow = .copying s.curSnap.size k new) :
  Inv bits m (s.publish new) ∧ new.items = s.curSnap.items ∧ s.counted = s.curSnap.items
  := by
  have hquiet : ∀ {k q gen ok ws}, s.parties k = some q → q.stage ≠ .writing gen ok ws := by
    intro k q gen ok ws hq hstage
    have hawaits := ((h.parties hq).writing hstage).2
    rw [hgrow] at hawaits
    exact hawaits
  obtain ⟨-, hk, -, hnew⟩ := h.grow.copying hgrow
  obtain rfl := hk rfl
  have hbits := h.grow.bits (by rw [hgrow]; rfl)
  have hwf : s.curSnap.Wf := h.wf (Nat.le_refl _)
  obtain ⟨hcopied, hitems⟩ := hwf.growCopy hbits
  change new = s.curSnap.growCopy at hnew
  rw [← hnew] at hcopied hitems
  have hcounted := counted_of_quiet hquiet
  have hlast : (s.publish new).snaps (s.cur + 1) = new := Function.update_self ..
  have hsplit : ∀ {g}, g ≤ (s.publish new).cur → g ≤ s.cur ∨ g = s.cur + 1 := fun hg =>
    Nat.le_succ_iff.mp hg
  have hnone : ∀ {j}, (s.publish new).writersOn (s.cur + 1) j = fun _ => none := by
    intro j
    funext k
    cases hq : s.parties k with
    | none =>
        change onTable _ _ _ (s.parties k) = none
        rw [hq]
        rfl
    | some q =>
        change onTable _ _ _ (s.parties k) = none
        rw [hq]
        apply onTable_eq_none
        intro w hw
        have hgen := (h.parties hq).gen (Party.gen_of_writer hw)
        omega
  have hcounted' : (s.publish new).counted = new.items := by
    change ∑ j ∈ Finset.range ((s.publish new).snaps (s.cur + 1)).size,
      (((s.publish new).snaps (s.cur + 1)).tables j).counted
        ((s.publish new).writersOn (s.cur + 1) j) = _
    rw [hlast]
    apply Finset.sum_congr rfl
    intro j _
    rw [hnone]
    apply HashTable.counted_eq_items
    rintro idx ⟨k, w, ⟨⟩, -⟩
  refine ⟨⟨?_, ?_, ?_, ?_, h.apart, h.readers, h.sections,
    ⟨h.logs.nodup, h.logs.log, h.logs.returned⟩, ⟨?_, ?_, ?_, ?_⟩, ?_⟩, hitems, hcounted⟩
  · intro g hg
    obtain hg | rfl := hsplit hg
    · rw [publish_snaps s new hg]
      exact h.wf hg
    · rw [hlast]
      exact hcopied.wf
  · intro g hg
    obtain hg | rfl := hsplit hg
    · rw [publish_snaps s new hg]
      exact h.bucketBits hg
    · rw [hlast, hcopied.bucketBits]
      exact h.bucketBits (Nat.le_refl _)
  · intro g j hg hj
    obtain hg | rfl := hsplit hg
    · rw [publish_snaps s new hg] at hj
      have hwriters : (s.publish new).writersOn g j = s.writersOn g j := by
        funext k
        rw [State.writersOn, publish_snaps s new hg]
        rfl
      rw [publish_snaps s new hg, hwriters]
      exact h.held hg hj
    · rw [hlast] at hj
      rw [hnone, hlast]
      exact ⟨hcopied.wf.table hj, by rintro _ _ ⟨⟩, by rintro _ _ ⟨⟩⟩
  · intro k q hq
    obtain ⟨hgen, hsec, hinside, hreader, hwriting, hnum, hlogged, hunlogged, hunreturned⟩ :=
      h.parties hq
    exact ⟨fun hg => (hgen hg).trans (Nat.le_succ _), hsec, hinside, hreader,
      fun hstage => absurd hstage (hquiet hq), hnum, hlogged, hunlogged, hunreturned⟩
  · intro g hg
    obtain hg | rfl := hsplit hg
    · rw [publish_snaps s new hg, h.grow.frozen hg, hgrow]
      simp only [Grow.freezes, State.publish, or_true, true_iff]
      omega
    · rw [hlast, hcopied.frozen]
      simp [State.publish, Grow.freezes]
  · rintro ⟨⟩
  · rintro _ ⟨⟩
  · rintro _ _ _ ⟨⟩
  · change Applies bits m s.log (s.publish new).counted
    rw [hcounted', hitems, ← hcounted]
    exact h.counted

end Publish

/-! ### Runs -/

/-- A grow that goes on with the snapshot frozen, or not, as it was. -/
theorem GrowOk.setGrow
    (h : GrowOk s) {g : Grow} (hfreezes : g.freezes = s.grow.freezes)
    (hfirst : ∀ {first}, g = .syncing first → first ≤ s.nextSec)
    (hcopying : ∀ {j k new}, g = .copying j k new → j ≤ s.curSnap.size
      ∧ (j = s.curSnap.size → k = 0) ∧ k ≤ (s.curSnap.tables j).totalSlots
      ∧ new = s.curSnap.copySlots j k (s.curSnap.copyTables j s.curSnap.doubled)) :
  GrowOk { s with grow := g }
  where
  frozen := by
    intro g' hg
    rw [hfreezes]
    exact h.frozen hg
  bits := by
    intro hf
    rw [hfreezes] at hf
    exact h.bits hf
  first := hfirst
  copying := hcopying

theorem Inv.stepGrow {a : Act} (h : Inv bits m s) (hs : s.stepGrow a = some s') :
    Inv bits m s' := by
  unfold State.stepGrow at hs
  split at hs
  · rename_i hgrow
    obtain ⟨hlt, ⟨⟩⟩ := Option.ite_none_right_eq_some.mp hs
    exact h.freeze hlt hgrow
  · rename_i hgrow
    cases hs
    refine h.setGrow (h.grow.setGrow (by rw [hgrow]; rfl) ?_ nofun) fun hq _ => (h.parties hq).sec
    rintro first ⟨⟩
    exact Nat.le_refl _
  · rename_i first hgrow
    obtain ⟨hwaited, ⟨⟩⟩ := Option.ite_none_right_eq_some.mp hs
    refine h.setGrow (h.grow.setGrow (by rw [hgrow]; rfl) nofun ?_) ?_
    · rintro j k new ⟨⟩
      exact ⟨Nat.zero_le _, fun _ => rfl, Nat.zero_le _, rfl⟩
    · -- a party that is writing is in a section the grow has waited for
      intro k q gen ok ws hq hstage
      have hp := h.parties hq
      have hawaits := (hp.writing hstage).2
      have hin := hp.inside (by rw [hstage]; nofun)
      rw [hgrow] at hawaits
      exact absurd (hwaited _ hin) (Nat.not_le.mpr hawaits)
  · rename_i j k new hgrow
    obtain ⟨hj, hs⟩ := Option.ite_none_right_eq_some.mp hs
    have hawaits : ∀ {k q gen ok ws}, s.parties k = some q → q.stage = .writing gen ok ws →
        False := by
      intro k q gen ok ws hq hstage
      have hawaits := ((h.parties hq).writing hstage).2
      rw [hgrow] at hawaits
      exact hawaits
    obtain ⟨-, -, hle, hnew⟩ := h.grow.copying hgrow
    split at hs
    · rename_i hk
      cases hs
      refine h.setGrow (h.grow.setGrow (by rw [hgrow]; rfl) nofun ?_) fun hq hstage =>
        (hawaits hq hstage).elim
      rintro _ _ _ ⟨⟩
      exact ⟨hj.le, fun heq => absurd heq hj.ne, hk, by rw [hnew]; rfl⟩
    · rename_i hk
      cases hs
      refine h.setGrow (h.grow.setGrow (by rw [hgrow]; rfl) nofun ?_) fun hq hstage =>
        (hawaits hq hstage).elim
      rintro _ _ _ ⟨⟩
      refine ⟨hj, fun _ => rfl, Nat.zero_le _, ?_⟩
      rw [hnew, Nat.le_antisymm hle (Nat.le_of_not_lt hk)]
      rfl
  · rename_i j k new hgrow
    obtain ⟨rfl, ⟨⟩⟩ := Option.ite_none_right_eq_some.mp hs
    exact (h.publish hgrow).1
  · rename_i hgrow
    cases hs
    exact h.setGrow (h.grow.setGrow (by rw [hgrow]; rfl) nofun nofun) fun _ _ => trivial
  · cases hs

theorem Inv.stepParty
    {a : Act} (h : Inv bits m s) (hi : s.parties i = some p) (hs : s.stepParty i p a = some s') :
  Inv bits m s'
  := by
  have hp := h.parties hi
  unfold State.stepParty at hs
  split at hs
  · rename_i hstage
    cases hs
    exact h.load hi hstage
  · rename_i gen _ hstage
    obtain ⟨⟨hfirst, hsecond⟩, ⟨⟩⟩ := Option.ite_none_right_eq_some.mp hs
    exact h.lock hi hstage hfirst hsecond
  · rename_i gen _ hstage
    have hw : p.writer = some (gen, ⟨p.call, false, []⟩) := by rw [Party.writer, hstage]
    simp only at hs
    split at hs
    · cases hs
      exact h.release hi hw (hp.gen (by rw [hstage]; rfl)) rfl (.inl rfl)
        (by rw [hstage]; rintro _ ⟨⟩)
        (by rw [hstage]; rfl)
    · rename_i hfrozen
      cases hs
      exact h.begin hi rfl hstage (Bool.not_eq_true _ ▸ hfrozen)
  · rename_i hstage
    cases hs
    exact h.store hi hstage
  · rename_i gen ok _ hstage
    have hw : p.writer = some (gen, ⟨p.call, ok, []⟩) := by rw [Party.writer, hstage]
    cases hs
    refine h.release hi hw (hp.gen (by rw [hstage]; rfl)) rfl (.inr rfl)
      (by rw [hstage]; rintro _ ⟨⟩) ?_
    rw [hstage]
    exact (Bool.and_true ok).symm
  · rename_i hstage
    cases hs
    exact h.leave hi hstage
  · rename_i hstage
    cases hs
    exact h.leaveRefused hi hstage
  · rename_i hstage
    obtain ⟨-, ⟨⟩⟩ := Option.ite_none_right_eq_some.mp hs
    exact h.again hi hstage
  · cases hs

theorem Inv.step {a : Act} (h : Inv bits m s) (hs : s.step a = some s') : Inv bits m s' := by
  have hparty : ∀ {i : Nat}, ((s.parties i).bind fun p => s.stepParty i p a) = some s' →
      Inv bits m s' := by
    intro i hs
    obtain ⟨p, hi, hs⟩ := Option.bind_eq_some_iff.mp hs
    exact h.stepParty hi hs
  cases a with
  | call i c =>
      rw [State.step] at hs
      simp only at hs
      split at hs
      · cases hs
      · rename_i hi
        cases hs
        exact h.call hi c
  | load _ | lock _ | test _ | store _ | unlock _ | leave _ | again _ => exact hparty hs
  | enterReader =>
      cases hs
      exact h.enterReader
  | leaveReader sec =>
      obtain ⟨hin, ⟨⟩⟩ := Option.ite_none_right_eq_some.mp hs
      exact h.leaveReader hin
  | freeze | synchronize | synced | copy | publish | retire => exact h.stepGrow hs

theorem Inv.init {snap : DirSnapshot} (hwf : snap.Wf) : Inv snap.bucketBits snap.items (.init snap)
  where
  wf := fun _ => ⟨hwf.bits, hwf.table, hwf.indexBits, hwf.tag, hwf.select⟩
  bucketBits := fun _ => rfl
  held := fun _ hj => ⟨hwf.table hj, (fun hw => by cases hw), (fun hw => by cases hw)⟩
  parties := nofun
  apart := nofun
  readers := nofun
  sections := nofun
  logs := ⟨.nil, nofun, nofun⟩
  grow := ⟨fun hg => by simp [State.init, Grow.freezes, Nat.le_zero.mp hg], nofun, nofun, nofun⟩
  counted := by
    rw [counted_of_quiet (s := .init snap) (by rintro _ _ _ _ _ ⟨⟩)]
    exact .nil

/-- Only the current snapshot is written to, and not while it is copied. -/
theorem Inv.store_current
    (h : Inv bits m s) (hs : s.step (.store i) = some s') :
  (∀ j k new, s.grow ≠ .copying j k new) ∧ ∀ g, g ≠ s.cur → s'.snaps g = s.snaps g
  := by
  obtain ⟨p, hi, hs⟩ := Option.bind_eq_some_iff.mp hs
  unfold State.stepParty at hs
  split at hs
  any_goals contradiction
  rename_i gen ok st ws _ hstage _
  cases hs
  obtain ⟨rfl, hawaits⟩ := (h.parties hi).writing hstage
  refine ⟨?_, fun g hg => Function.update_of_ne hg _ _⟩
  intro j k new hgrow
  rw [hgrow] at hawaits
  exact hawaits

theorem Inv.publish_items
    (h : Inv bits m s) (hs : s.step .publish = some s') :
  s'.curSnap.items = s.curSnap.items ∧ s.counted = s.curSnap.items
  := by
  change s.stepGrow .publish = some s' at hs
  unfold State.stepGrow at hs
  split at hs
  any_goals contradiction
  rename_i j k new hgrow _
  obtain ⟨rfl, ⟨⟩⟩ := Option.ite_none_right_eq_some.mp hs
  obtain ⟨-, hitems, hcounted⟩ := h.publish hgrow
  refine ⟨?_, hcounted⟩
  rw [← hitems]
  exact congrArg DirSnapshot.items (Function.update_self _ _ _)

/-- In every run of writers and grows, the entries of the current snapshot are those that the calls
in the log make of the entries there were, and the calls that returned true are in the log, each
once.  A store is made to the current snapshot, never while it is copied; and a grow publishes a
snapshot with the entries of the old one, when no call is in between. -/
theorem writes_survive_grows
    {snap : DirSnapshot} (hwf : snap.Wf)
    (hr : Reach State.step (fun _ _ => True) (.init snap) s) :
  (Applies snap.bucketBits snap.items s.log s.counted
    ∧ ((∀ i p gen ok ws, s.parties i = some p → p.stage ≠ .writing gen ok ws) →
      s.counted = s.curSnap.items))
  ∧ ((s.log.map Prod.fst).Nodup
    ∧ ∀ x ∈ s.returned, (x.1, x.2.1) ∈ s.log ↔ x.2.2 = true)
  ∧ (∀ i s', s.step (.store i) = some s' →
    (∀ j k new, s.grow ≠ .copying j k new) ∧ ∀ g, g ≠ s.cur → s'.snaps g = s.snaps g)
  ∧ ∀ s', s.step .publish = some s' →
    s'.curSnap.items = s.curSnap.items ∧ s.counted = s.curSnap.items
  := by
  have h : Inv snap.bucketBits snap.items s :=
    hr.invariant (.init hwf) fun _ _ _ h _ hs => h.step hs
  refine ⟨⟨h.counted, ?_⟩, ⟨h.logs.nodup, fun x hx => (h.logs.returned x hx).2⟩, ?_, ?_⟩
  · intro hquiet
    exact counted_of_quiet (hquiet _ _ _ _ _)
  · intro i s' hs
    exact h.store_current hs
  · intro s' hs
    exact h.publish_items hs

end

/-- One bucket: a writer sees the snapshot not frozen and makes its store while a grow waits for it;
a second writer is refused and makes its store in the snapshot the grow has published. -/
def waitedFor : Option State :=
  run State.step (.init (.cleared 0 0)) (([.call 0 (.insert 0 1 7), .load 0, .lock 0, .test 0,
    .freeze, .synchronize, .store 0, .unlock 0, .leave 0, .call 1 (.insert 128 1 9), .load 1,
    .lock 1, .test 1, .leave 1, .synced] : List Act) ++ List.replicate 34 Act.copy
    ++ ([.publish, .again 1, .load 1, .lock 1, .test 1, .store 1, .unlock 1, .leave 1] : List Act))

theorem waitedFor_kept :
    ∃ s, waitedFor = some s ∧ s.cur = 1 ∧ (0, .insert 0 1 7) ∈ s.log ∧ (1, .insert 128 1 9) ∈ s.log
      ∧ Applies 0 (DirSnapshot.cleared 0 0).items s.log s.counted := by
  have hsome : waitedFor.isSome = true := by decide +kernel
  have hcur : waitedFor.map State.cur = some 1 := by decide +kernel
  have hreturned : waitedFor.map State.returned =
      some [(0, .insert 0 1 7, true), (1, .insert 128 1 9, true)] := by
    decide +kernel
  obtain ⟨s, hs⟩ := Option.isSome_iff_exists.mp hsome
  rw [hs, Option.map_some, Option.some.injEq] at hcur hreturned
  obtain ⟨⟨happlies, -⟩, ⟨-, hlog⟩, -⟩ := writes_survive_grows
    (.cleared (Nat.zero_le _) 0) (.of_run .refl (fun _ _ _ => trivial) hs)
  rw [hreturned] at hlog
  exact ⟨s, hs, hcur, (hlog _ (.head _)).mpr rfl, (hlog _ (.tail _ (.head _))).mpr rfl, happlies⟩

end UDepot.Directory
