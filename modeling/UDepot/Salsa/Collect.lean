import UDepot.Salsa.Safety

/-!
# A pass of the collector

The thread of the collector goes through the bins, from that of the segments with the fewest valid
grains on, and takes the first segment it finds.  Only if it finds none, one of the segments that
wait is put in a bin.

A pass takes the first segment of the lowest bin that has any, unless another call has that in hand,
and if no bin has any it puts one that waits in a bin, from which the next pass takes it
(`collect_progress`).  It looks at a segment again only while another call has that in hand
(`collect_retries`).
-/

namespace UDepot.Salsa

open Custody Transition

variable {cfg : Config} {s s' s₁ : State} {i b x n : Nat}

/-! ### Steps of one call -/

theorem goto_self {ph : Phase} (hi : s.phase i = ph) : s.goto i ph = s := by
  rw [State.goto, ← hi, Function.update_eq_self]

theorem goto_goto (s : State) (i : Nat) (ph ph' : Phase) :
    (s.goto i ph).goto i ph' = s.goto i ph' := by
  simp only [State.goto, Function.update_idem]

theorem goto_phase (s : State) (i : Nat) (ph : Phase) : (s.goto i ph).phase i = ph :=
  Function.update_self ..

theorem run_go (hgo : s.go cfg i = some s₁) (n : Nat) :
    run (State.step cfg) s (List.replicate (n + 1) (.go i))
      = run (State.step cfg) s₁ (List.replicate n (.go i)) := by
  rw [List.replicate_succ, run]
  simp only [State.step, hgo]

/-- The collector passes over bins that are empty. -/
theorem run_choose
    (hi : s.phase i = .choose b) (hempty : ∀ c, b ≤ c → c < b + n → s.queues (.bin c) = [])
    (hle : b + n ≤ cfg.binNr) (m : Nat) :
  run (State.step cfg) s (List.replicate (n + m) (.go i))
    = run (State.step cfg) (s.goto i (.choose (b + n))) (List.replicate m (.go i))
  := by
  induction n generalizing s b with
  | zero => rw [Nat.zero_add, Nat.add_zero, goto_self hi]
  | succ n ih =>
      have hgo : s.go cfg i = some (s.goto i (.choose (b + 1))) := by
        have hb := hempty b (Nat.le_refl b) (by omega)
        have hlt : b < cfg.binNr := by omega
        simp only [State.go, hi, if_pos hlt, hb]
      have hrest : ∀ c, b + 1 ≤ c → c < b + 1 + n →
          (s.goto i (.choose (b + 1))).queues (.bin c) = [] :=
        fun c hc hlt => hempty c (by omega) (by omega)
      rw [Nat.add_right_comm, run_go hgo, ih (goto_phase ..) hrest (by omega), goto_goto]
      congr 3
      omega

/-! ### A pass -/

theorem Inv.spot_of_bin
    (h : Inv cfg s) (hx : x ∈ s.queues (.bin b)) (hfree : s.holder x = none) :
  s.spot x = .on (.bin b)
  := by
  apply h.spot_of_rests hx
  intro j hspot
  rw [State.holder, hspot] at hfree
  cases hfree

/-- The first segment of a bin is taken off it, to be relocated. -/
theorem run_take
    {xs : List Nat} (h : Inv cfg s) (hi : s.phase i = .choose b) (hb : b < cfg.binNr)
    (hbin : s.queues (.bin b) = x :: xs) (hfree : s.holder x = none) (hlock : s.segLock x = none) :
  ∃ s', run (State.step cfg) s (List.replicate 3 (.go i)) = some s' ∧ s'.phase i = .reloc x
    ∧ s'.queues (.bin b) = xs
  := by
  have hspot := h.spot_of_bin (x := x) (by rw [hbin]; exact List.mem_cons_self) hfree
  obtain ⟨hgc, hpriv, -⟩ := (h.seg_spot hspot (by rintro j ⟨⟩)).state
  have hfirst : s.go cfg i = some (s.goto i (.take b x)) := by
    simp only [State.go, hi, if_pos hb, hbin]
  rw [run_go hfirst]
  generalize ht : s.goto i (.take b x) = t
  have htake :
      t.go cfg i = some (((t.setState x .invalid).setSpot x (.hand i)).goto i (.takeRm x b)) := by
    have hphase : t.phase i = .take b x := ht ▸ goto_phase ..
    have hlock' : t.segLock x = none := ht ▸ hlock
    have hgc' : (t.segs x).state = .gc := ht ▸ hgc
    have hpriv' : (t.segs x).priv = b := ht ▸ hpriv
    simp only [State.go, hphase, if_pos hlock', if_pos hgc', hpriv']
  rw [run_go htake]
  generalize hu : ((t.setState x .invalid).setSpot x (.hand i)).goto i (.takeRm x b) = u
  have hrm : u.go cfg i = some ((u.dequeue i (.bin b) x).goto i (.reloc x)) := by
    have hphase : u.phase i = .takeRm x b := hu ▸ goto_phase ..
    simp only [State.go, hphase]
  rw [run_go hrm]
  refine ⟨_, rfl, goto_phase .., ?_⟩
  have hqueues : u.queues = s.queues := by rw [← hu, ← ht]; rfl
  simp only [State.goto, State.dequeue, Custody.dequeue, Function.update_self, hqueues, hbin,
    List.erase_cons_head]

/-- The first of the segments that wait is put in a bin, where nobody has it in hand or locked. -/
theorem run_popXnp
    (cfg : Config) {y : Nat} {ys : List Nat} (hi : s.phase i = .popXnp)
    (hq : s.queues .xnp = y :: ys) (hlock : s.segLock y = none)
    (hb : (s.segs y).validNr / cfg.binDiv = b) :
  ∃ s', run (State.step cfg) s (List.replicate 4 (.go i)) = some s' ∧ s'.phase i = .idle
    ∧ s'.queues .xnp = ys ∧ s'.queues (.bin b) = s.queues (.bin b) ++ [y]
    ∧ (∀ c, c ≠ b → s'.queues (.bin c) = s.queues (.bin c)) ∧ s'.holder y = none
      ∧ s'.segLock y = none
  := by
  have hpop : s.go cfg i = some ((s.dequeue i .xnp y).goto i (.rebin y false)) := by
    simp only [State.go, hi, hq]
  rw [run_go hpop]
  generalize ht : (s.dequeue i .xnp y).goto i (.rebin y false) = t
  have hrebin : t.go cfg i = some (t.goto i (.addToBin y b)) := by
    have hphase : t.phase i = .rebin y false := ht ▸ goto_phase ..
    have hb' : (t.segs y).validNr / cfg.binDiv = b := ht ▸ hb
    simp only [State.go, hphase, Bool.false_eq_true, if_false, hb']
  rw [run_go hrebin]
  have hadd : (t.goto i (.addToBin y b)).go cfg i
      = some (((t.goto i (.addToBin y b)).addToBin y b).goto i (.activate y b)) := by
    simp only [State.go, goto_phase]
  rw [run_go hadd]
  generalize hu : ((t.goto i (.addToBin y b)).addToBin y b).goto i (.activate y b) = u
  have hlock' : u.segLock y = none := by rw [← hu, ← ht]; exact hlock
  have hactivate :
      u.go cfg i = some (((u.setState y .gc).setSpot y (.on (.bin b))).goto i .idle) := by
    have hphase : u.phase i = .activate y b := hu ▸ goto_phase ..
    simp only [State.go, hphase, if_pos hlock']
  rw [run_go hactivate]
  have hqueues : u.queues = Custody.enqueue (Custody.dequeue s.queues .xnp y) (.bin b) y := by
    rw [← hu, ← ht]
    rfl
  refine ⟨_, rfl, goto_phase .., ?_, ?_, ?_, ?_, hlock'⟩
  · change u.queues .xnp = ys
    rw [hqueues, Custody.enqueue, Function.update_of_ne (by rintro ⟨⟩), Custody.dequeue,
      Function.update_self, hq, List.erase_cons_head]
  · change u.queues (.bin b) = _
    rw [hqueues, Custody.enqueue, Function.update_self, Custody.dequeue,
      Function.update_of_ne (by rintro ⟨⟩)]
  · intro c hc
    change u.queues (.bin c) = _
    rw [hqueues, Custody.enqueue, Function.update_of_ne (by simpa using hc), Custody.dequeue,
      Function.update_of_ne (by rintro ⟨⟩)]
  · simp only [State.holder, State.goto, State.setSpot, Function.update_self, Spot.holder]

/-- The first segment of the lowest bin that has any is taken. -/
theorem Inv.run_pass
    {xs : List Nat} (h : Inv cfg s) (hi : s.phase i = .choose 0) (hres : 0 < cfg.reservedPerSeg)
    (hbin : s.queues (.bin b) = x :: xs) (hlow : ∀ c < b, s.queues (.bin c) = [])
    (hfree : s.holder x = none) (hlock : s.segLock x = none) :
  ∃ s', run (State.step cfg) s (List.replicate (b + 3) (.go i)) = some s' ∧ s'.phase i = .reloc x
    ∧ s'.queues (.bin b) = xs
  := by
  have hspot := h.spot_of_bin (x := x) (by rw [hbin]; exact List.mem_cons_self) hfree
  have hlt := (h.seg_spot hspot (by rintro j ⟨⟩)).state.2.2.2 hres
  have hstay : Stay cfg s (s.goto i (.choose b)) i (.choose 0) (.choose b) :=
    ⟨hi, rfl, rfl, rfl, rfl, rfl, rfl, rfl, .same rfl, .same rfl, .same rfl,
      .of trivial trivial rfl⟩
  rw [run_choose hi (fun c _ hc => hlow c (by omega)) (by omega), Nat.zero_add]
  exact run_take (hstay.inv h) (goto_phase ..) hlt hbin hfree hlock

/-- If there is nothing in the bins, the first of the segments that wait is put in one of them. -/
theorem Inv.run_emptyPass
    {y : Nat} {ys : List Nat} (h : Inv cfg s) (hi : s.phase i = .choose 0)
    (hres : 0 < cfg.reservedPerSeg) (hempty : ∀ b < cfg.binNr, s.queues (.bin b) = [])
    (hq : s.queues .xnp = y :: ys) (hlock : s.segLock y = none) :
  ∃ b < cfg.binNr, ∃ s', run (State.step cfg) s (List.replicate (cfg.binNr + 5) (.go i)) = some s'
    ∧ s'.phase i = .idle ∧ s'.queues .xnp = ys ∧ s'.queues (.bin b) = [y]
    ∧ (∀ c < b, s'.queues (.bin c) = []) ∧ s'.holder y = none ∧ s'.segLock y = none
  := by
  have hspot := h.spot_of_head hq (by rintro b ⟨⟩)
  have hseg := h.seg_spot hspot (by rintro j ⟨⟩)
  have hbin := (cfg.isBin_div (hseg.validNr_le hseg.counts.2.2)).2 hres
  refine ⟨_, hbin, ?_⟩
  rw [run_choose hi (fun c _ hc => hempty c (by omega)) (by omega), Nat.zero_add]
  have hend : (s.goto i (.choose cfg.binNr)).go cfg i = some (s.goto i .popXnp) := by
    simp only [State.go, goto_phase, Nat.lt_irrefl, if_false, goto_goto]
  rw [run_go hend]
  obtain ⟨s', hrun, hidle, hxnp, hmem, hother, hfree, hlock'⟩ :=
    run_popXnp cfg (s := s.goto i .popXnp) (goto_phase ..) hq hlock rfl
  refine ⟨s', hrun, hidle, hxnp, hmem.trans (congrArg (· ++ [y]) (hempty _ hbin)), ?_, hfree,
    hlock'⟩
  intro c hc
  exact (hother c (Nat.ne_of_lt hc)).trans (hempty c (Nat.lt_trans hc hbin))

/-- A call that goes on asks nothing of the frontend. -/
theorem Reachable.run_go
    (h : Reachable cfg s) (hrun : run (State.step cfg) s (List.replicate n (.go i)) = some s') :
  Reachable cfg s'
  := by
  refine Reach.of_run h ?_ hrun
  intro act hact t
  rw [List.eq_of_mem_replicate hact]
  trivial

/-- A pass by itself takes the first segment of the lowest bin that has any, if nobody has it in
hand or locked.  If the bins are empty it puts the first of the segments that wait in a bin, if
nobody has it locked, and the next pass takes that. -/
theorem collect_progress
    (h : Reachable cfg s) (hi : s.phase i = .choose 0) (hres : 0 < cfg.reservedPerSeg) :
  (∀ b x xs, s.queues (.bin b) = x :: xs → (∀ c < b, s.queues (.bin c) = []) →
      s.holder x = none → s.segLock x = none →
      ∃ s', run (State.step cfg) s (List.replicate (b + 3) (.go i)) = some s'
        ∧ s'.phase i = .reloc x
        ∧ s'.queues (.bin b) = xs)
    ∧ ∀ y ys, (∀ b < cfg.binNr, s.queues (.bin b) = []) → s.queues .xnp = y :: ys →
      s.segLock y = none →
      ∃ b < cfg.binNr, ∃ s', run (State.step cfg) s (List.replicate (cfg.binNr + 5) (.go i))
        = some s'
        ∧ s'.phase i = .idle ∧ s'.queues .xnp = ys ∧ s'.queues (.bin b) = [y]
        ∧ ∃ s'', run (State.step cfg) s' (.collect i :: List.replicate (b + 3) (.go i)) = some s''
          ∧ s''.phase i = .reloc y ∧ s''.queues (.bin b) = []
  := by
  constructor
  · intro b x xs hbin hlow hfree hlock
    exact h.inv.run_pass hi hres hbin hlow hfree hlock
  · intro y ys hempty hq hlock
    obtain ⟨b, hb, s', hrun, hidle, hxnp, hmem, hlow, hfree, hlock'⟩ :=
      h.inv.run_emptyPass hi hres hempty hq hlock
    have hinv' : Inv cfg s' := (h.run_go hrun).inv
    refine ⟨b, hb, s', hrun, hidle, hxnp, hmem, ?_⟩
    have hsound : Sound cfg s' (.collect i) := trivial
    have hcollect : s'.step cfg (.collect i) = some (s'.goto i (.choose 0)) := by
      simp only [State.step, if_pos hidle]
    rw [run, hcollect]
    exact (hinv'.step hsound hcollect).run_pass (goto_phase ..) hres hmem hlow hfree hlock'

/-- All grains of a segment are handed out and released, so that it waits, and a pass begins. -/
def waitingActs : List Act :=
  [.go 0, .go 0, .allocate 0 0 4, .go 0, .go 0, .release 0 0 1 0, .release 0 0 1 1, .go 0,
    .popDone 0 0, .go 0, .go 0, .collect 0]

def waitingRun : State :=
  (guarded (State.step fourSegments) (Sound fourSegments) stagedRun waitingActs).getD stagedRun

theorem waitingRun_reachable : Reachable fourSegments waitingRun := by
  have hsome :
      (guarded (State.step fourSegments) (Sound fourSegments) stagedRun waitingActs).isSome := by
    decide +kernel
  obtain ⟨s, hs⟩ := Option.isSome_iff_exists.mp hsome
  rw [waitingRun, hs]
  exact Reach.trans stagedRun_reachable (Reach.of_guarded hs)

theorem waitingRun_progress :
    ∃ b < 4, ∃ s', run (State.step fourSegments) waitingRun (List.replicate 9 (.go 0)) = some s'
      ∧ s'.phase 0 = .idle ∧ s'.queues .xnp = [] ∧ s'.queues (.bin b) = [1]
      ∧ ∃ s'', run (State.step fourSegments) s' (.collect 0 :: List.replicate (b + 3) (.go 0))
        = some s''
        ∧ s''.phase 0 = .reloc 1 ∧ s''.queues (.bin b) = [] := by
  have hchoose : waitingRun.phase 0 = .choose 0 := by decide +kernel
  have hempty : ∀ b < fourSegments.binNr, waitingRun.queues (.bin b) = [] := by decide +kernel
  have hxnp : waitingRun.queues .xnp = [1] := by decide +kernel
  have hlock : waitingRun.segLock 1 = none := by decide +kernel
  exact (collect_progress waitingRun_reachable hchoose Nat.one_pos).2 1 [] hempty hxnp hlock

/-- The collector looks at the first segment of a bin again only while another call has it in
hand. -/
theorem collect_retries
    {xs : List Nat} (h : Reachable cfg s) (hi : s.phase i = .take b x)
    (hbin : s.queues (.bin b) = x :: xs) (hstate : (s.segs x).state ≠ .gc) :
  ∃ j, j ≠ i ∧ (s.phase j).hand = some x
  := by
  have hinv := h.inv
  cases hholder : s.holder x with
  | none =>
      have hspot := hinv.spot_of_bin (x := x) (by rw [hbin]; exact List.mem_cons_self) hholder
      exact absurd (hinv.seg_spot hspot (by rintro j ⟨⟩)).state.1 hstate
  | some j =>
      have hhand : (s.phase j).hand = some x := (hinv.hands x j).mp hholder
      refine ⟨j, ?_, hhand⟩
      rintro rfl
      rw [hi] at hhand
      cases hhand

end UDepot.Salsa
