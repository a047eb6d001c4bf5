import UDepot.Salsa.Safety
import Mathlib.Logic.Relation

/-!
# What salsa is for

A frontend sees segments and ranges of grains by their address.  What it is to expect is said here
without queues, bins, counters or locks: a free segment is taken for an allocator and staged, grains
are handed out of it one after the other, it is closed, and it is free again after it was relocated
or given back, when none of its grains is in use (`View.Moves`).

Whatever the allocators and the collector do is seen as such moves (`run_moves`).
-/

namespace UDepot.Salsa

open Custody Transition Relation

/-- The segments and the ranges, as a frontend sees them. -/
structure View where
  seg : Nat → Seen
  range : Nat → Option Grains

namespace View

variable (cfg : Config)

/-- The segment of an address. -/
def segOf (pba : Nat) : Nat := pba / cfg.segSize

/-- All ranges of a segment satisfy a condition. -/
def All (v : View) (x : Nat) (p : Grains → Bool) : Prop :=
  ∀ pba r, segOf cfg pba = x → v.range pba = some r → p r = true

def setSeg (v : View) (x : Nat) (t : Seen) : View := { v with seg := Function.update v.seg x t }

def setRange (v : View) (pba : Nat) (r : Grains) : View :=
  { v with range := Function.update v.range pba (some r) }

/-- The ranges of a segment are forgotten. -/
def forget (v : View) (x : Nat) : View :=
  { v with range := fun pba => if segOf cfg pba = x then none else v.range pba }

/-- What a frontend is to expect. -/
inductive Moves : View → View → Prop
  | take {v : View} {x a : Nat} (h : v.seg x = .free) (hx : x < cfg.segNr) (ha : a < cfg.streamNr) :
      Moves v (v.setSeg x (.stamping a))
  | stage {v : View} {x a : Nat} (h : v.seg x = .stamping a) :
      Moves v (v.setSeg x (.opened a (cfg.segToGrain x)))
  | allocate {v : View} {x a pos len : Nat} (h : v.seg x = .opened a pos) (hlen : 0 < len)
      (hroom : pos + len + cfg.reservedPerSeg ≤ cfg.segToGrain x + cfg.segSize) :
      Moves v ((v.setSeg x (.opened a (pos + len))).setRange pos ⟨pos, len, false, true⟩)
  | close {v : View} {x a pos : Nat} (h : v.seg x = .opened a pos) : Moves v (v.setSeg x .closed)
  | release {v : View} {pba : Nat} {r : Grains} (h : v.range pba = some r)
      (hr : r.released = false) :
      Moves v (v.setRange pba { r with released := true })
  | invalidate {v : View} {pba : Nat} {r : Grains} (h : v.range pba = some r)
      (hr : r.valid = true) :
      Moves v (v.setRange pba { r with valid := false })
  | pick {v : View} {x : Nat} (h : v.seg x = .closed) (hall : v.All cfg x (·.released)) :
      Moves v (v.setSeg x .victim)
  | putBack {v : View} {x : Nat} (h : v.seg x = .victim) : Moves v (v.setSeg x .closed)
  | defer {v : View} {x : Nat} (h : v.seg x = .closed)
      (hall : v.All cfg x fun r => r.released && !r.valid) : Moves v (v.setSeg x .deferred)
  | free {v : View} {x : Nat} (h : v.seg x = .victim ∨ v.seg x = .deferred)
      (hall : v.All cfg x fun r => r.released && !r.valid) :
      Moves v ((v.setSeg x .free).forget cfg x)

/-- A view with one segment and its ranges replaced. -/
def put (v : View) (x : Nat) (t : Seen) (rs : List Grains) : View where
  seg := Function.update v.seg x t
  range := fun pba =>
    if segOf cfg pba = x then if t = .free then none else rs.find? (·.start == pba) else v.range pba

end View

/-- How a frontend sees a state. -/
def State.view (cfg : Config) (s : State) : View where
  seg := s.seen cfg
  range := fun pba =>
    if s.seen cfg (View.segOf cfg pba) = .free then none
    else (s.grains (View.segOf cfg pba)).find? (·.start == pba)

variable {cfg : Config} {s s' : State} {v : View} {i x k start : Nat} {rs rs' : List Grains}
  {r : Grains}
  {t t' : Seen}

/-! ### Ranges by their address -/

theorem find?_of_contig
    (h : Contig start rs) (hk : rs[k]? = some r) : rs.find? (·.start == r.start) = some r := by
  induction rs generalizing start k with
  | nil => cases hk
  | cons r' rs ih =>
      obtain ⟨hstart, hpos, hrest⟩ := h
      cases k with
      | zero =>
          cases hk
          simp
      | succ k =>
          have hlt := (hrest.start_getElem hk).1
          rw [List.find?_cons_of_neg, ih hrest hk]
          rw [beq_iff_eq]
          omega

theorem find?_eq_none_of_contig
    {pba : Nat} (h : Contig start rs) (hle : start + total rs ≤ pba) :
  rs.find? (·.start == pba) = none
  := by
  rw [List.find?_eq_none]
  intro r hr
  obtain ⟨k, hk⟩ := List.getElem?_of_mem hr
  obtain ⟨hstart, hpos, hend⟩ := h.start_getElem hk
  rw [beq_iff_eq]
  omega

/-- A change of the range with a number is one of the range with its address. -/
theorem find?_modify
    {f : Grains → Grains} {pba : Nat} (h : Contig start rs) (hk : rs[k]? = some r)
    (hf : ∀ r, (f r).start = r.start) :
  (rs.modify k f).find? (·.start == pba)
    = if pba = r.start then some (f r) else rs.find? (·.start == pba)
  := by
  induction rs generalizing start k with
  | nil => cases hk
  | cons r' rs ih =>
      obtain ⟨hstart, hpos, hrest⟩ := h
      cases k with
      | zero =>
          cases hk
          rw [List.modify_zero_cons, List.find?_cons, List.find?_cons, hf]
          by_cases hp : pba = r.start
          · subst hp
            simp
          · have hbeq : (r.start == pba) = false := by simpa using Ne.symm hp
            simp [hp, hbeq]
      | succ k =>
          rw [List.modify_succ_cons, List.find?_cons, List.find?_cons, ih hrest hk]
          have hlt := (hrest.start_getElem hk).1
          by_cases hp : r'.start = pba
          · have hne : ¬ pba = r.start := by omega
            simp [hp, hne]
          · have hbeq : (r'.start == pba) = false := by simpa using hp
            simp [hbeq]

/-- Ranges that all fail a condition. -/
theorem eq_false_of_count
    {p : Grains → Bool} (h : Contig start rs) (hcount : count p rs = 0) (hr : r ∈ rs) :
  p r = false := by
  obtain ⟨k, hk⟩ := List.getElem?_of_mem hr
  cases hp : p r with
  | false => rfl
  | true =>
      have hle := len_le_count hk hp
      have hpos := (h.start_getElem hk).2.1
      omega

/-- A segment's grains are at its addresses. -/
theorem segOf_eq
    {pba : Nat} (hle : cfg.segToGrain x ≤ pba) (hlt : pba < cfg.segToGrain x + cfg.segSize) :
  View.segOf cfg pba = x
  := by
  rw [Config.segToGrain] at hle hlt
  apply Nat.div_eq_of_lt_le hle
  rw [Nat.succ_mul]
  exact hlt

/-! ### Turns are moves -/

namespace View

theorem put_seg : (v.put cfg x t rs).seg x = t := Function.update_self ..

theorem put_range
    {pba : Nat} (hx : segOf cfg pba = x) (ht : t ≠ .free) :
  (v.put cfg x t rs).range pba = rs.find? (·.start == pba)
  := by
  simp only [put, if_pos hx, if_neg ht]

theorem put_all {p : Grains → Bool} (hp : ∀ r ∈ rs, p r = true) :
    (v.put cfg x t rs).All cfg x p := by
  intro pba r hx hr
  by_cases ht : t = .free
  · simp only [put, if_pos hx, if_pos ht] at hr
    cases hr
  · rw [put_range hx ht] at hr
    exact hp r (List.mem_of_find?_eq_some hr)

/-- Replacing what is seen of a segment, with the same ranges. -/
theorem put_setSeg (ht : t ≠ .free) (ht' : t' ≠ .free) :
    (v.put cfg x t rs).setSeg x t' = v.put cfg x t' rs := by
  simp only [put, setSeg, Function.update_idem, if_neg ht, if_neg ht']

/-- Replacing one range of a segment. -/
theorem put_setRange
    {pba : Nat} (hx : segOf cfg pba = x) (ht : t ≠ .free)
    (hrs : ∀ q, rs'.find? (·.start == q) = if q = pba then some r else rs.find? (·.start == q)) :
  (v.put cfg x t rs).setRange pba r = v.put cfg x t rs'
  := by
  simp only [put, setRange, if_neg ht, View.mk.injEq, true_and]
  funext q
  by_cases hq : q = pba
  · subst hq
    rw [Function.update_self, if_pos hx, hrs, if_pos rfl]
  · rw [Function.update_of_ne hq, hrs, if_neg hq]

/-- Forgetting the ranges of a segment that is freed. -/
theorem put_forget :
    ((v.put cfg x t rs).setSeg x .free).forget cfg x = v.put cfg x .free rs' := by
  simp only [put, setSeg, forget, Function.update_idem, if_true, View.mk.injEq, true_and]
  funext q
  by_cases hq : segOf cfg q = x
  · simp only [if_pos hq]
  · simp only [if_neg hq]

/-- A move that changes only what is seen of a segment. -/
theorem Moves.of_setSeg
    (hm : Moves cfg (v.put cfg x t rs) ((v.put cfg x t rs).setSeg x t')) (ht : t ≠ .free)
    (ht' : t' ≠ .free) :
  Moves cfg (v.put cfg x t rs) (v.put cfg x t' rs)
  := by
  rwa [put_setSeg ht ht'] at hm

/-- A move that changes a range of a segment. -/
theorem Moves.of_modify
    {f : Grains → Grains}
    (hm : Moves cfg (v.put cfg x t rs) ((v.put cfg x t rs).setRange r.start (f r))) (ht : t ≠ .free)
    (hrs : Contig start rs) (hk : rs[k]? = some r) (hx : segOf cfg r.start = x)
    (hf : ∀ r, (f r).start = r.start) :
  Moves cfg (v.put cfg x t rs) (v.put cfg x t (rs.modify k f))
  := by
  rwa [put_setRange hx ht fun q => find?_modify hrs hk hf] at hm

/-- Handing out grains behind all others. -/
theorem put_allocate
    {a pos len : Nat} (hrs' : Contig (cfg.segToGrain x) (rs ++ [⟨pos, len, false, true⟩]))
    (hlen : 0 < len) (hroom : pos + len + cfg.reservedPerSeg ≤ cfg.segToGrain x + cfg.segSize) :
  Moves cfg (v.put cfg x (.opened a pos) rs)
    (v.put cfg x (.opened a (pos + len)) (rs ++ [⟨pos, len, false, true⟩]))
  := by
  obtain ⟨hrs, hstart, -⟩ := contig_append.mp hrs'
  have hpos : pos = cfg.segToGrain x + total rs := hstart
  have hfind : ∀ q, (rs ++ [(⟨pos, len, false, true⟩ : Grains)]).find? (·.start == q)
      = if q = pos then some ⟨pos, len, false, true⟩ else rs.find? (·.start == q) := by
    intro q
    rw [List.find?_append]
    by_cases hq : q = pos
    · subst hq
      rw [find?_eq_none_of_contig hrs (Nat.le_of_eq hpos.symm), if_pos rfl]
      simp
    · have hbeq : (pos == q) = false := by simpa using Ne.symm hq
      simp [hq, hbeq]
  have hmove : Moves cfg (v.put cfg x (.opened a pos) rs) _ := .allocate put_seg hlen hroom
  rwa [put_setSeg (by rintro ⟨⟩) (by rintro ⟨⟩),
    put_setRange (segOf_eq (by omega) (by omega)) (by rintro ⟨⟩) hfind] at hmove

end View

open View in
/-- A turn of a segment is seen as a move, or two, or none. -/
theorem Turns.moves
    (ht : Turns cfg x t rs t' rs') (hrs : Contig (cfg.segToGrain x) rs)
    (hrs' : Contig (cfg.segToGrain x) rs') (hfits : cfg.reservedPerSeg + total rs ≤ cfg.segSize)
    (hx : t ≠ t' → x < cfg.segNr) (v : View) :
  ReflTransGen (Moves cfg) (v.put cfg x t rs) (v.put cfg x t' rs')
  := by
  have hunused : Unused rs → ∀ r ∈ rs, (r.released && !r.valid) = true := by
    rintro ⟨hheld, hlive⟩ r hr
    have hrel := eq_false_of_count hrs hheld hr
    have hvalid := eq_false_of_count hrs hlive hr
    simp only [Bool.not_eq_eq_eq_not, Bool.not_false] at hrel
    rw [hrel, hvalid]
    rfl
  have hin : ∀ {k : Nat} {r : Grains}, rs[k]? = some r → segOf cfg r.start = x := by
    intro k r hk
    obtain ⟨hstart, hpos, hle⟩ := hrs.start_getElem hk
    exact segOf_eq (by omega) (by omega)
  cases ht with
  | same => exact .refl
  | @take a _ ha h =>
      have hmove :
          Moves cfg (v.put cfg x .free rs) ((v.put cfg x .free rs).setSeg x (.stamping a)) :=
        .take put_seg (hx (by rintro ⟨⟩)) ha
      have heq : (v.put cfg x .free rs).setSeg x (.stamping a) = v.put cfg x (.stamping a) [] := by
        simp only [put, setSeg, Function.update_idem, if_true, reduceCtorEq, if_false,
          List.find?_nil]
      exact .single (heq ▸ hmove)
  | stage => exact .single (.of_setSeg (.stage put_seg) (by rintro ⟨⟩) (by rintro ⟨⟩))
  | handOut hlen hroom => exact .single (put_allocate hrs' hlen hroom)
  | fill hlen hroom =>
      exact .tail (.single (put_allocate hrs' hlen hroom))
        (.of_setSeg (.close put_seg) (by rintro ⟨⟩) (by rintro ⟨⟩))
  | close => exact .single (.of_setSeg (.close put_seg) (by rintro ⟨⟩) (by rintro ⟨⟩))
  | @release _ _ k r hv hk hr =>
      have hrange : (v.put cfg x t rs).range r.start = some r :=
        (put_range (hin hk) hv).trans (find?_of_contig hrs hk)
      exact .single (.of_modify (.release hrange hr) hv hrs hk (hin hk) fun _ => rfl)
  | @invalidate _ _ k r hv hk hr =>
      have hrange : (v.put cfg x t rs).range r.start = some r :=
        (put_range (hin hk) hv).trans (find?_of_contig hrs hk)
      exact .single (.of_modify (.invalidate hrange hr) hv hrs hk (hin hk) fun _ => rfl)
  | pick hheld =>
      have hall : ∀ r ∈ rs, r.released = true := by
        intro r hr
        simpa using eq_false_of_count hrs hheld hr
      exact .single (.of_setSeg (.pick put_seg (put_all hall)) (by rintro ⟨⟩) (by rintro ⟨⟩))
  | putBack => exact .single (.of_setSeg (.putBack put_seg) (by rintro ⟨⟩) (by rintro ⟨⟩))
  | defer h =>
      exact .single (.of_setSeg (.defer put_seg (put_all (hunused h))) (by rintro ⟨⟩)
        (by rintro ⟨⟩))
  | free hv h =>
      have hfree : ∀ {w : Seen}, w = .victim ∨ w = .deferred →
          Moves cfg (v.put cfg x w rs) (v.put cfg x .free rs) := by
        intro w hw
        have hmove : Moves cfg (v.put cfg x w rs) _ :=
          .free (by rw [put_seg]; exact hw) (put_all (hunused h))
        rwa [put_forget] at hmove
      obtain rfl | hv := hv
      · have hdefer : Moves cfg (v.put cfg x .closed rs) (v.put cfg x .deferred rs) :=
          .of_setSeg (.defer put_seg (put_all (hunused h))) (by rintro ⟨⟩) (by rintro ⟨⟩)
        exact .tail (.single hdefer) (hfree (.inr rfl))
      · exact .single (hfree hv)

/-! ### Steps are moves -/

/-- A state is seen the same if one segment is replaced by itself. -/
theorem view_put (s : State) (x : Nat) :
    (s.view cfg).put cfg x (s.seen cfg x) (s.grains x) = s.view cfg := by
  simp only [View.put, State.view, Function.update_eq_self, View.mk.injEq, true_and]
  funext pba
  by_cases hx : View.segOf cfg pba = x
  · rw [if_pos hx, hx]
  · rw [if_neg hx]

/-- A step that leaves all but one segment as they are. -/
theorem view_eq_put
    (hseen : ∀ y, y ≠ x → s'.seen cfg y = s.seen cfg y)
    (hgrains : ∀ y, y ≠ x → s'.grains y = s.grains y) :
  s'.view cfg = (s.view cfg).put cfg x (s'.seen cfg x) (s'.grains x)
  := by
  simp only [View.put, State.view, View.mk.injEq]
  constructor
  · funext y
    by_cases hy : y = x
    · subst hy
      rw [Function.update_self]
    · rw [Function.update_of_ne hy, hseen y hy]
  · funext pba
    by_cases hx : View.segOf cfg pba = x
    · rw [if_pos hx, hx]
    · rw [if_neg hx, hseen _ hx, hgrains _ hx]

theorem Spot.seen_congr {sp : Spot} (h : total rs = total rs') :
    sp.seen cfg x rs = sp.seen cfg x rs' := by
  cases sp with
  | on q =>
      cases q with
      | stage a => rw [Spot.seen, Spot.seen, h]
      | _ => rfl
  | _ => rfl

theorem Grip.seen_eq
    {sp : Spot} {ph : Phase} (h : Grip i x sp ph) (hi : s.phase i = ph) (hx : s.spot x = sp) :
  s.seen cfg x = seenAt cfg x (s.grains x) sp ph
  := by
  rw [State.seen, hx]
  cases h with
  | hand _ =>
      rw [← hi]
      rfl
  | spot hnot _ =>
      cases sp with
      | hand j => exact hnot.elim
      | _ => rfl

section

variable {ph₀ ph : Phase} {sp₀ sp : Spot}

theorem Move.moves
    (h : Inv cfg s) (m : Move cfg s s' i x ph₀ ph sp₀ sp) :
  ReflTransGen (View.Moves cfg) (s.view cfg) (s'.view cfg)
  := by
  have hseen : ∀ y, y ≠ x → s'.seen cfg y = s.seen cfg y := by
    intro y hy
    rw [State.seen, State.seen, m.spot, Function.update_of_ne hy]
    split
    · rename_i j hj
      rw [m.phase, Function.update_of_ne]
      rintro rfl
      exact m.spot_ne h hy hj
    · rw [(m.rest y hy).2]
  have hseen₀ : s.seen cfg x = _ := m.grip₀.seen_eq m.phase₀ m.spot₀
  have hseen₁ : s'.seen cfg x = _ :=
    m.grip.seen_eq (by rw [m.phase, Function.update_self]) (by rw [m.spot, Function.update_self])
  have hx : x < cfg.segNr := h.lt_segNr (m.spot₀ ▸ m.grip₀.ne_absent)
  have hturns := m.turns
  rw [← hseen₀, ← hseen₁] at hturns
  have hmoves :=
    hturns.moves (h.seg x).contig m.seg.contig (h.seg x).fits (fun _ => hx) (s.view cfg)
  rwa [view_put, ← view_eq_put hseen fun y hy => (m.rest y hy).2] at hmoves

theorem Stay.view_eq (h : Inv cfg s) (m : Stay cfg s s' i ph₀ ph) : s'.view cfg = s.view cfg := by
  have hseen : s'.seen cfg = s.seen cfg := by
    funext y
    rw [State.seen, State.seen, m.spot, m.grains]
    split
    · rename_i j hj
      rw [m.phase, Function.update_of_ne]
      rintro rfl
      have hhand := h.hand_of_spot hj
      rw [m.phase₀, m.hand₀] at hhand
      cases hhand
    · rfl
  rw [State.view, State.view, hseen, m.grains]

theorem Recount.moves
    {g : Segment} (h : Inv cfg s) (m : Recount cfg s s' x g rs) :
  ReflTransGen (View.Moves cfg) (s.view cfg) (s'.view cfg)
  := by
  have hgrains : ∀ y, y ≠ x → s'.grains y = s.grains y := by
    intro y hy
    rw [m.eq]
    exact Function.update_of_ne hy _ _
  have hgrainsx : s'.grains x = rs := by
    rw [m.eq]
    exact Function.update_self ..
  have hseen : ∀ y, s'.seen cfg y = s.seen cfg y := by
    intro y
    have htotal : total (s'.grains y) = total (s.grains y) := by
      by_cases hy : y = x
      · subst hy
        rw [hgrainsx, m.total_eq]
      · rw [hgrains y hy]
    have hspot : s'.spot = s.spot := by rw [m.eq]
    have hphase : s'.phase = s.phase := by rw [m.eq]
    rw [State.seen, State.seen, hspot, hphase]
    split
    · rfl
    · exact Spot.seen_congr htotal
  have hmoves :=
    m.turns.moves (h.seg x).contig m.seg.contig (h.seg x).fits (fun hne => absurd rfl hne)
    (s.view cfg)
  rwa [view_put, ← hseen x, ← hgrainsx, ← view_eq_put (fun y _ => hseen y) hgrains] at hmoves

/-- What a step does is seen as moves, or not at all. -/
theorem Does.moves
    (h : Inv cfg s) (hd : Does cfg s s') :
  ReflTransGen (View.Moves cfg) (s.view cfg) (s'.view cfg) := by
  induction hd with
  | move m => exact m.moves h
  | stay m =>
      rw [m.view_eq h]
  | recount m => exact m.moves h
  | trans hd _ ih ih' => exact (ih h).trans (ih' (hd.inv h))

end

/-! ### Runs -/

/-- A view of segments that are all free. -/
def View.init : View := ⟨fun _ => .free, fun _ => none⟩

theorem view_init (cfg : Config) : (State.init cfg).view cfg = View.init := by
  have hseen : (State.init cfg).seen cfg = fun _ => .free := by
    funext x
    simp only [State.seen, State.init]
    by_cases hx : x < cfg.segNr
    · by_cases hrel : x < kMinRelSegments
      · simp only [if_pos hx, if_pos hrel, Spot.seen]
      · simp only [if_pos hx, if_neg hrel, Spot.seen]
    · simp only [if_neg hx, Spot.seen]
  rw [State.view, hseen]
  rfl

/-- Steps that a frontend may take, from a state in which the segments are in order. -/
theorem Inv.moves
    (h : Inv cfg s) (hrun : Reach (State.step cfg) (Sound cfg) s s') :
  ReflTransGen (View.Moves cfg) (s.view cfg) (s'.view cfg)
  := by
  have hrun' : Inv cfg s' ∧ ReflTransGen (View.Moves cfg) (s.view cfg) (s'.view cfg) := by
    refine hrun.invariant (I := fun s' => Inv cfg s' ∧
      ReflTransGen (View.Moves cfg) (s.view cfg) (s'.view cfg)) ⟨h, .refl⟩ ?_
    rintro t act t' ⟨hinv, hmoves⟩ hsound hs
    exact ⟨hinv.step hsound hs, hmoves.trans ((hinv.does hsound hs).moves hinv)⟩
  exact hrun'.2

/-- Every run of the allocators and the collector, with a sound frontend, is seen as moves. -/
theorem run_moves
    (h : Reachable cfg s) (hrun : Reach (State.step cfg) (Sound cfg) s s') :
  ReflTransGen (View.Moves cfg) (s.view cfg) (s'.view cfg)
  :=
  h.inv.moves hrun

theorem stagedRun_moves :
    ReflTransGen (View.Moves fourSegments) .init (stagedRun.view fourSegments) := by
  rw [← view_init fourSegments]
  exact run_moves .refl stagedRun_reachable

end UDepot.Salsa
