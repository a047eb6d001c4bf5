import Mathlib.Algebra.BigOperators.Group.Finset.Basic
import Mathlib.Algebra.Order.BigOperators.Group.Finset
import Mathlib.Data.Multiset.Filter
import Mathlib.Order.Defs.Unbundled

/-!
# The newest elements of a collection

Elements of a type `α` have keys, and `newer` is a strict order on them.  The newest elements
of a multiset are those with no newer element of the same key in it.  If elements with a common
key are comparable, there is one newest element for each key that occurs.

The lemmas say how the newest elements change when one element is added, which is what a fold
over the elements in any order maintains.
-/

namespace Newest

variable {α κ : Type} [DecidableEq κ] (key : α → κ) (newer : α → α → Prop)

/-- Distinct elements with a common key are comparable. -/
def Comparable (M : Multiset α) : Prop :=
  ∀ a ∈ M, ∀ b ∈ M, key a = key b → a = b ∨ newer a b ∨ newer b a

variable [DecidableRel newer]

/-- The elements of `M` with no newer element of the same key in `M`. -/
def newest (M : Multiset α) : Multiset α :=
  M.filter fun a => ∀ b ∈ M, key b = key a → ¬ newer b a

variable {key newer}

theorem mem_newest {M : Multiset α} {a : α} :
    a ∈ newest key newer M ↔ a ∈ M ∧ ∀ b ∈ M, key b = key a → ¬ newer b a :=
  Multiset.mem_filter

/-- A newest element is the only one with its key. -/
theorem eq_of_mem_newest
    {M : Multiset α} (hcomp : Comparable key newer M) {a b : α} (ha : a ∈ newest key newer M)
    (hb : b ∈ newest key newer M) (hkey : key a = key b) :
  a = b
  := by
  obtain ⟨haM, ha⟩ := mem_newest.mp ha
  obtain ⟨hbM, hb⟩ := mem_newest.mp hb
  obtain h | h | h := hcomp a haM b hbM hkey
  · apply h
  · exact absurd h (hb a haM hkey)
  · exact absurd h (ha b hbM hkey.symm)

/-- The newest elements without the one with the key of `m`. -/
theorem newest_split
    {M : Multiset α} (hnodup : M.Nodup) (hcomp : Comparable key newer M) {m : α}
    (hm : m ∈ newest key newer M) :
  newest key newer M = m ::ₘ (newest key newer M).filter (key · ≠ key m)
  := by
  have hsame : (newest key newer M).filter (fun a => ¬ key a ≠ key m) = {m} := by
    apply (Multiset.Nodup.ext ((hnodup.filter _).filter _) (Multiset.nodup_singleton m)).mpr
    intro a
    rw [Multiset.mem_filter, not_not, Multiset.mem_singleton]
    constructor
    · rintro ⟨ha, hkey⟩
      apply eq_of_mem_newest hcomp ha hm hkey
    · rintro rfl
      exact ⟨hm, rfl⟩
  rw [← Multiset.filter_add_not (key · ≠ key m) (newest key newer M), hsame,
    Multiset.filter_add, Multiset.filter_filter, add_comm, Multiset.singleton_add]
  simp

/-- An element newer than every other with its key takes the place of the newest of these. -/
theorem newest_cons_newer
    [Std.Irrefl newer] [Std.Asymm newer] {M : Multiset α} {a : α}
    (ha : ∀ b ∈ M, key b = key a → newer a b) :
  newest key newer (a ::ₘ M) = a ::ₘ (newest key newer M).filter (key · ≠ key a)
  := by
  rw [newest, Multiset.filter_cons_of_pos]
  · congr 1
    rw [newest, Multiset.filter_filter]
    apply Multiset.filter_congr
    intro b hb
    simp only [Multiset.forall_mem_cons]
    constructor
    · rintro ⟨hab, hrest⟩
      refine ⟨?_, hrest⟩
      intro hkey
      apply hab hkey.symm (ha b hb hkey)
    · rintro ⟨hkey, hrest⟩
      refine ⟨?_, hrest⟩
      intro h
      exact absurd h.symm hkey
  · intro b hb hkey
    obtain rfl | hb := Multiset.mem_cons.mp hb
    · apply irrefl_of newer b
    · apply asymm_of newer (ha b hb hkey)

/-- The first element with its key is a newest one. -/
theorem newest_cons_new
    [Std.Irrefl newer] [Std.Asymm newer] {M : Multiset α} {a : α} (ha : ∀ b ∈ M, key b ≠ key a) :
  newest key newer (a ::ₘ M) = a ::ₘ newest key newer M
  := by
  rw [newest_cons_newer fun b hb hkey => absurd hkey (ha b hb), Multiset.filter_eq_self.mpr]
  intro b hb
  apply ha b (mem_newest.mp hb).1

/-- An element older than the newest with its key makes no difference. -/
theorem newest_cons_older
    [IsTrans α newer] {M : Multiset α} (hcomp : Comparable key newer M) {a m : α}
    (hm : m ∈ newest key newer M) (hkey : key m = key a) (hma : newer m a) (ham : ¬ newer a m) :
  newest key newer (a ::ₘ M) = newest key newer M
  := by
  obtain ⟨hmM, -⟩ := mem_newest.mp hm
  rw [newest, Multiset.filter_cons_of_neg]
  · apply Multiset.filter_congr
    intro b hb
    simp only [Multiset.forall_mem_cons, and_iff_right_iff_imp]
    intro hrest hab hnew
    have hbm : b = m := eq_of_mem_newest hcomp (mem_newest.mpr ⟨hb, hrest⟩) hm
      (hab.symm.trans hkey.symm)
    rw [hbm] at hnew
    apply ham hnew
  · intro h
    apply h m (Multiset.mem_cons_of_mem hmM) hkey hma

/-- A newest element is newer than every other one with its key. -/
theorem newer_of_mem_newest
    {M : Multiset α} (hcomp : Comparable key newer M) {m b : α} (hm : m ∈ newest key newer M)
    (hb : b ∈ M) (hkey : key b = key m) (hne : b ≠ m) :
  newer m b
  := by
  obtain ⟨hmM, hm⟩ := mem_newest.mp hm
  obtain h | h | h := hcomp b hb m hmM hkey
  · exact absurd h hne
  · exact absurd h (hm b hb hkey)
  · apply h

/-- Every key that occurs has a newest element. -/
theorem exists_newest
    [IsTrans α newer] [Std.Irrefl newer] [Std.Asymm newer] {M : Multiset α} :
  Comparable key newer M → M.Nodup → ∀ b ∈ M, ∃ m ∈ newest key newer M, key m = key b
  := by
  induction M using Multiset.induction with
  | empty =>
      intro _ _ b hb
      exact absurd hb (Multiset.notMem_zero b)
  | cons a M ih =>
      intro hcomp hnodup b hb
      have hcomp' : Comparable key newer M := fun x hx y hy =>
        hcomp x (Multiset.mem_cons_of_mem hx) y (Multiset.mem_cons_of_mem hy)
      obtain ⟨haM, hM⟩ := Multiset.nodup_cons.mp hnodup
      by_cases hnone : ∀ c ∈ M, key c ≠ key a
      · rw [newest_cons_new hnone]
        obtain rfl | hb := Multiset.mem_cons.mp hb
        · exact ⟨b, Multiset.mem_cons_self b _, rfl⟩
        · obtain ⟨m, hm, hkey⟩ := ih hcomp' hM b hb
          exact ⟨m, Multiset.mem_cons_of_mem hm, hkey⟩
      · simp only [ne_eq, not_forall, not_not] at hnone
        obtain ⟨c, hc, hca⟩ := hnone
        obtain ⟨m, hm, hmc⟩ := ih hcomp' hM c hc
        have hma : key m = key a := hmc.trans hca
        obtain ⟨hmM, -⟩ := mem_newest.mp hm
        obtain rfl | hnew | hold :=
          hcomp a (Multiset.mem_cons_self a M) m (Multiset.mem_cons_of_mem hmM) hma.symm
        · exact absurd hmM haM
        · have hall : ∀ x ∈ M, key x = key a → newer a x := by
            intro x hx hxa
            by_cases hxm : x = m
            · rw [hxm]
              apply hnew
            · apply trans_of newer hnew
              apply newer_of_mem_newest hcomp' hm hx (hxa.trans hma.symm) hxm
          rw [newest_cons_newer hall]
          by_cases hba : key b = key a
          · exact ⟨a, Multiset.mem_cons_self a _, hba.symm⟩
          · obtain rfl | hb := Multiset.mem_cons.mp hb
            · exact absurd rfl hba
            · obtain ⟨n, hn, hnb⟩ := ih hcomp' hM b hb
              refine ⟨n, Multiset.mem_cons_of_mem (Multiset.mem_filter.mpr ⟨hn, ?_⟩), hnb⟩
              rw [hnb]
              apply hba
        · rw [newest_cons_older hcomp' hm hma hold (asymm_of newer hold)]
          obtain rfl | hb := Multiset.mem_cons.mp hb
          · exact ⟨m, hm, hma⟩
          · apply ih hcomp' hM b hb

end Newest
