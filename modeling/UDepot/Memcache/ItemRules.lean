import Mathlib.Data.List.TakeWhile
import Mathlib.Data.Nat.Digits.Defs
import UDepot.Memcache.Items

/-!
# What clients may expect of items

- An expired item should count as absent.  A get and an incr or a decr treat it so; an add, a
  replace, an append, a prepend and a delete go by what is stored (`expired_as_absent_iff`).
- An append or a prepend should change the data only.  It writes the flags and the exptime of its
  command line (`merge_keeps_item_iff`).
- An incr or a decr should take numbers only.  It takes the number that the data begins with,
  whatever follows (`arithmetic_on_numbers_iff`).
-/

namespace UDepot.Memcache

open Interaction

section

variable {w : World} {items items' : Bytes → Option Bytes} {key : Bytes} {noreply : Bool}

theorem told_inj {text text' : Bytes} :
    told noreply text = told noreply text' ↔ noreply = true ∨ text = text' := by
  cases noreply <;> simp [told]

theorem visible_eq_none_iff {now : Int64} {item : Item} :
    visible now (some item.stored) = none ↔ Expired now item.expiry := by
  rw [visible_stored]
  split
  · rename_i hexp
    simp [hexp]
  · rename_i hexp
    simp [hexp]

/-! ### Expired items -/

/-- What a put stores where nothing is seen is not seen either. -/
theorem putOutcome_eq_iff
    (hview : w.view items' = w.view items) (hnone : w.view items key = none) (item : Item)
    (noreply : Bool) :
  putOutcome w items key item.stored true noreply
    = putOutcome w items' key item.stored false noreply
    ↔ (w.geo.checkSizes key.length item.stored.length = true →
        noreply = true ∧ Expired w.now item.expiry)
  := by
  have hrefused : putOutcome w items' key item.stored false noreply
      = (w.view items, told noreply kNotStored) := by
    rw [putOutcome, if_neg (by simp), hview]
  rw [hrefused, putOutcome]
  cases hsizes : w.geo.checkSizes key.length item.stored.length with
  | false => simp
  | true =>
      rw [if_pos ⟨rfl, rfl⟩, Prod.mk.injEq, Function.update_eq_self_iff, hnone, visible_eq_none_iff,
        told_inj, or_iff_left (by decide)]
      simp [and_comm]

theorem putOutcome_congr (hview : w.view items' = w.view items) (value : Bytes) (allowed : Bool) :
    putOutcome w items key value allowed noreply
      = putOutcome w items' key value allowed noreply := by
  rw [putOutcome, putOutcome, hview]

/-- The data after an append or a prepend. -/
def mergedData (req : ReqType) (old value : Bytes) : Bytes :=
  if req = .append then old ++ value else value ++ old

theorem length_mergedData (req : ReqType) (old value : Bytes) :
    (mergedData req old value).length = old.length + value.length := by
  rw [mergedData]
  split
  · rw [List.length_append]
  · rw [List.length_append, Nat.add_comm]

/-- An append or a prepend to an item there is. -/
theorem mergeOutcome_stored
    {item : Item} (hitem : items key = some item.stored) (req : ReqType) (value : Bytes)
    (expiry : Int64) (flags : UInt32) :
  mergeOutcome w items req key value expiry flags noreply
    = if kMaxValueLen < item.data.length + value.length then
        (w.view items, told noreply kTooLarge)
      else putOutcome w items key
        (Item.stored ⟨mergedData req item.data value, flags, expiry⟩) true noreply
  := by
  have hlen : ¬ item.stored.length < kMetaSize := by
    rw [Item.length_stored]
    omega
  have hdata : userData item.stored = item.data := userData_append ..
  rw [mergeOutcome, hitem]
  simp only [if_neg hlen, hdata]
  rfl

theorem mergeOutcome_eq_iff
    (hview : w.view items' = w.view items) (hnone : w.view items key = none)
    (habsent : items' key = none) {item : Item} (hitem : items key = some item.stored)
    (req : ReqType) (value : Bytes) (expiry : Int64) (flags : UInt32) :
  mergeOutcome w items req key value expiry flags noreply
      = mergeOutcome w items' req key value expiry flags noreply
    ↔ if kMaxValueLen < item.data.length + value.length then noreply = true
      else w.geo.checkSizes key.length (item.data.length + value.length + kMetaSize) = true →
        noreply = true ∧ Expired w.now expiry
  := by
  have h := putOutcome_eq_iff hview hnone ⟨mergedData req item.data value, flags, expiry⟩ noreply
  rw [Item.length_stored, length_mergedData] at h
  have hleft : mergeOutcome w items' req key value expiry flags noreply
      = putOutcome w items' key (Item.stored ⟨mergedData req item.data value, flags, expiry⟩) false
        noreply := by
    rw [mergeOutcome, habsent, putOutcome, if_neg (by simp)]
  rw [mergeOutcome_stored hitem, hleft]
  split
  · rw [putOutcome, if_neg (by simp), hview, Prod.mk.injEq, told_inj, or_iff_left (by decide)]
    simp
  · exact h

end

/-- A command leaves the same as if nothing were stored for a key. -/
def AsAbsent (w : World) (s : Scene) (cmd : Command) (key : Bytes) : Prop :=
  ∃ out, w.Leaves (.start cmd.handler) s out
    ∧ w.Leaves (.start cmd.handler) { s with items := Function.update s.items key none } out

/-- The commands that treat an expired item as absent. -/
def Command.MindsExpiry (w : World) (item : Item) : Command → Prop
  | .get _ | .arithmetic _ _ _ _ => True
  | .delete _ noreply => noreply = true
  | .store req key _ exptime value noreply =>
      match req with
      | .add | .replace =>
          w.geo.checkSizes key.length (value.length + kMetaSize) = true →
            noreply = true ∧ Expired w.now (resolvedExpiry w.now exptime)
      | .append | .prepend =>
          if kMaxValueLen < item.data.length + value.length then noreply = true
          else w.geo.checkSizes key.length (item.data.length + value.length + kMetaSize) = true →
            noreply = true ∧ Expired w.now (resolvedExpiry w.now exptime)
      | _ => True

/-- A command treats an expired item as absent just if it is one of those that mind the expiry. -/
theorem expired_as_absent_iff
    (w : World) (s : Scene) (cmd : Command) {key : Bytes} {item : Item}
    (hitem : s.items key = some item.stored) (hexp : Expired w.now item.expiry)
    (hkey : cmd.key = some key ∨ ∃ keys, cmd = .get keys) :
  AsAbsent w s cmd key ↔ cmd.MindsExpiry w item
  := by
  have hnone : w.view s.items key = none := by
    rw [World.view, hitem, visible_stored, if_pos hexp]
  have hview : w.view (Function.update s.items key none) = w.view s.items := by
    rw [World.view_update, Function.update_eq_self_iff, hnone]
    rfl
  have hout : AsAbsent w s cmd key
      ↔ cmd.outcome w s.items = cmd.outcome w (Function.update s.items key none) := by
    simp [AsAbsent, Command.leaves_iff]
  rw [hout]
  cases cmd with
  | get keys => simp [Command.outcome, hview, Command.MindsExpiry]
  | arithmetic key' delta isIncr noreply =>
      simp [Command.outcome, arithmeticOutcome, hview, Command.MindsExpiry]
  | delete key' noreply =>
      obtain rfl : key' = key := by simpa [Command.key] using hkey
      have htext : kDeleted ≠ kNotFound := by decide
      simp [Command.outcome, hview, Command.MindsExpiry, hitem, told_inj, htext]
  | store req key' flags exptime value noreply =>
      obtain rfl : key' = key := by simpa [Command.key] using hkey
      have habsent : Function.update s.items key' none key' = none := Function.update_self ..
      have hsizes : (Item.stored ⟨value, flags, resolvedExpiry w.now exptime⟩).length
          = value.length + kMetaSize := Item.length_stored _
      cases req with
      | set =>
          simp only [Command.MindsExpiry, iff_true]
          exact putOutcome_congr hview _ true
      | add =>
          have h := putOutcome_eq_iff hview.symm (hview ▸ hnone)
            ⟨value, flags, resolvedExpiry w.now exptime⟩ noreply
          rw [hsizes] at h
          simp only [Command.outcome, hitem, habsent]
          rw [eq_comm]
          exact h
      | replace =>
          have h := putOutcome_eq_iff hview hnone
            ⟨value, flags, resolvedExpiry w.now exptime⟩ noreply
          rw [hsizes] at h
          simp only [Command.outcome, hitem, habsent]
          exact h
      | append | prepend => exact mergeOutcome_eq_iff hview hnone habsent hitem ..
      | _ => simp [Command.outcome, hview, Command.MindsExpiry]

/-- A store of one item, at time 100. -/
def stillWorld : World where
  geo := ⟨512, 64, 1, 8, Geometry.sector_pos, by decide⟩
  now := 100
  version := fun _ _ => 0
  past := []
  settled := 0
  settles := fun _ => rfl

def sceneOf (stored : Option Bytes) : Scene :=
  ⟨fun key => if key = ascii "k" then stored else none, 0, [], 0⟩

/-- What a command replies when it runs alone, and what is then seen of the key. -/
def endOf (cmd : Command) (stored : Option Bytes) : Option (List Bytes × Option Item) :=
  ((Thread.start cmd.handler).exec stillWorld.handle 16 (sceneOf stored)).map fun s =>
    (s.replies, visible stillWorld.now (s.items (ascii "k")))

def oldItem : Item := ⟨ascii "old", 7, 50⟩

/-- An expired item is in the way of an add, is replaced, comes back with an append, and is deleted
with success. -/
theorem expired_item_in_the_way :
    Expired stillWorld.now oldItem.expiry
      ∧ endOf (.store .add (ascii "k") 0 0 (ascii "new") false) (some oldItem.stored)
        = some ([kNotStored], none)
      ∧ endOf (.store .add (ascii "k") 0 0 (ascii "new") false) none
        = some ([kStored], some ⟨ascii "new", 0, 0⟩)
      ∧ endOf (.store .replace (ascii "k") 0 0 (ascii "new") false) (some oldItem.stored)
        = some ([kStored], some ⟨ascii "new", 0, 0⟩)
      ∧ endOf (.store .replace (ascii "k") 0 0 (ascii "new") false) none
        = some ([kNotStored], none)
      ∧ endOf (.store .append (ascii "k") 0 0 (ascii "new") false) (some oldItem.stored)
        = some ([kStored], some ⟨ascii "oldnew", 0, 0⟩)
      ∧ endOf (.store .append (ascii "k") 0 0 (ascii "new") false) none
        = some ([kNotStored], none)
      ∧ endOf (.delete (ascii "k") false) (some oldItem.stored) = some ([kDeleted], none)
      ∧ endOf (.delete (ascii "k") false) none = some ([kNotFound], none) := by
  and_intros
  all_goals decide +kernel

theorem oldItem_as_absent :
    AsAbsent stillWorld (sceneOf (some oldItem.stored)) (.get [ascii "k"]) (ascii "k")
      ∧ ¬ AsAbsent stillWorld (sceneOf (some oldItem.stored))
        (.store .add (ascii "k") 0 0 (ascii "new") false) (ascii "k") := by
  have hitem : (sceneOf (some oldItem.stored)).items (ascii "k") = some oldItem.stored := by decide
  have hexp : Expired stillWorld.now oldItem.expiry := by decide
  constructor
  · exact (expired_as_absent_iff stillWorld _ _ hitem hexp (.inr ⟨_, rfl⟩)).mpr trivial
  · rw [expired_as_absent_iff stillWorld _ _ hitem hexp (.inl rfl)]
    intro h
    exact nomatch (h (by decide)).1

/-! ### Append and prepend -/

/-- An append or a prepend changes the data of an item only, if the data together are not too long,
as an incr or a decr does. -/
structure KeepsItem (w : World) (s : Scene) (req : ReqType) (key : Bytes) (flags : UInt32)
    (exptime : UInt64) (value : Bytes) (noreply : Bool) (item : Item) : Prop where
  merge : ∃ out, w.Leaves (.start (handleStore req key flags exptime value noreply)) s out
    ∧ (∀ k, k ≠ key → out.1 k = w.view s.items k)
    ∧ if kMaxValueLen < item.data.length + value.length then
        out.1 key = some item ∧ out.2 = told noreply kTooLarge
      else if w.geo.checkSizes key.length (item.data.length + value.length + kMetaSize) then
        out.1 key = some { item with data := mergedData req item.data value }
          ∧ out.2 = told noreply kStored
      else out.1 key = some item ∧ out.2 = told noreply kNotStored
  arithmetic : ∀ delta isIncr, ∃ out data, w.Leaves
    (.start (handleArithmetic key delta isIncr noreply)) s out
      ∧ out.1 key = some { item with data := data }

theorem arithmetic_keeps_item
    {w : World} {s : Scene} {key : Bytes} {item : Item} (hview : w.view s.items key = some item)
    (delta : Nat) (isIncr noreply : Bool) :
  ∃ out data, w.Leaves (.start (handleArithmetic key delta isIncr noreply)) s out
    ∧ out.1 key = some { item with data := data }
  := by
  have hends := (Command.arithmetic key delta isIncr noreply).leaves w s
  simp only [Command.outcome, arithmeticOutcome, hview] at hends
  split at hends
  · exact ⟨_, item.data, hends, hview⟩
  · split at hends
    · exact ⟨_, _, hends, Function.update_self ..⟩
    · exact ⟨_, item.data, hends, hview⟩

/-- An append or a prepend keeps the flags and the expiry of an item just if the command line has
the same. -/
theorem merge_keeps_item_iff
    (w : World) (s : Scene) {req : ReqType} (hreq : req = .append ∨ req = .prepend) {key : Bytes}
    {item : Item} (hitem : s.items key = some item.stored) (hlive : ¬ Expired w.now item.expiry)
    (flags : UInt32) (exptime : UInt64) (value : Bytes) (noreply : Bool) :
  KeepsItem w s req key flags exptime value noreply item
    ↔ (item.data.length + value.length ≤ kMaxValueLen →
      w.geo.checkSizes key.length (item.data.length + value.length + kMetaSize) = true →
      flags = item.flags ∧ resolvedExpiry w.now exptime = item.expiry)
  := by
  have hview : w.view s.items key = some item := by
    rw [World.view, hitem, visible_stored, if_neg hlive]
  have hout : (Command.store req key flags exptime value noreply).outcome w s.items
      = mergeOutcome w s.items req key value (resolvedExpiry w.now exptime) flags noreply := by
    obtain rfl | rfl := hreq <;> rfl
  rw [mergeOutcome_stored hitem] at hout
  have hsize : (Item.stored ⟨mergedData req item.data value, flags,
      resolvedExpiry w.now exptime⟩).length = item.data.length + value.length + kMetaSize := by
    rw [Item.length_stored, length_mergedData]
  constructor
  · rintro ⟨⟨out, hends, -, hmerge⟩, -⟩ hlen hsizes
    obtain rfl := hends.unique ((Command.store req key flags exptime value noreply).leaves w s)
    rw [if_neg (Nat.not_lt.mpr hlen), if_pos hsizes] at hmerge
    rw [hout, if_neg (Nat.not_lt.mpr hlen), putOutcome, hsize, if_pos ⟨hsizes, rfl⟩] at hmerge
    have hkey := hmerge.1
    simp only [Function.update_self, visible_stored] at hkey
    split at hkey
    · cases hkey
    · simpa using hkey
  · intro hcond
    refine ⟨⟨_, (Command.store req key flags exptime value noreply).leaves w s, ?_, ?_⟩,
      fun delta isIncr => arithmetic_keeps_item hview delta isIncr noreply⟩
    · intro k hk
      rw [hout, putOutcome]
      split
      · rfl
      · split
        · exact Function.update_of_ne hk ..
        · rfl
    · rw [hout]
      split
      · exact ⟨hview, rfl⟩
      · rename_i hlen
        rw [putOutcome, hsize]
        split
        · rename_i hsizes
          obtain ⟨hflags, hexpiry⟩ := hcond (Nat.not_lt.mp hlen) hsizes
          rw [if_pos ⟨hsizes, rfl⟩]
          simp only [Function.update_self, visible_stored]
          rw [hexpiry, if_neg hlive, hflags]
          exact ⟨rfl, trivial⟩
        · rename_i hsizes
          rw [if_neg fun h => hsizes h.1]
          exact ⟨hview, rfl⟩

def plainItem : Item := ⟨ascii "old", 7, 0⟩

/-- An append to an item with flags 7 that never expires gives it the flags and the expiry of the
command line. -/
theorem append_changes_flags :
    ¬ Expired stillWorld.now plainItem.expiry
      ∧ endOf (.store .append (ascii "k") 3 60 (ascii "new") false) (some plainItem.stored)
        = some ([kStored], some ⟨ascii "oldnew", 3, 160⟩) := by
  constructor
  all_goals decide +kernel

theorem plainItem_kept :
    KeepsItem stillWorld (sceneOf (some plainItem.stored)) .append (ascii "k") 7 0 (ascii "new")
      false
      plainItem := by
  apply (merge_keeps_item_iff stillWorld _ (.inl rfl) (by decide) (by decide) 7 0 _ _).mpr
  intro _ _
  decide

/-! ### Incr and decr -/

/-- Data that is a number below 2^64, with spaces behind it or none. -/
def IsDecimal (data : Bytes) (n : Nat) : Prop :=
  ∃ ds k, data = ds ++ List.replicate k 32 ∧ ds ≠ [] ∧ (∀ c ∈ ds, isDigit c = true)
    ∧ decimal ds = n ∧ n < 2 ^ 64

theorem takeWhile_digits
    {ds : Bytes} (hds : ∀ c ∈ ds, isDigit c = true) (rest : Bytes)
    (hrest : ∀ c ∈ rest.head?, isDigit c = false) :
  (ds ++ rest).takeWhile isDigit = ds ∧ (ds ++ rest).dropWhile isDigit = rest
  := by
  rw [List.takeWhile_append_of_pos hds, List.dropWhile_append_of_pos hds]
  cases rest with
  | nil => simp
  | cons c rest =>
      have hc := hrest c rfl
      simp [hc]

theorem fromChars_eq_some
    {size n : Nat} {data rest : Bytes} (h : fromChars size data = some (n, rest)) :
  n < size ∧ rest = data.dropWhile isDigit
  := by
  rw [fromChars] at h
  split at h
  · cases h
  · rename_i hok
    rw [not_or, Nat.not_le] at hok
    simp only [Option.some.injEq, Prod.mk.injEq] at h
    exact ⟨h.1 ▸ hok.2, h.2.symm⟩

/-- A number with spaces behind it is what `from_chars` finds with nothing but spaces behind. -/
theorem isDecimal_iff
    {data : Bytes} {n : Nat} :
  IsDecimal data n ↔ ∃ rest, fromChars (2 ^ 64) data = some (n, rest) ∧ ∀ c ∈ rest, c = 32
  := by
  rw [fromChars]
  constructor
  · rintro ⟨ds, k, rfl, hne, hds, rfl, hlt⟩
    obtain ⟨htake, hdrop⟩ := takeWhile_digits hds (List.replicate k 32) (by
      cases k <;> simp [List.replicate_succ, isDigit])
    use List.replicate k 32
    simp only [htake, hdrop]
    rw [if_neg (not_or.mpr ⟨hne, Nat.not_le.mpr hlt⟩)]
    exact ⟨rfl, fun c hc => (List.mem_replicate.mp hc).2⟩
  · rintro ⟨rest, hnum, hrest⟩
    split at hnum
    · cases hnum
    · rename_i hok
      rw [not_or, Nat.not_le] at hok
      simp only [Option.some.injEq, Prod.mk.injEq] at hnum
      obtain ⟨rfl, rfl⟩ := hnum
      refine ⟨data.takeWhile isDigit, (data.dropWhile isDigit).length, ?_, hok.1, ?_, rfl, hok.2⟩
      · rw [← List.eq_replicate_iff.mpr ⟨rfl, hrest⟩, List.takeWhile_append_dropWhile]
      · intro c hc
        exact List.mem_takeWhile_imp hc

/-- An incr or a decr acts on a number with spaces behind it, and leaves any other data. -/
structure ActsOnNumber (w : World) (s : Scene) (key : Bytes) (delta : Nat) (isIncr noreply : Bool)
    (item : Item) (out : (Bytes → Option Item) × List Bytes) : Prop where
  ends : w.Leaves (.start (handleArithmetic key delta isIncr noreply)) s out
  others : ∀ k, k ≠ key → out.1 k = w.view s.items k
  number : ∀ {n}, IsDecimal item.data n →
    let result := toChars (if isIncr then (n + delta) % 2 ^ 64 else n - delta)
    out.1 key = some { item with data := result } ∧ out.2 = told noreply (result ++ kCRLF)
  other : (¬ ∃ n, IsDecimal item.data n) →
    out.1 key = some item ∧ out.2 = told noreply kNonNumeric

/-- A record of a short key and value can be stored. -/
theorem checkSizes_small
    (geo : Geometry) {keySize valSize : Nat} (hpos : keySize ≠ 0) (hkey : keySize ≤ kMaxKeyLen)
    (hval : valSize ≤ 32) :
  geo.checkSizes keySize valSize = true
  := by
  have hgrain := geo.grainSize_pos
  rw [kMaxKeyLen] at hkey
  have hgrains : geo.kvTotalGrains keySize valSize ≤ kKvSizeMask := by
    rw [Geometry.kvTotalGrains, kvTotalBytes, kKvHeaderBytes, kKvSuffixBytes, kKvSizeMask]
    apply Nat.div_le_of_le_mul
    have hle := Nat.mul_le_mul_right (2 ^ 11 - 1) hgrain
    omega
  simp only [Geometry.checkSizes, kTombstoneValSize, Bool.and_eq_true, bne_iff_ne, ne_eq,
    decide_eq_true_eq]
  have hlarge : 32 < 2 ^ 32 - 1 := by decide
  exact ⟨⟨⟨hpos, Nat.le_trans hkey (by decide)⟩, decide_eq_true (Nat.lt_of_le_of_lt hval hlarge)⟩,
    hgrains⟩

theorem length_toChars {n : Nat} (h : n < 2 ^ 64) : (toChars n).length ≤ 20 := by
  rw [toChars, List.length_map]
  apply Nat.toDigits_length 10 n 20 (by decide)
  omega

theorem arithmetic_eq (isIncr : Bool) (num delta : Nat) :
    arithmetic isIncr num delta = if isIncr then (num + delta) % 2 ^ 64 else num - delta := by
  rw [arithmetic]
  split
  · rfl
  · split <;> omega

/-- An incr or a decr does what it should just if nothing but spaces follows the number that the
data begins with. -/
theorem arithmetic_on_numbers_iff
    (w : World) (s : Scene) {key : Bytes} (hne : key.length ≠ 0) (hle : key.length ≤ kMaxKeyLen)
    {item : Item} (hitem : s.items key = some item.stored) (hlive : ¬ Expired w.now item.expiry)
    (delta : Nat) (isIncr noreply : Bool) :
  (∃ out, ActsOnNumber w s key delta isIncr noreply item out)
    ↔ ∀ n rest, fromChars (2 ^ 64) item.data = some (n, rest) → ∀ c ∈ rest, c = 32
  := by
  have hview : w.view s.items key = some item := by
    rw [World.view, hitem, visible_stored, if_neg hlive]
  have hends := (Command.arithmetic key delta isIncr noreply).leaves w s
  simp only [Command.outcome, arithmeticOutcome, hview] at hends
  cases hnum : fromChars (2 ^ 64) item.data with
  | none =>
      have hnot : ∀ {n}, ¬ IsDecimal item.data n := by
        intro n h
        obtain ⟨rest, hsome, -⟩ := isDecimal_iff.mp h
        cases hnum.symm.trans hsome
      rw [hnum] at hends
      refine iff_of_true ⟨_, hends, fun _ _ => rfl, fun h => absurd h hnot, fun _ => ⟨hview, rfl⟩⟩
        ?_
      rintro _ _ ⟨⟩
  | some numRest =>
      obtain ⟨num, rest⟩ := numRest
      have hlt : arithmetic isIncr num delta < 2 ^ 64 := by
        rw [arithmetic_eq]
        split
        · apply Nat.mod_lt _ (by decide)
        · exact Nat.lt_of_le_of_lt (Nat.sub_le ..) (fromChars_eq_some hnum).1
      have hsizes : w.geo.checkSizes key.length
          ((toChars (arithmetic isIncr num delta)).length + kMetaSize) = true :=
        checkSizes_small w.geo hne hle (Nat.add_le_add_right (length_toChars hlt) kMetaSize)
      rw [hnum] at hends
      simp only [hsizes, if_true] at hends
      constructor
      · rintro ⟨out, hout⟩ n rest' heq c hc
        obtain ⟨rfl, rfl⟩ : num = n ∧ rest = rest' := by simpa using heq
        obtain rfl := hout.ends.unique hends
        by_contra hspace
        have hnot : ¬ ∃ n, IsDecimal item.data n := by
          rintro ⟨n, h⟩
          obtain ⟨rest', hsome, hspaces⟩ := isDecimal_iff.mp h
          cases hnum.symm.trans hsome
          exact hspace (hspaces c hc)
        have hdata := (hout.other hnot).1
        simp only [Function.update_self, Option.some.injEq] at hdata
        have hdigits : item.data = toChars (arithmetic isIncr num delta) :=
          (congrArg Item.data hdata).symm
        rw [(fromChars_eq_some hnum).2, hdigits, List.dropWhile_eq_nil_iff.mpr fun c =>
          isDigit_of_mem_toChars] at hc
        cases hc
      · intro hspaces
        refine ⟨_, hends, fun k hk => Function.update_of_ne hk .., ?_, ?_⟩
        · intro n h
          obtain ⟨rest', hsome, -⟩ := isDecimal_iff.mp h
          cases hnum.symm.trans hsome
          simp only [← arithmetic_eq, Function.update_self, and_self]
        · intro hnot
          exact absurd ⟨num, isDecimal_iff.mpr ⟨rest, hnum, hspaces num rest rfl⟩⟩ hnot

/-- An incr takes the number that the data begins with, and the rest is lost. -/
theorem incr_drops_text :
    (∀ n, ¬ IsDecimal (ascii "12abc") n)
      ∧ endOf (.arithmetic (ascii "k") 1 true false) (some (Item.stored ⟨ascii "12abc", 7, 0⟩))
        = some ([ascii "13\r\n"], some ⟨ascii "13", 7, 0⟩) := by
  constructor
  · intro n h
    obtain ⟨rest, hsome, hspaces⟩ := isDecimal_iff.mp h
    have hnum : fromChars (2 ^ 64) (ascii "12abc") = some (12, ascii "abc") := by decide
    cases hnum.symm.trans hsome
    exact absurd (hspaces 97 (by decide)) (by decide)
  · decide +kernel

theorem counter_acts_on_number :
    ∃ out, ActsOnNumber stillWorld (sceneOf (some (Item.stored ⟨ascii "41  ", 7, 0⟩))) (ascii "k") 1
      true false ⟨ascii "41  ", 7, 0⟩ out := by
  apply (arithmetic_on_numbers_iff stillWorld _ (by decide) (by decide) (by decide) (by decide)
    1 true false).mpr
  intro n rest h
  have hnum : fromChars (2 ^ 64) (ascii "41  ") = some (41, ascii "  ") := by decide
  cases hnum.symm.trans h
  decide +kernel

end UDepot.Memcache
