import UDepot.Memcache.Handlers

/-!
# What a command may do to the store

A command that updates a key does so with one put or del that the store accepts, and tells its
client of success just if there was one.  A put that asks for a version stores what the command
makes of the value that was read with that version; a del that asks for a version asks for that of
the expired value that was read.  These are the rules of a command (`Command.rules`), and its
handler obeys them (`Command.handler_obeys`).
-/

namespace UDepot.Memcache

open Interaction Memory

/-! ### Metadata -/

theorem length_encodeMetadata (expiry : Int64) (flags : UInt32) :
    (encodeMetadata expiry flags).length = kMetaSize := by
  rw [encodeMetadata, List.length_append, length_leBytes, length_leBytes, kMetaSize]

theorem userData_append (data : Bytes) (expiry : Int64) (flags : UInt32) :
    userData (data ++ encodeMetadata expiry flags) = data := by
  rw [userData, List.length_append, length_encodeMetadata, Nat.add_sub_cancel, List.take_left]

theorem decodeMetadata_append (data : Bytes) (expiry : Int64) (flags : UInt32) :
    decodeMetadata (data ++ encodeMetadata expiry flags) = (expiry, flags) := by
  have hexpiry : (encodeMetadata expiry flags).take 8 = leBytes 8 expiry.toUInt64.toNat :=
    List.take_left' (length_leBytes _ _)
  have hflags : (encodeMetadata expiry flags).drop 8 = leBytes 4 flags.toNat :=
    List.drop_left' (length_leBytes _ _)
  rw [decodeMetadata, List.length_append, length_encodeMetadata, Nat.add_sub_cancel, List.drop_left]
  rw [hexpiry, hflags, leNat_leBytes (UInt64.toNat_lt _), leNat_leBytes (UInt32.toNat_lt _),
    UInt64.ofNat_toNat, UInt32.ofNat_toNat, Int64.toInt64_toUInt64]

/-- A number is printed in digits. -/
theorem isDigit_of_mem_toChars {n : Nat} {c : UInt8} (h : c ∈ toChars n) : isDigit c = true := by
  obtain ⟨d, hd, rfl⟩ := List.mem_map.mp h
  have hdigit := Nat.isDigit_of_mem_toDigits (b := 10) (by decide) (by decide) hd
  simp only [Char.isDigit, ge_iff_le, Bool.and_eq_true, decide_eq_true_eq,
    UInt32.le_iff_toNat_le] at hdigit
  simp only [isDigit, Bool.and_eq_true, decide_eq_true_eq, UInt8.le_iff_toNat_le]
  have hval : (UInt8.ofNat d.toNat).toNat = d.val.toNat := by
    rw [UInt8.toNat_ofNat', Nat.mod_eq_of_lt]
    · rfl
    · exact Nat.lt_of_le_of_lt hdigit.2 (by decide)
  rw [hval]
  exact hdigit

theorem head_toChars (n : Nat) : ∃ c cs, toChars n = c :: cs ∧ isDigit c = true := by
  cases h : toChars n with
  | nil => exact absurd (List.map_eq_nil_iff.mp h) Nat.toDigits_ne_nil
  | cons c cs =>
      use c, cs, rfl
      apply isDigit_of_mem_toChars (n := n)
      rw [h]
      apply List.mem_cons_self

/-! ### Updates -/

/-- What a command does to the value of a key; `expire` is the removal of an expired value. -/
inductive Update where
  | set (data : Bytes)
  | add (data : Bytes)
  | replace (data : Bytes)
  | append (data : Bytes)
  | prepend (data : Bytes)
  | incr (delta : Nat)
  | decr (delta : Nat)
  | delete
  | expire
  deriving DecidableEq, Repr

/-- The value of a key after an update, if the update is possible: an add is if the key is absent,
the others but a set if it is present, and an incr or a decr if its value starts with a number. -/
def Update.apply : Update → Option Bytes → Option (Option Bytes)
  | .set data, _ | .add data, none | .replace data, some _ => some (some data)
  | .append data, some old => some (some (old ++ data))
  | .prepend data, some old => some (some (data ++ old))
  | .incr delta, some old =>
      (fromChars (2 ^ 64) old).map fun (num, _) => some (toChars ((num + delta) % 2 ^ 64))
  | .decr delta, some old =>
      (fromChars (2 ^ 64) old).map fun (num, _) => some (toChars (num - delta))
  | .delete, some _ | .expire, some _ => some none
  | _, _ => none

inductive Command where
  | store (req : ReqType) (key : Bytes) (flags : UInt32) (exptime : UInt64) (value : Bytes)
      (noreply : Bool)
  | arithmetic (key : Bytes) (delta : Nat) (isIncr noreply : Bool)
  | delete (key : Bytes) (noreply : Bool)
  | get (keys : List Bytes)
  deriving DecidableEq, Repr

namespace Command

def handler : Command → Handler Unit
  | .store req key flags exptime value noreply => handleStore req key flags exptime value noreply
  | .arithmetic key delta isIncr noreply => handleArithmetic key delta isIncr noreply
  | .delete key noreply => handleDelete key noreply
  | .get keys => handleGet keys

/-- The key a command updates. -/
def key : Command → Option Bytes
  | .store _ key _ _ _ _ | .arithmetic key _ _ _ | .delete key _ => some key
  | .get _ => none

def update : Command → Option Update
  | .store req _ _ _ value _ =>
      match req with
      | .set => some (.set value)
      | .add => some (.add value)
      | .replace => some (.replace value)
      | .append => some (.append value)
      | .prepend => some (.prepend value)
      | _ => none
  | .arithmetic _ delta isIncr _ => some (if isIncr then .incr delta else .decr delta)
  | .delete _ _ => some .delete
  | .get _ => none

theorem update_ne_expire (cmd : Command) {u : Update} (h : cmd.update = some u) : u ≠ .expire := by
  rintro rfl
  cases cmd with
  | store req => cases req <;> cases h
  | arithmetic _ _ isIncr => cases isIncr <;> cases h
  | delete | get => cases h

def noreply : Command → Bool
  | .store _ _ _ _ _ noreply | .arithmetic _ _ _ noreply | .delete _ noreply => noreply
  | .get _ => false

/-- The reply says that the command was carried out. -/
def success : Command → Bytes → Bool
  | .store _ _ _ _ _ _, text => text = kStored
  | .arithmetic _ _ _ _, text => text.head?.any isDigit
  | .delete _ _, text => text = kDeleted
  | .get _, _ => false

theorem success_add {cmd : Command} {data : Bytes} (h : cmd.update = some (.add data))
    (text : Bytes) :
    cmd.success text = decide (text = kStored) := by
  cases cmd with
  | store => rfl
  | arithmetic _ _ isIncr => cases isIncr <;> cases h
  | delete | get => cases h

end Command

/-! ### Rules -/

/-- The keys a put of a mode is accepted for. -/
def PutAllows : PutMode → Option Bytes → Prop
  | .upsert, _ => True
  | .create, cur => cur = none
  | .replace, cur => cur ≠ none

/-- Where a command is: the key, the value and the version it has read last, whether it has made
its update or its last put was refused, and whether it has answered. -/
structure Progress where
  seen : Option (Bytes × Bytes × Nat)
  wrote : Bool
  refused : Bool
  answered : Bool

def Progress.start : Progress := ⟨none, false, false, false⟩

namespace Command

variable (cmd : Command)

/-- A put stores what the update makes of the value there is. -/
def MayPut (seen : Option (Bytes × Bytes × Nat)) (key value : Bytes) (mode : PutMode)
    (ifVersion : Option Nat) : Prop :=
  cmd.key = some key ∧ ∃ u, cmd.update = some u ∧
    match ifVersion with
    | some version => ∃ old, seen = some (key, old, version)
        ∧ u.apply (some (userData old)) = some (some (userData value))
    | none => ∀ cur, PutAllows mode cur → u.apply cur = some (some (userData value))

/-- A delete removes its key, and any other command only a value it has read. -/
def MayDel (seen : Option (Bytes × Bytes × Nat)) (key : Bytes) : Option Nat → Prop
  | some version => cmd.update ≠ some .delete ∧ ∃ old, seen = some (key, old, version)
  | none => cmd.update = some .delete ∧ cmd.key = some key

def rules : Rules Query.Answer Progress where
  pre g q :=
    match q with
    | .put key value mode ifVersion =>
        (g.wrote = false ∧ g.answered = false) ∧ cmd.MayPut g.seen key value mode ifVersion
    | .del key ifVersion =>
        (g.wrote = false ∧ (cmd.update ≠ none → g.answered = false))
          ∧ cmd.MayDel g.seen key ifVersion
    | .send text => cmd.update ≠ none → cmd.success text = g.wrote ∧ g.answered = false
    | _ => True
  post g q a :=
    match q, a with
    | .get key, (rc, value, version) =>
        { g with seen := if rc = 0 then some (key, value, version) else none }
    | .put _ _ _ _, rc =>
        { g with
          seen := none
          wrote := decide (rc = (0 : Int))
          refused := decide (rc ≠ (0 : Int)) }
    | .del _ ifVersion, rc =>
        { g with seen := none, wrote := decide (rc = (0 : Int)) && ifVersion.isNone }
    | .send _, _ => { g with answered := true }
    | _, _ => g
  inv g := g.wrote = false ∧ g.answered = false
  fin g := (cmd.update ≠ none → cmd.noreply = false → g.answered = true)
    ∧ ∀ data, cmd.update = some (.add data) → g.wrote = true ∨ g.refused = true

end Command

section

variable {cmd : Command} {g : Progress}

theorem reply_obeys
    {noreply : Bool} {text : Bytes} (hno : cmd.noreply = noreply) (hans : g.answered = false)
    (hadd : ∀ data, cmd.update = some (.add data) → g.wrote = true ∨ g.refused = true)
    (htext : cmd.update ≠ none → cmd.success text = g.wrote) :
  (reply noreply text).Obeys cmd.rules g
  := by
  cases noreply with
  | true => exact ⟨fun _ hno' => absurd hno (by simp [hno']), hadd⟩
  | false => exact ⟨fun hu => ⟨htext hu, hans⟩, fun _ => ⟨fun _ _ => rfl, hadd⟩⟩

theorem resolveExpiry_obeys
    {exptime : UInt64} {k : Int64 → Handler Unit} (h : ∀ expiry, (k expiry).Obeys cmd.rules g) :
  (resolveExpiry exptime >>= k).Obeys cmd.rules g
  := by
  rw [resolveExpiry]
  split
  · apply h
  · refine ⟨trivial, fun now => ?_⟩
    simp only
    split <;> apply h

theorem isExpired_obeys
    {expiry : Int64} {k : Bool → Handler Unit} (h : ∀ expired, (k expired).Obeys cmd.rules g) :
  (isExpired expiry >>= k).Obeys cmd.rules g
  := by
  rw [isExpired]
  split
  · apply h
  · exact ⟨trivial, fun now => h _⟩

end

/-! ### Storage commands -/

section

variable {req : ReqType} {key value : Bytes} {flags : UInt32} {exptime : UInt64} {noreply : Bool}
    {g : Progress}

theorem success_store {text : Bytes} (h : text ≠ kStored) :
    (Command.store req key flags exptime value noreply).success text = false :=
  decide_eq_false h

theorem storeReply_obeys
    {rc : Int} (hwrote : g.wrote = decide (rc = 0)) (hans : g.answered = false)
    (hadd : req = .add → g.wrote = true ∨ g.refused = true) :
  (storeReply noreply value.length rc).Obeys
    (Command.store req key flags exptime value noreply).rules g
  := by
  have hadd' : ∀ data, (Command.store req key flags exptime value noreply).update
      = some (.add data) → g.wrote = true ∨ g.refused = true := by
    intro data hu
    apply hadd
    cases req <;> first | rfl | cases hu
  rw [storeReply]
  split
  · rename_i hrc
    rw [hrc] at hwrote
    cases noreply with
    | true => exact ⟨trivial, fun _ => ⟨fun _ hno => (nomatch hno), hadd'⟩⟩
    | false =>
        exact ⟨fun _ => ⟨hwrote.symm, hans⟩, fun _ => ⟨trivial, fun _ => ⟨fun _ _ => rfl, hadd'⟩⟩⟩
  · rename_i hrc
    rw [decide_eq_false hrc] at hwrote
    split
    · exact reply_obeys rfl hans hadd' fun _ => (success_store (by decide)).trans hwrote.symm
    · exact reply_obeys rfl hans hadd' fun _ => (success_store (by decide)).trans hwrote.symm

theorem mergedValue_apply
    {expiry : Int64} {old : Bytes} {u : Update}
    (hu : (Command.store req key flags exptime value noreply).update = some u)
    (hreq : req = .append ∨ req = .prepend) :
  u.apply (some old) = some (some (userData (mergedValue req old value expiry flags)))
  := by
  rw [mergedValue, userData_append]
  obtain rfl | rfl := hreq
  all_goals
    cases hu
    rfl

theorem mergeLoop_obeys
    {expiry : Int64} (hwrote : g.wrote = false) (hans : g.answered = false)
    (hreq : req = .append ∨ req = .prepend) :
  (mergeLoop req key value expiry flags noreply).Obeys
    (Command.store req key flags exptime value noreply).rules g
  := by
  obtain ⟨u, hu, hne⟩ : ∃ u, (Command.store req key flags exptime value noreply).update = some u
      ∧ ∀ data, u ≠ .add data := by
    obtain rfl | rfl := hreq <;> exact ⟨_, rfl, nofun⟩
  have hadd : req ≠ .add := by
    obtain rfl | rfl := hreq <;> exact nofun
  refine ⟨⟨hwrote, hans⟩, ?_⟩
  rintro g' ⟨hwrote, hans⟩
  refine ⟨trivial, ?_⟩
  rintro ⟨getRc, existing, version⟩
  simp only [Prog.bind]
  split
  · exact reply_obeys rfl hans (fun data hu' => absurd (Option.some.inj (hu.symm.trans hu'))
      (hne data))
      fun _ => (success_store (by decide)).trans hwrote.symm
  · rename_i hget
    rw [not_not] at hget
    split
    · exact reply_obeys rfl hans (fun data hu' => absurd (Option.some.inj (hu.symm.trans hu'))
        (hne data))
        fun _ => (success_store (by decide)).trans hwrote.symm
    · split
      · exact storeReply_obeys hwrote hans (fun h => absurd h hadd)
      · refine ⟨⟨⟨hwrote, hans⟩, rfl, u, hu, existing, ?_, mergedValue_apply hu hreq⟩, fun rc => ?_⟩
        · rw [hget]
          rfl
        · simp only [Prog.bind]
          split
          · rename_i hrc
            rw [hrc]
            exact ⟨rfl, hans⟩
          · exact storeReply_obeys rfl hans (fun h => absurd h hadd)

/-- A put of the value as it is. -/
theorem put_obeys
    {mode : PutMode} {expiry : Int64} (hwrote : g.wrote = false) (hans : g.answered = false)
    {u : Update} (hu : (Command.store req key flags exptime value noreply).update = some u)
    (hall : ∀ cur, PutAllows mode cur → u.apply cur = some (some value)) :
  (ask (.put key (value ++ encodeMetadata expiry flags) mode none) >>=
      storeReply noreply value.length : Handler Unit).Obeys
    (Command.store req key flags exptime value noreply).rules g
  := by
  refine ⟨⟨⟨hwrote, hans⟩, rfl, u, hu, ?_⟩, fun rc => storeReply_obeys rfl hans fun _ => ?_⟩
  · rw [userData_append]
    exact hall
  · by_cases hrc : rc = (0 : Int)
    · exact .inl (decide_eq_true hrc)
    · exact .inr (decide_eq_true hrc)

theorem handleStore_obeys
    (hwrote : g.wrote = false) (hans : g.answered = false) :
  (handleStore req key flags exptime value noreply).Obeys
    (Command.store req key flags exptime value noreply).rules g
  := by
  apply resolveExpiry_obeys
  intro expiry
  cases req with
  | set => exact put_obeys hwrote hans rfl fun _ _ => rfl
  | add =>
      apply put_obeys hwrote hans rfl
      rintro _ ⟨⟩
      rfl
  | replace =>
      apply put_obeys hwrote hans rfl
      intro cur hcur
      obtain ⟨x, rfl⟩ := Option.ne_none_iff_exists'.mp hcur
      rfl
  | append => exact mergeLoop_obeys hwrote hans (.inl rfl)
  | prepend => exact mergeLoop_obeys hwrote hans (.inr rfl)
  | _ => exact storeReply_obeys hwrote hans nofun

end

/-! ### The other commands -/

section

variable {key : Bytes} {delta : Nat} {isIncr noreply : Bool} {g : Progress}

theorem handleDelete_obeys
    (hwrote : g.wrote = false) (hans : g.answered = false) :
  (handleDelete key noreply).Obeys (Command.delete key noreply).rules g
  := by
  refine ⟨⟨⟨hwrote, fun _ => hans⟩, rfl, rfl⟩, fun rc => reply_obeys rfl hans nofun fun _ => ?_⟩
  by_cases hrc : rc = (0 : Int)
  · simp [hrc, Command.success, Command.rules]
  · simp [hrc, Command.success, Command.rules]
    decide

theorem success_arithmetic {text : Bytes} (h : text.head?.any isDigit = false) :
    (Command.arithmetic key delta isIncr noreply).success text = false := h

theorem arithmetic_apply
    {old rest : Bytes} {num : Nat} (hnum : fromChars (2 ^ 64) old = some (num, rest)) :
  (if isIncr then Update.incr delta else .decr delta).apply (some old)
    = some (some (toChars (arithmetic isIncr num delta)))
  := by
  cases isIncr with
  | true => simp only [if_true, Update.apply, hnum, Option.map_some, arithmetic]
  | false =>
      have hsub : (if num < delta then 0 else num - delta) = num - delta := by
        split <;> omega
      simp only [Bool.false_eq_true, if_false, Update.apply, hnum, Option.map_some, arithmetic,
        hsub]

/-- The end of an incr or a decr. -/
theorem arithmeticReply_obeys
    {num : Nat} {rc : Int} {value : Bytes} {mode : PutMode} {ifVersion : Option Nat}
    (hans : g.answered = false) :
  Prog.Obeys (Command.arithmetic key delta isIncr noreply).rules
    (if rc = -ESTALE then .again
      else if rc = -ENOENT then reply noreply kNotFound
      else if rc = 0 then reply noreply (toChars num ++ kCRLF)
      else reply noreply kServerError)
    ((Command.arithmetic key delta isIncr noreply).rules.post g (.put key value mode ifVersion) rc)
  := by
  have hadd : ∀ data, (Command.arithmetic key delta isIncr noreply).update ≠ some (.add data) := by
    cases isIncr <;> exact nofun
  split
  · rename_i hrc
    rw [hrc]
    exact ⟨rfl, hans⟩
  · split
    · rename_i hrc
      rw [hrc]
      exact reply_obeys rfl hans (fun data hu => absurd hu (hadd data))
        fun _ => success_arithmetic (by decide)
    · split
      · rename_i hrc
        rw [hrc]
        refine reply_obeys rfl hans (fun data hu => absurd hu (hadd data)) fun _ => ?_
        obtain ⟨c, cs, htext, hdigit⟩ := head_toChars num
        rw [htext]
        exact hdigit
      · rename_i hrc
        exact reply_obeys rfl hans (fun data hu => absurd hu (hadd data))
          fun _ => (success_arithmetic (by decide)).trans (decide_eq_false hrc).symm

theorem handleArithmetic_obeys
    (hwrote : g.wrote = false) (hans : g.answered = false) :
  (handleArithmetic key delta isIncr noreply).Obeys
    (Command.arithmetic key delta isIncr noreply).rules g
  := by
  have hadd : ∀ data, (Command.arithmetic key delta isIncr noreply).update ≠ some (.add data) := by
    cases isIncr <;> exact nofun
  refine ⟨⟨hwrote, hans⟩, ?_⟩
  rintro g' ⟨hwrote, hans⟩
  refine ⟨trivial, ?_⟩
  rintro ⟨getRc, val, version⟩
  simp only [Prog.bind]
  split
  · exact reply_obeys rfl hans (fun data hu => absurd hu (hadd data))
      fun _ => (success_arithmetic (by decide)).trans hwrote.symm
  · rename_i hget
    have hrc : getRc = 0 := by
      by_contra hne
      exact hget (.inl hne)
    have hseen : ((Command.arithmetic key delta isIncr noreply).rules.post g' (.get key)
        (getRc, val, version)).seen = some (key, val, version) := by
      rw [hrc]
      rfl
    apply isExpired_obeys
    intro expired
    split
    · -- the expired value is removed
      refine ⟨⟨⟨hwrote, fun _ => hans⟩, ?_, val, hseen⟩, fun rc => ?_⟩
      · cases isIncr <;> exact nofun
      · refine reply_obeys rfl hans (fun data hu => absurd hu (hadd data))
          fun _ => (success_arithmetic (by decide)).trans ?_
        simp [Command.rules]
    · split
      · exact reply_obeys rfl hans (fun data hu => absurd hu (hadd data))
          fun _ => (success_arithmetic (by decide)).trans hwrote.symm
      · rename_i num rest hnum
        refine ⟨⟨⟨hwrote, hans⟩, rfl, _, rfl, val, hseen, ?_⟩, fun rc => ?_⟩
        · rw [userData_append]
          exact arithmetic_apply hnum
        · exact arithmeticReply_obeys hans

/-- A get sends what it likes. -/
theorem send_obeys
    {keys : List Bytes} {text : Bytes} {k : Handler Unit}
    (h : k.Obeys (Command.get keys).rules { g with answered := true }) :
  (send text >>= fun _ => k).Obeys (Command.get keys).rules g
  := ⟨fun hu => absurd rfl hu, fun _ => h⟩

theorem sendHeader_obeys
    {keys : List Bytes} {text : Bytes} {k : Handler Unit}
    (h : k.Obeys (Command.get keys).rules { g with answered := true }) :
  (sendHeader text >>= fun _ => k).Obeys (Command.get keys).rules g
  := by
  rw [sendHeader]
  split
  · exact send_obeys h
  · exact ⟨trivial, fun past => send_obeys h⟩

theorem handleGet_obeys
    (keys keys' : List Bytes) (hwrote : g.wrote = false) :
  (handleGet keys).Obeys (Command.get keys').rules g
  := by
  induction keys generalizing g with
  | nil => exact ⟨fun hu => absurd rfl hu, fun _ => ⟨fun hu => absurd rfl hu, nofun⟩⟩
  | cons key keys ih =>
      refine ⟨trivial, ?_⟩
      rintro ⟨rc, val, version⟩
      simp only [Prog.bind]
      split
      · exact ih hwrote
      · rename_i hget
        have hrc : rc = 0 := by
          by_contra hne
          exact hget (.inl hne)
        have hseen : ((Command.get keys').rules.post g (.get key) (rc, val, version)).seen
            = some (key, val, version) := by
          rw [hrc]
          rfl
        apply isExpired_obeys
        intro expired
        split
        · refine ⟨⟨⟨hwrote, fun hu => absurd rfl hu⟩, nofun, val, hseen⟩, fun rc => ?_⟩
          apply ih
          simp [Command.rules]
        · apply sendHeader_obeys
          split
          · apply send_obeys
            apply send_obeys
            exact ih hwrote
          · apply send_obeys
            exact ih hwrote

end

/-- The handler of a command obeys the command's rules. -/
theorem Command.handler_obeys (cmd : Command) :
    cmd.handler.Obeys cmd.rules .start := by
  cases cmd with
  | store req key flags exptime value noreply => exact handleStore_obeys rfl rfl
  | arithmetic key delta isIncr noreply => exact handleArithmetic_obeys rfl rfl
  | delete key noreply => exact handleDelete_obeys rfl rfl
  | get keys => exact handleGet_obeys keys keys rfl

end UDepot.Memcache
