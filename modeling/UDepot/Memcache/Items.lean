import UDepot.Memcache.Clients

/-!
# What a command does to the items

An item is data with flags and an expiry, kept in the store as one value.  A command that runs alone
calls a store whose values only it changes, while the collector gives keys new versions until it is
done; it ends, with the items and the replies that `Command.outcome` says (`Command.leaves`).
-/

namespace UDepot.Memcache

open Interaction

/-! ### Items -/

structure Item where
  data : Bytes
  flags : UInt32
  expiry : Int64
  deriving DecidableEq, Repr

/-- The value that is stored for an item. -/
def Item.stored (item : Item) : Bytes := item.data ++ encodeMetadata item.expiry item.flags

def itemOf (stored : Bytes) : Item :=
  ⟨userData stored, (decodeMetadata stored).2, (decodeMetadata stored).1⟩

theorem itemOf_stored (item : Item) : itemOf item.stored = item := by
  rw [itemOf, Item.stored, userData_append, decodeMetadata_append]

theorem Item.length_stored (item : Item) : item.stored.length = item.data.length + kMetaSize := by
  rw [stored, List.length_append, length_encodeMetadata]

/-- What `is_expired` says at a time. -/
def Expired (now expiry : Int64) : Prop := expiry ≠ 0 ∧ expiry ≤ now

instance (now expiry : Int64) : Decidable (Expired now expiry) :=
  inferInstanceAs (Decidable (expiry ≠ 0 ∧ expiry ≤ now))

/-- The item a client sees at a time in what is stored for a key. -/
def visible (now : Int64) (stored : Option Bytes) : Option Item :=
  ((stored.filter fun x => kMetaSize ≤ x.length).map itemOf).filter fun item =>
    ¬ Expired now item.expiry

theorem visible_stored (now : Int64) (item : Item) :
    visible now (some item.stored) = if Expired now item.expiry then none else some item := by
  rw [visible, Option.filter_some, if_pos (by simp [Item.length_stored]), Option.map_some,
    itemOf_stored, Option.filter_some]
  simp

/-- What `resolve_expiry` makes of an exptime at a time. -/
def resolvedExpiry (now : Int64) (exptime : UInt64) : Int64 :=
  if exptime = 0 then 0
  else if exptime.toInt64 ≤ kRealtimeMaxdelta then now + exptime.toInt64
  else exptime.toInt64

/-! ### A command that runs alone -/

def EINVAL : Int := 22

/-- What a command meets: the time, and the versions of the keys, which the collector changes until
it is done. -/
structure World where
  geo : Geometry
  now : Int64
  version : Nat → Bytes → Nat
  past : Bytes
  settled : Nat
  settles : ∀ {n key}, settled ≤ n → version n key = version settled key

/-- The values of the store, the calls of the store so far, the replies and the bytes stored. -/
structure Scene where
  items : Bytes → Option Bytes
  calls : Nat
  replies : List Bytes
  bytesStored : Nat

/-- A scene after a call of the store. -/
def Scene.called (s : Scene) (items : Bytes → Option Bytes) : Scene :=
  { s with items := items, calls := s.calls + 1 }

namespace World

variable (w : World) (s : Scene)

def versionOf (key : Bytes) : Option Nat := (s.items key).map fun _ => w.version s.calls key

def putRc (key value : Bytes) (mode : PutMode) (ifVersion : Option Nat) : Int :=
  if w.geo.checkSizes key.length value.length then
    errno ((OpKind.put mode ifVersion value).answer (w.versionOf s key))
  else -EINVAL

def delRc (key : Bytes) (ifVersion : Option Nat) : Int :=
  errno ((OpKind.del ifVersion).answer (w.versionOf s key))

/-- The answer to a query, and what it does. -/
def handle : (q : Query) → q.Answer × Scene
  | .get key =>
      match s.items key with
      | some x => ((0, x, w.version s.calls key), s.called s.items)
      | none => ((-ENOENT, [], 0), s.called s.items)
  | .put key value mode ifVersion =>
      let rc := w.putRc s key value mode ifVersion
      (rc, s.called (if rc = 0 then Function.update s.items key (some value) else s.items))
  | .del key ifVersion =>
      let rc := w.delRc s key ifVersion
      (rc, s.called (if rc = 0 then Function.update s.items key none else s.items))
  | .time => (w.now, s)
  | .send text => ((), { s with replies := s.replies ++ [text] })
  | .addBytesStored n => ((), { s with bytesStored := s.bytesStored + n })
  | .bytesStored => (s.bytesStored, s)
  | .pastHeader _ => (w.past, s)
  | .running => (true, s)

/-- What clients see of the values of a store. -/
def view (items : Bytes → Option Bytes) : Bytes → Option Item :=
  fun key => visible w.now (items key)

/-- A thread that runs alone ends, and leaves the items that clients see and the replies. -/
def Leaves (t : Thread Query.Answer) (s : Scene) (out : (Bytes → Option Item) × List Bytes) :
    Prop :=
  ∃ s', t.Ends w.handle s s' ∧ w.view s'.items = out.1 ∧ s'.replies = s.replies ++ out.2

end World

/-! ### What commands leave -/

/-- The replies of a command that sends one unless it was told to send none. -/
def told (noreply : Bool) (text : Bytes) : List Bytes := if noreply then [] else [text]

def kTooLarge : Bytes := ascii "SERVER_ERROR object too large for cache\r\n"

def kNonNumeric : Bytes := ascii "CLIENT_ERROR cannot increment or decrement non-numeric value\r\n"

/-- The replies for a key of a get. -/
def valueReplies (past : Bytes) (key : Bytes) : Option Item → List Bytes
  | none => []
  | some item =>
      let text := valueHeader key item.flags item.data.length
      (if text.length < 512 then text else text.take 511 ++ 0 :: past)
        :: (if 0 < item.data.length then [item.data] else []) ++ [kCRLF]

section

variable (w : World) (items : Bytes → Option Bytes)

/-- A put that is allowed stores its value, if its size is. -/
def putOutcome (key value : Bytes) (allowed noreply : Bool) : (Bytes → Option Item) × List Bytes :=
  if w.geo.checkSizes key.length value.length ∧ allowed then
    (Function.update (w.view items) key (visible w.now (some value)), told noreply kStored)
  else (w.view items, told noreply kNotStored)

/-- An append or a prepend. -/
def mergeOutcome (req : ReqType) (key value : Bytes) (expiry : Int64) (flags : UInt32)
    (noreply : Bool) : (Bytes → Option Item) × List Bytes :=
  match items key with
  | none => (w.view items, told noreply kNotStored)
  | some x =>
      if x.length < kMetaSize then (w.view items, told noreply kServerError)
      else if kMaxValueLen < (userData x).length + value.length then
        (w.view items, told noreply kTooLarge)
      else putOutcome w items key (mergedValue req (userData x) value expiry flags) true noreply

def arithmeticOutcome (key : Bytes) (delta : Nat) (isIncr noreply : Bool) :
    (Bytes → Option Item) × List Bytes :=
  match w.view items key with
  | none => (w.view items, told noreply kNotFound)
  | some item =>
      match fromChars (2 ^ 64) item.data with
      | none => (w.view items, told noreply kNonNumeric)
      | some (num, _) =>
          let data := toChars (arithmetic isIncr num delta)
          if w.geo.checkSizes key.length (data.length + kMetaSize) then
            (Function.update (w.view items) key (some { item with data := data }),
              told noreply (data ++ kCRLF))
          else (w.view items, told noreply kServerError)

/-- What a command that runs alone leaves of the values of a store. -/
def Command.outcome : Command → (Bytes → Option Item) × List Bytes
  | .store req key flags exptime value noreply =>
      let expiry := resolvedExpiry w.now exptime
      let stored := value ++ encodeMetadata expiry flags
      match req with
      | .set => putOutcome w items key stored true noreply
      | .add => putOutcome w items key stored (items key).isNone noreply
      | .replace => putOutcome w items key stored (items key).isSome noreply
      | .append | .prepend => mergeOutcome w items req key value expiry flags noreply
      | _ => (w.view items, told noreply kNotStored)
  | .arithmetic key delta isIncr noreply => arithmeticOutcome w items key delta isIncr noreply
  | .delete key noreply =>
      (Function.update (w.view items) key none,
        told noreply (if (items key).isSome then kDeleted else kNotFound))
  | .get keys =>
      (w.view items, keys.flatMap (fun key => valueReplies w.past key (w.view items key)) ++ [kEnd])

end

namespace World

variable {w : World} {s : Scene} {head : Handler Unit} {out : (Bytes → Option Item) × List Bytes}

theorem view_update (w : World) (items : Bytes → Option Bytes) (key : Bytes) (x : Option Bytes) :
    w.view (Function.update items key x)
      = Function.update (w.view items) key (visible w.now x) := by
  funext k
  by_cases hk : k = key
  · subst hk
    rw [view, Function.update_self, Function.update_self]
  · rw [view, Function.update_of_ne hk, Function.update_of_ne hk]
    rfl

theorem Leaves.unique
    {t : Thread Query.Answer} {out' : (Bytes → Option Item) × List Bytes}
    (h : w.Leaves t s out) (h' : w.Leaves t s out') :
  out = out'
  := by
  obtain ⟨s₁, hends, hview, hreplies⟩ := h
  obtain ⟨s₂, hends', hview', hreplies'⟩ := h'
  obtain rfl := hends.unique hends'
  ext1
  · rw [← hview, hview']
  · apply List.append_cancel_left
    rw [← hreplies, hreplies']

theorem Leaves.done : w.Leaves ⟨head, .ret ()⟩ s (w.view s.items, []) :=
  ⟨s, .done, rfl, (List.append_nil _).symm⟩

/-- A query that sends nothing. -/
theorem Leaves.ask
    {q : Query} {k : q.Answer → Handler Unit} (hsent : (w.handle s q).2.replies = s.replies)
    (h : w.Leaves ⟨head, k (w.handle s q).1⟩ (w.handle s q).2 out) :
  w.Leaves ⟨head, .ask q k⟩ s out
  := by
  obtain ⟨s', hends, hview, hreplies⟩ := h
  exact ⟨s', hends.ask, hview, by rw [hreplies, hsent]⟩

theorem Leaves.send
    {text : Bytes} {k : Unit → Handler Unit} {view : Bytes → Option Item} {replies : List Bytes}
    (h : ∀ s', s'.items = s.items → w.Leaves ⟨head, k ()⟩ s' (view, replies)) :
  w.Leaves ⟨head, .ask (.send text) k⟩ s (view, text :: replies)
  := by
  obtain ⟨s', hends, hview, hreplies⟩ := h { s with replies := s.replies ++ [text] } rfl
  exact ⟨s', hends.ask, hview, by rw [hreplies, List.append_assoc]; rfl⟩

/-- A loop that starts over only while the collector is not done. -/
theorem Leaves.loop
    {body : Handler Unit}
    (h : ∀ {head s'}, s'.items = s.items → s'.replies = s.replies →
      (∀ s'', s''.items = s'.items → s''.replies = s'.replies → s'.calls < w.settled →
        s'.calls < s''.calls → w.Leaves ⟨head, head⟩ s'' out) →
      w.Leaves ⟨head, body⟩ s' out) :
  w.Leaves ⟨head, .loop body⟩ s out
  := by
  have hbody : ∀ n s', w.settled - s'.calls = n → s'.items = s.items → s'.replies = s.replies →
      w.Leaves ⟨body, body⟩ s' out := by
    intro n
    induction n using Nat.strong_induction_on with
    | _ n ih =>
        intro s' hn hitems hreplies
        apply h hitems hreplies
        intro s'' hitems' hreplies' hlt hlater
        exact ih _ (by omega) s'' rfl (hitems'.trans hitems) (hreplies'.trans hreplies)
  obtain ⟨s', hends, hout⟩ := hbody _ s rfl rfl rfl
  exact ⟨s', hends.loop, hout⟩

theorem Leaves.again
    (h : w.Leaves ⟨head, head⟩ s out) :
  w.Leaves ⟨head, .again⟩ s out
  := by
  obtain ⟨s', hends, hout⟩ := h
  exact ⟨s', hends.again, hout⟩

theorem Leaves.reply (noreply : Bool) (text : Bytes) :
    w.Leaves ⟨head, Memcache.reply noreply text⟩ s (w.view s.items, told noreply text) := by
  cases noreply with
  | true => exact Leaves.done
  | false =>
      apply Leaves.send
      intro s' hitems
      rw [← hitems]
      exact Leaves.done

theorem Leaves.resolveExpiry
    {exptime : UInt64} {k : Int64 → Handler Unit}
    (h : w.Leaves ⟨head, k (resolvedExpiry w.now exptime)⟩ s out) :
  w.Leaves ⟨head, resolveExpiry exptime >>= k⟩ s out
  := by
  rw [resolvedExpiry] at h
  rw [Memcache.resolveExpiry]
  split at h
  · rename_i hzero
    rw [if_pos hzero]
    exact h
  · rename_i hzero
    rw [if_neg hzero]
    apply Leaves.ask rfl
    change w.Leaves ⟨head, Prog.bind (if exptime.toInt64 ≤ kRealtimeMaxdelta then _ else _) k⟩ s out
    split
    · rename_i hle
      rw [if_pos hle] at h
      exact h
    · rename_i hle
      rw [if_neg hle] at h
      exact h

theorem Leaves.isExpired
    {expiry : Int64} {k : Bool → Handler Unit}
    (h : w.Leaves ⟨head, k (decide (Expired w.now expiry))⟩ s out) :
  w.Leaves ⟨head, isExpired expiry >>= k⟩ s out
  := by
  rw [Memcache.isExpired]
  split
  · rename_i hzero
    rw [decide_eq_false fun hexp => hexp.1 hzero] at h
    exact h
  · rename_i hzero
    apply Leaves.ask rfl
    rwa [show decide (Expired w.now expiry) = decide (expiry ≤ w.now) from
      decide_eq_decide.mpr ⟨fun hexp => hexp.2, fun hle => ⟨hzero, hle⟩⟩] at h

/-! ### Storage commands -/

/-- The reply to a put that returned a code. -/
theorem Leaves.storeReply (noreply : Bool) (valueLen : Nat) (rc : Int) :
    w.Leaves ⟨head, storeReply noreply valueLen rc⟩ s (w.view s.items,
      told noreply
        (if rc = 0 then kStored else if rc = -E2BIG then kTooLarge else kNotStored)) := by
  rw [Memcache.storeReply]
  split
  · cases noreply with
    | true => exact Leaves.ask rfl Leaves.done
    | false =>
        apply Leaves.send
        intro s' hitems
        rw [← hitems]
        exact Leaves.ask rfl Leaves.done
  · split
    · apply Leaves.reply
    · apply Leaves.reply

theorem putRc_ne_tooLarge (key value : Bytes) (mode : PutMode) (ifVersion : Option Nat) :
    w.putRc s key value mode ifVersion ≠ -E2BIG := by
  rw [putRc]
  split
  · generalize OpKind.answer _ _ = rc
    cases rc <;> decide
  · decide

/-- The answer to a put that asks for nothing but the mode. -/
theorem putRc_plain
    (key value : Bytes) (mode : PutMode) :
  w.putRc s key value mode none = 0 ↔ w.geo.checkSizes key.length value.length = true
    ∧ (match mode with
      | .upsert => true
      | .create => (s.items key).isNone
      | .replace => (s.items key).isSome) = true
  := by
  rw [putRc]
  split
  · rename_i hsizes
    rw [errno_eq_zero, versionOf]
    cases hx : s.items key <;> cases mode <;>
      simp [hsizes, OpKind.answer, OpKind.needsKey, OpKind.creates, OpKind.ifVersion]
  · rename_i hsizes
    simp [hsizes, EINVAL]

/-- The answer to a put of a version that was read. -/
theorem putRc_replace
    {key x : Bytes} (hx : s.items key = some x) (value : Bytes) (version : Nat) :
  w.putRc s key value .replace (some version)
    = if w.geo.checkSizes key.length value.length then
        if w.version s.calls key = version then 0 else -ESTALE
      else -EINVAL
  := by
  rw [putRc, versionOf, hx]
  by_cases hv : w.version s.calls key = version
  · simp [OpKind.answer, OpKind.creates, OpKind.ifVersion, hv, errno]
  · simp [OpKind.answer, OpKind.creates, OpKind.ifVersion, hv, errno]

/-- A put of the version that was read last is answered as one that asks for no version, or starts
over because the collector is not done. -/
theorem Leaves.put_read
    {key x : Bytes} (hx : s.items key = some x) {value : Bytes} {k : Int → Handler Unit}
    (hstale : k (-ESTALE) = .again)
    (hagain : ∀ s', s'.items = s.items → s'.replies = s.replies → s.calls < w.settled →
      s.calls < s'.calls → w.Leaves ⟨head, head⟩ s' out)
    (hok : w.geo.checkSizes key.length value.length = true → ∀ {s'},
      s'.items = Function.update s.items key (some value) → s'.replies = s.replies →
      w.Leaves ⟨head, k 0⟩ s' out)
    (hrefused : w.geo.checkSizes key.length value.length = false → ∀ {s'},
      s'.items = s.items → s'.replies = s.replies → w.Leaves ⟨head, k (-EINVAL)⟩ s' out) :
  w.Leaves ⟨head, .ask (.put key value .replace (some (w.version s.calls key))) k⟩
    (s.called s.items) out
  := by
  have hrc := putRc_replace (w := w) (s := s.called s.items) hx value (w.version s.calls key)
  have hk := congrArg k hrc
  apply Leaves.ask rfl
  change w.Leaves ⟨head, k (w.putRc (s.called s.items) key value .replace _)⟩ _ out
  rw [hk]
  cases hsizes : w.geo.checkSizes key.length value.length with
  | false =>
      rw [hsizes, if_neg Bool.false_ne_true] at hrc
      rw [if_neg Bool.false_ne_true]
      apply hrefused hsizes
      · simp only [handle, hrc]
        rfl
      · rfl
  | true =>
      rw [hsizes, if_pos rfl] at hrc
      rw [if_pos rfl]
      by_cases hv : w.version (s.calls + 1) key = w.version s.calls key
      · rw [Scene.called, if_pos hv] at hrc
        rw [Scene.called, if_pos hv]
        apply hok hsizes
        · simp only [handle, hrc]
          rfl
        · rfl
      · rw [Scene.called, if_neg hv] at hrc
        rw [Scene.called, if_neg hv, hstale]
        apply Leaves.again
        apply hagain
        · simp only [handle, hrc]
          rfl
        · rfl
        · by_contra hdone
          rw [Nat.not_lt] at hdone
          exact hv ((w.settles (Nat.le_succ_of_le hdone)).trans (w.settles hdone).symm)
        · exact Nat.lt_add_of_pos_right (by decide : 0 < 2)

theorem Leaves.get
    {key x : Bytes} (hx : s.items key = some x) {k : Int × Bytes × Nat → Handler Unit}
    (h : w.Leaves ⟨head, k (0, x, w.version s.calls key)⟩ (s.called s.items) out) :
  w.Leaves ⟨head, Memcache.ask (.get key) >>= k⟩ s out
  := by
  have hget : w.handle s (.get key) = ((0, x, w.version s.calls key), s.called s.items) := by
    rw [handle, hx]
  apply Leaves.ask (by rw [hget]; rfl)
  rw [hget]
  exact h

theorem Leaves.get_absent
    {key : Bytes} (hx : s.items key = none) {k : Int × Bytes × Nat → Handler Unit}
    (h : w.Leaves ⟨head, k (-ENOENT, [], 0)⟩ (s.called s.items) out) :
  w.Leaves ⟨head, Memcache.ask (.get key) >>= k⟩ s out
  := by
  have hget : w.handle s (.get key) = ((-ENOENT, [], 0), s.called s.items) := by
    rw [handle, hx]
  apply Leaves.ask (by rw [hget]; rfl)
  rw [hget]
  exact h

theorem leaves_put
    {key value : Bytes} {mode : PutMode} {allowed : Bool}
    (hallowed : (match mode with
      | .upsert => true
      | .create => (s.items key).isNone
      | .replace => (s.items key).isSome) = allowed) (noreply : Bool) (valueLen : Nat) :
  w.Leaves ⟨head, ask (.put key value mode none) >>= storeReply noreply valueLen⟩ s
    (putOutcome w s.items key value allowed noreply)
  := by
  have hok := putRc_plain (w := w) (s := s) key value mode
  rw [hallowed] at hok
  apply Leaves.ask rfl
  have h : w.Leaves ⟨head, storeReply noreply valueLen (w.putRc s key value mode none)⟩
      (w.handle s (.put key value mode none)).2 _ := Leaves.storeReply ..
  rw [if_neg (putRc_ne_tooLarge key value mode none)] at h
  simp only [handle, Scene.called] at h ⊢
  rw [putOutcome]
  by_cases hrc : w.putRc s key value mode none = 0
  · rw [if_pos hrc, if_pos hrc, view_update] at h
    rw [if_pos (hok.mp hrc), if_pos hrc]
    exact h
  · rw [if_neg hrc, if_neg hrc] at h
    rw [if_neg (mt hok.mpr hrc), if_neg hrc]
    exact h

theorem leaves_mergeLoop
    (req : ReqType) (key value : Bytes) (expiry : Int64) (flags : UInt32) (noreply : Bool) :
  w.Leaves ⟨head, mergeLoop req key value expiry flags noreply⟩ s
    (mergeOutcome w s.items req key value expiry flags noreply)
  := by
  rw [mergeOutcome]
  cases hx : s.items key with
  | none =>
      apply Leaves.loop
      intro head s' hitems _ _
      rw [← hitems] at hx ⊢
      apply Leaves.get_absent hx
      apply Leaves.reply
  | some x =>
      simp only
      split
      · rename_i hshort
        apply Leaves.loop
        intro head s' hitems _ _
        rw [← hitems] at hx ⊢
        apply Leaves.get hx
        simp only [ne_eq, not_true_eq_false, if_false, hshort, if_true]
        apply Leaves.reply
      · rename_i hlong
        split
        · rename_i hlarge
          apply Leaves.loop
          intro head s' hitems _ _
          rw [← hitems] at hx ⊢
          apply Leaves.get hx
          simp only [ne_eq, not_true_eq_false, if_false, hlong, hlarge, if_true]
          apply Leaves.storeReply
        · rename_i hlarge
          apply Leaves.loop
          intro head s' hitems _ hagain
          rw [← hitems] at hx hagain ⊢
          apply Leaves.get hx
          simp only [ne_eq, not_true_eq_false, if_false, hlong, hlarge]
          apply Leaves.put_read hx rfl hagain
          · intro hsizes s'' hput _
            rw [putOutcome, if_pos ⟨hsizes, rfl⟩, ← view_update, ← hput]
            exact Leaves.storeReply noreply value.length 0
          · intro hsizes s'' hput _
            rw [putOutcome, if_neg (by simp [hsizes]), ← hput]
            exact Leaves.storeReply noreply value.length (-EINVAL)

theorem leaves_handleStore
    (req : ReqType) (key : Bytes) (flags : UInt32) (exptime : UInt64) (value : Bytes)
    (noreply : Bool) :
  w.Leaves ⟨head, handleStore req key flags exptime value noreply⟩ s
    ((Command.store req key flags exptime value noreply).outcome w s.items)
  := by
  apply Leaves.resolveExpiry
  cases req with
  | set | add | replace => exact leaves_put rfl noreply value.length
  | append | prepend => apply leaves_mergeLoop
  | _ => exact Leaves.storeReply noreply value.length (-1)

/-! ### The other commands -/

theorem visible_of_length_lt {now : Int64} {x : Bytes} (h : x.length < kMetaSize) :
    visible now (some x) = none := by
  rw [visible, Option.filter_some, if_neg (by simpa using h)]
  rfl

theorem visible_of_length_le {now : Int64} {x : Bytes} (h : ¬ x.length < kMetaSize) :
    visible now (some x) = if Expired now (decodeMetadata x).1 then none else some (itemOf x) := by
  rw [visible, Option.filter_some, if_pos (by simpa using h), Option.map_some, Option.filter_some]
  by_cases hexp : Expired now (decodeMetadata x).1
  · simp [itemOf, hexp]
  · simp [itemOf, hexp]

/-- The removal of a value that is not seen. -/
theorem Leaves.del_unseen
    {key x : Bytes} (hx : s.items key = some x) (hexp : visible w.now (some x) = none)
    {ifVersion : Option Nat} {k : Int → Handler Unit}
    (h : ∀ {rc s'}, w.view s'.items = w.view s.items → s'.replies = s.replies →
      w.Leaves ⟨head, k rc⟩ s' out) :
  w.Leaves ⟨head, .ask (.del key ifVersion) k⟩ s out
  := by
  apply Leaves.ask rfl
  apply h
  · simp only [handle, Scene.called]
    split
    · rw [view_update, Function.update_eq_self_iff, view, hx, hexp]
      rfl
    · rfl
  · rfl

theorem leaves_handleDelete (key : Bytes) (noreply : Bool) :
    w.Leaves ⟨head, handleDelete key noreply⟩ s
      ((Command.delete key noreply).outcome w s.items) := by
  have hrc : w.delRc s key none = 0 ↔ (s.items key).isSome = true := by
    rw [delRc, errno_eq_zero, versionOf]
    cases s.items key <;> simp [OpKind.answer, OpKind.needsKey, OpKind.creates, OpKind.ifVersion]
  have hview : w.view (w.handle s (.del key none)).2.items
      = Function.update (w.view s.items) key none := by
    simp only [handle, Scene.called]
    cases hx : s.items key with
    | some x => rw [if_pos (hrc.mpr (by rw [hx]; rfl)), view_update]; rfl
    | none =>
        rw [if_neg fun h0 => by simp [hx] at hrc; exact hrc h0, eq_comm,
          Function.update_eq_self_iff, view, hx]
        rfl
  apply Leaves.ask rfl
  have h : w.Leaves ⟨head, reply noreply (if w.delRc s key none = 0 then kDeleted else kNotFound)⟩
      (w.handle s (.del key none)).2 _ := Leaves.reply ..
  rw [hview, if_congr hrc rfl rfl] at h
  change w.Leaves ⟨head, Memcache.reply noreply (if w.delRc s key none = 0 then _ else _)⟩ _ _
  rw [if_congr hrc rfl rfl]
  exact h

/-- A read of a key that takes an expired value for an absent one and removes it. -/
def readItem (key : Bytes) (absent : Handler Unit) (live : Bytes → Nat → Handler Unit) :
    Handler Unit := do
  let (rc, val, version) ← ask (.get key)
  if rc ≠ 0 ∨ val.length < kMetaSize then absent
  else do
    if ← isExpired (decodeMetadata val).1 then
      let _ ← ask (.del key (some version))
      absent
    else live val version

/-- A read goes by what is seen of the key. -/
theorem leaves_readItem
    {key : Bytes} {absent : Handler Unit} {live : Bytes → Nat → Handler Unit}
    (habsent : w.view s.items key = none → ∀ {s'}, w.view s'.items = w.view s.items →
      s'.replies = s.replies → w.Leaves ⟨head, absent⟩ s' out)
    (hlive : ∀ {x}, s.items key = some x → w.view s.items key = some (itemOf x) →
      w.Leaves ⟨head, live x (w.version s.calls key)⟩ (s.called s.items) out) :
  w.Leaves ⟨head, readItem key absent live⟩ s out
  := by
  cases hx : s.items key with
  | none =>
      have hview : w.view s.items key = none := by
        rw [view, hx]
        rfl
      apply Leaves.get_absent hx
      exact habsent hview rfl rfl
  | some x =>
      have hview : w.view s.items key = visible w.now (some x) := by rw [view, hx]
      apply Leaves.get hx
      simp only [ne_eq, not_true_eq_false, false_or]
      split
      · rename_i hshort
        rw [visible_of_length_lt hshort] at hview
        exact habsent hview rfl rfl
      · rename_i hlong
        rw [visible_of_length_le hlong] at hview
        apply Leaves.isExpired
        by_cases hexp : Expired w.now (decodeMetadata x).1
        · rw [if_pos hexp] at hview
          rw [decide_eq_true hexp, if_pos rfl]
          apply Leaves.del_unseen (s := s.called s.items) hx
          · rw [visible_of_length_le hlong, if_pos hexp]
          · intro rc s' hsame hreplies
            exact habsent hview hsame hreplies
        · rw [if_neg hexp] at hview
          rw [decide_eq_false hexp, if_neg Bool.false_ne_true]
          exact hlive hx hview

/-- An item that is seen is still seen with other data. -/
theorem view_with_data
    {items : Bytes → Option Bytes} {key x : Bytes} (hx : items key = some x)
    (hview : w.view items key = some (itemOf x)) (data : Bytes) :
  visible w.now (some (data ++ encodeMetadata (decodeMetadata x).1 (decodeMetadata x).2))
    = some { itemOf x with data := data }
  := by
  have hexp : ¬ Expired w.now (decodeMetadata x).1 := by
    rw [view, hx, visible, Option.filter_eq_some_iff] at hview
    exact of_decide_eq_true hview.2
  rw [← Item.stored.eq_def ⟨data, (decodeMetadata x).2, (decodeMetadata x).1⟩, visible_stored]
  exact if_neg hexp

/-- The end of an incr or a decr. -/
def arithmeticReply (noreply : Bool) (data : Bytes) (rc : Int) : Handler Unit :=
  if rc = -ESTALE then .again
  else if rc = -ENOENT then reply noreply kNotFound
  else if rc = 0 then reply noreply (data ++ kCRLF)
  else reply noreply kServerError

theorem handleArithmetic_eq (key : Bytes) (delta : Nat) (isIncr noreply : Bool) :
    handleArithmetic key delta isIncr noreply
      = .loop (readItem key (reply noreply kNotFound) fun val version =>
          match fromChars (2 ^ 64) (userData val) with
          | none => reply noreply kNonNumeric
          | some (num, _) =>
              let data := toChars (arithmetic isIncr num delta)
              ask (.put key (data ++ encodeMetadata (decodeMetadata val).1 (decodeMetadata val).2)
                .replace (some version)) >>= arithmeticReply noreply data) := by
  rw [handleArithmetic]
  rfl

theorem leaves_handleArithmetic (key : Bytes) (delta : Nat) (isIncr noreply : Bool) :
    w.Leaves ⟨head, handleArithmetic key delta isIncr noreply⟩ s
      (arithmeticOutcome w s.items key delta isIncr noreply) := by
  rw [handleArithmetic_eq]
  apply Leaves.loop
  intro head s' hitems _ hagain
  rw [← hitems] at hagain ⊢
  apply leaves_readItem
  · intro hnone s'' hview _
    rw [arithmeticOutcome, hnone, ← hview]
    apply Leaves.reply
  · intro x hx hview
    cases hnum : fromChars (2 ^ 64) (userData x) with
    | none =>
        have hnum' : fromChars (2 ^ 64) (itemOf x).data = none := hnum
        simp only [arithmeticOutcome, hview, hnum']
        apply Leaves.reply
    | some nr =>
        obtain ⟨num, rest⟩ := nr
        have hnum' : fromChars (2 ^ 64) (itemOf x).data = some (num, rest) := hnum
        simp only
        simp only [arithmeticOutcome, hview, hnum'] at hagain ⊢
        apply Leaves.put_read hx rfl hagain
        · intro hsizes s'' hput _
          rw [List.length_append, length_encodeMetadata] at hsizes
          rw [if_pos hsizes, ← view_with_data hx hview, ← view_update, ← hput]
          exact Leaves.reply noreply _
        · intro hsizes s'' hput _
          rw [List.length_append, length_encodeMetadata] at hsizes
          rw [if_neg (by simp [hsizes]), ← hput]
          exact Leaves.reply noreply _

theorem Leaves.sendHeader
    {text : Bytes} {k : Unit → Handler Unit} {view : Bytes → Option Item} {replies : List Bytes}
    (h : ∀ s', s'.items = s.items → w.Leaves ⟨head, k ()⟩ s' (view, replies)) :
  w.Leaves ⟨head, Memcache.sendHeader text >>= k⟩ s
    (view, (if text.length < 512 then text else text.take 511 ++ 0 :: w.past) :: replies)
  := by
  rw [Memcache.sendHeader]
  split
  · exact Leaves.send h
  · exact Leaves.ask rfl (Leaves.send h)

theorem handleGet_cons (key : Bytes) (keys : List Bytes) :
    handleGet (key :: keys) = readItem key (handleGet keys) (fun val _ => do
      sendHeader (valueHeader key (itemOf val).flags (itemOf val).data.length)
      if 0 < (itemOf val).data.length then send (itemOf val).data
      send kCRLF
      handleGet keys) := by
  rw [handleGet]
  rfl

theorem leaves_handleGet (keys : List Bytes) :
    w.Leaves ⟨head, handleGet keys⟩ s ((Command.get keys).outcome w s.items) := by
  induction keys generalizing s with
  | nil =>
      apply Leaves.send
      intro s' hitems
      rw [← hitems]
      exact Leaves.done
  | cons key keys ih =>
      rw [handleGet_cons]
      apply leaves_readItem
      · intro hnone s' hview hreplies
        have h := ih (s := s')
        simp only [Command.outcome, hview] at h
        simp only [Command.outcome, List.flatMap_cons, hnone, valueReplies, List.nil_append]
        exact h
      · intro x hx hview
        simp only [Command.outcome, List.flatMap_cons, hview, valueReplies, List.cons_append]
        apply Leaves.sendHeader
        intro s₁ hs₁
        have htail : ∀ s₂, s₂.items = s.items → w.Leaves
            ⟨head, send kCRLF >>= fun _ => handleGet keys⟩ s₂
            (w.view s.items, kCRLF :: (keys.flatMap (fun key =>
              valueReplies w.past key (w.view s.items key)) ++ [kEnd])) := by
          intro s₂ hs₂
          apply Leaves.send
          intro s₃ hs₃
          rw [← hs₂, ← hs₃]
          exact ih
        split
        · apply Leaves.send
          intro s₂ hs₂
          exact htail s₂ (hs₂.trans hs₁)
        · exact htail s₁ hs₁

end World

/-- A command that runs alone ends, with its outcome. -/
theorem Command.leaves (cmd : Command) (w : World) (s : Scene) :
    w.Leaves (.start cmd.handler) s (cmd.outcome w s.items) := by
  cases cmd with
  | store => apply World.leaves_handleStore
  | arithmetic => apply World.leaves_handleArithmetic
  | delete => apply World.leaves_handleDelete
  | get => apply World.leaves_handleGet

/-- What a command that runs alone leaves is its outcome. -/
theorem Command.leaves_iff
    {cmd : Command} {w : World} {s : Scene} {out : (Bytes → Option Item) × List Bytes} :
  w.Leaves (.start cmd.handler) s out ↔ out = cmd.outcome w s.items
  := by
  constructor
  · intro h
    exact h.unique (cmd.leaves w s)
  · rintro rfl
    exact cmd.leaves w s

end UDepot.Memcache
