import UDepot.Memcache.Commands
import UDepot.Store.Linear

/-!
# Clients of a memcache server

Any number of clients carry out commands on one store, one call of the store at a time.  The store
is a map from keys to values with versions, and answers a put or a del as such a map does
(`OpKind.answer`): a version that a key is given is one it never had.  The collector may give a key
a new version at any time.

The log records the updates in the order in which the store made them.  The value of every key is
what they make of its first value (`SysInv`).
-/

namespace UDepot.Memcache

open Interaction Transition

/-- The return code of a call of the store. -/
def errno : Rc → Int
  | .ok => 0
  | .eexist => -EEXIST
  | .enoent => -ENOENT
  | .estale => -ESTALE
  | .enospc => -ENOSPC
  | .enomem => -ENOMEM
  | .eio => - EIO

theorem errno_eq_zero {rc : Rc} : errno rc = 0 ↔ rc = .ok := by
  cases rc <;> decide

/-- A command in execution, with the replies it has sent.  `readAt` is the length of the log when it
last read. -/
structure Client where
  cmd : Command
  thread : Thread Query.Answer
  progress : Progress
  replies : List Bytes
  readAt : Nat

def Client.start (cmd : Command) : Client := ⟨cmd, .start cmd.handler, .start, [], 0⟩

def Client.Finished (c : Client) : Prop := c.thread.next = .done

structure LogEntry where
  client : Nat
  key : Bytes
  update : Update
  deriving DecidableEq, Repr

/-- The store with the versions each key has had, the clients, and the log. -/
structure System where
  store : Bytes → Option (Bytes × Nat)
  versions : Bytes → List Nat
  clients : Nat → Option Client
  log : List LogEntry

/-- What is not the clients' to decide: the time, the version the store gives, the count of bytes
stored, and what lies behind an array. -/
structure Chance where
  now : Int64
  version : Nat
  bytesStored : Nat
  past : Bytes

inductive SysAct where
  | start (i : Nat) (cmd : Command)
  | step (i : Nat) (chance : Chance)
  | move (key : Bytes) (version : Nat)

def Query.sent : Query → List Bytes
  | .send text => [text]
  | _ => []

def Query.reads : Query → Bool
  | .get _ => true
  | _ => false

namespace System

variable (s : System)

/-- The value of a key, as clients see it. -/
def value (key : Bytes) : Option Bytes := (s.store key).map fun x => userData x.1

def putRc (key value : Bytes) (mode : PutMode) (ifVersion : Option Nat) : Rc :=
  (OpKind.put mode ifVersion value).answer ((s.store key).map Prod.snd)

def delRc (key : Bytes) (ifVersion : Option Nat) : Rc :=
  (OpKind.del ifVersion).answer ((s.store key).map Prod.snd)

def answer (chance : Chance) : (q : Query) → q.Answer
  | .get key =>
      match s.store key with
      | some (x, version) => (0, x, version)
      | none => (-ENOENT, [], 0)
  | .put key value mode ifVersion => errno (s.putRc key value mode ifVersion)
  | .del key ifVersion => errno (s.delRc key ifVersion)
  | .time => chance.now
  | .send _ | .addBytesStored _ => ()
  | .bytesStored => chance.bytesStored
  | .pastHeader _ => chance.past
  | .running => true

/-- A key is given a value with a version. -/
def give (key value : Bytes) (version : Nat) : System :=
  { s with
    store := Function.update s.store key (some (value, version))
    versions := Function.update s.versions key (version :: s.versions key) }

def record (e : LogEntry) : System := { s with log := s.log ++ [e] }

/-- What a query of a client does to the store. -/
def effect (i : Nat) (cmd : Command) (chance : Chance) : Query → Option System
  | .put key value mode ifVersion =>
      if s.putRc key value mode ifVersion = .ok then
        if chance.version ∈ s.versions key then none
        else some ((s.give key value chance.version).record
          ⟨i, key, cmd.update.getD (.set (userData value))⟩)
      else some s
  | .del key ifVersion =>
      if s.delRc key ifVersion = .ok then
        some ({ s with store := Function.update s.store key none }.record
          ⟨i, key, if ifVersion.isSome then .expire else .delete⟩)
      else some s
  | _ => some s

/-- A client after a query was answered. -/
def answered (c : Client) (q : Query) (k : q.Answer → Thread Query.Answer) (a : q.Answer) :
    Client :=
  { c with
    thread := k a
    progress := c.cmd.rules.post c.progress q a
    replies := c.replies ++ q.sent
    readAt := if q.reads then s.log.length else c.readAt }

def setClient (i : Nat) (c : Client) : System :=
  { s with clients := Function.update s.clients i (some c) }

def step : SysAct → Option System
  | .start i cmd => if (s.clients i).isNone then some (s.setClient i (.start cmd)) else none
  | .step i chance =>
      (s.clients i).bind fun c =>
        match c.thread.next with
        | .done => none
        | .jump t => some (s.setClient i { c with thread := t })
        | .asks q k => (s.effect i c.cmd chance q).map fun s' =>
            s'.setClient i (s.answered c q k (s.answer chance q))
  | .move key version =>
      match s.store key with
      | some (value, _) =>
          if version ∈ s.versions key then none else some (s.give key value version)
      | none => none

/-- The updates of a key, in the order of the log. -/
def updatesOf (key : Bytes) : List Update :=
  (s.log.filter fun e => e.key = key).map LogEntry.update

/-- The entries of a client, but for the removal of expired values. -/
def entriesOf (i : Nat) : List LogEntry :=
  s.log.filter fun e => e.client = i ∧ e.update ≠ .expire

end System

/-- The value that updates make of a value, one after another. -/
def applyAll (us : List Update) (value : Option Bytes) : Option (Option Bytes) :=
  us.foldlM (fun cur u => u.apply cur) value

theorem applyAll_singleton (u : Update) (value : Option Bytes) :
    applyAll [u] value = u.apply value := by
  rw [applyAll, List.foldlM_cons]
  cases u.apply value <;> rfl

/-- The entry of a command that has made its update. -/
def Client.entry (i : Nat) (c : Client) : List LogEntry :=
  match c.cmd.key, c.cmd.update with
  | some key, some u => [⟨i, key, u⟩]
  | _, _ => []

section

variable (s₀ s : System)

/-- What holds of a client between its steps. -/
structure ClientInv (i : Nat) (c : Client) : Prop where
  obeys : c.thread.Obeys c.cmd.rules c.progress
  readAt : c.readAt ≤ s.log.length
  seen : ∀ {key x v}, c.progress.seen = some (key, x, v) → v ∈ s.versions key
    ∧ ∀ {y}, s.store key = some (y, v) → y = x ∧ ∀ e ∈ s.log.drop c.readAt, e.key ≠ key
  entries : s.entriesOf i = if c.progress.wrote then c.entry i else []
  refused : c.progress.refused = true → ∀ {data key}, c.cmd.update = some (.add data) →
    c.cmd.key = some key → s₀.value key ≠ none ∨ ∃ e ∈ s.log, e.key = key
  replies : c.cmd.update ≠ none → c.replies = [] ∧ c.progress.answered = false
    ∨ ∃ text, c.replies = [text] ∧ c.progress.answered = true
      ∧ c.cmd.success text = c.progress.wrote

/-- What holds of a system that started as `s₀`. -/
structure SysInv : Prop where
  clients : ∀ {i c}, s.clients i = some c → ClientInv s₀ s i c
  logged : ∀ {e}, e ∈ s.log → s.clients e.client ≠ none
  versions : ∀ {key x v}, s.store key = some (x, v) → v ∈ s.versions key
  fold : ∀ key, applyAll (s.updatesOf key) (s₀.value key) = some (s.value key)

/-- A step changes what the store has for a key, and logs it. -/
structure Changes (s s' : System) (key : Bytes) (es : List LogEntry) : Prop where
  log : s'.log = s.log ++ es
  keys : ∀ e ∈ es, e.key = key
  store : ∀ {k}, k ≠ key → s'.store k = s.store k
  versions : ∀ {k v}, v ∈ s.versions k → v ∈ s'.versions k
  fresh : ∀ {y v}, s'.store key = some (y, v) → v ∉ s.versions key
  clients : s'.clients = s.clients

end

section

variable {s₀ s s' : System} {key : Bytes} {es : List LogEntry} {i : Nat} {c : Client}

theorem System.entriesOf_append
    (hlog : s'.log = s.log ++ es) (i : Nat) :
  s'.entriesOf i = s.entriesOf i ++ es.filter fun e => e.client = i ∧ e.update ≠ .expire
  := by
  rw [System.entriesOf, hlog, List.filter_append]
  rfl

/-- What a client relies on is kept by what others do. -/
theorem ClientInv.of_changes
    (h : ClientInv s₀ s i c) (hch : Changes s s' key es) (hes : ∀ e ∈ es, e.client ≠ i) :
  ClientInv s₀ s' i c
  where
  obeys := h.obeys
  readAt := by
    rw [hch.log, List.length_append]
    apply Nat.le_add_right_of_le h.readAt
  seen := by
    intro k x v hseen
    obtain ⟨hv, hstore⟩ := h.seen hseen
    use hch.versions hv
    intro y hy
    have hne : k ≠ key := by
      rintro rfl
      exact hch.fresh hy hv
    obtain ⟨rfl, hnone⟩ := hstore ((hch.store hne).symm.trans hy)
    use rfl
    intro e he
    rw [hch.log, List.drop_append_of_le_length h.readAt, List.mem_append] at he
    obtain he | he := he
    · apply hnone e he
    · rw [hch.keys e he]
      exact hne.symm
  entries := by
    rw [System.entriesOf_append hch.log, h.entries, List.filter_eq_nil_iff.mpr, List.append_nil]
    intro e he hcond
    exact hes e he (of_decide_eq_true hcond).1
  refused := by
    intro hr data k hu hk
    obtain hsome | ⟨e, he, hek⟩ := h.refused hr hu hk
    · exact .inl hsome
    · exact .inr ⟨e, by rw [hch.log]; apply List.mem_append_left _ he, hek⟩
  replies := h.replies

/-- What a client knows is about the store and the log. -/
theorem ClientInv.congr
    (h : ClientInv s₀ s i c) (hstore : s'.store = s.store) (hversions : s'.versions = s.versions)
    (hlog : s'.log = s.log) :
  ClientInv s₀ s' i c
  := by
  obtain ⟨store', versions', clients', log'⟩ := s'
  subst hstore hversions hlog
  exact ⟨h.obeys, h.readAt, h.seen, h.entries, h.refused, h.replies⟩

/-- A client makes a step that leaves the store and the log. -/
theorem SysInv.setClient
    (h : SysInv s₀ s) (hc : ClientInv s₀ s i c) :
  SysInv s₀ (s.setClient i c)
  where
  clients := by
    intro j c' hj
    by_cases hij : j = i
    · subst hij
      simp only [System.setClient, Function.update_self, Option.some.injEq] at hj
      subst hj
      exact hc.congr rfl rfl rfl
    · simp only [System.setClient, Function.update_of_ne hij] at hj
      exact (h.clients hj).congr rfl rfl rfl
  logged := by
    intro e he
    by_cases hij : e.client = i
    · simp [System.setClient, hij]
    · simp only [System.setClient, Function.update_of_ne hij]
      apply h.logged he
  versions := h.versions
  fold := h.fold

/-- The log still tells the values after a change that is logged. -/
theorem Changes.fold
    (hch : Changes s s' key es) (h : SysInv s₀ s)
    (hes : applyAll (es.map LogEntry.update) (s.value key) = some (s'.value key)) (k : Bytes) :
  applyAll (s'.updatesOf k) (s₀.value k) = some (s'.value k)
  := by
  have hsplit : s'.updatesOf k
      = s.updatesOf k ++ (es.filter fun e => e.key = k).map LogEntry.update := by
    rw [System.updatesOf, hch.log, List.filter_append, List.map_append]
    rfl
  rw [hsplit, applyAll, List.foldlM_append]
  have hfold := h.fold k
  rw [applyAll] at hfold
  rw [hfold]
  by_cases hk : k = key
  · subst hk
    rw [List.filter_eq_self.mpr fun e he => decide_eq_true (hch.keys e he)]
    exact hes
  · rw [List.filter_eq_nil_iff.mpr]
    · simp only [List.map_nil, List.foldlM_nil, System.value, hch.store hk]
      rfl
    · intro e he hcond
      exact hk ((of_decide_eq_true hcond).symm.trans (hch.keys e he))

theorem Changes.stored
    (hch : Changes s s' key es) (h : SysInv s₀ s)
    (hversions : ∀ {x v}, s'.store key = some (x, v) → v ∈ s'.versions key) {k x : Bytes} {v : Nat}
    (hk : s'.store k = some (x, v)) :
  v ∈ s'.versions k
  := by
  by_cases hkey : k = key
  · subst hkey
    apply hversions hk
  · apply hch.versions
    apply h.versions
    rw [← hch.store hkey]
    apply hk

/-- A change of the store by a client. -/
theorem SysInv.changeClient
    (h : SysInv s₀ s) (hch : Changes s s' key es) (hes : ∀ e ∈ es, e.client = i)
    (hversions : ∀ {x v}, s'.store key = some (x, v) → v ∈ s'.versions key)
    (hfold : applyAll (es.map LogEntry.update) (s.value key) = some (s'.value key))
    (hc : ClientInv s₀ s' i c) :
  SysInv s₀ (s'.setClient i c)
  where
  clients := by
    intro j c' hj
    by_cases hij : j = i
    · subst hij
      simp only [System.setClient, Function.update_self, Option.some.injEq] at hj
      subst hj
      exact hc.congr rfl rfl rfl
    · simp only [System.setClient, Function.update_of_ne hij, hch.clients] at hj
      refine ClientInv.congr ((h.clients hj).of_changes hch ?_) rfl rfl rfl
      intro e he heq
      exact hij (heq.symm.trans (hes e he))
  logged := by
    intro e he
    by_cases hij : e.client = i
    · simp [System.setClient, hij]
    · simp only [System.setClient, Function.update_of_ne hij, hch.clients]
      simp only [System.setClient, hch.log, List.mem_append] at he
      obtain he | he := he
      · apply h.logged he
      · exact absurd (hes e he) hij
  versions := hch.stored h hversions
  fold := hch.fold h hfold

/-- A key is given a value with a version it never had. -/
theorem System.changes_give
    (value : Bytes) {version : Nat} (hfresh : version ∉ s.versions key) :
  Changes s (s.give key value version) key []
    ∧ ∀ {x v}, (s.give key value version).store key = some (x, v) →
      v ∈ (s.give key value version).versions key
  := by
  have hgiven : ∀ {x v}, (s.give key value version).store key = some (x, v) → version = v := by
    intro x v hx
    simp only [give, Function.update_self, Option.some.injEq, Prod.mk.injEq] at hx
    exact hx.2
  refine ⟨⟨(List.append_nil _).symm, nofun, fun hk => Function.update_of_ne hk _ _, ?_, ?_,
    rfl⟩, ?_⟩
  · intro k v hv
    by_cases hk : k = key
    · subst hk
      simp only [give, Function.update_self]
      exact List.mem_cons_of_mem _ hv
    · simpa only [give, Function.update_of_ne hk] using hv
  · intro y v hy
    rw [← hgiven hy]
    exact hfresh
  · intro x v hx
    rw [← hgiven hx]
    simp only [give, Function.update_self]
    exact List.mem_cons_self

/-- A key is removed. -/
theorem System.changes_remove (s : System) (key : Bytes) :
    Changes s { s with store := Function.update s.store key none } key [] := by
  refine ⟨(List.append_nil _).symm, nofun, fun hk => Function.update_of_ne hk _ _, fun hv => hv, ?_,
    rfl⟩
  intro y v hy
  simp at hy

theorem Changes.record
    (hch : Changes s s' key []) {e : LogEntry} (he : e.key = key) :
  Changes s (s'.record e) key [e]
  := by
  refine ⟨?_, by simpa using he, hch.store, hch.versions, hch.fresh, hch.clients⟩
  rw [System.record, hch.log, List.append_nil]

/-! ### Calls of the store -/

theorem System.putRc_ok
    {value : Bytes} {mode : PutMode} {ifVersion : Option Nat}
    (h : s.putRc key value mode ifVersion = .ok) :
  PutAllows mode (s.value key)
    ∧ ∀ {version}, ifVersion = some version → ∃ x, s.store key = some (x, version)
  := by
  rw [putRc] at h
  rw [System.value]
  cases hs : s.store key with
  | none =>
      rw [hs] at h
      cases mode <;> cases ifVersion <;>
        simp_all [OpKind.answer, OpKind.needsKey, PutAllows]
  | some xv =>
      obtain ⟨x, v⟩ := xv
      rw [hs] at h
      cases mode <;> cases ifVersion <;>
        simp_all [OpKind.answer, OpKind.creates, OpKind.ifVersion, PutAllows]

theorem System.delRc_ok
    {ifVersion : Option Nat} (h : s.delRc key ifVersion = .ok) :
  ∃ x v, s.store key = some (x, v) ∧ ∀ {version}, ifVersion = some version → version = v
  := by
  rw [delRc] at h
  cases hs : s.store key with
  | none =>
      rw [hs] at h
      simp [OpKind.answer, OpKind.needsKey] at h
  | some xv =>
      obtain ⟨x, v⟩ := xv
      rw [hs] at h
      cases ifVersion <;> simp_all [OpKind.answer, OpKind.creates, OpKind.ifVersion]

/-- A put that is refused finds what it must not find, or does not find what it must. -/
theorem System.present_of_create
    {value : Bytes} (h : s.putRc key value .create none ≠ .ok) :
  s.value key ≠ none
  := by
  rw [putRc] at h
  rw [System.value]
  cases hs : s.store key with
  | none =>
      rw [hs] at h
      simp [OpKind.answer, OpKind.needsKey] at h
  | some xv => simp

/-! ### Steps of a client -/

section

variable {q : Query} {k : q.Answer → Thread Query.Answer} {chance : Chance}
    (h : SysInv s₀ s) (hc : s.clients i = some c)

include h hc

/-- A query that leaves what the client knows. -/
theorem SysInv.silent
    (hnext : c.thread.next = .asks q k) {a : q.Answer}
    (hpost : c.cmd.rules.post c.progress q a = c.progress) (hsent : q.sent = [])
    (hreads : q.reads = false) :
  SysInv s₀ (s.setClient i (s.answered c q k a))
  := by
  have hci := h.clients hc
  have hobeys := hci.obeys.next
  rw [hnext] at hobeys
  apply h.setClient
  have hk := hobeys.2 a
  rw [hpost] at hk
  simp only [System.answered, hpost, hsent, hreads, List.append_nil, Bool.false_eq_true, if_false]
  exact ⟨hk, hci.readAt, hci.seen, hci.entries, hci.refused, hci.replies⟩

theorem SysInv.get
    {key : Bytes} {k : (Query.get key).Answer → Thread Query.Answer}
    (hnext : c.thread.next = .asks (.get key) k) :
  SysInv s₀ (s.setClient i (s.answered c (.get key) k (s.answer chance (.get key))))
  := by
  have hci := h.clients hc
  have hobeys := hci.obeys.next
  rw [hnext] at hobeys
  apply h.setClient
  refine ⟨hobeys.2 _, Nat.le_refl _, ?_, hci.entries, hci.refused, ?_⟩
  · intro key' x v hseen
    cases hs : s.store key with
    | none => simp [System.answered, System.answer, hs, Command.rules, ENOENT] at hseen
    | some xv =>
        obtain ⟨x₀, v₀⟩ := xv
        simp only [System.answered, System.answer, hs, Command.rules, if_true, Option.some.injEq,
          Prod.mk.injEq] at hseen
        obtain ⟨rfl, rfl, rfl⟩ := hseen
        use h.versions hs
        intro y hy
        cases hs.symm.trans hy
        use rfl
        intro e he
        simp [System.answered, Query.reads] at he
  · rw [show (s.answered c (.get key) k _).replies = c.replies from List.append_nil _]
    exact hci.replies

theorem SysInv.send
    {text : Bytes} {k : (Query.send text).Answer → Thread Query.Answer}
    (hnext : c.thread.next = .asks (.send text) k) :
  SysInv s₀ (s.setClient i (s.answered c (.send text) k ()))
  := by
  have hci := h.clients hc
  have hobeys := hci.obeys.next
  rw [hnext] at hobeys
  apply h.setClient
  refine ⟨hobeys.2 _, hci.readAt, hci.seen, hci.entries, hci.refused, ?_⟩
  intro hu
  obtain ⟨hsuccess, hans⟩ := hobeys.1 hu
  obtain ⟨hnone, -⟩ | ⟨text', -, hans', -⟩ := hci.replies hu
  · right
    refine ⟨text, ?_, rfl, hsuccess⟩
    simp [System.answered, Query.sent, hnone]
  · rw [hans] at hans'
    cases hans'

omit hc in
/-- A refused put of an add finds its key. -/
theorem SysInv.refused_add
    {key value : Bytes} {mode : PutMode} {ifVersion : Option Nat}
    (hmay : c.cmd.MayPut c.progress.seen key value mode ifVersion)
    (hrc : s.putRc key value mode ifVersion ≠ .ok) {data : Bytes}
    (hu : c.cmd.update = some (.add data)) :
  s₀.value key ≠ none ∨ ∃ e ∈ s.log, e.key = key
  := by
  obtain ⟨-, u, hu', hcond⟩ := hmay
  cases hu.symm.trans hu'
  -- an add puts with no version, and only for a key that is absent
  cases ifVersion with
  | some version =>
      obtain ⟨old, -, happly⟩ := hcond
      cases happly
  | none =>
      cases mode with
      | upsert => cases hcond (some []) trivial
      | replace => cases hcond (some []) nofun
      | create =>
          have hpresent := System.present_of_create hrc
          by_contra hnot
          rw [not_or, not_not] at hnot
          obtain ⟨hfirst, hlog⟩ := hnot
          have hnone : s.updatesOf key = [] := by
            rw [System.updatesOf, List.map_eq_nil_iff, List.filter_eq_nil_iff]
            intro e he hcond
            exact hlog ⟨e, he, of_decide_eq_true hcond⟩
          have hfold := h.fold key
          rw [hnone, hfirst] at hfold
          exact hpresent (Option.some.inj hfold).symm

/-- A put that is accepted stores what the update makes of the value there is. -/
theorem SysInv.put_applies
    {key value : Bytes} {mode : PutMode} {ifVersion : Option Nat}
    (hmay : c.cmd.MayPut c.progress.seen key value mode ifVersion)
    (hrc : s.putRc key value mode ifVersion = .ok) :
  ∃ u, c.cmd.update = some u ∧ u.apply (s.value key) = some (some (userData value))
  := by
  obtain ⟨-, u, hu, hcond⟩ := hmay
  obtain ⟨hallows, hversion⟩ := System.putRc_ok hrc
  refine ⟨u, hu, ?_⟩
  cases ifVersion with
  | some version =>
      obtain ⟨old, hseen, happly⟩ := hcond
      obtain ⟨x, hx⟩ := hversion rfl
      obtain ⟨rfl, -⟩ := ((h.clients hc).seen hseen).2 hx
      rw [System.value, hx]
      exact happly
  | none => exact hcond _ hallows

theorem SysInv.put
    {key value : Bytes} {mode : PutMode} {ifVersion : Option Nat}
    {k : (Query.put key value mode ifVersion).Answer → Thread Query.Answer}
    (hnext : c.thread.next = .asks (.put key value mode ifVersion) k)
    (heff : s.effect i c.cmd chance (.put key value mode ifVersion) = some s') :
  SysInv s₀ (s'.setClient i (s.answered c (.put key value mode ifVersion) k
    (s.answer chance (.put key value mode ifVersion))))
  := by
  have hci := h.clients hc
  have hobeys := hci.obeys.next
  rw [hnext] at hobeys
  obtain ⟨⟨⟨hwrote, hans⟩, hmay⟩, hk⟩ := hobeys
  have hreplies : c.cmd.update ≠ none → c.replies ++ (Query.put key value mode ifVersion).sent = []
      ∧ c.progress.answered = false := by
    intro hu
    obtain ⟨hnone, -⟩ | ⟨_, -, hans', -⟩ := hci.replies hu
    · exact ⟨by rw [hnone]; rfl, hans⟩
    · rw [hans] at hans'
      cases hans'
  have hentries := hci.entries
  rw [hwrote] at hentries
  rw [System.effect] at heff
  split at heff
  · rename_i hrc
    obtain ⟨hfresh, ⟨⟩⟩ := Option.ite_none_left_eq_some.mp heff
    obtain ⟨u, hu, happly⟩ := h.put_applies hc hmay hrc
    have hzero : decide (errno (s.putRc key value mode ifVersion) = 0) = true :=
      decide_eq_true (errno_eq_zero.mpr hrc)
    rw [hu, Option.getD_some]
    obtain ⟨hgive, hversions⟩ := System.changes_give value hfresh
    have hch := hgive.record (e := ⟨i, key, u⟩) rfl
    refine h.changeClient hch (by simp) hversions ?_ ⟨hk _, ?_, nofun, ?_, ?_, fun hu =>
      .inl (hreplies hu)⟩
    · rw [List.map_singleton, applyAll_singleton, happly]
      simp only [System.value, System.record, System.give, Function.update_self, Option.map_some]
    · rw [hch.log, List.length_append]
      exact Nat.le_add_right_of_le hci.readAt
    · rw [System.entriesOf_append hch.log, hentries]
      have hne := c.cmd.update_ne_expire hu
      simp [System.answered, Command.rules, System.answer, hzero, Client.entry, hmay.1, hu, hne]
    · intro hrefused
      simp [System.answered, Command.rules, System.answer, errno_eq_zero.mpr hrc] at hrefused
  · rename_i hrc
    cases heff
    have hzero : decide (errno (s.putRc key value mode ifVersion) = 0) = false :=
      decide_eq_false fun h0 => hrc (errno_eq_zero.mp h0)
    apply h.setClient
    refine ⟨hk _, hci.readAt, nofun, ?_, ?_, fun hu => .inl (hreplies hu)⟩
    · simp only [System.answered, Command.rules, System.answer, hzero]
      exact hentries
    · intro _ data k' hu hkey
      cases hmay.1.symm.trans hkey
      exact h.refused_add hmay hrc hu

theorem SysInv.del
    {key : Bytes} {ifVersion : Option Nat}
    {k : (Query.del key ifVersion).Answer → Thread Query.Answer}
    (hnext : c.thread.next = .asks (.del key ifVersion) k)
    (heff : s.effect i c.cmd chance (.del key ifVersion) = some s') :
  SysInv s₀ (s'.setClient i (s.answered c (.del key ifVersion) k
    (s.answer chance (.del key ifVersion))))
  := by
  have hci := h.clients hc
  have hobeys := hci.obeys.next
  rw [hnext] at hobeys
  obtain ⟨⟨⟨hwrote, hans⟩, hmay⟩, hk⟩ := hobeys
  have hreplies : c.cmd.update ≠ none → c.replies ++ (Query.del key ifVersion).sent = []
      ∧ c.progress.answered = false := by
    intro hu
    obtain ⟨hnone, -⟩ | ⟨_, -, hans', -⟩ := hci.replies hu
    · exact ⟨by rw [hnone]; rfl, hans hu⟩
    · rw [hans hu] at hans'
      cases hans'
  have hentries := hci.entries
  rw [hwrote] at hentries
  rw [System.effect] at heff
  split at heff
  · rename_i hrc
    cases heff
    obtain ⟨x, v, hstore, -⟩ := System.delRc_ok hrc
    have hzero : decide (errno (s.delRc key ifVersion) = 0) = true :=
      decide_eq_true (errno_eq_zero.mpr hrc)
    have hch := (System.changes_remove s key).record
      (e := ⟨i, key, if ifVersion.isSome then .expire else .delete⟩) rfl
    refine h.changeClient hch (by simp) ?_ ?_ ⟨hk _, ?_, nofun, ?_, ?_, fun hu =>
      .inl (hreplies hu)⟩
    · intro x v hx
      simp [System.record] at hx
    · rw [List.map_singleton, applyAll_singleton, System.value, hstore]
      simp only [System.value, System.record, Function.update_self, Option.map_none]
      cases ifVersion <;> rfl
    · rw [hch.log, List.length_append]
      exact Nat.le_add_right_of_le hci.readAt
    · rw [System.entriesOf_append hch.log, hentries]
      cases ifVersion with
      | some version =>
          simp [System.answered, Command.rules]
      | none =>
          obtain ⟨hu, hkey⟩ := hmay
          simp [System.answered, Command.rules, System.answer, hzero, Client.entry, hkey, hu]
    · intro hrefused data k' hu hkey
      obtain hsome | ⟨e, he, hek⟩ := hci.refused hrefused hu hkey
      · exact .inl hsome
      · exact .inr ⟨e, by rw [hch.log]; apply List.mem_append_left _ he, hek⟩
  · rename_i hrc
    cases heff
    have hzero : decide (errno (s.delRc key ifVersion) = 0) = false :=
      decide_eq_false fun h0 => hrc (errno_eq_zero.mp h0)
    apply h.setClient
    refine ⟨hk _, hci.readAt, nofun, ?_, hci.refused, fun hu => .inl (hreplies hu)⟩
    simp only [System.answered, Command.rules, System.answer, hzero, Bool.false_and]
    exact hentries

end

/-- A new command. -/
theorem SysInv.start
    (h : SysInv s₀ s) (hnone : s.clients i = none) (cmd : Command) :
  SysInv s₀ (s.setClient i (.start cmd))
  := by
  apply h.setClient
  refine ⟨.start cmd.handler_obeys, Nat.zero_le _, nofun, ?_, nofun, fun _ => .inl ⟨rfl, rfl⟩⟩
  rw [System.entriesOf, List.filter_eq_nil_iff.mpr]
  · rfl
  · intro e he hcond
    apply h.logged he
    rw [(of_decide_eq_true hcond).1]
    exact hnone

theorem SysInv.step
    {a : SysAct} (h : SysInv s₀ s) (hs : s.step a = some s') :
  SysInv s₀ s'
  := by
  cases a with
  | start i cmd =>
      obtain ⟨hnone, ⟨⟩⟩ := Option.ite_none_right_eq_some.mp hs
      exact h.start (Option.isNone_iff_eq_none.mp hnone) cmd
  | step i chance =>
      obtain ⟨c, hc, hs⟩ := Option.bind_eq_some_iff.mp hs
      have hobeys := (h.clients hc).obeys.next
      cases hnext : c.thread.next with
      | done =>
          rw [hnext] at hs
          cases hs
      | jump t =>
          rw [hnext] at hs hobeys
          cases hs
          have hci := h.clients hc
          apply h.setClient
          exact ⟨hobeys, hci.readAt, hci.seen, hci.entries, hci.refused, hci.replies⟩
      | asks q k =>
          rw [hnext] at hs
          obtain ⟨s₁, heff, ⟨⟩⟩ := Option.map_eq_some_iff.mp hs
          cases q with
          | put => exact h.put hc hnext heff
          | del => exact h.del hc hnext heff
          | get =>
              cases heff
              exact h.get hc hnext
          | send =>
              cases heff
              exact h.send hc hnext
          | time | addBytesStored | bytesStored | pastHeader | running =>
              cases heff
              exact h.silent hc hnext rfl rfl rfl
  | move key version =>
      rw [System.step] at hs
      split at hs
      · rename_i value v hstore
        obtain ⟨hfresh, ⟨⟩⟩ := Option.ite_none_left_eq_some.mp hs
        obtain ⟨hch, hversions⟩ := System.changes_give value hfresh
        refine ⟨fun hc => (h.clients hc).of_changes hch nofun, h.logged, hch.stored h hversions,
          hch.fold h ?_⟩
        simp only [System.value, hstore, System.give, Function.update_self]
        rfl
      · cases hs

end

/-! ### Updates are atomic -/

/-- A system before any command: the versions in the store are among those the keys have had. -/
structure System.Fresh (s : System) : Prop where
  clients : ∀ i, s.clients i = none
  log : s.log = []
  versions : ∀ {key x v}, s.store key = some (x, v) → v ∈ s.versions key

theorem System.Fresh.inv {s : System} (h : s.Fresh) : SysInv s s where
  clients := by
    intro i c hc
    rw [h.clients] at hc
    cases hc
  logged := by
    intro e he
    rw [h.log] at he
    cases he
  versions := h.versions
  fold := by
    intro key
    rw [System.updatesOf, h.log]
    rfl

/-- The updates of clients in a run from `s₀` to `s` are atomic. -/
structure Atomic (s₀ s : System) : Prop where
  /-- The value of a key is what the updates made of it, in the order of the log. -/
  fold : ∀ key, applyAll (s.updatesOf key) (s₀.value key) = some (s.value key)
  /-- A command that was answered with success is in the log once, and one that was answered
  otherwise is not in it; no command is in it twice. -/
  once : ∀ {i c}, s.clients i = some c → c.cmd.update ≠ none →
    (∀ {text}, text ∈ c.replies →
      s.entriesOf i = if c.cmd.success text then c.entry i else [])
    ∧ (s.entriesOf i = [] ∨ s.entriesOf i = c.entry i)
  /-- If a key was absent and is changed by nothing but adds, and one of them has finished, exactly
  one has stored its value, and each that has finished and wants an answer was told whether it is
  the one. -/
  adds : ∀ {key}, s₀.value key = none → (∀ e ∈ s.log, e.key = key → ∃ d, e.update = .add d) →
    ∀ {j c data}, s.clients j = some c → c.cmd.key = some key → c.cmd.update = some (.add data) →
    c.Finished → ∃ i d, (s.log.filter fun e => e.key = key) = [⟨i, key, .add d⟩]
      ∧ s.value key = some d
      ∧ (c.cmd.noreply = false → ∃ text, c.replies = [text] ∧ (text = kStored ↔ j = i))
  /-- A removal that is not a delete command's removes the value the command has read, and the key
  was not updated since. -/
  expire : ∀ {i c key ifVersion k chance s'}, s.clients i = some c →
    c.thread.next = .asks (.del key ifVersion) k → c.cmd.update ≠ some .delete →
    s.step (.step i chance) = some s' → s'.store key = s.store key
      ∨ ∃ x v, c.progress.seen = some (key, x, v) ∧ s.store key = some (x, v)
        ∧ ∀ e ∈ s.log.drop c.readAt, e.key ≠ key

/-- Adds to an absent key: only one of them is possible. -/
theorem applyAll_adds
    {es : List LogEntry} (hadds : ∀ e ∈ es, ∃ d, e.update = .add d) {value : Option Bytes}
    (h : applyAll (es.map LogEntry.update) none = some value) :
  es = [] ∨ ∃ e d, es = [e] ∧ e.update = .add d ∧ value = some d
  := by
  match es with
  | [] => exact .inl rfl
  | [e] =>
      obtain ⟨d, hd⟩ := hadds e List.mem_cons_self
      rw [List.map_singleton, applyAll_singleton, hd] at h
      cases h
      exact .inr ⟨e, d, rfl, hd, rfl⟩
  | e :: e' :: es =>
      obtain ⟨d, hd⟩ := hadds e List.mem_cons_self
      obtain ⟨d', hd'⟩ := hadds e' (List.mem_cons_of_mem _ List.mem_cons_self)
      simp only [applyAll, List.map_cons, hd, hd', List.foldlM_cons] at h
      cases h

section

variable {s₀ s : System}

theorem SysInv.once
    (h : SysInv s₀ s) {i : Nat} {c : Client} (hc : s.clients i = some c)
    (hu : c.cmd.update ≠ none) :
  (∀ {text}, text ∈ c.replies → s.entriesOf i = if c.cmd.success text then c.entry i else [])
    ∧ (s.entriesOf i = [] ∨ s.entriesOf i = c.entry i)
  := by
  have hci := h.clients hc
  constructor
  · intro text htext
    obtain ⟨hnone, -⟩ | ⟨text', heq, -, hsuccess⟩ := hci.replies hu
    · rw [hnone] at htext
      cases htext
    · rw [heq, List.mem_singleton] at htext
      subst htext
      rw [hci.entries, hsuccess]
  · rw [hci.entries]
    split
    · exact .inr rfl
    · exact .inl rfl

theorem SysInv.adds
    (h : SysInv s₀ s) {key : Bytes} (hfirst : s₀.value key = none)
    (hadds : ∀ e ∈ s.log, e.key = key → ∃ d, e.update = .add d) {j : Nat} {c : Client}
    {data : Bytes} (hc : s.clients j = some c) (hkey : c.cmd.key = some key)
    (hu : c.cmd.update = some (.add data)) (hfin : c.Finished) :
  ∃ i d, (s.log.filter fun e => e.key = key) = [⟨i, key, .add d⟩] ∧ s.value key = some d
    ∧ (c.cmd.noreply = false → ∃ text, c.replies = [text] ∧ (text = kStored ↔ j = i))
  := by
  have hci := h.clients hc
  have hend := hci.obeys.next
  rw [hfin] at hend
  obtain ⟨hanswered, hdone⟩ := hend
  have hentry : c.entry j = [⟨j, key, .add data⟩] := by simp only [Client.entry, hkey, hu]
  have hwrote : c.progress.wrote = true → (⟨j, key, .add data⟩ : LogEntry) ∈ s.log := by
    intro hw
    have hentries := hci.entries
    rw [hw, if_pos rfl, hentry] at hentries
    apply List.mem_of_mem_filter
    rw [← System.entriesOf, hentries]
    apply List.mem_singleton_self
  obtain ⟨e, he, hek⟩ : ∃ e ∈ s.log, e.key = key := by
    obtain hw | hr := hdone data hu
    · exact ⟨_, hwrote hw, rfl⟩
    · exact (hci.refused hr hu hkey).resolve_left (absurd hfirst)
  have hfold := h.fold key
  rw [hfirst] at hfold
  have hmem : ∀ {e}, e ∈ s.log → e.key = key → e ∈ s.log.filter fun e => e.key = key :=
    fun he hek => List.mem_filter.mpr ⟨he, decide_eq_true hek⟩
  obtain hnil | ⟨⟨i, key', u⟩, d, hone, hd, hvalue⟩ := applyAll_adds (by
    intro e he
    obtain ⟨he, hek⟩ := List.mem_filter.mp he
    exact hadds e he (of_decide_eq_true hek)) hfold
  · have hin := hmem he hek
    rw [hnil] at hin
    cases hin
  · have hkey' : key' = key := by
      have hin : (⟨i, key', u⟩ : LogEntry) ∈ s.log.filter fun e => e.key = key := by
        rw [hone]
        apply List.mem_singleton_self
      exact of_decide_eq_true (List.mem_filter.mp hin).2
    subst hkey'
    obtain rfl : u = .add d := hd
    refine ⟨i, d, hone, hvalue, fun hno => ?_⟩
    obtain ⟨-, hans⟩ | ⟨text, htext, -, hsuccess⟩ := hci.replies (by rw [hu]; exact nofun)
    · rw [hanswered (by rw [hu]; exact nofun) hno] at hans
      cases hans
    · refine ⟨text, htext, ?_⟩
      rw [Command.success_add hu] at hsuccess
      constructor
      · intro hstored
        rw [decide_eq_true hstored] at hsuccess
        have hin := hmem (hwrote hsuccess.symm) rfl
        rw [hone, List.mem_singleton] at hin
        exact congrArg LogEntry.client hin
      · rintro rfl
        have hin : (⟨j, key', .add d⟩ : LogEntry) ∈ s.entriesOf j := by
          have hlog := List.mem_filter.mp (hone ▸ List.mem_singleton_self _)
          exact List.mem_filter.mpr ⟨hlog.1, by simp⟩
        rw [hci.entries] at hin
        split at hin
        · rename_i hw
          rw [hw] at hsuccess
          exact of_decide_eq_true hsuccess
        · cases hin

theorem SysInv.expire
    (h : SysInv s₀ s) {i : Nat} {c : Client} {key : Bytes} {ifVersion : Option Nat}
    {k : (Query.del key ifVersion).Answer → Thread Query.Answer} {chance : Chance} {s' : System}
    (hc : s.clients i = some c) (hnext : c.thread.next = .asks (.del key ifVersion) k)
    (hu : c.cmd.update ≠ some .delete) (hs : s.step (.step i chance) = some s') :
  s'.store key = s.store key
    ∨ ∃ x v, c.progress.seen = some (key, x, v) ∧ s.store key = some (x, v)
      ∧ ∀ e ∈ s.log.drop c.readAt, e.key ≠ key
  := by
  have hci := h.clients hc
  have hobeys := hci.obeys.next
  rw [hnext] at hobeys
  obtain ⟨⟨-, hmay⟩, -⟩ := hobeys
  obtain ⟨c', hc', hs⟩ := Option.bind_eq_some_iff.mp hs
  cases hc.symm.trans hc'
  rw [hnext] at hs
  obtain ⟨s₁, heff, ⟨⟩⟩ := Option.map_eq_some_iff.mp hs
  rw [System.effect] at heff
  split at heff
  · rename_i hrc
    right
    obtain ⟨x, v, hstore, hversion⟩ := System.delRc_ok hrc
    cases ifVersion with
    | none => exact absurd hmay.1 hu
    | some version =>
        obtain ⟨-, old, hseen⟩ := hmay
        obtain rfl := hversion rfl
        obtain ⟨rfl, hnone⟩ := (hci.seen hseen).2 hstore
        exact ⟨x, version, hseen, hstore, hnone⟩
  · cases heff
    left
    rfl

/-- Updates are atomic, in every run of any number of clients and however the collector gives keys
new versions. -/
theorem updates_atomic
    (hfresh : s₀.Fresh) (hreach : Reach System.step (fun _ _ => True) s₀ s) :
  Atomic s₀ s
  := by
  have h : SysInv s₀ s := by
    apply hreach.invariant hfresh.inv
    intro s₁ a s₂ h₁ _ hs
    exact h₁.step hs
  exact ⟨h.fold, h.once, h.adds, h.expire⟩

end

/-- An empty store. -/
def System.empty : System := ⟨fun _ => none, fun _ => [], fun _ => none, []⟩

theorem System.empty_fresh : System.empty.Fresh := ⟨fun _ => rfl, rfl, nofun⟩

/-- A step of a client to which the store gives a version. -/
def stepsOf (i version n : Nat) : List SysAct :=
  List.replicate n (.step i ⟨0, version, 0, []⟩)

/-- Two adds of one key, and two increments one of which is overtaken by the other and by a new
version. -/
def counterActs : List SysAct :=
  [.start 0 (.store .add (ascii "k") 0 0 (ascii "7") false),
    .start 1 (.store .add (ascii "k") 0 0 (ascii "8") false)]
  ++ stepsOf 1 10 1 ++ stepsOf 0 11 2 ++ stepsOf 1 12 2
  ++ [.start 2 (.arithmetic (ascii "k") 5 true false),
    .start 3 (.arithmetic (ascii "k") 10 false false)]
  ++ stepsOf 2 13 2 ++ stepsOf 3 14 4 ++ [.move (ascii "k") 15] ++ stepsOf 2 16 5

def counterSystem : System := (run System.step .empty counterActs).getD .empty

theorem counterSystem_atomic :
    counterSystem.updatesOf (ascii "k") = [.add (ascii "8"), .decr 10, .incr 5]
      ∧ applyAll [.add (ascii "8"), .decr 10, .incr 5] none = some (some (ascii "5"))
      ∧ counterSystem.value (ascii "k") = some (ascii "5") := by
  have hreach : Reach System.step (fun _ _ => True) .empty counterSystem := by
    obtain ⟨s, hs⟩ := Option.isSome_iff_exists.mp
      (show (run System.step .empty counterActs).isSome = true by decide +kernel)
    rw [counterSystem, hs, Option.getD_some]
    exact Reach.of_run .refl (fun _ _ _ => trivial) hs
  have hupdates : counterSystem.updatesOf (ascii "k")
      = [.add (ascii "8"), .decr 10, .incr 5] := by decide +kernel
  have hfold := (updates_atomic System.empty_fresh hreach).fold (ascii "k")
  have hvalue : applyAll [.add (ascii "8"), .decr 10, .incr 5] none = some (some (ascii "5")) := by
    decide +kernel
  rw [hupdates, show System.empty.value (ascii "k") = none from rfl, hvalue] at hfold
  exact ⟨hupdates, hvalue, (Option.some.inj hfold).symm⟩

end UDepot.Memcache
