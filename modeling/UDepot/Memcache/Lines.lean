import UDepot.Memcache.Connection
import Mathlib.Data.List.TakeWhile

/-!
# Where command lines start

After a command line the connection reads the data block if the line was that of a storage command
it accepts, and goes on with the next command line behind it (`Framed`).  The data block of a
storage command that is refused is not read: its bytes are taken for command lines.
-/

namespace UDepot.Memcache

open Interaction Transition

/-- The bytes that are read after a command line and before the next. -/
def Phase.blockLen : Phase → Nat
  | .block a => a.nbytes + 2
  | _ => 0

/-- A command line starts where the one before it and its data block end. -/
def Follows (l l' : Nat × Bytes) : Prop := l'.1 = l.1 + l.2.length + 2 + (dispatch l.2).blockLen

/-- Where a session is after its last command line. -/
def Phase.At (ph : Phase) (pos : Nat) (l : Nat × Bytes) : Prop :=
  match ph with
  | .block a => dispatch l.2 = .block a ∧ pos = l.1 + l.2.length + 2
  | .closed => True
  | _ => pos = l.1 + l.2.length + 2 + (dispatch l.2).blockLen

structure Framed {W : Type} (s : Session W) : Prop where
  chain : s.lines.IsChain Follows
  last : ∀ {l}, s.lines.getLast? = some l → s.phase.At s.consumed.length l

section

variable {W : Type} (env : Env W) {s : Stream W}

/-- A step that reads no bytes stays where it is. -/
theorem Session.exec_at
    {s : Session W} {pos : Nat} {l : Nat × Bytes} (h : s.phase.At pos l) :
  (s.exec env).phase.At pos l
  := by
  rw [Session.exec]
  cases hph : s.phase with
  | top =>
      rw [hph] at h
      simp only
      split
      · exact h
      · trivial
  | run t =>
      rw [hph] at h
      simp only
      split <;> exact h
  | line | block | closed => exact h

/-- The line just parsed is where its phase says. -/
theorem Phase.dispatch_at (pos : Nat) (line : Bytes) :
    (dispatch line).At (pos + line.length + 2) (pos, line) := by
  cases hd : dispatch line with
  | block a => exact ⟨hd, rfl⟩
  | closed => trivial
  | top | line | run => simp only [Phase.At, hd, Phase.blockLen]

theorem Framed.takeLine
    {s : Session W} (h : Framed s) (hph : s.phase = .line) {line bs : Bytes}
    (hlen : bs.length = line.length + 2) :
  Framed (s.takeLine line bs)
  := by
  constructor
  · simp only [Session.takeLine]
    apply List.isChain_append.mpr ⟨h.chain, List.isChain_singleton _, ?_⟩
    intro l hl l' hl'
    cases hl'
    have hlast := h.last hl
    rw [hph] at hlast
    exact hlast
  · intro l hl
    simp only [Session.takeLine, List.getLast?_append, List.getLast?_singleton, Option.some_or,
      Option.some.injEq] at hl
    subst hl
    simp only [Session.takeLine, List.length_append, hlen, ← Nat.add_assoc]
    apply Phase.dispatch_at

theorem Framed.takeBlock
    {s : Session W} (h : Framed s) {a : StoreArgs} (hph : s.phase = .block a) {value bs : Bytes}
    (hlen : bs.length = a.nbytes + 2) :
  Framed (s.takeBlock a value bs)
  := by
  use h.chain
  intro l hl
  have hlast := h.last hl
  rw [hph] at hlast
  simp only [Session.takeBlock, Phase.handle, Phase.At, List.length_append, hlast.2, hlast.1, hlen,
    Phase.blockLen]

theorem Framed.step (h : Framed s.toSession) : Framed (s.step env).toSession := by
  rw [Stream.step]
  cases hph : s.phase with
  | line =>
      simp only
      split
      · exact ⟨h.chain, fun _ => trivial⟩
      · rename_i i hi
        have hle := crlfAt_lt hi
        apply h.takeLine hph
        simp only [List.length_take]
        omega
  | block a =>
      simp only
      split
      · exact ⟨h.chain, fun _ => trivial⟩
      · apply h.takeBlock hph
        simp only [List.length_take]
        omega
  | top | run | closed =>
      simp only
      obtain ⟨hconsumed, hlines, -⟩ := s.exec_kept env
      constructor
      · rw [hlines]
        apply h.chain
      · intro l hl
        rw [hlines] at hl
        rw [hconsumed]
        apply Session.exec_at env (h.last hl)

/-- The command lines of a connection follow each other. -/
theorem Conn.framed
    (w : W) {cs : List Bytes} (hcs : ∀ c ∈ cs, c ≠ []) (n : Nat) :
  Framed (Conn.after env w cs n).toSession
  := by
  obtain ⟨m, hm⟩ := (Conn.stutters env).forth (Conn.start_ok (w := w) hcs) n
  have hstream : ∀ m, Framed ((Stream.step env)^[m] (Conn.start w cs).abs).toSession := by
    intro m
    induction m with
    | zero => exact ⟨List.isChain_nil, nofun⟩
    | succ m ih =>
        rw [Function.iterate_succ_apply']
        apply ih.step
  have hsame : (Conn.after env w cs n).toSession = _ := congrArg Stream.toSession hm
  rw [hsame]
  apply hstream

end

/-! ### Storage commands -/

def isStorage (req : ReqType) : Bool :=
  req matches .set | .add | .replace | .append | .prepend | .cas

/-- The token is the number `n` in decimal digits. -/
def IsNumber (token : Bytes) (n : Nat) : Prop :=
  token ≠ [] ∧ (∀ c ∈ token, isDigit c = true) ∧ decimal token = n

instance (token : Bytes) (n : Nat) : Decidable (IsNumber token n) :=
  inferInstanceAs (Decidable (_ ∧ _ ∧ _))

/-- The line is that of a storage command whose data block has `n` bytes. -/
def StorageLine (line : Bytes) (n : Nat) : Prop :=
  (∃ cmd ∈ (tokenize line)[0]?, isStorage (parseCommand (cmd.map tolower)) = true)
    ∧ ∃ bytes ∈ (tokenize line)[4]?, IsNumber bytes n

instance (line : Bytes) (n : Nat) : Decidable (StorageLine line n) :=
  inferInstanceAs (Decidable (_ ∧ _))

/-- The command line is not a cas, its key is not too long, its flags and its expiry time are
numbers of their types, and its data block is not too large. -/
structure Accepted (line : Bytes) (n : Nat) : Prop where
  cmd : ∃ cmd ∈ (tokenize line)[0]?, parseCommand (cmd.map tolower) ≠ .cas
  key : ∃ key ∈ (tokenize line)[1]?, key.length ≤ kMaxKeyLen
  flags : ∃ flags ∈ (tokenize line)[2]?, (parseU32 flags).isSome = true
  exptime : ∃ exptime ∈ (tokenize line)[3]?, (parseU64 exptime).isSome = true
  small : n ≤ kMaxValueLen

theorem IsNumber.parseUnsigned
    {token : Bytes} {n : Nat} (h : IsNumber token n) (size : Nat) :
  parseUnsigned size token = if n < size then some n else none
  := by
  obtain ⟨hne, hdigits, rfl⟩ := h
  have htake : token.takeWhile isDigit = token := List.takeWhile_eq_self_iff.mpr hdigits
  have hdrop : token.dropWhile isDigit = [] := List.dropWhile_eq_nil_iff.mpr hdigits
  rw [Memcache.parseUnsigned, fromChars]
  simp only [htake, hdrop, hne, false_or]
  by_cases hlt : decimal token < size
  · rw [if_neg (Nat.not_le.mpr hlt), if_pos hlt]
  · rw [if_pos (Nat.not_lt.mp hlt), if_neg hlt]

/-- The block that is read after the line of a storage command other than cas. -/
theorem storageCommand_blockLen
    (req : ReqType) {cmd key flags exptime bytes : Bytes} {rest : List Bytes} {n : Nat}
    (hnum : IsNumber bytes n) :
  (Phase.storage (storageCommand req (cmd :: key :: flags :: exptime :: bytes :: rest))).blockLen
      = n + 2
    ↔ key.length ≤ kMaxKeyLen ∧ (parseU32 flags).isSome = true ∧ (parseU64 exptime).isSome = true
      ∧ n ≤ kMaxValueLen
  := by
  have hbytes : parseU32 bytes = _ := hnum.parseUnsigned _
  rw [storageCommand, hbytes]
  by_cases hkey : kMaxKeyLen < key.length
  · simp [hkey, Phase.storage, Phase.handle, Phase.blockLen]
  cases parseU32 flags with
  | none => simp [hkey, Phase.storage, Phase.handle, Phase.blockLen]
  | some f =>
      cases parseU64 exptime with
      | none => simp [hkey, Phase.storage, Phase.handle, Phase.blockLen]
      | some e =>
          by_cases hlt : n < 2 ^ 32
          · rw [if_pos hlt]
            by_cases hlarge : kMaxValueLen < n
            · simp [hkey, hlarge, Phase.storage, Phase.handle, Phase.blockLen]
            · simp [hkey, hlarge, Phase.storage, Phase.blockLen]
              omega
          · have hlarge : ¬ n ≤ kMaxValueLen := by
              rw [kMaxValueLen]
              omega
            rw [if_neg hlt]
            simp [hkey, hlarge, Phase.storage, Phase.handle, Phase.blockLen]

/-- A line with a fifth token has five. -/
theorem tokens_of_getElem?_four {tokens : List Bytes} {bytes : Bytes}
    (h : tokens[4]? = some bytes) :
    ∃ cmd key flags exptime rest, tokens = cmd :: key :: flags :: exptime :: bytes :: rest := by
  match tokens, h with
  | cmd :: key :: flags :: exptime :: _ :: rest, h =>
      cases h
      exact ⟨cmd, key, flags, exptime, rest, rfl⟩

/-- The block that is read after a storage command's line. -/
theorem blockLen_storage
    {line : Bytes} {n : Nat} (h : StorageLine line n) :
  (dispatch line).blockLen = n + 2 ↔ Accepted line n
  := by
  obtain ⟨⟨cmd, hcmd, hreq⟩, bytes, hbytes, hnum⟩ := h
  obtain ⟨cmd', key, flags, exptime, rest, htok⟩ := tokens_of_getElem?_four hbytes
  rw [htok] at hcmd
  cases hcmd
  have haccepted : Accepted line n ↔ parseCommand (cmd.map tolower) ≠ .cas
      ∧ key.length ≤ kMaxKeyLen ∧ (parseU32 flags).isSome = true
      ∧ (parseU64 exptime).isSome = true ∧ n ≤ kMaxValueLen := by
    constructor
    · rintro ⟨hc, hk, hf, he, hn⟩
      simp only [htok, List.getElem?_cons_zero, List.getElem?_cons_succ, Option.mem_some,
        exists_eq_left'] at hc hk hf he
      exact ⟨hc, hk, hf, he, hn⟩
    · rintro ⟨hc, hk, hf, he, hn⟩
      constructor <;> simp [*]
  rw [haccepted, dispatch, htok]
  simp only
  cases hc : parseCommand (cmd.map tolower) with
  | set | add | replace | append | prepend =>
      simp only [storageCommand_blockLen _ hnum]
      simp
  | cas => simp [Phase.handle, Phase.blockLen]
  | _ =>
      rw [hc] at hreq
      cases hreq

/-- The next command line starts behind the data block just if the line of the storage command is
accepted. -/
theorem next_line_behind_block
    {W : Type} (env : Env W) (w : W) {cs : List Bytes} (hcs : ∀ c ∈ cs, c ≠ []) {steps : Nat}
    {before later : List (Nat × Bytes)} {start next n : Nat} {line line' : Bytes}
    (hlines : (Conn.after env w cs steps).lines
      = before ++ (start, line) :: (next, line') :: later)
    (hstorage : StorageLine line n) :
  next = start + line.length + 2 + (n + 2) ↔ Accepted line n
  := by
  have hchain := (Conn.framed env w hcs steps).chain
  rw [hlines] at hchain
  have hfollows : next = start + line.length + 2 + (dispatch line).blockLen :=
    (List.isChain_cons_cons.mp (List.isChain_append.mp hchain).2.1).1
  rw [← blockLen_storage hstorage, hfollows]
  omega

/-- A set whose data block is the text of a command. -/
theorem set_of_command_text :
    (Conn.after emptyEnv () [ascii "set k 0 0 8\r\ndelete k\r\nget k\r\n"] 12).lines
        = [(0, ascii "set k 0 0 8"), (23, ascii "get k")]
      ∧ Accepted (ascii "set k 0 0 8") 8 := by
  have hlines : (Conn.after emptyEnv () [ascii "set k 0 0 8\r\ndelete k\r\nget k\r\n"] 12).lines
      = [(0, ascii "set k 0 0 8"), (23, ascii "get k")] := by decide +kernel
  use hlines
  rw [← List.nil_append [_, _]] at hlines
  refine (next_line_behind_block emptyEnv () (by decide) hlines ?_).mp ?_
  · decide +kernel
  · decide

/-- A cas is refused, and its data block, the text of a command, is executed. -/
theorem cas_of_command_text :
    StorageLine (ascii "cas k 0 0 8 1") 8
      ∧ (Conn.after emptyEnv () [ascii "cas k 0 0 8 1\r\ndelete k\r\n"] 12).lines
        = [(0, ascii "cas k 0 0 8 1"), (15, ascii "delete k")]
      ∧ 15 ≠ 0 + (ascii "cas k 0 0 8 1").length + 2 + (8 + 2)
      ∧ Query.del (ascii "k") none
        ∈ (Conn.after emptyEnv () [ascii "cas k 0 0 8 1\r\ndelete k\r\n"] 12).trace := by
  refine ⟨?_, ?_, ?_, ?_⟩
  all_goals decide +kernel

end UDepot.Memcache
