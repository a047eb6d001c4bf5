import UDepot.Lib.Transition
import UDepot.Memcache.Handlers
import UDepot.Memcache.RecvBuffer

/-!
# A connection of the memcache server

`serve_connection` reads a command line, then the data block if the command has one, and runs the
command's handler.  `Conn.step` is one step of it: a `recv`, the parse of a line or of a block, or a
query of the handler.

What it does is a function of the bytes alone.  `Stream.step` reads the bytes from one list, and a
connection makes the same steps besides its calls of `recv`, however these cut the list up
(`Conn.stutters`).  So two connections that are sent the same bytes behave alike
(`replies_independent_of_chunks`).
-/

namespace UDepot.Memcache

open Interaction Transition

/-! ### Command lines -/

/-- The arguments of a storage command. -/
structure StoreArgs where
  req : ReqType
  key : Bytes
  flags : UInt32
  exptime : UInt64
  nbytes : Nat
  noreply : Bool
  deriving DecidableEq, Repr

/-- The part of `serve_connection` a connection is in. -/
inductive Phase where
  | top
  | line
  | block (args : StoreArgs)
  | run (t : Thread Query.Answer)
  | closed

def Phase.handle (p : Handler Unit) : Phase := .run (.start p)

/-- A storage command goes on with its data block, or is refused. -/
def Phase.storage : Except Bytes StoreArgs → Phase
  | .ok a => .block a
  | .error msg => .handle (send msg)

def isNoreply (token : Option Bytes) : Bool := token = some (ascii "noreply")

/-- The checks of a storage command's line; a line that is refused is answered at once. -/
def storageCommand (req : ReqType) : List Bytes → Except Bytes StoreArgs
  | _ :: key :: flags :: exptime :: nbytes :: rest =>
      if kMaxKeyLen < key.length then .error (ascii "CLIENT_ERROR bad command line format\r\n")
      else
        match parseU32 flags, parseU64 exptime, parseU32 nbytes with
        | some flags, some exptime, some nbytes =>
            if kMaxValueLen < nbytes then
              .error (ascii "SERVER_ERROR object too large for cache\r\n")
            else .ok ⟨req, key, .ofNat flags, .ofNat exptime, nbytes, isNoreply rest.head?⟩
        | _, _, _ => .error kError
  | _ => .error kError

/-- What a command line leads to. -/
def dispatch (line : Bytes) : Phase :=
  match tokenize line with
  | [] => .top
  | cmd :: args =>
      let req := parseCommand (cmd.map tolower)
      match req with
      | .quit => .closed
      | .version => .handle handleVersion
      | .stats => .handle handleStats
      | .get | .gets => .handle (if args = [] then send kError else handleGet args)
      | .set | .add | .replace | .append | .prepend => .storage (storageCommand req (cmd :: args))
      | .delete =>
          match args with
          | [] => .handle (send kError)
          | key :: rest => .handle (handleDelete key (isNoreply rest.head?))
      | .incr | .decr =>
          match args with
          | key :: delta :: rest =>
              match parseU64 delta with
              | none => .handle (send kError)
              | some n => .handle (handleArithmetic key n (req = .incr) (isNoreply rest.head?))
          | _ => .handle (send kError)
      | .cas | .flushAll | .unknown => .handle (send kError)

/-! ### Sessions -/

/-- What the queries of a connection are answered by its surroundings. -/
abbrev Env (W : Type) := W → (q : Query) → q.Answer × W

/-- A connection but for where its bytes are.  `trace` is the queries made, `consumed` the bytes
parsed, and `lines` the command lines among them with the places they start at. -/
structure Session (W : Type) where
  phase : Phase
  world : W
  trace : List Query
  consumed : Bytes
  lines : List (Nat × Bytes)

variable {W : Type} (env : Env W)

namespace Session

def start (w : W) : Session W := ⟨.top, w, [], [], []⟩

def close (s : Session W) : Session W := { s with phase := .closed }

/-- A command line is parsed, and with it the bytes `bs`. -/
def takeLine (s : Session W) (line bs : Bytes) : Session W :=
  { s with
    phase := dispatch line
    consumed := s.consumed ++ bs
    lines := s.lines ++ [(s.consumed.length, line)] }

/-- A data block is parsed, and with it the bytes `bs`. -/
def takeBlock (s : Session W) (a : StoreArgs) (value bs : Bytes) : Session W :=
  { s with
    phase := .handle (handleStore a.req a.key a.flags a.exptime value a.noreply)
    consumed := s.consumed ++ bs }

/-- A step that reads no bytes. -/
def exec (s : Session W) : Session W :=
  match s.phase with
  | .top =>
      let (running, w) := env s.world .running
      { s with
        phase := if running then .line else .closed
        world := w
        trace := s.trace ++ [.running] }
  | .run t =>
      match t.next with
      | .done => { s with phase := .top }
      | .jump t' => { s with phase := .run t' }
      | .asks q k =>
          let (a, w) := env s.world q
          { s with
            phase := .run (k a)
            world := w
            trace := s.trace ++ [q] }
  | _ => s

end Session

/-! ### Connections -/

/-- A connection: its buffer, and what `recv` will deliver, in chunks. -/
structure Conn (W : Type) extends Session W where
  buf : RecvBuffer
  input : List Bytes

namespace Conn

def start (w : W) (input : List Bytes) : Conn W := ⟨.start w, .new, input⟩

/-- A `recv` with room for `n` bytes.  It delivers what is in the next chunk, or what there is room
for; when there is no more input the connection is over. -/
def recv (s : Conn W) (n : Nat) : Conn W :=
  let buf := s.buf.compact.ensureSpace n
  match s.input with
  | [] => { s with toSession := s.close, buf := buf }
  | chunk :: input =>
      if chunk.length ≤ buf.writeAvail then { s with buf := buf.receive chunk, input := input }
      else
        { s with
          buf := buf.receive (chunk.take buf.writeAvail)
          input := chunk.drop buf.writeAvail :: input }

/-- A step of `serve_connection`. -/
def step (s : Conn W) : Conn W :=
  match s.phase with
  | .line =>
      match s.buf.findCrlf with
      | none => s.recv 1024
      | some crlf =>
          { s with
            toSession := s.takeLine (s.buf.slice s.buf.parsed crlf)
              (s.buf.slice s.buf.parsed (crlf + 2))
            buf := { s.buf with parsed := crlf + 2 } }
  | .block a =>
      let need := a.nbytes + 2
      let avail := s.buf.used - s.buf.parsed
      if avail < need then s.recv (need - avail + 1)
      else
        { s with
          toSession := s.takeBlock a (s.buf.slice s.buf.parsed (s.buf.parsed + a.nbytes))
            (s.buf.slice s.buf.parsed (s.buf.parsed + need))
          buf := { s.buf with parsed := s.buf.parsed + need } }
  | _ => { s with toSession := s.exec env }

/-- A connection after some steps. -/
def after (w : W) (input : List Bytes) (n : Nat) : Conn W := (step env)^[n] (start w input)

end Conn

/-! ### Streams -/

/-- A session that has all its bytes before it. -/
structure Stream (W : Type) extends Session W where
  rest : Bytes

namespace Stream

def start (w : W) (rest : Bytes) : Stream W := ⟨.start w, rest⟩

def step (s : Stream W) : Stream W :=
  match s.phase with
  | .line =>
      match crlfAt s.rest with
      | none => { s with toSession := s.close }
      | some i => ⟨s.takeLine (s.rest.take i) (s.rest.take (i + 2)), s.rest.drop (i + 2)⟩
  | .block a =>
      let need := a.nbytes + 2
      if s.rest.length < need then { s with toSession := s.close }
      else ⟨s.takeBlock a (s.rest.take a.nbytes) (s.rest.take need), s.rest.drop need⟩
  | _ => { s with toSession := s.exec env }

end Stream

namespace Conn

/-- The bytes before a connection: those in its buffer, and those to come. -/
def abs (s : Conn W) : Stream W := ⟨s.toSession, s.buf.unparsed ++ s.input.flatten⟩

/-- The bytes to come. -/
def left (s : Conn W) : Nat := s.input.flatten.length

structure Ok (s : Conn W) : Prop where
  buf : s.buf.Ok
  input : ∀ {c}, c ∈ s.input → c ≠ []

variable {s : Conn W} {env}

/-- A `recv` that delivers bytes moves them from what is to come into the buffer. -/
theorem Ok.recv
    (h : s.Ok) {n : Nat} (hn : 0 < n) :
  (s.recv n).Ok ∧ (s.input ≠ [] → (s.recv n).abs = s.abs ∧ (s.recv n).left < s.left)
    ∧ (s.input = [] → (s.recv n).abs = { s.abs with toSession := s.close })
  := by
  obtain ⟨s, buf, input⟩ := s
  obtain ⟨hcompact, hsame, -⟩ := RecvBuffer.Ok.compact (b := buf) h.buf
  obtain ⟨hbuf, hsame', hroom⟩ := hcompact.ensureSpace n
  rw [hsame] at hsame'
  simp only [Conn.recv]
  cases input with
  | nil =>
      refine ⟨⟨hbuf, h.input⟩, nofun, fun _ => ?_⟩
      simp only [abs, hsame']
  | cons chunk input =>
      have hchunk : chunk.length ≠ 0 := by
        have := h.input (c := chunk) List.mem_cons_self
        simpa using this
      have hinput : ∀ {c}, c ∈ input → c ≠ [] := fun hc => h.input (List.mem_cons_of_mem _ hc)
      simp only
      split
      · rename_i hle
        obtain ⟨hok, hun, -⟩ := hbuf.receive hle
        refine ⟨⟨hok, hinput⟩, fun _ => ⟨?_, ?_⟩, nofun⟩
        · simp only [abs, hun, hsame', List.flatten_cons, List.append_assoc]
        · simp only [left, List.flatten_cons, List.length_append]
          omega
      · rename_i hgt
        obtain ⟨hok, hun, -⟩ := hbuf.receive
          (List.length_take_le (buf.compact.ensureSpace n).writeAvail chunk)
        refine ⟨⟨hok, ?_⟩, fun _ => ⟨?_, ?_⟩, nofun⟩
        · intro c hc
          obtain rfl | hc := List.mem_cons.mp hc
          · rw [Ne, List.drop_eq_nil_iff]
            omega
          · apply hinput hc
        · simp only [abs, hun, hsame', List.flatten_cons, List.append_assoc]
          rw [← List.append_assoc (List.take _ _), List.take_append_drop]
        · simp only [left, List.flatten_cons, List.length_append, List.length_drop]
          omega

/-- Where bytes are parsed that are in the buffer, they are the first of all that are left. -/
theorem Ok.take
    (h : s.Ok) {k : Nat} (hk : s.buf.parsed + k ≤ s.buf.used) :
  RecvBuffer.Ok { s.buf with parsed := s.buf.parsed + k }
    ∧ s.buf.slice s.buf.parsed (s.buf.parsed + k) = s.abs.rest.take k
    ∧ RecvBuffer.unparsed { s.buf with parsed := s.buf.parsed + k } ++ s.input.flatten
      = s.abs.rest.drop k
  := by
  obtain ⟨hok, hslice, hrest⟩ := h.buf.advance hk
  have hle : k ≤ s.buf.unparsed.length := by
    rw [h.buf.length_unparsed]
    omega
  refine ⟨hok, ?_, ?_⟩
  · rw [hslice, abs, List.take_append_of_le_length hle]
  · rw [hrest, abs, List.drop_append_of_le_length hle]

/-- A `recv` is not seen, but for the one that ends the connection. -/
theorem Ok.recv_step
    (h : s.Ok) {n : Nat} (hn : 0 < n)
    (hend : s.input = [] → Stream.step env s.abs = { s.abs with toSession := s.close }) :
  (s.recv n).Ok ∧ ((s.recv n).abs = Stream.step env s.abs
    ∨ (s.recv n).abs = s.abs ∧ (s.recv n).left < s.left)
  := by
  obtain ⟨hok, hmore, hnone⟩ := h.recv hn
  use hok
  by_cases hinput : s.input = []
  · left
    rw [hnone hinput, hend hinput]
  · right
    apply hmore hinput

/-- A step is one of the stream, or it is not seen and there are fewer bytes to come. -/
theorem Ok.step
    (h : s.Ok) :
  (s.step env).Ok ∧ ((s.step env).abs = s.abs.step env
    ∨ (s.step env).abs = s.abs ∧ (s.step env).left < s.left)
  := by
  cases hph : s.phase with
  | line =>
      have hfind := h.buf.findCrlf_eq
      cases hat : crlfAt s.buf.unparsed with
      | none =>
          rw [hat, Option.map_none] at hfind
          rw [Conn.step, hph]
          simp only [hfind]
          apply h.recv_step (by decide)
          intro hinput
          have hrest : crlfAt s.abs.rest = none := by simp [abs, hinput, hat]
          rw [Stream.step, show s.abs.phase = .line from hph]
          simp only [hrest]
          rfl
      | some i =>
          rw [hat, Option.map_some] at hfind
          have hle := crlfAt_lt hat
          rw [h.buf.length_unparsed] at hle
          have hrest : crlfAt s.abs.rest = some i := crlfAt_append hat _
          obtain ⟨-, hline, -⟩ := h.take (k := i) (by omega)
          obtain ⟨hok, hbytes, hdrop⟩ := h.take (k := i + 2) (by omega)
          rw [Conn.step, hph, Stream.step, show s.abs.phase = .line from hph]
          simp only [hfind, hrest]
          rw [Nat.add_comm i, Nat.add_assoc, hline, hbytes]
          refine ⟨⟨hok, h.input⟩, .inl ?_⟩
          rw [← hdrop]
          rfl
  | block a =>
      have hlen := h.buf.length_unparsed
      have hrest : s.abs.rest.length = s.buf.used - s.buf.parsed + s.input.flatten.length := by
        rw [abs, List.length_append, hlen]
      by_cases hlt : s.buf.used - s.buf.parsed < a.nbytes + 2
      · rw [Conn.step, hph]
        simp only [if_pos hlt]
        apply h.recv_step (Nat.succ_pos _)
        intro hinput
        rw [hinput, List.flatten_nil, List.length_nil] at hrest
        rw [Stream.step, show s.abs.phase = .block a from hph]
        simp only [hrest, Nat.add_zero, if_pos hlt]
        rfl
      · have hused := h.buf.parsed
        obtain ⟨-, hvalue, -⟩ := h.take (k := a.nbytes) (by omega)
        obtain ⟨hok, hbytes, hdrop⟩ := h.take (k := a.nbytes + 2) (by omega)
        rw [Conn.step, hph, Stream.step, show s.abs.phase = .block a from hph]
        simp only [if_neg hlt, if_neg (show ¬ s.abs.rest.length < a.nbytes + 2 by omega)]
        rw [hvalue, hbytes]
        refine ⟨⟨hok, h.input⟩, .inl ?_⟩
        rw [← hdrop]
        rfl
  | top | run | closed =>
      rw [Conn.step, hph, Stream.step, show s.abs.phase = _ from hph]
      exact ⟨⟨h.buf, h.input⟩, .inl rfl⟩

/-- A connection makes the steps of its stream, besides its calls of `recv`. -/
theorem stutters (env : Env W) : Stutters (step env) (Stream.step env) abs Ok left where
  keeps h := h.step.1
  step h := h.step.2

theorem start_ok {w : W} {input : List Bytes} (hinput : ∀ c ∈ input, c ≠ []) :
    (start w input).Ok := ⟨RecvBuffer.new_ok, fun hc => hinput _ hc⟩

theorem abs_start (w : W) (input : List Bytes) :
    (start w input).abs = Stream.start w input.flatten := rfl

end Conn

/-! ### The bytes of a stream -/

/-- A step that reads no bytes parses none. -/
theorem Session.exec_kept (s : Session W) :
    (s.exec env).consumed = s.consumed ∧ (s.exec env).lines = s.lines
      ∧ ((∀ a, s.phase ≠ .block a) → ∀ a, (s.exec env).phase ≠ .block a) := by
  rw [exec]
  cases hph : s.phase with
  | top =>
      refine ⟨rfl, rfl, fun _ a => ?_⟩
      simp only
      split <;> exact nofun
  | run t =>
      simp only
      split <;> exact ⟨rfl, rfl, fun _ => nofun⟩
  | line | closed | block =>
      refine ⟨rfl, rfl, fun h => ?_⟩
      simp only [hph]
      exact h

/-- The bytes parsed and the bytes left stay the same together. -/
theorem Stream.step_bytes (s : Stream W) :
    (s.step env).consumed ++ (s.step env).rest = s.consumed ++ s.rest := by
  rw [step]
  cases s.phase with
  | line =>
      simp only
      split
      · rfl
      · simp only [Session.takeLine, List.append_assoc, List.take_append_drop]
  | block a =>
      simp only
      split
      · rfl
      · simp only [Session.takeBlock, List.append_assoc, List.take_append_drop]
  | top | run | closed => simp only [(s.exec_kept env).1]

theorem Stream.consumed_rest (n : Nat) (w : W) (bytes : Bytes) :
    ((step env)^[n] (start w bytes)).consumed ++ ((step env)^[n] (start w bytes)).rest = bytes := by
  induction n with
  | zero => rfl
  | succ n ih => rw [Function.iterate_succ_apply', step_bytes, ih]

/-- A connection does not depend on how its input is cut up.  In whatever non-empty chunks `recv`
delivers the same bytes, a connection with the same surroundings makes the same queries, of the same
store and with the same arguments and replies; the buffer keeps its bounds; and the bytes parsed,
those in the buffer and those to come are at all times the bytes of the input in their order. -/
theorem replies_independent_of_chunks
    (w : W) {cs ds : List Bytes} (hcs : ∀ c ∈ cs, c ≠ []) (hds : ∀ d ∈ ds, d ≠ [])
    (heq : cs.flatten = ds.flatten) (n : Nat) :
  (∃ m, (Conn.after env w ds m).toSession = (Conn.after env w cs n).toSession)
    ∧ (Conn.after env w cs n).buf.parsed ≤ (Conn.after env w cs n).buf.used
    ∧ (Conn.after env w cs n).buf.used ≤ (Conn.after env w cs n).buf.data.length
    ∧ (Conn.after env w cs n).consumed ++ (Conn.after env w cs n).buf.unparsed
      ++ (Conn.after env w cs n).input.flatten = cs.flatten
  := by
  have hsim := Conn.stutters env
  obtain ⟨m, hm⟩ := hsim.forth (Conn.start_ok (w := w) hcs) n
  obtain ⟨k, hk⟩ := hsim.back (Conn.start_ok (w := w) hds) m
  have hok := hsim.inv (Conn.start_ok (w := w) hcs) n
  refine ⟨⟨k, ?_⟩, hok.buf.parsed, hok.buf.used, ?_⟩
  · rw [Conn.abs_start, ← heq, ← Conn.abs_start, ← hm] at hk
    exact congrArg Stream.toSession hk
  · rw [Conn.abs_start] at hm
    have hall := Stream.consumed_rest env m w cs.flatten
    rw [← hm] at hall
    rw [List.append_assoc]
    exact hall

/-- Surroundings with an empty store, which takes every value it is given. -/
def emptyEnv : Env Unit := fun _ q =>
  match q with
  | .get _ => ((-ENOENT, [], 0), ())
  | .put _ _ _ _ => ((0 : Int), ())
  | .del _ _ => (-ENOENT, ())
  | .time => ((0 : Int64), ())
  | .send _ | .addBytesStored _ => ((), ())
  | .bytesStored => ((0 : Nat), ())
  | .pastHeader _ => (([] : Bytes), ())
  | .running => (true, ())

/-- A get that comes in three chunks, the second with the CR and the third with the LF, and one that
comes at once. -/
theorem get_in_three_chunks :
    ∃ m, (Conn.after emptyEnv () [ascii "get k\r\n"] m).trace
      = [.running, .get (ascii "k"), .send kEnd] := by
  have hflat : [ascii "ge", ascii "t k\r", ascii "\n"].flatten = [ascii "get k\r\n"].flatten := by
    decide
  have hsame := replies_independent_of_chunks emptyEnv () (by decide) (by decide) hflat 7
  obtain ⟨⟨m, hm⟩, -⟩ := hsame
  use m
  rw [hm]
  decide +kernel

end UDepot.Memcache
