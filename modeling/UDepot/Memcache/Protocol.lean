import UDepot.Lib.Memory
import UDepot.Store.State

/-!
# The memcache text protocol

The words of the protocol (`memcache.cc`): the commands and the replies, the tokens of a command
line, numbers, and the metadata a stored value ends with.
-/

namespace UDepot.Memcache

open Memory

/-- The bytes of a text. -/
def ascii (s : String) : Bytes := s.toList.map fun c => .ofNat c.toNat

def kCRLF : Bytes := ascii "\r\n"

def kStored : Bytes := ascii "STORED\r\n"

def kNotStored : Bytes := ascii "NOT_STORED\r\n"

def kNotFound : Bytes := ascii "NOT_FOUND\r\n"

def kDeleted : Bytes := ascii "DELETED\r\n"

def kEnd : Bytes := ascii "END\r\n"

def kError : Bytes := ascii "ERROR\r\n"

def kServerError : Bytes := ascii "SERVER_ERROR "

def kMaxKeyLen : Nat := 250

def kMaxValueLen : Nat := 1024 * 1024

def kRealtimeMaxdelta : Int64 := 60 * 60 * 24 * 30

def kMetaSize : Nat := 12

/-! ### Commands -/

inductive ReqType where
  | get
  | gets
  | set
  | add
  | replace
  | append
  | prepend
  | cas
  | incr
  | decr
  | delete
  | stats
  | quit
  | version
  | flushAll
  | unknown
  deriving DecidableEq, Repr

def parseCommand (cmd : Bytes) : ReqType :=
  if cmd = ascii "get" then .get
  else if cmd = ascii "gets" then .gets
  else if cmd = ascii "set" then .set
  else if cmd = ascii "add" then .add
  else if cmd = ascii "replace" then .replace
  else if cmd = ascii "append" then .append
  else if cmd = ascii "prepend" then .prepend
  else if cmd = ascii "cas" then .cas
  else if cmd = ascii "incr" then .incr
  else if cmd = ascii "decr" then .decr
  else if cmd = ascii "delete" then .delete
  else if cmd = ascii "stats" then .stats
  else if cmd = ascii "quit" then .quit
  else if cmd = ascii "version" then .version
  else if cmd = ascii "flush_all" then .flushAll
  else .unknown

def tolower (c : UInt8) : UInt8 := if 65 ≤ c ∧ c ≤ 90 then c + 32 else c

/-- The tokens of a line after the token `tok` was begun; `tok` is reversed. -/
def tokenizeFrom (tok : Bytes) : Bytes → List Bytes
  | [] => if tok = [] then [] else [tok.reverse]
  | c :: cs =>
      if c = 32 then if tok = [] then tokenizeFrom [] cs else tok.reverse :: tokenizeFrom [] cs
      else tokenizeFrom (c :: tok) cs

def tokenize (line : Bytes) : List Bytes := tokenizeFrom [] line

/-! ### Numbers -/

def isDigit (c : UInt8) : Bool := 48 ≤ c && c ≤ 57

/-- The number that digits stand for. -/
def decimal (ds : Bytes) : Nat := ds.foldl (fun n c => 10 * n + (c.toNat - 48)) 0

/-- `std::from_chars` for an unsigned type of `size` values: the number the digits at the front
stand for, and what follows them. -/
def fromChars (size : Nat) (s : Bytes) : Option (Nat × Bytes) :=
  let ds := s.takeWhile isDigit
  if ds = [] ∨ size ≤ decimal ds then none else some (decimal ds, s.dropWhile isDigit)

/-- A token that is a number below `size`. -/
def parseUnsigned (size : Nat) (s : Bytes) : Option Nat :=
  match fromChars size s with
  | some (n, []) => some n
  | _ => none

def parseU32 (s : Bytes) : Option Nat := parseUnsigned (2 ^ 32) s

def parseU64 (s : Bytes) : Option Nat := parseUnsigned (2 ^ 64) s

/-- The decimal digits of a number, `std::to_chars`. -/
def toChars (n : Nat) : Bytes := (Nat.toDigits 10 n).map fun c => .ofNat c.toNat

/-! ### Metadata -/

def encodeMetadata (expiry : Int64) (flags : UInt32) : Bytes :=
  leBytes 8 expiry.toUInt64.toNat ++ leBytes 4 flags.toNat

/-- The metadata at the end of a stored value. -/
def decodeMetadata (stored : Bytes) : Int64 × UInt32 :=
  let md := stored.drop (stored.length - kMetaSize)
  ((UInt64.ofNat (leNat (md.take 8))).toInt64, .ofNat (leNat (md.drop 8)))

/-- A stored value less its metadata. -/
def userData (stored : Bytes) : Bytes := stored.take (stored.length - kMetaSize)

end UDepot.Memcache
