import UDepot.Lib.Interaction
import UDepot.Memcache.Protocol

/-!
# The handlers of the memcache server

A handler carries out one command: it calls the store, reads the clock, keeps the count of bytes
stored and sends replies.  It is a program whose queries are these; what it is answered, and who
else calls the store in between, is left open here.
-/

namespace UDepot.Memcache

open Interaction

/-- What a connection asks of its surroundings.  No version given is `kAnyVersion`. -/
inductive Query where
  | get (key : Bytes)
  | put (key value : Bytes) (mode : PutMode) (ifVersion : Option Nat)
  | del (key : Bytes) (ifVersion : Option Nat)
  | time
  | send (reply : Bytes)
  | addBytesStored (n : Nat)
  | bytesStored
  | pastHeader (n : Nat)
  | running
  deriving DecidableEq, Repr

/-- The answers: calls of the store return a code, and a get the value and its version. -/
abbrev Query.Answer : Query → Type
  | .get _ => Int × Bytes × Nat
  | .put _ _ _ _ | .del _ _ => Int
  | .time => Int64
  | .send _ | .addBytesStored _ => Unit
  | .bytesStored => Nat
  | .pastHeader _ => Bytes
  | .running => Bool

abbrev Handler (α : Type) := Prog Query.Answer α

def ENOENT : Int := 2

def EIO : Int := 5

def E2BIG : Int := 7

def ENOMEM : Int := 12

def EEXIST : Int := 17

def ENOSPC : Int := 28

def ESTALE : Int := 116

def ask (q : Query) : Handler q.Answer := Prog.query q

def send (reply : Bytes) : Handler Unit := ask (.send reply)

/-- A reply, unless the client asked for none. -/
def reply (noreply : Bool) (text : Bytes) : Handler Unit :=
  if noreply then pure () else send text

def resolveExpiry (exptime : UInt64) : Handler Int64 :=
  if exptime = 0 then pure 0
  else do
    let now ← ask .time
    if exptime.toInt64 ≤ kRealtimeMaxdelta then return now + exptime.toInt64
    else return exptime.toInt64

def isExpired (expiry : Int64) : Handler Bool :=
  if expiry = 0 then pure false
  else do
    let now ← ask .time
    return decide (expiry ≤ now)

/-- The end of `handle_store`. -/
def storeReply (noreply : Bool) (valueLen : Nat) (rc : Int) : Handler Unit :=
  if rc = 0 then do
    reply noreply kStored
    ask (.addBytesStored valueLen)
  else if rc = -E2BIG then reply noreply (ascii "SERVER_ERROR object too large for cache\r\n")
  else reply noreply kNotStored

/-- The value an append or a prepend stores. -/
def mergedValue (req : ReqType) (old value : Bytes) (expiry : Int64) (flags : UInt32) : Bytes :=
  (if req = .append then old ++ value else value ++ old) ++ encodeMetadata expiry flags

/-- An append or a prepend: the version that was read is replaced, and if another client changed it
in between it starts over. -/
def mergeLoop (req : ReqType) (key value : Bytes) (expiry : Int64) (flags : UInt32)
    (noreply : Bool) : Handler Unit :=
  .loop do
    let (getRc, existing, version) ← ask (.get key)
    if getRc ≠ 0 then reply noreply kNotStored
    else if existing.length < kMetaSize then reply noreply kServerError
    else
      if kMaxValueLen < (userData existing).length + value.length then
        storeReply noreply value.length (-E2BIG)
      else do
        let merged := mergedValue req (userData existing) value expiry flags
        let rc ← ask (.put key merged .replace (some version))
        if rc = -ESTALE then .again else storeReply noreply value.length rc

def handleStore (req : ReqType) (key : Bytes) (flags : UInt32) (exptime : UInt64) (value : Bytes)
    (noreply : Bool) : Handler Unit := do
  let expiry ← resolveExpiry exptime
  let stored := value ++ encodeMetadata expiry flags
  match req with
  | .set => do
      let rc ← ask (.put key stored .upsert none)
      storeReply noreply value.length rc
  | .add => do
      let rc ← ask (.put key stored .create none)
      storeReply noreply value.length rc
  | .replace => do
      let rc ← ask (.put key stored .replace none)
      storeReply noreply value.length rc
  | .append | .prepend => mergeLoop req key value expiry flags noreply
  | _ => storeReply noreply value.length (-1)

/-- Send the header of a value.  It is printed into an array of 512 bytes, cut off and ended by a
zero, but as many bytes are sent as the whole header has. -/
def sendHeader (text : Bytes) : Handler Unit :=
  if text.length < 512 then send text
  else do
    let past ← ask (.pastHeader (text.length - 512))
    send (text.take 511 ++ 0 :: past)

/-- The header of a value; a key is printed up to a zero byte. -/
def valueHeader (key : Bytes) (flags : UInt32) (dataLen : Nat) : Bytes :=
  ascii "VALUE " ++ key.takeWhile (· ≠ 0) ++ ascii " " ++ toChars flags.toNat ++ ascii " "
    ++ toChars dataLen ++ kCRLF

def handleGet : List Bytes → Handler Unit
  | [] => send kEnd
  | key :: keys => do
      let (rc, val, version) ← ask (.get key)
      if rc ≠ 0 ∨ val.length < kMetaSize then handleGet keys
      else do
        let (expiry, flags) := decodeMetadata val
        if ← isExpired expiry then
          let _ ← ask (.del key (some version))
          handleGet keys
        else
          sendHeader (valueHeader key flags (userData val).length)
          if 0 < (userData val).length then send (userData val)
          send kCRLF
          handleGet keys

def handleDelete (key : Bytes) (noreply : Bool) : Handler Unit := do
  let rc ← ask (.del key none)
  reply noreply (if rc = 0 then kDeleted else kNotFound)

/-- The number after an incr or a decr. -/
def arithmetic (isIncr : Bool) (num delta : Nat) : Nat :=
  if isIncr then (num + delta) % 2 ^ 64 else if num < delta then 0 else num - delta

def handleArithmetic (key : Bytes) (delta : Nat) (isIncr noreply : Bool) : Handler Unit :=
  .loop do
    let (getRc, val, version) ← ask (.get key)
    if getRc ≠ 0 ∨ val.length < kMetaSize then reply noreply kNotFound
    else do
      let (expiry, flags) := decodeMetadata val
      if ← isExpired expiry then
        let _ ← ask (.del key (some version))
        reply noreply kNotFound
      else
        match fromChars (2 ^ 64) (userData val) with
        | none =>
            reply noreply
              (ascii "CLIENT_ERROR cannot increment or decrement non-numeric value\r\n")
        | some (num, _) => do
            let newVal := toChars (arithmetic isIncr num delta)
            let rc ← ask
              (.put key (newVal ++ encodeMetadata expiry flags) .replace (some version))
            if rc = -ESTALE then .again
            else if rc = -ENOENT then reply noreply kNotFound
            else if rc = 0 then reply noreply (newVal ++ kCRLF)
            else reply noreply kServerError

def handleStats : Handler Unit := do
  let bytes ← ask .bytesStored
  send (ascii "STAT bytes " ++ toChars bytes ++ kCRLF)
  send kEnd

def handleVersion : Handler Unit := send (ascii "VERSION udepot-ng 0.1.0\r\n")

end UDepot.Memcache
