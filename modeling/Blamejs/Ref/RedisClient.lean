import Blamejs.Js.LossyText
import Blamejs.Js.ToNumber
import Mathlib.Algebra.Order.Ring.Rat

/-!
# The redis client's wire (`lib/redis-client.js`)

Commands out, replies in: `_encodeCommand`, `_parseFrame` and the receive loop of a
connection. Positions in a buffer are numbers, because a length comes from the peer
through `Number`: whole ones are exact, and others are rounded as doubles are.
-/

namespace Blamejs.RedisClient

open Blamejs.Js

abbrev Bytes := List UInt8

/-! ## Commands -/

/-- An argument: a buffer, the text of anything else, or null or undefined. -/
inductive Arg where
  | buffer (bytes : Bytes)
  | text (s : JsString)
  | missing
  deriving DecidableEq, Repr

inductive Err where
  | badArgs
  | nesting
  | notFinite (payload : JsString)
  | unknownMarker (marker : UInt8)
  /-- The `TypeError` of a position that is not in the buffer. -/
  | noMarker
  deriving DecidableEq, Repr

def ascii (s : JsString) : Bytes := s.map fun u => UInt8.ofNat u.toNat

def crlf : Bytes := [0x0D, 0x0A]

def Arg.bytes : Arg → Option Bytes
  | .buffer bytes => some bytes
  | .text s => some (utf8 s)
  | .missing => none

def bulkBytes (bytes : Bytes) : Bytes :=
  0x24 :: (ascii (natText bytes.length) ++ crlf ++ bytes ++ crlf)

/-- `_encodeCommand`. -/
def encodeCommand (args : List Arg) : Except Err Bytes :=
  if args = [] then .error .badArgs
  else
    match args.mapM Arg.bytes with
    | none => .error .badArgs
    | some parts => .ok (0x2A :: (ascii (natText args.length) ++ crlf ++ parts.flatMap bulkBytes))

/-! ## Positions -/

/-- The number that a double is. -/
def value (x : Double) : Rat := x.scaled / Double.unitsPerOne

/-- `a + b`. -/
def plus (a b : Rat) : Rat :=
  if (a + b).den = 1 then a + b
  else value (Double.ofRatio (a + b < 0) (a + b).num.natAbs (a + b).den)

/-- A position in a buffer of `n` bytes, as `slice` and `indexOf` take it: cut to a whole
number, and from the end if negative. -/
def index (n : Nat) (x : Rat) : Nat :=
  if x < 0 then (n + x.ceil).toNat else min x.floor.toNat n

/-- `buf.slice(a, b)`. -/
def slice (buf : Bytes) (a b : Rat) : Bytes :=
  (buf.take (index buf.length b)).drop (index buf.length a)

def crlfOffset : Bytes → Option Nat
  | [] => none
  | b :: buf => if [b] ++ buf.take 1 = crlf then some 0 else (crlfOffset buf).map (· + 1)

/-- `buf.indexOf("\r\n", start)`. -/
def indexOfCrlf (buf : Bytes) (start : Rat) : Option Nat :=
  (crlfOffset (buf.drop (index buf.length start))).map (index buf.length start + ·)

/-- `buf[offset]`. -/
def byteAt (buf : Bytes) (offset : Rat) : Option UInt8 :=
  if offset.den = 1 ∧ 0 ≤ offset then buf[offset.num.toNat]? else none

/-! ## Replies -/

inductive Frame where
  | string (value : JsString)
  | error (value : JsString)
  | int (value : Double)
  | bulk (value : Option Bytes)
  | nullArray
  | array (items : List Frame)

inductive Outcome where
  | incomplete
  | frame (f : Frame) (consumed : Rat)

def maxRespDepth : Nat := 64

/-- The loop over the items of an array from `cursor` on, and where it ends. -/
def parseItems (parse : Rat → Except Err Outcome) :
    Nat → Rat → Except Err (Option (List Frame × Rat))
  | 0, cursor => .ok (some ([], cursor))
  | n + 1, cursor =>
      match parse cursor with
      | .error e => .error e
      | .ok .incomplete => .ok none
      | .ok (.frame f consumed) =>
          match parseItems parse n (plus cursor consumed) with
          | .error e => .error e
          | .ok none => .ok none
          | .ok (some (fs, stop)) => .ok (some (f :: fs, stop))

/-- `_parseFrame`, with the levels that are left where the code has those that were
gone into. -/
def parseFrame : Nat → Bytes → Rat → Except Err Outcome
  | 0, _, _ => .error .nesting
  | levels + 1, buf, offset =>
      if offset ≥ buf.length then .ok .incomplete
      else
        match indexOfCrlf buf (plus offset 1) with
        | none => .ok .incomplete
        | some stop =>
            let payload := utf8Text (slice buf (plus offset 1) stop)
            let dataStart : Rat := (stop + 2 : Nat)
            let number := stringToNumber payload
            match byteAt buf offset with
            | none => .error .noMarker
            | some marker =>
                if marker = 0x2B then
                  .ok (.frame (.string payload) (plus dataStart (-offset)))
                else if marker = 0x2D then
                  .ok (.frame (.error payload) (plus dataStart (-offset)))
                else if marker = 0x3A then
                  if number.isFinite then
                    .ok (.frame (.int number) (plus dataStart (-offset)))
                  else .error (.notFinite payload)
                else if marker = 0x24 then
                  if number.isFinite then
                    if value number = -1 then
                      .ok (.frame (.bulk none) (plus dataStart (-offset)))
                    else
                      let dataEnd := plus dataStart (value number)
                      if plus dataEnd 2 > buf.length then .ok .incomplete
                      else .ok (.frame (.bulk (some (slice buf dataStart dataEnd)))
                        (plus (plus dataEnd 2) (-offset)))
                  else .error (.notFinite payload)
                else if marker = 0x2A then
                  if number.isFinite then
                    if value number = -1 then
                      .ok (.frame .nullArray (plus dataStart (-offset)))
                    else
                      let count := (value number).ceil.toNat
                      match parseItems (parseFrame levels buf) count dataStart with
                      | .error e => .error e
                      | .ok none => .ok .incomplete
                      | .ok (some (items, cursor)) =>
                          .ok (.frame (.array items) (plus cursor (-offset)))
                  else .error (.notFinite payload)
                else .error (.unknownMarker marker)

inductive Value where
  | text (s : JsString)
  | number (x : Double)
  | buffer (bytes : Bytes)
  | null
  /-- `{ _redisError: true, message }`. -/
  | redisError (message : JsString)
  | array (items : List Value)

mutual

/-- `_frameToValue`. -/
def frameToValue : Frame → Value
  | .string s => .text s
  | .error message => .redisError message
  | .int x => .number x
  | .bulk none => .null
  | .bulk (some bytes) => .buffer bytes
  | .nullArray => .null
  | .array items => .array (framesToValues items)

def framesToValues : List Frame → List Value
  | [] => []
  | f :: fs => frameToValue f :: framesToValues fs

end

/-! ## The receive loop -/

/-- Who gets a reply: `onPushMessage`, the caller who waits longest, or nobody. A caller's
promise is rejected by an error reply and resolved by any other. -/
inductive Receiver (α : Type) where
  | push
  | caller (p : α)
  | nobody

/-- A connection: `pending`, and whether the socket was torn down. -/
structure Client (α : Type) where
  rxBuffer : Bytes
  pending : List α
  torn : Bool

variable {α : Type}

/-- A message of a subscription, if there is a handler for such. -/
def isPush (onPush : Bool) : Value → Bool
  | .array (.buffer type :: rest) =>
      onPush && ((utf8Text type == units "message" && rest.length == 2) ||
        (utf8Text type == units "pmessage" && rest.length == 3))
  | _ => false

/-- Where a reply goes, and who is still waiting then. -/
def deliver (onPush : Bool) (pending : List α) (v : Value) : Receiver α × List α :=
  if isPush onPush v then (.push, pending)
  else
    match pending with
    | [] => (.nobody, [])
    | p :: pending => (.caller p, pending)

/-- The `while` of `_onData`; no result where the rounds do not suffice. -/
def receive (onPush : Bool) : Nat → Client α → Option (List (Value × Receiver α) × Client α)
  | 0, _ => none
  | rounds + 1, c =>
      if c.rxBuffer = [] then some ([], c)
      else
        match parseFrame (maxRespDepth + 1) c.rxBuffer 0 with
        | .error _ => some ([], { c with torn := true, pending := [] })
        | .ok .incomplete => some ([], c)
        | .ok (.frame f consumed) =>
            let v := frameToValue f
            let (receiver, pending) := deliver onPush c.pending v
            let rest := slice c.rxBuffer consumed c.rxBuffer.length
            match receive onPush rounds { c with rxBuffer := rest, pending := pending } with
            | none => none
            | some (ds, c') => some ((v, receiver) :: ds, c')

/-- What happens to a connection: a chunk comes in, or a command goes out. -/
inductive Action (α : Type) where
  | data (chunk : Bytes)
  | send (p : α)

/-- A step, with what is delivered in it; after the teardown there is no listener. -/
inductive Step (onPush : Bool) : Client α → Action α → List (Value × Receiver α) → Client α → Prop
  | data {c c' : Client α} {chunk : Bytes} {ds : List (Value × Receiver α)} (rounds : Nat)
      (live : c.torn = false)
      (run : receive onPush rounds { c with rxBuffer := c.rxBuffer ++ chunk } = some (ds, c')) :
      Step onPush c (.data chunk) ds c'
  | deaf {c : Client α} {chunk : Bytes} (torn : c.torn = true) : Step onPush c (.data chunk) [] c
  | send {c : Client α} {p : α} :
      Step onPush c (.send p) [] { c with pending := c.pending ++ [p] }

/-- A run of steps and all that is delivered in it. -/
inductive Runs (onPush : Bool) :
    Client α → List (Action α) → List (Value × Receiver α) → Client α → Prop
  | nil {c : Client α} : Runs onPush c [] [] c
  | cons {c c₁ c₂ : Client α} {a : Action α} {as : List (Action α)}
      {ds ds' : List (Value × Receiver α)} (step : Step onPush c a ds c₁)
      (rest : Runs onPush c₁ as ds' c₂) : Runs onPush c (a :: as) (ds ++ ds') c₂

end Blamejs.RedisClient
