import Blamejs.Lib.Incremental
import Blamejs.Ref.RedisClient

/-!
# Replies on the wire

The replies of a stream of bytes, read off its front, for lengths that are whole
numbers. A bulk length that is neither one nor the -1 of a null is refused here, which
is the check that the code does not make.
-/

namespace Blamejs.RedisClient

open Blamejs.Js Incremental

inductive Refusal where
  | bad (e : Err)
  | length (payload : JsString)

/-- The number of bytes, if it is one. -/
def wholeLength (x : Rat) : Option Nat := if x.den = 1 ∧ 0 ≤ x then some x.num.toNat else none

def itemsAt (p : Bytes → Parsed UInt8 Frame Refusal) :
    Nat → Bytes → Parsed UInt8 (List Frame) Refusal
  | 0, buf => .item [] buf
  | n + 1, buf =>
      match p buf with
      | .more => .more
      | .refuse e => .refuse e
      | .item f rest =>
          match itemsAt p n rest with
          | .more => .more
          | .refuse e => .refuse e
          | .item fs rest' => .item (f :: fs) rest'

/-- A reply after its first line; `sub` reads the items of an array. -/
def bodyAt (sub : Bytes → Parsed UInt8 Frame Refusal) (marker : UInt8) (payload : JsString)
    (rest : Bytes) : Parsed UInt8 Frame Refusal :=
  let number := stringToNumber payload
  if marker = 0x2B then .item (.string payload) rest
  else if marker = 0x2D then .item (.error payload) rest
  else if marker = 0x3A then
    if number.isFinite then .item (.int number) rest else .refuse (.bad (.notFinite payload))
  else if marker = 0x24 then
    if number.isFinite then
      if value number = -1 then .item (.bulk none) rest
      else
        match wholeLength (value number) with
        | none => .refuse (.length payload)
        | some n =>
            if rest.length < n + 2 then .more
            else .item (.bulk (some (rest.take n))) (rest.drop (n + 2))
    else .refuse (.bad (.notFinite payload))
  else if marker = 0x2A then
    if number.isFinite then
      if value number = -1 then .item .nullArray rest
      else
        match itemsAt sub (value number).ceil.toNat rest with
        | .more => .more
        | .refuse e => .refuse e
        | .item items rest' => .item (.array items) rest'
    else .refuse (.bad (.notFinite payload))
  else .refuse (.bad (.unknownMarker marker))

/-- The reply at the front of a buffer. -/
def replyAt : Nat → Bytes → Parsed UInt8 Frame Refusal
  | 0, _ => .refuse (.bad .nesting)
  | _ + 1, [] => .more
  | levels + 1, marker :: buf =>
      match crlfOffset buf with
      | none => .more
      | some i => bodyAt (replyAt levels) marker (utf8Text (buf.take i)) (buf.drop (i + 2))

/-- A reply that is no array in an array in an array, and so on too deep. -/
def reply : Bytes → Parsed UInt8 Frame Refusal := replyAt (maxRespDepth + 1)

/-! ## Streams -/

/-- The bytes that come in. -/
def streamOf {α : Type} (as : List (Action α)) : Bytes :=
  as.flatMap fun
    | .data chunk => chunk
    | .send _ => []

/-- The values of the replies of a stream. -/
def replies (stream : Bytes) : List Value := (drain reply stream).items.map frameToValue

/-- The length at the front of a buffer, if it comes to one, is a whole number or -1. -/
def WholeLengths (buf : Bytes) : Prop := ∀ payload, reply buf ≠ .refuse (.length payload)

/-- So are all lengths that a stream comes to. -/
def WholeStream (stream : Bytes) : Prop :=
  ∀ payload, (drain reply stream).refusal ≠ some (.length payload)

end Blamejs.RedisClient
