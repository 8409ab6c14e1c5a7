import Blamejs.Ref.WebSocket

/-!
# Frames on their own (`FrameParser` and `serializeFrame` of `lib/websocket.js`)

The parser as its callers have it, with the bytes it keeps between two pushes, and the
serializer with all its options. The mask key is what `randomBytes(4)` returned.
-/

namespace Blamejs.WebSocket

open Blamejs.Js Incremental

/-- A mask key, of four bytes. -/
abbrev MaskKey := { key : Bytes // key.length = 4 }

/-- `opts` of `serializeFrame`, with the key where the frame is masked. -/
structure SerializeOpts where
  fin : Bool
  rsv1 : Bool
  mask : Option MaskKey

/-- The seven bits of the length, or what says where it stands. -/
def lenByteOf (len : Nat) : Nat := if len < 126 then len else if len < 0x10000 then 126 else 127

/-- The length where seven bits do not hold it: `writeUInt16BE`, or two of `writeUInt32BE`. -/
def extendedLen (len : Nat) : Bytes :=
  if lenByteOf len = 126 then beBytes 2 len
  else if lenByteOf len = 127 then beBytes 4 (len / 0x100000000) ++ beBytes 4 (len % 0x100000000)
  else []

/-- `serializeFrame(opcode, payload, opts)`. -/
def serializeFrameWith (opcode : Nat) (payload : Bytes) (opts : SerializeOpts) : Bytes :=
  let header := [
    UInt8.ofNat ((if opts.fin then 0x80 else 0) + (if opts.rsv1 then 0x40 else 0) + opcode % 16),
    UInt8.ofNat ((if opts.mask.isSome then 0x80 else 0) + lenByteOf payload.length)] ++
      extendedLen payload.length
  match opts.mask with
  | some key => header ++ key.val ++ unmask key.val payload
  | none => header ++ payload

/-- `DEFAULT_MAX_MESSAGE_BYTES`. -/
def defaultMaxMessageBytes : Nat := 1048576

structure FrameParser where
  maxFrameBytes : Nat
  buffer : Bytes

namespace FrameParser

/-- `new FrameParser({ maxFrameBytes })`, the option a byte count or absent. -/
def new (maxFrameBytes : Option Nat) : FrameParser where
  maxFrameBytes := if maxFrameBytes.getD 0 = 0 then defaultMaxMessageBytes else maxFrameBytes.getD 0
  buffer := []

/-- `parser.push(chunk)`: the parser after it, and the frames or what is thrown. -/
def push (p : FrameParser) (chunk : Bytes) : FrameParser × Except JsString (List Frame) :=
  let d := drain (tryParseFrame p.maxFrameBytes) (p.buffer ++ chunk)
  ({ p with buffer := d.rest }, match d.refusal with
    | some e => .error e
    | none => .ok d.items)

/-- Pushes of one chunk after the other, to the first that throws. -/
def feed (p : FrameParser) : List Bytes → FrameParser × Except JsString (List Frame)
  | [] => (p, .ok [])
  | chunk :: chunks =>
      let r := p.push chunk
      match r.2 with
      | .error e => (r.1, .error e)
      | .ok frames =>
          let s := feed r.1 chunks
          (s.1, s.2.map (frames ++ ·))

end FrameParser

end Blamejs.WebSocket
