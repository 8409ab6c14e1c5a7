import Blamejs.Js.Bytes
import Blamejs.Js.NumberText
import Blamejs.Lib.Incremental

/-!
# A WebSocket connection (`lib/websocket.js`)

The frame parser and the state machine of `WebSocketConnection`. Everything happens
in one turn of the event loop: what a listener calls, it calls before the handling of
the frame goes on. What becomes of each write to the socket, and what the listeners
call at each event, is the `World`, with the two directions of permessage-deflate.

A listener of `close` or `error` runs in the state `closed`, where every call returns
or throws at once, so only the other events have reactions.
-/

namespace Blamejs.WebSocket

open Blamejs.Js Incremental

abbrev Bytes := List UInt8

/-! ## Frames -/

structure Frame where
  fin : Bool
  rsv1 : Bool
  rsv2 : Bool
  rsv3 : Bool
  opcode : Nat
  masked : Bool
  payload : Bytes
  deriving DecidableEq, Repr

def opcodeContinuation : Nat := 0x0

def opcodeText : Nat := 0x1

def opcodeBinary : Nat := 0x2

def opcodeClose : Nat := 0x8

def opcodePing : Nat := 0x9

def opcodePong : Nat := 0xA

/-- `buf.subarray(off, off + len)`. -/
def field (buf : Bytes) (off len : Nat) : Bytes := (buf.drop off).take len

def unmask (maskKey payload : Bytes) : Bytes :=
  payload.mapIdx fun i b => b ^^^ maskKey.getD (i % 4) 0

/-- Where the mask of a frame stands, or its payload. -/
def lengthEnd (b1 : UInt8) : Nat :=
  if b1.toNat % 128 = 126 then 4 else if b1.toNat % 128 = 127 then 10 else 2

def headerLen (b1 : UInt8) : Nat := if 128 ≤ b1.toNat then lengthEnd b1 + 4 else lengthEnd b1

/-- The length is beyond what a number holds. -/
def tooLong (b1 : UInt8) (buf : Bytes) : Prop :=
  b1.toNat % 128 = 127 ∧ beValue (field buf 2 4) > 0x1FFFFF

instance (b1 : UInt8) (buf : Bytes) : Decidable (tooLong b1 buf) := by
  unfold tooLong
  infer_instance

def payloadLen (b1 : UInt8) (buf : Bytes) : Nat :=
  if b1.toNat % 128 < 126 then b1.toNat % 128 else beValue (field buf 2 (lengthEnd b1 - 2))

def frameOf (b0 b1 : UInt8) (buf : Bytes) : Frame where
  fin := 128 ≤ b0.toNat
  rsv1 := b0.toNat / 64 % 2 = 1
  rsv2 := b0.toNat / 32 % 2 = 1
  rsv3 := b0.toNat / 16 % 2 = 1
  opcode := b0.toNat % 16
  masked := 128 ≤ b1.toNat
  payload :=
    let payload := field buf (headerLen b1) (payloadLen b1 buf)
    if 128 ≤ b1.toNat then unmask (field buf (lengthEnd b1) 4) payload else payload

/-- The frame at the front of a buffer that begins with these bytes. -/
def frameAt (maxFrameBytes : Nat) (b0 b1 : UInt8) (buf : Bytes) : Parsed UInt8 Frame JsString :=
  if buf.length < headerLen b1 then .more
  else if tooLong b1 buf then .refuse (units "frame length exceeds Number.MAX_SAFE_INTEGER")
  else if payloadLen b1 buf > maxFrameBytes then
    .refuse (units "frame payload exceeds maxFrameBytes (" ++ natText maxFrameBytes ++ units ")")
  else if buf.length < headerLen b1 + payloadLen b1 buf then .more
  else .item (frameOf b0 b1 buf) (buf.drop (headerLen b1 + payloadLen b1 buf))

/-- `_tryParseFrame` of a parser for frames of at most `maxFrameBytes`. -/
def tryParseFrame (maxFrameBytes : Nat) (buf : Bytes) : Parsed UInt8 Frame JsString :=
  match buf with
  | b0 :: b1 :: _ => frameAt maxFrameBytes b0 b1 buf
  | _ => .more

/-- `serializeFrame` of an unmasked frame. -/
def serializeFrame (opcode : Nat) (payload : Bytes) (fin rsv1 : Bool) : Bytes :=
  let first := UInt8.ofNat ((if fin then 0x80 else 0) + (if rsv1 then 0x40 else 0) + opcode % 16)
  let len := payload.length
  let header :=
    if len < 126 then [first, UInt8.ofNat len]
    else if len < 0x10000 then [first, 126] ++ beBytes 2 len
    else [first, 127] ++ beBytes 8 len
  header ++ payload

/-! ## Close codes -/

def closeNormal : Nat := 1000

def closeProtocolError : Nat := 1002

def closeInvalidPayload : Nat := 1007

def closeMessageTooBig : Nat := 1009

def closeInternalError : Nat := 1011

/-- What is reported where the connection was lost, and never sent. -/
def closeAbnormal : Nat := 1006

def assignedCloseCodes : List Int :=
  [1000, 1001, 1002, 1003, 1007, 1008, 1009, 1010, 1011, 1012, 1013, 1014]

def isValidCloseCode (code : Int) : Bool :=
  code ∈ assignedCloseCodes || (3000 ≤ code && code ≤ 4999)

/-! ## The connection -/

structure Opts where
  maxMessageBytes : Nat
  maxFragments : Nat
  /-- The transport is HTTP/2. -/
  h2 : Bool
  permessageDeflate : Bool
  pongTimeoutMs : Int
  hasErrorListener : Bool
  bytes_safe : maxMessageBytes ≤ Double.maxSafe
  fragments_safe : maxFragments ≤ Double.maxSafe

/-- `_maxFragments` where the option is not given. -/
def defaultMaxFragments (maxMessageBytes : Nat) : Nat := max 8192 ((maxMessageBytes + 63) / 64)

inductive Event where
  | text (data : JsString)
  | binary (data : Bytes)
  | ping (payload : Bytes)
  | pong (payload : Bytes)
  | error (message : JsString)
  | close (code : Nat) (reason : JsString) (wasClean : Bool)
  deriving DecidableEq, Repr

/-- What the local side may call. A code is a whole number. -/
inductive Call where
  | sendText (s : JsString)
  | sendBinary (data : Bytes)
  | ping (payload : Bytes)
  | close (code : Option Int) (reason : JsString)
  deriving DecidableEq, Repr

/-- What becomes of a frame that is to be written: the socket takes it, is destroyed
or ended, or throws (as `serializeFrame` does for a payload that is no buffer). -/
inductive WriteFate where
  | written
  | unwritable
  | throws (message : JsString)
  deriving DecidableEq, Repr

/-- Whose write it is. -/
inductive Writer where
  | close
  | other
  deriving DecidableEq, Repr

structure World where
  /-- The fate of a write, by the number of writes before. -/
  write : Writer → Nat → WriteFate
  /-- What the listeners call, by the number of events before. -/
  react : Nat → List Call
  inflate : Bytes → Except JsString Bytes
  /-- None where compression fails. -/
  deflate : Bytes → Option Bytes

inductive State where
  | opened
  | closing
  | closed
  deriving DecidableEq, Repr

/-- The message that is being received. -/
structure Frag where
  opcode : Nat
  chunks : List Bytes
  len : Nat
  compressed : Bool
  deriving DecidableEq, Repr

structure Conn where
  state : State
  closeSent : Bool
  /-- What the close timer reports when it runs out. -/
  closeTimer : Option (Nat × JsString)
  frag : Option Frag
  buffer : Bytes
  lastPongAt : Int
  /-- The events so far, the frames written, and the attempts to write. -/
  events : List Event
  written : List Frame
  attempts : Nat

def Conn.init (now : Int) : Conn := ⟨.opened, false, none, none, [], now, [], [], 0⟩

variable (w : World) (o : Opts)

def transitionToClosed (c : Conn) (code : Nat) (reason : JsString) (wasClean : Bool)
    (error : Option JsString) : Conn :=
  if c.state = .closed then c
  else
    let errors := if o.hasErrorListener then error.toList.map Event.error else []
    { c with
      state := .closed
      closeTimer := none
      events := c.events ++ errors ++ [.close code reason wasClean] }

def sendFrame (writer : Writer) (c : Conn) (opcode : Nat) (payload : Bytes) (rsv1 : Bool) : Conn :=
  if c.state = .closed then c
  else
    let c' := { c with attempts := c.attempts + 1 }
    match w.write writer c.attempts with
    | .written =>
        { c' with written := c.written ++ [⟨true, rsv1, false, false, opcode, false, payload⟩] }
    | .unwritable =>
        transitionToClosed o c' closeAbnormal (units "socket no longer writable") false none
    | .throws message =>
        transitionToClosed o c' closeAbnormal
          (if message = [] then units "write failed" else message) false (some message)

def sendCloseFrame (writer : Writer) (c : Conn) (code : Nat) (reason : JsString) : Conn :=
  sendFrame w o writer c opcodeClose (beBytes 2 code ++ utf8 reason) false

/-- `_abort`; the socket is destroyed. -/
def abort (c : Conn) (code : Nat) (reason : JsString) : Conn :=
  if c.state = .closed then c
  else
    let c := if c.closeSent then c
      else { sendCloseFrame w o .other c code reason with closeSent := true }
    transitionToClosed o c code reason false none

/-- `_sendDataFrame`. -/
def sendDataFrame (c : Conn) (opcode : Nat) (payload : Bytes) : Conn :=
  if o.permessageDeflate then
    match w.deflate payload with
    | some compressed => sendFrame w o .other c opcode compressed true
    | none => sendFrame w o .other c opcode payload false
  else sendFrame w o .other c opcode payload false

/-- `close(code, reason)`; it throws for a code that may not be sent. -/
def close (c : Conn) (code : Option Int) (reason : JsString) : Conn :=
  let code := code.getD closeNormal
  if ¬ isValidCloseCode code then c
  else if c.state ≠ .opened then c
  else
    let c := sendCloseFrame w o .close c code.toNat reason
    { c with closeSent := true, state := .closing, closeTimer := some (code.toNat, reason) }

/-- One call by the local side; `send` throws unless the connection is open. -/
def localCall (c : Conn) : Call → Conn
  | .sendText s => if c.state ≠ .opened then c else sendDataFrame w o c opcodeText (utf8 s)
  | .sendBinary data => if c.state ≠ .opened then c else sendDataFrame w o c opcodeBinary data
  | .ping payload =>
      if c.state ≠ .opened then c else sendFrame w o .other c opcodePing payload false
  | .close code reason => close w o c code reason

/-- `emit`, with what the listeners call. -/
def emit (c : Conn) (e : Event) : Conn :=
  (w.react c.events.length).foldl (localCall w o) { c with events := c.events ++ [e] }

/-- The end of `_emitMessage`. -/
def deliver (c : Conn) (opcode : Nat) (data : Bytes) : Conn :=
  if opcode = opcodeText then
    match textDecode data with
    | some str => emit w o c (.text str)
    | none => abort w o c closeInvalidPayload (units "text frame is not valid UTF-8")
  else emit w o c (.binary data)

def emitMessage (c : Conn) (g : Frag) : Conn :=
  let data := g.chunks.flatten
  let c := { c with frag := none }
  if g.compressed then
    match w.inflate data with
    | .error message =>
        abort w o c closeInvalidPayload (units "permessage-deflate inflate failed: " ++ message)
    | .ok data =>
        if data.length > o.maxMessageBytes then
          abort w o c closeMessageTooBig (units "decompressed message exceeds maxMessageBytes")
        else deliver w o c g.opcode data
  else deliver w o c g.opcode data

def appendFragment (c : Conn) (g : Frag) (frame : Frame) : Conn :=
  if g.chunks.length ≥ o.maxFragments then
    abort w o c closeMessageTooBig
      (units "message exceeds the maximum fragment count (" ++ natText o.maxFragments ++ units ")")
  else
    let newLen := g.len + frame.payload.length
    if newLen > o.maxMessageBytes then
      abort w o c closeMessageTooBig (units "message exceeds maxMessageBytes")
    else
      let g := { g with chunks := g.chunks ++ [frame.payload], len := newLen }
      let c := { c with frag := some g }
      if frame.fin then emitMessage w o c g else c

/-- The echo of a Close frame, and the end of the connection. -/
def finishClose (c : Conn) (code : Nat) (reason : JsString) : Conn :=
  let c := if c.closeSent then c
    else { sendCloseFrame w o .other c code reason with closeSent := true }
  transitionToClosed o c code reason true none

def handleClose (c : Conn) (frame : Frame) : Conn :=
  match frame.payload with
  | [] => finishClose w o c closeNormal []
  | [_] => abort w o c closeProtocolError
      (units "close frame payload must be 0 or >=2 bytes (RFC 6455 §5.5.1)")
  | b0 :: b1 :: text =>
      let code := beValue [b0, b1]
      if ¬ isValidCloseCode code then
        abort w o c closeProtocolError
          (units "close code " ++ natText code ++ units " is reserved or invalid (RFC 6455 §7.4.2)")
      else
        match textDecode text with
        | some reason => finishClose w o c code reason
        | none => abort w o c closeInvalidPayload (units "close reason is not valid UTF-8")

/-- What is wrong with a frame wherever it stands. -/
def frameFault (frame : Frame) : Option String :=
  if ¬ o.h2 ∧ ¬ frame.masked then some "client frame not masked (h1)"
  else if o.h2 ∧ frame.masked then some "frame must not be masked (h2)"
  else if frame.rsv2 ∨ frame.rsv3 then some "reserved bits set without extension"
  else if frame.rsv1 ∧ ¬ o.permessageDeflate then
    some "RSV1 set without permessage-deflate negotiated"
  else if frame.rsv1 ∧ frame.opcode = opcodeContinuation then
    some "RSV1 on continuation frame (must be on start)"
  else if frame.rsv1 ∧ frame.opcode ≥ 0x8 then some "RSV1 set on control frame (RFC 7692 §6.1)"
  else if frame.opcode ≥ 0x8 ∧ frame.payload.length > 125 then
    some "control frame payload exceeds 125 bytes (RFC 6455 §5.5)"
  else if frame.opcode ≥ 0x8 ∧ ¬ frame.fin then
    some "control frame must not be fragmented (RFC 6455 §5.5)"
  else none

def handleFrame (now : Int) (c : Conn) (frame : Frame) : Conn :=
  match frameFault o frame with
  | some reason => abort w o c closeProtocolError (units reason)
  | none =>
      if frame.opcode = opcodeContinuation then
        match c.frag with
        | none => abort w o c closeProtocolError (units "continuation without start")
        | some g => appendFragment w o c g frame
      else if frame.opcode = opcodeText ∨ frame.opcode = opcodeBinary then
        match c.frag with
        | some _ => abort w o c closeProtocolError (units "new message during fragmentation")
        | none =>
            let g : Frag := ⟨frame.opcode, [frame.payload], frame.payload.length, frame.rsv1⟩
            let c := { c with frag := some g }
            if frame.fin then emitMessage w o c g else c
      else if frame.opcode = opcodeClose then handleClose w o c frame
      else if frame.opcode = opcodePing then
        sendFrame w o .other (emit w o c (.ping frame.payload)) opcodePong frame.payload false
      else if frame.opcode = opcodePong then
        emit w o { c with lastPongAt := now } (.pong frame.payload)
      else
        abort w o c closeProtocolError (units "unknown opcode " ++ natText frame.opcode)

/-- The loop of `_onData`. -/
def handleFrames (now : Int) (c : Conn) : List Frame → Conn
  | [] => c
  | frame :: frames =>
      let c := handleFrame w o now c frame
      if c.state = .closed then c else handleFrames now c frames

/-- `_onData`. When the parser throws, the frames before are lost with it. -/
def onData (now : Int) (c : Conn) (chunk : Bytes) : Conn :=
  let d := drain (tryParseFrame o.maxMessageBytes) (c.buffer ++ chunk)
  let c := { c with buffer := d.rest }
  match d.refusal with
  | some message => abort w o c closeMessageTooBig message
  | none => handleFrames w o now c d.items

def heartbeat (now : Int) (c : Conn) : Conn :=
  if c.state ≠ .opened then c
  else if now - c.lastPongAt > o.pongTimeoutMs then
    abort w o c closeInternalError (units "ping timeout — peer unresponsive")
  else sendFrame w o .other c opcodePing [] false

/-! ## Runs -/

/-- A connection with the bytes that arrived. -/
structure St where
  conn : Conn
  received : Bytes

def St.init (now : Int) : St := ⟨Conn.init now, []⟩

inductive Action where
  | data (now : Int) (chunk : Bytes)
  | call (k : Call)
  | heartbeat (now : Int)
  /-- The close timer runs out. -/
  | timeout
  | socketError (message : JsString)
  /-- The socket closes, or the peer ends it. -/
  | socketClose
  deriving DecidableEq, Repr

def step (s : St) : Action → Option St
  | .data now chunk => some ⟨onData w o now s.conn chunk, s.received ++ chunk⟩
  | .call k => some { s with conn := localCall w o s.conn k }
  | .heartbeat now => some { s with conn := heartbeat w o now s.conn }
  | .timeout =>
      match s.conn.closeTimer with
      | none => none
      | some (code, reason) => some { s with
          conn := transitionToClosed o { s.conn with closeTimer := none } code reason false none }
  | .socketError message => some { s with
      conn := transitionToClosed o s.conn closeAbnormal
        (if message = [] then units "socket error" else message) false (some message) }
  | .socketClose => some { s with
      conn := transitionToClosed o s.conn closeAbnormal (units "abnormal closure") false none }

end Blamejs.WebSocket
