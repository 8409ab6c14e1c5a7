import Blamejs.Js.Base64
import Blamejs.Js.NumberText
import Blamejs.Lib.Expiry

/-!
# Idempotency keys (`lib/middleware/idempotency-key.js`)

The middleware over `memoryStore`, with `maxEntries` never reached, and the requests it is given
one after another, each with what the handler behind it would do. The clock of `Date.now` is read
when the request comes in and again when the handler is done, and only goes forward.

The body of a request is what the parsers before the middleware left in `_rawBody` or `body`.
-/

namespace Blamejs.IdempotencyKey

open Blamejs.Js

abbrev Bytes := List UInt8

/-! ## Requests -/

/-- A value of `_rawBody` or of `body` that is neither null nor undefined. -/
inductive Body where
  | text (s : JsString)
  | buffer (bytes : Bytes)
  /-- Any other object: a name for its value, and its `JSON.stringify`, none where that
  throws. -/
  | object (value : JsString) (json : Option JsString)
  /-- A number other than zero, or true, by its `JSON.stringify`. -/
  | scalar (json : JsString)
  deriving DecidableEq

def Body.truthy : Body → Bool
  | .text s => s ≠ []
  | _ => true

/-- A method and a target as the HTTP parser lets them through. -/
structure RequestLine where
  method : JsString
  url : JsString
  method_ne : method ≠ []
  method_token : ∀ u ∈ method, 0x21 ≤ u.toNat ∧ u.toNat ≤ 0x7E
  url_ne : url ≠ []
  url_line : unit '\n' ∉ url
  url_wellFormed : WellFormed url

/-- A request; `A` is what the scope is taken from. -/
structure Req (A : Type) extends RequestLine where
  /-- The values of the header that carries the key. -/
  keyHeader : List JsString
  rawBody : Option Body
  body : Option Body
  actor : A

structure Opts (A H : Type) where
  ttlMs : Nat
  /-- In upper case. -/
  methods : List JsString
  requireKey : Bool
  scopeFn : Req A → Option JsString
  /-- The bytes that the hook gives. -/
  bodyFingerprintFn : Option (Req A → Option Bytes)
  /-- `bodyFingerprintFallback: "deny"` -/
  deny : Bool
  maxBodyBytes : Nat
  /-- The digest of `_fingerprintRequest`. -/
  hash : Bytes → H
  /-- `problemDetails().getBase()` -/
  base : String

structure Problem where
  type : String
  title : String
  status : Nat
  detail : String
  deriving DecidableEq, Repr

variable {A H : Type}

def missingKey (o : Opts A H) : Problem where
  type := o.base ++ "/idempotency/missing-key"
  title := "Idempotency-Key header required"
  status := 400
  detail := "This endpoint requires an Idempotency-Key header (draft-ietf-httpapi-idempotency-key)."

def badKey (o : Opts A H) : Problem where
  type := o.base ++ "/idempotency/bad-key"
  title := "Idempotency-Key malformed"
  status := 400
  detail := "Idempotency-Key must be ASCII printable, length 1..255 (draft §2)."

def unnamedActor : Problem where
  type := "about:blank"
  title := "Idempotency scope unavailable"
  status := 400
  detail := "the request carries no actor this middleware can name, and one " ++
    "idempotency key would otherwise answer two principals from the same " ++
    "cache entry; name the field with the scopeFn option"

def missingBody (o : Opts A H) : Problem where
  type := o.base ++ "/idempotency/missing-body-fingerprint"
  title := "Idempotency body fingerprint unavailable"
  status := 400
  detail := "The idempotency middleware could not derive a body fingerprint for this " ++
    "request. Mount body-parser BEFORE the idempotency middleware, OR provide an " ++
    "opts.bodyFingerprint(req) hook. To restore the pre-0.9.58 method+path-only " ++
    "behavior, set opts.bodyFingerprintFallback=\"method-path-only\"."

def mismatch (o : Opts A H) : Problem where
  type := o.base ++ "/idempotency/key-reuse-mismatch"
  title := "Idempotency-Key reused with different request"
  status := 422
  detail := "The Idempotency-Key matches a prior request but the request body/method/path " ++
    "differs (draft §4.3)."

/-- `toUpperCase` of a method. -/
def toUpperCase (s : JsString) : JsString :=
  s.map fun u => if 97 ≤ u.toNat ∧ u.toNat ≤ 122 then u - 32 else u

/-- `KEY_RE` and `KEY_MAX_LEN`. -/
def validKey (key : JsString) : Bool :=
  key.length ≤ 255 && key.all fun u => 0x21 ≤ u.toNat && u.toNat ≤ 0x7E

/-- `req._rawBody || req.body || null` -/
def carried (req : Req A) : Option Body :=
  match req.rawBody.filter Body.truthy with
  | some b => some b
  | none => req.body.filter Body.truthy

/-- What the fingerprint takes of a body; a number has no `length`, and gives no bytes. -/
def Body.bytes : Body → Option Bytes
  | .text s => some (utf8 s)
  | .buffer bytes => some bytes
  | .object _ json => json.map utf8
  | .scalar _ => some []

def bodyBytes (o : Opts A H) (req : Req A) : Option Bytes :=
  match o.bodyFingerprintFn with
  | some fn => fn req
  | none => (carried req).bind Body.bytes

/-- What becomes of a request before the cache is read. -/
inductive Admission where
  /-- `next()`, with nothing captured. -/
  | bypass
  | refused (p : Problem)
  | asks (scope key : JsString) (bodyBytes : Option Bytes)
  deriving DecidableEq

def admission (o : Opts A H) (req : Req A) : Admission :=
  let method := toUpperCase req.method
  if method ∉ o.methods then .bypass
  else
    match req.keyHeader.head?.filter fun key => key ≠ [] with
    | none => if o.requireKey then .refused (missingKey o) else .bypass
    | some key =>
        if validKey key then
          match (o.scopeFn req).filter fun scope => scope ≠ [] with
          | none => .refused unnamedActor
          | some scope =>
              let bytes := bodyBytes o req
              if bytes = none ∧ method ∈ [units "POST", units "PUT", units "PATCH"] ∧ o.deny then
                .refused (missingBody o)
              else .asks scope key bytes
        else .refused (badKey o)

def scopedKey (scope key : JsString) : JsString :=
  natText scope.length ++ unit ':' :: (scope ++ unit ':' :: key)

def preimage (method url : JsString) (bodyBytes : Bytes) : Bytes :=
  utf8 (method ++ [unit '\n']) ++ (utf8 (url ++ [unit '\n']) ++ bodyBytes)

/-- `_fingerprintRequest` -/
def fingerprintRequest (o : Opts A H) (req : Req A) (bodyBytes : Option Bytes) : H :=
  o.hash (preimage req.method req.url (bodyBytes.getD []))

/-! ## The store -/

abbrev Headers := List (JsString × JsString)

structure Cached (H : Type) where
  fingerprint : H
  statusCode : Nat
  headers : Headers
  /-- Base64. -/
  body : JsString
  deriving DecidableEq

structure Entry (H : Type) where
  value : Cached H
  expiresAt : Nat
  deriving DecidableEq

abbrev Data (H : Type) := AList fun _ : JsString => Entry H

def get (now : Nat) (data : Data H) (key : JsString) : Option (Cached H) × Data H :=
  match data.lookup key with
  | none => (none, data)
  | some rec =>
      if rec.expiresAt < now then (none, data.erase key)
      else (some rec.value, data)

def set (now : Nat) (data : Data H) (key : JsString) (value : Cached H) (ttlMs : Nat) : Data H :=
  data.insert key ⟨value, now + ttlMs⟩

/-! ## What a handler writes -/

inductive Encoding where
  | utf8
  | utf16le
  | latin1
  | base64
  | hex
  deriving DecidableEq, Repr

def hexDigit (u : UInt16) : Option Nat :=
  let n := u.toNat
  if 48 ≤ n ∧ n ≤ 57 then some (n - 48)
  else if 65 ≤ n ∧ n ≤ 70 then some (n - 55)
  else if 97 ≤ n ∧ n ≤ 102 then some (n - 87)
  else none

/-- `Buffer.from(s, "hex")`: up to the first pair that is none. -/
def ofHex : JsString → Bytes
  | u :: v :: rest =>
      match hexDigit u, hexDigit v with
      | some a, some b => UInt8.ofNat (16 * a + b) :: ofHex rest
      | _, _ => []
  | _ => []

/-- `Buffer.from(s, encoding)`, and what the response writes of a string. -/
def encode : Encoding → JsString → Bytes
  | .utf8, s => utf8 s
  | .utf16le, s => s.flatMap fun u => [UInt8.ofNat (u.toNat % 256), UInt8.ofNat (u.toNat / 256)]
  | .latin1, s => s.map fun u => UInt8.ofNat (u.toNat % 256)
  | .base64, s => ofBase64 s
  | .hex, s => ofHex s

/-- A chunk that `write` accepts; a missing encoding is UTF-8. -/
inductive Chunk where
  | text (s : JsString) (encoding : Encoding)
  /-- A `Buffer`: what it holds, and what it holds when `end` joins the chunks. -/
  | buffer (bytes atEnd : Bytes)
  /-- A `Uint8Array` that is no `Buffer`. -/
  | byteArray (bytes : Bytes)
  deriving DecidableEq

/-- The first argument of `end`. -/
inductive Ending where
  | nothing
  | chunk (c : Chunk)
  /-- A callback, by its source text. -/
  | callback (source : JsString)
  deriving DecidableEq

inductive Act where
  | write (c : Chunk)
  | finish (e : Ending)
  deriving DecidableEq

/-- What a handler does: the status and headers it sets, then its calls on the response. -/
structure Output where
  statusCode : Nat
  headers : Headers
  acts : List Act
  deriving DecidableEq

/-- The bytes the response writes. -/
def Chunk.bytes : Chunk → Bytes
  | .text s encoding => encode encoding s
  | .buffer bytes _ => bytes
  | .byteArray bytes => bytes

def Ending.bytes : Ending → Bytes
  | .nothing => []
  | .chunk c => c.bytes
  | .callback _ => []

/-- `String(bytes)`: the elements in decimal, with commas. -/
def arrayText (bytes : Bytes) : JsString :=
  [unit ','].intercalate (bytes.map fun b => natText b.toNat)

/-- What `_toBuffer` gives the collector, as it stands in the end: a `Buffer` is not copied. -/
def toBuffer : Chunk → Bytes
  | .buffer _ atEnd => atEnd
  | .text s encoding => encode encoding s
  | .byteArray bytes => utf8 (arrayText bytes)

/-- What `_pushChunk` hands to the collector; none for a chunk that is falsy. -/
def Chunk.pushed : Chunk → Option Bytes
  | .text [] _ => none
  | c => some (toBuffer c)

def Ending.pushed : Ending → Option Bytes
  | .nothing => none
  | .chunk c => c.pushed
  | .callback source => some (utf8 source)

/-- The response with its wrapped writers. -/
structure Res (H : Type) where
  /-- `end` has been called; the response takes no more bytes. -/
  captured : Bool
  oversized : Bool
  collector : Bytes
  /-- What the response was given to send. -/
  sent : Bytes
  stored : Option (Cached H)
  deriving DecidableEq

def Res.fresh (H : Type) : Res H := ⟨false, false, [], [], none⟩

/-- `_pushChunk` -/
def pushChunk (o : Opts A H) (r : Res H) (pushed : Option Bytes) : Res H :=
  match pushed with
  | none => r
  | some bytes =>
      if r.oversized then r
      else if o.maxBodyBytes < r.collector.length + bytes.length then { r with oversized := true }
      else { r with collector := r.collector ++ bytes }

/-- `origWrite` -/
def send (r : Res H) (bytes : Bytes) : Res H :=
  if r.captured then r else { r with sent := r.sent ++ bytes }

/-- `res.statusCode || 200` -/
def Output.status (out : Output) : Nat := if out.statusCode = 0 then 200 else out.statusCode

/-- `success`, `redirect` or `clientError`. -/
def cacheable (status : Nat) : Bool := 200 ≤ status && status < 500

/-- `res.write` -/
def resWrite (o : Opts A H) (r : Res H) (c : Chunk) : Res H := send (pushChunk o r c.pushed) c.bytes

/-- `res.end` -/
def resEnd (o : Opts A H) (fingerprint : H) (out : Output) (r : Res H) (e : Ending) : Res H :=
  if r.captured then r
  else
    let r := pushChunk o r e.pushed
    let r := send r e.bytes
    if !r.oversized && cacheable out.status then
      { r with
        captured := true
        stored := some
          { fingerprint := fingerprint
            statusCode := out.status
            headers := out.headers.filter fun h => h.1 ≠ units "set-cookie"
            body := toBase64 r.collector } }
    else { r with captured := true }

def resAct (o : Opts A H) (fingerprint : H) (out : Output) (r : Res H) : Act → Res H
  | .write c => resWrite o r c
  | .finish e => resEnd o fingerprint out r e

/-- The response after all the handler does. -/
def runHandler (o : Opts A H) (fingerprint : H) (out : Output) : Res H :=
  out.acts.foldl (resAct o fingerprint out) (.fresh H)

/-- What a client receives of the bytes a response was given. -/
def onWire (method : JsString) (status : Nat) (sent : Bytes) : Bytes :=
  if method = units "HEAD" ∨ (100 ≤ status ∧ status < 200) ∨ status = 204 ∨ status = 304 then []
  else sent

/-- What the handler's calls give the client where the middleware stands aside. -/
def sentPlain : Bytes → List Act → Bytes
  | sent, [] => sent
  | sent, .write c :: acts => sentPlain (sent ++ c.bytes) acts
  | sent, .finish e :: _ => sent ++ e.bytes

/-! ## Requests one after another -/

structure Call (A : Type) where
  req : Req A
  arrives : Nat
  /-- What the handler does when it is run, and when it is done. -/
  out : Output
  done : Nat

inductive Answer where
  /-- By the handler. -/
  | handled (status : Nat) (body : Bytes)
  | problem (p : Problem)
  | replayed (status : Nat) (headers : Headers) (body : Bytes)
  deriving DecidableEq

structure Served (A H : Type) where
  call : Call A
  answer : Answer
  stored : Option (Cached H)

structure St (A H : Type) where
  now : Nat
  data : Data H
  /-- The newest first. -/
  log : List (Served A H)

def St.init (A H : Type) : St A H := ⟨0, ∅, []⟩

variable [DecidableEq H]

/-- `idempotencyMiddleware` -/
def serve (o : Opts A H) (data : Data H) (c : Call A) : Served A H × Data H :=
  match admission o c.req with
  | .bypass =>
      (⟨c, .handled c.out.status
        (onWire c.req.method c.out.status (sentPlain [] c.out.acts)), none⟩, data)
  | .refused p => (⟨c, .problem p, none⟩, data)
  | .asks scope key bytes =>
      let fingerprint := fingerprintRequest o c.req bytes
      match get c.arrives data (scopedKey scope key) with
      | (some cached, data) =>
          if cached.fingerprint ≠ fingerprint then (⟨c, .problem (mismatch o), none⟩, data)
          else
            (⟨c, .replayed cached.statusCode cached.headers
              (onWire c.req.method cached.statusCode (ofBase64 cached.body)), none⟩, data)
      | (none, data) =>
          let r := runHandler o fingerprint c.out
          (⟨c, .handled c.out.status (onWire c.req.method c.out.status r.sent), r.stored⟩,
            match r.stored with
            | some cached => set c.done data (scopedKey scope key) cached o.ttlMs
            | none => data)

def step (o : Opts A H) (s : St A H) (c : Call A) : Option (St A H) :=
  if s.now ≤ c.arrives ∧ c.arrives ≤ c.done then
    let (served, data) := serve o s.data c
    some ⟨c.done, data, served :: s.log⟩
  else none

end Blamejs.IdempotencyKey
