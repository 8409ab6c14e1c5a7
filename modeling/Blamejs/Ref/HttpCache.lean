import Blamejs.Js.ToNumber
import Blamejs.Js.Uri
import Blamejs.Lib.LossyStore
import Blamejs.Ref.CanonicalJson
import Blamejs.Ref.StructuredFields

/-!
# The outbound HTTP cache (`lib/http-client-cache.js`)

A response is stored under the text of its method, normalized URL and the values of
the request headers its `Vary` names; one with a `Vary` leaves a marker with those
names under the text without them, where a lookup begins. The store is the operator's
and may lose what it is given.

The platform's letter case, dates and URLs are parameters, and so are the two checks
of a host name. A length of time is a whole number of milliseconds.
-/

namespace Blamejs.HttpCache

open Blamejs.Js LossyStore StructuredFields

/-! ## The platform -/

/-- A `URL`. Its parameters are pairs of texts without lone surrogates. -/
structure Url where
  protocol : JsString
  username : JsString
  password : JsString
  host : JsString
  hostname : JsString
  pathname : JsString
  search : JsString
  searchParams : List (List Char × List Char)
  /-- Where the authority of such a URL ends, and its path. -/
  parts : protocol = units "http:" ∨ protocol = units "https:" →
    unit '/' ∉ host ∧ pathname.head? = some (unit '/') ∧ unit '?' ∉ pathname
  params : search = [] → searchParams = []

structure Platform where
  toLowerCase : JsString → JsString
  toUpperCase : JsString → JsString
  /-- `Date.parse`, none for NaN. -/
  dateParse : JsString → Option Int
  /-- `new URL(url)`. -/
  newUrl : JsString → Option Url
  aceLabelsCarryPayload : JsString → Bool
  /-- A label of the host name mixes scripts. -/
  mixesScripts : JsString → Bool
  toLowerCase_lower : ∀ s : JsString, (∀ u ∈ s, u.toNat < 0x80 ∧ ¬ (65 ≤ u.toNat ∧ u.toNat ≤ 90)) →
    toLowerCase s = s
  toUpperCase_upper : ∀ s : JsString, (∀ u ∈ s, u.toNat < 0x80 ∧ ¬ (97 ≤ u.toNat ∧ u.toNat ≤ 122)) →
    toUpperCase s = s

variable (p : Platform)

/-! ## Headers -/

inductive HeaderValue where
  | undefined
  | null
  | text (s : JsString)
  | list (l : List JsString)
  deriving DecidableEq, Repr

/-- `String(v)`. -/
def HeaderValue.string : HeaderValue → JsString
  | .undefined => units "undefined"
  | .null => units "null"
  | .text s => s
  | .list l => [unit ','].intercalate l

/-- The own properties of a header object, in order. -/
abbrev Headers := List (JsString × HeaderValue)

def lcHeaders (headers : Headers) : Headers :=
  headers.foldl (fun out e => mapSet out (p.toLowerCase e.1) e.2) []

def headerOne (headers : Headers) (name : JsString) : Option JsString :=
  match headers.lookup name with
  | none | some .undefined | some .null => none
  | some (.list l) => l.head?
  | some (.text s) => some s

def hasAuthorization (requestHeaders : Headers) : Bool :=
  match requestHeaders.find? fun e => p.toLowerCase e.1 = units "authorization" with
  | none | some (_, .undefined) | some (_, .null) => false
  | some (_, v) => v.string ≠ []

abbrev Directives := List (JsString × JsString)

/-- One directive of a `Cache-Control`. -/
def directive (piece : JsString) : JsString × JsString :=
  let isEq := fun u => u ≠ unit '='
  let k := if unit '=' ∈ piece then trim (piece.takeWhile isEq) else piece
  let v := if unit '=' ∈ piece then trim ((piece.dropWhile isEq).drop 1) else []
  let v := if v.length ≥ 2 ∧ v.head? = some (unit '"') ∧ v.getLast? = some (unit '"') then
    unescapeSfStringBody ((v.drop 1).dropLast) else v
  (p.toLowerCase k, v)

def parseCacheControl (value : Option JsString) : Directives :=
  (((splitTopLevel (value.getD []) (unit ',')).map trim).filter (· ≠ [])).foldl
    (fun out piece => mapSet out (directive p piece).1 (directive p piece).2) []

/-- `parseInt(s, 10)`, none for NaN. -/
def parseInt10 (s : JsString) : Option Int :=
  let s := s.dropWhile isWhite
  let neg := s.head? = some (unit '-')
  let digits := (if neg ∨ s.head? = some (unit '+') then s.drop 1 else s).takeWhile isDigitUnit
  if digits = [] then none
  else some (if neg then -(digitsValue digits : Int) else digitsValue digits)

/-- What is finite and not negative. -/
def wholeNumber (s : JsString) : Option Nat :=
  match parseInt10 s with
  | none => none
  | some n => if (Double.ofInt n).isFinite ∧ 0 ≤ n then some n.toNat else none

def ccNumber (directives : Directives) (name : String) : Option Nat :=
  (directives.lookup (units name)).bind wholeNumber

def ccPresent (directives : Directives) (name : String) : Bool :=
  (directives.lookup (units name)).isSome

def parseHttpDate (s : Option JsString) : Option Int :=
  match s with
  | none | some [] => none
  | some s => p.dateParse s

/-! ## Keys -/

def allowHttpAll : List JsString := [units "http:", units "https:"]

def maxUrlLength : Nat := 8192

/-- `safeUrl.parse(url, { allowedProtocols: ALLOW_HTTP_ALL })`, none where it throws. -/
def safeUrlParse (url : JsString) : Option Url :=
  if url = [] then none
  else if url.length > maxUrlLength then none
  else
    match p.newUrl url with
    | none => none
    | some u =>
        if u.hostname ≠ [] ∧ p.aceLabelsCarryPayload u.hostname = false then none
        else if u.protocol ∉ allowHttpAll then none
        else if u.username ≠ [] ∨ u.password ≠ [] then none
        else if u.hostname ≠ [] ∧ p.mixesScripts u.hostname = true then none
        else some u

/-- The order of the parameters: by name, then by value. -/
def paramLE (a b : List Char × List Char) : Prop :=
  if a.1 ≠ b.1 then unitLE (ofScalars a.1) (ofScalars b.1)
  else unitLE (ofScalars a.2) (ofScalars b.2)

instance : DecidableRel paramLE := fun a b => by unfold paramLE; infer_instance

def paramText (e : List Char × List Char) : JsString :=
  encodeURIComponent e.1 ++ unit '=' :: encodeURIComponent e.2

def normalizedSearch (u : Url) : JsString :=
  if u.search = [] ∨ u.searchParams = [] then []
  else unit '?' :: [unit '&'].intercalate ((u.searchParams.insertionSort paramLE).map paramText)

def normalizeUrl (url : JsString) : JsString :=
  match safeUrlParse p url with
  | none => url
  | some u =>
      let origin := u.protocol ++ units "//" ++ u.host
      let pathOnly := if u.pathname = [] then units "/" else u.pathname
      origin ++ pathOnly ++ normalizedSearch u

/-- Request headers by name, with their texts. -/
abbrev VaryValues := List (JsString × Option JsString)

/-- The array of one header; each array has an identity of its own. -/
def pairValue (i : Nat) (pair : JsString × Option JsString) : CanonicalJson.Value :=
  .arr (i + 2) [.str pair.1, pair.2.elim .null .str]

def varyValue (vary : VaryValues) : CanonicalJson.Value :=
  .arr 1 (vary.zipIdx.map fun e => pairValue e.2 e.1)

def keyShape (m u : JsString) (vary : VaryValues) : CanonicalJson.Value :=
  .obj 0 [(units "m", .str m), (units "u", .str u), (units "v", varyValue vary)]

/-- `String(method || "GET").toUpperCase()`. -/
def methodText (method : JsString) : JsString :=
  p.toUpperCase (if method = [] then units "GET" else method)

/-- The text is there for every such shape. -/
def buildCacheKey (method url : JsString) (varyHeaderValues : VaryValues) : JsString :=
  match CanonicalJson.stringify (keyShape (methodText p method) (normalizeUrl p url)
    varyHeaderValues) none with
  | .ok text => text
  | .error message => message

/-- The names of a `Vary`. -/
def varyNames (varyHeader : JsString) : List JsString :=
  ((varyHeader.splitOn (unit ',')).map fun s => p.toLowerCase (trim s)).filter (· ≠ [])

/-- `v === undefined ? null : String(v)`. -/
def headerText (lcReq : Headers) (name : JsString) : Option JsString :=
  match lcReq.lookup name with
  | none | some .undefined => none
  | some v => some v.string

/-- The names in order, with the texts the request has under them. -/
def varyPairs (names : List JsString) (requestHeaders : Headers) : VaryValues :=
  (names.insertionSort unitLE).map fun name => (name, headerText (lcHeaders p requestHeaders) name)

def extractVaryValues (varyHeader : Option JsString) (requestHeaders : Headers) :
    Option VaryValues :=
  match varyHeader with
  | none | some [] => some []
  | some varyHeader =>
      let names := varyNames p varyHeader
      if units "*" ∈ names then none else some (varyPairs p names requestHeaders)

/-! ## Whether to store -/

def cacheableStatuses : List Nat := [200, 203, 204, 206, 300, 301, 308, 404, 405, 410, 414, 501]

def hopByHop : List String :=
  ["connection", "keep-alive", "proxy-authenticate", "proxy-authorization", "te", "trailer",
    "transfer-encoding", "upgrade"]

def heuristicMaxAgeMs : Int := 86400000

structure Evaluation where
  cacheable : Bool
  reason : Option String
  freshnessMs : Int
  directives : Directives
  varyHeader : Option JsString
  deriving DecidableEq, Repr

/-- `C.TIME.seconds(n)`. -/
def seconds (n : Nat) : Int := n * 1000

/-- `/no-cache/i.test(pragma)`. -/
def pragmaNoCache (pragma : JsString) : Bool :=
  let lower := pragma.map fun u => if 65 ≤ u.toNat ∧ u.toNat ≤ 90 then u + 32 else u
  lower.tails.any fun t => (units "no-cache").isPrefixOf t

/-- An authorization does not keep the response from being shared. -/
def authShareable (directives : Directives) : Bool :=
  ccPresent directives "public" || ccPresent directives "must-revalidate" ||
    (ccNumber directives "s-maxage").isSome

/-- The lifetime that the headers give, none where they give none. -/
def freshness (sMaxage maxage : Option Nat) (date expires lastModified : Option Int) (now : Int) :
    Option Int :=
  match sMaxage, maxage, expires with
  | some n, _, _ => some (seconds n)
  | none, some n, _ => some (seconds n)
  | none, none, some expires => some (expires - date.getD now)
  | none, none, none =>
      match lastModified, date with
      | some lastModified, some date =>
          if date - lastModified > 0 then
            some (min ((date - lastModified) / 10) heuristicMaxAgeMs)
          else none
      | _, _ => none

def evaluateStorage (now : Int) (method : JsString) (statusCode : Nat) (responseHeaders : Headers)
    (sharedCache : Bool) (requestHeaders : Headers) : Evaluation :=
  let lcResp := lcHeaders p responseHeaders
  let directives := parseCacheControl p (headerOne lcResp (units "cache-control"))
  let varyHeader := headerOne lcResp (units "vary")
  let pragma := headerOne lcResp (units "pragma")
  let refuse (reason : String) : Evaluation := ⟨false, some reason, -1, directives, varyHeader⟩
  let accept (reason : Option String) (freshnessMs : Int) : Evaluation :=
    ⟨true, reason, freshnessMs, directives, varyHeader⟩
  if methodText p method ≠ units "GET" ∧ methodText p method ≠ units "HEAD" then
    refuse "method-not-cacheable"
  else if statusCode ∉ cacheableStatuses then refuse "status-not-cacheable"
  else if ccPresent directives "no-store" then refuse "no-store"
  else if sharedCache ∧ ccPresent directives "private" then refuse "private"
  else if sharedCache ∧ hasAuthorization p requestHeaders ∧ ¬ authShareable directives then
    refuse "authorization-shared"
  else if units "*" ∈ ((varyHeader.getD []).splitOn (unit ',')).map trim then refuse "vary-star"
  else
    let sMaxage := if sharedCache then ccNumber directives "s-maxage" else none
    let maxage := ccNumber directives "max-age"
    let date := parseHttpDate p (headerOne lcResp (units "date"))
    let expires := parseHttpDate p (headerOne lcResp (units "expires"))
    let lastModified := parseHttpDate p (headerOne lcResp (units "last-modified"))
    let etag := headerOne lcResp (units "etag")
    if pragmaNoCache (pragma.getD []) ∧ maxage = none ∧ sMaxage = none ∧ expires = none ∧
        ¬ ccPresent directives "max-age" ∧ ¬ ccPresent directives "s-maxage" then
      accept (some "pragma-no-cache") 0
    else if ccPresent directives "no-cache" then accept (some "no-cache") 0
    else
      match freshness sMaxage maxage date expires lastModified now with
      | none =>
          -- a modification at the epoch counts as none
          if etag.getD [] = [] ∧ lastModified.getD 0 = 0 then refuse "no-freshness-no-validator"
          else accept (some "validator-only") 0
      | some freshnessMs =>
          if freshnessMs < 0 then refuse "expires-in-past" else accept none freshnessMs

/-! ## The cache -/

structure Entry where
  method : JsString
  url : JsString
  varyHeader : Option JsString
  varyValues : VaryValues
  statusCode : Nat
  headers : Headers
  body : List UInt8
  storedAtMs : Int
  dateMs : Option Int
  ageHeaderSec : Nat
  freshnessMs : Int
  directives : Directives
  etag : Option JsString
  lastModified : Option JsString
  /-- None in an entry that does not say. -/
  hadAuthorization : Option Bool
  deriving DecidableEq

structure Marker where
  varyNames : List JsString
  method : JsString
  url : JsString
  storedAtMs : Int
  deriving DecidableEq

inductive Cell where
  | entry (e : Entry)
  | marker (m : Marker)
  deriving DecidableEq

abbrev Cells := Store JsString Cell

/-- What becomes of the operations on the store in one call, in their order. -/
abbrev Fates := Nat → Fate JsString

/-- A response and the request it was received for. -/
structure Exchange where
  method : JsString
  url : JsString
  requestHeaders : Headers
  statusCode : Nat
  responseHeaders : Headers
  body : List UInt8

/-- The text of a header, none also when it is empty. -/
def nonEmpty (o : Option JsString) : Option JsString := o.filter (· ≠ [])

def buildEntry (now : Int) (x : Exchange) (evaluation : Evaluation) : Option Entry :=
  let lcResp := lcHeaders p x.responseHeaders
  match extractVaryValues p evaluation.varyHeader x.requestHeaders with
  | none => none
  | some varyValues => some {
      method := methodText p x.method
      url := x.url
      varyHeader := nonEmpty evaluation.varyHeader
      varyValues := varyValues
      statusCode := x.statusCode
      headers := x.responseHeaders
      body := x.body
      storedAtMs := now
      dateMs := parseHttpDate p (headerOne lcResp (units "date"))
      ageHeaderSec := (wholeNumber ((headerOne lcResp (units "age")).getD (units "0"))).getD 0
      freshnessMs := evaluation.freshnessMs
      directives := evaluation.directives
      etag := headerOne lcResp (units "etag")
      lastModified := headerOne lcResp (units "last-modified")
      hadAuthorization := some (hasAuthorization p x.requestHeaders) }

/-- `_lookup`: what is stored under the key without `Vary`. -/
def lookup (f : Fates) (cells : Cells) (method url : JsString) :
    Option (JsString × Cell) × Cells :=
  let noVaryKey := buildCacheKey p method url []
  match get (f 0) cells noVaryKey with
  | (some got, cells) => (some (noVaryKey, got), cells)
  | (none, cells) => (none, cells)

def resolveEntryWithVary (f : Fates) (cells : Cells) (method url : JsString)
    (requestHeaders : Headers) : Option (JsString × Cell) × Cells :=
  match lookup p f cells method url with
  | (some (_, .marker m), cells) =>
      let realKey := buildCacheKey p method url (varyPairs p m.varyNames requestHeaders)
      match get (f 1) cells realKey with
      | (some realEntry, cells) => (some (realKey, realEntry), cells)
      | (none, cells) => (none, cells)
  | result => result

/-- `_lookupWithVary`. A shared cache drops an entry that does not say whether the
request had an authorization. -/
def lookupWithVary (sharedCache : Bool) (f : Fates) (cells : Cells) (method url : JsString)
    (requestHeaders : Headers) : Option (JsString × Cell) × Cells :=
  match resolveEntryWithVary p f cells method url requestHeaders with
  | (some (key, .entry e), cells) =>
      if sharedCache ∧ e.hadAuthorization = none then (none, delete (f 2) cells key)
      else (some (key, .entry e), cells)
  | result => result

def Entry.hasVary (e : Entry) : Bool := e.varyHeader.isSome && e.varyValues ≠ []

/-- The key that an entry is stored under. -/
def Entry.key (method : JsString) (e : Entry) : JsString :=
  buildCacheKey p method e.url (if e.hasVary then e.varyValues else [])

/-- `_store`. -/
def store (now : Int) (f : Fates) (cells : Cells) (x : Exchange) (evaluation : Evaluation) :
    Bool × Cells :=
  match buildEntry p now x evaluation with
  | none => (false, cells)
  | some entry =>
      let cells := set (f 0) cells (entry.key p x.method) (.entry entry)
      if (f 0).throws then (false, cells)
      else if entry.hasVary then
        let marker := ⟨entry.varyValues.map Prod.fst, entry.method, entry.url, entry.storedAtMs⟩
        (true, set (f 1) cells (buildCacheKey p x.method x.url []) (.marker marker))
      else (true, cells)

/-- `_maybeStore` of `lib/http-client.js`, where a response comes in. -/
def maybeStore (sharedCache : Bool) (now : Int) (f : Fates) (cells : Cells) (x : Exchange) :
    Bool × Cells :=
  let evaluation := evaluateStorage p now x.method x.statusCode x.responseHeaders sharedCache
    x.requestHeaders
  if evaluation.cacheable then store p now f cells x evaluation else (false, cells)

def merge304Headers (stored fresh304Headers : Headers) : Headers :=
  (lcHeaders p fresh304Headers).foldl
    (fun merged e =>
      if e.1 ∈ hopByHop.map units ∨ e.1 = units "content-length" then merged
      else
        match merged.find? fun o => p.toLowerCase o.1 = e.1 with
        | some existing => mapSet merged existing.1 e.2
        | none => mapSet merged e.1 e.2)
    stored

/-- `reqHeadersForGate`. -/
def reqHeadersForGate (stored : Entry) : Headers :=
  if stored.hadAuthorization = some false then []
  else [(units "authorization", .text (units "1"))]

/-- `_refreshFrom304`: the entry that is served, and the store after. -/
def refreshFrom304 (sharedCache : Bool) (now : Int) (f : Fates) (cells : Cells) (stored : Entry)
    (fresh304Headers : Headers) : Entry × Cells :=
  let mergedHeaders := merge304Headers p stored.headers fresh304Headers
  let evaluation := evaluateStorage p now stored.method stored.statusCode mergedHeaders sharedCache
    (reqHeadersForGate stored)
  let lcMerged := lcHeaders p mergedHeaders
  let refreshed : Entry := { stored with
    headers := mergedHeaders
    storedAtMs := now
    dateMs := parseHttpDate p (headerOne lcMerged (units "date"))
    ageHeaderSec := (wholeNumber ((headerOne lcMerged (units "age")).getD (units "0"))).getD 0
    freshnessMs := if evaluation.freshnessMs ≥ 0 then evaluation.freshnessMs else stored.freshnessMs
    directives := evaluation.directives
    etag := (nonEmpty (headerOne lcMerged (units "etag"))).or stored.etag
    lastModified := (nonEmpty (headerOne lcMerged (units "last-modified"))).or stored.lastModified }
  let key := refreshed.key p refreshed.method
  if evaluation.cacheable then (refreshed, set (f 0) cells key (.entry refreshed))
  else (refreshed, delete (f 0) cells key)

def invalidate (sharedCache : Bool) (f : Fates) (cells : Cells) (method url : JsString)
    (requestHeaders : Headers) : Bool × Cells :=
  match lookupWithVary p sharedCache f cells method url requestHeaders with
  | (none, cells) => (false, cells)
  | (some (key, _), cells) =>
      let cells := delete (f 3) cells key
      if (f 3).throws then (false, cells)
      else (true, delete (f 4) cells (buildCacheKey p method url []))

/-! ## Runs -/

/-- A cache in use, with what was offered to it and what its lookups returned. -/
structure St where
  cells : Cells
  offered : List Exchange
  returned : List Entry

def St.init : St := ⟨LossyStore.empty, [], []⟩

inductive Action where
  | store (now : Int) (f : Fates) (x : Exchange)
  | lookup (f : Fates) (method url : JsString) (requestHeaders : Headers)
  /-- A 304 for an entry that a lookup returned. -/
  | refresh (now : Int) (f : Fates) (e : Entry) (fresh304Headers : Headers)
  | invalidate (f : Fates) (method url : JsString) (requestHeaders : Headers)
  | clear (f : Fate JsString)
  /-- Between two calls. -/
  | evict (f : Fate JsString)

/-- The entry that a lookup answers with. -/
def returnedEntry : Option (JsString × Cell) → Option Entry
  | some (_, .entry e) => some e
  | _ => none

def step (sharedCache : Bool) (s : St) : Action → Option St
  | .store now f x => some { s with
      cells := (maybeStore p sharedCache now f s.cells x).2
      offered := s.offered ++ [x] }
  | .lookup f method url requestHeaders =>
      let (result, cells) := lookupWithVary p sharedCache f s.cells method url requestHeaders
      some { s with cells := cells, returned := s.returned ++ (returnedEntry result).toList }
  | .refresh now f e fresh304Headers =>
      if e ∈ s.returned then
        some { s with cells := (refreshFrom304 p sharedCache now f s.cells e fresh304Headers).2 }
      else none
  | .invalidate f method url requestHeaders =>
      some { s with cells := (invalidate p sharedCache f s.cells method url requestHeaders).2 }
  | .clear f => some { s with cells := LossyStore.clear f s.cells }
  | .evict f => some { s with cells := kept f s.cells }

end Blamejs.HttpCache
