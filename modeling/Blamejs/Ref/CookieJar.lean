import Blamejs.Js.LowerCase
import Blamejs.Ref.HttpCache

/-!
# A cookie jar (`lib/http-client-cookie-jar.js`)

The store is a map from joined keys to entries, in the order of insertion. What
`safeUrl.parse` makes of the text of a URL, the case data of Unicode, `Date.parse` and
the vault are parameters; `httpOnly`, `sameSite` and `updatedAt`, which no request reads,
are left out.
-/

namespace Blamejs.CookieJar

open Blamejs.Js StructuredFields

structure Url where
  hostname : JsString
  pathname : JsString
  https : Bool
  deriving DecidableEq, Repr

structure Platform where
  /-- `safeUrl.parse`, none where it throws. -/
  parse : JsString → Option Url
  cases : CaseTable
  parseDate : JsString → Option Int
  sealValue : JsString → JsString
  unsealValue : JsString → JsString

/-! ## Set-Cookie -/

structure Parsed where
  name : JsString
  value : JsString
  attrs : List (JsString × JsString)
  deriving DecidableEq, Repr

/-- Around the first `=`. -/
def cutEquals (s : JsString) : JsString × JsString :=
  (s.takeWhile (· ≠ unit '='), (s.dropWhile (· ≠ unit '=')).drop 1)

/-- `unquoteSfString`. -/
def unquoteSfString (s : JsString) : Option JsString :=
  let t := trim s
  if t = [] then some []
  else if t.head? ≠ some (unit '"') then some t
  else if t.length < 2 ∨ t.getLast? ≠ some (unit '"') then none
  else some (unescapeSfStringBody ((t.drop 1).dropLast))

/-- One attribute, with its name in small letters. -/
def attributeOf (T : CaseTable) (p : JsString) : JsString × JsString :=
  let (k, v) := if unit '=' ∈ p then ((trim (cutEquals p).1), trim (cutEquals p).2) else (p, [])
  (toLowerCase T k, (unquoteSfString v).getD v)

/-- `_parseSetCookie`. -/
def parseSetCookie (T : CaseTable) (line : JsString) : Option Parsed :=
  let head := trim (line.takeWhile (· ≠ unit ';'))
  if unit '=' ∉ head ∨ trim (cutEquals head).1 = [] then none
  else
    let parts := if unit ';' ∈ line then
      splitTopLevel ((line.dropWhile (· ≠ unit ';')).drop 1) (unit ';') else []
    some ⟨trim (cutEquals head).1, trim (cutEquals head).2,
      ((parts.map trim).filter (· ≠ [])).foldl
        (fun attrs p => mapSet attrs (attributeOf T p).1 (attributeOf T p).2) []⟩

/-! ## Matching -/

/-- `_domainMatch`. -/
def domainMatch (host cookieDomain : JsString) : Bool :=
  host = cookieDomain || (unit '.' :: cookieDomain).isSuffixOf host

/-- `_pathMatch`. -/
def pathMatch (reqPath cookiePath : JsString) : Bool :=
  cookiePath = reqPath ||
    (cookiePath.isPrefixOf reqPath &&
      (cookiePath.getLast? = some (unit '/') || reqPath[cookiePath.length]? = some (unit '/')))

/-- `_defaultPath`. -/
def defaultPath (reqPath : JsString) : JsString :=
  let p := reqPath.takeWhile (· ≠ unit '?')
  if p.head? ≠ some (unit '/') then [unit '/']
  else
    let front := (p.reverse.dropWhile (· ≠ unit '/')).drop 1
    if front = [] then [unit '/'] else front.reverse

/-! ## The store -/

/-- What identifies a cookie. -/
structure Triple where
  domain : JsString
  path : JsString
  name : JsString
  deriving DecidableEq, Repr

structure Cookie extends Triple where
  value : JsString
  hostOnly : Bool
  expiresAt : Option Int
  secure : Bool
  deriving DecidableEq, Repr

structure Entry where
  cookie : Cookie
  createdAt : Int
  deriving DecidableEq, Repr

abbrev Store := List (JsString × Entry)

/-- `domain + "|" + path + "|" + parsed.name`. -/
def Triple.key (t : Triple) : JsString :=
  t.domain ++ unit '|' :: (t.path ++ unit '|' :: t.name)

/-- `expiresAt !== null && expiresAt <= now`. -/
def Cookie.expired (c : Cookie) (now : Int) : Bool := c.expiresAt.any (· ≤ now)

/-- A number of seconds that is not finite makes `C.TIME.seconds` throw. -/
inductive Expiry where
  | at (expiresAt : Option Int)
  | throws

def expiry (P : Platform) (attrs : List (JsString × JsString)) (now : Int) : Expiry :=
  match attrs.lookup (units "max-age") with
  | some text =>
      match HttpCache.parseInt10 text with
      | none => .at none
      | some maxAge =>
          if maxAge ≤ 0 then .at (some 0)
          else if (Double.ofInt maxAge).isFinite then .at (some (now + maxAge * 1000)) else .throws
  | none =>
      match attrs.lookup (units "expires") with
      | none | some [] => .at none
      | some text => .at (P.parseDate text)

/-- The `Domain` attribute as it is compared. -/
def domainAttr (T : CaseTable) (attrs : List (JsString × JsString)) : Option JsString :=
  match attrs.lookup (units "domain") with
  | none | some [] => none
  | some text =>
      let d := toLowerCase T text
      some (if d.head? = some (unit '.') then d.drop 1 else d)

/-- The cookie of a response, unless its domain is refused or a clause throws. -/
def cookieOf (P : Platform) (u : Url) (parsed : Parsed) (now : Int) : Option Cookie :=
  let host := toLowerCase P.cases u.hostname
  let path := match parsed.attrs.lookup (units "path") with
    | some p => if p.head? = some (unit '/') then p else defaultPath u.pathname
    | none => defaultPath u.pathname
  let make := fun (domain : JsString) (hostOnly : Bool) =>
    match expiry P parsed.attrs now with
    | .throws => none
    | .at expiresAt =>
        some { domain, path, name := parsed.name, value := P.sealValue parsed.value, hostOnly,
               expiresAt, secure := (parsed.attrs.lookup (units "secure")).isSome }
  match domainAttr P.cases parsed.attrs with
  | some d => if domainMatch host d then make d false else none
  | none => make host true

/-- The end of `_setOne`. -/
def store (s : Store) (c : Cookie) (now : Int) : Store :=
  if c.expired now then s.filter fun e => e.1 ≠ c.key
  else mapSet s c.key ⟨c, ((s.lookup c.key).map Entry.createdAt).getD now⟩

/-- `_setOne`. -/
def setOne (P : Platform) (s : Store) (reqUrl : JsString) (parsed : Parsed) (now : Int) : Store :=
  match P.parse reqUrl with
  | none => s
  | some u =>
      match cookieOf P u parsed now with
      | none => s
      | some c => store s c now

/-- One line of `setFromResponse`. -/
def setLine (P : Platform) (s : Store) (reqUrl line : JsString) (now : Int) : Store :=
  match parseSetCookie P.cases line with
  | none => s
  | some parsed => setOne P s reqUrl parsed now

/-- The `Max-Age` of a line that gets as far as its expiry makes `C.TIME.seconds` throw. -/
def lineThrows (P : Platform) (reqUrl line : JsString) (now : Int) : Bool :=
  match parseSetCookie P.cases line, P.parse reqUrl with
  | some parsed, some u =>
      (domainAttr P.cases parsed.attrs).all (domainMatch (toLowerCase P.cases u.hostname)) &&
        match expiry P parsed.attrs now with
        | .throws => true
        | .at _ => false
  | _, _ => false

/-- `setFromResponse`, with a reading of the clock for each line; a throw ends it, and the
lines that follow are not read. -/
def setFromResponse (P : Platform) (reqUrl : JsString) (s : Store) :
    List (JsString × Int) → Store
  | [] => s
  | (line, now) :: lines =>
      if lineThrows P reqUrl line now then s
      else setFromResponse P reqUrl (setLine P s reqUrl line now) lines

/-- The filter of `clear`; a field that is empty is no condition. -/
structure Filter where
  domain : JsString
  name : JsString
  path : JsString
  deriving DecidableEq, Repr

def Filter.takes (f : Filter) (t : Triple) : Bool :=
  (f.domain = [] || t.domain = f.domain) && (f.name = [] || t.name = f.name) &&
    (f.path = [] || t.path = f.path)

/-- `clear`. -/
def clear (s : Store) : Option Filter → Store
  | none => []
  | some f => s.filter fun e => !f.takes e.2.cookie.toTriple

/-! ## Requests -/

/-- A cookie that goes with a request. -/
def Cookie.goesWith (P : Platform) (c : Cookie) (u : Url) (now : Int) : Bool :=
  let host := toLowerCase P.cases u.hostname
  let path := if u.pathname = [] then [unit '/'] else u.pathname
  !c.expired now && (if c.hostOnly then c.domain = host else domainMatch host c.domain) &&
    pathMatch path c.path && (!c.secure || u.https)

/-- The comparison of `matches.sort`. -/
def sortsBefore (a b : Entry) : Prop :=
  b.cookie.path.length < a.cookie.path.length ∨
    (a.cookie.path.length = b.cookie.path.length ∧ a.createdAt ≤ b.createdAt)

instance : DecidableRel sortsBefore := fun a b =>
  inferInstanceAs (Decidable (b.cookie.path.length < a.cookie.path.length ∨
    (a.cookie.path.length = b.cookie.path.length ∧ a.createdAt ≤ b.createdAt)))

/-- The entries that a request is sent with, in order. -/
def matching (P : Platform) (s : Store) (u : Url) (now : Int) : List Entry :=
  ((s.map Prod.snd).filter fun e => e.cookie.goesWith P u now).insertionSort sortsBefore

/-- `cookieHeaderFor`. -/
def cookieHeaderFor (P : Platform) (s : Store) (reqUrl : JsString) (now : Int) : Option JsString :=
  match P.parse reqUrl with
  | none => none
  | some u =>
      let found := matching P s u now
      if found = [] then none
      else some ((units "; ").intercalate
        (found.map fun e => e.cookie.name ++ unit '=' :: P.unsealValue e.cookie.value))

/-! ## Runs -/

inductive Op where
  | response (reqUrl : JsString) (lines : List (JsString × Int))
  | clear (filter : Option Filter)

/-- The store after an operation. -/
def step (P : Platform) (s : Store) : Op → Store
  | .response reqUrl lines => setFromResponse P reqUrl s lines
  | .clear filter => clear s filter

end Blamejs.CookieJar
