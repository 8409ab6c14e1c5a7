import Mathlib.Data.List.Basic

/-!
# Mail data (`lib/safe-smtp.js`, `lib/guard-smtp-command.js`)

The terminator, the stuffing of dots, and the screen for a dot on a line of its own that not
every peer sees as one. A loop over a buffer is a recursion over the bytes that are left, and is
handed what it looks back at. An index of -1 is `none`.
-/

namespace Blamejs.SafeSmtp

abbrev Bytes := List UInt8

def CR : UInt8 := 0x0D
def LF : UInt8 := 0x0A
def DOT : UInt8 := 0x2E

/-! ## The terminator -/

def findLoop (i : Nat) : Bytes → Option Nat
  | [] => none
  | b :: rest =>
      if (b :: rest).take 5 = [CR, LF, DOT, CR, LF] then some (i + 2) else findLoop (i + 1) rest

def findDotTerminator (buf : Bytes) (atBodyStart : Bool) : Option Nat :=
  if atBodyStart ∧ buf.take 3 = [DOT, CR, LF] then some 0 else findLoop 0 buf

/-! ## Stuffing -/

def unstuffLoop : Option UInt8 → Bytes → Bytes
  | _, [] => []
  | _, [b] => [b]
  | prev, b :: d :: rest =>
      if prev = some CR ∧ b = LF ∧ d = DOT ∧ rest ≠ [] ∧ rest.head? ≠ some CR then
        b :: unstuffLoop (some d) rest
      else b :: unstuffLoop (some b) (d :: rest)

def dotUnstuff (buf : Bytes) : Bytes :=
  if buf.take 2 = [DOT, DOT] then unstuffLoop (some DOT) buf.tail else unstuffLoop none buf

/-- The dots that are counted before anything is written. -/
def dotsLoop : Option UInt8 → Bytes → Nat
  | _, [] => 0
  | prev, b :: rest =>
      (if prev = some CR ∧ b = LF ∧ rest.head? = some DOT then 1 else 0) + dotsLoop (some b) rest

def stuffLoop : Option UInt8 → Bytes → Bytes
  | _, [] => []
  | prev, b :: rest =>
      if prev = some CR ∧ b = LF ∧ rest.head? = some DOT then
        b :: DOT :: stuffLoop (some b) rest
      else b :: stuffLoop (some b) rest

def dotStuff : Bytes → Bytes
  | [] => []
  | b :: rest =>
      let dots := (if b = DOT then 1 else 0) + dotsLoop (some b) rest
      if dots = 0 then b :: rest
      else if b = DOT then DOT :: b :: stuffLoop (some b) rest
      else b :: stuffLoop (some b) rest

/-! ## Line endings -/

/-- The octets that are missing. -/
def extraLoop : Option UInt8 → Bytes → Nat
  | _, [] => 0
  | prev, b :: rest =>
      (if b = LF then if prev ≠ some CR then 1 else 0
       else if b = CR then if rest.head? ≠ some LF then 1 else 0
       else 0) + extraLoop (some b) rest

def canonLoop : Bytes → Bytes
  | [] => []
  | b :: rest =>
      if b = CR then
        CR :: LF ::
          match rest with
          | [] => []
          | c :: rest' => if c = LF then canonLoop rest' else canonLoop (c :: rest')
      else if b = LF then CR :: LF :: canonLoop rest
      else b :: canonLoop rest

def canonicalizeEol (buf : Bytes) : Bytes :=
  if extraLoop none buf = 0 then buf else canonLoop buf

def wireLength (atLineStart : Bool) : Bytes → Nat
  | [] => 0
  | b :: rest =>
      if b = CR then
        2 + match rest with
          | [] => 0
          | c :: rest' => if c = LF then wireLength true rest' else wireLength true (c :: rest')
      else if b = LF then 2 + wireLength true rest
      else (if atLineStart ∧ b = DOT then 1 else 0) + 1 + wireLength false rest

def wireLoop (atLineStart : Bool) : Bytes → Bytes
  | [] => []
  | b :: rest =>
      if b = CR then
        CR :: LF ::
          match rest with
          | [] => []
          | c :: rest' => if c = LF then wireLoop true rest' else wireLoop true (c :: rest')
      else if b = LF then CR :: LF :: wireLoop true rest
      else if atLineStart ∧ b = DOT then DOT :: b :: wireLoop false rest
      else b :: wireLoop false rest

def dotStuffForWire (buf : Bytes) : Bytes :=
  if wireLength true buf = buf.length then buf else wireLoop true buf

/-! ## Smuggling -/

structure Flags where
  isBodyStart : Bool
  precededByCr : Bool
  moreComing : Bool
  deriving DecidableEq

/-- Whether a dot stands after a canonical line end, or after another one. -/
def beforeCanonical (flags : Flags) : Bytes → Option Bool
  | [] => if flags.isBodyStart then some true else if flags.precededByCr then some false else none
  | [p] => if p = LF then some flags.precededByCr else if p = CR then some false else none
  | p :: q :: _ => if p = LF then some (q = CR) else if p = CR then some false else none

/-- Whether it stands before a canonical line end, or before another one. -/
def afterCanonical (flags : Flags) (before : Bool) : Bytes → Option Bool
  | [] => none
  | [a] =>
      if a = LF then some false
      else if a = CR then if before ∧ flags.moreComing then none else some false
      else none
  | a :: b :: _ => if a = LF then some false else if a = CR then some (b = LF) else none

/-- The dot is on a line of its own, and not for every peer. What is before it is last first. -/
def smugglingAt (flags : Flags) (before after : Bytes) : Bool :=
  match beforeCanonical flags before with
  | none => false
  | some b =>
      match afterCanonical flags b after with
      | none => false
      | some a => !(b && a)

def smugglingLoop (flags : Flags) (before : Bytes) : Bytes → Bool
  | [] => false
  | b :: rest =>
      (b = DOT && smugglingAt flags before rest) || smugglingLoop flags (b :: before) rest

def detectBodySmuggling (buf : Bytes) (flags : Flags) : Bool := smugglingLoop flags [] buf

/-! ## Chunks -/

def OVERLAP : Nat := 4

structure Scanner where
  consumed : Nat
  tail : Bytes
  sawSmuggling : Bool
  terminatorAt : Option Nat
  beforeTail : Option UInt8
  deriving DecidableEq

def createBodyScanner : Scanner := ⟨0, [], false, none, none⟩

def Scanner.push (s : Scanner) (chunk : Bytes) : Scanner :=
  let window := s.tail ++ chunk
  let windowStart := s.consumed - s.tail.length
  { consumed := s.consumed + chunk.length
    tail := if window.length ≤ OVERLAP then window else window.drop (window.length - OVERLAP)
    sawSmuggling := s.sawSmuggling ||
      detectBodySmuggling window ⟨windowStart = 0, s.beforeTail = some CR, true⟩
    terminatorAt := s.terminatorAt.or
      ((findDotTerminator window (windowStart = 0)).map (windowStart + ·))
    beforeTail := if OVERLAP < window.length then window[window.length - OVERLAP - 1]? else none }

structure Seen where
  smuggling : Bool
  terminatorAt : Option Nat
  deriving DecidableEq

/-- What a push reports. -/
def Scanner.seen (s : Scanner) : Seen := ⟨s.sawSmuggling, s.terminatorAt⟩

/-- The scanner after all pushes. -/
def scan (chunks : List Bytes) : Scanner := chunks.foldl Scanner.push createBodyScanner

end Blamejs.SafeSmtp
