import Mathlib.Data.List.Destutter
import Mathlib.Data.List.DropRight

/-!
# Mail text and the forms it is signed in

A text of the wire is its lines with CRLF between them, a body is such a text and the value
of a field is one whose lines after the first begin with a blank. The forms are those of RFC
6376 section 3.4, said of the lines.
-/

namespace Blamejs.MailText

/-- Text on the wire, one character a byte. -/
abbrev Text := List UInt8

def sp : UInt8 := 0x20
def tab : UInt8 := 0x09
def cr : UInt8 := 0x0D
def lf : UInt8 := 0x0A
def colon : UInt8 := 0x3A
def slash : UInt8 := 0x2F

def crlf : Text := [cr, lf]

def ascii (s : String) : Text := s.toList.map fun c => UInt8.ofNat c.toNat

def isBlank (u : UInt8) : Bool := u == sp || u == tab

def beginsBlank : Text → Bool
  | [] => false
  | u :: _ => isBlank u

/-! ## Lines -/

def wireText (lines : List Text) : Text := crlf.intercalate lines

/-- The lines of a text: one at least, and no line end in any. -/
def AreLines (lines : List Text) : Prop := lines ≠ [] ∧ ∀ l ∈ lines, lf ∉ l

/-- The lines of a folded field value. -/
def AreFolded (lines : List Text) : Prop :=
  AreLines lines ∧ ∀ l ∈ lines.tail, beginsBlank l = true

/-! ## The forms -/

/-- No two spaces side by side. -/
def Apart (a b : UInt8) : Prop := ¬(a = sp ∧ b = sp)

instance : DecidableRel Apart := fun a b => inferInstanceAs (Decidable ¬(a = sp ∧ b = sp))

def spaced (u : UInt8) : UInt8 := if isBlank u then sp else u

/-- Every run of blanks as one space. -/
def reduceBlanks (s : Text) : Text := (s.map spaced).destutter Apart

def stripEnd (s : Text) : Text := s.rdropWhile isBlank

def relaxedLine (l : Text) : Text := stripEnd (reduceBlanks l)

/-- Lines, each with its end. -/
def ended (lines : List Text) : Text := lines.flatMap (· ++ crlf)

def withoutEmptyEnd (lines : List Text) : List Text := lines.rdropWhile (· = [])

/-- The relaxed form of a body; of one without a line that has text, nothing. -/
def relaxedBody (lines : List Text) : Text := ended (withoutEmptyEnd (lines.map relaxedLine))

/-- The simple form of a body. -/
def simpleBody (lines : List Text) : Text :=
  if withoutEmptyEnd lines = [] then crlf else ended (withoutEmptyEnd lines)

/-- A small letter for a letter of the wire's alphabet. -/
def lowerUnit (u : UInt8) : UInt8 :=
  if (0x41 ≤ u ∧ u ≤ 0x5A) ∨ (0xC0 ≤ u ∧ u ≤ 0xDE ∧ u ≠ 0xD7) then u + 0x20 else u

def lower (s : Text) : Text := s.map lowerUnit

/-- The relaxed form of a field, its value unfolded first. -/
def relaxedField (name : Text) (value : List Text) : Text :=
  lower (stripEnd (reduceBlanks name)) ++ [colon] ++
    stripEnd ((reduceBlanks value.flatten).dropWhile isBlank) ++ crlf

/-- The algorithm of the body that a `c=` tag means: `simple` where it names none. -/
def bodyAlgorithm (c : Option Text) : Text :=
  ((c.getD []).splitOn slash)[1]?.getD (ascii "simple")

end Blamejs.MailText
