import ObjectMarkup.Kind.Basic
import ObjectMarkup.Decimal.Integer

/-!
# Attributes that are read from their text

Truth values, numbers and lists. What cannot be read is a type mismatch, except that a list can
always be read.
-/

namespace ObjectMarkup.Kind

/-- Ends a hook with what was read, or with a mismatch. -/
def readOrMismatch (a : AttributeView) : Option Value → Hook Store Stop Value
  | some value => pure value
  | none => throw (.error a.mismatch)

/-- The truth value with one of the four spellings `0`, `false`, `1` and `true`, in any letter case
and with blanks around it. -/
def readBoolean (raw : String) : Option Bool :=
  match Text.nameKey raw with
  | "0" | "false" => some false
  | "1" | "true" => some true
  | _ => none

def boolean : AttributeKind where
  name := "boolean"
  construct a := readOrMismatch a ((readBoolean a.key.value).map .bool)

/-- The number in front of a text: an integer for the integer types and a floating point number for
all others. -/
def readNumberAs (type raw : String) : Option Value :=
  if type = "int" ∨ type = "integer" then
    (Decimal.readIntegerPrefix raw.toList).map .int
  else (Decimal.readNumberPrefix raw.toList).map .float

def number : AttributeKind where
  name := "number"
  construct a := readOrMismatch a (readNumberAs a.key.type a.key.value)

/-- An item of a list: a finite number if it is one, else a text. -/
def readItem (item : List Char) : Value :=
  match Decimal.readNumber item with
  | some x => if x.isFinite then .float x else .string (String.ofList item)
  | none => .string (String.ofList item)

/-- The items between commas, without blanks around them; empty ones are dropped. -/
def readItems (raw : List Char) : List Value :=
  (((raw.splitOn ',').map Text.trim).filter (!·.isEmpty)).map readItem

def list : AttributeKind where
  name := "list"
  construct a := pure (.list (readItems a.key.value.toList))

end ObjectMarkup.Kind
