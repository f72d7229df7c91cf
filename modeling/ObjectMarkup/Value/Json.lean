import ObjectMarkup.Value.Tree
import ObjectMarkup.Decimal.Layout

/-!
# Values as JSON

A record becomes an object with its class and, if there are any, its properties and children. A
constructor becomes an object with its path, loaded bytes become an object with their place and
their number. A value that contains itself has no JSON.
-/

namespace ObjectMarkup

open Decimal (Binary64 Layout)

/-- A JSON text as data, with integers and floating point numbers kept apart. -/
inductive Json where
  | null
  | bool (b : Bool)
  | integer (i : Int)
  /-- A floating point number; one that is not finite is written as `null`. -/
  | float (x : Binary64)
  | string (s : String)
  | array (items : List Json)
  /-- An object with its entries in order. -/
  | object (entries : List (String × Json))
  deriving Inhabited, Repr

namespace Json

/-- Numbers with a first digit from the fifth place after the point up to the sixteenth before it
are written in place and have at least one digit after the point; of two equally near shortest
texts the one with the even last digit is written. What has no digits has no number either. -/
def floatText : Layout where
  inPlace := fun e => decide (-5 ≤ e) && decide (e ≤ 15)
  integerTail := ['.', '0']
  tie := .toEven
  nan := ['n', 'u', 'l', 'l']
  infinity := ['n', 'u', 'l', 'l']
  infinitySign := false

def hexDigit (n : Nat) : Char :=
  Nat.digitChar n

/-- A character inside a string. Only the quote, the backslash and controls are escaped. -/
def escaped (c : Char) : List Char :=
  let n := c.toNat
  if c = '"' then ['\\', '"']
  else if c = '\\' then ['\\', '\\']
  else if n = 8 then ['\\', 'b']
  else if n = 12 then ['\\', 'f']
  else if c = '\n' then ['\\', 'n']
  else if c = '\r' then ['\\', 'r']
  else if c = '\t' then ['\\', 't']
  else if n < 0x20 then ['\\', 'u', '0', '0', hexDigit (n / 16), hexDigit (n % 16)]
  else [c]

def quoted (s : String) : List Char :=
  '"' :: s.toList.flatMap escaped ++ ['"']

mutual

/-- The JSON on one line without blanks. -/
def compact : Json → List Char
  | .null => ['n', 'u', 'l', 'l']
  | .bool true => ['t', 'r', 'u', 'e']
  | .bool false => ['f', 'a', 'l', 's', 'e']
  | .integer i => Decimal.intText i
  | .float x => floatText.text x
  | .string s => quoted s
  | .array items => '[' :: compactItems items ++ [']']
  | .object entries => '\x7b' :: compactEntries entries ++ ['\x7d']

def compactItems : List Json → List Char
  | [] => []
  | [j] => compact j
  | j :: rest => compact j ++ ',' :: compactItems rest

def compactEntries : List (String × Json) → List Char
  | [] => []
  | [(name, j)] => quoted name ++ ':' :: compact j
  | (name, j) :: rest => quoted name ++ ':' :: compact j ++ ',' :: compactEntries rest

end

/-- A new line with two blanks for each level. -/
def newLine (level : Nat) : List Char :=
  '\n' :: List.replicate (2 * level) ' '

mutual

/-- The JSON with a line for every item and entry. -/
def pretty (level : Nat) : Json → List Char
  | .array (j :: rest) =>
    '[' :: prettyItems (level + 1) (j :: rest) ++ newLine level ++ [']']
  | .object (e :: rest) =>
    '\x7b' :: prettyEntries (level + 1) (e :: rest) ++ newLine level ++ ['\x7d']
  | .array [] => ['[', ']']
  | .object [] => ['\x7b', '\x7d']
  | .null => compact .null
  | .bool b => compact (.bool b)
  | .integer i => Decimal.intText i
  | .float x => floatText.text x
  | .string s => quoted s

def prettyItems (level : Nat) : List Json → List Char
  | [] => []
  | [j] => newLine level ++ pretty level j
  | j :: rest => newLine level ++ pretty level j ++ ',' :: prettyItems level rest

def prettyEntries (level : Nat) : List (String × Json) → List Char
  | [] => []
  | [(name, j)] => newLine level ++ quoted name ++ ':' :: ' ' :: pretty level j
  | (name, j) :: rest =>
    newLine level ++ quoted name ++ ':' :: ' ' :: pretty level j ++ ',' :: prettyEntries level rest

end

def compactText (j : Json) : String :=
  String.ofList j.compact

def prettyText (j : Json) : String :=
  String.ofList (j.pretty 0)

end Json

namespace Tree

mutual

/-- The JSON of a value spread out, unless it contains itself. -/
def json? : Tree → Option Json
  | .null => some .null
  | .bool b => some (.bool b)
  | .int i => some (.integer i.toInt)
  | .float x => some (.float x)
  | .string s => some (.string s)
  | .list items => (jsonAll? items).map .array
  | .record className properties children => do
    let properties ← jsonEntries? properties
    let children ← jsonAll? children
    some (.object (("class", .string className)
      :: ((if properties.isEmpty then [] else [("properties", .object properties)])
        ++ (if children.isEmpty then [] else [("children", .array children)]))))
  | .constructor path => some (.object [("constructor", .string path)])
  | .resource r =>
    some (.object [("resource", .string r.url.text),
      ("bytes", .integer r.bytes.length)])
  | .cycle _ => none

def jsonAll? : List Tree → Option (List Json)
  | [] => some []
  | t :: rest => do
    let j ← json? t
    let others ← jsonAll? rest
    some (j :: others)

def jsonEntries? : List (String × Tree) → Option (List (String × Json))
  | [] => some []
  | (name, t) :: rest => do
    let j ← json? t
    let others ← jsonEntries? rest
    some ((name, j) :: others)

end

end Tree

/-- **The JSON of a value,** unless it contains itself. -/
def Store.json? (s : Store) (v : Value) : Option Json :=
  (s.tree v).json?

end ObjectMarkup
