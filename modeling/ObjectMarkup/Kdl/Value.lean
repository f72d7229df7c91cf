import ObjectMarkup.Decimal.Layout

/-!
# KDL documents as data

A document is a list of nodes. A node has a name, entries and children; an entry is a value, with a
name when it is a property and without one when it is an argument. Type annotations and everything
behind a slashdash leave no trace.
-/

namespace ObjectMarkup.Kdl

open Decimal (Binary64 Layout)

inductive Value where
  /-- A string, however it was quoted. -/
  | string (text : String)
  /-- A number without fraction and exponent. -/
  | integer (i : Int)
  /-- A number with a fraction or an exponent, or one of the special numbers. -/
  | float (x : Binary64)
  | bool (b : Bool)
  | null
  deriving DecidableEq, Repr

structure Entry where
  /-- The name of a property; an argument has none. -/
  name : Option String
  value : Value
  deriving DecidableEq, Repr

structure Node where
  name : String
  /-- Arguments and properties in the order they are written. -/
  entries : List Entry
  /-- The nodes of the children block; a node without one has none. -/
  children : List Node
  deriving Repr

/-- Floating point numbers become text without an exponent and without a superfluous point; of two
equally near shortest texts the larger number is written. -/
def floatText : Layout where
  inPlace := fun _ => true
  integerTail := []
  tie := .up
  nan := ['N', 'a', 'N']
  infinity := ['i', 'n', 'f']
  infinitySign := true

/-- **The text of a value:** a string as it is, a number in decimal, and the words `true`, `false`
and `null`. -/
def Value.text : Value → String
  | .string s => s
  | .integer i => String.ofList (Decimal.intText i)
  | .float x => String.ofList (floatText.text x)
  | .bool true => "true"
  | .bool false => "false"
  | .null => "null"

end ObjectMarkup.Kdl
