import ObjectMarkup.Decimal.Integer
import ObjectMarkup.Kdl.Document
import ObjectMarkup.Locator.Reading
import ObjectMarkup.Namespace

/-!
# Configuration

A configuration in KDL sets a base and gives values to paths of the namespace. Nodes that it does
not know are ignored with a warning; a known node that is not as it should be is an error, and the
first one in the order of the document is reported.
-/

namespace ObjectMarkup

open Decimal (Binary64)

/-- Why a configuration is refused. -/
inductive ConfigError where
  /-- The text is not KDL. -/
  | malformed
  /-- The base is no locator. -/
  | invalidBase (value : String) (error : Locator.ParseError)
  /-- A node does not have the one argument that it should have. -/
  | invalidArgument (node expected : String)

/-- The text of an error. Malformed text is reported by its kind alone. -/
def ConfigError.message : ConfigError → String
  | .malformed => "KDL parse error"
  | .invalidBase value error => "invalid base locator '" ++ value ++ "': " ++ error.message
  | .invalidArgument node expected =>
    "'" ++ node ++ "' expects a single " ++ expected ++ " argument"

/-- What is odd about a configuration. -/
inductive ConfigWarning where
  /-- A node that is not known. -/
  | unknownNode (name : String)
  /-- A path that has got a value before. -/
  | symbolRedefined (path : String)
  deriving DecidableEq, Repr

def ConfigWarning.text : ConfigWarning → String
  | .unknownNode name => "unknown config node '" ++ name ++ "' will be ignored"
  | .symbolRedefined path => "symbol '" ++ path ++ "' defined twice; last value wins"

structure Config where
  base : Option Locator
  /-- The values of paths, in the order in which they are written. -/
  symbols : List (String × Value)
  /-- The warnings, in the order in which they came up. -/
  warnings : List ConfigWarning

namespace Config

def empty : Config :=
  ⟨none, [], []⟩

/-- The value that is written. An integer of more than 64 bits becomes the nearest floating point
number. -/
def valueOf : Kdl.Value → Value
  | .string s => .string s
  | .integer i => if Decimal.fits i then .int (Int64.ofInt i) else .float (Binary64.ofInt i)
  | .float x => .float x
  | .bool b => .bool b
  | .null => .null

/-- The only entry of a node, which has no name. -/
def singleArgument (node : Kdl.Node) : Except ConfigError Kdl.Value :=
  match node.entries with
  | [⟨none, value⟩] => .ok value
  | _ => .error (.invalidArgument node.name "positional")

section

variable (domains : Locator.Domains)

/-- The base that a node sets. -/
def baseOf (node : Kdl.Node) : Except ConfigError Locator := do
  match ← singleArgument node with
  | .string text =>
    match Locator.parse domains text with
    | .ok l => return l
    | .error e => throw (.invalidBase text e)
  | _ => throw (.invalidArgument node.name "string")

/-- Takes the value of one path. -/
def withSymbol (c : Config) (node : Kdl.Node) : Except ConfigError Config := do
  let value ← singleArgument node
  let warnings := if c.symbols.any (·.1 == node.name) then [.symbolRedefined node.name] else []
  return { c with
    symbols := c.symbols ++ [(node.name, valueOf value)]
    warnings := c.warnings ++ warnings }

def withNode (c : Config) (node : Kdl.Node) : Except ConfigError Config := do
  if node.name = "base" then return { c with base := some (← baseOf domains node) }
  else if node.name = "symbols" then node.children.foldlM withSymbol c
  else return { c with warnings := c.warnings ++ [.unknownNode node.name] }

/-- Reads a configuration. -/
def read (text : String) : Except ConfigError Config :=
  match Kdl.Document.read? text with
  | some nodes => nodes.foldlM (withNode domains) empty
  | none => .error .malformed

end

/-- Gives the values to the paths, a later one in place of an earlier one. -/
def apply (c : Config) (n : Namespace) : Namespace :=
  c.symbols.foldl (fun n (path, value) => (n.define path value true).2) n

end Config

end ObjectMarkup
