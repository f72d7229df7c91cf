import ObjectMarkup.OrderedMap
import ObjectMarkup.Text.Lowercase

/-!
# Schemas

A schema declares attributes: their types, whether the compiled value is assigned to the record of
the element, and whether it is handed down to the children. Types are kept as they are looked up,
without blanks around them and in lower case.
-/

namespace ObjectMarkup

/-- The declaration of an attribute. -/
structure Declaration where
  /-- The type, as it is looked up. -/
  type : String
  /-- Whether the value becomes a property of the record. -/
  assigned : Bool
  /-- Whether the value is handed down to the children. -/
  forwarded : Bool
  deriving DecidableEq, Repr

namespace Declaration

def isString (d : Declaration) : Bool :=
  d.type == "string"

/-- The flags in two bits. -/
def bits (d : Declaration) : Nat :=
  (if d.assigned then 1 else 0) + (if d.forwarded then 2 else 0)

end Declaration

/-- The declared attributes in the order in which they were first declared. -/
abbrev Schema := OrderedMap String Declaration

namespace Schema

/-- Declares an attribute; an earlier declaration is replaced in its place. -/
def declare (s : Schema) (name type : String) (assigned forwarded : Bool) : Schema :=
  s.insert name ⟨Text.nameKey type, assigned, forwarded⟩

/-- Declares an attribute that is assigned and not handed down. -/
def define (s : Schema) (name type : String) : Schema :=
  s.declare name type true false

/-- Declares attributes of one type that are assigned and not handed down. -/
def defineAll (s : Schema) (type : String) (names : List String) : Schema :=
  names.foldl (fun s name => s.define name type) s

/-- The type of an attribute; one that is not declared is a string. -/
def typeOf (s : Schema) (name : String) : String :=
  match s.get? name with
  | some d => d.type
  | none => "string"

/-- The names that are handed down, in order. -/
def forwardedNames (s : Schema) : List String :=
  (s.entries.filter fun e => e.2.forwarded).map Prod.fst

/-- The names that are assigned, in order. -/
def assignedNames (s : Schema) : List String :=
  (s.entries.filter fun e => e.2.assigned).map Prod.fst

end Schema

end ObjectMarkup
