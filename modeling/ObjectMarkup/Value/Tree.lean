import ObjectMarkup.Value.Basic

/-!
# Values spread out

A value can be spread out into a tree by putting the contents of each record in its place. A record
that is met inside itself cannot be spread out again; in its place stands how many records up it is
to be found. Since the records on the way down are all different, a way never has more records than
the store, which bounds the depth.
-/

namespace ObjectMarkup

open Decimal (Binary64)

/-- A value with its records spread out. -/
inductive Tree where
  | null
  | bool (b : Bool)
  | int (i : Int64)
  | float (x : Binary64)
  | string (s : String)
  | list (items : List Tree)
  | record (className : String) (properties : List (String × Tree)) (children : List Tree)
  /-- A constructor, known by its path. -/
  | constructor (path : String)
  | resource (r : Resource)
  /-- The record that many records up, where zero is the innermost one around. -/
  | cycle (up : Nat)
  deriving Inhabited, Repr

namespace Value

mutual

/-- Spreads a value out, given what to put in the place of records. -/
def spread (record : RecordId → Tree) : Value → Tree
  | .null => .null
  | .bool b => .bool b
  | .int i => .int i
  | .float x => .float x
  | .string s => .string s
  | .list items => .list (spreadAll record items)
  | .record id => record id
  | .constructor path _ => .constructor path
  | .resource r => .resource r

def spreadAll (record : RecordId → Tree) : List Value → List Tree
  | [] => []
  | v :: rest => spread record v :: spreadAll record rest

end

end Value

namespace Store

/-- Spreads a record out. The records around it are `opened`, innermost first, and `depth` bounds
how many more are opened. -/
def recordTree (s : Store) : (depth : Nat) → (opened : List RecordId) → RecordId → Tree
  | 0, _, _ => .cycle 0
  | depth + 1, opened, id =>
    -- A record inside itself is not opened again.
    match opened.idxOf? id with
    | some up => .cycle up
    | none =>
      let r := s.get id
      let inside := s.recordTree depth (id :: opened)
      .record r.className (r.properties.entries.map fun (name, v) => (name, v.spread inside))
        (Value.spreadAll inside r.children)

/-- **A value spread out.** One record more than the store has is never open at once. -/
def tree (s : Store) (v : Value) : Tree :=
  v.spread (s.recordTree (s.size + 1) [])

end Store

end ObjectMarkup
