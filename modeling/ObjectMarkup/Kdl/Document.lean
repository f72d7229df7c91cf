import ObjectMarkup.Kdl.Token

/-!
# KDL documents from tokens

The grammar of nodes over tokens. Between the entries of a node there must be space, but none is
needed before a children block or a slashdash. After a children block, even one removed by a
slashdash, only further removed blocks may follow, and at most one block is kept.

The functions descend with `fuel`, of which `Document.read?` provides more than the token list can
use up.
-/

namespace ObjectMarkup.Kdl

/-- Drops the tokens that may stand between parts of a node. -/
def dropSpace (ts : List Token) : List Token :=
  ts.dropWhile (· == .space)

/-- Drops the tokens that may stand between nodes. -/
def dropLines (ts : List Token) : List Token :=
  ts.dropWhile fun t => t == .space || t == .newline

/-- Takes a type annotation and the space after it off the front, if there is one. -/
def dropType? (ts : List Token) : Option (List Token) :=
  match ts with
  | .openParen :: rest =>
    match dropSpace rest with
    | .text _ :: rest =>
      match dropSpace rest with
      | .closeParen :: rest => some (dropSpace rest)
      | _ => none
    | _ => none
  | _ => some ts

/-- Reads a value, with a type annotation if there is one. -/
def scanValue? (ts : List Token) : Option (Value × List Token) := do
  match ← dropType? ts with
  | .text s :: rest => some (.string s, rest)
  | .value v :: rest => some (v, rest)
  | _ => none

def scanEntry? (ts : List Token) : Option (Entry × List Token) :=
  match ts with
  | .text name :: rest =>
    match dropSpace rest with
    | .equals :: rest => (scanValue? (dropSpace rest)).map fun (v, rest) => (⟨some name, v⟩, rest)
    | _ => some (⟨none, .string name⟩, rest)
  | _ => (scanValue? ts).map fun (v, rest) => (⟨none, v⟩, rest)

/-- Whether the tokens begin with the end of a node. The closing brace of the block around the node
ends it too and is left in place. -/
def nodeEnd? (ts : List Token) : Option (List Token) :=
  match ts with
  | [] => some []
  | .newline :: rest | .semicolon :: rest => some rest
  | .closeBrace :: _ => some ts
  | _ => none

mutual

/-- Reads nodes up to the end of the text or a closing brace, which is left in place. -/
def scanNodes? (fuel : Nat) (ts : List Token) : Option (List Node × List Token) :=
  match fuel with
  | 0 => none
  | fuel + 1 =>
    match dropLines ts with
    | [] => some ([], [])
    | .closeBrace :: rest => some ([], .closeBrace :: rest)
    | .slashdash :: rest => do
      let (_, rest) ← scanNode? fuel (dropLines rest)
      scanNodes? fuel rest
    | rest => do
      let (node, rest) ← scanNode? fuel rest
      let (nodes, rest) ← scanNodes? fuel rest
      some (node :: nodes, rest)

/-- Reads one node with what ends it. -/
def scanNode? (fuel : Nat) (ts : List Token) : Option (Node × List Token) :=
  match fuel with
  | 0 => none
  | fuel + 1 => do
    match ← dropType? ts with
    | .text name :: rest =>
      let (entries, children, rest) ← scanBody? fuel rest
      some (⟨name, entries, children⟩, rest)
    | _ => none

/-- Reads entries and children of a node. -/
def scanBody? (fuel : Nat) (ts : List Token) : Option (List Entry × List Node × List Token) :=
  match fuel with
  | 0 => none
  | fuel + 1 =>
    match dropSpace ts with
    | .slashdash :: rest =>
      match dropLines rest with
      | .openBrace :: rest => do
        let (_, rest) ← scanBlock? fuel rest
        let (children, rest) ← scanBlocks? fuel false rest
        some ([], children, rest)
      | rest => do
        -- The entry is read like any other one and then left out.
        let (_, rest) ← scanEntry? rest
        scanBody? fuel rest
    | .openBrace :: rest => do
      let (children, rest) ← scanBlock? fuel rest
      let (_, rest) ← scanBlocks? fuel true rest
      some ([], children, rest)
    | rest =>
      match nodeEnd? rest with
      | some rest => some ([], [], rest)
      | none => do
        -- An entry has to be set apart from what stands before it.
        if ts.head? != some .space then none
        let (entry, rest) ← scanEntry? rest
        let (entries, children, rest) ← scanBody? fuel rest
        some (entry :: entries, children, rest)

/-- Reads what may follow a children block: removed blocks, and a kept one unless there `kept` one
already. -/
def scanBlocks? (fuel : Nat) (kept : Bool) (ts : List Token) :
    Option (List Node × List Token) :=
  match fuel with
  | 0 => none
  | fuel + 1 =>
    match dropSpace ts with
    | .slashdash :: rest =>
      match dropLines rest with
      | .openBrace :: rest => do
        let (_, rest) ← scanBlock? fuel rest
        scanBlocks? fuel kept rest
      | _ => none
    | .openBrace :: rest => do
      if kept then none
      let (children, rest) ← scanBlock? fuel rest
      let (_, rest) ← scanBlocks? fuel true rest
      some (children, rest)
    | rest => (nodeEnd? rest).map fun rest => ([], rest)

/-- Reads a children block behind its opening brace. -/
def scanBlock? (fuel : Nat) (ts : List Token) : Option (List Node × List Token) :=
  match fuel with
  | 0 => none
  | fuel + 1 => do
    match ← scanNodes? fuel ts with
    | (nodes, .closeBrace :: rest) => some (nodes, rest)
    | _ => none

end

/-- **Reads a document,** or nothing when the text is not KDL. -/
def Document.read? (text : String) : Option (List Node) := do
  let ts ← tokens? text.toList
  match ← scanNodes? (4 * ts.length + 4) ts with
  | (nodes, []) => some nodes
  | _ => none

end ObjectMarkup.Kdl
