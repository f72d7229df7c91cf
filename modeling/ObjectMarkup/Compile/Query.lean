import ObjectMarkup.Compile.Process

/-!
# Queries

Looking for elements below another one. What is found is looked up in the pass, so a query can fail
where a look-up does, and elements that came before the failure stay looked up.
-/

namespace ObjectMarkup

open Markup (Element NodeId)

namespace Pass

/-- Looks elements up one after the other. -/
def lookupAll (p : Pass) : List Element → Except Stop (List Construction) × Pass
  | [] => (.ok [], p)
  | node :: rest =>
    match p.lookup node with
    | .error e => (.error e, p)
    | .ok (c, p) =>
      match p.lookupAll rest with
      | (.ok others, p) => (.ok (c :: others), p)
      | (.error e, p) => (.error e, p)

/-- The elements below with a tag, where the case of ASCII letters does not matter. -/
def queryByTag (p : Pass) (node : Element) (tag : String) :
    Except Stop (List Construction) × Pass :=
  if p.released then (.error (.error .detached), p)
  else p.lookupAll (node.descendants.filter fun e => Text.sameIgnoringAsciiCase e.tag tag)

/-- The first element below whose raw `id` is the text. -/
def queryById (p : Pass) (node : Element) (id : String) :
    Except Stop (Option Construction) × Pass :=
  if p.released then (.error (.error .detached), p)
  else
    match node.descendants.find? fun e => e.attribute? "id" == some id with
    | none => (.ok none, p)
    | some e =>
      match p.lookup e with
      | .error e => (.error e, p)
      | .ok (c, p) => (.ok (some c), p)

end Pass

end ObjectMarkup
