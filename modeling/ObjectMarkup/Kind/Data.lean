import ObjectMarkup.Kind.Basic

/-!
# Elements for data

A scalar element stands for its `value`, and a generic record gathers its attributes and children.
-/

namespace ObjectMarkup.Kind

open Markup (Element)

/-- The type of the value of a scalar element: the tag, or for `data` what the element says. -/
def scalarType (node : Element) : String :=
  let tag := Text.lowercase node.tag
  if tag = "data" then (node.attribute? "type").getD "string" else tag

def data : ElementKind where
  name := "data"
  define node := .ok (((Schema.define .empty "name" "string").define "type" "string").define
    "value" (scalarType node))
  construct _ := do return ((← get).values.get? "value").getD .null

/-- Where the result of a child of a generic record goes: a record and what has no name is a child,
anything else a property. -/
def gather (record : RecordId) (s : Store) (child : ChildView) : Store :=
  match child.result? with
  | none => s
  | some result =>
    -- A record is never put under its name: it brings the name along as a property.
    match child.node.attribute? "name", result.isRecord with
    | some name, false => s.set record name result
    | _, _ => s.push record result

def object : ElementKind where
  name := "object"
  construct e := do
    -- All values are properties at once, since no attributes are declared to be assigned.
    return .record (← makeRecord ⟨e.node.tag, (← get).values, []⟩)
  finish e value := do
    match value with
    | .record id => onStore fun s => e.children.foldl (gather id) s
    | _ => pure ()
    return value

end ObjectMarkup.Kind
