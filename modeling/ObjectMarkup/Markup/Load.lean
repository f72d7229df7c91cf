import ObjectMarkup.Kdl.Document
import ObjectMarkup.Markup.Document

/-!
# Markup in KDL

The first top-level node of a KDL document is the root element and the other ones are not looked
at. The name of a node is its tag, properties are attributes and children are children. An argument
has no name and is refused. Values keep their textual form, so their types are left to the schema
of the element.
-/

namespace ObjectMarkup.Markup

/-- Why a text is no markup. -/
inductive LoadError where
  /-- There is no node at all. -/
  | empty
  /-- A node has an argument. -/
  | positionalArgument (node : String)
  /-- The text is not KDL. -/
  | malformed
  deriving DecidableEq, Repr

/-- The text of an error. Malformed text is reported by its kind alone. -/
def LoadError.message : LoadError → String
  | .empty => "markup document has no root element"
  | .positionalArgument node =>
    "<" ++ node ++ "> has a positional argument; use name=value properties instead"
  | .malformed => "malformed KDL"

namespace Draft

/-- The draft with the properties as attributes, up to the first argument. -/
def withEntries (node : String) (d : Draft) : List Kdl.Entry → Except LoadError Draft
  | [] => .ok d
  | ⟨none, _⟩ :: _ => .error (.positionalArgument node)
  | ⟨some name, value⟩ :: rest => withEntries node (d.withAttribute name value.text) rest

mutual

/-- The draft of a node. Of several faults the first one in document order is reported: the
arguments of a node come before those of its children. -/
def ofNode : Kdl.Node → Except LoadError Draft
  | ⟨name, entries, children⟩ => do
    let d ← withEntries name (leaf name) entries
    let children ← ofNodes children
    return { d with children := children }

def ofNodes : List Kdl.Node → Except LoadError (List Draft)
  | [] => .ok []
  | n :: rest => do
    let d ← ofNode n
    let others ← ofNodes rest
    return d :: others

end

def ofKdl : List Kdl.Node → Except LoadError Draft
  | [] => .error .empty
  | root :: _ => ofNode root

def read (text : String) : Except LoadError Draft :=
  match Kdl.Document.read? text with
  | some nodes => ofKdl nodes
  | none => .error .malformed

end Draft

end ObjectMarkup.Markup
