import ObjectMarkup.Kind.Basic

/-!
# Catalogs

A catalog is the registry of kinds: it says which kind a tag or an attribute type belongs to. Names
are looked up without blanks around them and in lower case, and who registers a name last has it.
-/

namespace ObjectMarkup

/-- What became of a name that was registered. -/
inductive Association where
  /-- The name was new. -/
  | inserted
  /-- The name belonged to another kind. -/
  | replaced
  deriving DecidableEq, Repr

def Association.text : Association → String
  | .inserted => "inserted"
  | .replaced => "replaced"

namespace Association

/-- Registers a kind under one name. -/
def one {α : Type} (m : OrderedMap String α) (kind : α) (name : String) :
    Association × OrderedMap String α :=
  let key := Text.nameKey name
  (if m.contains key then .replaced else .inserted, m.insert key kind)

/-- Registers a kind under names, one after the other. -/
def all {α : Type} (kind : α) :
    List String → OrderedMap String α → List Association × OrderedMap String α
  | [], m => ([], m)
  | name :: rest, m =>
    let (first, m) := one m kind name
    let (others, m) := all kind rest m
    (first :: others, m)

end Association

/-- The registry of kinds: those of tags and those of attribute types, by their normal names. -/
structure Catalog where
  elements : OrderedMap String ElementKind
  attributes : OrderedMap String AttributeKind

namespace Catalog

def empty : Catalog :=
  ⟨.empty, .empty⟩

instance : Inhabited Catalog := ⟨empty⟩

def addElement (c : Catalog) (kind : ElementKind) (tags : List String) :
    List Association × Catalog :=
  let (associations, elements) := Association.all kind tags c.elements
  (associations, { c with elements := elements })

def addAttribute (c : Catalog) (kind : AttributeKind) (types : List String) :
    List Association × Catalog :=
  let (associations, attributes) := Association.all kind types c.attributes
  (associations, { c with attributes := attributes })

def elementKind (c : Catalog) (tag : String) : Outcome ElementKind :=
  match c.elements.get? (Text.nameKey tag) with
  | some kind => .ok kind
  | none => .error (.unresolved .tag tag)

def attributeKind (c : Catalog) (type : String) : Outcome AttributeKind :=
  match c.attributes.get? (Text.nameKey type) with
  | some kind => .ok kind
  | none => .error (.unresolved .type type)

/-- Names in the order of their characters' numbers. -/
def sorted (names : List String) : List String :=
  names.mergeSort fun a b => decide (a ≤ b)

def tags (c : Catalog) : List String :=
  sorted c.elements.keys

def types (c : Catalog) : List String :=
  sorted c.attributes.keys

end Catalog

end ObjectMarkup
