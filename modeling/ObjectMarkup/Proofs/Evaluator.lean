import ObjectMarkup.Compile.Compilation
import ObjectMarkup.Proofs.Builtin
import ObjectMarkup.Value.Json

/-!
# Evaluating a tree

What the built-in kinds make of a tree, as a plain recursion. `Evaluator.element` evaluates the
attributes in the order of the document, each from its raw text, its declared type and one base;
then the children in the order of the document, without those whose tags are unknown; and then puts
the value together by the rule of the tag (`Rule.build`). Nothing is kept from one step for another:
an attribute that occurs twice is read twice, and a record is not a place that is filled bit by bit
but a tree, `Contents`, that is built and handed on.

The values of paths are taken to hold no constructors and no records. So there is nothing that could
make an instance, and `Reading.instanceOf` can only fail.
-/

namespace ObjectMarkup

open Markup (Element)

/-- What an evaluation depends on besides the tree. -/
structure Evaluator extends World where
  base : Locator

/-! ### Attributes -/

/-- How the raw text of an attribute is read. -/
inductive Reading where
  | boolean
  | number
  /-- As the value of a path. -/
  | symbol
  /-- As what the constructor at a path makes. -/
  | instanceOf
  | image
  | items
  deriving DecidableEq, Repr

namespace Reading

/-- The readings with the types that they are for. -/
def types : List (Reading × List String) :=
  [(boolean, ["bool", "boolean"]), (number, ["number", "int", "integer", "float"]),
    (symbol, ["class", "constructor"]), (instanceOf, ["instance"]), (image, ["img", "image"]),
    (items, ["array", "list"])]

def ofType? (type : String) : Option Reading :=
  (Kind.table types).lookup (Text.nameKey type)

end Reading

/-- What was read, or else a type mismatch. -/
def orMismatch (name type raw : String) : Option Value → Outcome Value
  | some value => .ok value
  | none => .error (.typeMismatch name raw type)

namespace Evaluator

/-- What becomes of a raw text that is read in some way. -/
def read (x : Evaluator) (name type raw : String) : Reading → Outcome Value
  | .boolean => orMismatch name type raw ((Kind.readBoolean raw).map .bool)
  | .number => orMismatch name type raw (Kind.readNumberAs type raw)
  | .symbol => x.symbols.reflect (Text.trimmed raw)
  -- whatever is found cannot be called, for no value here is a constructor
  | .instanceOf =>
    match x.symbols.reflect (Text.trimmed raw) with
    | .ok _ => orMismatch name type raw none
    | .error e => .error e
  | .image =>
    match Locator.resolve x.domains (some x.base) (Text.trimmed raw) with
    | .error _ => orMismatch name type raw none
    | .ok url =>
      match x.fetch url with
      | .ok r => .ok (.resource r)
      | .error e => .error (.fetch e)
  | .items => .ok (.list (Kind.readItems raw.toList))

/-- **The value of an attribute.** A string is its raw text. -/
def valueOf (x : Evaluator) (name type raw : String) : Outcome Value :=
  if type = "string" then .ok (.string raw)
  else
    match Reading.ofType? (Text.nameKey type) with
    | some reading => x.read name (Text.nameKey type) raw reading
    | none => .error (.unresolved .type (Text.nameKey type))

/-- The values of the attributes that have one. -/
def values (x : Evaluator) (s : Schema) (attributes : List (String × String)) :
    List (String × Value) :=
  attributes.filterMap fun (name, raw) =>
    match x.valueOf name (s.typeOf name) raw with
    | .ok value => some (name, value)
    | .error _ => none

/-- The reports on the attributes that have failed. -/
def failures (x : Evaluator) (e : Element) (s : Schema) (attributes : List (String × String)) :
    List Diagnostic :=
  attributes.filterMap fun (name, raw) =>
    match x.valueOf name (s.typeOf name) raw with
    | .ok _ => none
    | .error error => some ⟨e.id, e.tag, some name, error⟩

end Evaluator

/-! ### Contents of records -/

/-- A value without records as a tree. -/
def Value.plainTree (v : Value) : Tree :=
  v.spread fun _ => .null

/-- Whether the tree is that of a record. -/
def Tree.isRecord : Tree → Bool
  | .record _ _ _ => true
  | _ => false

/-- A record as a tree that can be added to. -/
structure Contents where
  className : String
  properties : List (String × Tree)
  children : List Tree

namespace Contents

def put (r : Contents) (name : String) (t : Tree) : Contents :=
  { r with properties := OrderedMap.put name t r.properties }

def push (r : Contents) (t : Tree) : Contents :=
  { r with children := r.children ++ [t] }

def tree (r : Contents) : Tree :=
  .record r.className r.properties r.children

/-- Sets a property to the value of an attribute, if there is one. -/
def assign (values : List (String × Value)) (r : Contents) (target source : String) : Contents :=
  match values.lookup source with
  | some value => r.put target value.plainTree
  | none => r

/-- Where the result of a child of a generic record goes: a record and what has no name is a child,
anything else a property. -/
def gather (r : Contents) (child : Element × Tree) : Contents :=
  match child.1.attribute? "name", child.2.isRecord with
  | some name, false => r.put name child.2
  | _, _ => r.push child.2

end Contents

/-! ### Elements -/

/-- How the value of an element is put together. -/
inductive Rule where
  | data
  | object
  | container
  | shape
  | bitmap
  deriving DecidableEq, Repr

namespace Rule

/-- The rules with the tags that they are for. -/
def tags : List (Rule × List String) :=
  [(data, ["data", "bool", "boolean", "number", "int", "integer", "float"]), (object, ["object"]),
    (container, ["container"]), (shape, ["shape"]), (bitmap, ["bitmap"])]

def ofTag? (tag : String) : Option Rule :=
  (Kind.table tags).lookup (Text.nameKey tag)

/-- The attributes that are declared. -/
def schema (e : Element) : Rule → Schema
  | .data => ((Schema.define .empty "name" "string").define "type" "string").define "value"
    (Kind.scalarType e)
  | .object => .empty
  | .container | .shape => Kind.displaySchema
  | .bitmap => Schema.define Kind.displaySchema "src" "image"

/-- The properties of what can be shown: those that are declared so, and the shorthands. -/
def display (e : Element) (s : Schema) (values : List (String × Value)) : Contents :=
  ((Schema.assignedNames s).map (fun name => (name, name)) ++ Kind.displayShorthands).foldl
    (fun r (target, source) => r.assign values target source) ⟨e.tag, [], []⟩

/-- **The value of an element,** given the values of its attributes and children. -/
def build (e : Element) (values : List (String × Value)) (children : List (Element × Tree)) :
    Rule → Tree
  | .data =>
    match values.lookup "value" with
    | some value => value.plainTree
    | none => .null
  | .object =>
    (children.foldl Contents.gather
      ⟨e.tag, values.map fun (name, value) => (name, value.plainTree), []⟩).tree
  -- only records become children of a container, named or not
  | .container =>
    ((children.filter (·.2.isRecord)).foldl (fun r child => r.push child.2)
      (display e (schema e .container) values)).tree
  | .shape => (display e (schema e .shape) values).tree
  | .bitmap => (display e (schema e .bitmap) values).tree

end Rule

namespace Evaluator

mutual

/-- **The outcome of an element,** and the reports on what has failed inside it. -/
def element (x : Evaluator) : Element → Outcome Tree × List Diagnostic
  | ⟨id, tag, attributes, children, base⟩ =>
    let e : Element := ⟨id, tag, attributes, children, base⟩
    match Rule.ofTag? tag with
    | none => (.error (.unresolved .tag tag), [])
    | some rule =>
      let values := x.values (rule.schema e) attributes.entries
      let failures := x.failures e (rule.schema e) attributes.entries
      let (results, reports) := x.elements children
      (.ok (rule.build e values results), failures ++ reports)

/-- The children that have a value, each with it, and the reports on what has failed inside each of
them and on those that have failed. -/
def elements (x : Evaluator) : List Element → List (Element × Tree) × List Diagnostic
  | [] => ([], [])
  | child :: rest =>
    let (outcome, inside) := x.element child
    let (results, reports) := x.elements rest
    match outcome with
    | .ok t => ((child, t) :: results, inside ++ reports)
    | .error e => (results, inside ++ ⟨child.id, child.tag, none, e⟩ :: reports)

end

end Evaluator

end ObjectMarkup
