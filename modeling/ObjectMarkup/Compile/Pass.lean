import ObjectMarkup.Catalog
import ObjectMarkup.Concurrency.Once

/-!
# Passes

A pass is all that one compile knows: the environment it runs in, and what has become of elements
and attributes so far. An element has one compiler in a pass, its `Construction`, found by the number
of the element, and attributes with one key share one compiler, their `Coercion`. Both are made when
they are first looked up, keep the kind they were made with, and settle once.

A look-up that fails changes nothing, so it can succeed later.
-/

namespace ObjectMarkup

open Markup (Element NodeId)

/-- What compiles share. -/
structure Environment extends World where
  /-- The kinds of tags and types. -/
  catalog : Catalog

/-- The compiler of the attributes with one key: what becomes of them. -/
structure Coercion where
  key : AttributeKey
  base : Option Locator
  kind : AttributeKind
  /-- The outcome, once it is settled. -/
  outcome? : Option (Outcome Value)

/-- The compiler of an element: what becomes of it, and how far it has come. -/
structure Construction where
  node : Element
  kind : ElementKind
  schema : Schema
  /-- The values of the attributes, in the order in which they came. -/
  values : OrderedMap String Value
  /-- The children that were visited and have a construction. -/
  children : List NodeId
  /-- The outcome, once it is settled. -/
  outcome? : Option (Outcome Value)

/-- A failure that did not spread. -/
structure Diagnostic where
  /-- The element that has failed, or one of whose attributes has. -/
  node : NodeId
  tag : String
  /-- The attribute, if it is one that has failed. -/
  attributeName : Option String
  /-- What went wrong. -/
  error : CompileError
  deriving DecidableEq, Repr

/-- A compile and how far it has come. -/
structure Pass where
  environment : Environment
  /-- The base of relative references; without one each element has its own. -/
  base : Option Locator
  /-- Whether the pass was given up. -/
  released : Bool
  store : Store
  /-- The hooks that were called, newest first, each with whether its kind is noted. -/
  calls : List (HookCall × Bool)
  constructions : OrderedMap NodeId Construction
  coercions : OrderedMap AttributeKey Coercion
  /-- The failures that did not spread, oldest first. -/
  diagnostics : List Diagnostic

namespace Pass

/-- A pass that has not begun. -/
def begin (environment : Environment) (base : Option Locator) (store : Store) : Pass :=
  ⟨environment, base, false, store, [], .empty, .empty, []⟩

/-- Gives the pass up. What was looked up stays. -/
def release (p : Pass) : Pass :=
  { p with released := true }

/-- Remembers that a hook is called. -/
def remember (p : Pass) (call : HookCall) (noted : Bool) : Pass :=
  { p with calls := (call, noted) :: p.calls }

def report (p : Pass) (d : Diagnostic) : Pass :=
  { p with diagnostics := p.diagnostics ++ [d] }

/-! ### Looking up -/

/-- The construction of an element, made if there is none yet. The kind may panic when it declares
the attributes. -/
def lookup (p : Pass) (node : Element) : Except Stop (Construction × Pass) :=
  match p.constructions.get? node.id with
  | some c => .ok (c, p)
  | none =>
    match p.environment.catalog.elementKind node.tag with
    | .error e => .error (.error e)
    | .ok kind =>
      match kind.define node with
      | .error x => .error (.panic x)
      | .ok schema =>
        let c : Construction := ⟨node, kind, schema, .empty, [], none⟩
        .ok (c, { p with constructions := p.constructions.insert node.id c })

/-- The coercion of an attribute, made if there is none yet. The base of the pass comes before the
one that is given. -/
def coercion (p : Pass) (name type value : String) (base : Option Locator) :
    Outcome (Coercion × Pass) :=
  let key := AttributeKey.ofType name type value
  match p.coercions.get? key with
  | some c => .ok (c, p)
  | none =>
    match p.environment.catalog.attributeKind key.type with
    | .error e => .error e
    | .ok kind =>
      -- The key says nothing of the base: who asks first decides, if the pass has none.
      let c : Coercion := ⟨key, p.base.or base, kind, none⟩
      .ok (c, { p with coercions := p.coercions.insert key c })

/-! ### Changing what was looked up -/

def modifyConstruction (p : Pass) (id : NodeId) (f : Construction → Construction) : Pass :=
  { p with constructions := p.constructions.modify id f }

def setValues (p : Pass) (id : NodeId) (values : OrderedMap String Value) : Pass :=
  p.modifyConstruction id fun c => { c with values := values }

/-- Sets one value of an element, in place of any that it has under the name. -/
def setValue (p : Pass) (id : NodeId) (name : String) (value : Value) : Pass :=
  p.modifyConstruction id fun c => { c with values := c.values.insert name value }

/-- Adds a child that was visited. -/
def adopt (p : Pass) (parent child : NodeId) : Pass :=
  p.modifyConstruction parent fun c => { c with children := c.children ++ [child] }

def settle (p : Pass) (id : NodeId) (outcome : Outcome Value) : Pass :=
  p.modifyConstruction id fun c => { c with outcome? := some outcome }

def settleCoercion (p : Pass) (key : AttributeKey) (outcome : Outcome Value) : Pass :=
  { p with coercions := p.coercions.modify key fun c => { c with outcome? := some outcome } }

/-! ### Observing -/

/-- The hooks that were called, oldest first. -/
def trace (p : Pass) : List HookCall :=
  (p.calls.map Prod.fst).reverse

/-- The noted calls as text, oldest first. -/
def journal (p : Pass) : List String :=
  ((p.calls.filter (·.2)).filterMap (·.1.text?)).reverse

def values (p : Pass) (id : NodeId) : OrderedMap String Value :=
  match p.constructions.get? id with
  | some c => c.values
  | none => .empty

/-- The constructions of the visited children of an element, in order. -/
def children (p : Pass) (id : NodeId) : List Construction :=
  match p.constructions.get? id with
  | some c => c.children.filterMap p.constructions.get?
  | none => []

/-- The base of an element: that of the pass, or its own if the pass has none or was given up. -/
def baseOf (p : Pass) (node : Element) : Option Locator :=
  if p.released then node.base else p.base.or node.base

end Pass

namespace Construction

def status (c : Construction) : Status :=
  .ofOutcome? c.outcome?

def result? (c : Construction) : Option Value :=
  match c.outcome? with
  | some (.ok value) => some value
  | _ => none

def error? (c : Construction) : Option CompileError :=
  match c.outcome? with
  | some (.error e) => some e
  | _ => none

/-- What the hooks of the parent see. -/
def childView (c : Construction) : ChildView :=
  ⟨c.node, c.outcome?⟩

end Construction

namespace Coercion

def status (c : Coercion) : Status :=
  .ofOutcome? c.outcome?

def result? (c : Coercion) : Option Value :=
  match c.outcome? with
  | some (.ok value) => some value
  | _ => none

/-- What the hooks of the kind see. -/
def view (c : Coercion) (e : Environment) : AttributeView :=
  ⟨e.toWorld, c.key, c.base⟩

end Coercion

end ObjectMarkup
