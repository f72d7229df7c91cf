import ObjectMarkup.Markup.Element
import ObjectMarkup.Namespace
import ObjectMarkup.Schema

/-!
# Kinds

A kind says what becomes of the attributes of a type, or of the elements with a tag. It consists of
hooks, which the compiler calls at fixed points. A hook sees what it works on as a view, changes a
state and ends with a value, an error or a panic; what it has changed stays changed however it ends.

Hooks of attributes change the records of the store. Hooks of elements change a `Bench`, on which
the values of the element lie besides. No hook can touch the list of hook calls, which the compiler
keeps.
-/

namespace ObjectMarkup

open Markup (Element NodeId)

/-- What makes two attributes compile to the same value. -/
structure AttributeKey where
  name : String
  /-- The type, as it is looked up. -/
  type : String
  value : String
  deriving DecidableEq, Repr

/-- The key of an attribute with a type in any spelling. -/
def AttributeKey.ofType (name type value : String) : AttributeKey :=
  ⟨name, Text.nameKey type, value⟩

inductive AttributeHook where
  | before
  | construct
  | finish
  deriving DecidableEq, Repr

/-- The hooks of an element that are called while it is processed. -/
inductive ElementHook where
  | beforeAttributes
  | afterAttributes
  | construct
  | finish
  deriving DecidableEq, Repr

/-- A hook that was called, and what it was called for. -/
inductive HookCall where
  | attribute (hook : AttributeHook) (key : AttributeKey)
  | element (hook : ElementHook) (node : NodeId) (tag : String)
  deriving DecidableEq, Repr

/-- How a call is written in a journal. That the value of an attribute is finished is not. -/
def HookCall.text? : HookCall → Option String
  | .attribute .before key => some ("pre:" ++ key.name ++ "=" ++ key.value)
  | .attribute .construct key => some ("attr:" ++ key.name ++ "=" ++ key.value)
  | .attribute .finish _ => none
  | .element .beforeAttributes _ tag => some ("before:" ++ tag)
  | .element .afterAttributes _ tag => some ("after:" ++ tag)
  | .element .construct _ tag => some ("construct:" ++ tag)
  | .element .finish _ tag => some ("post:" ++ tag)

/-- What the hooks of an element can change through the compiler of the element: any record, and the
values of its attributes. -/
structure Bench where
  store : Store
  /-- The values of the element, by attribute name, in the order in which they came. -/
  values : OrderedMap String Value

/-- A hook that changes a state and ends with a value or early. -/
abbrev Hook (σ ε α : Type) := ExceptT ε (StateM σ) α

/-- What compiles find around them. -/
structure World where
  symbols : Namespace
  /-- What the constructors do that are in the namespace. -/
  calls : Calls
  fetch : Fetcher
  /-- What international names of hosts stand for. -/
  domains : Locator.Domains

/-- A world without values, where nothing is found. -/
def World.empty : World :=
  ⟨.empty, .null, fun url => .error (.notFound url), .unmapped⟩

/-- What a hook of an attribute sees. -/
structure AttributeView extends World where
  /-- Name, type and raw value. -/
  key : AttributeKey
  base : Option Locator

/-- The error of a raw value that cannot be read as its type. -/
def AttributeView.mismatch (a : AttributeView) : CompileError :=
  .typeMismatch a.key.name a.key.value a.key.type

/-- What becomes of the attributes of a type. -/
structure AttributeKind where
  name : String
  /-- Whether calls of the hooks are written in the journal. -/
  noted : Bool := false
  /-- Is called before the value is made. -/
  before : AttributeView → Hook Store Panic Unit := fun _ => pure ()
  construct : AttributeView → Hook Store Stop Value :=
    fun _ => throw (.error (.notImplemented name "construct"))
  finish : AttributeView → Value → Hook Store Stop Value := fun _ value => pure value

/-- What the hooks of an element see of a child. -/
structure ChildView where
  node : Element
  /-- Its outcome, if it was processed. -/
  outcome? : Option (Outcome Value)

/-- The value of a child that has one. -/
def ChildView.result? (c : ChildView) : Option Value :=
  match c.outcome? with
  | some (.ok value) => some value
  | _ => none

/-- The error of a child that has failed. -/
def ChildView.error? (c : ChildView) : Option CompileError :=
  match c.outcome? with
  | some (.error e) => some e
  | _ => none

/-- What a hook of an element sees. -/
structure ElementView where
  node : Element
  schema : Schema
  base : Option Locator
  /-- The children that were visited. -/
  children : List ChildView

/-- The values of the children that have one. -/
def ElementView.childResults (e : ElementView) : List Value :=
  e.children.filterMap ChildView.result?

def makeRecord {ε : Type} (r : Record) : Hook Bench ε RecordId :=
  modifyGet fun bench =>
    let (id, store) := bench.store.make r
    (id, { bench with store := store })

def onStore {ε : Type} (f : Store → Store) : Hook Bench ε Unit :=
  modify fun bench => { bench with store := f bench.store }

/-- What becomes of the elements with a tag. -/
structure ElementKind where
  name : String
  /-- Whether calls of the hooks are written in the journal. -/
  noted : Bool := false
  /-- Declares the attributes. Is called once, when the element is first looked up. -/
  define : Element → Except Panic Schema := fun _ => pure .empty
  /-- Is called before the attributes are compiled. -/
  beforeAttributes : ElementView → Hook Bench Panic Unit := fun _ => pure ()
  /-- Is called after the attributes were compiled. -/
  afterAttributes : ElementView → Hook Bench Panic Unit := fun _ => pure ()
  /-- Makes the value, when attributes and children have settled. -/
  construct : ElementView → Hook Bench Stop Value :=
    fun e => return .record (← makeRecord { className := e.node.tag })
  finish : ElementView → Value → Hook Bench Stop Value := fun _ value => pure value

end ObjectMarkup
