import ObjectMarkup.Kind.Basic
import ObjectMarkup.Value.Literal

/-!
# Scripted kinds

A script describes a kind as data: which of its hooks do what. The calls of its hooks are noted in
the journal. The values in a script are written down, and each call of a hook builds them anew; only
a value that a script refers to is the same one for all calls.
-/

namespace ObjectMarkup.Kind

/-- The ways in which a scripted hook fails. -/
inductive Failure where
  | message (text : String)
  /-- As a hook that is not implemented. -/
  | notImplemented
  /-- As an element without a pass. -/
  | detached
  /-- As a promise that was resolved and is to be rejected. -/
  | protocol
  /-- As an element with the tag that could not be constructed. -/
  | construction (tag text : String)
  | panic (p : Panic)

/-- What a hook of a kind ends with if it fails that way. -/
def Failure.stop (kind hook : String) : Failure → Stop
  | .message text => .error (.message text)
  | .notImplemented => .error (.notImplemented kind hook)
  | .detached => .error .detached
  | .protocol => .error (.protocol ⟨.resolved⟩)
  | .construction tag text => .error (.constructionFailure tag (.message text))
  | .panic p => .panic p

/-- Ends a hook with a panic, if there is one. -/
def panicIf {σ : Type} : Option Panic → Hook σ Panic Unit
  | some p => throw p
  | none => pure ()

/-! ### Attributes -/

/-- How a scripted kind makes the value of an attribute. -/
inductive AttributeAction where
  /-- The raw text. -/
  | echo
  | value (v : Literal)
  /-- A list of name, type, raw text and base. -/
  | describe
  | mismatch
  /-- What another kind makes of it. -/
  | as (kind : AttributeKind)
  | fail (f : Failure)

/-- How a scripted kind finishes the value of an attribute. -/
inductive AttributeFinish where
  /-- It leaves it as it is. -/
  | keep
  /-- It puts it into a list. -/
  | list
  | mismatch
  | fail (f : Failure)

/-- A kind of attributes as data. -/
structure AttributeScript where
  name : String
  /-- The values that can be referred to. -/
  known : List Value
  /-- What is panicked with before the value is made. -/
  panic : Option Panic
  /-- How the value is made. -/
  construct : AttributeAction
  /-- How the value is finished. -/
  finish : AttributeFinish

/-- What is known about an attribute, as a list. -/
def describe (a : AttributeView) : Value :=
  .list [.string a.key.name, .string a.key.type, .string a.key.value,
    match a.base with
    | some base => .string base.text
    | none => .null]

def AttributeScript.kind (s : AttributeScript) : AttributeKind where
  name := s.name
  noted := true
  before _ := panicIf s.panic
  construct a :=
    match s.construct with
    | .echo => pure (.string a.key.value)
    | .value l => modifyGet fun store => l.build s.known store
    | .describe => pure (describe a)
    | .mismatch => throw (.error a.mismatch)
    | .as kind => kind.construct a
    | .fail f => throw (f.stop s.name "construct")
  finish a value :=
    match s.finish with
    | .keep => pure value
    | .list => pure (.list [value])
    | .mismatch => throw (.error a.mismatch)
    | .fail f => throw (f.stop s.name "post_construct")

/-! ### Elements -/

def buildValue {ε : Type} (known : List Value) (l : Literal) : Hook Bench ε Value :=
  modifyGet fun bench =>
    let (value, store) := l.build known bench.store
    (value, { bench with store := store })

def setValues {ε : Type} (known : List Value) (values : List (String × Literal)) :
    Hook Bench ε Unit :=
  values.forM fun (name, l) => do
    let value ← buildValue known l
    modify fun bench => { bench with values := bench.values.insert name value }

/-- How a scripted kind makes the value of an element. -/
inductive ElementAction where
  /-- A new record, of the class or else of the tag. -/
  | object (className : Option String)
  | value (v : Literal)
  /-- The value of an attribute, or a written one if the element does not have it. -/
  | attribute (name : String) (default : Literal)
  /-- What another kind makes of it. -/
  | as (kind : ElementKind)
  /-- The error of the first child that has failed. -/
  | childError
  | fail (f : Failure)

/-- How a scripted kind finishes the value of an element. -/
inductive ElementFinish where
  /-- It leaves it as it is. -/
  | keep
  /-- It adds the results of the children to a record. -/
  | children
  /-- It puts it into a list with the results of the children. -/
  | list
  /-- As another kind does it. -/
  | as (kind : ElementKind)
  | fail (f : Failure)

/-- An attribute that a scripted kind declares. -/
structure ScriptedAttribute where
  name : String
  /-- The type in any spelling. -/
  type : String
  /-- Whether the value becomes a property. -/
  assigned : Bool
  /-- Whether the value is handed down. -/
  forwarded : Bool

/-- A kind of elements as data. -/
structure ElementScript where
  name : String
  /-- The values that can be referred to. -/
  known : List Value
  /-- What is panicked with when the attributes are declared. -/
  panic : Option Panic
  /-- The kind whose declarations come first. -/
  inherited : Option ElementKind
  /-- The further declarations. -/
  schema : List ScriptedAttribute
  /-- Values that are set before the attributes are compiled. -/
  before : List (String × Literal)
  /-- Values that are set after the attributes were compiled. -/
  after : List (String × Literal)
  /-- How the value is made. -/
  construct : ElementAction
  /-- How the value is finished. -/
  finish : ElementFinish

/-- The error of the first child that has failed. -/
def firstChildError (e : ElementView) : CompileError :=
  match e.children.filterMap ChildView.error? with
  | error :: _ => error
  | [] => .message "no failed child"

def ElementScript.kind (s : ElementScript) : ElementKind where
  name := s.name
  noted := true
  define node := do
    match s.panic with
    | some p => throw p
    | none => pure ()
    let inherited ← match s.inherited with
      | some kind => kind.define node
      | none => pure .empty
    return s.schema.foldl
      (fun schema a => Schema.declare schema a.name a.type a.assigned a.forwarded) inherited
  beforeAttributes _ := setValues s.known s.before
  afterAttributes _ := setValues s.known s.after
  construct e := do
    match s.construct with
    | .object className =>
      return .record (← makeRecord { className := className.getD e.node.tag })
    | .value l => buildValue s.known l
    | .attribute name default =>
      match (← get).values.get? name with
      | some value => return value
      | none => buildValue s.known default
    | .as kind => kind.construct e
    | .childError => throw (.error (firstChildError e))
    | .fail f => throw (f.stop s.name "construct")
  finish e value :=
    match s.finish with
    | .keep => pure value
    | .children => do
      match value with
      | .record id => onStore fun store => e.childResults.foldl (·.push id ·) store
      | _ => pure ()
      return value
    | .list => pure (.list (value :: e.childResults))
    | .as kind => kind.finish e value
    | .fail f => throw (f.stop s.name "post_construct")

end ObjectMarkup.Kind
