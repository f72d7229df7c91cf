import ObjectMarkup.Compile.Pass

/-!
# Processing

The phases of an element are: the hook before the attributes, the attributes in the order of the
document, the hook after them, the children, and at last its own value (`build`). Each attribute key
and each element is processed once in a pass; who asks again gets the same outcome.

A failure spreads as little as possible. An attribute that has failed is reported and left out,
unless its error is fatal. A child that has failed is reported and its parent goes on. Only a kind
that panics while it declares the attributes of a child takes the parent with it, since that happens
while the parent looks the child up.
-/

namespace ObjectMarkup

open Markup (Element NodeId)

abbrev Step (α : Type) := Hook Pass Stop α

/-- A hook that can only panic, as one that can fail in any way. -/
def orStop {σ α : Type} (h : Hook σ Panic α) : Hook σ Stop α :=
  h.adapt Stop.panic

/-! ### Attributes -/

def callForAttribute {ε α : Type} (c : Coercion) (hook : AttributeHook) (h : Hook Store ε α) :
    Hook Pass ε α :=
  ExceptT.mk fun p =>
    let (ending, store) := h.run.run p.store
    (ending, { p.remember (.attribute hook c.key) c.kind.noted with store := store })

/-- All hooks of an attribute, one after the other. -/
def makeValue (c : Coercion) : Step Value := do
  let a := c.view (← get).environment
  orStop (callForAttribute c .before (c.kind.before a))
  let value ← callForAttribute c .construct (c.kind.construct a)
  callForAttribute c .finish (c.kind.finish a value)

/-- The outcome of a coercion, processed if it has none yet. -/
def Pass.coerce (p : Pass) (c : Coercion) : Outcome Value × Pass :=
  -- The coercion may have been settled since it was looked up.
  let c := (p.coercions.get? c.key).getD c
  match c.outcome? with
  | some outcome => (outcome, p)
  | none =>
    let (ending, p) := (makeValue c).run.run p
    (contain ending, p.settleCoercion c.key (contain ending))

def compileAttribute (c : Construction) (name raw : String) : Step Unit := do
  let id := c.node.id
  let type := c.schema.typeOf name
  if type = "string" then modify (·.setValue id name (.string raw))
  else
    match (← get).coercion name type raw c.node.base with
    | .error e => modify (·.report ⟨id, c.node.tag, some name, e⟩)
    | .ok (coercion, p) =>
      let (outcome, p) := p.coerce coercion
      set p
      match outcome with
      | .ok value => modify (·.setValue id name value)
      -- A mistake in the kind ends the element; anything else costs it one attribute.
      | .error e =>
        if e.isFatal then throw (.error e)
        else modify (·.report ⟨id, c.node.tag, some name, e⟩)

/-! ### Hooks of elements -/

def callForElement {ε α : Type} (c : Construction) (hook : ElementHook) (h : Hook Bench ε α) :
    Hook Pass ε α :=
  ExceptT.mk fun p =>
    let id := c.node.id
    let (ending, bench) := h.run.run ⟨p.store, p.values id⟩
    let p := p.remember (.element hook id c.node.tag) c.kind.noted
    (ending, { p with store := bench.store }.setValues id bench.values)

/-- What the hooks of an element see. -/
def Pass.view (p : Pass) (c : Construction) : ElementView :=
  ⟨c.node, c.schema, p.baseOf c.node, (p.children c.node.id).map Construction.childView⟩

/-- Everything before the children. -/
def compileAttributes (c : Construction) : Step Unit := do
  orStop (callForElement c .beforeAttributes (c.kind.beforeAttributes ((← get).view c)))
  c.node.attributes.entries.forM fun (name, raw) => compileAttribute c name raw
  orStop (callForElement c .afterAttributes (c.kind.afterAttributes ((← get).view c)))

/-- Calls a hook that belongs to the construction of an element and marks its error. -/
def inConstruction {σ α : Type} (tag : String) (h : Hook σ Stop α) : Hook σ Stop α :=
  h.adapt fun
    | .error e => .error (e.inConstruction tag)
    | .panic x => .panic x

/-- Assigns the values of the declared attributes to a record. -/
def Pass.assign (p : Pass) (c : Construction) (record : RecordId) : Pass :=
  let values := p.values c.node.id
  let store := (Schema.assignedNames c.schema).foldl (fun s name =>
    match values.get? name with
    | some value => s.set record name value
    | none => s) p.store
  { p with store := store }

/-- Everything after the children: the value is made, gets its properties and is finished. -/
def build (c : Construction) : Step Value := do
  let value ← inConstruction c.node.tag
    (callForElement c .construct (c.kind.construct ((← get).view c)))
  match value with
  | .record record => modify (·.assign c record)
  | _ => pure ()
  inConstruction c.node.tag (callForElement c .finish (c.kind.finish ((← get).view c) value))

/-! ### Elements -/

/-- Hands the forwarded values of an element down to a child, in place of those that it has. -/
def Pass.handDown (p : Pass) (parent child : NodeId) : Pass :=
  match p.constructions.get? parent with
  | none => p
  | some c =>
    (Schema.forwardedNames c.schema).foldl (fun p name =>
      match c.values.get? name with
      | some value => p.setValue child name value
      | none => p) p

mutual

/-- The outcome of an element that was looked up, processed if it has none yet. Without its pass an
element cannot be processed. -/
def process : Element → Pass → Outcome Value × Pass
  | ⟨id, _, _, children, _⟩, p =>
    match p.constructions.get? id with
    | none => (.error .detached, p)
    | some c =>
      match c.outcome? with
      | some outcome => (outcome, p)
      | none =>
        -- Being too late is an outcome too: whoever asks again gets it again.
        if p.released then (.error .detached, p.settle id (.error .detached))
        else
          let steps : Step Value := do
            compileAttributes c
            visit id children
            build c
          let (ending, p) := steps.run.run p
          (contain ending, p.settle id (contain ending))

/-- Visits children one after the other. -/
def visit (parent : NodeId) : List Element → Step Unit
  | [] => pure ()
  | child :: rest => do
    match (← get).lookup child with
    -- The look-up belongs to the parent, so a panic in it is the parent's own.
    | .error (.panic x) => throw (.panic x)
    | .error (.error e) => modify (·.report ⟨child.id, child.tag, none, e⟩)
    | .ok (_, p) =>
      -- What is handed down arrives before the child begins.
      let (outcome, p) := process child (p.handDown parent child.id)
      set p
      match outcome with
      | .error e => modify (·.report ⟨child.id, child.tag, none, e⟩)
      | .ok _ => pure ()
      modify (·.adopt parent child.id)
    visit parent rest

end

end ObjectMarkup
