import ObjectMarkup.Kind.Basic
import ObjectMarkup.Locator.Reading

/-!
# Attributes that name something else

Paths of the namespace, constructors that are called, and images that are fetched.
-/

namespace ObjectMarkup.Kind

/-- Ends a hook with an outcome. -/
def ofOutcome {σ α : Type} : Outcome α → Hook σ Stop α
  | .ok a => pure a
  | .error e => throw (.error e)

/-- The value of the path in an attribute. -/
def symbolOf (a : AttributeView) : Hook Store Stop Value :=
  ofOutcome (a.symbols.reflect (Text.trimmed a.key.value))

/-- Values of paths. -/
def constructor : AttributeKind where
  name := "constructor"
  construct := symbolOf

/-- Calls a constructor. -/
def call (a : AttributeView) (maker : Maker Value) : Hook Store Stop Value := do
  match ← modifyGet (a.calls.run maker) with
  | .ok value => return value
  | .error p => throw (.panic p)

/-- Values that constructors make. -/
def instanceOf : AttributeKind where
  name := "instance"
  construct a := do
    match ← symbolOf a with
    | .constructor _ maker => call a maker
    -- The path leads to a value, but there is nothing to call.
    | _ => throw (.error a.mismatch)

/-- Loaded bytes. -/
def image : AttributeKind where
  name := "image"
  construct a := do
    match Locator.resolve a.domains a.base (Text.trimmed a.key.value) with
    -- What is no locator is a mistake in the text, not a failed fetch.
    | .error _ => throw (.error a.mismatch)
    | .ok url =>
      match a.fetch url with
      | .ok r => return .resource r
      | .error e => throw (.error (.fetch e))

end ObjectMarkup.Kind
