import ObjectMarkup.Concurrency.Promise
import ObjectMarkup.Fetch.Basic

/-!
# What goes wrong while compiling

Errors are values: they are kept as the outcome of a step and reported as diagnostics. A step that
panics has no value; `contain` turns its panic into an error where the step was started.

An error is **fatal** if it shows a mistake in a kind and not in the markup.
-/

namespace ObjectMarkup

/-- What a name stands for. -/
inductive Reference where
  | tag
  | type
  /-- A path of the namespace. -/
  | symbol
  deriving DecidableEq, Repr

/-- How the reference is called. -/
def Reference.text : Reference → String
  | .tag => "tag"
  | .type => "attribute type"
  | .symbol => "symbol"

/-- An error of a compile. -/
inductive CompileError where
  /-- Something was settled twice. -/
  | protocol (violation : ProtocolViolation)
  /-- A kind does not implement a hook that is needed. -/
  | notImplemented (kind hook : String)
  /-- A raw value cannot be read as its type. -/
  | typeMismatch (name value type : String)
  /-- Nothing has the name. -/
  | unresolved (reference : Reference) (name : String)
  /-- An element could not be constructed. -/
  | constructionFailure (tag : String) (source : CompileError)
  /-- Nothing was fetched. -/
  | fetch (error : FetchError)
  | aborted (text : String)
  /-- The pass of the element is gone. -/
  | detached
  | message (text : String)
  deriving DecidableEq, Repr

namespace CompileError

def text : CompileError → String
  | .protocol violation => violation.message
  | .notImplemented kind hook => kind ++ " does not implement " ++ hook
  | .typeMismatch name value type =>
    "attribute [" ++ name ++ "=\"" ++ value ++ "\"] could not be parsed to " ++ type
  | .unresolved reference name => "unresolved " ++ reference.text ++ " '" ++ name ++ "'"
  | .constructionFailure tag source => "<" ++ tag ++ "> failed to construct: " ++ source.text
  | .fetch error => error.message
  | .aborted text => "compile step aborted: " ++ text
  | .detached => "element compiler outlived its compile pass"
  | .message text => text

/-- Whether the error shows a mistake in a kind. -/
def isFatal : CompileError → Bool
  | .protocol _ | .notImplemented _ _ | .detached => true
  | _ => false

/-- Marks an error as one of constructing an element. An error that is marked stays as it is. -/
def inConstruction (tag : String) : CompileError → CompileError
  | .constructionFailure tag source => .constructionFailure tag source
  | e => .constructionFailure tag e

end CompileError

/-- Why a step ends without a result. -/
inductive Stop where
  | error (e : CompileError)
  | panic (p : Panic)
  deriving DecidableEq, Repr

/-- How a step that was started apart has ended. -/
abbrev Outcome (α : Type) := Except CompileError α

/-- The outcome of a step that was started apart: its panic becomes an error. -/
def contain {α : Type} : Except Stop α → Outcome α
  | .ok a => .ok a
  | .error (.error e) => .error e
  | .error (.panic p) => .error (.aborted p.message)

end ObjectMarkup
