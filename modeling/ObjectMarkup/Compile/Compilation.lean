import ObjectMarkup.Compile.Process
import ObjectMarkup.Kind.Builtin
import ObjectMarkup.Markup.Document

/-!
# Compiling documents

A document is compiled by processing its root in a pass of its own.
-/

namespace ObjectMarkup

open Markup (Document Element NodeId)

/-- The environment of the built-in kinds. -/
def Environment.builtin (world : World) : Environment :=
  ⟨world, .builtin⟩

/-- The compile of a document. -/
structure Compilation where
  document : Document
  pass : Pass
  /-- The root, once it was looked up. -/
  root : Option NodeId
  /-- The outcome, once it is settled. -/
  outcome? : Option (Outcome Value)

namespace Compilation

/-- A compile that has not begun. Relative references are resolved against the base that is given,
else that of the document, else the working directory. -/
def begin (environment : Environment) (document : Document) (base workingDirectory : Option Locator)
    (store : Store) : Compilation :=
  ⟨document, .begin environment ((base.or document.base).or workingDirectory) store, none, none⟩

/-- The outcome of the root, and the pass behind it. A root that cannot be looked up is none. -/
def processRoot (p : Pass) (root : Element) : Outcome Value × Pass × Option NodeId :=
  match p.lookup root with
  | .error e => (contain (.error e), p, none)
  | .ok (_, p) =>
    let (outcome, p) := process root p
    (outcome, p, some root.id)

/-- The outcome of the document, processed if it has none yet. -/
def process (c : Compilation) : Outcome Value × Compilation :=
  match c.outcome? with
  | some outcome => (outcome, c)
  | none =>
    let (outcome, p, root) := processRoot c.pass c.document.root
    (outcome, { c with pass := p, root := root, outcome? := some outcome })

def status (c : Compilation) : Status :=
  .ofOutcome? c.outcome?

def result? (c : Compilation) : Option Value :=
  match c.outcome? with
  | some (.ok value) => some value
  | _ => none

def error? (c : Compilation) : Option CompileError :=
  match c.outcome? with
  | some (.error e) => some e
  | _ => none

end Compilation

end ObjectMarkup
