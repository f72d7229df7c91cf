import ObjectMarkup.CompileError

/-!
# Names for values

A namespace gives values to dotted paths such as `app.views.Main`. Under each part of a path there
is either a value or a scope with the parts that may follow, never both. So a path that has a value
is no beginning of another one that has one.
-/

namespace ObjectMarkup

namespace Namespace

/-- What a part of a path stands for. -/
inductive Entry where
  /-- The path ends here. -/
  | value (v : Value)
  /-- The path goes on. -/
  | scope (entries : List (String × Entry))

/-- What the parts stand for at one place. -/
abbrev Scope := List (String × Entry)

/-- The parts of a path, between the dots. -/
def parts (path : String) : List String :=
  (path.toList.splitOn '.').map String.ofList

/-- What the path leads to. -/
def find? : List String → Scope → Option Entry
  | [], _ => none
  | [last], scope => scope.lookup last
  | part :: rest, scope =>
    match scope.lookup part with
    | some (.scope inner) => find? rest inner
    | _ => none

/-- The scope with a value at the path. Nothing is put below a value or in the place of a scope, and
in the place of a value only if it may be replaced. -/
def put? (replace : Bool) (v : Value) : List String → Scope → Option Scope
  | [], _ => none
  | [last], scope =>
    match scope.lookup last with
    | some (.scope _) => none
    | some (.value _) => if replace then some (OrderedMap.put last (.value v) scope) else none
    | none => some (OrderedMap.put last (.value v) scope)
  | part :: rest, scope =>
    match scope.lookup part with
    | some (.value _) => none
    | some (.scope inner) =>
      (put? replace v rest inner).map fun inner => OrderedMap.put part (.scope inner) scope
    | none => (put? replace v rest []).map fun inner => OrderedMap.put part (.scope inner) scope

end Namespace

/-- The values of dotted paths. -/
structure Namespace where
  /-- What the first parts stand for. -/
  root : Namespace.Scope

namespace Namespace

def empty : Namespace :=
  ⟨[]⟩

instance : Inhabited Namespace := ⟨empty⟩

/-- Gives a value to a path whose last part is not empty, and says whether it was possible. -/
def define (n : Namespace) (path : String) (v : Value) (replace : Bool) : Bool × Namespace :=
  if (parts path).getLast? = some "" then (false, n)
  else match put? replace v (parts path) n.root with
    | some root => (true, ⟨root⟩)
    | none => (false, n)

/-- Whether the path leads anywhere. The empty path does not. -/
def defined (n : Namespace) (path : String) : Bool :=
  path != "" && (find? (parts path) n.root).isSome

def reflect (n : Namespace) (path : String) : Outcome Value :=
  match find? (parts path) n.root with
  | some (.value v) => .ok v
  | some (.scope _) => .error (.typeMismatch path path "symbol")
  | none => .error (.unresolved .symbol path)

end Namespace

end ObjectMarkup
