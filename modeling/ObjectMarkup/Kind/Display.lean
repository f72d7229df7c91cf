import ObjectMarkup.Kind.Basic

/-!
# Display elements

Containers, shapes and bitmaps share the attributes of what can be shown. Besides the attributes
that are assigned there are two shorthands, `reg` and `scale`, each of which stands for a pair of
properties.
-/

namespace ObjectMarkup.Kind

/-- The attributes of what can be shown. -/
def displaySchema : Schema :=
  let s : Schema := OrderedMap.empty
  let s := Schema.defineAll s "number" ["alpha", "cacheID", "id", "x", "y", "rotation", "scaleX",
    "scaleY", "regX", "regY", "skewX", "skewY"]
  let s := Schema.defineAll s "bool" ["mouseEnabled", "visible", "snapToPixel", "tickEnabled",
    "lazy"]
  let s := Schema.defineAll s "string" ["name", "cursor", "compositeOperation"]
  let s := Schema.defineAll s "array" ["filters", "transformMatrix"]
  let s := Schema.declare s "reg" "number" false false
  let s := Schema.declare s "scale" "number" false false
  let s := Schema.declare s "controller" "instance" false false
  Schema.declare s "href" "string" false false

/-- The properties that are not assigned, each with the attribute that it is taken from. -/
def displayShorthands : List (String × String) :=
  [("regX", "reg"), ("regY", "reg"), ("scaleX", "scale"), ("scaleY", "scale"), ("href", "href"),
    ("controller", "controller")]

/-- Sets the properties that are not assigned. -/
def finishDisplay (record : RecordId) : Hook Bench Stop Unit := do
  let values := (← get).values
  onStore fun s => displayShorthands.foldl (fun s (property, source) =>
    match values.get? source with
    | some value => s.set record property value
    | none => s) s

/-- Finishes a value that is a record. -/
def finishIfRecord (value : Value) : Hook Bench Stop Value := do
  match value with
  | .record id => finishDisplay id
  | _ => pure ()
  return value

/-- Containers take those results of their children that are records. -/
def container : ElementKind where
  name := "container"
  define _ := .ok displaySchema
  finish e value :=
    match value with
    | .record id => do
      finishDisplay id
      onStore fun s => (e.childResults.filter Value.isRecord).foldl (fun s v => s.push id v) s
      return value
    -- A container that took its value from elsewhere may have nothing to put children into.
    | _ => throw (.error (.message ("container built a " ++ value.typeName)))

def shape : ElementKind where
  name := "shape"
  define _ := .ok displaySchema
  finish _ value := finishIfRecord value

/-- Bitmaps load their source. -/
def bitmap : ElementKind where
  name := "bitmap"
  define _ := .ok (Schema.define displaySchema "src" "image")
  finish _ value := finishIfRecord value

end ObjectMarkup.Kind
