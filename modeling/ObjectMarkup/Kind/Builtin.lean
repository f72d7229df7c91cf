import ObjectMarkup.Catalog
import ObjectMarkup.Kind.Data
import ObjectMarkup.Kind.Display
import ObjectMarkup.Kind.Reference
import ObjectMarkup.Kind.Scalar

/-!
# The built-in catalog
-/

namespace ObjectMarkup

namespace Kind

/-- The built-in kinds of attributes with their types. -/
def attributes : List (AttributeKind × List String) :=
  [(boolean, ["bool", "boolean"]), (number, ["number", "int", "integer", "float"]),
    (constructor, ["class", "constructor"]), (instanceOf, ["instance"]), (image, ["img", "image"]),
    (list, ["array", "list"])]

/-- The built-in kinds of elements with their tags. -/
def elements : List (ElementKind × List String) :=
  [(data, ["data", "bool", "boolean", "number", "int", "integer", "float"]), (object, ["object"]),
    (container, ["container"]), (shape, ["shape"]), (bitmap, ["bitmap"])]

def attribute? (name : String) : Option AttributeKind :=
  (attributes.map Prod.fst).find? (·.name == name)

def element? (name : String) : Option ElementKind :=
  (elements.map Prod.fst).find? (·.name == name)

end Kind

def Catalog.builtin : Catalog :=
  let c := Kind.attributes.foldl (fun c (kind, types) => (c.addAttribute kind types).2) .empty
  Kind.elements.foldl (fun c (kind, tags) => (c.addElement kind tags).2) c

end ObjectMarkup
