import ObjectMarkup.OrderedMap
import ObjectMarkup.Locator.Basic

/-!
# Markup trees

An element has a tag, attributes whose values are raw text, and children. Every element of a built
tree carries a number of its own and the base that relative references inside it resolve against.

The elements below an element can be listed in two ways: by recursion (`preorder`), and one after
the other with a stack of elements still to come (`Descendants.next?`). Both give the same order.
-/

namespace ObjectMarkup.Markup

/-- The number of an element, unique among all elements that are ever built. -/
abbrev NodeId := Nat

structure Element where
  id : NodeId
  /-- The tag exactly as it was written. -/
  tag : String
  /-- The raw attributes in document order. -/
  attributes : OrderedMap String String
  /-- The child elements in document order. -/
  children : List Element
  /-- The base of relative references inside the element. -/
  base : Option Locator

namespace Element

def attribute? (e : Element) (name : String) : Option String :=
  e.attributes.get? name

mutual

def size : Element → Nat
  | ⟨_, _, _, children, _⟩ => 1 + sizeAll children

def sizeAll : List Element → Nat
  | [] => 0
  | e :: rest => e.size + sizeAll rest

end

mutual

/-- The element and everything below it, each element before its children. -/
def preorder : Element → List Element
  | ⟨id, tag, attributes, children, base⟩ =>
    ⟨id, tag, attributes, children, base⟩ :: preorderAll children

/-- The preorders of a list of trees, one after the other. -/
def preorderAll : List Element → List Element
  | [] => []
  | e :: rest => e.preorder ++ preorderAll rest

end

@[simp] theorem sizeAll_append (a b : List Element) :
    sizeAll (a ++ b) = sizeAll a + sizeAll b := by
  induction a with
  | nil => simp [sizeAll]
  | cons e rest ih => simp [sizeAll, ih, Nat.add_assoc]

theorem size_eq (e : Element) : e.size = 1 + sizeAll e.children := by
  cases e; simp [size]

theorem preorder_eq (e : Element) : e.preorder = e :: preorderAll e.children := by
  cases e; simp [preorder]

end Element

/-- The elements that are still to come, as a stack of trees with the next one on top. -/
structure Descendants where
  stack : List Element

namespace Descendants

def below (e : Element) : Descendants :=
  ⟨e.children⟩

/-- Takes the next element off the stack and puts its children there instead. -/
def next? (d : Descendants) : Option (Element × Descendants) :=
  match d.stack with
  | [] => none
  | e :: rest => some (e, ⟨e.children ++ rest⟩)

/-- Each step leaves fewer elements to come. -/
theorem sizeAll_next? {d d' : Descendants} {e : Element} (h : d.next? = some (e, d')) :
    Element.sizeAll d'.stack < Element.sizeAll d.stack := by
  obtain ⟨stack⟩ := d
  cases stack with
  | nil => simp [next?] at h
  | cons a rest =>
    simp only [next?, Option.some.injEq, Prod.mk.injEq] at h
    obtain ⟨rfl, rfl⟩ := h
    simp only [Element.sizeAll, Element.sizeAll_append, Element.size_eq]
    omega

/-- The elements in the order in which they come. -/
def toList (d : Descendants) : List Element :=
  match _h : d.next? with
  | none => []
  | some (e, d') => e :: d'.toList
termination_by Element.sizeAll d.stack
decreasing_by exact sizeAll_next? _h

end Descendants

/-- The elements below an element, each before its children. -/
def Element.descendants (e : Element) : List Element :=
  (Descendants.below e).toList

end ObjectMarkup.Markup
