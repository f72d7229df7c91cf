import ObjectMarkup.Markup.Element

/-!
# Building markup trees

A tree is written down as a `Draft`: tags, attributes, children and, here and there, a base.
Building it numbers the elements, children before their parent, and hands every element the nearest
base on the way up. Numbers are taken from a counter that is never set back, so the elements of two
trees have different numbers wherever they are built.
-/

namespace ObjectMarkup.Markup

/-- A tree that is not yet built. -/
structure Draft where
  tag : String
  attributes : OrderedMap String String
  children : List Draft
  /-- The base, where it differs from that of the parent. -/
  base : Option Locator

namespace Draft

/-- A tree of one element without attributes. -/
def leaf (tag : String) : Draft :=
  ⟨tag, .empty, [], none⟩

/-- The draft with an attribute more. Under a name that is present the new value takes the place of
the old one. -/
def withAttribute (d : Draft) (name value : String) : Draft :=
  { d with attributes := d.attributes.insert name value }

def withChild (d : Draft) (child : Draft) : Draft :=
  { d with children := d.children ++ [child] }

mutual

/-- Builds a tree under an inherited base: numbers are taken from `next` on, and the first number
that is not taken is returned too. -/
def build (inherited : Option Locator) (next : NodeId) : Draft → Element × NodeId
  | ⟨tag, attributes, children, base⟩ =>
    let base := base.or inherited
    let (built, next) := buildAll base next children
    (⟨next, tag, attributes, built, base⟩, next + 1)

def buildAll (inherited : Option Locator) (next : NodeId) : List Draft → List Element × NodeId
  | [] => ([], next)
  | d :: rest =>
    let (e, next) := d.build inherited next
    let (others, next) := buildAll inherited next rest
    (e :: others, next)

end

end Draft

/-- A built tree with the base of the document. -/
structure Document where
  root : Element
  base : Option Locator

namespace Document

/-- Builds a document, with a base for the elements that have none of their own above them. -/
def ofDraft (d : Draft) (base : Option Locator) (next : NodeId) : Document × NodeId :=
  let (root, next) := d.build base next
  (⟨root, base⟩, next)

/-- The document of a tree that is already built: its base is that of the root. -/
def ofElement (root : Element) : Document :=
  ⟨root, root.base⟩

end Document

end ObjectMarkup.Markup
