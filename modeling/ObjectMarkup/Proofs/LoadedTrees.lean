import ObjectMarkup.Markup.Load
import ObjectMarkup.Proofs.BuiltTrees

/-!
# Markup trees that are loaded

A node is translated entry by entry and child by child, and the first argument that is met ends the
translation. Two things that are no part of this translation say what comes of it:

* which node is refused: the first one with an argument, when the tree is listed in preorder
  (`Kdl.Node.firstArgument?`);
* the draft of a node whose arguments are passed over (`Draft.plain`), for which nothing can fail.

A node becomes its draft unless a node is refused (`Draft.ofNode_eq`). From there on it is about trees
only: what is built of the draft of a node has the shape of the node, and every property stands where
it was given first and with the text that it was given last (`Draft.loaded_plain`).
-/

namespace ObjectMarkup

/-! ### Nodes with arguments -/

namespace Kdl

mutual

/-- The node and all nodes below it. -/
def Node.preorder : Node → List Node
  | ⟨name, entries, children⟩ => ⟨name, entries, children⟩ :: preorderAll children

def Node.preorderAll : List Node → List Node
  | [] => []
  | n :: rest => n.preorder ++ preorderAll rest

end

/-- Every entry has a name, in all of the nodes: there is no argument. -/
def Node.AllNamed (nodes : List Node) : Prop :=
  ∀ m ∈ nodes, ∀ e ∈ m.entries, e.name ≠ none

/-- There is no argument in the node and below it. -/
def Node.Named (n : Node) : Prop :=
  AllNamed n.preorder

instance (n : Node) : Decidable n.Named :=
  inferInstanceAs (Decidable (∀ m ∈ n.preorder, ∀ e ∈ m.entries, e.name ≠ none))

/-- Some entry has no name. -/
def Node.hasArgument (n : Node) : Bool :=
  n.entries.any (·.name.isNone)

/-- The first node with an argument, the node itself before those below it. -/
def Node.firstArgument? (n : Node) : Option Node :=
  n.preorder.find? hasArgument

theorem Node.named_iff (n : Node) : n.Named ↔ n.firstArgument? = none := by
  simp only [Named, AllNamed, firstArgument?, List.find?_eq_none, hasArgument, List.any_eq_true,
    Option.isNone_iff_eq_none, not_exists, not_and, ne_eq]

/-- The entries with names, and the texts of their values. -/
def properties (entries : List Entry) : List (String × String) :=
  entries.filterMap fun e => e.name.map (·, e.value.text)

theorem map_fst_properties (entries : List Entry) :
    (properties entries).map Prod.fst = entries.filterMap Entry.name := by
  rw [properties, List.map_filterMap]
  refine congrArg (List.filterMap · entries) (funext fun e => ?_)
  rw [Option.map_map]
  exact Option.map_id' ..

theorem lookup_properties (entries : List Entry) (name : String) :
    (properties entries).lookup name
      = (entries.find? (·.name == some name)).map (·.value.text) := by
  induction entries with
  | nil => rfl
  | cons e rest ih =>
    obtain ⟨_ | given, value⟩ := e
    · exact ih
    · show ((given, value.text) :: properties rest).lookup name = _
      rw [List.lookup_cons, List.find?_cons, ih]
      -- an entry with a name is found by it, one without is no property
      by_cases h : given = name
      · simp [h]
      · simp [beq_eq_false_iff_ne.mpr h, beq_eq_false_iff_ne.mpr (Ne.symm h)]

end Kdl

/-! ### What a node is translated to -/

namespace Markup.Draft

mutual

/-- The draft of a node, with no regard to arguments. -/
def plain : Kdl.Node → Draft
  | ⟨name, entries, children⟩ =>
    { (leaf name).withAttributes (Kdl.properties entries) with children := plainAll children }

def plainAll : List Kdl.Node → List Draft
  | [] => []
  | n :: rest => plain n :: plainAll rest

end

/-- The answer, unless a node is refused. -/
def unlessRefused {α : Type} (refused : Option Kdl.Node) (answer : α) : Except LoadError α :=
  match refused with
  | some n => .error (.positionalArgument n.name)
  | none => .ok answer

/-- Of two steps the first one is refused first. -/
theorem unlessRefused_or {α β γ : Type} (first second : Option Kdl.Node) (a : α) (b : β)
    (f : α → β → γ) :
    (do let a ← unlessRefused first a; let b ← unlessRefused second b; return f a b)
      = unlessRefused (first.or second) (f a b) := by
  cases first <;> cases second <;> rfl

/-- Entries are taken unless one of them is an argument. -/
theorem withEntries_eq (n : Kdl.Node) (d : Draft) :
    withEntries n.name d n.entries
      = unlessRefused (if n.hasArgument then some n else none)
          (d.withAttributes (Kdl.properties n.entries)) := by
  -- the node that is refused keeps all of its entries, while those to come get fewer
  have hrest : ∀ entries, withEntries n.name d entries
      = unlessRefused (if entries.any (·.name.isNone) then some n else none)
          (d.withAttributes (Kdl.properties entries)) := by
    intro entries
    induction entries generalizing d with
    | nil => rfl
    | cons e rest ih =>
      obtain ⟨_ | given, value⟩ := e
      · rfl
      · rw [withEntries, ih]
        rfl
  exact hrest n.entries

mutual

/-- **A node becomes its draft unless a node is refused:** the first one with an argument. -/
theorem ofNode_eq : ∀ n : Kdl.Node, ofNode n = unlessRefused n.firstArgument? (plain n)
  | ⟨name, entries, children⟩ => by
    have hentries := withEntries_eq ⟨name, entries, children⟩ (leaf name)
    have hfirst : Kdl.Node.firstArgument? ⟨name, entries, children⟩
        = (if Kdl.Node.hasArgument ⟨name, entries, children⟩ then some ⟨name, entries, children⟩
            else none).or ((Kdl.Node.preorderAll children).find? Kdl.Node.hasArgument) := by
      rw [Kdl.Node.firstArgument?, Kdl.Node.preorder, List.find?_cons]
      cases Kdl.Node.hasArgument ⟨name, entries, children⟩ <;> rfl
    rw [ofNode, hentries, ofNodes_eq children, unlessRefused_or, hfirst, plain]

theorem ofNodes_eq : ∀ nodes : List Kdl.Node, ofNodes nodes
    = unlessRefused ((Kdl.Node.preorderAll nodes).find? Kdl.Node.hasArgument) (plainAll nodes)
  | [] => rfl
  | n :: rest => by
    rw [ofNodes, ofNode_eq n, ofNodes_eq rest, unlessRefused_or, Kdl.Node.preorderAll,
      List.find?_append, Kdl.Node.firstArgument?, plainAll]

end

theorem unlessRefused_eq_ok_iff {α : Type} {refused : Option Kdl.Node} {answer a : α} :
    unlessRefused refused answer = .ok a ↔ refused = none ∧ answer = a := by
  cases refused <;> simp [unlessRefused]

theorem unlessRefused_eq_error_iff {α : Type} {refused : Option Kdl.Node} {answer : α}
    {error : LoadError} : unlessRefused refused answer = .error error ↔
      ∃ n, refused = some n ∧ .positionalArgument n.name = error := by
  cases refused <;> simp [unlessRefused]

/-- **A node is markup just if it has no argument** anywhere. -/
theorem ofNode_ok_iff (n : Kdl.Node) : (∃ d, ofNode n = .ok d) ↔ n.Named := by
  simp only [ofNode_eq, unlessRefused_eq_ok_iff, exists_and_left, exists_eq', and_true, n.named_iff]

theorem tag_ofNode {n : Kdl.Node} {d : Draft} (h : ofNode n = .ok d) : d.tag = n.name := by
  rw [ofNode_eq, unlessRefused_eq_ok_iff] at h
  obtain ⟨name, entries, children⟩ := n
  rw [← h.2, plain, withAttributes_eq]
  rfl

end Markup.Draft

/-! ### What is built of it -/

namespace Markup

/-- An element is what a node says, but for its children. -/
structure Element.Reads (e : Element) (n : Kdl.Node) (base : Option Locator) : Prop where
  tag : e.tag = n.name
  /-- Every property is there once, where it was given first. -/
  names : e.attributes.keys = (n.entries.filterMap Kdl.Entry.name).eraseDups
  /-- The text is the one that was given last. -/
  texts : ∀ name, e.attribute? name
    = (n.entries.reverse.find? (·.name == some name)).map (·.value.text)
  base : e.base = base

/-- **The tree of a node** as elements, with the base of the document. -/
inductive Loaded (base : Option Locator) : Kdl.Node → Element → Prop
  | intro {n : Kdl.Node} {e : Element} (reads : e.Reads n base)
    (children : List.Forall₂ (Loaded base) n.children e.children) : Loaded base n e

namespace Draft

mutual

/-- **The draft of a node is built to the tree of the node.** -/
theorem loaded_plain (base : Option Locator) : ∀ (n : Kdl.Node) (next : NodeId),
    Loaded base n ((plain n).build base next).1
  | ⟨name, entries, children⟩, next => by
    rw [plain, withAttributes_eq, leaf, build]
    refine .intro ⟨rfl, ?_, fun asked => ?_, rfl⟩ (loaded_plainAll base children next)
    · show (OrderedMap.empty.insertAll (Kdl.properties entries)).keys = _
      rw [OrderedMap.keys_insertAll, Kdl.map_fst_properties]
      rfl
    · show (OrderedMap.empty.insertAll (Kdl.properties entries)).get? asked = _
      have hreverse : (Kdl.properties entries).reverse = Kdl.properties entries.reverse :=
        List.filterMap_reverse.symm
      rw [OrderedMap.get?_insertAll, hreverse, Kdl.lookup_properties]
      exact Option.or_none

theorem loaded_plainAll (base : Option Locator) : ∀ (nodes : List Kdl.Node) (next : NodeId),
    List.Forall₂ (Loaded base) nodes (buildAll base next (plainAll nodes)).1
  | [], _ => .nil
  | n :: rest, next => by
    rw [plainAll, buildAll]
    exact .cons (loaded_plain base n next) (loaded_plainAll base rest _)

end

/-- **Loading keeps the tree.** There must be a node. Of the first one, and of no other, an argument
is refused, and the node that has the first argument is named. A tree without arguments is there
node by node, wherever the counter stands when it is built. -/
theorem ofKdl_loads (nodes : List Kdl.Node) :
    (ofKdl nodes = .error .empty ↔ nodes = []) ∧
    (∀ name, ofKdl nodes = .error (.positionalArgument name) ↔
      ∃ root rest n, nodes = root :: rest ∧ root.firstArgument? = some n ∧ n.name = name) ∧
    ofKdl nodes ≠ .error .malformed ∧
    ∀ root rest, nodes = root :: rest →
      ofKdl nodes = ofKdl [root] ∧
      (root.firstArgument? = none → ∃ d, ofKdl nodes = .ok d ∧
        ∀ base next, (Document.ofDraft d base next).1.base = base ∧
          Loaded base root (Document.ofDraft d base next).1.root) := by
  cases nodes with
  | nil => simp [ofKdl]
  | cons root rest =>
    have hroot : ofKdl (root :: rest) = unlessRefused root.firstArgument? (plain root) :=
      ofNode_eq root
    refine ⟨?_, fun name => ?_, ?_, ?_⟩
    · rw [hroot, unlessRefused_eq_error_iff]
      simp
    · rw [hroot, unlessRefused_eq_error_iff]
      simp
    · rw [hroot, ne_eq, unlessRefused_eq_error_iff]
      simp
    · rintro root' rest' heq
      obtain ⟨rfl, rfl⟩ := List.cons.inj heq
      refine ⟨rfl, fun hnone => ⟨plain root, ?_, fun base next => ⟨rfl, loaded_plain base root next⟩⟩⟩
      rw [hroot, hnone]
      rfl

/-- A scene whose name is given twice, with a shape in it. -/
def sceneNode : Kdl.Node :=
  ⟨"scene", [⟨some "name", .string "first"⟩, ⟨some "id", .string "a"⟩, ⟨some "name", .bool true⟩],
    [⟨"shape", [], []⟩]⟩

/-- A group in which a shape has an argument. -/
def groupNode : Kdl.Node :=
  ⟨"group", [], [⟨"shape", [⟨none, .null⟩], []⟩]⟩

/-- Beside a scene a group with an argument is not looked at, while alone it is refused because of its
shape. The name of the scene stands where it was given first, with the text that it was given last. -/
theorem ofKdl_loads_scene :
    sceneNode.firstArgument? = none ∧
    (∃ d, ofKdl [sceneNode, groupNode] = .ok d ∧ ∀ base next,
      (Document.ofDraft d base next).1.root.attributes.keys = ["name", "id"] ∧
      (Document.ofDraft d base next).1.root.attribute? "name" = some "true") ∧
    ofKdl [groupNode] = .error (.positionalArgument "shape") := by
  obtain ⟨-, -, -, hscene⟩ := ofKdl_loads [sceneNode, groupNode]
  obtain ⟨d, hd, hloaded⟩ := (hscene _ _ rfl).2 (by decide)
  refine ⟨by decide, ⟨d, hd, fun base next => ?_⟩, ?_⟩
  · obtain ⟨-, ⟨hreads, -⟩⟩ := hloaded base next
    rw [hreads.names, hreads.texts]
    exact ⟨by decide, by decide⟩
  · exact ((ofKdl_loads [groupNode]).2.1 "shape").mpr ⟨groupNode, [], _, rfl, rfl, rfl⟩

end Draft

end Markup

end ObjectMarkup
