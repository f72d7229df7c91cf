import ObjectMarkup.Proofs.Insertions
import ObjectMarkup.Proofs.Numbering

/-!
# What is built of a draft

Two things go through a tree while it is built, in opposite directions: bases go down from an element
to its children, and numbers come up, since an element takes its number when its children have theirs.
Both can be said without going through the tree:

* What is built in a place depends on the drafts from there up to the root. It has the tag and the
  attributes of the draft in the place and as many children, and its base is the nearest one on the
  way up, or else that of the document (`Draft.at?_build`).
* The numbers are those from the counter on, in postorder (`Draft.numbers_build`), also over trees
  that are built one after the other (`Document.numbers_ofDrafts`).

Numbers have 64 bits. As long as the counter does not run over, the numbers of all trees that are
built increase with them (`Document.builds_ofDrafts`).
-/

namespace ObjectMarkup.Markup

/-! ### Places in a tree -/

/-- The element in a place: a place says which child to go to, from the root on. -/
def Element.at? : Element → List Nat → Option Element
  | e, [] => some e
  | e, i :: place => e.children[i]?.bind (·.at? place)

/-- The draft in a place, and the drafts above it, the nearest first. -/
def Draft.at? : Draft → List Nat → Option (Draft × List Draft)
  | d, [] => some (d, [])
  | d, i :: place => d.children[i]?.bind fun child =>
    (child.at? place).map fun (n, above) => (n, above ++ [d])

/-- What an element has besides its number. How many children it has says in which places there are
elements. -/
structure Outline where
  tag : String
  attributes : OrderedMap String String
  childCount : Nat
  base : Option Locator

def Element.outline (e : Element) : Outline :=
  ⟨e.tag, e.attributes, e.children.length, e.base⟩

/-- What is to be built of a draft below other ones: the base is the nearest one that is set. -/
def Draft.outline (inherited : Option Locator) (d : Draft) (above : List Draft) : Outline :=
  ⟨d.tag, d.attributes, d.children.length, ((d :: above).findSome? Draft.base).or inherited⟩

namespace Draft

theorem length_buildAll (inherited : Option Locator) (next : NodeId) (ds : List Draft) :
    (buildAll inherited next ds).1.length = ds.length := by
  induction ds generalizing next with
  | nil => rfl
  | cons d rest ih => rw [buildAll, List.length_cons, List.length_cons, ih]

/-- Each of several drafts is built, wherever the counter stands then. -/
theorem getElem?_buildAll (inherited : Option Locator) (next : NodeId) (ds : List Draft) (i : Nat) :
    ∃ counter, (buildAll inherited next ds).1[i]?
      = ds[i]?.map fun d => (d.build inherited counter).1 := by
  induction ds generalizing next i with
  | nil => exact ⟨next, rfl⟩
  | cons d rest ih =>
    rw [buildAll]
    cases i with
    | zero => exact ⟨next, rfl⟩
    | succ i => exact ih _ i

/-- The element that a draft is built to. -/
theorem outline_build (d : Draft) (inherited : Option Locator) (next : NodeId) :
    (d.build inherited next).1.outline = d.outline inherited [] := by
  obtain ⟨tag, attributes, children, base⟩ := d
  rw [build, Element.outline]
  simp only [length_buildAll]
  cases base <;> rfl

theorem tag_build (d : Draft) (inherited : Option Locator) (next : NodeId) :
    (d.build inherited next).1.tag = d.tag :=
  congrArg Outline.tag (outline_build d inherited next)

/-- The base of a draft is inherited like that of the document by what is below. -/
theorem outline_below (n d : Draft) (above : List Draft) (inherited : Option Locator) :
    n.outline (d.base.or inherited) above = n.outline inherited (above ++ [d]) := by
  have hbase : ∀ drafts : List Draft, (drafts.findSome? Draft.base).or (d.base.or inherited)
      = ((drafts ++ [d]).findSome? Draft.base).or inherited := by
    intro drafts
    have hlast : [d].findSome? Draft.base = d.base := by
      rw [List.findSome?_cons, List.findSome?_nil]
      cases d.base <;> rfl
    rw [List.findSome?_append, hlast, Option.or_assoc]
  rw [outline, outline, ← List.cons_append, hbase]

/-- **What is built in a place.** -/
theorem at?_build (d : Draft) (inherited : Option Locator) (next : NodeId) (place : List Nat) :
    ((d.build inherited next).1.at? place).map Element.outline
      = (d.at? place).map fun (n, above) => n.outline inherited above := by
  induction place generalizing d inherited next with
  | nil => exact congrArg some (outline_build d inherited next)
  | cons i place ih =>
    obtain ⟨tag, attributes, children, base⟩ := d
    obtain ⟨counter, hcounter⟩ := getElem?_buildAll (base.or inherited) next children i
    rw [build, Element.at?, Draft.at?]
    simp only [hcounter]
    -- a place below a child is one in the child's own tree, built with the base it inherits
    cases children[i]? with
    | none => rfl
    | some child =>
      rw [Option.map_some, Option.bind_some, Option.bind_some, ih, Option.map_map]
      refine congrArg (Option.map · _) (funext fun (n, above) => ?_)
      exact outline_below n ⟨tag, attributes, children, base⟩ above inherited

/-! ### Attributes that are given to a draft -/

/-- Gives a draft attributes one after the other. -/
def withAttributes (d : Draft) (given : List (String × String)) : Draft :=
  given.foldl (fun d a => d.withAttribute a.1 a.2) d

/-- A name that is given again keeps its place. -/
theorem withAttributes_eq (d : Draft) (given : List (String × String)) :
    d.withAttributes given = { d with attributes := d.attributes.insertAll given } := by
  induction given generalizing d with
  | nil => cases d; rfl
  | cons a rest ih => exact ih (d.withAttribute a.1 a.2)

end Draft

/-! ### Trees that are built one after the other -/

/-- The number of an element as it is kept in 64 bits. -/
def Element.number (e : Element) : UInt64 :=
  UInt64.ofNat e.id

/-- Numbers are in the order of the counter where it has not run over. -/
theorem Element.number_lt {a b : Element} (h : a.id < b.id) (hb : b.id < UInt64.size) :
    a.number < b.number := by
  rw [UInt64.lt_iff_toNat_lt, number, number, UInt64.toNat_ofNat_of_lt' (Nat.lt_trans h hb),
    UInt64.toNat_ofNat_of_lt' hb]
  exact h

namespace Document

/-- Builds documents one after the other, each of a draft and with a base. -/
def ofDrafts : List (Draft × Option Locator) → NodeId → List Document × NodeId
  | [], next => ([], next)
  | (d, base) :: rest, next =>
    let (document, next) := ofDraft d base next
    let (documents, next) := ofDrafts rest next
    (document :: documents, next)

/-- How many elements are built in all. -/
def total (requests : List (Draft × Option Locator)) : Nat :=
  Draft.sizeAll (requests.map Prod.fst)

/-- **The numbers of trees that are built one after the other** are those from the counter on. -/
theorem numbers_ofDrafts (requests : List (Draft × Option Locator)) (next : NodeId) :
    ((ofDrafts requests next).1.flatMap fun document => document.root.postorder).map Element.id
      = List.range' next (total requests) := by
  induction requests generalizing next with
  | nil => rfl
  | cons request rest ih =>
    obtain ⟨d, base⟩ := request
    obtain ⟨hids, hnext⟩ := Draft.numbers_build base next d
    rw [ofDrafts, List.flatMap_cons, List.map_append, total, List.map_cons, Draft.sizeAll, ih]
    simp only [ofDraft, hids, hnext]
    exact List.range'_append_1 ..

/-- **A document is built** of a draft and with a base. -/
structure Builds (request : Draft × Option Locator) (document : Document) : Prop where
  base : document.base = request.2
  /-- In each place is an element if there is a draft. It has the tag and the attributes of the draft
  and as many children, and its base is the nearest one above, or else that of the document. -/
  outline : ∀ place, (document.root.at? place).map Element.outline
    = (request.1.at? place).map fun (n, above) => n.outline request.2 above
  /-- No attribute has the name of another one. -/
  names : ∀ n ∈ document.root.preorder, n.attributes.keys.Nodup
  /-- The numbers are pairwise different and increase in postorder. -/
  postorder : (document.root.postorder.map Element.number).Pairwise (· < ·)
  /-- An element has a greater number than all elements below it. -/
  below : ∀ n ∈ document.root.preorder, ∀ m ∈ n.descendants, m.number < n.number

/-- **Building a document,** as long as the counter does not run over. -/
theorem builds_ofDraft (d : Draft) (base : Option Locator) {next : NodeId}
    (h : next + d.size ≤ UInt64.size) : Builds (d, base) (ofDraft d base next).1 := by
  have hids := (Draft.numbers_build base next d).1
  have hincreasing : ((d.build base next).1.postorder.map Element.id).Pairwise (· < ·) :=
    hids ▸ List.pairwise_lt_range'
  -- the numbers are a range, and all of it is below the limit
  have hfits : ∀ n ∈ (d.build base next).1.preorder, n.id < UInt64.size := by
    intro n hn
    have hmem := List.mem_map_of_mem (f := Element.id) ((Element.postorder_perm _).mem_iff.mpr hn)
    rw [hids] at hmem
    exact Nat.lt_of_lt_of_le (List.mem_range'_1.mp hmem).2 h
  exact
    { base := rfl
      outline := d.at?_build base next
      names := fun n _ => n.attributes.nodup
      postorder := by
        rw [List.pairwise_map] at hincreasing ⊢
        refine hincreasing.imp_of_mem fun _ hm hlt => Element.number_lt hlt ?_
        exact hfits _ ((Element.postorder_perm _).mem_iff.mp hm)
      below := fun n hn m hm =>
        Element.number_lt (Element.id_lt_of_postorder _ hincreasing n hn m hm) (hfits n hn) }

/-- The numbers of later documents. -/
theorem mem_range_of_mem_ofDrafts {requests : List (Draft × Option Locator)} {next : NodeId}
    {document : Document} (hdocument : document ∈ (ofDrafts requests next).1) {n : Element}
    (hn : n ∈ document.root.preorder) : next ≤ n.id ∧ n.id < next + total requests := by
  refine List.mem_range'_1.mp (numbers_ofDrafts requests next ▸ List.mem_map_of_mem ?_)
  exact List.mem_flatMap.mpr ⟨document, hdocument, (Element.postorder_perm _).mem_iff.mpr hn⟩

theorem builds_each (requests : List (Draft × Option Locator)) (next : NodeId)
    (h : next + total requests ≤ UInt64.size) :
    List.Forall₂ Builds requests (ofDrafts requests next).1 ∧
      (ofDrafts requests next).1.Pairwise fun a b =>
        ∀ n ∈ a.root.preorder, ∀ m ∈ b.root.preorder, n.number < m.number := by
  induction requests generalizing next with
  | nil => exact ⟨.nil, .nil⟩
  | cons request rest ih =>
    obtain ⟨d, base⟩ := request
    obtain ⟨hids, hnext⟩ := Draft.numbers_build base next d
    rw [total, List.map_cons, Draft.sizeAll, ← Nat.add_assoc] at h
    have hfits : next + d.size ≤ UInt64.size := Nat.le_trans (Nat.le_add_right _ _) h
    rw [ofDrafts]
    simp only [ofDraft, hnext]
    obtain ⟨hbuilds, hapart⟩ := ih (next + d.size) h
    refine ⟨.cons (builds_ofDraft d base hfits) hbuilds,
      .cons (fun document hdocument n hn m hm => ?_) hapart⟩
    have hbefore := List.mem_map_of_mem (f := Element.id) ((Element.postorder_perm _).mem_iff.mpr hn)
    rw [hids] at hbefore
    -- later documents start counting where the first one stopped
    have hbehind := mem_range_of_mem_ofDrafts hdocument hm
    exact Element.number_lt (Nat.lt_of_lt_of_le (List.mem_range'_1.mp hbefore).2 hbehind.1)
      (Nat.lt_of_lt_of_le hbehind.2 h)

/-- **Building documents one after the other.** Each is as its draft says, and no number is in two of
them, as long as the counter does not run over. In a draft every name that was given is there once,
where it was given first and with the value that was given last. -/
theorem builds_ofDrafts (requests : List (Draft × Option Locator)) (next : NodeId)
    (h : next + total requests ≤ UInt64.size) :
    (List.Forall₂ Builds requests (ofDrafts requests next).1 ∧
      (ofDrafts requests next).1.Pairwise fun a b =>
        ∀ n ∈ a.root.preorder, ∀ m ∈ b.root.preorder, n.number < m.number) ∧
      ∀ (d : Draft) (given : List (String × String)),
        (d.withAttributes given).attributes.keys
            = (d.attributes.keys ++ given.map Prod.fst).eraseDups ∧
          ∀ name, (d.withAttributes given).attributes.get? name
            = (given.reverse.lookup name).or (d.attributes.get? name) := by
  refine ⟨builds_each requests next h, fun d given => ?_⟩
  rw [Draft.withAttributes_eq]
  exact ⟨OrderedMap.keys_insertAll _ _, OrderedMap.get?_insertAll _ _⟩

/-- Where the scenes are. -/
def sceneBase : Locator :=
  ⟨"mem".toList, some (.ofHost (.name "scenes".toList)), .segments [[]], none, none⟩

/-- A scene with a base of its own, in it a group with a shape, and beside the group a shape. -/
def sceneDraft : Draft :=
  { ((Draft.leaf "scene").withChild ((Draft.leaf "group").withChild (.leaf "shape"))).withChild
      (.leaf "shape") with base := some sceneBase }

/-- The shape in the group has the base of the scene. The scene has the number four, and a tree that
is built after it begins with five. -/
theorem builds_ofDrafts_scene :
    1 + total [(sceneDraft, none), (.leaf "shape", none)] ≤ UInt64.size ∧
      ∃ scene shape, (ofDrafts [(sceneDraft, none), (.leaf "shape", none)] 1).1 = [scene, shape] ∧
        Builds (sceneDraft, none) scene ∧ scene.root.number = 4 ∧ shape.root.number = 5 ∧
        ((scene.root.at? [0, 0]).map Element.outline).map Outline.base = some (some sceneBase) ∧
        ∀ n ∈ scene.root.preorder, ∀ m ∈ shape.root.preorder, n.number < m.number := by
  have hfits : 1 + total [(sceneDraft, none), (.leaf "shape", none)] ≤ UInt64.size := by decide
  obtain ⟨⟨hbuilds, hapart⟩, -⟩ := builds_ofDrafts _ 1 hfits
  have hscene := (List.forall₂_cons.mp hbuilds).1
  refine ⟨hfits, _, _, rfl, hscene, rfl, rfl, ?_, ?_⟩
  · rw [hscene.outline]
    rfl
  · exact (List.pairwise_cons.mp hapart).1 _ (List.mem_singleton.mpr rfl)

end Document

end ObjectMarkup.Markup
