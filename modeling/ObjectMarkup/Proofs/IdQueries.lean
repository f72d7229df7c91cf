import ObjectMarkup.Proofs.Identity

/-!
# The walk below an element, and what a query for an id finds

The elements below an element are met one after the other with a stack: each step takes the last
element that lies on it and lays the children there, the first one on top. `Descendants.Drains` is the
relation between a stack and what comes off it until it is empty, and by `Descendants.drains` that is
the trees on the stack from the top down, each in preorder.

A query for an id looks the first element of that walk up that has the id, and what it finds has two
halves:

* which element it is, a matter of the tree alone (`Element.walk`);
* that the compiler it gets is one of this element, a matter of the run. A pass finds compilers under
  the numbers of elements, and `Pass.Proceeds.exists_lookup` says that whatever is there was looked
  up. `Compilation.lookupsOfAll_among` says that a run which is asked for elements of some trees looks
  up nothing else, so numbers that are pairwise different in these trees are enough.

The kind of the compiler does not enter into it. So `queryById_first`, which puts both together, is
about every run over numbered trees, those included in which kinds are registered in place of others.
-/

namespace ObjectMarkup

open Markup (Element NodeId Descendants)

/-! ### Taking elements off a stack -/

namespace Markup

namespace Descendants

/-- The stack as it lies, with the top at the end. -/
def lying (d : Descendants) : List Element :=
  d.stack.reverse

/-- A step takes the last element off, and its children come in its place from the last to the first. -/
theorem next?_eq_some_iff {d d' : Descendants} {e : Element} :
    d.next? = some (e, d') ↔
      ∃ under, d.lying = under ++ [e] ∧ d'.lying = under ++ e.children.reverse := by
  obtain ⟨stack⟩ := d
  obtain ⟨stack'⟩ := d'
  -- the stack read from below, so that what is taken lies last
  have hlying : ∀ s t : List Element, s.reverse = t ↔ s = t.reverse := fun s t =>
    List.reverse_eq_iff
  simp only [lying, hlying, List.reverse_append, List.reverse_reverse, List.reverse_singleton]
  cases stack with
  | nil => simp [next?]
  | cons top rest =>
    simp only [next?, Option.some.injEq, Prod.mk.injEq, Descendants.mk.injEq, List.singleton_append,
      List.cons.injEq]
    constructor
    · rintro ⟨rfl, rfl⟩
      exact ⟨rest.reverse, ⟨rfl, (List.reverse_reverse _).symm⟩, by rw [List.reverse_reverse]⟩
    · rintro ⟨under, ⟨rfl, rfl⟩, rfl⟩
      exact ⟨rfl, rfl⟩

/-- **What comes off a stack** until there is nothing on it. -/
inductive Drains : Descendants → List Element → Prop where
  | nil {d : Descendants} (ends : d.next? = none) : Drains d []
  | cons {d d' : Descendants} {e : Element} {es : List Element} (next : d.next? = some (e, d'))
      (rest : Drains d' es) : Drains d (e :: es)

/-- **The trees on the stack in preorder** come off it, from the top down. -/
theorem drains (d : Descendants) : d.Drains (Element.preorderAll d.stack) := by
  rw [← toList_eq]
  induction d using Descendants.toList.induct with
  | case1 d hnext =>
    rw [toList]
    -- the match inside `toList` is the case the induction is in
    split
    · exact .nil hnext
    · next hsome => cases hnext.symm.trans hsome
  | case2 d e d' hnext ih =>
    rw [toList]
    split
    · next hnone => cases hnext.symm.trans hnone
    · next hsome =>
      cases hnext.symm.trans hsome
      exact .cons hnext ih

theorem Drains.unique {d : Descendants} {es es' : List Element} (h : d.Drains es)
    (h' : d.Drains es') : es = es' := by
  induction h generalizing es' with
  | nil hends =>
    cases h' with
    | nil => rfl
    | cons hnext => cases hends.symm.trans hnext
  | cons hnext _ ih =>
    cases h' with
    | nil hends => cases hends.symm.trans hnext
    | cons hnext' hrest =>
      cases hnext.symm.trans hnext'
      rw [ih hrest]

end Descendants

namespace Element

mutual

theorem length_preorder : ∀ e : Element, e.preorder.length = e.size
  | ⟨_, _, _, children, _⟩ => by
    rw [preorder, size, List.length_cons, length_preorderAll children, Nat.add_comm]

theorem length_preorderAll : ∀ es : List Element, (preorderAll es).length = sizeAll es
  | [] => rfl
  | e :: rest => by
    rw [preorderAll, sizeAll, List.length_append, length_preorder e, length_preorderAll rest]

end

theorem size_le_of_mem_preorderAll {n : Element} {es : List Element} (h : n ∈ preorderAll es) :
    n.size ≤ sizeAll es := by
  rw [← length_preorder, ← length_preorderAll]
  exact (preorder_section_preorderAll h).length_le

/-- An element is not below itself. -/
theorem not_mem_preorderAll_children (e : Element) : e ∉ preorderAll e.children := fun h => by
  have hle := size_le_of_mem_preorderAll h
  rw [size_eq] at hle
  omega

/-- **The walk below an element.** -/
structure Walk (e : Element) : Prop where
  /-- At first the children lie on the stack, from the last to the first. -/
  starts : (Descendants.below e).lying = e.children.reverse
  /-- A step takes the last element off, and its children come in its place in that order. -/
  steps : ∀ (d d' : Descendants) (n : Element), d.next? = some (n, d') ↔
    ∃ under, d.lying = under ++ [n] ∧ d'.lying = under ++ n.children.reverse
  /-- The walk comes to an end, and what it has met then are the descendants, and nothing else. -/
  drains_iff : ∀ es, (Descendants.below e).Drains es ↔ es = e.descendants
  /-- They are the elements below in preorder. -/
  preorder : e.descendants = preorderAll e.children
  /-- There are as many steps as elements below. -/
  length : e.descendants.length + 1 = e.size
  /-- The element itself is not met. -/
  not_mem : e ∉ e.descendants
  /-- No number is met twice, nor that of the element, in a tree that was built and so is numbered. -/
  once : e.Numbered → (e.id :: e.descendants.map id).Nodup

theorem walk (e : Element) : e.Walk where
  starts := rfl
  steps _ _ _ := Descendants.next?_eq_some_iff
  drains_iff es := by
    rw [descendants_eq]
    exact ⟨fun h => h.unique (Descendants.below e).drains, fun h => h ▸ (Descendants.below e).drains⟩
  preorder := descendants_eq e
  length := by rw [descendants_eq, length_preorderAll, size_eq, Nat.add_comm]
  not_mem := by rw [descendants_eq]; exact not_mem_preorderAll_children e
  once h := by rwa [descendants_eq, ← idsAll, ← ids_eq]

end Element

end Markup

/-! ### Who is looked up -/

/-- An event that asks for elements of the trees only. -/
def Event.Within (trees : List Element) : Event → Prop
  | .request r => r.Within trees
  | _ => True

/-- All look-ups of elements are of such as belong to a list. -/
def Lookups.Among (l : Lookups) (es : List Element) : Prop :=
  ∀ a ∈ l.elements, a.node ∈ es

namespace Lookups.Among

variable {a b : Lookups} {es es' : List Element}

theorem none : Lookups.none.Among es :=
  fun _ ha => absurd ha List.not_mem_nil

theorem append (ha : a.Among es) (hb : b.Among es) : (a ++ b).Among es :=
  List.forall_mem_append.mpr ⟨ha, hb⟩

theorem mono (h : a.Among es) (hes : es ⊆ es') : a.Among es' :=
  fun l hl => hes (h l hl)

theorem of_elements_eq_nil (h : a.elements = []) : a.Among es := fun l hl => by
  rw [h] at hl
  cases hl

theorem lookupOf (p : Pass) {node : Element} (h : node ∈ es) : (p.lookupOf node).Among es := by
  cases hl : p.lookup node with
  | error stop =>
    rw [Pass.lookupOf_error hl]
    exact none
  | ok found =>
    rw [Pass.lookupOf_ok hl]
    exact List.forall_mem_singleton.mpr h

theorem coercionOf (p : Pass) (name type value : String) (base : Option Locator) :
    (p.coercionOf name type value base).Among es := by
  cases hk : p.coercion name type value base with
  | error e =>
    rw [Pass.coercionOf_error hk]
    exact none
  | ok found =>
    rw [Pass.coercionOf_ok hk]
    exact of_elements_eq_nil rfl

theorem lookupsOf {nodes : List Element} (p : Pass) (h : nodes ⊆ es) :
    (p.lookupsOf nodes).Among es := by
  induction nodes generalizing p with
  | nil => exact none
  | cons node rest ih =>
    obtain ⟨hnode, hrest⟩ := List.cons_subset.mp h
    rw [Pass.lookupsOf]
    refine (lookupOf p hnode).append ?_
    split
    · exact ih _ hrest
    · exact none

theorem lookupsOfEach (c : Construction) (attributes : List (String × String)) (p : Pass) :
    (ObjectMarkup.lookupsOfEach c attributes p).Among es := by
  induction attributes generalizing p with
  | nil => exact none
  | cons entry rest ih =>
    rw [ObjectMarkup.lookupsOfEach]
    refine append ?_ ?_
    · split
      · exact none
      · exact coercionOf _ _ _ _ _
    · split
      · exact ih _
      · exact none

theorem lookupsOfAttributes (c : Construction) (p : Pass) :
    (ObjectMarkup.lookupsOfAttributes c p).Among es := by
  rw [ObjectMarkup.lookupsOfAttributes]
  split
  · exact lookupsOfEach _ _ _
  · exact none

mutual

/-- Processing an element looks up elements below it. -/
theorem lookupsOfProcess : ∀ (e : Element) (p : Pass),
    (ObjectMarkup.lookupsOfProcess e p).Among (Element.preorderAll e.children)
  | ⟨_, _, _, children, _⟩, p => by
    rw [ObjectMarkup.lookupsOfProcess]
    split
    · exact none
    split
    · exact none
    refine (lookupsOfAttributes _ _).append ?_
    split
    · exact lookupsOfVisit _ children _
    · exact none

theorem lookupsOfVisit (parent : NodeId) : ∀ (children : List Element) (p : Pass),
    (ObjectMarkup.lookupsOfVisit parent children p).Among (Element.preorderAll children)
  | [], _ => by
    rw [ObjectMarkup.lookupsOfVisit]
    exact none
  | child :: rest, p => by
    -- the child, what is below it, and the other trees
    have hfirst : child.preorder ⊆ Element.preorderAll (child :: rest) :=
      List.subset_append_left _ _
    have hrest : Element.preorderAll rest ⊆ Element.preorderAll (child :: rest) :=
      List.subset_append_right _ _
    have hbelow : Element.preorderAll child.children ⊆ child.preorder := by
      rw [Element.preorder_eq]
      exact List.subset_cons_self _ _
    rw [ObjectMarkup.lookupsOfVisit]
    refine (lookupOf p (hfirst child.self_mem_preorder)).append ?_
    split
    · exact none
    · exact (lookupsOfVisit parent rest _).mono hrest
    · exact ((lookupsOfProcess child _).mono (fun _ hn => hfirst (hbelow hn))).append
        ((lookupsOfVisit parent rest _).mono hrest)

end

theorem lookupsOfProcess_of_mem {trees : List Element} {e : Element}
    (h : e ∈ Element.preorderAll trees) (p : Pass) :
    (ObjectMarkup.lookupsOfProcess e p).Among (Element.preorderAll trees) := by
  refine (lookupsOfProcess e p).mono fun n hn => ?_
  rw [← Element.descendants_eq] at hn
  exact Element.mem_preorderAll_of_mem_descendants h hn

/-- **A request for elements of trees** looks up elements of them. -/
theorem lookups {trees : List Element} {r : Request} (h : r.Within trees) (p : Pass) :
    (r.lookups p).Among (Element.preorderAll trees) := by
  cases r with
  | element node => exact lookupOf p h
  -- a query looks up descendants of its node, all of them in the same tree
  | queryByTag node tag =>
    rw [Request.lookups]
    split
    · exact none
    · exact lookupsOf p fun n hn =>
        Element.mem_preorderAll_of_mem_descendants h (List.mem_of_mem_filter hn)
  | queryById node id =>
    rw [Request.lookups]
    split
    · exact none
    split
    · next e hfound =>
      exact lookupOf p (Element.mem_preorderAll_of_mem_descendants h (List.mem_of_find?_eq_some hfound))
    · exact none
  | process node => exact lookupsOfProcess_of_mem h p
  | coerce name type value base => exact coercionOf _ _ _ _ _
  | release => exact none

end Lookups.Among

namespace Compilation

variable {trees : List Element}

theorem lookups_among (c : Compilation) (hroot : c.document.root ∈ Element.preorderAll trees)
    {e : Event} (h : e.Within trees) : (c.lookups e).Among (Element.preorderAll trees) := by
  cases e with
  | request r => exact .lookups h c.pass
  | coercion name type value base => exact .coercionOf _ _ _ _ _
  | document =>
    rw [lookups]
    split
    · exact .none
    refine (Lookups.Among.lookupOf c.pass hroot).append ?_
    split
    · -- processing the root stays in its tree
      exact .lookupsOfProcess_of_mem hroot _
    · exact .none
  | coerce k => exact .none
  | addElement kind tags => exact .none
  | addAttribute kind types => exact .none

/-- **A run that is asked for elements of trees** looks up elements of them. -/
theorem lookupsOfAll_among (c : Compilation) (hroot : c.document.root ∈ Element.preorderAll trees)
    {events : List Event} (h : ∀ e ∈ events, e.Within trees) :
    (c.lookupsOfAll events).Among (Element.preorderAll trees) := by
  induction events generalizing c with
  | nil => exact .none
  | cons e rest ih =>
    obtain ⟨hfirst, hrest⟩ := List.forall_mem_cons.mp h
    rw [lookupsOfAll]
    exact (c.lookups_among hroot hfirst).append (ih _ (by rwa [document_undergo]) hrest)

end Compilation

/-- **What is known was looked up.** -/
theorem Pass.Proceeds.exists_lookup {p q : Pass} {l : Lookups} (h : p.Proceeds l q)
    (hp : p.constructions = .empty) {id : NodeId} {c : Construction}
    (hc : q.constructions.get? id = some c) : ∃ a ∈ l.elements, a.node = c.node ∧ a.node.id = id := by
  have hmem : id ∈ l.elements.map (·.node.id) := by
    have hkey : id ∈ q.constructions.keys := (OrderedMap.mem_keys_iff _ _).mpr (by rw [hc]; rfl)
    obtain hnone | ⟨f, hf, rfl⟩ := (h.constructions.mem_keys_iff id).mp hkey
    · rw [hp] at hnone
      cases hnone
    · obtain ⟨a, ha, rfl⟩ := List.mem_map.mp hf
      exact List.mem_map_of_mem ha
  -- the first look-up has made the construction, and its element has stayed
  obtain ⟨before, after, hsplit, hnot⟩ := List.eq_append_cons_of_mem hmem
  obtain ⟨earlier, others, hl, rfl, hothers⟩ := List.map_eq_append_iff.mp hsplit
  obtain ⟨first, later, rfl, rfl, -⟩ := List.map_eq_cons_iff.mp hothers
  have hfirst : first ∈ l.elements := by
    rw [hl]
    exact List.mem_append_right _ List.mem_cons_self
  have hne : ∀ a ∈ earlier, a.node.id ≠ first.node.id := fun a ha heq =>
    hnot (heq ▸ List.mem_map_of_mem ha)
  obtain ⟨hnode, -⟩ := element_of_first h hp hl hne hfirst rfl
  obtain ⟨c', hc', hbecomes⟩ :=
    (h.constructions.grows_of_mem (List.mem_map_of_mem hfirst)).values _ _ first.find.get?_after
  cases hc'.symm.trans hc
  exact ⟨first, hfirst, (hbecomes.node.trans hnode).symm, rfl⟩

/-- In numbered trees, what is known under the number of an element is a compiler of the element. -/
theorem Pass.Proceeds.fits {p q : Pass} {l : Lookups} (h : p.Proceeds l q)
    (hp : p.constructions = .empty) {trees : List Element} (hn : Element.NumberedAll trees)
    (hl : l.Among (Element.preorderAll trees)) : q.Fits (Element.preorderAll trees) := by
  intro e he c hc
  obtain ⟨a, ha, hnode, hid⟩ := h.exists_lookup hp hc
  rw [← hnode]
  exact hn.eq_of_id_eq (hl a ha) he hid

/-! ### What a query finds -/

/-- **What comes of looking an element up.** -/
inductive Answers (p : Pass) (e : Element) : Except Stop (Option Construction) × Pass → Prop where
  /-- The one compiler that the pass has for the element, made now if there was none. -/
  | compiler {c : Construction} {q : Pass} (node : c.node = e) (looks : p.lookup e = .ok (c, q))
      (again : q.lookup e = .ok (c, q)) : Answers p e (.ok (some c), q)
  /-- The tag of the element is unresolved. -/
  | unresolved (new : p.constructions.get? e.id = none)
      (tag : Text.nameKey e.tag ∉ p.environment.catalog.elements.keys) :
      Answers p e (.error (.error (.unresolved .tag e.tag)), p)
  /-- The kind panics when it declares the attributes of the element. -/
  | panics {kind : ElementKind} {x : Panic} (new : p.constructions.get? e.id = none)
      (entry : p.environment.catalog.elementKind e.tag = .ok kind)
      (define : kind.define e = .error x) : Answers p e (.error (.panic x), p)

/-- **A query for an id** below an element. -/
structure IdQuery (p : Pass) (node : Element) (id : String) : Prop where
  /-- A pass that was given up answers nothing. -/
  detached : p.released = true → p.queryById node id = (.error (.error .detached), p)
  /-- Else there is no answer just if no element below has the id. -/
  none_iff : p.released = false →
    ((p.queryById node id).1 = .ok none ↔ ∀ e ∈ node.descendants, e.attribute? "id" ≠ some id)
  /-- If there is one, the answer is what comes of looking up the first one in preorder. -/
  first : p.released = false → ∀ before e after, node.descendants = before ++ e :: after →
    (∀ b ∈ before, b.attribute? "id" ≠ some id) → e.attribute? "id" = some id →
      Answers p e (p.queryById node id)

section Queries

variable {p : Pass} {node e : Element} {id : String} {r : Except Stop (Option Construction) × Pass}

/-- Whatever becomes of an element, it is not that there is none. -/
theorem Answers.ne_none (h : Answers p e r) : r.1 ≠ .ok none := by
  cases h <;> nofun

/-- A new element is unresolved if the catalog has no kind for its tag. -/
theorem Answers.eq_unresolved (h : Answers p e r) (hnew : p.constructions.get? e.id = none)
    {x : CompileError} (hx : p.environment.catalog.elementKind e.tag = .error x) :
    r = (.error (.error (.unresolved .tag e.tag)), p) := by
  cases h with
  | compiler _ looks _ =>
    obtain ⟨hc, -⟩ | ⟨-, hmade, -⟩ := lookup_finds looks
    · cases hnew.symm.trans hc
    · cases hx.symm.trans hmade.kind
  | unresolved => rfl
  | panics _ entry _ => cases hx.symm.trans entry

/-- A look-up, if what is known under the number of the element is a compiler of the element. -/
theorem answers_lookup (h : ∀ c, p.constructions.get? e.id = some c → c.node = e) :
    Answers p e (match p.lookup e with
      | .error stop => (.error stop, p)
      | .ok (c, q) => (.ok (some c), q)) := by
  cases hl : p.lookup e with
  | ok found =>
    obtain ⟨c, q⟩ := found
    have hnode : c.node = e := by
      -- known as this element, or made for it just now
      obtain ⟨hc, -⟩ | ⟨-, hmade, -⟩ := lookup_finds hl
      · exact h c hc
      · exact hmade.node
    exact .compiler hnode hl (lookup_known (get?_of_lookup hl))
  | error stop =>
    obtain ⟨hnew, ⟨x, hx, rfl⟩ | ⟨kind, x, hkind, hdefine, rfl⟩⟩ := lookup_eq_error_iff.mp hl
    · obtain rfl := elementKind_eq_error hx
      refine .unresolved hnew fun hmem => ?_
      -- a registered tag has a kind, and there was none
      obtain ⟨kind, hkind⟩ := Catalog.elementKind_of_mem hmem
      cases hkind.symm.trans hx
    · exact .panics hnew hkind hdefine

theorem queryById_none (hlive : p.released = false) (hnone : node.withId? id = none) :
    p.queryById node id = (.ok none, p) := by
  rw [Element.withId?] at hnone
  rw [Pass.queryById, hlive, hnone]
  rfl

theorem answers_queryById (h : p.Fits node.descendants) (hlive : p.released = false)
    (he : node.withId? id = some e) : Answers p e (p.queryById node id) := by
  have hmem : e ∈ node.descendants := List.mem_of_find?_eq_some he
  rw [Element.withId?] at he
  rw [Pass.queryById, hlive, he]
  exact answers_lookup (h e hmem)

theorem withId?_eq_none_iff :
    node.withId? id = none ↔ ∀ e ∈ node.descendants, e.attribute? "id" ≠ some id := by
  simp only [Element.withId?, List.find?_eq_none, beq_iff_eq, ne_eq]

theorem withId?_eq_some {before after : List Element} (h : node.descendants = before ++ e :: after)
    (hbefore : ∀ b ∈ before, b.attribute? "id" ≠ some id) (he : e.attribute? "id" = some id) :
    node.withId? id = some e := by
  rw [Element.withId?, List.find?_eq_some_iff_append]
  exact ⟨beq_iff_eq.mpr he, before, after, h, fun b hb => by simpa using hbefore b hb⟩

/-- A query where the elements below are known as themselves. -/
theorem idQuery_of_fits (h : p.Fits node.descendants) (id : String) : IdQuery p node id where
  detached hreleased := by
    rw [Pass.queryById, hreleased]
    rfl
  none_iff hlive := by
    rw [← withId?_eq_none_iff]
    cases hfound : node.withId? id with
    | none => exact iff_of_true (by rw [queryById_none hlive hfound]) rfl
    | some e => exact iff_of_false (answers_queryById h hlive hfound).ne_none (Option.some_ne_none e)
  first hlive _ _ _ hsplit hbefore he :=
    answers_queryById h hlive (withId?_eq_some hsplit hbefore he)

end Queries

/-- **What a query for an id finds** below an element of numbered trees, after any run that was asked
for elements of them. -/
theorem queryById_first (node : Element) :
    node.Walk ∧
      ∀ (environment : Environment) (document : Markup.Document)
        (base workingDirectory : Option Locator) (store : Store) (events : List Event)
        (trees : List Element), Element.NumberedAll trees → node ∈ Element.preorderAll trees →
        document.root ∈ Element.preorderAll trees → (∀ e ∈ events, e.Within trees) →
        let start := Compilation.begin environment document base workingDirectory store
        ∀ id, IdQuery (start.undergoAll events).pass node id := by
  refine ⟨node.walk, fun environment document base workingDirectory store events trees hn hnode hroot
    hevents => ?_⟩
  intro start id
  -- whatever has happened, what is known under a number is the element with that number
  have hfits : (start.undergoAll events).pass.Fits (Element.preorderAll trees) :=
    (start.proceeds_undergoAll events).fits rfl hn (start.lookupsOfAll_among hroot hevents)
  exact idQuery_of_fits (fun e he => hfits e (Element.mem_preorderAll_of_mem_descendants hnode he)) id

/-! ### A tree with one id in two places -/

/-- An element of a kind that is not registered. -/
def unknownLeaf : Element :=
  ⟨0, "mystery", .empty |>.insert "id" "a", [], none⟩

/-- A record around it. -/
def innerRecord : Element :=
  ⟨1, "object", .empty, [unknownLeaf], none⟩

/-- Another record with the same id. -/
def laterRecord : Element :=
  ⟨2, "object", .empty |>.insert "id" "a", [], none⟩

/-- Both below a third one. -/
def nestedTree : Element :=
  ⟨3, "object", .empty, [innerRecord, laterRecord], none⟩

/-- A catalog of records. -/
def nestedEnvironment : Environment :=
  ⟨.empty, ⟨.ofList [("object", Kind.object)], .empty⟩⟩

/-- The pass of a run that asks for the tree and nothing else. -/
def nestedPass : Pass :=
  ((Compilation.begin nestedEnvironment (.ofElement nestedTree) none none .empty).undergoAll
    [.request (.element nestedTree)]).pass

/-- The record is nearer, but the unknown element is the first one in preorder, so the query ends with
its tag. -/
theorem queryById_first_unknown :
    Element.NumberedAll [nestedTree] ∧ nestedTree.descendants = [innerRecord, unknownLeaf, laterRecord] ∧
      nestedPass.queryById nestedTree "a"
        = (.error (.error (.unresolved .tag "mystery")), nestedPass) := by
  have hnumbered : Element.NumberedAll [nestedTree] := by
    rw [Element.NumberedAll]
    decide
  have hmem : nestedTree ∈ Element.preorderAll [nestedTree] := List.mem_cons_self
  have hbelow : nestedTree.descendants = [innerRecord, unknownLeaf, laterRecord] := by
    rw [Element.descendants_eq]
    rfl
  -- the tree is found, and nothing else is known then
  obtain ⟨c, hlookup⟩ : ∃ c, (Pass.begin nestedEnvironment none .empty).lookup nestedTree = .ok (c,
      { Pass.begin nestedEnvironment none .empty with
        constructions := OrderedMap.empty.insert nestedTree.id c }) := by
    have hkey : Text.nameKey "object" = "object" := by decide +kernel
    rw [Pass.lookup, Catalog.elementKind, nestedTree, hkey]
    exact ⟨_, rfl⟩
  have hserve : nestedPass = (Pass.begin nestedEnvironment none .empty).serve (.element nestedTree) :=
    rfl
  rw [Pass.serve, hlookup] at hserve
  have hquery : IdQuery nestedPass nestedTree "a" :=
    (queryById_first nestedTree).2 nestedEnvironment (.ofElement nestedTree) none none .empty
      [.request (.element nestedTree)] [nestedTree] hnumbered hmem hmem
      (List.forall_mem_singleton.mpr hmem) "a"
  -- the inner record has another id, so the query comes to the leaf
  have hfirst : Answers nestedPass unknownLeaf (nestedPass.queryById nestedTree "a") :=
    hquery.first (by rw [hserve]; rfl) [innerRecord] unknownLeaf [laterRecord] hbelow
      (List.forall_mem_singleton.mpr (by decide)) (by decide)
  -- only the tree itself was asked for, so the leaf has no compiler yet
  have hnew : nestedPass.constructions.get? unknownLeaf.id = none := by
    rw [hserve]
    rfl
  have hunknown : nestedPass.environment.catalog.elementKind unknownLeaf.tag
      = .error (.unresolved .tag "mystery") := by
    have hkey : Text.nameKey "mystery" = "mystery" := by decide +kernel
    rw [hserve, Catalog.elementKind, unknownLeaf, hkey]
    rfl
  exact ⟨hnumbered, hbelow, hfirst.eq_unresolved hnew hunknown⟩

/-- **A pass that was given up** answers with that, though there is no element with the id. -/
theorem queryById_detached :
    nestedPass.release.queryById nestedTree "b" = (.error (.error .detached), nestedPass.release) ∧
      ∀ e ∈ nestedTree.descendants, e.attribute? "id" ≠ some "b" := by
  refine ⟨rfl, ?_⟩
  rw [Element.descendants_eq]
  decide

end ObjectMarkup
