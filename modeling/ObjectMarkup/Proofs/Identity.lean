import ObjectMarkup.Proofs.Lookups
import ObjectMarkup.Proofs.Names
import ObjectMarkup.Proofs.Session

/-!
# One compiler for each identity

Elements are told apart by their numbers, and attributes by name, raw value and type. This module
follows a compile through all that can happen to it, look-ups, queries, processing, and kinds that
are registered meanwhile, and says that each of them has one compiler in it.

A compiler is named by its place: how many were made before it. `compilers_identified` collects what
there is to say of every run. It is read off `Compilation.proceeds_undergoAll`, by which a run is a
history of look-ups in the sense of `Chain`, and off `Tidy`, which says that whoever is met on the
way was looked up. That a failed look-up succeeds later rests on `Catalog.Grows`: names that are
registered stay so.
-/

namespace ObjectMarkup

open Markup (Element NodeId)

/-! ### Requests -/

/-- The elements that a query for a tag looks up. -/
def Markup.Element.withTag (node : Element) (tag : String) : List Element :=
  node.descendants.filter fun e => Text.sameIgnoringAsciiCase e.tag tag

/-- The element that a query for an id looks up. -/
def Markup.Element.withId? (node : Element) (id : String) : Option Element :=
  node.descendants.find? fun e => e.attribute? "id" == some id

/-- The look-ups of a request. -/
def Request.lookups (p : Pass) : Request → Lookups
  | .element node => p.lookupOf node
  | .queryByTag node tag => if p.released then .none else p.lookupsOf (node.withTag tag)
  | .queryById node id =>
    if p.released then .none
    else
      match node.withId? id with
      | some e => p.lookupOf e
      | none => .none
  | .process node => lookupsOfProcess node p
  | .coerce name type value base => p.coercionOf name type value base
  | .release => .none

/-! ### Runs -/

/-- What can happen to the compile of a document, while others register kinds in the catalog that
it uses. -/
inductive Event where
  | request (r : Request)
  /-- Looks an attribute up, and leaves it at that. -/
  | coercion (name type value : String) (base : Option Locator)
  /-- Processes an attribute that was looked up. -/
  | coerce (k : Coercion)
  | addElement (kind : ElementKind) (tags : List String)
  | addAttribute (kind : AttributeKind) (types : List String)
  /-- Processes the document. -/
  | document

/-- The pass with another catalog. -/
def Pass.withCatalog (p : Pass) (catalog : Catalog) : Pass :=
  { p with environment := { p.environment with catalog := catalog } }

namespace Compilation

/-- What becomes of a compile. -/
def undergo (c : Compilation) : Event → Compilation
  | .request r => { c with pass := c.pass.serve r }
  | .coercion name type value base =>
    match c.pass.coercion name type value base with
    | .ok (_, p) => { c with pass := p }
    | .error _ => c
  | .coerce k => { c with pass := (c.pass.coerce k).2 }
  | .addElement kind tags =>
    { c with pass := c.pass.withCatalog (c.pass.environment.catalog.addElement kind tags).2 }
  | .addAttribute kind types =>
    { c with pass := c.pass.withCatalog (c.pass.environment.catalog.addAttribute kind types).2 }
  | .document => c.process.2

/-- The look-ups of an event. -/
def lookups (c : Compilation) : Event → Lookups
  | .request r => r.lookups c.pass
  | .coercion name type value base => c.pass.coercionOf name type value base
  | .document =>
    if c.outcome?.isSome then .none
    else
      c.pass.lookupOf c.document.root ++
        match c.pass.lookup c.document.root with
        | .ok (_, p) => lookupsOfProcess c.document.root p
        | .error _ => .none
  | .coerce _ | .addElement .. | .addAttribute .. => .none

/-- The compile after events, one after the other. -/
def undergoAll (c : Compilation) (events : List Event) : Compilation :=
  events.foldl undergo c

/-- The look-ups of a run. -/
def lookupsOfAll (c : Compilation) : List Event → Lookups
  | [] => .none
  | e :: rest => c.lookups e ++ (c.undergo e).lookupsOfAll rest

theorem undergoAll_cons (c : Compilation) (e : Event) (rest : List Event) :
    c.undergoAll (e :: rest) = (c.undergo e).undergoAll rest := rfl

theorem undergoAll_append (c : Compilation) (before after : List Event) :
    c.undergoAll (before ++ after) = (c.undergoAll before).undergoAll after :=
  List.foldl_append

end Compilation

/-! ### Registering -/

namespace Association

variable {α : Type}

/-- The names are registered under their keys, beside those that were. -/
theorem mem_keys_all (kind : α) (names : List String) (m : OrderedMap String α) (key : String) :
    key ∈ (all kind names m).2.keys ↔ key ∈ m.keys ∨ key ∈ names.map Text.nameKey := by
  induction names generalizing m with
  | nil => simp [all]
  | cons name rest ih =>
    -- one name more, which may be there already
    have hone : key ∈ (m.insert (Text.nameKey name) kind).keys ↔
        key ∈ m.keys ∨ key = Text.nameKey name := by
      rw [OrderedMap.keys_insert]
      split
      · next hmem => exact ⟨.inl, fun h => h.elim (fun hkey => hkey) fun heq => heq ▸ hmem⟩
      · rw [List.mem_append, List.mem_singleton]
    simp only [all, one]
    rw [ih, hone, List.map_cons, List.mem_cons, or_assoc]

/-- Other names are left alone. -/
theorem get?_all_of_not_mem (kind : α) {names : List String} {m : OrderedMap String α} {key : String}
    (h : key ∉ names.map Text.nameKey) : (all kind names m).2.get? key = m.get? key := by
  induction names generalizing m with
  | nil => rfl
  | cons name rest ih =>
    rw [List.map_cons, List.mem_cons, not_or] at h
    simp only [all, one]
    rw [ih h.2, OrderedMap.get?_insert_of_ne _ h.1]

/-- The kind is what the names are registered with. -/
theorem get?_all (kind : α) {names : List String} {m : OrderedMap String α} {key : String}
    (h : key ∈ names.map Text.nameKey) : (all kind names m).2.get? key = some kind := by
  induction names generalizing m with
  | nil => cases h
  | cons name rest ih =>
    by_cases hrest : key ∈ rest.map Text.nameKey
    · exact ih hrest
    · -- no name after the first has the key, so it stays as the first has left it
      obtain rfl : key = Text.nameKey name := (List.mem_cons.mp h).resolve_right hrest
      simp only [all, one]
      rw [get?_all_of_not_mem kind hrest, OrderedMap.get?_insert_self]

end Association

namespace Catalog

variable (c : Catalog)

theorem grows_addElement (kind : ElementKind) (tags : List String) :
    c.Grows (c.addElement kind tags).2 where
  elements _ h := (Association.mem_keys_all kind tags c.elements _).mpr (.inl h)
  attributes := List.Subset.refl _

theorem grows_addAttribute (kind : AttributeKind) (types : List String) :
    c.Grows (c.addAttribute kind types).2 where
  elements := List.Subset.refl _
  attributes _ h := (Association.mem_keys_all kind types c.attributes _).mpr (.inl h)

theorem elementKind_addElement (kind : ElementKind) {tags : List String} {tag : String}
    (h : Text.nameKey tag ∈ tags.map Text.nameKey) :
    (c.addElement kind tags).2.elementKind tag = .ok kind := by
  rw [elementKind, addElement]
  simp only [Association.get?_all kind h]

theorem attributeKind_addAttribute (kind : AttributeKind) {types : List String} {type : String}
    (h : Text.nameKey type ∈ types.map Text.nameKey) :
    (c.addAttribute kind types).2.attributeKind type = .ok kind := by
  rw [attributeKind, addAttribute]
  simp only [Association.get?_all kind h]

variable {c}

/-- A tag that is registered has a kind. -/
theorem elementKind_of_mem {tag : String} (h : Text.nameKey tag ∈ c.elements.keys) :
    ∃ kind, c.elementKind tag = .ok kind := by
  obtain ⟨kind, hkind⟩ := Option.isSome_iff_exists.mp ((OrderedMap.mem_keys_iff _ _).mp h)
  exact ⟨kind, by rw [elementKind, hkind]⟩

/-- A type that is registered has a kind. -/
theorem attributeKind_of_mem {type : String} (h : Text.nameKey type ∈ c.attributes.keys) :
    ∃ kind, c.attributeKind type = .ok kind := by
  obtain ⟨kind, hkind⟩ := Option.isSome_iff_exists.mp ((OrderedMap.mem_keys_iff _ _).mp h)
  exact ⟨kind, by rw [attributeKind, hkind]⟩

end Catalog

/-- A look-up of an attribute whose type is registered finds a coercion or makes it. -/
theorem coercion_of_registered {p : Pass} {type : String}
    (h : Text.nameKey type ∈ p.environment.catalog.attributes.keys) (name value : String)
    (base : Option Locator) : ∃ k q, p.coercion name type value base = .ok (k, q) := by
  cases hk : p.coercion name type value base with
  | ok found => exact ⟨found.1, found.2, rfl⟩
  | error e =>
    -- the key of the type is looked up, and it is its own key
    have hown : Text.nameKey (Text.nameKey type) ∈ p.environment.catalog.attributes.keys := by
      rwa [Text.nameKey_nameKey]
    obtain ⟨kind, hkind⟩ := Catalog.attributeKind_of_mem hown
    have herror : p.environment.catalog.attributeKind (Text.nameKey type) = .error e :=
      coercion_eq_error hk
    rw [hkind] at herror
    cases herror

/-! ### Steps of a run -/

/-- A relation that the requests of a run and the registering of kinds keep, besides the steps of
processing. -/
structure KeptByRuns (R : Pass → Lookups → Pass → Prop) : Prop extends KeptBySteps R where
  release : ∀ p, R p .none (Pass.release p)
  register : ∀ p {catalog}, p.environment.catalog.Grows catalog →
    R p .none (Pass.withCatalog p catalog)

namespace KeptByRuns

variable {R : Pass → Lookups → Pass → Prop} (hR : KeptByRuns R)
include hR

/-- Looking elements up keeps it, up to the first that fails. -/
theorem lookupAll (nodes : List Element) (p : Pass) :
    R p (p.lookupsOf nodes) (p.lookupAll nodes).2 := by
  induction nodes generalizing p with
  | nil => exact hR.refl p
  | cons node rest ih =>
    rw [Pass.lookupsOf, Pass.lookupAll]
    cases hl : p.lookup node with
    | error stop =>
      rw [Pass.lookupOf_error hl]
      exact hR.refl p
    | ok found =>
      obtain ⟨c, q⟩ := found
      have hboth := hR.trans (hR.lookup hl) (ih q)
      simp only
      -- the last look-up may fail, and those before it have been made
      rcases hall : q.lookupAll rest with ⟨stop | others, r⟩
      all_goals
        rw [hall] at hboth
        exact hboth

theorem serve (p : Pass) (r : Request) : R p (r.lookups p) (p.serve r) := by
  cases r with
  | element node =>
    rw [Pass.serve, Request.lookups]
    cases hl : p.lookup node with
    | error stop =>
      rw [Pass.lookupOf_error hl]
      exact hR.refl p
    | ok found => exact hR.lookup hl
  | queryByTag node tag =>
    rw [Pass.serve, Request.lookups, Pass.queryByTag]
    split
    · exact hR.refl p
    · -- what is asked for by tag is looked up one after the other
      exact hR.lookupAll _ p
  | queryById node id =>
    rw [Pass.serve, Request.lookups, Pass.queryById, Element.withId?]
    split
    · exact hR.refl p
    cases node.descendants.find? fun e => e.attribute? "id" == some id with
    | none => exact hR.refl p
    | some e =>
      -- what is asked for by id is the first element that has it
      simp only
      cases hl : p.lookup e with
      | error stop =>
        rw [Pass.lookupOf_error hl]
        exact hR.refl p
      | ok found => exact hR.lookup hl
  | process node => exact hR.process node p
  | coerce name type value base =>
    rw [Pass.serve, Request.lookups]
    cases hk : p.coercion name type value base with
    | error e =>
      rw [Pass.coercionOf_error hk]
      exact hR.refl p
    | ok found => exact hR.before (hR.coercion hk) (hR.coerce found.2 found.1)
  | release => exact hR.release p

theorem undergo (c : Compilation) (e : Event) : R c.pass (c.lookups e) (c.undergo e).pass := by
  cases e with
  | request r => exact hR.serve c.pass r
  | coercion name type value base =>
    rw [Compilation.undergo, Compilation.lookups]
    cases hk : c.pass.coercion name type value base with
    | error e =>
      rw [Pass.coercionOf_error hk]
      exact hR.refl c.pass
    -- the attribute is looked up, and not compiled
    | ok found => exact hR.coercion hk
  | coerce k => exact hR.coerce c.pass k
  | addElement kind tags => exact hR.register c.pass (Catalog.grows_addElement _ kind tags)
  | addAttribute kind types => exact hR.register c.pass (Catalog.grows_addAttribute _ kind types)
  | document =>
    rw [Compilation.undergo, Compilation.lookups, Compilation.process]
    cases c.outcome? with
    | some outcome => exact hR.refl c.pass
    | none =>
      simp only [Option.isSome_none, Bool.false_eq_true, if_false, Compilation.processRoot]
      cases hl : c.pass.lookup c.document.root with
      | error stop =>
        rw [Pass.lookupOf_error hl]
        exact hR.refl c.pass
      -- the root is looked up first and then processed
      | ok found => exact hR.trans (hR.lookup hl) (hR.process c.document.root found.2)

/-- **What every step keeps is kept by a run.** -/
theorem undergoAll (c : Compilation) (events : List Event) :
    R c.pass (c.lookupsOfAll events) (c.undergoAll events).pass := by
  induction events generalizing c with
  | nil => exact hR.refl c.pass
  | cons e rest ih => exact hR.trans (hR.undergo c e) (ih (c.undergo e))

end KeptByRuns

theorem keptByRuns_proceeds : KeptByRuns Pass.Proceeds where
  toKeptBySteps := keptBySteps_proceeds
  release _ := .of_eq rfl rfl rfl
  register _ _ h := ⟨.done (.of_eq rfl), .done (.of_eq rfl), id, h⟩

namespace Compilation

theorem proceeds_undergo (c : Compilation) (e : Event) :
    c.pass.Proceeds (c.lookups e) (c.undergo e).pass :=
  keptByRuns_proceeds.undergo c e

theorem proceeds_undergoAll (c : Compilation) (events : List Event) :
    c.pass.Proceeds (c.lookupsOfAll events) (c.undergoAll events).pass :=
  keptByRuns_proceeds.undergoAll c events

end Compilation

/-! ### Who is met -/

/-- A construction that is known is found as it is. -/
theorem lookup_known {p : Pass} {node : Element} {c : Construction}
    (h : p.constructions.get? node.id = some c) : p.lookup node = .ok (c, p) := by
  rw [Pass.lookup, h]

/-- A look-up leaves what is known as it is. -/
theorem get?_lookup_of_known {p q : Pass} {node : Element} {c : Construction}
    (hl : p.lookup node = .ok (c, q)) {id : NodeId} {k : Construction}
    (hk : p.constructions.get? id = some k) : q.constructions.get? id = some k := by
  obtain ⟨-, rfl⟩ | ⟨hnone, -, rfl⟩ := lookup_finds hl
  · exact hk
  · have hne : id ≠ node.id := fun heq => by rw [heq, hnone] at hk; cases hk
    exact (OrderedMap.get?_insert_of_ne _ hne _).trans hk

theorem get?_lookupAll_of_known {nodes : List Element} {p : Pass} {id : NodeId} {k : Construction}
    (hk : p.constructions.get? id = some k) :
    (p.lookupAll nodes).2.constructions.get? id = some k := by
  induction nodes generalizing p with
  | nil => exact hk
  | cons node rest ih =>
    rw [Pass.lookupAll]
    cases hl : p.lookup node with
    | error stop => exact hk
    | ok found =>
      have hrest := ih (get?_lookup_of_known hl hk)
      simp only
      rcases hall : found.2.lookupAll rest with ⟨stop | others, r⟩
      -- whether the others are found does not matter
      all_goals
        rw [hall] at hrest
        exact hrest

/-- What was looked up is under the numbers of the elements. -/
theorem known_of_lookupAll {nodes : List Element} {p q : Pass} {found : List Construction}
    (h : p.lookupAll nodes = (.ok found, q)) (ht : Tidy p.constructions) :
    found.map (·.node.id) = nodes.map (·.id) ∧
      ∀ c ∈ found, q.constructions.get? c.node.id = some c := by
  induction nodes generalizing p found with
  | nil =>
    cases h
    exact ⟨rfl, fun _ hc => absurd hc List.not_mem_nil⟩
  | cons node rest ih =>
    rw [Pass.lookupAll] at h
    cases hl : p.lookup node with
    | error stop => rw [hl] at h; cases h
    | ok first =>
      obtain ⟨c, r⟩ := first
      have htidy : Tidy r.constructions := (Pass.proceeds_lookup hl).tidy ht
      have hfirst := get?_of_lookup hl
      obtain ⟨hid, -⟩ := htidy _ _ hfirst
      rw [hl] at h
      simp only at h
      -- what was found first is still there when the others were looked up
      have hstays : (r.lookupAll rest).2.constructions.get? node.id = some c :=
        get?_lookupAll_of_known hfirst
      rcases hall : r.lookupAll rest with ⟨stop | others, s⟩
      · rw [hall] at h
        cases h
      · rw [hall] at h hstays
        cases h
        obtain ⟨hids, hothers⟩ := ih hall htidy
        refine ⟨by rw [List.map_cons, List.map_cons, hid, hids], ?_⟩
        exact List.forall_mem_cons.mpr ⟨hid.symm ▸ hstays, hothers⟩

/-- The children of an element are the known ones with the numbers. -/
theorem Tidy.children {p : Pass} (h : Tidy p.constructions) {id : NodeId} {c : Construction}
    (hc : p.constructions.get? id = some c) :
    (p.children id).map (·.node.id) = c.children ∧
      ∀ child ∈ p.children id, p.lookup child.node = .ok (child, p) := by
  rw [Pass.children, hc]
  refine ⟨?_, fun child hchild => ?_⟩
  · -- all children are known, so none is left out when they are listed
    obtain ⟨-, hknown⟩ := h id c hc
    simp only
    revert hknown
    induction c.children with
    | nil => exact fun _ => rfl
    | cons first rest ih =>
      intro hknown
      obtain ⟨hfirst, hrest⟩ := List.forall_mem_cons.mp hknown
      obtain ⟨k, hk⟩ := Option.isSome_iff_exists.mp ((OrderedMap.mem_keys_iff _ _).mp hfirst)
      rw [List.filterMap_cons_some hk, List.map_cons, ih hrest, (h first k hk).1]
  · obtain ⟨id', -, hfound⟩ := List.mem_filterMap.mp hchild
    exact lookup_known (by rw [(h id' child hfound).1, hfound])

/-- The root, once there is one, is that of the document, and known. -/
def Compilation.Rooted (c : Compilation) : Prop :=
  ∀ id, c.root = some id → id = c.document.root.id ∧ id ∈ c.pass.constructions.keys

namespace Compilation

theorem document_undergo (c : Compilation) (e : Event) : (c.undergo e).document = c.document := by
  cases e with
  | coercion name type value base =>
    rw [undergo]
    split <;> rfl
  | document =>
    rw [undergo, process]
    split <;> rfl
  | _ => rfl

theorem Rooted.undergo {c : Compilation} (h : c.Rooted) (e : Event) : (c.undergo e).Rooted := by
  -- who is known stays known
  have hkeys : ∀ id ∈ c.pass.constructions.keys, id ∈ (c.undergo e).pass.constructions.keys :=
    fun _ => (c.proceeds_undergo e).mem_keys
  -- only processing the document gives it a root
  have hsame : (c.undergo e).root = c.root → (c.undergo e).Rooted := by
    intro hroot id hid
    rw [hroot] at hid
    obtain ⟨heq, hmem⟩ := h id hid
    exact ⟨by rw [document_undergo, heq], hkeys id hmem⟩
  cases e with
  | document =>
    intro id hid
    rw [Compilation.undergo, process] at hid ⊢
    cases ho : c.outcome? with
    | some outcome =>
      rw [ho] at hid
      exact h id hid
    -- if the look-up succeeds, the root is the one of the document and is known
    | none =>
      rw [ho] at hid
      simp only [processRoot] at hid ⊢
      cases hl : c.pass.lookup c.document.root with
      | error stop => rw [hl] at hid; cases hid
      | ok found =>
        rw [hl] at hid
        cases hid
        refine ⟨rfl, (proceeds_process c.document.root found.2).mem_keys ?_⟩
        rw [OrderedMap.mem_keys_iff, get?_of_lookup hl]
        rfl
  | coercion name type value base =>
    refine hsame ?_
    rw [Compilation.undergo]
    split <;> rfl
  | _ => exact hsame rfl

theorem Rooted.undergoAll {c : Compilation} (h : c.Rooted) (events : List Event) :
    (c.undergoAll events).Rooted := by
  induction events generalizing c with
  | nil => exact h
  | cons e rest ih => exact ih (h.undergo e)

theorem document_undergoAll (c : Compilation) (events : List Event) :
    (c.undergoAll events).document = c.document := by
  induction events generalizing c with
  | nil => rfl
  | cons e rest ih => exact (ih _).trans (c.document_undergo e)

end Compilation

/-! ### One compiler for each identity -/

/-- **Who is who in a run.** In every statement `lookups` are all look-ups of the run that have come
to something, also those in queries and while elements were processed, and `last` is what the run
comes to. -/
structure Compilation.Identified (start : Compilation) (events : List Event) (lookups : Lookups)
    (last : Compilation) : Prop where
  /-- Two look-ups of elements come to one compiler just if the elements have one number. -/
  elements : ∀ a ∈ lookups.elements, ∀ b ∈ lookups.elements,
    (a.place = b.place ↔ a.node.id = b.node.id)
  /-- Two look-ups of attributes come to one compiler just if name, raw value and type are equal,
  whatever the case of the type and the blanks around it. -/
  attributes : ∀ a ∈ lookups.attributes, ∀ b ∈ lookups.attributes,
    (a.place = b.place ↔
      a.name = b.name ∧ a.value = b.value ∧ Text.nameKey a.type = Text.nameKey b.type)
  /-- A compiler stays in its place, with its element, kind and schema. -/
  element_stays : ∀ a ∈ lookups.elements,
    a.after.constructions.entries[a.place]? = some (a.node.id, a.construction) ∧
      ∃ c, last.pass.constructions.entries[a.place]? = some (a.node.id, c) ∧
        a.construction.Becomes c
  /-- So does the compiler of an attribute, with its key, base and kind. -/
  attribute_stays : ∀ a ∈ lookups.attributes,
    a.after.coercions.entries[a.place]? = some (a.key, a.coercion) ∧
      ∃ k, last.pass.coercions.entries[a.place]? = some (a.key, k) ∧ a.coercion.Stays k
  /-- Kind and schema are those of the catalog when the element was first looked up. -/
  element_first : ∀ earlier first later, lookups.elements = earlier ++ first :: later →
    (∀ a ∈ earlier, a.node.id ≠ first.node.id) →
    ∀ a ∈ lookups.elements, a.node.id = first.node.id →
      a.construction.node = first.node ∧
        first.before.environment.catalog.elementKind first.node.tag = .ok a.construction.kind ∧
        a.construction.kind.define first.node = .ok a.construction.schema
  /-- The kind is that of the catalog when the attribute was first looked up, and the base was given
  then as well. -/
  attribute_first : ∀ earlier first later, lookups.attributes = earlier ++ first :: later →
    (∀ a ∈ earlier, a.key ≠ first.key) → ∀ a ∈ lookups.attributes, a.key = first.key →
      a.coercion.key = first.key ∧ a.coercion.base = first.before.base.or first.base ∧
        first.before.environment.catalog.attributeKind (Text.nameKey first.type)
          = .ok a.coercion.kind
  /-- A look-up of an element that fails leaves everything as it is. -/
  element_fails : ∀ node stop, last.pass.lookup node = .error stop →
    last.undergo (.request (.element node)) = last
  /-- So does a look-up of an attribute. -/
  attribute_fails : ∀ name type value base e, last.pass.coercion name type value base = .error e →
    last.undergo (.coercion name type value base) = last
  /-- When the tag has been registered since, the look-up comes to a compiler of the new kind. Only
  the kind itself can prevent it, by panicking when it declares the attributes. -/
  element_registered : ∀ node stop (kind : ElementKind) (tags : List String),
    last.pass.lookup node = .error stop → Text.nameKey node.tag ∈ tags.map Text.nameKey →
    match kind.define node with
    | .ok schema => ∃ c p, (last.undergo (.addElement kind tags)).pass.lookup node = .ok (c, p) ∧
        c.node = node ∧ c.kind = kind ∧ c.schema = schema
    | .error x => (last.undergo (.addElement kind tags)).pass.lookup node = .error (.panic x)
  /-- When the type has been registered since, the look-up comes to a compiler of the new kind. -/
  attribute_registered : ∀ name type value base e kind (types : List String),
    last.pass.coercion name type value base = .error e →
    Text.nameKey type ∈ types.map Text.nameKey →
    ∃ k p, (last.undergo (.addAttribute kind types)).pass.coercion name type value base
      = .ok (k, p) ∧ k.key = .ofType name type value ∧ k.kind = kind
  /-- A tag that was registered at any time is never unresolved again: only a kind that panics when
  it declares the attributes can fail an element then. -/
  tag_stays : ∀ earlier kind tags later, events = earlier ++ .addElement kind tags :: later →
    ∀ node, Text.nameKey node.tag ∈ tags.map Text.nameKey →
      ∀ stop, last.pass.lookup node = .error stop →
        ∃ kind x, last.pass.environment.catalog.elementKind node.tag = .ok kind ∧
          kind.define node = .error x ∧ stop = .panic x
  /-- And a type that was registered at any time can be looked up ever after. -/
  type_stays : ∀ earlier kind types later, events = earlier ++ .addAttribute kind types :: later →
    ∀ name type value base, Text.nameKey type ∈ types.map Text.nameKey →
      ∃ k p, last.pass.coercion name type value base = .ok (k, p)
  /-- There are as many compilers of elements as different elements were looked up. -/
  count : last.pass.constructions.size = (lookups.elements.map (·.node.id)).toFinset.card
  /-- The children that an element has met were looked up, and looking one up gives it again. -/
  children : ∀ id c, last.pass.constructions.get? id = some c →
    (last.pass.children id).map (·.node.id) = c.children ∧
      ∀ child ∈ last.pass.children id, (∃ a ∈ lookups.elements, a.node.id = child.node.id) ∧
        last.pass.lookup child.node = .ok (child, last.pass)
  /-- So was the root, once there is one. -/
  root : ∀ id, last.root = some id → id = start.document.root.id ∧
    (∃ a ∈ lookups.elements, a.node.id = id) ∧
      ∃ c, last.pass.lookup start.document.root = .ok (c, last.pass)
  /-- What a query for a tag finds are the elements below with the tag, and looking one up after it
  gives it again. -/
  byTag : ∀ node tag found, (last.pass.queryByTag node tag).1 = .ok found →
    found.map (·.node.id) = (node.withTag tag).map (·.id) ∧
      ∀ c ∈ found, (last.pass.queryByTag node tag).2.lookup c.node
        = .ok (c, (last.pass.queryByTag node tag).2)
  /-- What a query for an id finds is the first element below with the id, and looking it up after
  it gives it again. -/
  byId : ∀ node id c, (last.pass.queryById node id).1 = .ok (some c) →
    (node.withId? id).map (·.id) = some c.node.id ∧
      (last.pass.queryById node id).2.lookup c.node = .ok (c, (last.pass.queryById node id).2)

namespace Compilation

variable {environment : Environment} {document : Markup.Document}
  {base workingDirectory : Option Locator} {store : Store}

theorem rooted_begin : (begin environment document base workingDirectory store).Rooted :=
  fun _ h => by cases h

theorem tidy_begin : Tidy (begin environment document base workingDirectory store).pass.constructions :=
  fun _ _ h => by cases h

end Compilation

section Run

variable {last : Compilation}

/-- Registering the tag helps, unless the kind panics. -/
theorem lookup_registered {node : Element} {stop : Stop}
    (h : last.pass.lookup node = .error stop) (kind : ElementKind) {tags : List String}
    (htag : Text.nameKey node.tag ∈ tags.map Text.nameKey) :
    match kind.define node with
    | .ok schema => ∃ c p, (last.undergo (.addElement kind tags)).pass.lookup node = .ok (c, p) ∧
        c.node = node ∧ c.kind = kind ∧ c.schema = schema
    | .error x => (last.undergo (.addElement kind tags)).pass.lookup node = .error (.panic x) := by
  obtain ⟨hnone, -⟩ := lookup_eq_error_iff.mp h
  -- registering makes no construction, so the look-up goes to the new kind
  have hnew : (last.undergo (.addElement kind tags)).pass.constructions.get? node.id = none := hnone
  have hkind : (last.undergo (.addElement kind tags)).pass.environment.catalog.elementKind node.tag
      = .ok kind := Catalog.elementKind_addElement _ kind htag
  cases hdefine : kind.define node with
  | ok schema =>
    simp only [Pass.lookup, hnew, hkind, hdefine]
    exact ⟨_, _, rfl, rfl, rfl, rfl⟩
  | error x => simp only [Pass.lookup, hnew, hkind, hdefine]

theorem coercion_registered {name type value : String} {base : Option Locator} {e : CompileError}
    (h : last.pass.coercion name type value base = .error e) (kind : AttributeKind)
    {types : List String} (htype : Text.nameKey type ∈ types.map Text.nameKey) :
    ∃ k p, (last.undergo (.addAttribute kind types)).pass.coercion name type value base
      = .ok (k, p) ∧ k.key = .ofType name type value ∧ k.kind = kind := by
  -- a look-up that has failed has left nothing behind
  have hnone : last.pass.coercions.get? (.ofType name type value) = none := by
    cases hk : last.pass.coercions.get? (.ofType name type value) with
    | none => rfl
    | some k =>
      rw [Pass.coercion, hk] at h
      cases h
  have hnew : (last.undergo (.addAttribute kind types)).pass.coercions.get?
      (.ofType name type value) = none := hnone
  have hkind : (last.undergo (.addAttribute kind types)).pass.environment.catalog.attributeKind
      (Text.nameKey type) = .ok kind :=
    Catalog.attributeKind_addAttribute _ kind (by rwa [Text.nameKey_nameKey])
  have hmem : Text.nameKey type ∈
      (last.undergo (.addAttribute kind types)).pass.environment.catalog.attributes.keys :=
    (Association.mem_keys_all kind types _ _).mpr (.inr htype)
  obtain ⟨k, p, hk⟩ := coercion_of_registered hmem name value base
  have hmade := coercion_made hk hnew
  exact ⟨k, p, hk, hmade.key, Except.ok.inj (hmade.kind.symm.trans hkind)⟩

end Run

section First

variable {p q : Pass} {l : Lookups}

/-- Kind and schema of an element are what the catalog gave when it was first looked up. -/
theorem element_of_first (h : p.Proceeds l q) (hp : p.constructions = .empty)
    {earlier later : List ElementLookup} {first : ElementLookup}
    (heq : l.elements = earlier ++ first :: later)
    (hfirst : ∀ a ∈ earlier, a.node.id ≠ first.node.id) {a : ElementLookup} (ha : a ∈ l.elements)
    (hid : a.node.id = first.node.id) :
    a.construction.node = first.node ∧
      first.before.environment.catalog.elementKind first.node.tag = .ok a.construction.kind ∧
      a.construction.kind.define first.node = .ok a.construction.schema := by
  -- in the beginning nothing was known under the number
  have hm : first.node.id ∉ p.constructions.keys := by
    rw [hp]
    exact List.not_mem_nil
  obtain ⟨hnone, hothers⟩ := h.constructions.of_first_map heq hm hfirst
  have hbecomes : first.construction.Becomes a.construction := hothers a ha hid
  -- it was made then, and kind and schema stay
  obtain ⟨hfound, -⟩ | ⟨-, hmade, -⟩ := lookup_finds first.looks
  · cases hfound.symm.trans hnone
  · refine ⟨hbecomes.node.trans hmade.node, ?_, ?_⟩
    · rw [hbecomes.kind, hmade.kind]
    · rw [hbecomes.kind, hbecomes.schema, hmade.schema]

/-- The kind of an attribute is what the catalog gave when it was first looked up. -/
theorem attribute_of_first (h : p.Proceeds l q) (hp : p.coercions = .empty)
    {earlier later : List AttributeLookup} {first : AttributeLookup}
    (heq : l.attributes = earlier ++ first :: later)
    (hfirst : ∀ a ∈ earlier, a.key ≠ first.key) {a : AttributeLookup} (ha : a ∈ l.attributes)
    (hkey : a.key = first.key) :
    a.coercion.key = first.key ∧ a.coercion.base = first.before.base.or first.base ∧
      first.before.environment.catalog.attributeKind (Text.nameKey first.type)
        = .ok a.coercion.kind := by
  -- in the beginning nothing was known under the key
  have hm : first.key ∉ p.coercions.keys := by
    rw [hp]
    exact List.not_mem_nil
  obtain ⟨hnone, hothers⟩ := h.coercions.of_first_map heq hm hfirst
  have hstays : first.coercion.Stays a.coercion := hothers a ha hkey
  have hmade := coercion_made first.looks hnone
  refine ⟨hstays.key.trans hmade.key, hstays.base.trans hmade.base, ?_⟩
  rw [hstays.kind]
  exact hmade.kind

end First

section Queries

variable {p : Pass} {node : Element}

theorem known_of_queryByTag (ht : Tidy p.constructions) {tag : String} {found : List Construction}
    (h : (p.queryByTag node tag).1 = .ok found) :
    found.map (·.node.id) = (node.withTag tag).map (·.id) ∧
      ∀ c ∈ found, (p.queryByTag node tag).2.lookup c.node
        = .ok (c, (p.queryByTag node tag).2) := by
  rw [Pass.queryByTag] at h ⊢
  split at h
  · cases h
  · next hreleased =>
    rw [if_neg hreleased]
    obtain ⟨hids, hknown⟩ := known_of_lookupAll (Prod.ext h rfl) ht
    exact ⟨hids, fun c hc => lookup_known (hknown c hc)⟩

theorem known_of_queryById (ht : Tidy p.constructions) {id : String} {c : Construction}
    (h : (p.queryById node id).1 = .ok (some c)) :
    (node.withId? id).map (·.id) = some c.node.id ∧
      (p.queryById node id).2.lookup c.node = .ok (c, (p.queryById node id).2) := by
  rw [Pass.queryById] at h ⊢
  split at h
  · cases h
  next hreleased =>
  rw [if_neg hreleased, Element.withId?]
  cases he : node.descendants.find? fun e => e.attribute? "id" == some id with
  | none => rw [he] at h; cases h
  | some e =>
    rw [he] at h
    simp only at h ⊢
    cases hl : p.lookup e with
    | error stop => rw [hl] at h; cases h
    | ok found =>
      rw [hl] at h
      cases h
      -- what is found is the construction of that very element
      have hknown := get?_of_lookup hl
      have hid := ((Pass.proceeds_lookup hl).tidy ht _ _ hknown).1
      exact ⟨by rw [Option.map_some, hid], lookup_known (hid.symm ▸ hknown)⟩

end Queries

/-- **One compiler for each identity.** In every run of every compile, whatever is looked up,
queried for, processed and registered in it and in whatever order, `Identified` says who is who. -/
theorem compilers_identified (environment : Environment) (document : Markup.Document)
    (base workingDirectory : Option Locator) (store : Store) (events : List Event) :
    let start := Compilation.begin environment document base workingDirectory store
    Compilation.Identified start events (start.lookupsOfAll events) (start.undergoAll events) := by
  intro start
  have hrun := start.proceeds_undergoAll events
  have hconstructions := hrun.constructions
  have hcoercions := hrun.coercions
  have htidy : Tidy (start.undergoAll events).pass.constructions :=
    hrun.tidy Compilation.tidy_begin
  have hrooted := Compilation.rooted_begin.undergoAll (c := start) events
  -- at the beginning nothing is known, so who is known was looked up
  have hlooked : ∀ id ∈ (start.undergoAll events).pass.constructions.keys,
      ∃ a ∈ (start.lookupsOfAll events).elements, a.node.id = id := by
    intro id hid
    obtain hid | ⟨f, hf, rfl⟩ := (hconstructions.mem_keys_iff id).mp hid
    · cases hid
    · obtain ⟨a, ha, rfl⟩ := List.mem_map.mp hf
      exact ⟨a, ha, rfl⟩
  refine
    { elements := fun a ha b hb =>
        hconstructions.place_eq_iff (List.mem_map_of_mem ha) (List.mem_map_of_mem hb)
      attributes := fun a ha b hb => ?attributes
      element_stays := fun a ha =>
        ⟨OrderedMap.entries_place a.find.get?_after, hconstructions.stays (List.mem_map_of_mem ha)⟩
      attribute_stays := fun a ha =>
        ⟨OrderedMap.entries_place a.find.get?_after, hcoercions.stays (List.mem_map_of_mem ha)⟩
      element_first := fun _ _ _ heq hfirst _ => element_of_first hrun rfl heq hfirst
      attribute_first := fun _ _ _ heq hfirst _ => attribute_of_first hrun rfl heq hfirst
      element_fails := fun node stop hl => by simp only [Compilation.undergo, Pass.serve, hl]
      attribute_fails := fun _ _ _ _ _ hk => by simp only [Compilation.undergo, hk]
      element_registered := fun _ _ kind _ hl htag => lookup_registered hl kind htag
      attribute_registered := fun _ _ _ _ _ kind _ hk htype => coercion_registered hk kind htype
      tag_stays := fun earlier kind tags later heq node htag stop hl => ?tag_stays
      type_stays := fun earlier kind types later heq name type value base htype => ?type_stays
      count := by rw [hconstructions.size_eq, List.map_map]; rfl
      children := fun id c hc => ?children
      root := fun id hid => ?root
      byTag := fun _ _ _ => known_of_queryByTag htidy
      byId := fun _ _ _ => known_of_queryById htidy }
  case attributes =>
    -- places are keys, and a key is the name, the value and the type as it is looked up
    have hplace := hcoercions.place_eq_iff (List.mem_map_of_mem ha) (List.mem_map_of_mem hb)
    calc a.place = b.place ↔ a.key = b.key := hplace
      _ ↔ a.name = b.name ∧ a.value = b.value ∧ Text.nameKey a.type = Text.nameKey b.type := by
        simp only [AttributeLookup.key, AttributeKey.ofType, AttributeKey.mk.injEq]
        exact and_congr_right' and_comm
  case tag_stays =>
    -- who was registered once stays so, whatever is registered later
    have hregistered : Text.nameKey node.tag ∈
        (start.undergoAll events).pass.environment.catalog.elements.keys := by
      rw [heq, Compilation.undergoAll_append, Compilation.undergoAll_cons]
      refine (Compilation.proceeds_undergoAll _ later).catalog.elements ?_
      exact (Association.mem_keys_all kind tags _ _).mpr (.inr htag)
    obtain ⟨kind', hkind'⟩ := Catalog.elementKind_of_mem hregistered
    obtain ⟨-, ⟨e, he, -⟩ | hpanic⟩ := lookup_eq_error_iff.mp hl
    · cases hkind'.symm.trans he
    · exact hpanic
  case type_stays =>
    refine coercion_of_registered ?_ name value base
    rw [heq, Compilation.undergoAll_append, Compilation.undergoAll_cons]
    refine (Compilation.proceeds_undergoAll _ later).catalog.attributes ?_
    exact (Association.mem_keys_all kind types _ _).mpr (.inr htype)
  case children =>
    -- children were looked up when they were visited
    obtain ⟨hids, hfound⟩ := htidy.children hc
    refine ⟨hids, fun child hchild => ⟨hlooked _ ?_, hfound child hchild⟩⟩
    refine (htidy id c hc).2 _ ?_
    rw [← hids]
    exact List.mem_map_of_mem hchild
  case root =>
    obtain ⟨heq, hmem⟩ := hrooted id hid
    rw [Compilation.document_undergoAll] at heq
    obtain ⟨c, hc⟩ := Option.isSome_iff_exists.mp ((OrderedMap.mem_keys_iff _ _).mp hmem)
    exact ⟨heq, hlooked id hmem, c, lookup_known (heq ▸ hc)⟩

end ObjectMarkup
