import ObjectMarkup.Proofs.Finds
import ObjectMarkup.Proofs.Moments

/-!
# The look-ups of a pass

Which elements and attributes are looked up while an element is processed, in which order and in
which pass, those below it included. `lookupsOfProcess` lists the look-ups that have come to
something. It goes through the phases as `process` does, and stops where that stops: an attribute of
a string type is not looked up, a child with an unknown tag is passed over, and nothing comes after
a panic.

`KeptBySteps` are the relations between a pass, look-ups and a later pass that every small step of a
run keeps, and `KeptBySteps.process` says that processing keeps them too, with the look-ups of the
list. The main case is `proceeds_process`: between the look-ups nothing comes to what the pass knows,
and what it knows keeps its element, kind and schema (`Pass.Proceeds`). It does not ask for numbered
trees or for kinds as they are in the catalog now, so it holds also while kinds are registered in
place of others.
-/

namespace ObjectMarkup

open Markup (Element NodeId)

/-! ### Look-ups that have come to something -/

/-- A look-up of an element that has found its construction or made it. -/
structure ElementLookup where
  node : Element
  before : Pass
  construction : Construction
  after : Pass
  looks : before.lookup node = .ok (construction, after)

/-- A look-up of an attribute that has found its coercion or made it. -/
structure AttributeLookup where
  name : String
  type : String
  value : String
  base : Option Locator
  before : Pass
  coercion : Coercion
  after : Pass
  looks : before.coercion name type value base = .ok (coercion, after)

/-- Look-ups that have come to something, in their order. -/
structure Lookups where
  elements : List ElementLookup
  attributes : List AttributeLookup

namespace Lookups

def none : Lookups :=
  ⟨[], []⟩

instance : Append Lookups :=
  ⟨fun a b => ⟨a.elements ++ b.elements, a.attributes ++ b.attributes⟩⟩

@[simp] theorem elements_append (a b : Lookups) :
    (a ++ b).elements = a.elements ++ b.elements := rfl

@[simp] theorem attributes_append (a b : Lookups) :
    (a ++ b).attributes = a.attributes ++ b.attributes := rfl

theorem append_none (a : Lookups) : a ++ none = a := by
  change mk (a.elements ++ []) (a.attributes ++ []) = a
  rw [List.append_nil, List.append_nil]

end Lookups

namespace Pass

/-- The look-up of an element, if it comes to something. -/
def lookupOf (p : Pass) (node : Element) : Lookups :=
  match h : p.lookup node with
  | .ok (c, q) => ⟨[⟨node, p, c, q, h⟩], []⟩
  | .error _ => .none

/-- The look-up of an attribute, if it comes to something. -/
def coercionOf (p : Pass) (name type value : String) (base : Option Locator) : Lookups :=
  match h : p.coercion name type value base with
  | .ok (k, q) => ⟨[], [⟨name, type, value, base, p, k, q, h⟩]⟩
  | .error _ => .none

/-- The look-ups of elements one after the other, up to the first that fails. -/
def lookupsOf (p : Pass) : List Element → Lookups
  | [] => .none
  | node :: rest => p.lookupOf node ++
    match p.lookup node with
    | .ok (_, q) => q.lookupsOf rest
    | .error _ => .none

end Pass

/-- The look-ups while attributes of an element are compiled: every one but those of string types is
looked up. -/
def lookupsOfEach (c : Construction) : List (String × String) → Pass → Lookups
  | [], _ => .none
  | (name, raw) :: rest, p =>
    (if c.schema.typeOf name = "string" then .none
      else p.coercionOf name (c.schema.typeOf name) raw c.node.base) ++
    match Hook.exec (compileAttribute c name raw) p with
    | (.ok _, q) => lookupsOfEach c rest q
    | (.error _, _) => .none

/-- The look-ups before the children of an element. -/
def lookupsOfAttributes (c : Construction) (p : Pass) : Lookups :=
  match Hook.exec (c.kind.beforeAttributes (p.view c)) (p.bench c) with
  | (.ok _, bench) =>
    lookupsOfEach c c.node.attributes.entries (p.leave c .beforeAttributes bench)
  | (.error _, _) => .none

mutual

/-- The look-ups while an element is processed, those below it included. -/
def lookupsOfProcess : Element → Pass → Lookups
  | ⟨id, _, _, children, _⟩, p =>
    match p.constructions.get? id with
    | none => .none
    | some c =>
      if c.outcome?.isSome || p.released then .none
      else
        lookupsOfAttributes c p ++
          match Hook.exec (compileAttributes c) p with
          | (.ok _, q) => lookupsOfVisit id children q
          | (.error _, _) => .none

/-- The look-ups while children are visited. -/
def lookupsOfVisit (parent : NodeId) : List Element → Pass → Lookups
  | [], _ => .none
  | child :: rest, p => p.lookupOf child ++
    match p.lookup child with
    | .error (.panic _) => .none
    | .error (.error e) => lookupsOfVisit parent rest (p.report ⟨child.id, child.tag, none, e⟩)
    | .ok (_, q) =>
      lookupsOfProcess child (q.handDown parent child.id) ++
        lookupsOfVisit parent rest (visitFound parent child q)

end

/-! ### What a look-up does -/

/-- A coercion that is new is made of what the catalog gives. -/
theorem coercion_made {p q : Pass} {name type value : String} {base : Option Locator} {k : Coercion}
    (h : p.coercion name type value base = .ok (k, q))
    (hnone : p.coercions.get? (AttributeKey.ofType name type value) = none) :
    k.MadeFor p (AttributeKey.ofType name type value) base := by
  obtain ⟨hfound, -⟩ | ⟨-, hmade, -⟩ := coercion_cases h
  · cases hnone.symm.trans hfound
  · exact hmade

namespace ElementLookup

variable (l : ElementLookup)

/-- The look-up as one in the map of constructions. -/
def find : Find NodeId Construction where
  key := l.node.id
  before := l.before.constructions
  value := l.construction
  after := l.after.constructions
  finds := by
    obtain ⟨hfound, hafter⟩ | ⟨hnone, -, hafter⟩ := lookup_finds l.looks
    · exact .inl ⟨hfound, by rw [hafter]⟩
    · exact .inr ⟨hnone, by rw [hafter]⟩

/-- The place of the compiler that was found. No two compilers of a pass have one place. -/
def place : Nat :=
  l.after.constructions.place l.node.id

end ElementLookup

namespace AttributeLookup

variable (l : AttributeLookup)

def key : AttributeKey :=
  .ofType l.name l.type l.value

/-- The look-up as one in the map of coercions. -/
def find : Find AttributeKey Coercion where
  key := l.key
  before := l.before.coercions
  value := l.coercion
  after := l.after.coercions
  finds := by
    obtain ⟨hfound, hafter⟩ | ⟨hnone, -, hafter⟩ := coercion_cases l.looks
    · exact .inl ⟨hfound, by rw [hafter]⟩
    · exact .inr ⟨hnone, by rw [hafter]; rfl⟩

/-- The place of the compiler that was found. No two compilers of a pass have one place. -/
def place : Nat :=
  l.after.coercions.place l.key

end AttributeLookup

/-! ### How a pass goes on -/

instance : IsPreorder Construction Construction.Becomes where
  refl := .refl
  trans _ _ _ := .trans

/-- What stays of a coercion whatever becomes of it. -/
structure Coercion.Stays (k k' : Coercion) : Prop where
  key : k'.key = k.key
  base : k'.base = k.base
  kind : k'.kind = k.kind

instance : IsPreorder Coercion Coercion.Stays where
  refl _ := ⟨rfl, rfl, rfl⟩
  trans _ _ _ h h' := ⟨h'.key.trans h.key, h'.base.trans h.base, h'.kind.trans h.kind⟩

/-- Every construction is kept under the number of its element, and has children that are known. -/
def Tidy (m : OrderedMap NodeId Construction) : Prop :=
  ∀ id c, m.get? id = some c → c.node.id = id ∧ ∀ child ∈ c.children, child ∈ m.keys

theorem Tidy.modify {m : OrderedMap NodeId Construction} (h : Tidy m) (id : NodeId)
    {f : Construction → Construction} (hnode : ∀ c, (f c).node = c.node)
    (hchildren : ∀ c, ∀ child ∈ (f c).children, child ∈ c.children ∨ child ∈ m.keys) :
    Tidy (m.modify id f) := by
  intro id' c' hc'
  rw [OrderedMap.keys_modify]
  rw [OrderedMap.get?_modify] at hc'
  split at hc'
  · next heq =>
    obtain ⟨c, hc, rfl⟩ := Option.map_eq_some_iff.mp hc'
    obtain ⟨hid, hknown⟩ := h id c hc
    refine ⟨by rw [hnode, hid, heq], fun child hchild => ?_⟩
    -- a child that was there before is known, and a new one has to be
    exact (hchildren c child hchild).elim (hknown child) fun hmem => hmem
  · exact h id' c' hc'

theorem Tidy.insert {m : OrderedMap NodeId Construction} (h : Tidy m) {c : Construction}
    (hchildren : c.children = []) : Tidy (m.insert c.node.id c) := by
  intro id c' hc'
  rw [OrderedMap.get?_insert] at hc'
  split at hc'
  · next heq =>
    cases hc'
    exact ⟨heq.symm, by simp [hchildren]⟩
  · obtain ⟨hid, hknown⟩ := h id c' hc'
    refine ⟨hid, fun child hchild => ?_⟩
    rw [OrderedMap.keys_insert]
    split
    · exact hknown child hchild
    · exact List.mem_append_left _ (hknown child hchild)

/-- Names that are registered stay registered. -/
structure Catalog.Grows (c d : Catalog) : Prop where
  elements : c.elements.keys ⊆ d.elements.keys
  attributes : c.attributes.keys ⊆ d.attributes.keys

/-- **A pass goes on with look-ups.** Nothing but these comes to what it knows. -/
structure Pass.Proceeds (p : Pass) (lookups : Lookups) (q : Pass) : Prop where
  constructions : Chain Construction.Becomes p.constructions
    (lookups.elements.map ElementLookup.find) q.constructions
  coercions : Chain Coercion.Stays p.coercions (lookups.attributes.map AttributeLookup.find)
    q.coercions
  tidy : Tidy p.constructions → Tidy q.constructions
  catalog : p.environment.catalog.Grows q.environment.catalog

namespace Pass.Proceeds

variable {p q r : Pass} {a b : Lookups}

theorem trans (h : p.Proceeds a q) (h' : q.Proceeds b r) : p.Proceeds (a ++ b) r where
  constructions := by
    rw [Lookups.elements_append, List.map_append]
    exact h.constructions.append h'.constructions
  coercions := by
    rw [Lookups.attributes_append, List.map_append]
    exact h.coercions.append h'.coercions
  tidy ht := h'.tidy (h.tidy ht)
  catalog := ⟨fun _ hname => h'.catalog.elements (h.catalog.elements hname),
    fun _ hname => h'.catalog.attributes (h.catalog.attributes hname)⟩

/-- First something without look-ups, then something with. -/
theorem after (h : p.Proceeds .none q) (h' : q.Proceeds a r) : p.Proceeds a r :=
  h.trans h'

/-- First something with look-ups, then something without. -/
theorem before (h : p.Proceeds a q) (h' : q.Proceeds .none r) : p.Proceeds a r :=
  a.append_none ▸ h.trans h'

/-- Without look-ups the keys stay. -/
theorem of_keeps (hc : p.constructions.Keeps Construction.Becomes q.constructions)
    (hk : p.coercions.Keeps Coercion.Stays q.coercions)
    (ht : Tidy p.constructions → Tidy q.constructions)
    (he : q.environment = p.environment) : p.Proceeds .none q where
  constructions := .done hc
  coercions := .done hk
  tidy := ht
  catalog := by rw [he]; exact ⟨List.Subset.refl _, List.Subset.refl _⟩

theorem of_eq (hc : q.constructions = p.constructions) (hk : q.coercions = p.coercions)
    (he : q.environment = p.environment) : p.Proceeds .none q :=
  of_keeps (.of_eq hc) (.of_eq hk) (by rw [hc]; exact id) he

theorem refl (p : Pass) : p.Proceeds .none p :=
  of_eq rfl rfl rfl

/-- A change of one construction that keeps its element, kind and schema, and gives it no children
but such as are known. -/
theorem of_modify {id : NodeId} {f : Construction → Construction}
    (hc : q.constructions = p.constructions.modify id f) (hk : q.coercions = p.coercions)
    (he : q.environment = p.environment) (hf : ∀ c : Construction, c.Becomes (f c))
    (hchildren : ∀ c, ∀ child ∈ (f c).children, child ∈ c.children ∨ child ∈ p.constructions.keys) :
    p.Proceeds .none q := by
  refine of_keeps ?_ (.of_eq hk) (fun ht => ?_) he
  · rw [hc]
    exact .modify hf _ _
  · rw [hc]
    exact ht.modify id (fun c => (hf c).node) hchildren

/-- What was known is known. -/
theorem mem_keys (h : p.Proceeds a q) {id : NodeId} (hid : id ∈ p.constructions.keys) :
    id ∈ q.constructions.keys :=
  h.constructions.grows.mem_keys hid

end Pass.Proceeds

/-! ### Steps without look-ups -/

section Steps

variable (p : Pass)

theorem proceeds_setValue (id : NodeId) (name : String) (value : Value) :
    p.Proceeds .none (p.setValue id name value) :=
  .of_modify rfl rfl rfl (fun _ => ⟨rfl, rfl, rfl⟩) fun _ _ => .inl

theorem proceeds_settle (id : NodeId) (outcome : Outcome Value) :
    p.Proceeds .none (p.settle id outcome) :=
  .of_modify rfl rfl rfl (fun _ => ⟨rfl, rfl, rfl⟩) fun _ _ => .inl

theorem proceeds_leave (c : Construction) (hook : ElementHook) (bench : Bench) :
    p.Proceeds .none (p.leave c hook bench) :=
  .of_modify rfl rfl rfl (fun _ => ⟨rfl, rfl, rfl⟩) fun _ _ => .inl

/-- A child that is adopted has to be known. -/
theorem proceeds_adopt (parent : NodeId) {child : NodeId} (h : child ∈ p.constructions.keys) :
    p.Proceeds .none (p.adopt parent child) := by
  refine .of_modify rfl rfl rfl (fun _ => ⟨rfl, rfl, rfl⟩) fun c id hid => ?_
  rcases List.mem_append.mp hid with hid | hid
  · exact .inl hid
  · exact .inr (List.mem_singleton.mp hid ▸ h)

theorem proceeds_report (d : Diagnostic) : p.Proceeds .none (p.report d) :=
  .of_eq rfl rfl rfl

theorem proceeds_assignTo (c : Construction) (value : Value) :
    p.Proceeds .none (p.assignTo c value) := by
  cases value with
  | record record => exact .of_eq rfl rfl rfl
  | _ => exact .refl p

/-- Coercing settles a coercion at most, and looks nothing up. -/
theorem proceeds_coerce (k : Coercion) : p.Proceeds .none (p.coerce k).2 := by
  rw [Pass.coerce_eq]
  cases (p.currentCoercion k).outcome? with
  | some outcome => exact .refl p
  | none =>
    -- the hooks add records and calls, and then the coercion gets its outcome
    obtain ⟨store, calls, -, hq⟩ := keeps_makeValue (p.currentCoercion k) p
    simp only [hq]
    refine .of_keeps (.of_eq rfl) ?_ id rfl
    exact .modify (fun _ => ⟨rfl, rfl, rfl⟩) _ _

end Steps

/-! ### Look-ups -/

namespace Pass

variable {p q : Pass}

theorem lookupOf_ok {node : Element} {c : Construction} (h : p.lookup node = .ok (c, q)) :
    p.lookupOf node = ⟨[⟨node, p, c, q, h⟩], []⟩ := by
  unfold lookupOf
  split
  · next h' =>
    rw [h] at h'
    cases h'
    rfl
  · next h' =>
    rw [h] at h'
    cases h'

theorem lookupOf_error {node : Element} {stop : Stop} (h : p.lookup node = .error stop) :
    p.lookupOf node = .none := by
  unfold lookupOf
  split
  · next h' =>
    rw [h] at h'
    cases h'
  · rfl

theorem coercionOf_ok {name type value : String} {base : Option Locator} {k : Coercion}
    (h : p.coercion name type value base = .ok (k, q)) :
    p.coercionOf name type value base = ⟨[], [⟨name, type, value, base, p, k, q, h⟩]⟩ := by
  unfold coercionOf
  split
  · next h' =>
    rw [h] at h'
    cases h'
    rfl
  · next h' =>
    rw [h] at h'
    cases h'

theorem coercionOf_error {name type value : String} {base : Option Locator} {e : CompileError}
    (h : p.coercion name type value base = .error e) :
    p.coercionOf name type value base = .none := by
  unfold coercionOf
  split
  · next h' =>
    rw [h] at h'
    cases h'
  · rfl

theorem proceeds_lookup {node : Element} {c : Construction} (h : p.lookup node = .ok (c, q)) :
    p.Proceeds (p.lookupOf node) q := by
  let l : ElementLookup := ⟨node, p, c, q, h⟩
  have hcases := lookup_finds h
  rw [lookupOf_ok h]
  -- found or made, no attribute and nothing of the environment is touched
  have hrest : q.coercions = p.coercions ∧ q.environment = p.environment := by
    obtain ⟨-, rfl⟩ | ⟨-, -, rfl⟩ := hcases
    · exact ⟨rfl, rfl⟩
    · exact ⟨rfl, rfl⟩
  refine ⟨.single l.find, .done (.of_eq hrest.1), fun ht => ?_, ?_⟩
  · obtain ⟨-, rfl⟩ | ⟨-, hmade, rfl⟩ := hcases
    · exact ht
    · exact hmade.node ▸ ht.insert hmade.children
  · rw [hrest.2]
    exact ⟨List.Subset.refl _, List.Subset.refl _⟩

theorem proceeds_coercion {name type value : String} {base : Option Locator} {k : Coercion}
    (h : p.coercion name type value base = .ok (k, q)) :
    p.Proceeds (p.coercionOf name type value base) q := by
  let l : AttributeLookup := ⟨name, type, value, base, p, k, q, h⟩
  rw [coercionOf_ok h]
  obtain ⟨_, _, _, hq⟩ := onlyCoerces_coercion h
  have hrest : q.constructions = p.constructions ∧ q.environment = p.environment := by
    rw [hq]
    exact ⟨rfl, rfl⟩
  refine ⟨.done (.of_eq hrest.1), .single l.find, by rw [hrest.1]; exact id, ?_⟩
  rw [hrest.2]
  exact ⟨List.Subset.refl _, List.Subset.refl _⟩

end Pass

/-! ### What the steps of a run keep -/

/-- **A relation that every step of a run keeps,** between the pass before, what was looked up in
between and the pass after. -/
structure KeptBySteps (R : Pass → Lookups → Pass → Prop) : Prop where
  refl : ∀ p, R p .none p
  trans : ∀ {p q r a b}, R p a q → R q b r → R p (a ++ b) r
  /-- What is known stays so. -/
  mem_keys : ∀ {p q a id}, R p a q → id ∈ p.constructions.keys → id ∈ q.constructions.keys
  lookup : ∀ {p q : Pass} {node : Element} {c : Construction},
    p.lookup node = .ok (c, q) → R p (p.lookupOf node) q
  coercion : ∀ {p q : Pass} {name type value : String} {base : Option Locator} {k : Coercion},
    p.coercion name type value base = .ok (k, q) → R p (p.coercionOf name type value base) q
  coerce : ∀ p k, R p .none (Pass.coerce p k).2
  leave : ∀ p c hook bench, R p .none (Pass.leave p c hook bench)
  setValue : ∀ p id name value, R p .none (Pass.setValue p id name value)
  assignTo : ∀ p c value, R p .none (Pass.assignTo p c value)
  report : ∀ p d, R p .none (Pass.report p d)
  settle : ∀ p id outcome, R p .none (Pass.settle p id outcome)
  /-- A child that is adopted was looked up. -/
  adopt : ∀ p parent {child}, child ∈ p.constructions.keys → R p .none (Pass.adopt p parent child)

namespace KeptBySteps

variable {R : Pass → Lookups → Pass → Prop} (hR : KeptBySteps R) {p q r : Pass} {a b : Lookups}
include hR

/-- First something without look-ups, then something with. -/
theorem after (h : R p .none q) (h' : R q a r) : R p a r :=
  hR.trans h h'

/-- First something with look-ups, then something without. -/
theorem before (h : R p a q) (h' : R q .none r) : R p a r :=
  a.append_none ▸ hR.trans h h'

theorem compileAttribute (c : Construction) (name raw : String) (p : Pass) :
    R p
      (if c.schema.typeOf name = "string" then .none
        else p.coercionOf name (c.schema.typeOf name) raw c.node.base)
      (Hook.exec (compileAttribute c name raw) p).2 := by
  rw [exec_compileAttribute]
  by_cases hs : c.schema.typeOf name = "string"
  · -- a string is taken over without a look-up
    rw [if_pos hs, if_pos hs]
    exact hR.setValue p _ _ _
  rw [if_neg hs, if_neg hs]
  cases hk : p.coercion name (c.schema.typeOf name) raw c.node.base with
  | error e =>
    -- nothing was found, and so nothing is noted
    rw [Pass.coercionOf_error hk]
    exact hR.report p _
  | ok found =>
    obtain ⟨k, q⟩ := found
    have hcoerced := hR.before (hR.coercion hk) (hR.coerce q k)
    simp only
    rcases hr : q.coerce k with ⟨e | value, r⟩
    all_goals
      rw [hr] at hcoerced
      simp only
    · -- a failure ends the compile or is reported
      split
      · exact hcoerced
      · exact hR.before hcoerced (hR.report r _)
    · exact hR.before hcoerced (hR.setValue r _ _ _)

theorem compileEach (c : Construction) (attributes : List (String × String)) (p : Pass) :
    R p (lookupsOfEach c attributes p) (Hook.exec (compileEach c attributes) p).2 := by
  induction attributes generalizing p with
  | nil => exact hR.refl p
  | cons entry rest ih =>
    obtain ⟨name, raw⟩ := entry
    have hfirst := hR.compileAttribute c name raw p
    rw [compileEach_cons, Hook.exec_bind, lookupsOfEach]
    rcases hr : Hook.exec (ObjectMarkup.compileAttribute c name raw) p with ⟨stop | u, q⟩
    all_goals rw [hr] at hfirst
    · exact hR.trans hfirst (hR.refl q)
    · exact hR.trans hfirst (ih q)

theorem compileAttributes (c : Construction) (p : Pass) :
    R p (lookupsOfAttributes c p) (Hook.exec (compileAttributes c) p).2 := by
  rw [exec_compileAttributes, lookupsOfAttributes]
  rcases Hook.exec (c.kind.beforeAttributes (p.view c)) (p.bench c) with ⟨x | u, bench⟩
  · exact hR.leave p c _ _
  · have heach := hR.after (hR.leave p c .beforeAttributes bench)
      (hR.compileEach c c.node.attributes.entries _)
    simp only
    rcases hr : Hook.exec (ObjectMarkup.compileEach c c.node.attributes.entries)
      (p.leave c .beforeAttributes bench) with ⟨stop | u, q⟩
    all_goals rw [hr] at heach
    · exact heach
    · exact hR.before heach (hR.leave q c _ _)

theorem build (c : Construction) (p : Pass) : R p .none (Hook.exec (build c) p).2 := by
  rw [exec_build]
  rcases Hook.exec (c.kind.construct (p.view c)) (p.bench c) with ⟨stop | value, bench⟩
  · exact hR.leave p c _ _
  · refine hR.after (hR.leave p c .construct bench) ?_
    exact hR.after (hR.assignTo _ c value) (hR.leave _ c _ _)

theorem reportOutcome (child : Element) (outcome : Outcome Value) (p : Pass) :
    R p .none (p.reportOutcome child outcome) := by
  cases outcome with
  | ok value => exact hR.refl p
  | error e => exact hR.report p _

theorem handDown (p : Pass) (parent child : NodeId) : R p .none (p.handDown parent child) :=
  handDown_induction (R := fun p q => R p .none q) hR.refl (fun _ _ _ => hR.after)
    (fun p name value => hR.setValue p child name value) p parent

end KeptBySteps

/-! ### Processing -/

/-- An element that is not to be processed looks nothing up. -/
theorem lookupsOfProcess_eq_none {e : Element} {p : Pass}
    (h : ∀ c, p.constructions.get? e.id = some c → c.outcome?.isSome ∨ p.released = true) :
    lookupsOfProcess e p = .none := by
  obtain ⟨id, tag, attributes, children, base⟩ := e
  rw [lookupsOfProcess]
  cases hc : p.constructions.get? id with
  | none => rfl
  | some c => simp only [Bool.or_eq_true, if_pos (h c hc)]

/-- Any other one goes through its phases. -/
theorem lookupsOfProcess_run {e : Element} {p : Pass} {c : Construction}
    (hc : p.constructions.get? e.id = some c) (ho : c.outcome? = none) (hr : p.released = false) :
    lookupsOfProcess e p = lookupsOfAttributes c p ++
      match Hook.exec (compileAttributes c) p with
      | (.ok _, q) => lookupsOfVisit e.id e.children q
      | (.error _, _) => .none := by
  obtain ⟨id, tag, attributes, children, base⟩ := e
  rw [lookupsOfProcess, hc]
  simp only [ho, hr, Option.isSome_none, Bool.or_self, Bool.false_eq_true, if_false]

namespace KeptBySteps

variable {R : Pass → Lookups → Pass → Prop} (hR : KeptBySteps R)
include hR

mutual

/-- **What every step keeps is kept by processing an element,** with the look-ups below it. -/
theorem process : ∀ (e : Element) (p : Pass), R p (lookupsOfProcess e p) (process e p).2
  | ⟨id, tag, attributes, children, base⟩, p => by
    cases hc : p.constructions.get? id with
    | none =>
      rw [process_absent hc, lookupsOfProcess_eq_none fun c hc' => by rw [hc] at hc'; cases hc']
      exact hR.refl p
    | some c =>
      cases ho : c.outcome? with
      | some outcome =>
        rw [process_settled hc ho, lookupsOfProcess_eq_none fun c' hc' => ?_]
        · exact hR.refl p
        · -- settled: there is nothing left to look up
          rw [hc] at hc'
          cases hc'
          exact .inl (by rw [ho]; rfl)
      | none =>
        cases hr : p.released with
        | true =>
          rw [process_released hc ho hr, lookupsOfProcess_eq_none fun _ _ => .inr hr]
          exact hR.settle p id _
        | false =>
          rw [process_run hc ho hr, lookupsOfProcess_run hc ho hr, phases, Hook.exec_bind]
          have hattributes := hR.compileAttributes c p
          rcases hrun : Hook.exec (ObjectMarkup.compileAttributes c) p with ⟨stop | u, q⟩
          all_goals rw [hrun] at hattributes
          · -- the compile of the attributes was stopped, so there is nothing more
            exact hR.before (hR.trans hattributes (hR.refl q)) (hR.settle q id _)
          · -- the attributes have ended, so the children come, and after them the value
            have hvisited := hR.trans hattributes (visit id children q)
            simp only [Hook.exec_bind]
            rcases hvisit : Hook.exec (ObjectMarkup.visit id children) q with ⟨stop | u', r⟩
            all_goals rw [hvisit] at hvisited
            · exact hR.before hvisited (hR.settle r id _)
            · exact hR.before (hR.before hvisited (hR.build c r)) (hR.settle _ id _)

theorem visit (parent : NodeId) : ∀ (children : List Element) (p : Pass),
    R p (lookupsOfVisit parent children p) (Hook.exec (visit parent children) p).2
  | [], p => hR.refl p
  | child :: rest, p => by
    rw [exec_visit_cons, lookupsOfVisit]
    cases hl : p.lookup child with
    | error stop =>
      -- a panic ends the visit, and an unknown child is reported
      rw [Pass.lookupOf_error hl]
      cases stop with
      | panic x => exact hR.refl p
      | error e => exact hR.trans (hR.report p _) (visit parent rest _)
    | ok found =>
      obtain ⟨c, q⟩ := found
      have hlookup := hR.lookup hl
      -- the order in a visit: look-up, handing down, processing, report, adoption
      have hknown : child.id ∈ q.constructions.keys :=
        (OrderedMap.mem_keys_iff _ _).mpr (by rw [get?_of_lookup hl]; rfl)
      -- the child is known from its look-up on, so it is when it is adopted
      have hhanded := hR.handDown q parent child.id
      have hprocess := hR.after hhanded (process child (q.handDown parent child.id))
      let run := ObjectMarkup.process child (q.handDown parent child.id)
      have hreport := hR.before hprocess (hR.reportOutcome child run.1 run.2)
      have hfound := hR.before hreport (hR.adopt _ parent (hR.mem_keys hreport hknown))
      exact hR.trans hlookup (hR.trans hfound (visit parent rest _))

end

end KeptBySteps

theorem keptBySteps_proceeds : KeptBySteps Pass.Proceeds where
  refl := .refl
  trans := .trans
  mem_keys h := h.mem_keys
  lookup := Pass.proceeds_lookup
  coercion := Pass.proceeds_coercion
  coerce := proceeds_coerce
  leave := proceeds_leave
  setValue := proceeds_setValue
  assignTo := proceeds_assignTo
  report := proceeds_report
  settle := proceeds_settle
  adopt p parent _ h := proceeds_adopt p parent h

/-- **Processing an element goes on with its look-ups.** -/
theorem proceeds_process (e : Element) (p : Pass) :
    p.Proceeds (lookupsOfProcess e p) (process e p).2 :=
  keptBySteps_proceeds.process e p

end ObjectMarkup
