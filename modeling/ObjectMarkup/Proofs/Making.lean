import ObjectMarkup.Proofs.Evaluation
import ObjectMarkup.Proofs.References

/-!
# What the built-in kinds do to records

No built-in kind looks into a record. An attribute is given a value that was there before, or a
constructor is called for it, which may do anything (`Reading.hooks_cases`). An element that is
built does one thing to the store (`exec_build_made`): a scalar that has a record for its value
modifies that record, any other scalar does nothing, and all other elements make one record, with
everything in it at once (`Rule.record`). That properties are set and children pushed one after the
other cannot be told from making the record as it is in the end, since the changes are all to the
record that was made last (`Store.modify_make`).

So whatever is to be said of records for the built-in kinds has to be checked for three things:
calling a constructor, making a record out of values that are known, and writing the attributes of a
scalar into its value.
-/

namespace ObjectMarkup

open Markup (Element NodeId)

/-! ### Changing one record -/

namespace Store

/-- Stores with the same records are the same, if constructors keep the same in them. -/
theorem ext_get {s t : Store} (hmemory : s.memory = t.memory) (hsize : s.size = t.size)
    (hget : ∀ id < s.size, s.get id = t.get id) : s = t := by
  obtain ⟨records, memory⟩ := s
  obtain ⟨records', memory'⟩ := t
  have hrecords : records = records' := by
    refine Array.ext hsize fun i hi hi' => ?_
    have hsame := hget i hi
    simpa only [get, Array.getElem?_eq_getElem hi, Array.getElem?_eq_getElem hi',
      Option.getD_some] using hsame
  exact congrArg₂ Store.mk hrecords hmemory

theorem get_modify {s : Store} {id : RecordId} (h : id < s.size) (other : RecordId)
    (f : Record → Record) :
    (s.modify id f).get other = if other = id then f (s.get id) else s.get other := by
  by_cases heq : other = id
  · rw [if_pos heq, heq, get_modify_self h]
  · rw [if_neg heq, get_modify_of_ne s heq]

theorem get_make {s : Store} {r : Record} {id : RecordId} (h : id < s.size + 1) :
    (s.make r).2.get id = if id = s.size then r else s.get id := by
  by_cases heq : id = s.size
  · rw [if_pos heq, heq]
    exact get_make_self s r
  · rw [if_neg heq, get_make_of_lt (Nat.lt_of_le_of_ne (Nat.le_of_lt_succ h) heq)]

/-- A change of a record that is not there. -/
theorem modify_of_le {s : Store} {id : RecordId} (h : s.size ≤ id) (f : Record → Record) :
    s.modify id f = s := by
  refine ext_get rfl (size_modify s id f) fun other hother => ?_
  rw [size_modify] at hother
  exact get_modify_of_ne s (Nat.ne_of_lt (Nat.lt_of_lt_of_le hother h)) f

theorem modify_id (s : Store) (id : RecordId) : s.modify id (fun r => r) = s := by
  by_cases h : id < s.size
  · refine ext_get rfl (size_modify s id _) fun other _ => ?_
    rw [get_modify h]
    split
    · next heq => rw [heq]
    · rfl
  · exact modify_of_le (Nat.le_of_not_lt h) _

theorem modify_modify (s : Store) (id : RecordId) (f g : Record → Record) :
    (s.modify id f).modify id g = s.modify id fun r => g (f r) := by
  by_cases h : id < s.size
  · refine ext_get rfl (by simp only [size_modify]) fun other _ => ?_
    rw [get_modify ((size_modify s id f).symm ▸ h), get_modify h, get_modify h, get_modify h]
    split
    · rw [if_pos rfl]
    · rfl
  · have h := Nat.le_of_not_lt h
    rw [modify_of_le h, modify_of_le h, modify_of_le h]

/-- A record that was made last can just as well be made as it is changed to be. -/
theorem modify_make (s : Store) (r : Record) (f : Record → Record) :
    (s.make r).2.modify s.size f = (s.make (f r)).2 := by
  have hlast : s.size < (s.make r).2.size := by rw [size_make]; exact Nat.lt_succ_self _
  refine ext_get rfl (by simp only [size_modify, size_make]) fun other hother => ?_
  rw [size_modify, size_make] at hother
  rw [get_modify hlast, get_make hother, get_make hother, get_make (Nat.lt_succ_self _), if_pos rfl]
  split <;> rfl

/-- Changes of one record, one after the other. -/
theorem foldl_modify {α : Type} (id : RecordId) (f : Record → α → Record) (l : List α) (s : Store) :
    l.foldl (fun s a => s.modify id fun r => f r a) s = s.modify id fun r => l.foldl f r := by
  induction l generalizing s with
  | nil => exact (modify_id s id).symm
  | cons a rest ih => rw [List.foldl_cons, ih, modify_modify]; rfl

end Store

/-! ### Records as they are put together -/

namespace Record

/-- Sets a property to one of the values, if there is one. -/
def setFrom (values : OrderedMap String Value) (r : Record) (property : String × String) : Record :=
  match values.get? property.2 with
  | some v => r.set property.1 v
  | none => r

/-- Sets properties to those of the values that there are. -/
def setAll (values : OrderedMap String Value) (properties : List (String × String)) (r : Record) :
    Record :=
  properties.foldl (setFrom values) r

/-- Adds the result of a child to a generic record. -/
def gather (r : Record) (child : ChildView) : Record :=
  match child.result? with
  | none => r
  | some result =>
    match child.node.attribute? "name", result.isRecord with
    | some name, false => r.set name result
    | _, _ => r.push result

end Record

/-- Properties of one record that are set in the store are set in the record. -/
theorem Store.foldl_setFrom (values : OrderedMap String Value) (id : RecordId)
    (properties : List (String × String)) (s : Store) :
    properties.foldl (Store.setFrom values id) s = s.modify id (Record.setAll values properties) := by
  -- setting a property from a value is one change of the record, and none if there is no such value
  have hstep : Store.setFrom values id
      = fun s property => s.modify id fun r => r.setFrom values property := by
    funext s property
    unfold Store.setFrom Record.setFrom
    cases values.get? property.2 with
    | none => exact (Store.modify_id s id).symm
    | some v => rfl
  rw [hstep]
  exact Store.foldl_modify id _ properties s

theorem Store.foldl_gather (id : RecordId) (views : List ChildView) (s : Store) :
    views.foldl (Kind.gather id) s = s.modify id fun r => views.foldl Record.gather r := by
  -- whatever a child contributes, it contributes to this record alone
  have hstep : Kind.gather id = fun s child => s.modify id fun r => r.gather child := by
    funext s child
    unfold Kind.gather Record.gather
    cases child.result? with
    | none => exact (Store.modify_id s id).symm
    | some result =>
      simp only
      cases child.node.attribute? "name" with
      | none => rfl
      | some name => cases result.isRecord <;> rfl
  rw [hstep]
  exact Store.foldl_modify id _ views s

theorem Store.foldl_push (id : RecordId) (items : List Value) (s : Store) :
    items.foldl (fun s v => s.push id v) s = s.modify id fun r => items.foldl Record.push r :=
  Store.foldl_modify id Record.push items s

/-- The attributes of a scalar that are written into its value. -/
def scalarProperties : List (String × String) :=
  [("name", "name"), ("type", "type"), ("value", "value")]

/-- What is written into the value of a scalar, if that is a record. -/
def Record.scalar (values : OrderedMap String Value) (r : Record) : Record :=
  r.setAll values scalarProperties

/-- The properties that are assigned, under the names of their attributes. -/
def assignedProperties (schema : Schema) : List (String × String) :=
  (Schema.assignedNames schema).map fun name => (name, name)

/-- The properties of what can be shown, each with the attribute that it is taken from. -/
def shownProperties (schema : Schema) : List (String × String) :=
  assignedProperties schema ++ Kind.displayShorthands

theorem setAll_shown (values : OrderedMap String Value) (schema : Schema) (r : Record) :
    r.setAll values (shownProperties schema)
      = (r.setAll values (assignedProperties schema)).setAll values Kind.displayShorthands :=
  List.foldl_append

namespace Rule

/-- **The record of an element,** put together from the values of its attributes and from its
children. -/
def record (e : Element) (values : OrderedMap String Value) (views : List ChildView) :
    Rule → Record
  | .data | .object => views.foldl Record.gather ⟨e.tag, values, []⟩
  | .container =>
    ((views.filterMap ChildView.result?).filter Value.isRecord).foldl Record.push
      (Record.setAll values (shownProperties Kind.displaySchema) { className := e.tag })
  | .shape => Record.setAll values (shownProperties Kind.displaySchema) { className := e.tag }
  | .bitmap =>
    Record.setAll values (shownProperties (Schema.define Kind.displaySchema "src" "image"))
      { className := e.tag }

/-- **What an element is built to,** and what becomes of the records. -/
def made (e : Element) (values : OrderedMap String Value) (views : List ChildView) (s : Store) :
    Rule → Value × Store
  | .data =>
    match values.get? "value" with
    | some (.record id) => (.record id, s.modify id (Record.scalar values))
    | some v => (v, s)
    | none => (.null, s)
  | r => (.record s.size, (s.make (r.record e values views)).2)

theorem made_of_ne_data {r : Rule} (h : r ≠ .data) (e : Element) (values : OrderedMap String Value)
    (views : List ChildView) (s : Store) :
    r.made e values views s = (.record s.size, (s.make (r.record e values views)).2) := by
  cases r with
  | data => exact absurd rfl h
  | _ => rfl

end Rule

/-! ### What is looked at -/

/-- The values of attributes are looked up by their names, so their order does not count. -/
theorem Record.setAll_congr {values values' : OrderedMap String Value}
    (h : ∀ name, values'.get? name = values.get? name) : setAll values' = setAll values := by
  have hset : setFrom values' = setFrom values := by
    funext r property
    rw [setFrom, setFrom, h]
  funext properties r
  rw [setAll, setAll, hset]

/-- What an element looks at in a child: its name, and its result. -/
def ChildView.seen (view : ChildView) : Option String × Option Value :=
  (view.node.attribute? "name", view.result?)

theorem Record.gather_of_seen {view view' : ChildView} (h : view'.seen = view.seen) (r : Record) :
    r.gather view' = r.gather view := by
  obtain ⟨hname, hresult⟩ := Prod.mk.inj h
  rw [gather, gather, hname, hresult]

theorem Record.foldl_gather_of_seen : ∀ {views views' : List ChildView},
    views'.map ChildView.seen = views.map ChildView.seen →
      ∀ r : Record, views'.foldl gather r = views.foldl gather r
  | [], [], _, _ => rfl
  | view :: rest, view' :: rest', h, r => by
    obtain ⟨hview, hrest⟩ := List.cons.inj h
    rw [List.foldl_cons, List.foldl_cons, gather_of_seen hview, foldl_gather_of_seen hrest]

/-- The results of children are all that is looked at beside their names. -/
theorem ChildView.results_of_seen {views views' : List ChildView}
    (h : views'.map seen = views.map seen) :
    views'.filterMap result? = views.filterMap result? := by
  have hresults : ∀ views : List ChildView,
      views.filterMap result? = (views.map seen).filterMap Prod.snd := fun views => by
    rw [List.filterMap_map]
    rfl
  rw [hresults, hresults, h]

/-- **The record of an element** depends on what is looked at in its children. -/
theorem Rule.record_of_seen (r : Rule) (e : Element) (values : OrderedMap String Value)
    {views views' : List ChildView} (h : views'.map ChildView.seen = views.map ChildView.seen) :
    r.record e values views' = r.record e values views := by
  cases r with
  | data => exact Record.foldl_gather_of_seen h _
  | object => exact Record.foldl_gather_of_seen h _
  | shape => rfl
  | bitmap => rfl
  | container => rw [record, ChildView.results_of_seen h, record]

theorem Rule.made_of_seen (r : Rule) (e : Element) (values : OrderedMap String Value)
    {views views' : List ChildView} (h : views'.map ChildView.seen = views.map ChildView.seen)
    (s : Store) : r.made e values views' s = r.made e values views s := by
  by_cases hr : r = .data
  · subst hr
    rfl
  · rw [made_of_ne_data hr, made_of_ne_data hr, record_of_seen r e values h]

/-! ### Passes of the built-in kinds -/

theorem Pass.elementKind_builtin {p : Pass} (h : p.environment.catalog = .builtin) (tag : String) :
    p.environment.catalog.elementKind tag =
      match Rule.ofTag? tag with
      | some r => .ok r.kind
      | none => .error (.unresolved .tag tag) := by
  rw [h]
  refine (elementKind_eq_kind tag).trans ?_
  cases Rule.ofTag? tag <;> rfl

/-- Looking an element up makes a construction by the rule of its tag. -/
theorem Pass.lookup_builtin {p : Pass} (h : p.environment.catalog = .builtin) {e : Element}
    (hnone : p.constructions.get? e.id = none) :
    p.lookup e =
      match Rule.ofTag? e.tag with
      | none => .error (.error (.unresolved .tag e.tag))
      | some r => .ok (r.start e, p.start r e) := by
  rw [Pass.lookup, hnone]
  simp only [Pass.elementKind_builtin h]
  cases Rule.ofTag? e.tag with
  | none => rfl
  -- the rules declare without panicking, so the look-up makes the construction
  | some r =>
    simp only [r.define_kind]
    rfl

/-- A pass of the built-in kinds. -/
structure Pass.Builtin (p : Pass) : Prop where
  sound : p.Sound
  catalog : p.environment.catalog = .builtin
  released : p.released = false

/-- Nothing is handed down if the parent forwards no attribute. -/
theorem Pass.handDown_eq_self {p : Pass} {parent child : NodeId}
    (h : ∀ c, p.constructions.get? parent = some c → c.schema.forwardedNames = []) :
    p.handDown parent child = p := by
  unfold Pass.handDown
  cases hc : p.constructions.get? parent with
  | none => rfl
  | some c => simp only [h c hc, List.foldl_nil]

namespace Pass.Builtin

variable {p q : Pass}

theorem lead {ids : List NodeId} (h : p.Builtin) (hq : p.Leads ids q) : q.Builtin :=
  ⟨(hq h.sound).1, (congrArg Environment.catalog (hq h.sound).2.environment).trans h.catalog,
    (hq h.sound).2.released.trans h.released⟩

/-- What is known of an element follows the rule of its tag. -/
theorem rule (h : p.Builtin) {id : NodeId} {c : Construction}
    (hc : p.constructions.get? id = some c) :
    ∃ r, Rule.ofTag? c.node.tag = some r ∧ c.kind = r.kind ∧ c.schema = r.schema c.node := by
  obtain ⟨-, hkind, hschema⟩ := h.sound.constructions id c hc
  rw [Pass.elementKind_builtin h.catalog] at hkind
  cases hr : Rule.ofTag? c.node.tag with
  -- a construction was made by a look-up, and that has found a kind for the tag
  | none => rw [hr] at hkind; cases hkind
  | some r =>
    rw [hr] at hkind
    have hkind : c.kind = r.kind := (Except.ok.inj hkind).symm
    rw [hkind, r.define_kind] at hschema
    exact ⟨r, rfl, hkind, (Except.ok.inj hschema).symm⟩

/-- No attribute is forwarded. -/
theorem forwards (h : p.Builtin) {id : NodeId} {c : Construction}
    (hc : p.constructions.get? id = some c) : c.schema.forwardedNames = [] := by
  obtain ⟨r, -, -, hschema⟩ := h.rule hc
  rw [hschema]
  exact Schema.forwardedNames_eq_nil (Schema.keeps_schema r c.node)

/-- Nothing is handed down. -/
theorem handDown (h : p.Builtin) (parent child : NodeId) : p.handDown parent child = p :=
  Pass.handDown_eq_self fun _ => h.forwards

/-- A visit to a child that was looked up: what it comes to is reported. -/
theorem visitFound_eq (h : p.Builtin) (parent : NodeId) (child : Element) :
    ObjectMarkup.visitFound parent child p = ((process child p).2.reportOutcome child
      (process child p).1).adopt parent child.id := by
  rw [ObjectMarkup.visitFound, h.handDown]

theorem visitFound (h : p.Builtin) (parent : NodeId) (child : Element) :
    (ObjectMarkup.visitFound parent child p).Builtin := by
  rw [h.visitFound_eq]
  have hchild := h.lead (leads_process child p)
  exact (hchild.lead (leads_reportOutcome [] _ child _)).lead (Pass.leads_adopt _ parent child.id)

end Pass.Builtin

/-! ### Values of attributes -/

/-- The namespace has a constructor of this make. -/
def Namespace.Offers (n : Namespace) (maker : Maker Value) : Prop :=
  ∃ path name, n.reflect path = .ok (.constructor name maker)

/-- A value that the namespace has at a path, or that one of its constructors has captured. -/
def Namespace.Provides (n : Namespace) (v : Value) : Prop :=
  (∃ path, n.reflect path = .ok v) ∨ ∃ maker, n.Offers maker ∧ v ∈ maker.captured

/-- A hook that leaves the store alone and always ends so. -/
def Hook.Ends {ε α : Type} (h : Hook Store ε α) (ending : Except ε α) : Prop :=
  ∀ s, Hook.exec h s = (ending, s)

/-- A hook that calls a constructor and ends as the call does. -/
def Hook.Asks (h : Hook Store Stop Value) (call : Store → Except Panic Value × Store) : Prop :=
  ∀ s, Hook.exec h s = ((call s).1.mapError Stop.panic, (call s).2)

namespace Reading

/-- A value without records, or one that the namespace has. -/
def Gives (e : Environment) (ending : Except Stop Value) : Prop :=
  ∀ v, ending = .ok v → v.records = [] ∨ ∃ path, e.symbols.reflect path = .ok v

/-- What is read, or else a mismatch. -/
theorem gives_readOrMismatch {e : Environment} {a : AttributeView} {read : Option Value}
    (hread : ∀ v, read = some v → v.Plain) :
    ∃ ending, (Kind.readOrMismatch a read).Ends ending ∧ Gives e ending := by
  cases read with
  | none => exact ⟨_, fun _ => rfl, fun v hv => by cases hv⟩
  | some v =>
    refine ⟨_, fun _ => rfl, fun v' hv => ?_⟩
    cases hv
    exact Or.inl (hread v rfl).records_eq_nil

theorem gives_pure {e : Environment} {v : Value} (hv : v.Plain) :
    ∃ ending, (pure v : Hook Store Stop Value).Ends ending ∧ Gives e ending := by
  refine ⟨.ok v, fun _ => rfl, fun v' h => ?_⟩
  cases h
  exact Or.inl hv.records_eq_nil

theorem asks_call (a : AttributeView) (maker : Maker Value) :
    (Kind.call a maker).Asks (a.calls.run maker) := by
  intro s
  rw [Kind.call, Hook.exec_bind_ok (Hook.exec_modifyGet (a.calls.run maker) s)]
  cases (a.calls.run maker s).1 <;> rfl

theorem construct_symbol {e : Environment} {a : AttributeView} (ha : a.symbols = e.symbols) :
    ∃ ending, (Kind.symbolOf a).Ends ending ∧ Gives e ending := by
  rw [Kind.symbolOf, ha]
  cases hr : e.symbols.reflect (Text.trimmed a.key.value) with
  | error error => exact ⟨_, fun _ => rfl, fun v hv => by cases hv⟩
  | ok v =>
    refine ⟨_, fun _ => rfl, fun v' hv => ?_⟩
    cases hv
    exact Or.inr ⟨_, hr⟩

theorem construct_instance {e : Environment} {a : AttributeView} (ha : a.toWorld = e.toWorld) :
    (∃ ending, (Kind.instanceOf.construct a).Ends ending ∧ Gives e ending) ∨
      ∃ maker, e.symbols.Offers maker ∧ (Kind.instanceOf.construct a).Asks (e.calls.run maker) := by
  have hsymbols : a.symbols = e.symbols := congrArg World.symbols ha
  have hcalls : a.calls = e.calls := congrArg World.calls ha
  simp only [Kind.instanceOf, Kind.symbolOf, hsymbols]
  cases hr : e.symbols.reflect (Text.trimmed a.key.value) with
  | error error => exact Or.inl ⟨_, fun _ => rfl, fun v hv => by cases hv⟩
  | ok v =>
    cases v with
    -- only here code is run that is not the kind's own
    | constructor name maker =>
      exact Or.inr ⟨maker, ⟨_, name, hr⟩, hcalls ▸ asks_call a maker⟩
    | _ => exact Or.inl ⟨_, fun _ => rfl, fun v hv => by cases hv⟩

theorem construct_image (e : Environment) (a : AttributeView) :
    ∃ ending, (Kind.image.construct a).Ends ending ∧ Gives e ending := by
  -- what is loaded is a resource, which has no records
  simp only [Kind.image]
  cases Locator.resolve a.domains a.base (Text.trimmed a.key.value) with
  | error error => exact ⟨_, fun _ => rfl, fun v hv => by cases hv⟩
  | ok url =>
    simp only
    cases a.fetch url with
    | error error => exact ⟨_, fun _ => rfl, fun v hv => by cases hv⟩
    | ok resource =>
      refine ⟨_, fun _ => rfl, fun v hv => ?_⟩
      cases hv
      exact Or.inl rfl

/-- **How the value of an attribute is made.** Either it is given one, or a constructor of the
namespace is called for an instance. -/
theorem construct_cases {e : Environment} (r : Reading) {a : AttributeView}
    (ha : a.toWorld = e.toWorld) :
    (∃ ending, (r.kind.construct a).Ends ending ∧ Gives e ending) ∨
      ∃ maker, r = .instanceOf ∧ e.symbols.Offers maker ∧
        (r.kind.construct a).Asks (e.calls.run maker) := by
  -- five of the six readings give what the text or the namespace has; an instance asks
  cases r with
  | boolean =>
    rw [Reading.kind, Kind.construct_boolean]
    refine Or.inl (gives_readOrMismatch fun v hv => ?_)
    obtain ⟨_, -, rfl⟩ := Option.map_eq_some_iff.mp hv
    exact trivial
  | number =>
    rw [Reading.kind, Kind.construct_number]
    exact Or.inl (gives_readOrMismatch fun _ hv => Evaluator.plain_readNumberAs hv)
  | symbol =>
    rw [Reading.kind, Kind.construct_constructor]
    exact Or.inl (construct_symbol (congrArg World.symbols ha))
  | instanceOf =>
    rcases construct_instance ha with hgives | ⟨maker, hoffers, hasks⟩
    · exact Or.inl hgives
    · exact Or.inr ⟨maker, rfl, hoffers, hasks⟩
  | image =>
    rw [Reading.kind]
    exact Or.inl (construct_image e a)
  | items =>
    rw [Reading.kind, Kind.construct_list]
    exact Or.inl (gives_pure (Evaluator.plain_readItems _))

/-- The other hooks of a built-in kind do nothing. -/
theorem exec_hooks_kind {e : Environment} {k : Coercion} {r : Reading} (hk : k.kind = r.kind)
    (s : Store) : Hook.exec (k.hooks e) s = Hook.exec (r.kind.construct (k.view e)) s := by
  have hbefore : Hook.exec (orStop (pure ()) : Hook Store Stop Unit) s = (.ok (), s) := rfl
  rw [Coercion.hooks, hk, r.before_kind, Hook.exec_bind_ok hbefore, Hook.exec_bind]
  rcases Hook.exec (r.kind.construct (k.view e)) s with ⟨stop | v, s'⟩
  · rfl
  · simp only [r.finish_kind, Hook.exec_pure]

/-- **What an attribute comes to.** -/
theorem hooks_cases (e : Environment) {k : Coercion} {r : Reading} (hk : k.kind = r.kind) :
    (∃ ending, (k.hooks e).Ends ending ∧ Gives e ending) ∨
      ∃ maker, r = .instanceOf ∧ e.symbols.Offers maker ∧
        (k.hooks e).Asks (e.calls.run maker) := by
  rcases construct_cases (e := e) r (a := k.view e) rfl with ⟨ending, hends, hgives⟩ |
    ⟨maker, hr, hoffers, hasks⟩
  · exact Or.inl ⟨ending, fun s => (exec_hooks_kind hk s).trans (hends s), hgives⟩
  · exact Or.inr ⟨maker, hr, hoffers, fun s => (exec_hooks_kind hk s).trans (hasks s)⟩

end Reading

/-! ### Attributes -/

namespace OrderedMap

variable {κ α : Type} [DecidableEq κ]

/-- Putting a value where it is already changes nothing. -/
theorem insert_of_get? {m : OrderedMap κ α} {key : κ} {value : α} (h : m.get? key = some value) :
    m.insert key value = m := by
  -- by induction on the entries: `put` stops at the key, and there the value stands already
  have hput : ∀ l : List (κ × α), l.lookup key = some value → put key value l = l := fun l => by
    induction l with
    | nil => exact fun h => by cases h
    | cons e rest ih =>
      obtain ⟨k, v⟩ := e
      intro h
      rw [List.lookup_cons] at h
      by_cases heq : k = key
      · rw [put, if_pos heq]
        simp only [heq, beq_self_eq_true, Option.some.injEq] at h
        rw [heq, h]
      · have hbeq : (key == k) = false := beq_eq_false_iff_ne.mpr (Ne.symm heq)
        rw [put, if_neg heq]
        rw [hbeq] at h
        rw [ih h]
  exact ext (hput m.entries h)

theorem modify_of_get? {m : OrderedMap κ α} {key : κ} {value : α} (h : m.get? key = some value)
    (f : α → α) : m.modify key f = m.insert key (f value) := by
  rw [modify, h]

theorem modify_eq_self {m : OrderedMap κ α} {key : κ} {f : α → α}
    (h : ∀ value, m.get? key = some value → f value = value) : m.modify key f = m := by
  cases hget : m.get? key with
  | none => rw [modify, hget]
  | some value =>
    rw [modify_of_get? hget, h value hget]
    exact insert_of_get? hget

/-- What is put under a key last is what stays there. -/
theorem insert_insert (m : OrderedMap κ α) (key : κ) (a b : α) :
    (m.insert key a).insert key b = m.insert key b := by
  have hput : ∀ l : List (κ × α), put key b (put key a l) = put key b l := fun l => by
    induction l with
    | nil => simp only [put, if_true]
    | cons e rest ih =>
      obtain ⟨k, v⟩ := e
      by_cases heq : k = key
      · simp only [put, if_pos heq, if_true]
      · simp only [put, if_neg heq, ih]
  exact ext (hput m.entries)

end OrderedMap

/-- The coercion for an attribute of a known type: the one that the pass has, or else a new one. -/
def Pass.coercionFor (p : Pass) (key : AttributeKey) (base : Option Locator) (r : Reading) :
    Coercion :=
  (p.coercions.get? key).getD ⟨key, p.base.or base, r.kind, none⟩

/-- The pass when a coercion was settled. -/
def Pass.answer (p : Pass) (key : AttributeKey) (k : Coercion) (run : Except Stop Value × Store) :
    Pass :=
  { p with
    store := run.2
    coercions := p.coercions.insert key { k with outcome? := some (contain run.1) } }

/-- What an element takes from the outcome of an attribute: a value, or a report. -/
def Pass.take (p : Pass) (e : Element) (name : String) : Outcome Value → Pass
  | .ok value => p.setValue e.id name value
  | .error error => p.report ⟨e.id, e.tag, some name, error⟩

/-- All that a pass knows of attributes is sound. -/
def Pass.SoundAttributes (p : Pass) : Prop :=
  ∀ key k, p.coercions.get? key = some k → k.Sound p.environment p.base key

theorem Pass.attributeKind_builtin {p : Pass} (h : p.environment.catalog = .builtin)
    (type : String) :
    p.environment.catalog.attributeKind type =
      match Reading.ofType? type with
      | some r => .ok r.kind
      | none => .error (.unresolved .type type) := by
  rw [h]
  refine (attributeKind_eq_kind type).trans ?_
  cases Reading.ofType? type <;> rfl

section Attributes

variable {p : Pass} {key : AttributeKey} {k : Coercion}

/-- What is known of an attribute is read as its type says. -/
theorem Pass.reading_of_get? (hcat : p.environment.catalog = .builtin) (hs : p.SoundAttributes)
    (hk : p.coercions.get? key = some k) :
    ∃ r, Reading.ofType? key.type = some r ∧ k.kind = r.kind := by
  have hkind := (hs key k hk).key_kind
  rw [Pass.attributeKind_builtin hcat] at hkind
  cases hr : Reading.ofType? key.type with
  | none => rw [hr] at hkind; cases hkind
  | some r =>
    rw [hr] at hkind
    exact ⟨r, rfl, (Except.ok.inj hkind).symm⟩

/-- The coercion for an attribute is as sound as all that is known. -/
theorem Pass.sound_coercionFor (hcat : p.environment.catalog = .builtin) (hs : p.SoundAttributes)
    {r : Reading} (hr : Reading.ofType? key.type = some r) (base : Option Locator) :
    (p.coercionFor key base r).Sound p.environment p.base key := by
  unfold Pass.coercionFor
  cases hget : p.coercions.get? key with
  | some k => exact hs key k hget
  | none =>
    refine ⟨rfl, ?_, fun b hb => ?_, fun o ho => ?_⟩
    · rw [Pass.attributeKind_builtin hcat, hr]
      rfl
    · rw [Option.getD_none, hb]
      rfl
    · cases ho

/-- It is read as its type says. -/
theorem Pass.kind_coercionFor (hcat : p.environment.catalog = .builtin) (hs : p.SoundAttributes)
    {r : Reading} (hr : Reading.ofType? key.type = some r) (base : Option Locator) :
    (p.coercionFor key base r).kind = r.kind := by
  have hkind := (Pass.sound_coercionFor hcat hs hr base).key_kind
  rw [Pass.attributeKind_builtin hcat, hr] at hkind
  exact (Except.ok.inj hkind).symm

/-- What has an outcome is known. -/
theorem Pass.get?_of_coercionFor {r : Reading} {base : Option Locator} {o : Outcome Value}
    (ho : (p.coercionFor key base r).outcome? = some o) :
    p.coercions.get? key = some (p.coercionFor key base r) := by
  unfold Pass.coercionFor at ho ⊢
  cases hget : p.coercions.get? key with
  | none =>
    rw [hget] at ho
    cases ho
  | some k => rfl

/-- Settling a coercion with what its hooks come to is sound. -/
theorem Pass.SoundAttributes.answer (hs : p.SoundAttributes)
    (hk : k.Sound p.environment p.base key) (s : Store) :
    (p.answer key k (Hook.exec (k.hooks p.environment) s)).SoundAttributes := by
  intro key' k' hget
  rw [Pass.answer, OrderedMap.get?_insert] at hget
  split at hget
  · next heq =>
    cases hget
    subst heq
    exact ⟨hk.key, hk.key_kind, hk.key_base, fun o ho => ⟨s, (Option.some.inj ho).symm⟩⟩
  · exact hs key' k' hget

theorem Reading.mild_kind (r : Reading) : r.kind.Mild := by
  cases r with
  | boolean => exact Kind.mild_boolean
  | number => exact Kind.mild_number
  | symbol => exact Kind.mild_constructor
  | instanceOf => exact Kind.mild_instanceOf
  | image => exact Kind.mild_image
  | items => exact Kind.mild_list

/-- The coercion of an attribute, settled by now. -/
theorem coerce_builtin {r : Reading} (hkey : k.key = key) (hk : p.coercions.get? key = some k)
    (hkind : k.kind = r.kind)
    (hs : ∀ o, k.outcome? = some o →
      ∃ s : Store, o = contain (Hook.exec (k.hooks p.environment) s).1) :
    ∃ calls, p.coerce k =
        (match k.outcome? with
        | some o => (o, p)
        | none =>
          (contain (Hook.exec (k.hooks p.environment) p.store).1,
            { p.answer key k (Hook.exec (k.hooks p.environment) p.store) with calls := calls })) ∧
      ∀ e, (p.coerce k).1 = .error e → e.isFatal = false := by
  -- the kind is a built-in one, whose hooks do not fail for good
  have hmild : k.kind.Mild := hkind ▸ r.mild_kind
  have hcurrent : p.currentCoercion k = k := by rw [Pass.currentCoercion, hkey, hk, Option.getD_some]
  obtain ⟨calls, hmake⟩ := exec_makeValue k p
  refine ⟨calls, ?_⟩
  rw [Pass.coerce_eq, hcurrent]
  cases ho : k.outcome? with
  -- settled before: that outcome came of the same hooks, on some store
  | some o =>
    refine ⟨rfl, fun e he => ?_⟩
    obtain ⟨s, hsettled⟩ := hs o ho
    exact not_isFatal_of_hooks hmild (hsettled.symm.trans he)
  | none =>
    simp only [hmake]
    refine ⟨?_, fun e he => not_isFatal_of_hooks hmild he⟩
    rw [Pass.settleCoercion, hkey, OrderedMap.modify_of_get? hk]
    rfl

/-- An outcome is taken, since its error is not fatal. -/
theorem exec_take (c : Construction) (name : String) (q : Pass) (o : Outcome Value)
    (hfatal : ∀ e, o = .error e → e.isFatal = false) :
    (match ((o, q) : Outcome Value × Pass) with
      | (.ok value, q) => ((.ok (), q.setValue c.node.id name value) : Except Stop Unit × Pass)
      | (.error e, q) =>
        if e.isFatal then (.error (.error e), q)
        else (.ok (), q.report ⟨c.node.id, c.node.tag, some name, e⟩))
      = (.ok (), q.take c.node name o) := by
  cases o with
  | ok value => rfl
  | error e => simp only [hfatal e rfl, Bool.false_eq_true, if_false, Pass.take]

/-- **What compiling an attribute does,** with the built-in kinds. A string is taken as it is
written. Of any other attribute the outcome is taken that its coercion has, or else has come to. -/
theorem exec_compileAttribute_builtin (hcat : p.environment.catalog = .builtin)
    (hs : p.SoundAttributes) (c : Construction) (name raw : String) :
    ∃ calls, Hook.exec (compileAttribute c name raw) p = (.ok (),
      if c.schema.typeOf name = "string" then p.setValue c.node.id name (.string raw)
      else
        let key := AttributeKey.ofType name (c.schema.typeOf name) raw
        match Reading.ofType? key.type with
        | none => p.report ⟨c.node.id, c.node.tag, some name, .unresolved .type key.type⟩
        | some r =>
          let k := p.coercionFor key c.node.base r
          match k.outcome? with
          | some o => p.take c.node name o
          | none =>
            let run := Hook.exec (k.hooks p.environment) p.store
            { p.answer key k run with calls := calls }.take c.node name (contain run.1)) := by
  rw [exec_compileAttribute]
  by_cases hstring : c.schema.typeOf name = "string"
  · -- a string is not compiled, so no hook is called
    exact ⟨[], by rw [if_pos hstring, if_pos hstring]⟩
  · simp only [if_neg hstring, Pass.coercion]
    generalize hkey : AttributeKey.ofType name (c.schema.typeOf name) raw = key
    cases hget : p.coercions.get? key with
    | some k =>
      -- the coercion is there, and what it carries is what a new one would carry
      obtain ⟨r, hr, hkind⟩ := Pass.reading_of_get? hcat hs hget
      obtain ⟨calls, hcoerce, hfatal⟩ :=
        coerce_builtin (hs key k hget).key hget hkind (hs key k hget).settled
      refine ⟨calls, ?_⟩
      rw [hcoerce] at hfatal
      simp only [hr, Pass.coercionFor, hget, Option.getD_some, hcoerce]
      cases ho : k.outcome? with
      | some o =>
        rw [ho] at hfatal
        exact exec_take c name p o hfatal
      | none =>
        rw [ho] at hfatal
        exact exec_take c name _ _ hfatal
    | none =>
      simp only [Pass.attributeKind_builtin hcat]
      cases hr : Reading.ofType? key.type with
      | none => exact ⟨[], rfl⟩
      | some r =>
        simp only [Pass.coercionFor, hget, Option.getD_none]
        -- the coercion is new, and so it is open when its hooks are run
        generalize hk : (⟨key, p.base.or c.node.base, r.kind, none⟩ : Coercion) = k
        have hkey : k.key = key := hk ▸ rfl
        have hopen : k.outcome? = none := hk ▸ rfl
        obtain ⟨calls, hcoerce, hfatal⟩ := coerce_builtin (r := r)
          (p := { p with coercions := p.coercions.insert key k }) hkey
          (OrderedMap.get?_insert_self _ _ _) (hk ▸ rfl) fun o ho => by rw [hopen] at ho; cases ho
        refine ⟨calls, ?_⟩
        rw [hcoerce, hopen] at hfatal
        simp only [hcoerce, hopen, Pass.answer, OrderedMap.insert_insert]
        exact exec_take c name _ _ hfatal

end Attributes

/-! ### The work on an element -/

/-- Giving an element the values that it has changes nothing. -/
theorem Pass.setValues_values (p : Pass) (id : NodeId) : p.setValues id (p.values id) = p := by
  have hsame : p.constructions.modify id (fun c => { c with values := p.values id })
      = p.constructions := by
    refine OrderedMap.modify_eq_self fun c hc => ?_
    rw [Pass.values, hc]
  rw [Pass.setValues, Pass.modifyConstruction, hsame]

/-- A hook that only changes the records. -/
theorem Pass.leave_values (p : Pass) (c : Construction) (hook : ElementHook) (s : Store) :
    p.leave c hook ⟨s, p.values c.node.id⟩
      = { p.remember (.element hook c.node.id c.node.tag) c.kind.noted with store := s } :=
  Pass.setValues_values
    { p.remember (.element hook c.node.id c.node.tag) c.kind.noted with store := s } c.node.id

/-- The pass when a hook was called that has changed nothing. -/
def Pass.pass (p : Pass) (c : Construction) (hook : ElementHook) : Pass :=
  p.remember (.element hook c.node.id c.node.tag) c.kind.noted

/-- The pass when an element was built, with the records as they are then. -/
def Pass.built (p : Pass) (c : Construction) (s : Store) : Pass :=
  { (p.pass c .construct).pass c .finish with store := s }

section Build

variable {p : Pass} {c : Construction}

theorem Pass.values_congr {q : Pass} (h : q.constructions = p.constructions) (id : NodeId) :
    q.values id = p.values id := by
  rw [Pass.values, Pass.values, h]

theorem Pass.childViews_congr {q : Pass} (h : q.constructions = p.constructions) (id : NodeId) :
    q.childViews id = p.childViews id := by
  rw [Pass.childViews, Pass.childViews, Pass.children, Pass.children, h]

/-- What is known of the children of an element changes as what is known of each element does. -/
theorem Pass.children_map {q : Pass} {f : Construction → Construction}
    (hget : ∀ id, q.constructions.get? id = (p.constructions.get? id).map f)
    (hf : ∀ c, (f c).children = c.children) (id : NodeId) :
    q.children id = (p.children id).map f := by
  unfold Pass.children
  rw [hget]
  cases p.constructions.get? id with
  | none => rfl
  | some c =>
    show (f c).children.filterMap q.constructions.get? = _
    rw [hf, List.map_filterMap]
    exact congrArg (List.filterMap · c.children) (funext hget)

/-- What is assigned to a record is set in it. -/
theorem assign_eq (p : Pass) (c : Construction) (id : RecordId) :
    p.assign c id = { p with
      store := p.store.modify id (Record.setAll (p.values c.node.id) (assignedProperties c.schema)) }
    := by
  rw [← Store.foldl_setFrom, assignedProperties, List.foldl_map, Pass.assign]
  rfl

/-- **A record that is made and modified** by the hooks of its element. -/
theorem exec_build_record {r : Record} {f : OrderedMap String Value → List ChildView → Record → Record}
    (hconstruct : Hook.exec (c.kind.construct (p.view c)) (p.bench c)
      = (.ok (.record p.store.size), ⟨(p.store.make r).2, p.values c.node.id⟩))
    (hfinish : ∀ view (bench : Bench),
      Hook.exec (c.kind.finish view (.record p.store.size)) bench
        = (.ok (.record p.store.size),
          ⟨bench.store.modify p.store.size (f bench.values view.children), bench.values⟩)) :
    Hook.exec (build c) p
      = (.ok (.record p.store.size), p.built c (p.store.make
          (f (p.values c.node.id) (p.childViews c.node.id)
            (r.setAll (p.values c.node.id) (assignedProperties c.schema)))).2) := by
  rw [exec_build, hconstruct]
  simp only [hfinish, Pass.leave_values, Pass.assignTo, assign_eq, Pass.bench]
  -- the values and the children are seen as they were before the record was made
  have hvalues : ∀ s calls, ({ p with store := s, calls := calls } : Pass).values c.node.id
      = p.values c.node.id := fun _ _ => Pass.values_congr rfl _
  have hviews : ∀ s calls, (({ p with store := s, calls := calls } : Pass).view c).children
      = p.childViews c.node.id := fun _ _ => Pass.childViews_congr rfl _
  simp only [Pass.remember, hvalues, hviews, Store.modify_make]
  rfl

/-- **A scalar** has the value of an attribute, into which the attributes are written if it is a
record. -/
theorem exec_build_data (hkind : c.kind = Kind.data) (hschema : c.schema = Rule.schema c.node .data) :
    Hook.exec (build c) p
      = (.ok (Rule.data.made c.node (p.values c.node.id) (p.childViews c.node.id) p.store).1,
        p.built c
          (Rule.data.made c.node (p.values c.node.id) (p.childViews c.node.id) p.store).2) := by
  -- no record is made: the value is that of the attribute, into which the others are written
  have hconstruct : Hook.exec (c.kind.construct (p.view c)) (p.bench c)
      = (.ok (((p.values c.node.id).get? "value").getD .null), ⟨p.store, p.values c.node.id⟩) := by
    rw [hkind]
    rfl
  have hfinish : ∀ view v (bench : Bench), Hook.exec (c.kind.finish view v) bench
      = (.ok v, bench) := by
    rw [hkind]
    exact fun _ _ _ => rfl
  have hassigned : assignedProperties c.schema = scalarProperties := by rw [hschema]; rfl
  have hvalues : ∀ s calls, ({ p with store := s, calls := calls } : Pass).values c.node.id
      = p.values c.node.id := fun _ _ => Pass.values_congr rfl _
  rw [exec_build, hconstruct]
  simp only [hfinish, Pass.leave_values, Rule.made]
  -- only a record is written into
  cases hv : (p.values c.node.id).get? "value" with
  | none =>
    simp only [Option.getD_none, Pass.assignTo, Pass.bench, Pass.leave_values]
    rfl
  | some v =>
    cases v with
    | record id =>
      simp only [Option.getD_some, Pass.assignTo, assign_eq, hassigned, Pass.bench,
        Pass.leave_values]
      simp only [Pass.remember, hvalues]
      rfl
    | _ =>
      simp only [Option.getD_some, Pass.assignTo, Pass.bench, Pass.leave_values]
      rfl

/-- **What building does.** The value of the element is made by the rule of its tag, and so are the
changes of the records; nothing else changes but that the hooks were called. -/
theorem exec_build_made {r : Rule} (hkind : c.kind = r.kind) (hschema : c.schema = r.schema c.node) :
    Hook.exec (build c) p
      = (.ok (r.made c.node (p.values c.node.id) (p.childViews c.node.id) p.store).1,
        p.built c (r.made c.node (p.values c.node.id) (p.childViews c.node.id) p.store).2) := by
  -- the rules differ in what the last hook adds to the new record
  cases r with
  | data => exact exec_build_data hkind hschema
  | object =>
    have hassigned : assignedProperties c.schema = [] := by rw [hschema]; rfl
    rw [exec_build_record (r := ⟨c.node.tag, p.values c.node.id, []⟩)
      (f := fun _ views r => views.foldl Record.gather r) (by rw [hkind]; rfl) ?_, hassigned]
    · rfl
    · intro view bench
      rw [hkind, ← Store.foldl_gather]
      rfl
  | container =>
    rw [exec_build_record (r := { className := c.node.tag })
      (f := fun values views r =>
        ((views.filterMap ChildView.result?).filter Value.isRecord).foldl Record.push
          (r.setAll values Kind.displayShorthands)) (by rw [hkind]; rfl) ?_, hschema]
    · rw [Rule.made_of_ne_data (by decide), Rule.record, setAll_shown]
      rfl
    · intro view bench
      -- the shorthands come before the children, and both are changes of one record
      have hstore := Store.foldl_push p.store.size
        ((view.children.filterMap ChildView.result?).filter Value.isRecord)
        (Kind.displayShorthands.foldl (Store.setFrom bench.values p.store.size) bench.store)
      rw [Store.foldl_setFrom, Store.modify_modify, ← Store.foldl_setFrom] at hstore
      rw [hkind, ← hstore]
      rfl
  | shape | bitmap =>
    rw [exec_build_record (r := { className := c.node.tag })
      (f := fun values _ r => r.setAll values Kind.displayShorthands) (by rw [hkind]; rfl) ?_,
      hschema]
    · rw [Rule.made_of_ne_data (by decide), Rule.record, setAll_shown]
      rfl
    · intro view bench
      rw [hkind, ← Store.foldl_setFrom]
      rfl

end Build

end ObjectMarkup
