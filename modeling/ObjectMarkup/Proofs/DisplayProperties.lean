import ObjectMarkup.Proofs.AttributeOrder
import ObjectMarkup.Proofs.Insertions
import ObjectMarkup.Proofs.Names

/-!
# Properties of what can be shown

The record of a container, a shape or a bitmap gets its properties in two rounds: the declared names
in the order of the schema, and then the shorthands, which overwrite some of the first or are put
behind them. Both rounds together are one insertion of a list into a map (`Record.setAll_eq`), so a
property is the first that has compiled among the attributes it can be taken from, the later ones in
the list before the earlier ones (`Record.get?_setAll`). For the schemas that there are this is a
table of two dozen names, which is read off by evaluation (`Rule.sources_eq`).

The values that are looked up are what the attributes have come to (`Pass.compiled?`), in whatever
order they are written (`process_reordered`). `process_displays` puts this together.
-/

namespace ObjectMarkup

open Markup (Element NodeId)

/-! ### Lists of properties -/

/-- The entries for the properties that have a value. -/
def found (value? : String → Option Value) (properties : List (String × String)) :
    List (String × Value) :=
  properties.filterMap fun property => (value? property.2).map (property.1, ·)

/-- The attributes that a property can be taken from, the one that counts most first. -/
def sourcesOf (properties : List (String × String)) (name : String) : List String :=
  (properties.reverse.filter (·.1 == name)).map Prod.snd

theorem found_cons (value? : String → Option Value) (target source : String)
    (rest : List (String × String)) : found value? ((target, source) :: rest) =
      match value? source with
      | some v => (target, v) :: found value? rest
      | none => found value? rest := by
  rw [found, List.filterMap_cons]
  cases value? source <;> rfl

theorem lookup_found (value? : String → Option Value) (properties : List (String × String))
    (name : String) : (found value? properties).lookup name
      = ((properties.filter (·.1 == name)).map Prod.snd).findSome? value? := by
  induction properties with
  | nil => rfl
  | cons property rest ih =>
    obtain ⟨target, source⟩ := property
    rw [found_cons, List.filter_cons]
    -- a pair with this target comes first if its source has a value, and else counts for nothing
    by_cases htarget : target = name
    · subst htarget
      rw [beq_self_eq_true, if_pos rfl, List.map_cons, List.findSome?_cons]
      cases value? source with
      | none => exact ih
      | some v => exact List.lookup_cons_self
    · have hne : (name == target) = false := beq_eq_false_iff_ne.mpr (Ne.symm htarget)
      rw [if_neg fun h => htarget (beq_iff_eq.mp h)]
      cases value? source with
      | none => exact ih
      | some v => simp only [List.lookup_cons, hne, ih]

namespace Record

variable (values : OrderedMap String Value) (properties : List (String × String)) (r : Record)

/-- **Setting properties is inserting a list.** -/
theorem setAll_eq : r.setAll values properties
    = { r with properties := r.properties.insertAll (found values.get? properties) } := by
  induction properties generalizing r with
  | nil => rfl
  | cons property rest ih =>
    obtain ⟨target, source⟩ := property
    have hstep : setAll values ((target, source) :: rest) r
        = setAll values rest (setFrom values r (target, source)) := rfl
    rw [hstep, ih, setFrom, found_cons]
    cases values.get? source <;> rfl

/-- Of the attributes that a property can be taken from, the first that has a value counts. -/
theorem get?_setAll (name : String) : (r.setAll values properties).properties.get? name
    = ((sourcesOf properties name).findSome? values.get?).or (r.properties.get? name) := by
  have hreverse : (found values.get? properties).reverse = found values.get? properties.reverse :=
    List.filterMap_reverse.symm
  rw [setAll_eq]
  simp only
  rw [OrderedMap.get?_insertAll, hreverse, lookup_found, sourcesOf]

/-- The properties are in the order of the list. -/
theorem keys_setAll : (r.setAll values properties).properties.keys
    = (r.properties.keys ++ (found values.get? properties).map Prod.fst).eraseDups := by
  rw [setAll_eq]
  exact OrderedMap.keys_insertAll _ _

/-- Children do not change the properties. -/
theorem foldl_push (children : List Value) : children.foldl push r
    = { r with children := r.children ++ children } := by
  induction children generalizing r with
  | nil => rw [List.foldl_nil, List.append_nil]
  | cons child rest ih => rw [List.foldl_cons, ih, push, List.append_assoc]; rfl

end Record

/-! ### Instances -/

namespace Schema

/-- No attribute but the controller is declared to be an instance. -/
def OnlyController (s : Schema) : Prop :=
  ∀ a ∈ s.entries, Reading.ofType? (Text.nameKey a.2.type) = some .instanceOf → a.1 = "controller"

/-- The types of the other attributes that can be shown. -/
def plainTypes : List String :=
  ["number", "bool", "string", "array", "image"]

theorem ofType?_plain : ∀ type ∈ plainTypes,
    Reading.ofType? (Text.nameKey type) ≠ some .instanceOf := by
  decide +kernel

namespace OnlyController

variable {s : Schema}

theorem declare (h : s.OnlyController) (name : String) {type : String} (htype : type ∈ plainTypes)
    (assigned : Bool) : (s.declare name type assigned false).OnlyController :=
  OrderedMap.forall_mem_put h fun hread =>
    absurd (Text.nameKey_nameKey type ▸ hread) (ofType?_plain type htype)

theorem defineAll (h : s.OnlyController) {type : String} (htype : type ∈ plainTypes)
    (names : List String) : (s.defineAll type names).OnlyController := by
  induction names generalizing s with
  | nil => exact h
  | cons name rest ih => exact ih (h.declare name htype true)

theorem eq_of_isInstance (h : s.OnlyController) {name : String} (hname : s.IsInstance name) :
    name = "controller" := by
  rw [IsInstance, typeOf] at hname
  split at hname
  · next d hd => exact h (name, d) (OrderedMap.mem_entries_of_get? hd) hname
  · -- what is not declared is a string
    exact absurd hname (ofType?_plain "string" (by decide))

end OnlyController

theorem onlyController_displaySchema : OnlyController Kind.displaySchema := by
  have hempty : OnlyController OrderedMap.empty := fun _ h => absurd h List.not_mem_nil
  have hcontroller {s : Schema} (h : s.OnlyController) :
      (s.declare "controller" "instance" false false).OnlyController :=
    OrderedMap.forall_mem_put h fun _ => rfl
  refine OnlyController.declare (hcontroller (OnlyController.declare
    (OnlyController.declare ?_ _ (by decide) _) _ (by decide) _)) _ (by decide) _
  exact OnlyController.defineAll (OnlyController.defineAll (OnlyController.defineAll
    (OnlyController.defineAll hempty (by decide) _) (by decide) _) (by decide) _) (by decide) _

end Schema

/-! ### What can be shown -/

namespace Rule

/-- Containers, shapes and bitmaps. -/
def isDisplay : Rule → Bool
  | .container | .shape | .bitmap => true
  | _ => false

/-- The names that are declared and assigned. -/
def displayNames (r : Rule) : List String :=
  ["alpha", "cacheID", "id", "x", "y", "rotation", "scaleX", "scaleY", "regX", "regY", "skewX",
    "skewY", "mouseEnabled", "visible", "snapToPixel", "tickEnabled", "lazy", "name", "cursor",
    "compositeOperation", "filters", "transformMatrix"] ++ if r = .bitmap then ["src"] else []

variable {r : Rule} {e : Element}

/-- All that can be shown declares the same, whatever element it is. -/
theorem schema_display (hr : r.isDisplay = true) (e' : Element) : r.schema e' = r.schema e := by
  cases r with
  | data => cases hr
  | object => cases hr
  | container | shape | bitmap => rfl

/-- **The record of what can be shown,** but for its children. -/
theorem record_display (hr : r.isDisplay = true) (values : OrderedMap String Value)
    (views : List ChildView) : ∃ children, r.record e values views = { Record.setAll values
      (shownProperties (r.schema e)) { className := e.tag } with children := children } := by
  cases r with
  | data => cases hr
  | object => cases hr
  | container =>
    rw [record, Record.foldl_push, schema]
    exact ⟨_, rfl⟩
  | shape | bitmap =>
    rw [record, schema]
    exact ⟨_, rfl⟩

/-- Its values are looked up. -/
theorem made_display (hr : r.isDisplay = true) {e' : Element} (htag : e'.tag = e.tag)
    {values values' : OrderedMap String Value} (views : List ChildView) (s : Store)
    (hvalues : ∀ name, values'.get? name = values.get? name) :
    r.made e' values' views s = r.made e values views s := by
  cases r with
  | data => cases hr
  | object => cases hr
  | container | shape | bitmap =>
    simp only [made_of_ne_data, ne_eq, reduceCtorEq, not_false_eq_true, record, htag,
      Record.setAll_congr hvalues]

/-! ### The table of properties -/

/-- The properties, each with the attribute that it is taken from: the names first, each from its own
attribute, and then the shorthands. -/
def displayProperties (r : Rule) : List (String × String) :=
  r.displayNames.map (fun name => (name, name)) ++ Kind.displayShorthands

theorem shownProperties_display (hr : r.isDisplay = true) :
    shownProperties (r.schema e) = r.displayProperties := by
  have hnames : Schema.assignedNames (r.schema e) = r.displayNames := by
    cases r with
    | data => cases hr
    | object => cases hr
    | container | shape | bitmap =>
      rw [schema]
      decide +kernel
  rw [shownProperties, assignedProperties, hnames, displayProperties]

/-- The shorthand that a property is taken from, if there is one. -/
def shorthand? (name : String) : Option String :=
  if name ∈ ["regX", "regY"] then some "reg"
  else if name ∈ ["scaleX", "scaleY"] then some "scale"
  else none

/-- A property is taken from its shorthand, or else from the attribute with its name. -/
theorem sources_eq (hr : r.isDisplay = true) : ∀ name ∈ r.displayNames ++ ["href", "controller"],
    sourcesOf r.displayProperties name = (shorthand? name).toList ++ [name] := by
  cases r with
  | data => cases hr
  | object => cases hr
  | container | shape | bitmap => decide +kernel

theorem sources_other (hr : r.isDisplay = true) {name : String} (hname : name ∉ r.displayNames)
    (hlink : name ∉ ["href", "controller"]) : sourcesOf r.displayProperties name = [] := by
  have htargets : ∀ property ∈ r.displayProperties,
      property.1 ∈ r.displayNames ∨ property.1 ∈ ["href", "controller"] := by
    cases r with
    | data => cases hr
    | object => cases hr
    | container | shape | bitmap => decide +kernel
  rw [sourcesOf, List.map_eq_nil_iff, List.filter_eq_nil_iff]
  intro property hproperty htarget
  rw [← beq_iff_eq.mp htarget] at hname hlink
  exact (htargets property (List.mem_reverse.mp hproperty)).elim hname hlink

/-- Of all attributes only the controller is an instance. -/
theorem eq_of_isInstance (hr : r.isDisplay = true) {name : String}
    (h : (r.schema e).IsInstance name) : name = "controller" := by
  refine Schema.OnlyController.eq_of_isInstance ?_ h
  cases r with
  | data => cases hr
  | object => cases hr
  | container | shape => exact Schema.onlyController_displaySchema
  | bitmap => exact Schema.onlyController_displaySchema.declare "src" (by decide) true

end Rule

/-! ### What is built -/

/-- The compiled value of an attribute of an element, if it is there and has compiled. -/
def Pass.compiled? (q : Pass) (r : Rule) (e : Element) (name : String) : Option Value :=
  (e.attribute? name).bind fun raw =>
    (q.attributeOutcome name ((r.schema e).typeOf name) raw).toOption

/-- **A record shows an element:** its properties are the compiled values of the attributes. -/
structure Record.Shows (record : Record) (r : Rule) (tag : String)
    (compiled? : String → Option Value) : Prop where
  /-- The class is the tag as it was written. -/
  className : record.className = tag
  own : ∀ name ∈ r.displayNames, name ∉ ["regX", "regY", "scaleX", "scaleY"] →
    record.properties.get? name = compiled? name
  reg : ∀ name ∈ ["regX", "regY"],
    record.properties.get? name = (compiled? "reg").or (compiled? name)
  scale : ∀ name ∈ ["scaleX", "scaleY"],
    record.properties.get? name = (compiled? "scale").or (compiled? name)
  links : ∀ name ∈ ["href", "controller"], record.properties.get? name = compiled? name
  /-- The shorthands themselves and names that are not declared are no properties. -/
  others : ∀ name, name ∉ r.displayNames → name ∉ ["href", "controller"] →
    record.properties.get? name = none
  order : record.properties.keys = ((found compiled? r.displayProperties).map Prod.fst).eraseDups

/-- The record that is put together from values that are looked up. -/
theorem Rule.shows_record {r : Rule} {e : Element} (hr : r.isDisplay = true)
    (values : OrderedMap String Value) (views : List ChildView) :
    (r.record e values views).Shows r e.tag values.get? := by
  obtain ⟨children, hrecord⟩ := record_display (e := e) hr values views
  rw [shownProperties_display hr] at hrecord
  have hget : ∀ name, (r.record e values views).properties.get? name
      = (sourcesOf r.displayProperties name).findSome? values.get? := fun name => by
    rw [hrecord]
    exact (Record.get?_setAll _ _ _ name).trans Option.or_none
  -- a property without a shorthand, and one with a shorthand
  have hplain : ∀ name ∈ r.displayNames ++ ["href", "controller"], shorthand? name = none →
      (r.record e values views).properties.get? name = values.get? name := by
    intro name hname hnone
    rw [hget, sources_eq hr name hname, hnone]
    show [name].findSome? values.get? = _
    rw [List.findSome?_cons, List.findSome?_nil]
    cases values.get? name <;> rfl
  have hshort : ∀ name ∈ ["regX", "regY", "scaleX", "scaleY"], ∀ short,
      shorthand? name = some short → (r.record e values views).properties.get? name
        = (values.get? short).or (values.get? name) := by
    intro name hname short hsome
    -- the four names are names of the kind, and no links
    have hmem : name ∈ r.displayNames ++ ["href", "controller"] := by
      refine List.mem_append_left _ (List.mem_append_left _ ?_)
      clear hsome
      revert name
      decide +kernel
    rw [hget, sources_eq hr name hmem, hsome]
    show [short, name].findSome? values.get? = _
    rw [List.findSome?_cons, List.findSome?_cons, List.findSome?_nil]
    cases values.get? short <;> cases values.get? name <;> rfl
  exact
    { className := by rw [hrecord, Record.setAll_eq]
      own := fun name hname hown => hplain name (List.mem_append_left _ hname) <| by
        simp only [List.mem_cons, List.not_mem_nil, or_false, not_or] at hown
        simp only [shorthand?, List.mem_cons, List.not_mem_nil, or_false, hown, if_false]
      reg := fun name hname => hshort name (List.mem_append_left ["scaleX", "scaleY"] hname) "reg"
        (if_pos hname)
      scale := fun name hname =>
        hshort name (List.mem_append_right ["regX", "regY"] hname) "scale" <| by
          revert name
          decide +kernel
      links := fun name hname => hplain name (List.mem_append_right _ hname) <| by
        revert name
        decide +kernel
      others := fun name hname hlink => by rw [hget, sources_other hr hname hlink]; rfl
      order := by
        rw [hrecord]
        exact Record.keys_setAll _ _ _ }

/-! ### New records -/

section Records

variable {p : Pass}

theorem store_lookup {q : Pass} {e : Element} {c : Construction} (h : p.lookup e = .ok (c, q)) :
    q.store = p.store := by
  obtain ⟨-, rfl⟩ | ⟨-, -, rfl⟩ := lookup_finds h <;> rfl

/-- An attribute leaves the records alone or has a constructor called. -/
theorem size_le_compileAttribute (hb : p.Builtin) (c : Construction) (name raw : String) :
    p.store.size ≤ (Hook.exec (compileAttribute c name raw) p).2.store.size := by
  obtain ⟨_, _, hrun⟩ := exec_compileAttribute_effect hb c name raw
  rw [hrun]
  show p.store.size ≤ (p.effect c name raw p.store).store.size
  rcases Pass.effect_cases hb c name raw with ⟨k, v, heffect⟩ | ⟨-, hgrows⟩
  · have hsame : (p.effect c name raw p.store).store = p.store :=
      congrArg AttributeEffect.store (heffect p.store)
    exact Nat.le_of_eq (congrArg Store.size hsame.symm)
  · exact hgrows p.store

theorem size_le_compileEach (c : Construction) (attributes : List (String × String)) {p : Pass}
    (hb : p.Builtin) :
    p.store.size ≤ (Hook.exec (compileEach c attributes) p).2.store.size := by
  induction attributes generalizing p with
  | nil => exact Nat.le_refl _
  | cons a rest ih =>
    rw [exec_compileEach_cons hb]
    exact Nat.le_trans (size_le_compileAttribute hb c a.1 a.2)
      (ih (hb.lead ((leads_work c).compileAttribute a.1 a.2 p)))

/-- A value is made with a new record or out of those that are there. -/
theorem Rule.size_le_made (r : Rule) (e : Element) (values : OrderedMap String Value)
    (views : List ChildView) (s : Store) : s.size ≤ (r.made e values views s).2.size := by
  by_cases hr : r = .data
  · subst hr
    rw [made]
    split
    · exact Nat.le_of_eq (Store.size_modify _ _ _).symm
    · exact Nat.le_refl _
    · exact Nat.le_refl _
  · rw [made_of_ne_data hr, Store.size_make]
    exact Nat.le_succ _

mutual

/-- **Records are only added** while an element of the built-in kinds is processed. -/
theorem size_le_process : ∀ (e : Element) {p : Pass}, p.Builtin →
    p.store.size ≤ (process e p).2.store.size
  | ⟨id, tag, attributes, children, base⟩, p, hb => by
    cases hc : p.constructions.get? id with
    | none => exact Nat.le_of_eq (congrArg (·.2.store.size) (process_absent hc)).symm
    | some c =>
      cases ho : c.outcome? with
      | some o => exact Nat.le_of_eq (congrArg (·.2.store.size) (process_settled hc ho)).symm
      | none =>
        obtain ⟨r, -, hkind, hschema⟩ := hb.rule hc
        have hfirst := exec_compileAttributes_each hb hkind
        have hb₁ := hb.lead ((leads_work c).compileAttributes p)
        rw [hfirst] at hb₁
        -- the attributes, the children and the value, one after the other
        have hsize := size_le_compileEach c c.node.attributes.entries
          (hb.pass c .beforeAttributes)
        have hvisit := size_le_visit id children hb₁
        rw [process_run hc ho hb.released, phases, Hook.exec_bind_ok hfirst]
        rcases hrun : Hook.exec (visit id children) _ with ⟨stop | u, q⟩
        · -- stopped by a child, or with the value at the end
          rw [hrun] at hvisit
          rw [Hook.exec_bind_error hrun]
          exact Nat.le_trans hsize hvisit
        · rw [hrun] at hvisit
          rw [Hook.exec_bind_ok hrun, exec_build_made hkind hschema]
          exact Nat.le_trans (Nat.le_trans hsize hvisit) (r.size_le_made _ _ _ _)

theorem size_le_visit (parent : NodeId) : ∀ (children : List Element) {p : Pass}, p.Builtin →
    p.store.size ≤ (Hook.exec (visit parent children) p).2.store.size
  | [], _, _ => Nat.le_refl _
  | child :: rest, p, hb => by
    rw [exec_visit_cons]
    cases hl : p.lookup child with
    | error stop =>
      cases stop with
      -- nothing is made for a child that is not found
      | panic x => exact Nat.le_refl _
      | error e =>
        have hreported : (p.report ⟨child.id, child.tag, none, e⟩).Builtin :=
          hb.lead (Pass.leads_report [] _ _)
        exact size_le_visit parent rest hreported
    | ok found =>
      obtain ⟨c, p'⟩ := found
      have hb' := hb.lead (Pass.leads_lookup hl)
      have hchild := size_le_process child hb'
      have hnext := size_le_visit parent rest (hb'.visitFound parent child)
      -- what a child comes to is reported, and its records stay
      have hreport : (visitFound parent child p').store = (process child p').2.store := by
        rw [hb'.visitFound_eq]
        cases (process child p').1 <;> rfl
      rw [store_lookup hl] at hchild
      exact Nat.le_trans (hreport ▸ hchild) hnext

end

end Records

/-- **What can be shown gets exactly the properties that are declared.** When the attributes and the
children are done, an element makes a new record. Its attributes have been compiled, and its
properties are their values. With the attributes written in another order the outcome and all records
are the same, and so are the properties, their order and the JSON. -/
theorem process_displays {p : Pass} {r : Rule} {e : Element} (hr : r.isDisplay = true)
    (h : p.Ready e) (hb : p.Builtin) (hc : p.constructions.get? e.id = some (r.start e)) :
    (∃ (p' : Pass) (record : Record),
      Hook.exec (do compileAttributes (r.start e); visit e.id e.children) p = (.ok (), p') ∧
      p.store.size ≤ p'.store.size ∧
      (process e p).1 = .ok (.record p'.store.size) ∧
      (process e p).2.store = (p'.store.make record).2 ∧
      (∀ name raw, e.attribute? name = some raw →
        (process e p).2.HasCompiled name ((r.schema e).typeOf name) raw) ∧
      record.Shows r e.tag ((process e p).2.compiled? r e)) ∧
    ∀ attributes : OrderedMap String String, attributes.entries.Perm e.attributes.entries →
      (process (e.withAttributes attributes) (p.start r (e.withAttributes attributes))).1
          = (process e p).1 ∧
        (process (e.withAttributes attributes) (p.start r (e.withAttributes attributes))).2.store
          = (process e p).2.store := by
  constructor
  · obtain ⟨p₁, p₂, hthrough⟩ := Pass.exists_goesThrough h hb hc
    obtain ⟨hvalues, -⟩ := hthrough.reads hb.sound hc
    -- a display kind makes a record of its own
    have hne : r ≠ .data := fun heq => by
      rw [heq] at hr
      cases hr
    have hcompiled : (p₂.values e.id).get? = (process e p).2.compiled? r e := funext hvalues
    have hfirst : Hook.exec (compileAttributes (r.start e)) p
        = (.ok (), p₁.pass (r.start e) .afterAttributes) :=
      exec_compileAttributesBy (g := compileAttribute) (r := r) rfl hthrough.attributes
    -- nothing takes a record away, so the number of the new one was not in use
    have hattributes := size_le_compileEach (r.start e) e.attributes.entries
      (hb.pass (r.start e) .beforeAttributes)
    have hchildren := size_le_visit e.id e.children hthrough.builtin
    rw [hthrough.attributes] at hattributes
    rw [hthrough.children] at hchildren
    refine ⟨p₂, r.record e (p₂.values e.id) (p₂.childViews e.id), ?_,
      Nat.le_trans hattributes hchildren, ?_, ?_,
      fun _ _ hraw => hthrough.compiled hb.sound hraw, ?_⟩
    · rw [Hook.exec_bind_ok hfirst, hthrough.children]
    · rw [hthrough.ending, Pass.makes_of_ne_data hne]
    · rw [hthrough.ending, ← congrArg Prod.snd (Pass.makes_of_ne_data (p := p₂) (e := e) hne)]
      rfl
    · rw [← hcompiled]
      exact Rule.shows_record hr _ _
  · -- the controller is the only instance, and the record is made by look-ups
    intro attributes hperm
    refine process_reordered h hb hc hperm (Rule.schema_display hr _) (fun name other hn ho => ?_)
      fun views s hvalues => Rule.made_display hr rfl views s hvalues
    rw [Rule.eq_of_isInstance hr hn, Rule.eq_of_isInstance hr ho]

/-! ### A shape -/

/-- A shape with both kinds of names for one point, a scale that is no number, and a name that is not
declared. -/
def heroShape : Element :=
  (Markup.Draft.build none 0 (((((Markup.Draft.leaf "Shape").withAttribute "regX" "9").withAttribute
    "scale" "wide").withAttribute "reg" "4").withAttribute "tint" "red")).1

/-- The same attributes, the other way round. -/
def heroAttributes : OrderedMap String String :=
  OrderedMap.empty.insertAll heroShape.attributes.entries.reverse

def shapePass : Pass :=
  (Pass.begin (.builtin .empty) none .empty).start .shape
    heroShape

/-- The point is the one that the shorthand says, in either order of the attributes. What is no number
and what is not declared has left nothing. -/
theorem process_displays_shape :
    (shapePass.Ready heroShape ∧ shapePass.Builtin) ∧
      heroAttributes.entries.Perm heroShape.attributes.entries ∧
      (process heroShape shapePass).2.store.size = 1 ∧
      (process heroShape shapePass).2.HasCompiled "scale" "number" "wide" ∧
      ((process heroShape shapePass).2.store.get 0).Shows .shape "Shape"
        ((process heroShape shapePass).2.compiled? .shape heroShape) ∧
      ((process heroShape shapePass).2.store.get 0).properties.keys = ["regX", "regY"] ∧
      (process (heroShape.withAttributes heroAttributes)
        (shapePass.start .shape (heroShape.withAttributes heroAttributes))).2.store
        = (process heroShape shapePass).2.store := by
  have hrule : Rule.ofTag? heroShape.tag = some .shape := by decide +kernel
  have hl := Pass.lookup_builtin
    (p := .begin (.builtin .empty) none .empty) rfl
    (e := heroShape) rfl
  rw [hrule] at hl
  have hready : shapePass.Ready heroShape := .of_lookup_begin (by decide) hl
  have hbuiltin : shapePass.Builtin := ⟨hready.sound, rfl, rfl⟩
  have hperm : heroAttributes.entries.Perm heroShape.attributes.entries := by decide +kernel
  obtain ⟨hsize, hkeys⟩ : (process heroShape shapePass).2.store.size = 1 ∧
      ((process heroShape shapePass).2.store.get 0).properties.keys = ["regX", "regY"] := by
    decide +kernel
  obtain ⟨⟨p', record, -, -, -, hstore, hcompiled, hshows⟩, horder⟩ :=
    process_displays (r := .shape) rfl hready hbuiltin rfl
  -- only one record is there in the end, and it was made last
  have hfirst : p'.store.size = 0 := by
    rw [hstore, Store.size_make] at hsize
    exact Nat.succ.inj hsize
  have hrecord : (process heroShape shapePass).2.store.get 0 = record := by
    rw [hstore, ← hfirst]
    exact Store.get_make_self _ _
  exact ⟨⟨hready, hbuiltin⟩, hperm, hsize, hcompiled "scale" "wide" rfl, hrecord ▸ hshows, hkeys,
    (horder _ hperm).2⟩

end ObjectMarkup
