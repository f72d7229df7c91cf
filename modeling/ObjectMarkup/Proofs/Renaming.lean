import ObjectMarkup.Proofs.Knowing

/-!
# Passes with other numbers for their records

The built-in kinds never look at the number of a record. So if one pass is another one with other
numbers for its records (`Pass.Renames`), then this stays so while both go on: they take the same
steps, make the same reports, and give their elements the same values up to the numbers. The records
themselves have to be compared as well. What is done to them when an element gets its value is the
same in both passes, and it is one of three things (`Pass.MakesAlike`).
-/

namespace ObjectMarkup

open Markup (Element NodeId)

variable {ρ σ : RecordId → RecordId}

/-! ### Values and records -/

@[simp] theorem Value.isRecord_rename (ρ : RecordId → RecordId) (v : Value) :
    (v.rename ρ).isRecord = v.isRecord := by
  cases v <;> rfl

theorem OrderedMap.map_modify {κ α β : Type} [DecidableEq κ] {f : α → β} {g : α → α} {g' : β → β}
    (h : ∀ a, f (g a) = g' (f a)) (m : OrderedMap κ α) (key : κ) :
    (m.modify key g).map f = (m.map f).modify key g' := by
  unfold modify
  rw [get?_map]
  cases m.get? key with
  | none => rfl
  | some a => rw [map_insert, h, Option.map_some]

/-- The outcome with other numbers for the records of its value. -/
def Outcome.rename (ρ : RecordId → RecordId) : Outcome Value → Outcome Value
  | .ok v => .ok (v.rename ρ)
  | .error e => .error e

theorem Outcome.rename_congr {o : Outcome Value} (h : ∀ v, o = .ok v → ∀ i ∈ v.records, ρ i = σ i) :
    Outcome.rename ρ o = Outcome.rename σ o := by
  cases o with
  | ok v => exact congrArg Except.ok (Value.rename_congr (h v rfl))
  | error e => rfl

/-- What an attribute is given has the same numbers, if these are not changed in the namespace. -/
theorem Reading.Gives.rename_contain {environment : Environment} {ending : Except Stop Value}
    (h : Reading.Gives environment ending)
    (hsame : ∀ v, environment.symbols.Provides v → ∀ i ∈ v.records, ρ i = i) :
    Outcome.rename ρ (contain ending) = contain ending := by
  cases ending with
  | error stop => cases stop <;> rfl
  | ok v =>
    refine congrArg Except.ok (Value.rename_eq_self fun i hi => ?_)
    -- either the value holds no record, or it is a symbol, whose records `ρ` fixes
    rcases h v rfl with hnil | hprovides
    · rw [hnil] at hi
      exact absurd hi List.not_mem_nil
    · exact hsame v (Or.inl hprovides) i hi

def ChildView.rename (ρ : RecordId → RecordId) (view : ChildView) : ChildView :=
  { view with outcome? := view.outcome?.map (Outcome.rename ρ) }

theorem ChildView.result?_rename (ρ : RecordId → RecordId) (view : ChildView) :
    (view.rename ρ).result? = view.result?.map (Value.rename ρ) := by
  obtain ⟨_, _ | _ | _⟩ := view <;> rfl

namespace Record

variable (ρ) (values : OrderedMap String Value)

theorem rename_setFrom (r : Record) (property : String × String) :
    (r.setFrom values property).rename ρ
      = (r.rename ρ).setFrom (values.map (Value.rename ρ)) property := by
  unfold setFrom
  rw [OrderedMap.get?_map]
  cases values.get? property.2 with
  | none => rfl
  | some v => exact rename_set ρ r property.1 v

theorem rename_setAll (properties : List (String × String)) (r : Record) :
    (r.setAll values properties).rename ρ
      = (r.rename ρ).setAll (values.map (Value.rename ρ)) properties :=
  (List.foldl_hom (Record.rename ρ) fun r property => (rename_setFrom ρ values r property).symm).symm

theorem rename_scalar (r : Record) :
    (r.scalar values).rename ρ = (r.rename ρ).scalar (values.map (Value.rename ρ)) :=
  rename_setAll ρ values scalarProperties r

theorem rename_gather (r : Record) (view : ChildView) :
    (r.gather view).rename ρ = (r.rename ρ).gather (view.rename ρ) := by
  unfold gather
  rw [ChildView.result?_rename]
  cases view.result? with
  | none => rfl
  | some v =>
    have hnode : (view.rename ρ).node = view.node := rfl
    simp only [Option.map_some, Value.isRecord_rename, hnode]
    -- named results that are no records become properties, every other result a child
    cases view.node.attribute? "name" with
    | none => exact rename_push ρ r v
    | some name =>
      cases v.isRecord with
      | true => exact rename_push ρ r v
      | false => exact rename_set ρ r name v

end Record

/-- **The record of an element** in other numbers is made of values in other numbers. -/
theorem Rule.rename_record (ρ : RecordId → RecordId) (rule : Rule) (e : Element)
    (values : OrderedMap String Value) (views : List ChildView) :
    (rule.record e values views).rename ρ
      = rule.record e (values.map (Value.rename ρ)) (views.map (ChildView.rename ρ)) := by
  -- the plain records fold their children in, and a fold commutes with `ρ`
  have hgather : (views.foldl Record.gather ⟨e.tag, values, []⟩).rename ρ
      = (views.map (ChildView.rename ρ)).foldl Record.gather
          ⟨e.tag, values.map (Value.rename ρ), []⟩ := by
    rw [List.foldl_map]
    exact (List.foldl_hom (Record.rename ρ) fun r view => (Record.rename_gather ρ r view).symm).symm
  have hshown : ∀ properties, (Record.setAll values properties { className := e.tag }).rename ρ
      = Record.setAll (values.map (Value.rename ρ)) properties { className := e.tag } :=
    fun properties => Record.rename_setAll ρ values properties _
  cases rule with
  | data => exact hgather
  | object => exact hgather
  | shape => exact hshown _
  | bitmap => exact hshown _
  | container =>
    have hresults : (views.map (ChildView.rename ρ)).filterMap ChildView.result?
        = (views.filterMap ChildView.result?).map (Value.rename ρ) := by
      rw [List.filterMap_map, List.map_filterMap]
      exact congrArg (List.filterMap · views) (funext (ChildView.result?_rename ρ))
    -- a container keeps the records among the results, and `ρ` neither makes nor unmakes a record
    have hrecords : ((views.filterMap ChildView.result?).map (Value.rename ρ)).filter Value.isRecord
        = ((views.filterMap ChildView.result?).filter Value.isRecord).map (Value.rename ρ) := by
      rw [List.filter_map]
      exact congrArg (fun keep => ((views.filterMap ChildView.result?).filter keep).map
        (Value.rename ρ)) (funext (Value.isRecord_rename ρ))
    rw [Rule.record, Rule.record, hresults, hrecords, List.foldl_map, ← hshown]
    exact (List.foldl_hom (Record.rename ρ) fun r v => (Record.rename_push ρ r v).symm).symm

/-! ### Passes -/

/-- What becomes of an element, with other numbers for the records of its values. -/
def Construction.rename (ρ : RecordId → RecordId) (c : Construction) : Construction :=
  { c with
    values := c.values.map (Value.rename ρ)
    outcome? := c.outcome?.map (Outcome.rename ρ) }

theorem Construction.rename_congr {c : Construction}
    (h : ∀ v, c.Has v → ∀ i ∈ v.records, ρ i = σ i) : c.rename ρ = c.rename σ := by
  have hvalues : c.values.map (Value.rename ρ) = c.values.map (Value.rename σ) :=
    OrderedMap.map_congr fun e he => Value.rename_congr (h e.2 (Or.inl ⟨e.1, he⟩))
  have houtcome : c.outcome?.map (Outcome.rename ρ) = c.outcome?.map (Outcome.rename σ) :=
    Option.map_congr fun o ho => Outcome.rename_congr fun v hv => h v (Or.inr (hv ▸ ho))
  rw [rename, rename, hvalues, houtcome]

/-- A construction that is begun has no values yet. -/
theorem Construction.rename_eq_start {c : Construction} {r : Rule} {e : Element} :
    c.rename ρ = r.start e ↔ c = r.start e := by
  constructor
  · intro h
    -- what `start` leaves empty stays empty under a renaming, and nothing else does
    obtain ⟨node, kind, schema, values, children, outcome⟩ := c
    simp only [rename, Rule.start, Construction.mk.injEq] at h ⊢
    obtain ⟨rfl, rfl, rfl, hvalues, rfl, houtcome⟩ := h
    have hentries := List.map_eq_nil_iff.mp (congrArg OrderedMap.entries hvalues)
    exact ⟨rfl, rfl, rfl, OrderedMap.ext hentries, rfl, Option.map_eq_none_iff.mp houtcome⟩
  · rintro rfl
    rfl

theorem Construction.Spelled.of_rename {c : Construction} {r : Rule} {e : Element}
    (h : (c.rename ρ).Spelled r e) : c.Spelled r e := by
  intro name hs
  have hname := h name hs
  rw [rename, OrderedMap.get?_map] at hname
  cases hraw : e.attribute? name with
  | none =>
    rw [hraw] at hname
    exact Option.map_eq_none_iff.mp hname
  -- a renamed value is a string only where the value was one
  | some raw =>
    rw [hraw] at hname
    obtain ⟨v, hv, hstring⟩ := Option.map_eq_some_iff.mp hname
    cases v with
    | string s => rw [hv]; exact congrArg some hstring
    | _ => cases hstring

/-- **A pass that is another one with other numbers** for the records, as far as its elements and its
reports go. -/
structure Pass.Renames (ρ : RecordId → RecordId) (p q : Pass) : Prop where
  environment : q.environment = p.environment
  base : q.base = p.base
  released : q.released = p.released
  diagnostics : q.diagnostics = p.diagnostics
  constructions : p.constructions = q.constructions.map (Construction.rename ρ)

namespace Pass.Renames

variable {p q : Pass}

theorem begin (environment : Environment) (base : Option Locator) (s t : Store) :
    Renames ρ (.begin environment base s) (.begin environment base t) :=
  ⟨rfl, rfl, rfl, rfl, rfl⟩

theorem get? (h : Renames ρ p q) (id : NodeId) :
    p.constructions.get? id = (q.constructions.get? id).map (Construction.rename ρ) := by
  rw [h.constructions, OrderedMap.get?_map]

theorem congr (h : Renames ρ p q) (hsame : ∀ i, q.Refers i → ρ i = σ i) : Renames σ p q where
  environment := h.environment
  base := h.base
  released := h.released
  diagnostics := h.diagnostics
  constructions := by
    rw [h.constructions]
    refine OrderedMap.map_congr fun e he => Construction.rename_congr fun v hv i hi => ?_
    exact hsame i ⟨v, Or.inl ⟨e.1, e.2, OrderedMap.get?_of_mem_entries he, hv⟩, hi⟩

theorem absent (h : Renames ρ p q) {id : NodeId} :
    q.constructions.get? id = none ↔ p.constructions.get? id = none := by
  rw [h.get?, Option.map_eq_none_iff]

theorem begun (h : Renames ρ p q) {r : Rule} {e : Element}
    (hc : p.constructions.get? e.id = some (r.start e)) :
    q.constructions.get? e.id = some (r.start e) := by
  rw [h.get?, Option.map_eq_some_iff] at hc
  obtain ⟨c, hc, hstart⟩ := hc
  rw [hc, Construction.rename_eq_start.mp hstart]

/-- An element without a value is one in both passes. -/
theorem opens (h : Renames ρ p q) {r : Rule} {e : Element} {k : Construction}
    (ho : p.Opens r e k) : ∃ k', q.Opens r e k' ∧ k = k'.rename ρ := by
  have hget := ho.get
  rw [h.get?, Option.map_eq_some_iff] at hget
  obtain ⟨k', hk', rfl⟩ := hget
  exact ⟨k', ⟨hk', ho.node, ho.kind, ho.schema, Option.map_eq_none_iff.mp ho.unsettled⟩, rfl⟩

/-- Nothing is handed down. -/
theorem handDown (h : Renames ρ p q) (hb : p.Builtin) (parent child : NodeId) :
    q.handDown parent child = q := by
  refine Pass.handDown_eq_self fun c hc => ?_
  have hp : p.constructions.get? parent = some (c.rename ρ) := by rw [h.get?, hc]; rfl
  have hnone : (c.rename ρ).schema.forwardedNames = [] := hb.forwards hp
  exact hnone

theorem modify (h : Renames ρ p q) (id : NodeId) {f g : Construction → Construction}
    (hfg : ∀ c, (f c).rename ρ = g (c.rename ρ)) :
    Renames ρ (p.modifyConstruction id g) (q.modifyConstruction id f) where
  environment := h.environment
  base := h.base
  released := h.released
  diagnostics := h.diagnostics
  constructions := by
    rw [Pass.modifyConstruction, Pass.modifyConstruction, h.constructions,
      OrderedMap.map_modify hfg]

theorem setValue (h : Renames ρ p q) (id : NodeId) (name : String) (v : Value) :
    Renames ρ (p.setValue id name (v.rename ρ)) (q.setValue id name v) := by
  refine h.modify id fun c => ?_
  simp only [Construction.rename, OrderedMap.map_insert]

theorem settle (h : Renames ρ p q) (id : NodeId) (o : Outcome Value) :
    Renames ρ (p.settle id (Outcome.rename ρ o)) (q.settle id o) :=
  h.modify id fun _ => rfl

theorem adopt (h : Renames ρ p q) (parent child : NodeId) :
    Renames ρ (p.adopt parent child) (q.adopt parent child) :=
  h.modify parent fun _ => rfl

theorem start (h : Renames ρ p q) (r : Rule) (e : Element) :
    Renames ρ (p.start r e) (q.start r e) where
  environment := h.environment
  base := h.base
  released := h.released
  diagnostics := h.diagnostics
  constructions := by
    rw [Pass.start, Pass.start, h.constructions, OrderedMap.map_insert,
      Construction.rename_eq_start.mpr rfl]

theorem report (h : Renames ρ p q) (d : Diagnostic) : Renames ρ (p.report d) (q.report d) where
  environment := h.environment
  base := h.base
  released := h.released
  diagnostics := congrArg (· ++ [d]) h.diagnostics
  constructions := h.constructions

theorem take (h : Renames ρ p q) (e : Element) (name : String) (o : Outcome Value) :
    Renames ρ (p.take e name (Outcome.rename ρ o)) (q.take e name o) := by
  cases o with
  | ok v => exact h.setValue e.id name v
  | error error => exact h.report _

/-- Steps that have to do with records and attributes only. -/
theorem frame (h : Renames ρ p q) (s t : Store) (a b : List (HookCall × Bool))
    (c d : OrderedMap AttributeKey Coercion) :
    Renames ρ { p with store := s, calls := a, coercions := c }
      { q with store := t, calls := b, coercions := d } :=
  ⟨h.environment, h.base, h.released, h.diagnostics, h.constructions⟩

theorem values (h : Renames ρ p q) (id : NodeId) :
    p.values id = (q.values id).map (Value.rename ρ) := by
  unfold Pass.values
  rw [h.get?]
  cases q.constructions.get? id with
  | none => rfl
  | some c => rfl

theorem childViews (h : Renames ρ p q) (id : NodeId) :
    p.childViews id = (q.childViews id).map (ChildView.rename ρ) := by
  have hview : ∀ c : Construction, (c.rename ρ).childView = c.childView.rename ρ := fun _ => rfl
  rw [Pass.childViews, Pass.childViews, Pass.children_map h.get? (fun _ => rfl), List.map_map,
    List.map_map]
  exact List.map_congr_left fun c _ => hview c

end Pass.Renames

/-- **How both passes give an element its value.** -/
inductive Pass.MakesAlike (ρ : RecordId → RecordId) (p q : Pass) (r : Rule) (e : Element) : Prop where
  /-- A scalar has a record for its value, and the attributes are written into it. -/
  | written {i : RecordId} : r = .data → (q.values e.id).get? "value" = some (.record i) →
    q.makes r e = (.record i, q.store.modify i (Record.scalar (q.values e.id))) →
    p.makes r e = (.record (ρ i), p.store.modify (ρ i) (Record.scalar (p.values e.id))) →
    MakesAlike ρ p q r e
  /-- A scalar has any other value. -/
  | kept {v : Value} : r = .data → v.isRecord = false → (∀ i ∈ v.records, q.Refers i) →
    q.makes r e = (v, q.store) → p.makes r e = (v.rename ρ, p.store) → MakesAlike ρ p q r e
  /-- A record is made for an element of another kind. -/
  | made {record : Record} : r ≠ .data → (∀ i ∈ record.records, q.Refers i) →
    q.makes r e = (.record q.store.size, (q.store.make record).2) →
    p.makes r e = (.record p.store.size, (p.store.make (record.rename ρ)).2) → MakesAlike ρ p q r e

theorem Pass.Renames.makesAlike {p q : Pass} (h : Renames ρ p q) (r : Rule) (e : Element) :
    MakesAlike ρ p q r e := by
  -- a `data` element writes into the record of its value, or gives the value itself back
  by_cases hr : r = .data
  · subst hr
    have hvalue := OrderedMap.get?_map (Value.rename ρ) (q.values e.id) "value"
    rw [← h.values] at hvalue
    by_cases hrecord : ∃ i, (q.values e.id).get? "value" = some (.record i)
    · obtain ⟨i, hi⟩ := hrecord
      exact .written rfl hi (Pass.makes_written hi) (Pass.makes_written (by rw [hvalue, hi]; rfl))
    · have hq := Pass.makes_kept (not_exists.mp hrecord)
      have hp : p.makes .data e = (((p.values e.id).get? "value").getD .null, p.store) := by
        refine Pass.makes_kept fun i hi => hrecord ?_
        rw [hvalue, Option.map_eq_some_iff] at hi
        obtain ⟨v, hv, hrename⟩ := hi
        cases v with
        | record j => exact ⟨j, hv⟩
        | _ => cases hrename
      rw [hvalue] at hp
      cases hv : (q.values e.id).get? "value" with
      | none =>
        rw [hv] at hq hp
        exact .kept (v := .null) rfl rfl (fun _ hi => absurd hi List.not_mem_nil) hq hp
      | some v =>
        rw [hv] at hq hp
        refine .kept rfl ?_ (fun i hi => ?_) hq hp
        · cases v with
          | record i => exact absurd ⟨i, hv⟩ hrecord
          | _ => rfl
        · exact ⟨v, Pass.knows_of_values (OrderedMap.mem_entries_of_get? hv), hi⟩
  · -- every other rule makes a new record from the values and the results of the children
    refine .made hr (fun i hi => Pass.refers_of_record hi) (Pass.makes_of_ne_data hr) ?_
    rw [Rule.rename_record, ← h.values, ← h.childViews]
    exact Pass.makes_of_ne_data hr

end ObjectMarkup
