import ObjectMarkup.Proofs.Attributes

/-!
# Values as they are put together

The last phase of an element, for the built-in kinds. It makes a record, sets properties and adds
children, all in the store; `Store.Builds` follows that step by step in the `Contents` that the rule
of the tag would build (`build_evaluates`). A scalar makes no record and gives the value of an
attribute.
-/

namespace ObjectMarkup

open Markup (Element NodeId)

/-! ### Kinds of elements by their rules -/

namespace Rule

/-- The kind of elements that follows the rule. -/
def kind : Rule → ElementKind
  | .data => Kind.data
  | .object => Kind.object
  | .container => Kind.container
  | .shape => Kind.shape
  | .bitmap => Kind.bitmap

theorem define_kind (r : Rule) (e : Element) : r.kind.define e = .ok (r.schema e) := by
  cases r <;> rfl

theorem before_kind (r : Rule) (v : ElementView) : r.kind.beforeAttributes v = pure () := by
  cases r <;> rfl

theorem after_kind (r : Rule) (v : ElementView) : r.kind.afterAttributes v = pure () := by
  cases r <;> rfl

end Rule

theorem elements_eq : Kind.elements = Rule.tags.map fun (r, tags) => (r.kind, tags) := rfl

theorem elementKind_eq_kind (tag : String) :
    Catalog.builtin.elementKind tag =
      match Rule.ofTag? tag with
      | some r => .ok r.kind
      | none => .error (.unresolved .tag tag) := by
  rw [Catalog.elementKind_builtin, elements_eq, Kind.lookup_table_map, Rule.ofTag?]
  cases (Kind.table Rule.tags).lookup (Text.nameKey tag) <;> rfl

theorem Pass.Follows.elementKind {p : Pass} {x : Evaluator} (h : p.Follows x) (tag : String) :
    p.environment.catalog.elementKind tag =
      match Rule.ofTag? tag with
      | some r => .ok r.kind
      | none => .error (.unresolved .tag tag) := by
  rw [h.environment]
  exact elementKind_eq_kind tag

/-! ### Nothing is handed down -/

/-- A schema that hands nothing down. -/
def Schema.Keeps (s : Schema) : Prop :=
  ∀ e ∈ s.entries, e.2.forwarded = false

namespace Schema

theorem keeps_declare {s : Schema} (h : s.Keeps) (name type : String) (assigned : Bool) :
    (s.declare name type assigned false).Keeps :=
  OrderedMap.forall_mem_put h rfl

theorem keeps_defineAll {s : Schema} (h : s.Keeps) (type : String) (names : List String) :
    (s.defineAll type names).Keeps := by
  induction names generalizing s with
  | nil => exact h
  | cons name rest ih => exact ih (keeps_declare h name type true)

theorem keeps_displaySchema : Kind.displaySchema.Keeps := by
  have hempty : Schema.Keeps OrderedMap.empty := fun _ h => absurd h List.not_mem_nil
  refine keeps_declare (keeps_declare (keeps_declare (keeps_declare ?_ _ _ _) _ _ _) _ _ _) _ _ _
  exact keeps_defineAll (keeps_defineAll (keeps_defineAll (keeps_defineAll hempty _ _) _ _) _ _) _ _

theorem keeps_schema (r : Rule) (e : Element) : (r.schema e).Keeps := by
  have hempty : Schema.Keeps OrderedMap.empty := fun _ h => absurd h List.not_mem_nil
  cases r with
  | data => exact keeps_declare (keeps_declare (keeps_declare hempty _ _ _) _ _ _) _ _ _
  | object => exact hempty
  | container | shape => exact keeps_displaySchema
  | bitmap => exact keeps_declare keeps_displaySchema _ _ _

theorem forwardedNames_eq_nil {s : Schema} (h : s.Keeps) : s.forwardedNames = [] := by
  have hfilter : s.entries.filter (fun e => e.2.forwarded) = [] := by
    rw [List.filter_eq_nil_iff]
    intro e he htrue
    exact Bool.false_ne_true ((h e he).symm.trans htrue)
  rw [forwardedNames, hfilter, List.map_nil]

end Schema

/-- What a pass of the built-in kinds knows of an element. -/
theorem rule_of_construction {x : Evaluator} {p : Pass} (hp : p.Sound) (hf : p.Follows x)
    {id : NodeId} {c : Construction} (hc : p.constructions.get? id = some c) :
    ∃ r, Rule.ofTag? c.node.tag = some r ∧ c.kind = r.kind ∧ c.schema = r.schema c.node := by
  obtain ⟨-, hkind, hschema⟩ := hp.constructions id c hc
  rw [hf.elementKind] at hkind
  -- a compiler was made, so its tag has a kind and the kind a rule
  cases hr : Rule.ofTag? c.node.tag with
  | none => rw [hr] at hkind; cases hkind
  | some r =>
    rw [hr] at hkind
    have hkind : c.kind = r.kind := (Except.ok.inj hkind).symm
    rw [hkind, r.define_kind] at hschema
    exact ⟨r, rfl, hkind, (Except.ok.inj hschema).symm⟩

theorem handDown_evaluates {x : Evaluator} {p : Pass} (hp : p.Sound) (hf : p.Follows x)
    (parent child : NodeId) : p.handDown parent child = p := by
  unfold Pass.handDown
  cases hc : p.constructions.get? parent with
  | none => rfl
  | some c =>
    obtain ⟨r, -, -, hschema⟩ := rule_of_construction hp hf hc
    simp only [hschema, Schema.forwardedNames_eq_nil (Schema.keeps_schema r c.node), List.foldl_nil]

/-! ### Records and contents -/

theorem plain_of_get? {values : OrderedMap String Value}
    (hvalues : ∀ e ∈ values.entries, e.2.Plain) {name : String} {v : Value}
    (hv : values.get? name = some v) : v.Plain := by
  obtain ⟨l₁, l₂, heq, -⟩ := List.lookup_eq_some_iff.mp hv
  refine hvalues (name, v) ?_
  rw [heq]
  exact List.mem_append_right _ List.mem_cons_self

/-- Sets a property of a record to one of the values, if there is one. -/
def Store.setFrom (values : OrderedMap String Value) (record : RecordId) (s : Store)
    (property : String × String) : Store :=
  match values.get? property.2 with
  | some v => s.set record property.1 v
  | none => s

namespace Store.Builds

variable {m : Nat} {s s' : Store} {r : Contents}

theorem setFrom (h : Builds m s s' r) {values : OrderedMap String Value}
    (hvalues : ∀ e ∈ values.entries, e.2.Plain) (property : String × String) :
    Builds m s (s'.setFrom values s.size property)
      (r.assign values.entries property.1 property.2) := by
  rw [Contents.assign, Store.setFrom, OrderedMap.get?]
  cases hv : values.entries.lookup property.2 with
  | none => exact h
  | some v =>
    have hplain := plain_of_get? hvalues hv
    have hset := h.set property.1 hplain.within
    rw [hplain.spread] at hset
    exact hset

theorem foldl_setFrom (h : Builds m s s' r) {values : OrderedMap String Value}
    (hvalues : ∀ e ∈ values.entries, e.2.Plain) (properties : List (String × String)) :
    Builds m s (properties.foldl (Store.setFrom values s.size) s')
      (properties.foldl (fun r property => r.assign values.entries property.1 property.2) r) :=
  foldl (R := Eq) (fun hab h => hab ▸ h.setFrom hvalues _) (List.forall₂_same.mpr fun _ _ => rfl) h

/-- What can be shown gets the properties that are assigned and the shorthands. -/
theorem display (s : Store) (e : Element) (schema : Schema) {values : OrderedMap String Value}
    (hvalues : ∀ e ∈ values.entries, e.2.Plain) :
    Builds m s
      (Kind.displayShorthands.foldl (Store.setFrom values s.size)
        (((Schema.assignedNames schema).map fun name => (name, name)).foldl
          (Store.setFrom values s.size) (s.make { className := e.tag }).2))
      (Rule.display e schema values.entries) := by
  have hempty : Record.Within (fun j => m ≤ j ∧ j < s.size) { className := e.tag } :=
    ⟨fun _ h => absurd h List.not_mem_nil, fun _ h => absurd h List.not_mem_nil⟩
  have hall := (Builds.make s hempty).foldl_setFrom hvalues
    ((Schema.assignedNames schema).map (fun name => (name, name)) ++ Kind.displayShorthands)
  rw [List.foldl_append] at hall
  exact hall

end Store.Builds

/-- A child that has a value, and shows as the tree. -/
structure ChildView.Shows (m : Nat) (s : Store) (view : ChildView) (t : Element × Tree) : Prop where
  node : view.node = t.1
  value : ∃ v, view.outcome? = some (.ok v) ∧ v.Between m s.size ∧ v.spread s.treeOf = t.2

section Children

variable {m : Nat} {s s' : Store} {r : Contents} {views : List ChildView}
  {results : List (Element × Tree)}

theorem ChildView.Shows.result {view : ChildView} {t : Element × Tree} (h : view.Shows m s t) :
    ∃ v, view.result? = some v ∧ v.Between m s.size ∧ v.spread s.treeOf = t.2 := by
  obtain ⟨v, ho, hv⟩ := h.value
  exact ⟨v, by rw [ChildView.result?, ho], hv⟩

/-- The results of children are the values that they show as. -/
theorem results_of_shows (h : List.Forall₂ (ChildView.Shows m s) views results) :
    List.Forall₂ (fun v t => v.Between m s.size ∧ v.spread s.treeOf = t.2)
      (views.filterMap ChildView.result?) results := by
  induction h with
  | nil => exact .nil
  | cons hshows _ ih =>
    obtain ⟨v, hresult, hv⟩ := hshows.result
    rw [List.filterMap_cons_some hresult]
    exact .cons hv ih

/-- A container is given those children that are records. -/
theorem Store.Builds.pushRecords (h : Builds m s s' r) (hs : s.Tidy m)
    (hviews : List.Forall₂ (ChildView.Shows m s) views results) :
    Builds m s
      (((views.filterMap ChildView.result?).filter Value.isRecord).foldl
        (fun s' v => s'.push s.size v) s')
      ((results.filter (·.2.isRecord)).foldl (fun r child => r.push child.2) r) := by
  refine foldl (R := fun v t => v.Between m s.size ∧ v.spread s.treeOf = t.2) ?_ ?_ h
  · rintro s' r v t ⟨hv, ht⟩ h
    rw [← ht]
    exact h.push hv
  · refine List.rel_filter ?_ (results_of_shows hviews)
    rintro v t ⟨hv, ht⟩
    -- both sides keep the same children, whether a value is a record showing in its tree
    change v.isRecord = true ↔ t.2.isRecord = true
    rw [← hs.isRecord_spread hv, ht]

/-- A generic record gathers all children. -/
theorem Store.Builds.gather (h : Builds m s s' r) (hs : s.Tidy m)
    (hviews : List.Forall₂ (ChildView.Shows m s) views results) :
    Builds m s (views.foldl (Kind.gather s.size) s') (results.foldl Contents.gather r) := by
  refine foldl (R := ChildView.Shows m s) ?_ hviews h
  rintro s' r view ⟨e, t⟩ hshows h
  obtain ⟨v, hresult, hv, rfl⟩ := hshows.result
  have hpush := h.push hv
  -- whether the result is a record can be told from what it shows as
  rw [Kind.gather, Contents.gather, hresult, hshows.node]
  simp only [hs.isRecord_spread hv]
  cases e.attribute? "name" with
  | none => exact hpush
  | some name =>
    cases v.isRecord with
    | true => exact hpush
    | false => exact h.set name hv

end Children

/-! ### The last phase -/

/-- A pass has come to a value that shows as the tree, and to reports. -/
structure Pass.Gives (p q : Pass) (m : Nat) (v : Value) (t : Tree) (reports : List Diagnostic) :
    Prop where
  grows : p.store.Extends q.store
  tidy : q.store.Tidy m
  between : v.Between m q.store.size
  shows : v.spread q.store.treeOf = t
  diagnostics : q.diagnostics = p.diagnostics ++ reports

/-- What the hooks of the parent see of the children of an element. -/
def Pass.childViews (p : Pass) (id : NodeId) : List ChildView :=
  (p.children id).map Construction.childView

/-- Values of attributes are not seen by other elements. -/
theorem childViews_setValues (p : Pass) (id id' : NodeId) (values : OrderedMap String Value) :
    (p.setValues id values).childViews id' = p.childViews id' := by
  have hview : ∀ j, ((p.setValues id values).constructions.get? j).map Construction.childView
      = (p.constructions.get? j).map Construction.childView :=
    p.map_get?_modifyConstruction id fun _ => rfl
  have hchildren : ∀ j, ((p.setValues id values).constructions.get? j).map Construction.children
      = (p.constructions.get? j).map Construction.children :=
    p.map_get?_modifyConstruction id fun _ => rfl
  have hchildren := hchildren id'
  rw [Pass.childViews, Pass.childViews, Pass.children, Pass.children]
  -- neither the list of children nor any of their outcomes is touched
  cases hc : p.constructions.get? id' with
  | none =>
    rw [hc] at hchildren
    rw [Option.map_eq_none_iff.mp hchildren]
  | some c =>
    rw [hc] at hchildren
    obtain ⟨c', hc', hsame⟩ := Option.map_eq_some_iff.mp hchildren
    simp only [hc', hsame, List.map_filterMap, hview]

section Build

variable {m : Nat} {p : Pass} {c k : Construction} {results : List (Element × Tree)}

theorem Store.Builds.gives {q : Pass} {r : Contents} (h : Builds m p.store q.store r)
    (hs : p.store.Tidy m) (hd : q.diagnostics = p.diagnostics) :
    p.Gives q m (.record p.store.size) r.tree [] where
  grows := h.extends_self
  tidy := h.tidy hs
  between := ⟨hs.le, by rw [h.size]; exact Nat.lt_succ_self _⟩
  shows := h.treeOf_eq hs
  diagnostics := by rw [hd, List.append_nil]

/-- **A record** that is made, gets the values that are assigned, and is finished, shows as what it
is built to be in these three steps. -/
theorem build_gives_record (hc : p.constructions.get? c.node.id = some k) {r : Record}
    {f : OrderedMap String Value → List ChildView → Store → Store}
    (hconstruct : Hook.exec (c.kind.construct (p.view c)) (p.bench c)
      = (.ok (.record p.store.size), ⟨(p.store.make r).2, p.values c.node.id⟩))
    (hfinish : ∀ view bench, Hook.exec (c.kind.finish view (.record p.store.size)) bench
      = (.ok (.record p.store.size), ⟨f bench.values view.children bench.store, bench.values⟩))
    (hs : p.store.Tidy m) {t : Contents}
    (hbuilds : Store.Builds m p.store
      (f (p.values c.node.id) (p.childViews c.node.id)
        (((Schema.assignedNames c.schema).map fun name => (name, name)).foldl
          (Store.setFrom (p.values c.node.id) p.store.size) (p.store.make r).2)) t) :
    ∃ v, (Hook.exec (build c) p).1 = .ok v ∧
      p.Gives (Hook.exec (build c) p).2 m v t.tree [] := by
  -- what the hook that finishes sees is what there was before the record was made
  have hvalues : (p.leave c .construct ⟨(p.store.make r).2, p.values c.node.id⟩).values c.node.id
      = p.values c.node.id := Pass.values_modifyConstruction hc
  have hviews : (p.leave c .construct ⟨(p.store.make r).2, p.values c.node.id⟩).childViews c.node.id
      = p.childViews c.node.id := childViews_setValues _ _ _ _
  rw [exec_build, hconstruct]
  simp only [hfinish]
  refine ⟨_, rfl, Store.Builds.gives ?_ hs rfl⟩
  change Store.Builds m p.store (f ((p.leave c .construct _).values c.node.id)
    ((p.leave c .construct _).childViews c.node.id)
    ((p.leave c .construct _).assign c p.store.size).store) t
  rw [List.foldl_map] at hbuilds
  rw [Pass.assign, hvalues, hviews]
  exact hbuilds

/-- A scalar makes nothing: its value is that of an attribute. -/
theorem build_gives_data (hkind : c.kind = Kind.data) (hs : p.store.Tidy m)
    (hvalues : ∀ e ∈ (p.values c.node.id).entries, e.2.Plain) :
    ∃ v, (Hook.exec (build c) p).1 = .ok v ∧
      p.Gives (Hook.exec (build c) p).2 m v
        (Rule.data.build c.node (p.values c.node.id).entries results) [] := by
  -- null or the value of an attribute, which is plain in both cases
  have hplain : (((p.values c.node.id).get? "value").getD .null).Plain := by
    cases hv : (p.values c.node.id).get? "value" with
    | none => trivial
    | some v => exact plain_of_get? hvalues hv
  have hconstruct : Hook.exec (c.kind.construct (p.view c)) (p.bench c)
      = (.ok (((p.values c.node.id).get? "value").getD .null), p.bench c) := by
    rw [hkind]
    rfl
  have hfinish : ∀ view v bench, Hook.exec (c.kind.finish view v) bench = (.ok v, bench) := by
    rw [hkind]
    exact fun _ _ _ => rfl
  have htree : (((p.values c.node.id).get? "value").getD .null).plainTree
      = Rule.data.build c.node (p.values c.node.id).entries results := by
    rw [Rule.build, OrderedMap.get?]
    cases (p.values c.node.id).entries.lookup "value" <;> rfl
  rw [exec_build, hconstruct]
  generalize ((p.values c.node.id).get? "value").getD .null = v at hplain htree
  -- a plain value is no record, so nothing is assigned
  have hassign : ∀ q : Pass, q.assignTo c v = q := by
    intro q
    cases v with
    | record id => exact hplain.elim
    | _ => rfl
  simp only [hfinish, hassign]
  exact ⟨v, rfl, .refl _, hs, hplain.within, hplain.spread.trans htree, (List.append_nil _).symm⟩

/-- A generic record begins with all values as its properties and gathers the children. -/
theorem build_gives_object (hkind : c.kind = Kind.object) (hschema : c.schema = .empty)
    (hc : p.constructions.get? c.node.id = some k) (hs : p.store.Tidy m)
    (hvalues : ∀ e ∈ (p.values c.node.id).entries, e.2.Plain)
    (hviews : List.Forall₂ (ChildView.Shows m p.store) (p.childViews c.node.id) results) :
    ∃ v, (Hook.exec (build c) p).1 = .ok v ∧
      p.Gives (Hook.exec (build c) p).2 m v
        (Rule.object.build c.node (p.values c.node.id).entries results) [] := by
  have hwithin : Record.Within (fun j => m ≤ j ∧ j < p.store.size)
      ⟨c.node.tag, p.values c.node.id, []⟩ :=
    ⟨fun e he => (hvalues e he).within, fun _ h => absurd h List.not_mem_nil⟩
  -- the record starts with the values themselves, so only the children are left to gather
  have hmake := Store.Builds.make p.store hwithin
  rw [Record.contents_plain hvalues] at hmake
  refine build_gives_record hc (r := ⟨c.node.tag, p.values c.node.id, []⟩)
    (f := fun _ views s => views.foldl (Kind.gather p.store.size) s)
    (by rw [hkind]; rfl) (by rw [hkind]; exact fun _ _ => rfl) hs ?_
  rw [hschema]
  exact hmake.gather hs hviews

/-- **The last phase** gives what the rule of the tag builds. -/
theorem build_evaluates {r : Rule} (hkind : c.kind = r.kind) (hschema : c.schema = r.schema c.node)
    (hc : p.constructions.get? c.node.id = some k) (hs : p.store.Tidy m)
    (hvalues : ∀ e ∈ (p.values c.node.id).entries, e.2.Plain)
    (hviews : List.Forall₂ (ChildView.Shows m p.store) (p.childViews c.node.id) results) :
    ∃ v, (Hook.exec (build c) p).1 = .ok v ∧
      p.Gives (Hook.exec (build c) p).2 m v
        (r.build c.node (p.values c.node.id).entries results) [] := by
  -- all but the plain rules begin with the same assignments
  have hdisplay := Store.Builds.display (m := m) p.store c.node c.schema hvalues
  cases r with
  | data => exact build_gives_data hkind hs hvalues
  | object => exact build_gives_object hkind hschema hc hs hvalues hviews
  | container =>
    -- the shorthands and then the children, as the hook that finishes does it
    rw [hschema] at hdisplay
    refine build_gives_record hc (r := { className := c.node.tag })
      (f := fun values views s =>
        ((views.filterMap ChildView.result?).filter Value.isRecord).foldl
          (fun s v => s.push p.store.size v)
          (Kind.displayShorthands.foldl (Store.setFrom values p.store.size) s))
      (by rw [hkind]; rfl) (by rw [hkind]; exact fun _ _ => rfl) hs ?_
    rw [hschema]
    exact hdisplay.pushRecords hs hviews
  -- as for a container, without the children
  | shape | bitmap =>
    rw [hschema] at hdisplay
    refine build_gives_record hc (r := { className := c.node.tag })
      (f := fun values _ s => Kind.displayShorthands.foldl (Store.setFrom values p.store.size) s)
      (by rw [hkind]; rfl) (by rw [hkind]; exact fun _ _ => rfl) hs ?_
    rw [hschema]
    exact hdisplay

end Build

end ObjectMarkup
