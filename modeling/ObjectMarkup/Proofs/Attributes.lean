import ObjectMarkup.Proofs.PlainNamespaces
import ObjectMarkup.Proofs.Reliable

/-!
# Attributes as they are evaluated

Compiling the attributes of an element gives the values that an `Evaluator` gives, and reports what
it reports. The hooks of a built-in kind come to what `Evaluator.read` says on any records, and leave
these alone (`exec_hooks`). So it makes no difference whether a coercion is settled by now or runs
its hooks first (`coerce_evaluates`), and the attributes can be taken one by one
(`compileEach_evaluates`).
-/

namespace ObjectMarkup

open Markup (Element NodeId)

/-! ### Kinds of attributes by their readings -/

/-- A table is looked up in the same way whatever the names are for. -/
theorem Kind.lookup_table_map {α β : Type} (f : α → β) (kinds : List (α × List String))
    (name : String) :
    (Kind.table (kinds.map fun (kind, names) => (f kind, names))).lookup name
      = ((Kind.table kinds).lookup name).map f := by
  -- a table is searched by name, and `f` leaves the names alone
  have hlookup : ∀ l : List (String × α),
      (l.map fun e => (e.1, f e.2)).lookup name = (l.lookup name).map f := by
    intro l
    induction l with
    | nil => rfl
    | cons e rest ih =>
      rw [List.map_cons, List.lookup_cons, List.lookup_cons, ih]
      split <;> rfl
  rw [← hlookup]
  congr 1
  simp only [Kind.table, List.flatMap_map, List.map_flatMap, List.map_map, Function.comp_def]

/-- The kind of attributes that reads them so. -/
def Reading.kind : Reading → AttributeKind
  | .boolean => Kind.boolean
  | .number => Kind.number
  | .symbol => Kind.constructor
  | .instanceOf => Kind.instanceOf
  | .image => Kind.image
  | .items => Kind.list

theorem attributes_eq : Kind.attributes = Reading.types.map fun (r, types) => (r.kind, types) := rfl

theorem attributeKind_eq_kind (type : String) :
    Catalog.builtin.attributeKind type =
      match Reading.ofType? type with
      | some r => .ok r.kind
      | none => .error (.unresolved .type type) := by
  rw [Catalog.attributeKind_builtin, attributes_eq, Kind.lookup_table_map, Reading.ofType?]
  cases (Kind.table Reading.types).lookup (Text.nameKey type) <;> rfl

namespace Evaluator

variable {x : Evaluator}

/-- The environment of the built-in kinds in the same world. -/
def environment (x : Evaluator) : Environment :=
  .builtin x.toWorld

theorem plain_of_orMismatch {name type raw : String} {read : Option Value} {v : Value}
    (hread : ∀ w, read = some w → w.Plain) (h : orMismatch name type raw read = .ok v) :
    v.Plain := by
  cases read with
  | none => cases h
  | some w => cases h; exact hread v rfl

theorem plain_readItems (raw : List Char) : (Value.list (Kind.readItems raw)).Plain := by
  refine Value.plain_list fun v hv => ?_
  obtain ⟨item, -, rfl⟩ := List.mem_map.mp hv
  unfold Kind.readItem
  split
  · split <;> exact trivial
  · exact trivial

theorem plain_readNumberAs {type raw : String} {v : Value}
    (h : Kind.readNumberAs type raw = some v) : v.Plain := by
  unfold Kind.readNumberAs at h
  split at h <;> obtain ⟨_, -, rfl⟩ := Option.map_eq_some_iff.mp h <;> exact trivial

/-- What is read holds no records. -/
theorem plain_read (hx : x.symbols.Plain) {name type raw : String} {v : Value} {r : Reading}
    (h : x.read name type raw r = .ok v) : v.Plain := by
  cases r with
  | boolean =>
    simp only [Evaluator.read] at h
    refine plain_of_orMismatch (fun w hw => ?_) h
    obtain ⟨_, -, rfl⟩ := Option.map_eq_some_iff.mp hw
    exact trivial
  | number =>
    simp only [Evaluator.read] at h
    exact plain_of_orMismatch (fun _ hw => plain_readNumberAs hw) h
  -- only a symbol could be a record, and the namespace has plain ones only
  | symbol =>
    simp only [Evaluator.read] at h
    exact hx.reflect h
  -- without constructors an instance is never read
  | instanceOf =>
    simp only [Evaluator.read] at h
    split at h <;> cases h
  | image =>
    simp only [Evaluator.read] at h
    split at h
    · cases h
    · split at h
      · cases h; exact trivial
      · cases h
  | items =>
    cases h
    exact plain_readItems _

theorem plain_valueOf (hx : x.symbols.Plain) {name type raw : String} {v : Value}
    (h : x.valueOf name type raw = .ok v) : v.Plain := by
  unfold Evaluator.valueOf at h
  split at h
  · cases h; exact trivial
  · split at h
    · exact plain_read hx h
    · cases h

theorem plain_values (hx : x.symbols.Plain) {s : Schema} {attributes : List (String × String)} :
    ∀ e ∈ x.values s attributes, e.2.Plain := by
  intro e he
  obtain ⟨⟨name, raw⟩, -, h⟩ := List.mem_filterMap.mp he
  simp only at h
  split at h
  · next v hv => cases h; exact plain_valueOf hx hv
  · cases h

end Evaluator

/-! ### Hooks of attributes -/

namespace Kind

variable {s : Store}

theorem contain_ofOutcome {α : Type} (o : Outcome α) :
    contain (Hook.exec (ofOutcome o : Hook Store Stop α) s).1 = o := by
  cases o <;> rfl

theorem store_ofOutcome {α : Type} (o : Outcome α) :
    (Hook.exec (ofOutcome o : Hook Store Stop α) s).2 = s := by
  cases o <;> rfl

theorem exec_readOrMismatch (a : AttributeView) (read : Option Value) :
    Hook.exec (readOrMismatch a read) s
      = Hook.exec (ofOutcome (orMismatch a.key.name a.key.type a.key.value read)) s := by
  cases read <;> rfl

end Kind

theorem Reading.before_kind (r : Reading) (a : AttributeView) : r.kind.before a = pure () := by
  cases r <;> rfl

theorem Reading.finish_kind (r : Reading) (a : AttributeView) (v : Value) :
    r.kind.finish a v = pure v := by
  cases r <;> rfl

/-- **What the kinds read.** -/
theorem Reading.exec_construct {x : Evaluator} (hx : x.symbols.Plain) (r : Reading)
    (key : AttributeKey) (s : Store) :
    Hook.exec (r.kind.construct ⟨x.toWorld, key, some x.base⟩) s
      = Hook.exec (Kind.ofOutcome (x.read key.name key.type key.value r)) s := by
  -- kind by kind: what the hook reads is what the evaluator reads
  cases r with
  | boolean =>
    rw [Reading.kind, Kind.construct_boolean, Kind.exec_readOrMismatch]
    rfl
  | number =>
    rw [Reading.kind, Kind.construct_number, Kind.exec_readOrMismatch]
    rfl
  | symbol =>
    rw [Reading.kind, Kind.construct_constructor]
    rfl
  | instanceOf =>
    simp only [Reading.kind, Kind.instanceOf, Kind.symbolOf, Evaluator.read]
    cases hr : x.symbols.reflect (Text.trimmed key.value) with
    | error e => rfl
    | ok v =>
      -- a constructor is the only value that would be called
      have hv := hx.reflect hr
      cases v with
      | constructor path f => exact hv.elim
      | _ => rfl
  | image =>
    simp only [Reading.kind, Kind.image, Evaluator.read]
    cases Locator.resolve x.domains (some x.base) (Text.trimmed key.value) with
    | error e => rfl
    | ok url =>
      simp only
      cases x.fetch url <;> rfl
  | items =>
    rw [Reading.kind, Kind.construct_list]
    rfl

/-- The hooks of a coercion come to what is read, and leave the records alone. -/
theorem exec_hooks {x : Evaluator} (hx : x.symbols.Plain) {key : AttributeKey} {k : Coercion}
    (hk : k.Sound x.environment (some x.base) key) {r : Reading}
    (hr : Reading.ofType? key.type = some r) (s : Store) :
    Hook.exec (k.hooks x.environment) s
      = Hook.exec (Kind.ofOutcome (x.read key.name key.type key.value r)) s := by
  have hkind : (.ok r.kind : Outcome AttributeKind) = .ok k.kind := by
    rw [← hk.key_kind, Evaluator.environment, Environment.builtin, attributeKind_eq_kind, hr]
  -- the hooks see the world, the key and the base, none of which depend on the run
  have hview : k.view x.environment = ⟨x.toWorld, key, some x.base⟩ := by
    rw [Coercion.view, hk.key, hk.key_base x.base rfl]
    rfl
  have hbefore : Hook.exec (orStop (pure ()) : Hook Store Stop Unit) s = (.ok (), s) := rfl
  rw [Coercion.hooks, ← Except.ok.inj hkind, hview, r.before_kind]
  rw [Hook.exec_bind_ok hbefore, Hook.exec_bind, r.exec_construct hx]
  cases x.read key.name key.type key.value r with
  | error e => rfl
  | ok v =>
    simp only [Kind.ofOutcome, Hook.exec_pure, r.finish_kind]

/-! ### Coercions -/

/-- A pass of the built-in kinds with the base, the values and the fetcher of an evaluator. -/
structure Pass.Follows (p : Pass) (x : Evaluator) : Prop where
  environment : p.environment = x.environment
  base : p.base = some x.base
  released : p.released = false

theorem Pass.Follows.advance {p q : Pass} {x : Evaluator} {ids : List NodeId} (h : p.Follows x)
    (ha : p.Advances ids q) : q.Follows x :=
  ⟨ha.environment.trans h.environment, ha.base.trans h.base, ha.released.trans h.released⟩

theorem Pass.Follows.attributeKind {p : Pass} {x : Evaluator} (h : p.Follows x) (type : String) :
    p.environment.catalog.attributeKind type =
      match Reading.ofType? type with
      | some r => .ok r.kind
      | none => .error (.unresolved .type type) := by
  rw [h.environment]
  exact attributeKind_eq_kind type

theorem Pass.Follows.reliable {p : Pass} {x : Evaluator} (h : p.Follows x) :
    p.environment.catalog.Reliable := by
  rw [h.environment]
  exact Catalog.reliable_builtin

/-- Looking an attribute up leaves the records alone. -/
theorem store_of_coercion {p q : Pass} {name type value : String} {base : Option Locator}
    {k : Coercion} (h : p.coercion name type value base = .ok (k, q)) : q.store = p.store := by
  obtain ⟨-, rfl⟩ | ⟨-, -, rfl⟩ := coercion_cases h <;> rfl

/-- **A coercion** comes to what is read, whether it was settled before or not. -/
theorem coerce_evaluates {x : Evaluator} (hx : x.symbols.Plain) {p : Pass} (hp : p.Sound)
    (hf : p.Follows x) {key : AttributeKey} {k : Coercion} (hk : p.coercions.get? key = some k)
    {r : Reading} (hr : Reading.ofType? key.type = some r) :
    (p.coerce k).1 = x.read key.name key.type key.value r ∧ (p.coerce k).2.store = p.store := by
  have hsound := hp.coercions key k hk
  rw [hf.environment, hf.base] at hsound
  rw [Pass.coerce_eq, hp.currentCoercion hk]
  cases ho : k.outcome? with
  | some o =>
    -- it was settled with what the hooks came to on other records, which they do not look at
    obtain ⟨s, hs⟩ := hsound.settled o ho
    rw [exec_hooks hx hsound hr, Kind.contain_ofOutcome] at hs
    exact ⟨hs, rfl⟩
  | none =>
    -- the first to ask calls the hooks, and reading makes no record
    obtain ⟨calls, hmake⟩ := exec_makeValue k p
    rw [hf.environment, exec_hooks hx hsound hr] at hmake
    simp only [hmake, Kind.contain_ofOutcome, true_and]
    exact Kind.store_ofOutcome _

/-! ### The attributes of an element -/

/-- Values came to an element, and reports to the pass. -/
structure Pass.Takes (p q : Pass) (id : NodeId) (values : List (String × Value))
    (reports : List Diagnostic) : Prop where
  store : q.store = p.store
  values : (q.values id).entries = (p.values id).entries ++ values
  diagnostics : q.diagnostics = p.diagnostics ++ reports

namespace Pass

variable {p q r : Pass} {id : NodeId}

theorem Takes.trans {values values' : List (String × Value)} {reports reports' : List Diagnostic}
    (h : p.Takes q id values reports) (h' : q.Takes r id values' reports') :
    p.Takes r id (values ++ values') (reports ++ reports') :=
  ⟨h'.store.trans h.store, by rw [h'.values, h.values, List.append_assoc],
    by rw [h'.diagnostics, h.diagnostics, List.append_assoc]⟩

/-- A value under a new name comes last. -/
theorem takes_setValue {c : Construction} (hc : p.constructions.get? id = some c) {name : String}
    (hname : name ∉ (p.values id).keys) (v : Value) :
    p.Takes (p.setValue id name v) id [(name, v)] [] := by
  refine ⟨rfl, ?_, (List.append_nil _).symm⟩
  rw [setValue, values_modifyConstruction hc]
  rw [values_eq hc] at hname ⊢
  exact OrderedMap.entries_insert_of_not_mem _ hname v

theorem takes_report (p : Pass) (id : NodeId) (d : Diagnostic) :
    p.Takes (p.report d) id [] [d] :=
  ⟨rfl, (List.append_nil _).symm, rfl⟩

theorem OnlyCoerces.takes (h : p.OnlyCoerces q) (hs : q.store = p.store) (id : NodeId) :
    p.Takes q id [] [] := by
  obtain ⟨store, calls, coercions, rfl⟩ := h
  exact ⟨hs, (List.append_nil _).symm, (List.append_nil _).symm⟩

end Pass

section Attributes

variable {x : Evaluator} {p : Pass} {c : Construction}

theorem Evaluator.values_cons (x : Evaluator) (s : Schema) (a : String × String)
    (rest : List (String × String)) :
    x.values s (a :: rest) = x.values s [a] ++ x.values s rest := by
  change List.filterMap _ ([a] ++ rest) = _
  exact List.filterMap_append

theorem Evaluator.failures_cons (x : Evaluator) (e : Element) (s : Schema) (a : String × String)
    (rest : List (String × String)) :
    x.failures e s (a :: rest) = x.failures e s [a] ++ x.failures e s rest := by
  change List.filterMap _ ([a] ++ rest) = _
  exact List.filterMap_append

/-- What it takes to read an attribute whose type has a reading. Nothing comes of it yet for the
element. -/
theorem coercion_evaluates (hx : x.symbols.Plain) (hp : p.Sound) (hf : p.Follows x)
    {name type raw : String} {base : Option Locator} {k : Coercion} {p' : Pass}
    (hl : p.coercion name type raw base = .ok (k, p')) (id : NodeId) :
    ∃ r, Reading.ofType? (Text.nameKey type) = some r ∧
      (p'.coerce k).1 = x.read name (Text.nameKey type) raw r ∧
      p.Takes (p'.coerce k).2 id [] [] ∧ p.Advances [id] (p'.coerce k).2 := by
  obtain ⟨hp', ha⟩ := Pass.leads_coercion hl [id] hp
  obtain ⟨-, ha'⟩ := leads_coerce p' k [id] hp'
  have hk := get?_of_coercion hl
  have hkind := hp'.key_kind hk
  simp only [(hf.advance ha).attributeKind, AttributeKey.ofType] at hkind
  -- a compiler was found, so the type is one of the builtin types
  cases hr : Reading.ofType? (Text.nameKey type) with
  | none => rw [hr] at hkind; cases hkind
  | some r =>
    obtain ⟨hvalue, hstore⟩ := coerce_evaluates hx hp' (hf.advance ha) hk hr
    have htakes := ((onlyCoerces_coercion hl).takes (store_of_coercion hl) id).trans
      ((onlyCoerces_coerce p' k).takes hstore id)
    exact ⟨r, rfl, hvalue, htakes, ha.trans ha'⟩

/-- An attribute that cannot be looked up has a type without a reading. -/
theorem ofType?_of_coercion_error (hf : p.Follows x) {name type raw : String}
    {base : Option Locator} {e : CompileError} (hl : p.coercion name type raw base = .error e) :
    Reading.ofType? (Text.nameKey type) = none ∧ e = .unresolved .type (Text.nameKey type) := by
  have he : p.environment.catalog.attributeKind (Text.nameKey type) = .error e :=
    coercion_eq_error hl
  rw [hf.attributeKind] at he
  cases hr : Reading.ofType? (Text.nameKey type) with
  | some r => rw [hr] at he; cases he
  | none =>
    rw [hr] at he
    cases he
    exact ⟨rfl, rfl⟩

/-- **An attribute** gives the value that it is evaluated to, or the report. -/
theorem compileAttribute_evaluates (hx : x.symbols.Plain) (hp : p.Sound) (hf : p.Follows x)
    {k : Construction} (hc : p.constructions.get? c.node.id = some k) {name : String}
    (hname : name ∉ (p.values c.node.id).keys) (raw : String) :
    p.Takes (Hook.exec (compileAttribute c name raw) p).2 c.node.id
      (x.values c.schema [(name, raw)]) (x.failures c.node c.schema [(name, raw)]) := by
  have hok := compileAttribute_ok (c := c) hp hf.reliable name raw
  rw [exec_compileAttribute] at hok ⊢
  simp only [Evaluator.values, Evaluator.failures, List.filterMap_cons, List.filterMap_nil,
    Evaluator.valueOf]
  -- Text is set as it is written. Every other value is read by the shared compiler of its key.
  by_cases hs : c.schema.typeOf name = "string"
  · simp only [if_pos hs]
    exact Pass.takes_setValue hc hname _
  simp only [if_neg hs] at hok ⊢
  cases hl : p.coercion name (c.schema.typeOf name) raw c.node.base with
  | error e =>
    obtain ⟨hr, rfl⟩ := ofType?_of_coercion_error hf hl
    simp only [hr]
    exact Pass.takes_report _ _ _
  | ok kp =>
    obtain ⟨k', p'⟩ := kp
    obtain ⟨r, hr, hvalue, htakes, ha⟩ := coercion_evaluates hx hp hf hl c.node.id
    simp only [hl] at hok
    simp only [hr]
    rcases hrun : p'.coerce k' with ⟨outcome, q⟩
    rw [hrun] at hvalue htakes ha hok
    simp only [← hvalue]
    cases outcome with
    | ok v =>
      -- reading the attribute has not taken its name
      obtain ⟨k'', hk'', -⟩ := ha.constructions _ _ hc
      have hname' : name ∉ (q.values c.node.id).keys := by
        simpa only [OrderedMap.keys, htakes.values, List.append_nil] using hname
      exact htakes.trans (Pass.takes_setValue hk'' hname' v)
    | error e =>
      -- a fatal error would have ended the element
      by_cases hfatal : e.isFatal = true
      · simp only [if_pos hfatal] at hok
        cases hok
      · simp only [if_neg hfatal]
        exact htakes.trans (Pass.takes_report q c.node.id _)

/-- The values come under names of the attributes, in their order. -/
theorem Evaluator.values_sublist (x : Evaluator) (s : Schema)
    (attributes : List (String × String)) :
    ((x.values s attributes).map Prod.fst).Sublist (attributes.map Prod.fst) := by
  induction attributes with
  | nil => exact .slnil
  | cons a rest ih =>
    obtain ⟨name, raw⟩ := a
    rw [Evaluator.values, List.filterMap_cons]
    simp only
    cases x.valueOf name (s.typeOf name) raw with
    | ok v => exact ih.cons_cons name
    | error e => exact ih.cons name

/-- **The attributes,** one after the other, as long as none has a value yet. -/
theorem compileEach_evaluates (hx : x.symbols.Plain) (attributes : List (String × String))
    {p : Pass} (hp : p.Sound) (hf : p.Follows x) {k : Construction}
    (hc : p.constructions.get? c.node.id = some k)
    (hnew : ((p.values c.node.id).keys ++ attributes.map Prod.fst).Nodup) :
    p.Takes (Hook.exec (compileEach c attributes) p).2 c.node.id (x.values c.schema attributes)
      (x.failures c.node c.schema attributes) := by
  induction attributes generalizing p k with
  | nil => exact ⟨rfl, (List.append_nil _).symm, (List.append_nil _).symm⟩
  | cons a rest ih =>
    obtain ⟨name, raw⟩ := a
    rw [List.map_cons] at hnew
    have hname : name ∉ (p.values c.node.id).keys := fun hmem =>
      (List.nodup_append.mp hnew).2.2 _ hmem _ List.mem_cons_self rfl
    -- the name is new, so setting the value adds it at the end
    have hfirst := compileAttribute_evaluates hx hp hf hc hname raw
    obtain ⟨hq, ha⟩ := (leads_work c).compileAttribute name raw p hp
    obtain ⟨k', hk', -⟩ := ha.constructions _ _ hc
    have hok := compileAttribute_ok (c := c) hp hf.reliable name raw
    rw [compileEach_cons, Hook.exec_bind_ok (Prod.ext hok rfl), x.values_cons, x.failures_cons]
    refine hfirst.trans (ih hq (hf.advance ha) hk' ?_)
    -- no more than the name of the first attribute is taken
    rw [OrderedMap.keys, hfirst.values, List.map_append, List.append_assoc]
    exact hnew.sublist (((x.values_sublist c.schema [(name, raw)]).append_right _).append_left _)

theorem takes_leave {k : Construction} (hc : p.constructions.get? c.node.id = some k)
    (hook : ElementHook) : p.Takes (p.leave c hook (p.bench c)) c.node.id [] [] := by
  refine ⟨rfl, ?_, (List.append_nil _).symm⟩
  rw [List.append_nil]
  exact congrArg OrderedMap.entries (Pass.values_modifyConstruction hc)

/-- **Everything before the children,** for a kind that does nothing in its hooks there. -/
theorem compileAttributes_evaluates (hx : x.symbols.Plain) (hp : p.Sound) (hf : p.Follows x)
    {k : Construction} (hc : p.constructions.get? c.node.id = some k) (hnone : k.values = .empty)
    (hbefore : ∀ v, c.kind.beforeAttributes v = pure ())
    (hafter : ∀ v, c.kind.afterAttributes v = pure ()) :
    (Hook.exec (compileAttributes c) p).1 = .ok () ∧
      p.Takes (Hook.exec (compileAttributes c) p).2 c.node.id
        (x.values c.schema c.node.attributes.entries)
        (x.failures c.node c.schema c.node.attributes.entries) := by
  -- both hooks leave the pass as it is, but for the call
  have hhook : ∀ (hook : ElementHook) (q : Pass),
      Hook.exec (orStop (callForElement c hook (pure ()))) q
        = (.ok (), q.leave c hook (q.bench c)) := fun _ _ => rfl
  have hq := takes_leave hc .beforeAttributes
  obtain ⟨hsound, ha⟩ := Pass.leads_leave p c .beforeAttributes (p.bench c) hp
  obtain ⟨k', hk', -⟩ := ha.constructions _ _ hc
  rw [compileAttributes_eq, Hook.exec_bind_ok (Hook.exec_get p), hbefore,
    Hook.exec_bind_ok (hhook .beforeAttributes p)]
  generalize p.leave c .beforeAttributes (p.bench c) = q at *
  -- no name occurs twice among the attributes, and there are no values before the first one
  have hnames : ((q.values c.node.id).keys ++ c.node.attributes.entries.map Prod.fst).Nodup := by
    rw [OrderedMap.keys, hq.values, Pass.values_eq hc, hnone]
    exact c.node.attributes.nodup
  have heach := compileEach_evaluates hx c.node.attributes.entries hsound (hf.advance ha) hk' hnames
  have hok := compileEach_ok (c := c) c.node.attributes.entries hsound (hf.advance ha).reliable
  obtain ⟨-, ha'⟩ := (leads_work c).compileEach c.node.attributes.entries q hsound
  obtain ⟨k'', hk'', -⟩ := ha'.constructions _ _ hk'
  rw [Hook.exec_bind_ok (Prod.ext hok rfl), Hook.exec_bind_ok (Hook.exec_get _), hafter, hhook]
  refine ⟨rfl, ?_⟩
  -- the hooks take nothing, so all values and reports are those of the attributes
  have hall := (hq.trans heach).trans (takes_leave hk'' .afterAttributes)
  simpa only [List.nil_append, List.append_nil] using hall

end Attributes

end ObjectMarkup
