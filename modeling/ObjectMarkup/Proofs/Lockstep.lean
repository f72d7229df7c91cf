import ObjectMarkup.Proofs.Making

/-!
# Compiles in lockstep

Two compiles of one tree, with the built-in kinds, that go through it side by side. They may begin
with different passes, and the second one may compile attributes in another way. If a relation
between the two passes is kept by each small step (`Lockstep`), then it is kept by the work on a
whole tree (`Lockstep.process`) and by that on a document (`Lockstep.compile`). What is kept by all
small steps of one compile is a special case (`Kept`).

The small steps are few, since with the built-in kinds only two of them have to do with values and
records: compiling one attribute, and giving an element its value once its attributes and children
are done (`Pass.conclude`). The induction on the tree tells these two all that is known at that
moment: that the element is still being worked on (`Pass.WorksOn`), that the attribute has no value
yet, and what the values of string attributes are (`Construction.Spelled`).
-/

namespace ObjectMarkup

open Markup (Element NodeId Document)

/-! ### Other ways to compile attributes -/

/-- A way to compile the attribute of an element with a name and a raw value. -/
abbrev AttributeStep := Construction → String → String → Step Unit

def compileEachBy (g : AttributeStep) (c : Construction) (attributes : List (String × String)) :
    Step Unit :=
  attributes.forM fun (name, raw) => g c name raw

/-- Everything before the children, with another way to compile attributes. -/
def compileAttributesBy (g : AttributeStep) (c : Construction) : Step Unit := do
  orStop (callForElement c .beforeAttributes (c.kind.beforeAttributes ((← get).view c)))
  compileEachBy g c c.node.attributes.entries
  orStop (callForElement c .afterAttributes (c.kind.afterAttributes ((← get).view c)))

mutual

/-- Processing an element, with another way to compile attributes. -/
def processBy (g : AttributeStep) : Element → Pass → Outcome Value × Pass
  | ⟨id, _, _, children, _⟩, p =>
    match p.constructions.get? id with
    | none => (.error .detached, p)
    | some c =>
      match c.outcome? with
      | some outcome => (outcome, p)
      | none =>
        if p.released then (.error .detached, p.settle id (.error .detached))
        else
          let steps : Step Value := do
            compileAttributesBy g c
            visitBy g id children
            build c
          let (ending, p) := steps.run.run p
          (contain ending, p.settle id (contain ending))

/-- Visiting children, with another way to compile attributes. -/
def visitBy (g : AttributeStep) (parent : NodeId) : List Element → Step Unit
  | [] => pure ()
  | child :: rest => do
    match (← get).lookup child with
    | .error (.panic x) => throw (.panic x)
    | .error (.error e) => modify (·.report ⟨child.id, child.tag, none, e⟩)
    | .ok (_, p) =>
      let (outcome, p) := processBy g child (p.handDown parent child.id)
      set p
      match outcome with
      | .error e => modify (·.report ⟨child.id, child.tag, none, e⟩)
      | .ok _ => pure ()
      modify (·.adopt parent child.id)
    visitBy g parent rest

end

mutual

/-- Attributes compiled as they are. -/
theorem processBy_compileAttribute : ∀ (e : Element) (p : Pass),
    processBy compileAttribute e p = process e p
  | ⟨id, tag, attributes, children, base⟩, p => by
    rw [processBy, process, visitBy_compileAttribute id children]
    rfl

theorem visitBy_compileAttribute (parent : NodeId) : ∀ children : List Element,
    visitBy compileAttribute parent children = visit parent children
  | [] => rfl
  | child :: rest => by
    have hchild := funext (processBy_compileAttribute child)
    rw [visitBy, hchild, visitBy_compileAttribute parent rest]
    rfl

end

/-- The outcome of a root and the pass behind it, with another way to compile attributes. -/
def processRootBy (g : AttributeStep) (p : Pass) (root : Element) : Outcome Value × Pass :=
  match p.lookup root with
  | .error e => (contain (.error e), p)
  | .ok (_, p) => processBy g root p

/-- Before the children only the attributes have effects. -/
theorem exec_compileAttributesBy {g : AttributeStep} {c : Construction} {r : Rule}
    (hkind : c.kind = r.kind) {q q₁ : Pass}
    (heach : Hook.exec (compileEachBy g c c.node.attributes.entries) (q.pass c .beforeAttributes)
      = (.ok (), q₁)) :
    Hook.exec (compileAttributesBy g c) q = (.ok (), q₁.pass c .afterAttributes) := by
  have hcall : ∀ hook q, Hook.exec (orStop (callForElement c hook (pure ()))) q
      = (.ok (), q.pass c hook) := by
    intro hook q
    rw [exec_orStop, exec_callForElement, Hook.exec_pure]
    simp only [Pass.bench, Pass.leave_values]
    rfl
  rw [compileAttributesBy, Hook.exec_bind_ok (Hook.exec_get q), hkind, r.before_kind,
    Hook.exec_bind_ok (hcall _ q), Hook.exec_bind_ok heach, Hook.exec_bind_ok (Hook.exec_get q₁),
    r.after_kind, hcall]

/-- What an element is built to from what the pass knows, and what becomes of the records. -/
def Pass.makes (p : Pass) (r : Rule) (e : Element) : Value × Store :=
  r.made e (p.values e.id) (p.childViews e.id) p.store

/-- The pass when an element has got its value. -/
def Pass.conclude (p : Pass) (r : Rule) (e : Element) : Pass :=
  { p with store := (p.makes r e).2 }.settle e.id (.ok (p.makes r e).1)

section Makes

variable {p : Pass} {r : Rule} {e : Element} {i : RecordId}

/-- A scalar whose attribute has a record for its value writes into the record. -/
theorem Pass.makes_written (h : (p.values e.id).get? "value" = some (.record i)) :
    p.makes .data e = (.record i, p.store.modify i (Record.scalar (p.values e.id))) := by
  rw [makes, Rule.made, h]

/-- Any other scalar just has the value of the attribute. -/
theorem Pass.makes_kept (h : ∀ i, (p.values e.id).get? "value" ≠ some (.record i)) :
    p.makes .data e = (((p.values e.id).get? "value").getD .null, p.store) := by
  rw [makes, Rule.made]
  split
  · next i hi => exact absurd hi (h i)
  · next v _ hv => rw [hv, Option.getD_some]
  · next hnone => rw [hnone, Option.getD_none]

theorem Pass.makes_of_ne_data (h : r ≠ .data) :
    p.makes r e = (.record p.store.size,
      (p.store.make (r.record e (p.values e.id) (p.childViews e.id))).2) :=
  Rule.made_of_ne_data h _ _ _ _

/-- The value of a scalar is a record if its attribute has a record for its value. -/
theorem Pass.makes_eq_record :
    (p.makes .data e).1 = .record i ↔ (p.values e.id).get? "value" = some (.record i) := by
  by_cases h : ∃ j, (p.values e.id).get? "value" = some (.record j)
  · obtain ⟨j, hj⟩ := h
    rw [makes_written hj, hj, Value.record.injEq, Option.some.injEq, Value.record.injEq]
  · rw [makes_kept (not_exists.mp h)]
    cases hv : (p.values e.id).get? "value" with
    | none => constructor <;> intro h <;> cases h
    | some v => rw [Option.getD_some, Option.some.injEq]

/-- All other records stay as they are. -/
theorem Pass.get_makes (hi : i < p.store.size)
    (hno : ¬ (r = .data ∧ (p.values e.id).get? "value" = some (.record i))) :
    (p.makes r e).2.get i = p.store.get i := by
  by_cases hr : r = .data
  · subst hr
    by_cases h : ∃ j, (p.values e.id).get? "value" = some (.record j)
    · obtain ⟨j, hj⟩ := h
      have hne : i ≠ j := fun heq => hno ⟨rfl, heq ▸ hj⟩
      rw [makes_written hj]
      exact Store.get_modify_of_ne _ hne _
    · rw [makes_kept (not_exists.mp h)]
  · rw [makes_of_ne_data hr]
    exact Store.get_make_of_lt hi _

end Makes

/-- **The work on an element** that is begun, with the children in between. -/
theorem processBy_eq_conclude {g : AttributeStep} {e : Element} {r : Rule} {q q₁ q₂ : Pass}
    (hc : q.constructions.get? e.id = some (r.start e)) (hlive : q.released = false)
    (heach : Hook.exec (compileEachBy g (r.start e) e.attributes.entries)
      (q.pass (r.start e) .beforeAttributes) = (.ok (), q₁))
    (hvisit : Hook.exec (visitBy g e.id e.children) (q₁.pass (r.start e) .afterAttributes)
      = (.ok (), q₂)) :
    processBy g e q = (.ok (q₂.makes r e).1,
      ((q₂.pass (r.start e) .construct).pass (r.start e) .finish).conclude r e) := by
  have hrun : Hook.exec (do
      compileAttributesBy g (r.start e)
      visitBy g e.id e.children
      build (r.start e) : Step Value) q
      = (.ok (q₂.makes r e).1, q₂.built (r.start e) (q₂.makes r e).2) := by
    rw [Hook.exec_bind_ok (exec_compileAttributesBy (r := r) rfl heach), Hook.exec_bind_ok hvisit,
      exec_build_made (r := r) rfl rfl]
    rfl
  obtain ⟨id, tag, attributes, children, base⟩ := e
  rw [processBy]
  simp only [hc, hlive, Bool.false_eq_true, if_false]
  exact congrArg (fun run : Except Stop Value × Pass =>
    (contain run.1, run.2.settle id (contain run.1))) hrun

/-! ### Visits to children -/

section Visits

variable {g : AttributeStep} {parent : NodeId} {child : Element} {rest : List Element} {q : Pass}

/-- A child with an unknown tag is reported. -/
theorem exec_visitBy_unknown (hcat : q.environment.catalog = .builtin)
    (hnone : q.constructions.get? child.id = none) (hr : Rule.ofTag? child.tag = none) :
    Hook.exec (visitBy g parent (child :: rest)) q
      = Hook.exec (visitBy g parent rest)
          (q.report ⟨child.id, child.tag, none, .unresolved .tag child.tag⟩) := by
  have hl := Pass.lookup_builtin hcat hnone
  rw [hr] at hl
  rw [visitBy, Hook.exec_bind_ok (Hook.exec_get q), hl]
  rfl

/-- A child with a known tag is begun, processed and adopted. -/
theorem exec_visitBy_known (hcat : q.environment.catalog = .builtin)
    (hnone : q.constructions.get? child.id = none) {r : Rule}
    (hr : Rule.ofTag? child.tag = some r)
    (hhand : (q.start r child).handDown parent child.id = q.start r child) {v : Value} {q' : Pass}
    (hok : processBy g child (q.start r child) = (.ok v, q')) :
    Hook.exec (visitBy g parent (child :: rest)) q
      = Hook.exec (visitBy g parent rest) (q'.adopt parent child.id) := by
  have hl := Pass.lookup_builtin hcat hnone
  rw [hr] at hl
  rw [visitBy, Hook.exec_bind_ok (Hook.exec_get q), hl]
  simp only [hhand, hok]
  rfl

end Visits

/-! ### An element that is worked on -/

/-- What a pass knows of an element that has no value yet. -/
structure Pass.Opens (p : Pass) (r : Rule) (e : Element) (k : Construction) : Prop where
  get : p.constructions.get? e.id = some k
  node : k.node = e
  kind : k.kind = r.kind
  schema : k.schema = r.schema e
  unsettled : k.outcome? = none

theorem Pass.Opens.congr {p q : Pass} {r : Rule} {e : Element} {k : Construction}
    (h : p.Opens r e k) (hsame : q.constructions = p.constructions) : q.Opens r e k :=
  ⟨hsame ▸ h.get, h.node, h.kind, h.schema, h.unsettled⟩

/-- What a pass knows of an element while it is worked on. -/
structure Pass.WorksOn (p : Pass) (r : Rule) (e : Element) (k : Construction) : Prop extends
    p.Opens r e k where
  builtin : p.Builtin

/-- String attributes have the values that are written, and those that are not written have none. -/
def Construction.Spelled (k : Construction) (r : Rule) (e : Element) : Prop :=
  ∀ name, (r.schema e).typeOf name = "string" →
    k.values.get? name = (e.attribute? name).map Value.string

theorem Pass.Builtin.pass {p : Pass} (h : p.Builtin) (c : Construction) (hook : ElementHook) :
    (p.pass c hook).Builtin :=
  ⟨⟨h.sound.constructions, h.sound.coercions⟩, h.catalog, h.released⟩

namespace Pass.WorksOn

variable {p q : Pass} {r : Rule} {e : Element} {k : Construction}

theorem of_start (h : p.Builtin) (hc : p.constructions.get? e.id = some (r.start e)) :
    p.WorksOn r e (r.start e) :=
  ⟨⟨hc, rfl, rfl, rfl, rfl⟩, h⟩

/-- Values and children may come to the element. -/
theorem goes (h : p.WorksOn r e k) (hq : q.Builtin) {values : OrderedMap String Value}
    {children : List NodeId} (hget : q.constructions.get? e.id
      = some { k with values := values, children := children }) :
    q.WorksOn r e { k with values := values, children := children } :=
  ⟨⟨hget, h.node, h.kind, h.schema, h.unsettled⟩, hq⟩

theorem pass (h : p.WorksOn r e k) (c : Construction) (hook : ElementHook) :
    (p.pass c hook).WorksOn r e k :=
  { h with builtin := h.builtin.pass c hook, get := h.get }

end Pass.WorksOn

/-- **Compiling an attribute** changes at most its own value of the element. -/
theorem get?_compileAttribute {p : Pass} {c k : Construction}
    (hk : p.constructions.get? c.node.id = some k) (name raw : String) :
    ∃ values, (Hook.exec (compileAttribute c name raw) p).2.constructions.get? c.node.id
        = some { k with values := values } ∧
      (∀ other, other ≠ name → values.get? other = k.values.get? other) ∧
      (c.schema.typeOf name = "string" → values.get? name = some (.string raw)) := by
  -- whatever sets the value sets no other one
  have hset : ∀ (q : Pass) v, q.constructions = p.constructions →
      (q.setValue c.node.id name v).constructions.get? c.node.id
          = some { k with values := k.values.insert name v } ∧
        ∀ other, other ≠ name → (k.values.insert name v).get? other = k.values.get? other :=
    fun q v hq => ⟨Pass.get?_setValue (hq ▸ hk) name v,
      fun other hne => OrderedMap.get?_insert_of_ne _ hne v⟩
  rw [exec_compileAttribute]
  by_cases hs : c.schema.typeOf name = "string"
  · rw [if_pos hs]
    obtain ⟨hget, hothers⟩ := hset p (.string raw) rfl
    exact ⟨_, hget, hothers, fun _ => OrderedMap.get?_insert_self _ _ _⟩
  · rw [if_neg hs]
    cases hl : p.coercion name (c.schema.typeOf name) raw c.node.base with
    | error e => exact ⟨k.values, hk, fun _ _ => rfl, fun h => absurd h hs⟩
    | ok kp =>
      obtain ⟨a, p'⟩ := kp
      have hsame := constructions_coerce hl
      simp only
      rcases hrun : p'.coerce a with ⟨e | v, q⟩
      · rw [hrun] at hsame
        have hkept : q.constructions.get? c.node.id = some { k with values := k.values } :=
          hsame ▸ hk
        simp only
        split
        · -- failed, fatally or not: no value is set
          exact ⟨k.values, hkept, fun _ _ => rfl, fun h => absurd h hs⟩
        · exact ⟨k.values, hkept, fun _ _ => rfl, fun h => absurd h hs⟩
      · rw [hrun] at hsame
        obtain ⟨hget, hothers⟩ := hset q v hsame
        exact ⟨_, hget, hothers, fun h => absurd h hs⟩

/-- **Past the attributes** of an element its children can be visited, and nothing is known of them
yet, if it was so before. -/
theorem Pass.Ready.past_attributes {p p₁ : Pass} {r : Rule} {e : Element} (h : p.Ready e)
    (hrun : Hook.exec (compileEach (r.start e) e.attributes.entries)
      (p.pass (r.start e) .beforeAttributes) = (.ok (), p₁)) :
    (p₁.pass (r.start e) .afterAttributes).ReadyFor e.id e.children ∧
      (p.Untouched e.children → (p₁.pass (r.start e) .afterAttributes).Untouched e.children) := by
  have hfirst : Hook.exec (compileAttributes (r.start e)) p
      = (.ok (), p₁.pass (r.start e) .afterAttributes) :=
    exec_compileAttributesBy (g := compileAttribute) (r := r) rfl hrun
  have hlead := (leads_work (r.start e)).compileAttributes p h.sound
  rw [hfirst] at hlead
  obtain ⟨hsound, ha⟩ := hlead
  exact ⟨(h.advance hsound ha).children, fun hnew => hnew.past h.numbered ha⟩

/-! ### Lockstep -/

/-- **A relation that is kept by each small step** of two compiles, of which the second one compiles
attributes in another way. The elements are those that are worked on. -/
structure Lockstep (g : AttributeStep) (E : Element → Prop) (R : Pass → Pass → Prop) : Prop where
  environment : ∀ {p q}, R p q → q.environment = p.environment
  released : ∀ {p q}, R p q → q.released = p.released
  absent : ∀ {p q id}, R p q →
    (q.constructions.get? id = none ↔ p.constructions.get? id = none)
  begun : ∀ {p q} {r : Rule} {e : Element}, R p q → E e →
    p.constructions.get? e.id = some (r.start e) → q.constructions.get? e.id = some (r.start e)
  /-- Nothing is handed down in the second compile. -/
  handDown : ∀ {p q}, R p q → p.Builtin → ∀ parent child, q.handDown parent child = q
  remember : ∀ {p q}, R p q → ∀ call noted, R (p.remember call noted) (q.remember call noted)
  report : ∀ {p q}, R p q → ∀ d, R (p.report d) (q.report d)
  adopt : ∀ {p q}, R p q → ∀ parent child, R (p.adopt parent child) (q.adopt parent child)
  start : ∀ {p q} {r : Rule} {e : Element}, R p q → p.constructions.get? e.id = none →
    R (p.start r e) (q.start r e)
  attributeStep : ∀ {p q r e k name raw}, R p q → p.WorksOn r e k → E e →
    (name, raw) ∈ e.attributes.entries → k.values.get? name = none →
    (Hook.exec (g (r.start e) name raw) q).1 = .ok () ∧
      R (Hook.exec (compileAttribute (r.start e) name raw) p).2
        (Hook.exec (g (r.start e) name raw) q).2
  conclude : ∀ {p q r e k}, R p q → p.WorksOn r e k → E e → k.Spelled r e →
    R (p.conclude r e) (q.conclude r e)

namespace Lockstep

variable {g : AttributeStep} {E : Element → Prop} {R : Pass → Pass → Prop}

/-- The attributes of an element, one after the other. -/
theorem compileEach (L : Lockstep g E R) {r : Rule} {e : Element} (he : E e) :
    ∀ (l : List (String × String)) {p q : Pass} {k : Construction},
      (∀ a ∈ l, a ∈ e.attributes.entries) → (l.map Prod.fst).Nodup → p.WorksOn r e k →
      (∀ name ∈ l.map Prod.fst, k.values.get? name = none) → R p q →
      ∃ p' q' values, Hook.exec (ObjectMarkup.compileEach (r.start e) l) p = (.ok (), p') ∧
        Hook.exec (compileEachBy g (r.start e) l) q = (.ok (), q') ∧ R p' q' ∧
        p'.WorksOn r e { k with values := values } ∧
        (∀ name, name ∉ l.map Prod.fst → values.get? name = k.values.get? name) ∧
        ∀ name raw, (name, raw) ∈ l → (r.schema e).typeOf name = "string" →
          values.get? name = some (.string raw)
  | [], p, q, k, _, _, hw, _, hR =>
    ⟨p, q, k.values, rfl, rfl, hR, hw, fun _ _ => rfl, fun _ _ h => absurd h List.not_mem_nil⟩
  | (name, raw) :: rest, p, q, k, hmem, hnodup, hw, hnew, hR => by
    obtain ⟨hname, hnodup⟩ := List.nodup_cons.mp hnodup
    obtain ⟨hfirst, hothers⟩ := List.forall_mem_cons.mp hmem
    obtain ⟨hok', hR₁⟩ := L.attributeStep hR hw he hfirst (hnew name List.mem_cons_self)
    have hok := compileAttribute_ok (c := r.start e) hw.builtin.sound
      (hw.builtin.catalog ▸ Catalog.reliable_builtin) name raw
    obtain ⟨values₁, hget₁, hkept₁, hset₁⟩ :=
      get?_compileAttribute (c := r.start e) hw.get name raw
    have hw₁ := hw.goes (hw.builtin.lead ((leads_work (r.start e)).compileAttribute name raw p))
      hget₁
    -- the names that come later are other ones
    have hnew₁ : ∀ other ∈ rest.map Prod.fst, values₁.get? other = none := fun other hother => by
      rw [hkept₁ other fun heq => hname (heq ▸ hother)]
      exact hnew other (List.mem_cons_of_mem _ hother)
    -- then the others, from where the first one leads in both passes
    obtain ⟨p', q', values, hp', hq', hR', hw', hkept, hset⟩ :=
      L.compileEach he rest hothers hnodup hw₁ hnew₁ hR₁
    refine ⟨p', q', values, ?_, ?_, hR', hw', ?_, ?_⟩
    · rw [compileEach_cons, Hook.exec_bind_ok (Prod.ext hok rfl), hp']
    · exact (Hook.exec_bind_ok (Prod.ext hok' rfl) _).trans hq'
    · intro other hother
      rw [List.map_cons, List.mem_cons, not_or] at hother
      exact (hkept other hother.2).trans (hkept₁ other hother.1)
    · intro other raw' hother hs
      rcases List.mem_cons.mp hother with heq | hother
      · cases heq
        exact (hkept name hname).trans (hset₁ hs)
      · exact hset other raw' hother hs

/-- The values of the string attributes when all attributes of an element were compiled. -/
theorem spelled_of_compileEach {r : Rule} {e : Element} {values : OrderedMap String Value}
    (hkept : ∀ name, name ∉ e.attributes.entries.map Prod.fst → values.get? name = none)
    (hset : ∀ name raw, (name, raw) ∈ e.attributes.entries → (r.schema e).typeOf name = "string" →
      values.get? name = some (.string raw)) {k : Construction} (hk : k.values = values) :
    k.Spelled r e := by
  intro name hs
  rw [hk, Element.attribute?]
  cases hraw : e.attributes.get? name with
  | some raw => exact hset name raw (OrderedMap.mem_entries_of_get? hraw) hs
  | none =>
    refine hkept name fun hmem => ?_
    rw [← OrderedMap.keys, OrderedMap.mem_keys_iff, hraw] at hmem
    cases hmem

theorem pass (L : Lockstep g E R) {p q : Pass} (h : R p q) (c : Construction) (hook : ElementHook) :
    R (p.pass c hook) (q.pass c hook) :=
  L.remember h _ _

/-- **An element** gets a value in both compiles, if the visits to its children keep the relation. -/
theorem process_of_visit (L : Lockstep g E R) {e : Element} {p q : Pass} {r : Rule} (h : p.Ready e)
    (hb : p.Builtin) (hnew : p.Untouched e.children)
    (hc : p.constructions.get? e.id = some (r.start e)) (he : E e) (hR : R p q)
    (hvisit : ∀ {p₁ q₁ : Pass}, p₁.ReadyFor e.id e.children → p₁.Builtin →
      p₁.Untouched e.children → R p₁ q₁ →
      ∃ p₂ q₂, Hook.exec (ObjectMarkup.visit e.id e.children) p₁ = (.ok (), p₂) ∧
        Hook.exec (visitBy g e.id e.children) q₁ = (.ok (), q₂) ∧ R p₂ q₂) :
    ∃ v w p' q' d, ObjectMarkup.process e p = (.ok v, p') ∧ processBy g e q = (.ok w, q') ∧
      R p' q' ∧ q'.constructions.get? e.id = some d ∧ d.outcome? = some (.ok w) := by
  have hlive : q.released = false := (L.released hR).trans hb.released
  -- the attributes
  obtain ⟨p₁, q₁, values, hp₁, hq₁, hR₁, hw₁, hkept, hset⟩ := L.compileEach he e.attributes.entries
    (fun _ ha => ha) e.attributes.nodup (.of_start (hb.pass (r.start e) .beforeAttributes) hc)
    (fun _ _ => OrderedMap.get?_empty _) (L.pass hR _ _)
  obtain ⟨hready, hnew₁⟩ := h.past_attributes hp₁
  have hb₁ := hw₁.builtin.pass (r.start e) .afterAttributes
  -- the children
  obtain ⟨p₂, q₂, hp₂, hq₂, hR₂⟩ := hvisit hready hb₁ (hnew₁ hnew) (L.pass hR₁ _ _)
  have hpanic := firstPanic?_eq_none (hb₁.catalog ▸ Catalog.reliable_builtin) e.children
  have hget₂ := get?_visits e.children hready hpanic _ hw₁.get
  have hb₂ := hb₁.lead (leads_visit e.id e.children _)
  rw [hp₂] at hget₂ hb₂
  -- the value
  obtain ⟨k, hw₂, hk⟩ : ∃ k, p₂.WorksOn r e k ∧ k.values = values := ⟨_, hw₁.goes hb₂ hget₂, rfl⟩
  have hR₃ := L.conclude (L.pass (L.pass hR₂ (r.start e) .construct) (r.start e) .finish)
    (hw₂.pass _ _ |>.pass _ _) he (spelled_of_compileEach hkept hset hk)
  have hleft := processBy_eq_conclude (g := compileAttribute) hc hb.released hp₁
    ((congrArg (Hook.exec · _) (visitBy_compileAttribute e.id e.children)).trans hp₂)
  have hright := processBy_eq_conclude (L.begun hR he hc) hlive hq₁ hq₂
  rw [processBy_compileAttribute] at hleft
  -- the element is there to be settled
  obtain ⟨d, hd⟩ := Option.ne_none_iff_exists'.mp fun hnone => Option.some_ne_none _
    (hw₂.get.symm.trans ((L.absent hR₂).mp hnone))
  refine ⟨_, _, _, _, { d with outcome? := some (.ok (q₂.makes r e).1) }, hleft, hright, hR₃, ?_,
    rfl⟩
  rw [Pass.conclude, Pass.settle, Pass.modifyConstruction, OrderedMap.get?_modify_self]
  exact congrArg (Option.map _) hd

mutual

/-- **Lockstep on a tree.** Both compiles give the element a value, and the relation is kept. -/
theorem process (L : Lockstep g E R) : ∀ (e : Element) {p q : Pass} {r : Rule}, p.Ready e →
    p.Builtin → p.Untouched e.children → p.constructions.get? e.id = some (r.start e) →
    (∀ n, Catalog.builtin.Reaches e n → E n) → R p q →
    ∃ v w p' q' d, ObjectMarkup.process e p = (.ok v, p') ∧ processBy g e q = (.ok w, q') ∧
      R p' q' ∧ q'.constructions.get? e.id = some d ∧ d.outcome? = some (.ok w)
  | ⟨id, tag, attributes, children, base⟩, p, q, r, h, hb, hnew, hc, hE, hR => by
    have hknows : Catalog.builtin.knows ⟨id, tag, attributes, children, base⟩ = true := by
      have hkind := h.sound.node_kind hc
      rw [hb.catalog] at hkind
      rw [Catalog.knows]
      exact congrArg Except.isOk hkind
    refine L.process_of_visit h hb hnew hc (hE _ (.self hknows)) hR fun hready hb₁ hnew₁ hR₁ => ?_
    exact L.visit id children hready hb₁ hnew₁ (fun child hchild n hn => hE n
      (Catalog.reaches_iff.mpr ⟨hknows, Or.inr ⟨child, hchild, hn⟩⟩)) hR₁

/-- Visits to children. -/
theorem visit (L : Lockstep g E R) (parent : NodeId) : ∀ (children : List Element) {p q : Pass},
    p.ReadyFor parent children → p.Builtin → p.Untouched children →
    (∀ child ∈ children, ∀ n, Catalog.builtin.Reaches child n → E n) → R p q →
    ∃ p' q', Hook.exec (ObjectMarkup.visit parent children) p = (.ok (), p') ∧
      Hook.exec (visitBy g parent children) q = (.ok (), q') ∧ R p' q'
  | [], p, q, _, _, _, _, hR => ⟨p, q, rfl, rfl, hR⟩
  | child :: rest, p, q, h, hb, hnew, hE, hR => by
    have hnone : p.constructions.get? child.id = none := hnew child (by
      rw [Element.preorderAll, Element.preorder_eq]
      exact List.mem_cons_self)
    have hnone' := (L.absent hR).mpr hnone
    have hcat : q.environment.catalog = .builtin :=
      (congrArg Environment.catalog (L.environment hR)).trans hb.catalog
    have hl := Pass.lookup_builtin hb.catalog hnone
    -- one child first, as one visit of its own
    have hrest : ∀ p₁ q₁, (∀ others, Hook.exec (visitBy compileAttribute parent (child :: others)) p
          = Hook.exec (visitBy compileAttribute parent others) p₁) →
        Hook.exec (visitBy g parent (child :: rest)) q = Hook.exec (visitBy g parent rest) q₁ →
        R p₁ q₁ → ∃ p' q', Hook.exec (ObjectMarkup.visit parent (child :: rest)) p = (.ok (), p') ∧
          Hook.exec (visitBy g parent (child :: rest)) q = (.ok (), q') ∧ R p' q' := by
      intro p₁ q₁ hleft hright hR₁
      simp only [visitBy_compileAttribute] at hleft
      have hone : (Hook.exec (ObjectMarkup.visit parent [child]) p).2 = p₁ := by
        rw [hleft]
        rfl
      have hready := h.rest
      have huntouched := hnew.rest h
      have hb₁ := hb.lead (leads_visit parent [child] p)
      rw [hone] at hready huntouched hb₁
      obtain ⟨p', q', hp', hq', hR'⟩ := L.visit parent rest hready hb₁ huntouched
        (fun other hother => hE other (List.mem_cons_of_mem _ hother)) hR₁
      exact ⟨p', q', (hleft rest).trans hp', hright.trans hq', hR'⟩
    cases hr : Rule.ofTag? child.tag with
    | none =>
      -- both passes report the same unknown tag
      exact hrest _ _ (fun _ => exec_visitBy_unknown hb.catalog hnone hr)
        (exec_visitBy_unknown hcat hnone' hr) (L.report hR _)
    | some r =>
      rw [hr] at hl
      have hready := h.first hl
      have hbelow := hnew.below h hl
      have hstart := hb.lead (Pass.leads_lookup hl)
      rw [hstart.handDown] at hready hbelow
      -- the child is looked up, handed its values and processed in both passes
      have hR₁ := L.start (r := r) hR hnone
      obtain ⟨v, w, p₁, q₁, d, hp₁, hq₁, hR₂, -⟩ := L.process child hready hstart hbelow
        (get?_of_lookup hl) (hE child List.mem_cons_self) hR₁
      rw [← processBy_compileAttribute] at hp₁
      exact hrest _ _
        (fun _ => exec_visitBy_known hb.catalog hnone hr (hstart.handDown _ _) hp₁)
        (exec_visitBy_known hcat hnone' hr (L.handDown hR₁ hstart _ _) hq₁) (L.adopt hR₂ _ _)

end

end Lockstep

/-! ### Documents -/

/-- How two compiles end with the root: with one failure, or with the values that are kept. -/
inductive Pass.EndAlike (p q : Pass) (id : NodeId) : Outcome Value → Outcome Value → Prop where
  | failed (e : CompileError) : EndAlike p q id (.error e) (.error e)
  | made {v w : Value} {k d : Construction} : p.constructions.get? id = some k →
    k.outcome? = some (.ok v) → q.constructions.get? id = some d → d.outcome? = some (.ok w) →
    EndAlike p q id (.ok v) (.ok w)

/-- **Lockstep on a document.** -/
theorem Lockstep.compile {g : AttributeStep} {E : Element → Prop} {R : Pass → Pass → Prop}
    (L : Lockstep g E R) {environment : Environment} {document : Document}
    {base workingDirectory : Option Locator} {store : Store} {q : Pass}
    (hcat : environment.catalog = .builtin) (hn : document.root.Numbered)
    (hE : ∀ n, Catalog.builtin.Reaches document.root n → E n)
    (hR : R (Compilation.begin environment document base workingDirectory store).pass q) :
    R (Compilation.begin environment document base workingDirectory store).final
        (processRootBy g q document.root).2 ∧
      Pass.EndAlike (Compilation.begin environment document base workingDirectory store).final
        (processRootBy g q document.root).2 document.root.id
        (Compilation.begin environment document base workingDirectory store).process.1
        (processRootBy g q document.root).1 := by
  have hnone : (Compilation.begin environment document base workingDirectory
      store).pass.constructions.get? document.root.id = none := rfl
  have hl := Pass.lookup_builtin (p := (Compilation.begin environment document base workingDirectory
    store).pass) hcat hnone
  have hl' := Pass.lookup_builtin
    ((congrArg Environment.catalog (L.environment hR)).trans hcat) ((L.absent hR).mpr hnone)
  cases hr : Rule.ofTag? document.root.tag with
  | none =>
    rw [hr] at hl hl'
    obtain ⟨hprocess, hfinal⟩ := Compilation.process_of_lookup_error hl
    rw [hprocess, hfinal, processRootBy, hl']
    exact ⟨hR, .failed _⟩
  | some r =>
    rw [hr] at hl hl'
    obtain ⟨hprocess, hfinal⟩ := Compilation.process_of_lookup hl
    have hready := Pass.Ready.of_lookup_begin hn hl
    obtain ⟨hsound, ha⟩ := Pass.leads_lookup hl (.initial _ _ _)
    -- looking the root up is no work on the elements below it
    have hnew : ((Compilation.begin environment document base workingDirectory store).pass.start r
        document.root).Untouched document.root.children :=
      Pass.Untouched.past (fun _ _ => rfl) hn ha
    obtain ⟨v, w, p', q', d, hp', hq', hR', hd, ho⟩ := L.process document.root hready
      ⟨hsound, (congrArg Environment.catalog ha.environment).trans hcat, ha.released⟩ hnew
      (get?_of_lookup hl) hE (L.start hR hnone)
    obtain ⟨k, hk, -, hko⟩ := process_settles hsound (get?_of_lookup hl)
    rw [hp'] at hprocess hfinal hk hko
    rw [hprocess, hfinal, processRootBy, hl']
    simp only [hq']
    exact ⟨hR', .made hk hko hd ho⟩

/-! ### One compile -/

/-- **What is kept by each small step** of a compile. -/
structure Kept (I : Pass → Prop) : Prop where
  calls : ∀ {p}, I p → ∀ a, I { p with calls := a }
  report : ∀ {p}, I p → ∀ d, I (p.report d)
  adopt : ∀ {p}, I p → ∀ parent child, I (p.adopt parent child)
  start : ∀ {p} {r : Rule} {e : Element}, I p → p.constructions.get? e.id = none → I (p.start r e)
  string : ∀ {p}, I p → ∀ id name raw, I (p.setValue id name (.string raw))
  /-- A value of an attribute is taken. -/
  value : ∀ {p key a v}, I p → p.coercions.get? key = some a → a.outcome? = some (.ok v) →
    ∀ id name, I (p.setValue id name v)
  /-- An attribute has come to something that was there before. -/
  given : ∀ {p ending}, I p → Reading.Gives p.environment ending → ∀ key (a : Coercion),
    I { p with coercions := p.coercions.insert key { a with outcome? := some (contain ending) } }
  /-- A constructor of the namespace was called for an attribute. -/
  called : ∀ {p maker}, I p → p.environment.symbols.Offers maker → ∀ key (a : Coercion),
    I { p with
      store := (p.environment.calls.run maker p.store).2
      coercions := p.coercions.insert key { a with
        outcome? := some (contain
          ((p.environment.calls.run maker p.store).1.mapError Stop.panic)) } }
  conclude : ∀ {p r e k}, I p → p.WorksOn r e k → k.Spelled r e → I (p.conclude r e)

namespace Kept

variable {I : Pass → Prop}

/-- An attribute whose coercion is settled is taken. -/
theorem take (K : Kept I) {p : Pass} (h : I p) {key : AttributeKey} {a : Coercion}
    {o : Outcome Value} (ha : p.coercions.get? key = some a) (ho : a.outcome? = some o)
    (e : Element) (name : String) : I (p.take e name o) := by
  cases o with
  | ok v => exact K.value h ha ho e.id name
  | error error => exact K.report h _

theorem compileAttribute (K : Kept I) {p : Pass} (h : I p) (hb : p.Builtin) (c : Construction)
    (name raw : String) : I (Hook.exec (ObjectMarkup.compileAttribute c name raw) p).2 := by
  obtain ⟨calls, hrun⟩ := exec_compileAttribute_builtin hb.catalog hb.sound.coercions c name raw
  rw [hrun]
  by_cases hstring : c.schema.typeOf name = "string"
  · rw [if_pos hstring]
    exact K.string h _ _ _
  · rw [if_neg hstring]
    generalize AttributeKey.ofType name (c.schema.typeOf name) raw = key
    simp only
    cases hr : Reading.ofType? key.type with
    | none => exact K.report h _
    | some r =>
      simp only
      have hkind := Pass.kind_coercionFor hb.catalog hb.sound.coercions hr c.node.base
      cases ho : (p.coercionFor key c.node.base r).outcome? with
      | some o =>
        -- a new coercion has no outcome
        cases hget : p.coercions.get? key with
        | none =>
          rw [Pass.coercionFor, hget] at ho
          cases ho
        | some k =>
          rw [Pass.coercionFor, hget] at ho
          exact K.take h hget ho _ _
      | none =>
        generalize p.coercionFor key c.node.base r = k at hkind
        rcases Reading.hooks_cases p.environment hkind with ⟨ending, hends, hgives⟩ |
          ⟨maker, -, hoffers, hasks⟩
        · rw [hends]
          exact K.take (K.calls (K.given h hgives key k) calls) (OrderedMap.get?_insert_self _ _ _)
            rfl _ _
        · rw [hasks]
          exact K.take (K.calls (K.called h hoffers key k) calls)
            (OrderedMap.get?_insert_self _ _ _) rfl _ _

/-- A compile goes in lockstep with itself. -/
theorem lockstep (K : Kept I) :
    Lockstep ObjectMarkup.compileAttribute (fun _ => True) fun p q => q = p ∧ I p where
  environment h := h.1 ▸ rfl
  released h := h.1 ▸ rfl
  absent h := h.1 ▸ Iff.rfl
  begun h _ hc := h.1 ▸ hc
  handDown h hb parent child := h.1 ▸ hb.handDown parent child
  remember h call noted := ⟨h.1 ▸ rfl, K.calls h.2 _⟩
  report h d := ⟨h.1 ▸ rfl, K.report h.2 d⟩
  adopt h parent child := ⟨h.1 ▸ rfl, K.adopt h.2 parent child⟩
  start h hnone := ⟨h.1 ▸ rfl, K.start h.2 hnone⟩
  attributeStep := by
    rintro p q r e k name raw ⟨rfl, h⟩ hw - - -
    have hok := compileAttribute_ok (c := r.start e) hw.builtin.sound
      (hw.builtin.catalog ▸ Catalog.reliable_builtin) name raw
    exact ⟨hok, rfl, K.compileAttribute h hw.builtin _ name raw⟩
  conclude := by
    rintro p q r e k ⟨rfl, h⟩ hw - hspelled
    exact ⟨rfl, K.conclude h hw hspelled⟩

/-- **What each small step keeps, a compile keeps.** The value of the root is the one that is kept
with it. -/
theorem compile (K : Kept I) (environment : Environment) (document : Document)
    (base workingDirectory : Option Locator) (store : Store)
    (hcat : environment.catalog = .builtin) (hn : document.root.Numbered)
    (hI : I (Compilation.begin environment document base workingDirectory store).pass) :
    I (Compilation.begin environment document base workingDirectory store).final ∧
      ∀ v, (Compilation.begin environment document base workingDirectory store).process.1 = .ok v →
        ∃ k, (Compilation.begin environment document base workingDirectory
            store).final.constructions.get? document.root.id = some k ∧
          k.outcome? = some (.ok v) := by
  obtain ⟨⟨-, hI'⟩, hend⟩ := K.lockstep.compile hcat hn (fun _ _ => trivial) ⟨rfl, hI⟩
  refine ⟨hI', fun v hv => ?_⟩
  rw [hv] at hend
  generalize (processRootBy ObjectMarkup.compileAttribute _ _).1 = outcome at hend
  cases hend with
  | made hk ho _ _ => exact ⟨_, hk, ho⟩

end Kept

end ObjectMarkup
