import ObjectMarkup.Proofs.Renaming
import ObjectMarkup.Proofs.AttributeOutcomes

/-!
# Passes with another tag for one element

Of a scalar element the built-in kinds ask for the tag once, when its attributes are declared. So if
one pass is another one in which a scalar has another tag, but the same declared attributes
(`Pass.Retags`), then this stays so while both go on.

* For the other elements it is a case of lockstep (`Retags.lockstep`): a parent sees no more of a
  child than its name and its result, so what it is built to is the same (`Rule.made_retag`).
* The scalar itself begins with another construction in the second pass, which lockstep does not
  allow. `Retags.compileEach` and `Retags.makes` go through its phases by hand, and `Retags.process`
  puts the visits to its children in between.
-/

namespace ObjectMarkup

open Markup (Element NodeId)

/-! ### Another tag for an element -/

/-- The construction with another tag, if it is that of the element. -/
def Construction.retag (x : NodeId) (tag : String) (c : Construction) : Construction :=
  if c.node.id = x then { c with node := { c.node with tag := tag } } else c

/-- What a parent sees of a child that has another tag, if the child is the element. -/
def ChildView.retag (x : NodeId) (tag : String) (view : ChildView) : ChildView :=
  if view.node.id = x then { view with node := { view.node with tag := tag } } else view

section Construction

variable (x : NodeId) (tag : String)

theorem Construction.retag_values (c : Construction) : (c.retag x tag).values = c.values := by
  unfold retag
  split <;> rfl

theorem Construction.retag_children (c : Construction) : (c.retag x tag).children = c.children := by
  unfold retag
  split <;> rfl

theorem Construction.retag_schema (c : Construction) : (c.retag x tag).schema = c.schema := by
  unfold retag
  split <;> rfl

theorem Construction.childView_retag (c : Construction) :
    (c.retag x tag).childView = c.childView.retag x tag := by
  unfold retag ChildView.retag childView
  split <;> rfl

/-- A parent looks at no tag. -/
theorem ChildView.seen_retag (view : ChildView) : (view.retag x tag).seen = view.seen := by
  unfold retag seen
  split <;> rfl

/-- **What an element is built to** does not depend on the tags of its children. -/
theorem Rule.made_retag (r : Rule) (e : Element) (values : OrderedMap String Value)
    (views : List ChildView) (s : Store) :
    r.made e values (views.map (ChildView.retag x tag)) s = r.made e values views s := by
  refine r.made_of_seen e values ?_ s
  rw [List.map_map]
  exact List.map_congr_left fun view _ => view.seen_retag x tag

end Construction

/-! ### Passes -/

/-- **A pass that is another one with another tag for an element** that was looked up, as far as
values, records and what is known of attributes go. -/
structure Pass.Retags (x : NodeId) (tag : String) (p q : Pass) : Prop where
  environment : q.environment = p.environment
  base : q.base = p.base
  released : q.released = p.released
  store : q.store = p.store
  coercions : q.coercions = p.coercions
  constructions : q.constructions = p.constructions.map (Construction.retag x tag)
  known : x ∈ p.constructions.keys

namespace Pass.Retags

variable {x : NodeId} {tag : String} {p q : Pass}

theorem get? (h : p.Retags x tag q) (id : NodeId) :
    q.constructions.get? id = (p.constructions.get? id).map (Construction.retag x tag) := by
  rw [h.constructions, OrderedMap.get?_map]

theorem absent (h : p.Retags x tag q) {id : NodeId} :
    q.constructions.get? id = none ↔ p.constructions.get? id = none := by
  rw [h.get?, Option.map_eq_none_iff]

/-- An element that is not known is another one. -/
theorem ne_of_absent (h : p.Retags x tag q) {id : NodeId}
    (hnone : p.constructions.get? id = none) : id ≠ x := by
  rintro rfl
  have hknown := (OrderedMap.mem_keys_iff _ _).mp h.known
  rw [hnone] at hknown
  cases hknown

theorem retag_start {r : Rule} {e : Element} (he : e.id ≠ x) :
    (r.start e).retag x tag = r.start e :=
  if_neg he

theorem begun (h : p.Retags x tag q) {r : Rule} {e : Element} (he : e.id ≠ x)
    (hc : p.constructions.get? e.id = some (r.start e)) :
    q.constructions.get? e.id = some (r.start e) := by
  rw [h.get?, hc, Option.map_some, retag_start he]

theorem values (h : p.Retags x tag q) (id : NodeId) : q.values id = p.values id := by
  unfold Pass.values
  rw [h.get?]
  cases p.constructions.get? id with
  | none => rfl
  | some c => exact c.retag_values x tag

theorem childViews (h : p.Retags x tag q) (id : NodeId) :
    q.childViews id = (p.childViews id).map (ChildView.retag x tag) := by
  rw [Pass.childViews, Pass.childViews, Pass.children_map h.get? fun c => c.retag_children x tag,
    List.map_map, List.map_map]
  exact List.map_congr_left fun c _ => c.childView_retag x tag

/-- What elements are built to. -/
theorem makes (h : p.Retags x tag q) (r : Rule) (e : Element) : q.makes r e = p.makes r e := by
  rw [Pass.makes, h.values, h.childViews, h.store, Rule.made_retag, Pass.makes]

/-- Nothing is handed down. -/
theorem handDown (h : p.Retags x tag q) (hb : p.Builtin) (parent child : NodeId) :
    q.handDown parent child = q := by
  refine Pass.handDown_eq_self fun c hc => ?_
  rw [h.get?, Option.map_eq_some_iff] at hc
  obtain ⟨c, hc, rfl⟩ := hc
  rw [c.retag_schema]
  exact hb.forwards hc

theorem soundAttributes (h : p.Retags x tag q) (hs : p.SoundAttributes) : q.SoundAttributes := by
  unfold SoundAttributes
  rw [h.environment, h.base, h.coercions]
  exact hs

/-! ### Small steps -/

/-- Steps that have to do with records and attributes only. -/
theorem frame (h : p.Retags x tag q) (s : Store) (a b : List (HookCall × Bool))
    {c d : OrderedMap AttributeKey Coercion} (hsame : d = c) :
    Retags x tag { p with store := s, calls := a, coercions := c }
      { q with store := s, calls := b, coercions := d } :=
  ⟨h.environment, h.base, h.released, rfl, hsame, h.constructions, h.known⟩

theorem pass (h : p.Retags x tag q) (c c' : Construction) (hook : ElementHook) :
    Retags x tag (p.pass c hook) (q.pass c' hook) :=
  ⟨h.environment, h.base, h.released, h.store, h.coercions, h.constructions, h.known⟩

theorem report (h : p.Retags x tag q) (d d' : Diagnostic) :
    Retags x tag (p.report d) (q.report d') :=
  ⟨h.environment, h.base, h.released, h.store, h.coercions, h.constructions, h.known⟩

theorem modify (h : p.Retags x tag q) (id : NodeId) {f : Construction → Construction}
    (hf : ∀ c, (f c).retag x tag = f (c.retag x tag)) :
    Retags x tag (p.modifyConstruction id f) (q.modifyConstruction id f) where
  environment := h.environment
  base := h.base
  released := h.released
  store := h.store
  coercions := h.coercions
  constructions := by
    rw [Pass.modifyConstruction, Pass.modifyConstruction, h.constructions, OrderedMap.map_modify hf]
  known := by
    rw [Pass.modifyConstruction, OrderedMap.keys_modify]
    exact h.known

theorem setValue (h : p.Retags x tag q) (id : NodeId) (name : String) (v : Value) :
    Retags x tag (p.setValue id name v) (q.setValue id name v) :=
  h.modify id fun c => by
    unfold Construction.retag
    split <;> rfl

theorem adopt (h : p.Retags x tag q) (parent child : NodeId) :
    Retags x tag (p.adopt parent child) (q.adopt parent child) :=
  h.modify parent fun c => by
    unfold Construction.retag
    split <;> rfl

theorem settle (h : p.Retags x tag q) (id : NodeId) (o : Outcome Value) :
    Retags x tag (p.settle id o) (q.settle id o) :=
  h.modify id fun c => by
    unfold Construction.retag
    split <;> rfl

theorem start (h : p.Retags x tag q) (r : Rule) {e : Element} (he : e.id ≠ x) :
    Retags x tag (p.start r e) (q.start r e) where
  environment := h.environment
  base := h.base
  released := h.released
  store := h.store
  coercions := h.coercions
  constructions := by
    rw [Pass.start, Pass.start, h.constructions, OrderedMap.map_insert, retag_start he]
  known := by
    rw [Pass.start, OrderedMap.keys_insert]
    split
    · exact h.known
    · exact List.mem_append_left _ h.known

/-- Giving an element its value, which may be the one with the other tag. -/
theorem conclude (h : p.Retags x tag q) {r : Rule} {e e' : Element} (hid : e'.id = e.id)
    (hmakes : q.makes r e' = p.makes r e) : Retags x tag (p.conclude r e) (q.conclude r e') := by
  rw [Pass.conclude, Pass.conclude, hmakes, hid]
  exact (h.frame (p.makes r e).2 p.calls q.calls h.coercions).settle e.id _

/-! ### Attributes -/

/-- Taking an outcome, for an element and for the same one with another tag. -/
theorem take (h : p.Retags x tag q) {e e' : Element} (hid : e'.id = e.id) (name : String)
    (o : Outcome Value) : Retags x tag (p.take e name o) (q.take e' name o) := by
  cases o with
  | ok v =>
    rw [Pass.take, Pass.take, hid]
    exact h.setValue e.id name v
  | error error => exact h.report _ _

/-- **An attribute** comes to the same in both passes, if it is declared in the same way. -/
theorem compileAttribute (h : p.Retags x tag q) (hb : p.Builtin) {c c' : Construction}
    (hschema : c'.schema = c.schema) (hid : c'.node.id = c.node.id)
    (hbase : c'.node.base = c.node.base) (name raw : String) :
    (Hook.exec (ObjectMarkup.compileAttribute c name raw) p).1 = .ok () ∧
      (Hook.exec (ObjectMarkup.compileAttribute c' name raw) q).1 = .ok () ∧
      Retags x tag (Hook.exec (ObjectMarkup.compileAttribute c name raw) p).2
        (Hook.exec (ObjectMarkup.compileAttribute c' name raw) q).2 := by
  obtain ⟨calls, hrun⟩ := exec_compileAttribute_builtin hb.catalog hb.sound.coercions c name raw
  obtain ⟨calls', hrun'⟩ := exec_compileAttribute_builtin (h.environment ▸ hb.catalog)
    (h.soundAttributes hb.sound.coercions) c' name raw
  -- the shared compilers do not see the tag, so both passes ask the same one
  have hkeep : ∀ key r, q.coercionFor key c'.node.base r = p.coercionFor key c.node.base r := by
    intro key r
    rw [Pass.coercionFor, Pass.coercionFor, h.coercions, h.base, hbase]
  rw [hrun, hrun']
  refine ⟨rfl, rfl, ?_⟩
  rw [hschema]
  by_cases hstring : c.schema.typeOf name = "string"
  · rw [if_pos hstring, if_pos hstring, hid]
    exact h.setValue _ _ _
  · rw [if_neg hstring, if_neg hstring]
    generalize AttributeKey.ofType name (c.schema.typeOf name) raw = key
    simp only
    cases hr : Reading.ofType? key.type with
    | none => exact h.report _ _
    | some r =>
      simp only [hkeep]
      generalize p.coercionFor key c.node.base r = k
      -- the first to ask runs the hooks, and they start from the same store on both sides
      cases k.outcome? with
      | some o => exact h.take hid name o
      | none =>
        have hexec : Hook.exec (k.hooks q.environment) q.store =
            Hook.exec (k.hooks p.environment) p.store := by
          rw [h.environment, h.store]
        simp only [hexec, Pass.answer]
        exact (h.frame _ calls calls' (by rw [h.coercions])).take hid name _

/-- **The attributes** one after the other. -/
theorem compileEach {c c' : Construction} (hschema : c'.schema = c.schema)
    (hid : c'.node.id = c.node.id) (hbase : c'.node.base = c.node.base) :
    ∀ (attributes : List (String × String)) {p q : Pass}, p.Retags x tag q → p.Builtin →
      ∃ p' q', Hook.exec (ObjectMarkup.compileEach c attributes) p = (.ok (), p') ∧
        Hook.exec (ObjectMarkup.compileEach c' attributes) q = (.ok (), q') ∧ p'.Retags x tag q'
  | [], p, q, h, _ => ⟨p, q, rfl, rfl, h⟩
  | (name, raw) :: rest, p, q, h, hb => by
    -- one step of each walk, and the rest from passes that differ in the tag as before
    obtain ⟨hok, hok', h₁⟩ := h.compileAttribute hb hschema hid hbase name raw
    have hb₁ := hb.lead ((leads_work c).compileAttribute name raw p)
    obtain ⟨p', q', hp', hq', h'⟩ := compileEach hschema hid hbase rest h₁ hb₁
    refine ⟨p', q', ?_, ?_, h'⟩
    · rw [compileEach_cons, Hook.exec_bind_ok (Prod.ext hok rfl), hp']
    · rw [compileEach_cons, Hook.exec_bind_ok (Prod.ext hok' rfl), hq']

/-! ### Elements -/

/-- **The other elements** go through both passes in lockstep. -/
theorem lockstep (x : NodeId) (tag : String) :
    Lockstep ObjectMarkup.compileAttribute (fun e => e.id ≠ x) (Pass.Retags x tag) where
  environment h := h.environment
  released h := h.released
  absent h := h.absent
  begun h he hc := h.begun he hc
  handDown h hb parent child := h.handDown hb parent child
  remember h _ _ :=
    ⟨h.environment, h.base, h.released, h.store, h.coercions, h.constructions, h.known⟩
  report h d := h.report d d
  adopt h parent child := h.adopt parent child
  -- an element that is started has no compiler yet, so it is not the one with the other tag
  start h hnone := h.start _ (h.ne_of_absent hnone)
  attributeStep h hw _ _ _ := (h.compileAttribute hw.builtin rfl rfl rfl _ _).2
  conclude h _ _ _ := h.conclude rfl (h.makes _ _)

/-- **A scalar with another tag** comes to the same, if its attributes are declared in the same
way. -/
theorem process {e : Element} (h : p.Retags e.id tag q) (hready : p.Ready e) (hb : p.Builtin)
    (hnew : p.Untouched e.children) (hc : p.constructions.get? e.id = some (Rule.data.start e))
    (hc' : q.constructions.get? e.id = some (Rule.data.start { e with tag := tag }))
    (hschema : Rule.schema { e with tag := tag } .data = Rule.schema e .data) :
    (ObjectMarkup.process { e with tag := tag } q).1 = (ObjectMarkup.process e p).1 ∧
      Retags e.id tag (ObjectMarkup.process e p).2
        (ObjectMarkup.process { e with tag := tag } q).2 := by
  obtain ⟨p₁, p₂, hthrough⟩ := Pass.exists_goesThrough hready hb hc
  -- the attributes
  have hdeclared : (Rule.data.start { e with tag := tag }).schema = (Rule.data.start e).schema :=
    hschema
  obtain ⟨p', q₁, hp', hq₁, h₁⟩ := compileEach hdeclared rfl rfl e.attributes.entries
    (h.pass (Rule.data.start e) (Rule.data.start { e with tag := tag }) .beforeAttributes)
    (hb.pass _ _)
  rw [hthrough.attributes] at hp'
  cases hp'
  -- the children
  have hbelow : ∀ child ∈ e.children, ∀ n, Catalog.builtin.Reaches child n → n.id ≠ e.id := by
    intro child hchild n hn heq
    refine hthrough.ready.parent (heq ▸ List.mem_map_of_mem ?_)
    exact Element.mem_preorderAll.mpr ⟨child, hchild, hn.mem_preorder⟩
  obtain ⟨p'', q₂, hp₂, hq₂, h₂⟩ := (lockstep e.id tag).visit e.id e.children hthrough.ready
    hthrough.builtin ((hready.past_attributes hthrough.attributes).2 hnew) hbelow
    (h₁.pass (Rule.data.start e) (Rule.data.start { e with tag := tag }) .afterAttributes)
  rw [hthrough.children] at hp₂
  cases hp₂
  -- the value
  have hmakes : q₂.makes .data { e with tag := tag } = p₂.makes .data e := h₂.makes .data e
  have hrun := processBy_eq_conclude (g := ObjectMarkup.compileAttribute)
    (e := { e with tag := tag }) hc' (h.released.trans hb.released) hq₁ hq₂
  rw [processBy_compileAttribute] at hrun
  rw [hthrough.ending, hrun, hmakes]
  exact ⟨rfl, ((h₂.pass _ _ _).pass _ _ _).conclude rfl (((h₂.pass _ _ _).pass _ _ _).makes .data e)⟩

end Pass.Retags

end ObjectMarkup
