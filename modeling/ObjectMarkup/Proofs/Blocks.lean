import ObjectMarkup.Proofs.Moments
import ObjectMarkup.Proofs.Reliable

/-!
# The block of an element

The moments of an element lie together in a block, with the blocks of its children inside. What may
come in a block is laid out beforehand: `Catalog.slots` lists the places of an element, which are its
hooks, the attributes that are asked for, and its children, in the order of the document. `Fills`
says how moments fill places. They come in that order, each place at most once, and a hook or an
attribute that ends the element leaves all places after it empty; so does a child whose kind panics
while it declares attributes, since that is a panic of the parent.

That the moments of an element fill its places is `fills_moments`, by induction on the tree. What
the nesting says of elements far below is read off afterwards: all that belongs to the tree of an
element stands together (`Fills.block`), and no hook of an element is called twice
(`Fills.pairwise`).
-/

namespace ObjectMarkup

open Markup (Element NodeId Document)

/-- A place in the block of an element. -/
inductive Slot where
  | hook (hook : ElementHook)
  | attribute (key : AttributeKey)
  | child (child : Element)

namespace Slot

/-- The hooks that have places. -/
def hooks (slots : List Slot) : List ElementHook :=
  slots.filterMap fun
    | .hook h => some h
    | _ => none

/-- The children that have places. -/
def children (slots : List Slot) : List Element :=
  slots.filterMap fun
    | .child c => some c
    | _ => none

section Cons

variable (h : ElementHook) (key : AttributeKey) (c : Element) (slots : List Slot)

@[simp] theorem hooks_cons_hook : hooks (.hook h :: slots) = h :: hooks slots := rfl
@[simp] theorem hooks_cons_attribute : hooks (.attribute key :: slots) = hooks slots := rfl
@[simp] theorem hooks_cons_child : hooks (.child c :: slots) = hooks slots := rfl
@[simp] theorem children_cons_hook : children (.hook h :: slots) = children slots := rfl
@[simp] theorem children_cons_attribute : children (.attribute key :: slots) = children slots := rfl
@[simp] theorem children_cons_child : children (.child c :: slots) = c :: children slots := rfl

end Cons

end Slot

namespace Catalog

/-- The keys of the attributes that are asked for: a string is copied, and what has an unknown type
is left out. -/
def keys (catalog : Catalog) (schema : Schema) (attributes : List (String × String)) :
    List AttributeKey :=
  attributes.filterMap fun (name, raw) =>
    let key := AttributeKey.ofType name (schema.typeOf name) raw
    if schema.typeOf name = "string" ∨ (catalog.attributeKind key.type).isOk = false then none
    else some key

/-- The places of an element, in the order of the document. -/
def slots (catalog : Catalog) (schema : Schema) (e : Element) : List Slot :=
  .hook .beforeAttributes ::
    ((catalog.keys schema e.attributes.entries).map .attribute ++
      .hook .afterAttributes :: (e.children.map .child ++ [.hook .construct, .hook .finish]))

end Catalog

theorem hooks_slots (catalog : Catalog) (schema : Schema) (e : Element) :
    Slot.hooks (catalog.slots schema e)
      = [.beforeAttributes, .afterAttributes, .construct, .finish] := by
  -- attributes and children have hooks of their own, which are not among the slots
  have hkeys : ∀ (keys : List AttributeKey) (slots : List Slot),
      Slot.hooks (keys.map .attribute ++ slots) = Slot.hooks slots := fun keys slots => by
    induction keys with
    | nil => rfl
    | cons key rest ih => exact ih
  have hchildren : ∀ (children : List Element) (slots : List Slot),
      Slot.hooks (children.map .child ++ slots) = Slot.hooks slots := fun children slots => by
    induction children with
    | nil => rfl
    | cons child rest ih => exact ih
  rw [Catalog.slots, Slot.hooks_cons_hook, hkeys, Slot.hooks_cons_hook, hchildren]
  rfl

theorem children_slots (catalog : Catalog) (schema : Schema) (e : Element) :
    Slot.children (catalog.slots schema e) = e.children := by
  -- only the slots of children count, and these are all the children in order
  have hkeys : ∀ (keys : List AttributeKey) (slots : List Slot),
      Slot.children (keys.map .attribute ++ slots) = Slot.children slots := fun keys slots => by
    induction keys with
    | nil => rfl
    | cons key rest ih => exact ih
  have hchildren : ∀ (children : List Element) (slots : List Slot),
      Slot.children (children.map .child ++ slots) = children ++ Slot.children slots :=
    fun children slots => by
      induction children with
      | nil => rfl
      | cons child rest ih => exact congrArg (child :: ·) ih
  rw [Catalog.slots, Slot.children_cons_hook, hkeys, Slot.children_cons_hook, hchildren]
  exact List.append_nil _

/-- Moments of an element and of those below it that fill places of the element, in order. -/
inductive Fills (catalog : Catalog) : Element → List Slot → List Moment → Prop where
  | nil (e : Element) : Fills catalog e [] []
  /-- A hook ends with a value. -/
  | hookEnds {e : Element} {slots : List Slot} {ms : List Moment} (hook : ElementHook) :
    Fills catalog e slots ms → Fills catalog e (.hook hook :: slots) (.ofHook e hook none :: ms)
  /-- A hook ends early, and with it the element. -/
  | hookStops (e : Element) (slots : List Slot) (hook : ElementHook) (stop : Stop) :
    Fills catalog e (.hook hook :: slots) [.ofHook e hook (some stop)]
  /-- An attribute gets an outcome. -/
  | attributeEnds {e : Element} {slots : List Slot} {ms : List Moment} (key : AttributeKey)
      (hooks : List AttributeHook) (outcome : Outcome Value) :
    (∀ error, outcome = .error error → error.isFatal = false) → Fills catalog e slots ms →
      Fills catalog e (.attribute key :: slots) (.ofAttribute e key hooks outcome :: ms)
  /-- An attribute fails in a way that ends the element. -/
  | attributeStops (e : Element) (slots : List Slot) (key : AttributeKey)
      (hooks : List AttributeHook) (error : CompileError) :
    error.isFatal = true →
      Fills catalog e (.attribute key :: slots) [.ofAttribute e key hooks (.error error)]
  /-- A child has its own block, which does not end that of the parent. -/
  | child {e child : Element} {slots : List Slot} {block ms : List Moment} {kind : ElementKind}
      {schema : Schema} :
    catalog.elementKind child.tag = .ok kind → kind.define child = .ok schema →
      Fills catalog child (catalog.slots schema child) block → Fills catalog e slots ms →
      Fills catalog e (.child child :: slots) (block ++ ms)
  /-- Nothing happens for a child with an unknown tag. -/
  | unknown {e child : Element} {slots : List Slot} {ms : List Moment} :
    catalog.knows child = false → Fills catalog e slots ms →
      Fills catalog e (.child child :: slots) ms
  /-- The kind of a child panics while it is looked up, which ends the parent. -/
  | childPanics {e child : Element} (slots : List Slot) {kind : ElementKind} {panic : Panic} :
    catalog.elementKind child.tag = .ok kind → kind.define child = .error panic →
      Fills catalog e (.child child :: slots) []

/-! ### The moments of an element fill its places -/

/-- The moments of a sequence and of what follows it are those of its first part and of all that
follows this. -/
theorem continued_seq {α β : Type} (h : Step α) (g : Step β) (p : Pass) (ms : List Moment)
    (ms' next : Pass → List Moment) :
    (ms ++ continued (Hook.exec h p) ms') ++ continued (Hook.exec (h >>= fun _ => g) p) next
      = ms ++ continued (Hook.exec h p) fun q => ms' q ++ continued (Hook.exec g q) next := by
  rw [Hook.exec_bind]
  rcases Hook.exec h p with ⟨stop | a, q⟩
  · simp
  · simp

section Places

variable {catalog : Catalog} {c : Construction} {slots : List Slot}

/-- A hook that can only panic fills its place, and what follows fills the others. -/
theorem fills_orStop {hook : ElementHook} {h : Hook Bench Panic Unit} {p : Pass}
    {next : Pass → List Moment}
    (hnext : ∀ q, Hook.exec (orStop (callForElement c hook h)) p = (.ok (), q) →
      Fills catalog c.node slots (next q)) :
    Fills catalog c.node (.hook hook :: slots)
      ([Pass.momentOfHook c hook (Hook.exec (orStop (callForElement c hook h)) p).1] ++
        continued (Hook.exec (orStop (callForElement c hook h)) p) next) := by
  rcases hrun : Hook.exec (orStop (callForElement c hook h)) p with ⟨stop | u, q⟩
  · exact .hookStops _ _ _ _
  · exact .hookEnds _ (hnext q hrun)

/-- An attribute fills its place, if it has one. -/
theorem fills_compileAttribute {name raw : String} {p : Pass} (hp : p.Sound)
    (hcatalog : p.environment.catalog = catalog) {next : Pass → List Moment}
    (hnext : ∀ q, Hook.exec (compileAttribute c name raw) p = (.ok (), q) →
      Fills catalog c.node slots (next q)) :
    Fills catalog c.node ((catalog.keys c.schema [(name, raw)]).map .attribute ++ slots)
      (p.momentsOfAttribute c name raw ++
        continued (Hook.exec (compileAttribute c name raw) p) next) := by
  rw [exec_compileAttribute] at hnext ⊢
  unfold Pass.momentsOfAttribute Catalog.keys
  -- a string has no slot: nothing is called for it
  by_cases hs : c.schema.typeOf name = "string"
  · simp only [if_pos hs] at hnext ⊢
    simpa [hs] using hnext _ rfl
  · simp only [if_neg hs] at hnext ⊢
    cases hk : p.coercion name (c.schema.typeOf name) raw c.node.base with
    | error e =>
      simp only [hk] at hnext
      -- nor has an attribute of a type that nobody knows
      have hkind := coercion_eq_error hk
      rw [hcatalog] at hkind
      simpa [hs, hkind, Except.isOk, Except.toBool] using hnext _ rfl
    | ok kp =>
      obtain ⟨k, p'⟩ := kp
      simp only [hk] at hnext ⊢
      obtain ⟨hp', ha⟩ := Pass.leads_coercion hk [] hp
      have hget := get?_of_coercion hk
      have hkind := hp'.key_kind hget
      rw [ha.environment, hcatalog] at hkind
      have hkey := hp'.key hget
      cases hrun : p'.coerce k with
      | mk outcome q =>
        simp only [hrun] at hnext ⊢
        simp only [List.filterMap_cons, hs, hkind, Except.isOk, Except.toBool, false_or,
          Bool.true_eq_false, if_false, List.filterMap_nil, List.map_cons, List.map_nil, hkey]
        -- the slot is filled, and the element goes on unless the error is fatal
        cases outcome with
        | ok value => exact .attributeEnds _ _ _ (fun _ h => by cases h) (hnext _ rfl)
        | error e =>
          cases hf : e.isFatal with
          | true =>
            simp only [hf, if_true]
            exact .attributeStops _ _ _ _ _ hf
          | false =>
            simp only [hf, Bool.false_eq_true, if_false] at hnext ⊢
            refine .attributeEnds _ _ _ (fun e' h => ?_) (hnext _ rfl)
            cases h
            exact hf

theorem fills_compileEach {attributes : List (String × String)} {p : Pass} (hp : p.Sound)
    (hcatalog : p.environment.catalog = catalog) {next : Pass → List Moment}
    (hnext : ∀ q, Hook.exec (compileEach c attributes) p = (.ok (), q) →
      Fills catalog c.node slots (next q)) :
    Fills catalog c.node ((catalog.keys c.schema attributes).map .attribute ++ slots)
      (Pass.momentsOfEach c attributes p ++
        continued (Hook.exec (compileEach c attributes) p) next) := by
  induction attributes generalizing p with
  | nil => exact hnext p rfl
  | cons a rest ih =>
    obtain ⟨name, raw⟩ := a
    -- the slots of the first attribute, and those of the others behind them
    have hsplit : (catalog.keys c.schema ((name, raw) :: rest)).map Slot.attribute ++ slots
        = (catalog.keys c.schema [(name, raw)]).map .attribute ++
          ((catalog.keys c.schema rest).map .attribute ++ slots) := by
      rw [← List.append_assoc, ← List.map_append]
      exact congrArg (fun keys => keys.map Slot.attribute ++ slots)
        (@List.filterMap_append _ _ [(name, raw)] rest _)
    rw [hsplit, compileEach_cons, Pass.momentsOfEach, continued_seq]
    refine fills_compileAttribute hp hcatalog fun q hq => ?_
    obtain ⟨hsound, ha⟩ := (leads_work c).compileAttribute name raw p hp
    rw [hq] at hsound ha
    refine ih hsound (by rw [ha.environment, hcatalog]) fun r hr => hnext r ?_
    rw [compileEach_cons, Hook.exec_bind_ok hq]
    exact hr

/-- What comes before the children fills its places. -/
theorem fills_compileAttributes {p : Pass} (hp : p.Sound)
    (hcatalog : p.environment.catalog = catalog) {next : Pass → List Moment}
    (hnext : ∀ q, Hook.exec (compileAttributes c) p = (.ok (), q) →
      Fills catalog c.node slots (next q)) :
    Fills catalog c.node
      (.hook .beforeAttributes ::
        ((catalog.keys c.schema c.node.attributes.entries).map .attribute ++
          .hook .afterAttributes :: slots))
      (p.momentsFirst c ++ continued (Hook.exec (compileAttributes c) p) next) := by
  rw [compileAttributes_eq, Hook.exec_bind_ok (Hook.exec_get p)] at hnext ⊢
  rw [Pass.momentsFirst, continued_seq]
  -- the hook before the attributes may stop the element, and then no slot is filled after it
  refine fills_orStop fun q hq => ?_
  obtain ⟨hsound, ha⟩ := Pass.leads_leave p c .beforeAttributes
    (Hook.exec (c.kind.beforeAttributes (p.view c)) (p.bench c)).2 hp
  have hleave : q = p.leave c .beforeAttributes
      (Hook.exec (c.kind.beforeAttributes (p.view c)) (p.bench c)).2 := (congrArg Prod.snd hq).symm
  rw [← hleave] at hsound ha
  rw [continued_seq]
  refine fills_compileEach hsound (by rw [ha.environment, hcatalog]) fun r hr => ?_
  rw [Hook.exec_bind_ok (Hook.exec_get r)]
  refine fills_orStop fun s hs => hnext s ?_
  rw [Hook.exec_bind_ok hq, Hook.exec_bind_ok hr, Hook.exec_bind_ok (Hook.exec_get r)]
  exact hs

/-- What comes after the children fills its places. -/
theorem fills_build (catalog : Catalog) (c : Construction) (p : Pass) :
    Fills catalog c.node [.hook .construct, .hook .finish] (p.momentsLast c) := by
  unfold Pass.momentsLast
  rcases Hook.exec (c.kind.construct (p.view c)) (p.bench c) with ⟨stop | value, bench⟩
  · exact .hookStops _ _ _ _
  · refine .hookEnds _ ?_
    simp only
    rcases Hook.exec (c.kind.finish (((p.leave c .construct bench).assignTo c value).view c) value)
      (((p.leave c .construct bench).assignTo c value).bench c) with ⟨stop | result, bench'⟩
    · exact .hookStops _ _ _ _
    · exact .hookEnds _ (.nil _)

end Places

mutual

/-- **The moments of an element fill its places.** -/
theorem fills_moments : ∀ (e : Element) {p : Pass} {c : Construction}, p.Ready e →
    p.released = false → p.Untouched e.children → p.constructions.get? e.id = some c →
    c.outcome? = none →
    Fills p.environment.catalog e (p.environment.catalog.slots c.schema e) (p.moments e)
  | ⟨id, tag, attributes, children, base⟩, p, c, h, hlive, hnew, hc, hopen => by
    obtain ⟨c', hc', hnode⟩ := h.construction
    rw [hc] at hc'
    cases hc'
    rw [moments_run hc hopen hlive]
    -- the attributes come first, with the two hooks around them
    have hfirst := @fills_compileAttributes p.environment.catalog c
      (children.map .child ++ [.hook .construct, .hook .finish]) p h.sound rfl
      (fun q => q.momentsBelow id children ++
        continued (Hook.exec (visit id children) q) fun r => r.momentsLast c) fun q hq => ?_
    · rw [hnode] at hfirst
      exact hfirst
    · -- then the children, which nothing has touched yet, and the last two hooks
      obtain ⟨hp₁, ha₁⟩ := (leads_work c).compileAttributes p h.sound
      rw [hq] at hp₁ ha₁
      rw [hnode] at ha₁
      have hready := (h.advance hp₁ ha₁).children
      have hnew₁ : q.Untouched children := hnew.past h.numbered ha₁
      rw [hnode, ← ha₁.environment]
      refine fills_visit ⟨id, tag, attributes, children, base⟩ children hready
        (ha₁.released.trans hlive) hnew₁ _ _ fun r hr => ?_
      have hlast := fills_build q.environment.catalog c r
      rw [hnode] at hlast
      exact hlast

/-- The moments of children fill the places of the children. -/
theorem fills_visit (parent : Element) : ∀ (children : List Element) {p : Pass},
    p.ReadyFor parent.id children → p.released = false → p.Untouched children →
    ∀ (slots : List Slot) (next : Pass → List Moment),
    (∀ q, Hook.exec (visit parent.id children) p = (.ok (), q) →
      Fills p.environment.catalog parent slots (next q)) →
    Fills p.environment.catalog parent (children.map .child ++ slots)
      (p.momentsBelow parent.id children ++
        continued (Hook.exec (visit parent.id children) p) next)
  | [], p, h, hlive, hnew, slots, next, hnext => by
    rw [Pass.momentsBelow]
    exact hnext p rfl
  | child :: rest, p, h, hlive, hnew, slots, next, hnext => by
    obtain ⟨-, ha⟩ := leads_visit parent.id [child] p h.sound
    have hrest := fills_visit parent rest h.rest (ha.released.trans hlive) (hnew.rest h) slots next
    rw [ha.environment] at hrest
    rw [Pass.momentsBelow]
    -- a panic in the declaration ends the element at once, so the slots behind stay empty
    by_cases hx : ∃ x, p.lookup child = .error (.panic x)
    · obtain ⟨x, hl⟩ := hx
      obtain ⟨-, ⟨e, -, he⟩ | ⟨kind, x', hkind, hdefine, -⟩⟩ := lookup_eq_error_iff.mp hl
      · cases he
      · have hstop : Hook.exec (visit parent.id (child :: rest)) p = (.error (.panic x), p) := by
          rw [exec_visit_cons, hl]
        rw [hstop, hl]
        exact .childPanics _ hkind hdefine
    · have hl' : ∀ x, p.lookup child ≠ .error (.panic x) := fun x hl => hx ⟨x, hl⟩
      rw [@exec_visit_of_not_panic parent.id child rest p hl'] at hnext ⊢
      cases hl : p.lookup child with
      | error stop =>
        cases stop with
        | panic x => exact absurd hl (hl' x)
        -- a child that nobody knows leaves no moment behind
        | error e => exact .unknown (not_knows_of_lookup_error hl) (hrest hnext)
      | ok cp =>
        obtain ⟨c, p'⟩ := cp
        -- the child is looked up for the first time here, so its block is a full one
        have hnone : p.constructions.get? child.id = none := hnew child (by
          rw [Element.preorderAll, Element.preorder_eq]
          exact List.mem_cons_self)
        have hready := h.first hl
        obtain ⟨k, hk, hopen⟩ := open_of_lookup parent.id hnone hl
        obtain ⟨k', hk', hnode⟩ := hready.construction
        rw [hk] at hk'
        cases hk'
        obtain ⟨-, ha'⟩ := Pass.Leads.trans _ _ _ (Pass.leads_lookup hl)
          (leads_handDown p' parent.id child.id) h.sound
        have hblock := fills_moments child hready (ha'.released.trans hlive) (hnew.below h hl) hk
          hopen
        have hsound := hready.sound.constructions _ _ hk
        rw [ha'.environment] at hblock hsound
        rw [List.append_assoc]
        exact .child (hnode ▸ hsound.node_kind) (hnode ▸ hsound.node_schema) hblock (hrest hnext)

end

/-! ### What the nesting says -/

/-- The element that a moment belongs to. -/
def Moment.node : Moment → Element
  | .ofHook node _ _ => node
  | .ofAttribute node _ _ _ => node

/-- A moment belongs to an element itself, at one of the hooks, or to the trees of the children. -/
def Moment.Within (e : Element) (hooks : List ElementHook) (children : List Element) (m : Moment) :
    Prop :=
  (m.node = e ∧ ∀ hook stop?, m = .ofHook e hook stop? → hook ∈ hooks) ∨
    m.node.id ∈ Element.idsAll children

theorem Moment.Within.mono {e : Element} {hooks hooks' : List ElementHook}
    {children children' : List Element} {m : Moment} (h : m.Within e hooks children)
    (hhooks : ∀ hook ∈ hooks, hook ∈ hooks')
    (hchildren : ∀ id ∈ Element.idsAll children, id ∈ Element.idsAll children') :
    m.Within e hooks' children' := by
  rcases h with ⟨hnode, hhook⟩ | hid
  · exact Or.inl ⟨hnode, fun hook stop? heq => hhooks _ (hhook hook stop? heq)⟩
  · exact Or.inr (hchildren _ hid)

/-- Moments of a whole block are those of the tree. -/
theorem Moment.Within.id_mem {e : Element} {hooks : List ElementHook} {m : Moment}
    (h : m.Within e hooks e.children) : m.node.id ∈ e.ids := by
  rw [Element.ids_eq]
  rcases h with ⟨hnode, -⟩ | hid
  · exact hnode ▸ List.mem_cons_self
  · exact List.mem_cons_of_mem _ hid

/-- Two moments are not the same hook of one element. -/
def Moment.Apart (m m' : Moment) : Prop :=
  ∀ node hook stop? node' stop?', m = .ofHook node hook stop? → m' = .ofHook node' hook stop?' →
    node.id ≠ node'.id

namespace Fills

variable {catalog : Catalog} {e : Element} {slots : List Slot} {ms : List Moment}

/-- What fills places belongs there. -/
theorem within (h : Fills catalog e slots ms) :
    ∀ m ∈ ms, m.Within e (Slot.hooks slots) (Slot.children slots) := by
  induction h with
  | nil e => exact fun _ hm => absurd hm List.not_mem_nil
  | hookEnds hook _ ih =>
    intro m hm
    rcases List.mem_cons.mp hm with rfl | hm
    · refine Or.inl ⟨rfl, fun hook' stop? heq => ?_⟩
      cases heq
      exact List.mem_cons_self
    · exact (ih m hm).mono (fun _ => List.mem_cons_of_mem _) fun _ => id
  | hookStops e slots hook stop =>
    intro m hm
    cases List.mem_singleton.mp hm
    refine Or.inl ⟨rfl, fun hook' stop? heq => ?_⟩
    cases heq
    exact List.mem_cons_self
  | attributeEnds key hooks outcome _ _ ih =>
    intro m hm
    rcases List.mem_cons.mp hm with rfl | hm
    · exact Or.inl ⟨rfl, fun hook' stop? heq => by cases heq⟩
    · exact ih m hm
  | attributeStops e slots key hooks error _ =>
    intro m hm
    cases List.mem_singleton.mp hm
    exact Or.inl ⟨rfl, fun hook' stop? heq => by cases heq⟩
  -- what happens in the block of a child happens in the tree of the child
  | @child e child slots block ms kind schema _ _ _ _ ih ih' =>
    intro m hm
    rcases List.mem_append.mp hm with hm | hm
    · have hwithin := ih m hm
      rw [children_slots] at hwithin
      refine Or.inr ?_
      rw [Slot.children_cons_child, Element.idsAll_cons]
      exact List.mem_append_left _ hwithin.id_mem
    · refine (ih' m hm).mono (fun _ => id) fun id hid => ?_
      rw [Slot.children_cons_child, Element.idsAll_cons]
      exact List.mem_append_right _ hid
  | unknown _ _ ih =>
    intro m hm
    refine (ih m hm).mono (fun _ => id) fun id hid => ?_
    rw [Slot.children_cons_child, Element.idsAll_cons]
    exact List.mem_append_right _ hid
  -- nothing happens any more
  | childPanics => exact fun _ hm => absurd hm List.not_mem_nil

/-- What fills places is nothing of trees that have no place. -/
theorem outside (h : Fills catalog e slots ms) {ids : List NodeId} (he : e.id ∉ ids)
    (hids : ∀ id ∈ Element.idsAll (Slot.children slots), id ∉ ids) :
    ∀ m ∈ ms, m.node.id ∉ ids := by
  intro m hm
  rcases h.within m hm with ⟨hnode, -⟩ | hid
  · exact hnode ▸ he
  · exact hids _ hid

/-- **No hook of an element is called twice.** -/
theorem pairwise (h : Fills catalog e slots ms) (hhooks : (Slot.hooks slots).Nodup)
    (he : e.id ∉ Element.idsAll (Slot.children slots))
    (hn : Element.NumberedAll (Slot.children slots)) : ms.Pairwise Moment.Apart := by
  induction h with
  | nil e => exact .nil
  | @hookEnds e slots ms hook h ih =>
    obtain ⟨hfirst, hrest⟩ := List.nodup_cons.mp hhooks
    refine .cons (fun m hm => ?_) (ih hrest he hn)
    intro node hook' stop? node' stop?' heq heq' hid
    cases heq
    -- the same hook has no other place, and the trees of the children have other numbers
    rcases h.within m hm with ⟨hnode, hhook⟩ | hmem
    · subst heq'
      cases hnode
      exact hfirst (hhook _ _ rfl)
    · subst heq'
      exact he (hid ▸ hmem)
  | hookStops => exact List.pairwise_singleton _ _
  -- moments of attributes are told apart by their keys and not here
  | attributeEnds key hooks outcome _ _ ih =>
    refine .cons (fun m _ => ?_) (ih hhooks he hn)
    intro node hook' stop? node' stop?' heq
    cases heq
  | attributeStops => exact List.pairwise_singleton _ _
  -- apart in the block, apart behind it, and apart from each other
  | @child e child slots block ms kind schema _ _ h h' ih ih' =>
    rw [Slot.children_cons_child, Element.idsAll_cons, List.mem_append, not_or] at he
    obtain ⟨hself, hrest, hsep⟩ := (Element.numberedAll_cons _ _).mp hn
    obtain ⟨hid, hbelow⟩ := (Element.numbered_iff _).mp hself
    have hblock := ih (by rw [hooks_slots]; decide) (by rwa [children_slots])
      (by rwa [children_slots])
    refine List.pairwise_append.mpr ⟨hblock, ih' hhooks he.2 hrest, ?_⟩
    -- the block and what comes after it belong to elements with other numbers
    intro m hm m' hm' node hook stop? node' stop?' heq heq' hsame
    have hwithin := h.within m hm
    rw [children_slots] at hwithin
    refine h'.outside he.1 (fun id hid hmem => hsep id hmem hid) m' hm' ?_
    subst heq heq'
    exact hsame ▸ hwithin.id_mem
  | unknown _ _ ih =>
    rw [Slot.children_cons_child, Element.idsAll_cons, List.mem_append, not_or] at he
    exact ih hhooks he.2 ((Element.numberedAll_cons _ _).mp hn).2.1
  | childPanics => exact .nil

end Fills

/-- The block of an element in a pass: nothing, or moments that fill the places of the element. -/
def Catalog.IsBlock (catalog : Catalog) (e : Element) (ms : List Moment) : Prop :=
  ms = [] ∨ ∃ kind schema, catalog.elementKind e.tag = .ok kind ∧ kind.define e = .ok schema ∧
    Fills catalog e (catalog.slots schema e) ms

/-- All moments that belong to the tree of an element stand together, and they are its block. -/
def Catalog.Holds (catalog : Catalog) (n : Element) (ms : List Moment) : Prop :=
  ∃ before block after, ms = before ++ block ++ after ∧ catalog.IsBlock n block ∧
    (∀ m ∈ block, m.node.id ∈ n.ids) ∧ ∀ m ∈ before ++ after, m.node.id ∉ n.ids

namespace Catalog.Holds

variable {catalog : Catalog} {n : Element} {ms : List Moment}

/-- Nothing belongs to the tree. -/
theorem of_outside (h : ∀ m ∈ ms, m.node.id ∉ n.ids) : catalog.Holds n ms :=
  ⟨ms, [], [], by rw [List.append_nil, List.append_nil], Or.inl rfl,
    fun _ hm => absurd hm List.not_mem_nil, by rwa [List.append_nil]⟩

/-- More moments in front that do not belong to the tree. -/
theorem prepend {before : List Moment} (h : catalog.Holds n ms)
    (hbefore : ∀ m ∈ before, m.node.id ∉ n.ids) : catalog.Holds n (before ++ ms) := by
  obtain ⟨u, b, v, rfl, hblock, hin, hout⟩ := h
  refine ⟨before ++ u, b, v, by simp only [List.append_assoc], hblock, hin, fun m hm => ?_⟩
  rw [List.append_assoc] at hm
  rcases List.mem_append.mp hm with hm | hm
  · exact hbefore m hm
  · exact hout m hm

theorem cons {m : Moment} (h : catalog.Holds n ms) (hm : m.node.id ∉ n.ids) :
    catalog.Holds n (m :: ms) :=
  (h.prepend (List.forall_mem_singleton.mpr hm) : catalog.Holds n ([m] ++ ms))

/-- More moments at the end that do not belong to the tree. -/
theorem append {after : List Moment} (h : catalog.Holds n ms)
    (hafter : ∀ m ∈ after, m.node.id ∉ n.ids) : catalog.Holds n (ms ++ after) := by
  obtain ⟨u, b, v, rfl, hblock, hin, hout⟩ := h
  refine ⟨u, b, v ++ after, by simp only [List.append_assoc], hblock, hin, fun m hm => ?_⟩
  rw [← List.append_assoc] at hm
  rcases List.mem_append.mp hm with hm | hm
  · exact hout m hm
  · exact hafter m hm

end Catalog.Holds

namespace Fills

variable {catalog : Catalog} {e : Element} {slots : List Slot} {ms : List Moment}

/-- The block of an element that is whole. -/
theorem holds_self {schema : Schema} {kind : ElementKind}
    (hkind : catalog.elementKind e.tag = .ok kind) (hdefine : kind.define e = .ok schema)
    (h : Fills catalog e (catalog.slots schema e) ms) : catalog.Holds e ms := by
  refine ⟨[], ms, [], by simp, Or.inr ⟨kind, schema, hkind, hdefine, h⟩, fun m hm => ?_, by simp⟩
  have hwithin := h.within m hm
  rw [children_slots] at hwithin
  exact hwithin.id_mem

/-- **Every element below has a block.** -/
theorem holds (h : Fills catalog e slots ms) (he : e.id ∉ Element.idsAll (Slot.children slots))
    (hn : Element.NumberedAll (Slot.children slots)) :
    ∀ n ∈ Element.preorderAll (Slot.children slots), catalog.Holds n ms := by
  induction h with
  | nil e => exact fun _ hmem => absurd hmem List.not_mem_nil
  | hookEnds hook _ ih =>
    -- what the element itself does comes before the trees of its children
    intro n hmem
    exact (ih he hn n hmem).cons fun hid => he (Element.ids_subset_idsAll hmem _ hid)
  -- the slots of the children stay empty, so nothing happens in their trees
  | hookStops e slots hook stop =>
    intro n hmem
    refine .of_outside (List.forall_mem_singleton.mpr fun hid => ?_)
    exact he (Element.ids_subset_idsAll hmem _ hid)
  | attributeEnds key hooks outcome _ _ ih =>
    intro n hmem
    exact (ih he hn n hmem).cons fun hid => he (Element.ids_subset_idsAll hmem _ hid)
  | attributeStops e slots key hooks error _ =>
    intro n hmem
    refine .of_outside (List.forall_mem_singleton.mpr fun hid => ?_)
    exact he (Element.ids_subset_idsAll hmem _ hid)
  | @child e child slots block ms kind schema hkind hdefine h h' ih ih' =>
    rw [Slot.children_cons_child, Element.idsAll_cons, List.mem_append, not_or] at he
    obtain ⟨hself, hrest, hsep⟩ := (Element.numberedAll_cons _ _).mp hn
    obtain ⟨hid, hbelow⟩ := (Element.numbered_iff _).mp hself
    have hblock : ∀ m ∈ block, m.node.id ∈ child.ids := fun m hm => by
      have hwithin := h.within m hm
      rw [children_slots] at hwithin
      exact hwithin.id_mem
    intro n hmem
    rw [Slot.children_cons_child, Element.preorderAll, List.mem_append] at hmem
    rcases hmem with hmem | hmem
    · -- it is in the tree of the child, so all that comes after the block is elsewhere
      have hids := Element.ids_subset hmem
      have hafter : ∀ m ∈ ms, m.node.id ∉ n.ids := fun m hm hmid =>
        h'.outside he.1 (fun id hid hmem => hsep id hmem hid) m hm (hids _ hmid)
      have hinside : catalog.Holds n block := by
        rw [Element.preorder_eq] at hmem
        rcases List.mem_cons.mp hmem with rfl | hmem
        · exact holds_self hkind hdefine h
        · rw [children_slots] at ih
          exact ih hid hbelow n hmem
      exact hinside.append hafter
    · -- it is in the tree of a later child, so the block comes before it
      exact (ih' he.2 hrest n hmem).prepend fun m hm hid =>
        hsep _ (hblock m hm) (Element.ids_subset_idsAll hmem _ hid)
  -- there is no block for this child, but there may be some for the others
  | @unknown e child slots ms _ h ih =>
    rw [Slot.children_cons_child, Element.idsAll_cons, List.mem_append, not_or] at he
    obtain ⟨-, hrest, hsep⟩ := (Element.numberedAll_cons _ _).mp hn
    intro n hmem
    rw [Slot.children_cons_child, Element.preorderAll, List.mem_append] at hmem
    rcases hmem with hmem | hmem
    · -- nothing happens in the tree of a child that is not found
      have hids := Element.ids_subset hmem
      refine .of_outside fun m hm hmid => ?_
      exact h.outside he.1 (fun id hid hmem => hsep id hmem hid) m hm (hids _ hmid)
    · exact ih he.2 hrest n hmem
  | childPanics => exact fun n _ => .of_outside (by simp)

end Fills

/-! ### No hook twice -/

/-- What holds of any two items with one before the other, wherever the list is taken apart. -/
theorem pairwise_of_split {α : Type} {R : α → α → Prop} {l : List α}
    (h : ∀ u v a, l = u ++ a :: v → ∀ b ∈ u, R b a) : l.Pairwise R := by
  induction l with
  | nil => exact .nil
  | cons a rest ih =>
    refine .cons (fun b hb => ?_) (ih fun u v c heq b hb => ?_)
    · obtain ⟨u, v, rfl⟩ := List.append_of_mem hb
      exact h (a :: u) v b rfl a List.mem_cons_self
    · exact h (a :: u) v c (by rw [heq]; rfl) b (List.mem_cons_of_mem _ hb)

namespace OncePerKey

variable {ms : List Moment}

/-- The hooks that are called for an attribute at one moment are different ones. -/
theorem nodup_calls (h : OncePerKey ms) {m : Moment} (hm : m ∈ ms) : m.calls.Nodup := by
  cases m with
  | ofHook => exact List.pairwise_singleton _ _
  | ofAttribute node key hooks outcome =>
    obtain ⟨u, v, rfl⟩ := List.append_of_mem hm
    have hhooks : hooks.Nodup := by
      -- the hooks of a key are called at its first moment, and not at later ones
      by_cases hold : ∃ m ∈ u, m.key? = some key
      · obtain ⟨m', hm', hkey⟩ := hold
        cases m' with
        | ofHook => cases hkey
        | ofAttribute node' key' hooks' outcome' =>
          cases hkey
          rw [(h.again u v _ _ _ _ rfl _ _ _ hm').1]
          exact .nil
      · have hfirst := h.first u v _ _ _ _ rfl fun m' hm' hkey => hold ⟨m', hm', hkey⟩
        exact hfirst.2.1.sublist.nodup (by decide)
    exact List.Pairwise.map _ (fun a b hne heq => hne (HookCall.attribute.inj heq).1) hhooks

/-- Two moments have no call in common. -/
theorem nodup_callsAt (h : OncePerKey ms) (hapart : ms.Pairwise Moment.Apart) :
    (callsAt ms).Nodup := by
  refine List.pairwise_flatMap.mpr ⟨fun m hm => h.nodup_calls hm, ?_⟩
  -- of two attributes with one key the later one calls no hook
  have hagain : ms.Pairwise fun m m' => ∀ node key hooks outcome node' hooks' outcome',
      m = .ofAttribute node key hooks outcome → m' = .ofAttribute node' key hooks' outcome' →
      hooks' = [] := by
    refine pairwise_of_split fun u v m' heq m hm => ?_
    rintro node key hooks outcome node' hooks' outcome' rfl rfl
    exact (h.again u v _ _ _ _ heq _ _ _ hm).1
  refine (hapart.and hagain).imp fun {m m'} hboth x hx y hy hxy => ?_
  obtain ⟨hapart, hagain⟩ := hboth
  subst hxy
  cases m with
  -- two hooks of elements: they are apart by place or by number
  | ofHook node hook stop? =>
    cases m' with
    | ofHook node' hook' stop?' =>
      cases List.mem_singleton.mp hx
      have heq := List.mem_singleton.mp hy
      injection heq with hhook hid htag
      subst hhook
      exact hapart node hook stop? node' stop?' rfl rfl hid
    | ofAttribute node' key hooks outcome =>
      cases List.mem_singleton.mp hx
      obtain ⟨hook', -, heq⟩ := List.mem_map.mp hy
      cases heq
  | ofAttribute node key hooks outcome =>
    obtain ⟨hook, -, rfl⟩ := List.mem_map.mp hx
    cases m' with
    | ofHook node' hook' stop?' => cases List.mem_singleton.mp hy
    | ofAttribute node' key' hooks' outcome' =>
      obtain ⟨hook', hmem, heq⟩ := List.mem_map.mp hy
      cases heq
      rw [hagain _ _ _ _ _ _ _ rfl rfl] at hmem
      cases hmem

end OncePerKey

/-! ### Documents -/

namespace Compilation

/-- The moments of the compile of a document. -/
def moments (c : Compilation) : List Moment :=
  match c.pass.lookup c.document.root with
  | .error _ => []
  | .ok (_, p) => p.moments c.document.root

/-- **A compile goes its course.** -/
structure Orderly (catalog : Catalog) (c : Compilation) : Prop where
  /-- The hooks that are called are those of the moments. -/
  trace : c.final.trace = callsAt c.moments
  /-- The moments of a root that is found fill its places. -/
  root : ∀ kind schema, catalog.elementKind c.document.root.tag = .ok kind →
    kind.define c.document.root = .ok schema →
    Fills catalog c.document.root (catalog.slots schema c.document.root) c.moments
  /-- Nothing happens for a root that is not found. -/
  absent : (∀ kind schema, catalog.elementKind c.document.root.tag = .ok kind →
    kind.define c.document.root ≠ .ok schema) → c.moments = []
  /-- All that belongs to the tree of an element stands together. -/
  blocks : ∀ n ∈ c.document.root.preorder, catalog.Holds n c.moments
  /-- Hooks are called for a key when it is asked for first, and never again. -/
  keys : OncePerKey c.moments
  /-- The outcomes of attributes are those that the pass keeps. -/
  outcomes : ∀ node key hooks outcome, Moment.ofAttribute node key hooks outcome ∈ c.moments →
    ∃ k, c.final.coercions.get? key = some k ∧ k.outcome? = some outcome
  /-- No hook is called twice. -/
  nodup : c.final.trace.Nodup

end Compilation

section Document

variable {environment : Environment} {document : Document} {base workingDirectory : Option Locator}
  {store : Store}

/-- A root that is not found leaves the pass as it was. -/
theorem orderly_of_lookup_error {stop : Stop}
    (hl : (Compilation.begin environment document base workingDirectory store).pass.lookup
      document.root = .error stop) :
    (Compilation.begin environment document base workingDirectory store).Orderly
      environment.catalog := by
  have hfinal := (Compilation.process_of_lookup_error hl).2
  -- nothing is processed, so all that is said of moments is said of none
  have hmoments : (Compilation.begin environment document base workingDirectory store).moments
      = [] := by
    simp only [Compilation.begin] at hl
    simp only [Compilation.moments, Compilation.begin, hl]
  constructor
  · rw [hmoments, hfinal]
    rfl
  · -- the kind is unknown, or it panics when it declares: either way there is no schema
    intro kind schema hkind hdefine
    obtain ⟨-, ⟨e, he, -⟩ | ⟨kind', x, hkind', hx, -⟩⟩ := lookup_eq_error_iff.mp hl
    · exact absurd (he.symm.trans hkind) (by simp)
    · cases hkind'.symm.trans hkind
      exact absurd (hx.symm.trans hdefine) (by simp)
  · exact fun _ => hmoments
  · exact fun n _ => .of_outside (by simp [hmoments])
  · rw [hmoments]
    exact .nil
  · rw [hmoments]
    exact fun node key hooks outcome hm => absurd hm List.not_mem_nil
  · rw [hfinal]
    exact .nil

/-- A look-up in a pass that has not begun makes a construction without an outcome, and nothing
else. -/
theorem of_lookup_begin {c : Construction} {p : Pass} {root : Element}
    (hl : (Pass.begin environment base store).lookup root = .ok (c, p)) :
    c.outcome? = none ∧ p.released = false ∧ p.trace = [] ∧ Recorded [] p := by
  obtain ⟨hfound, -⟩ | ⟨-, hmade, rfl⟩ := lookup_finds hl
  · cases hfound
  · refine ⟨hmade.outcome, rfl, rfl, .nil, ?_, ?_⟩
    · exact fun node key hooks outcome hm => absurd hm List.not_mem_nil
    · exact fun key k hk => by cases hk

/-- **The course of a compile.** The hooks that are called are those of the moments, and these fill
the places of the elements: each tree has a block of its own inside that of the parent, and what ends
an element early leaves its later places empty. No hook is called twice, and an attribute that comes
again has the outcome that it had. -/
theorem compile_orderly (environment : Environment) (document : Document)
    (base workingDirectory : Option Locator) (store : Store) (h : document.root.Numbered) :
    (Compilation.begin environment document base workingDirectory store).Orderly
      environment.catalog := by
  cases hl : (Compilation.begin environment document base workingDirectory store).pass.lookup
      document.root with
  | error stop => exact orderly_of_lookup_error hl
  | ok cp =>
    obtain ⟨c, p⟩ := cp
    have hready : p.Ready document.root := .of_lookup_begin h hl
    have hc := get?_of_lookup hl
    have hfinal := (Compilation.process_of_lookup hl).2
    have hmoments : (Compilation.begin environment document base workingDirectory store).moments
        = p.moments document.root := by
      simp only [Compilation.begin] at hl
      simp only [Compilation.moments, Compilation.begin, hl]
    obtain ⟨-, ha⟩ := Pass.leads_lookup hl (.initial _ _ _)
    have henv : p.environment = environment := ha.environment
    obtain ⟨hopen, hlive, hbegin, hpast⟩ := of_lookup_begin hl
    obtain ⟨c', hc', hnode⟩ := hready.construction
    cases hc.symm.trans hc'
    have hsound := hready.sound.constructions _ _ hc
    rw [henv] at hsound
    obtain ⟨hid, hbelow⟩ := (Element.numbered_iff _).mp h
    -- the root was looked up, and nothing below it
    have hnew : p.Untouched document.root.children := Pass.Untouched.past (fun _ _ => rfl) h ha
    have hfills := fills_moments document.root hready hlive hnew hc hopen
    rw [henv, ← hmoments] at hfills
    -- the slots have each hook once, which carries over to the moments
    have hapart := hfills.pairwise (by rw [hooks_slots]; decide) (by rwa [children_slots])
      (by rwa [children_slots])
    obtain ⟨-, htrace, hrecord⟩ := tells_process document.root p hready.sound
    rw [← hfinal, ← hmoments, hbegin, List.nil_append] at htrace
    obtain ⟨honce, hsettled, -⟩ := hrecord [] hpast
    rw [List.nil_append, ← hmoments] at honce hsettled
    rw [← hfinal] at hsettled
    refine ⟨htrace, ?_, ?_, ?_, honce, hsettled, ?_⟩
    · intro kind schema hkind hdefine
      cases (hnode ▸ hsound.node_kind).symm.trans hkind
      cases (hnode ▸ hsound.node_schema).symm.trans hdefine
      exact hfills
    · exact fun habsent => absurd (hnode ▸ hsound.node_schema) (habsent _ _ (hnode ▸ hsound.node_kind))
    · -- the root is known by what fills it, all others by the block they are in
      intro n hn
      rw [Element.preorder_eq] at hn
      rcases List.mem_cons.mp hn with rfl | hn
      · exact hfills.holds_self (hnode ▸ hsound.node_kind) (hnode ▸ hsound.node_schema)
      · exact hfills.holds (by rwa [children_slots]) (by rwa [children_slots]) n
          (by rwa [children_slots])
    · rw [htrace]
      exact honce.nodup_callsAt hapart

end Document

/-- The hooks of the attribute that two scalars share are called for the first one only, and the element
that panics has come to the making of its value. -/
theorem compile_orderly_troubled :
    troubledRoot.Numbered ∧ troubledCompile.Orderly fragileCatalog ∧
      callsAt troubledCompile.moments =
        [.element .beforeAttributes 4 "object", .element .afterAttributes 4 "object",
          .element .beforeAttributes 0 "data",
          .attribute .before ⟨"value", "number", "many"⟩,
          .attribute .construct ⟨"value", "number", "many"⟩,
          .element .afterAttributes 0 "data", .element .construct 0 "data", .element .finish 0 "data",
          .element .beforeAttributes 1 "data", .element .afterAttributes 1 "data",
          .element .construct 1 "data", .element .finish 1 "data",
          .element .beforeAttributes 2 "fragile", .element .afterAttributes 2 "fragile",
          .element .construct 2 "fragile",
          .element .construct 4 "object", .element .finish 4 "object"] := by
  have hn : troubledRoot.Numbered := Markup.Draft.numbered_build _ _ _
  have horderly : troubledCompile.Orderly fragileCatalog :=
    compile_orderly ⟨.empty, fragileCatalog⟩ ⟨troubledRoot, none⟩ none none .empty hn
  refine ⟨hn, horderly, ?_⟩
  rw [← horderly.trace]
  decide +kernel

end ObjectMarkup
