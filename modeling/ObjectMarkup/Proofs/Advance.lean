import ObjectMarkup.Proofs.Numbering
import ObjectMarkup.Proofs.Phases

/-!
# What processing leaves as it is

Processing an element changes the pass at the element, below it, and nowhere else. `Pass.Advances`
says what that means: the constructions of all other elements stay as they are, coercions that are
settled stay settled, and what was reported and called stays so. The main statement is
`advances_process`, for kinds with any hooks; it is proved for single steps first, then for the
phases, and then by induction on the tree.

A step knows the construction that it works on by its number, so all this needs passes in which
constructions and coercions are kept under the number and key that they carry. `Pass.Sound` says
that, and that their kinds are those of the catalog. A pass is sound when it begins, and every step
keeps it so. What comes of looking an element or an attribute up is said once, by `lookup_finds` and
`coercion_cases`; all that a look-up keeps is read off there.
-/

namespace ObjectMarkup

open Markup (Element NodeId)

/-- What a pass knows of an element, kept under a number. -/
structure Construction.Sound (environment : Environment) (id : NodeId) (c : Construction) :
    Prop where
  node_id : c.node.id = id
  node_kind : environment.catalog.elementKind c.node.tag = .ok c.kind
  /-- The schema is what the kind declares. -/
  node_schema : c.kind.define c.node = .ok c.schema

/-- What a pass knows of an attribute, kept under a key. -/
structure Coercion.Sound (environment : Environment) (base : Option Locator) (a : AttributeKey)
    (k : Coercion) : Prop where
  key : k.key = a
  key_kind : environment.catalog.attributeKind a.type = .ok k.kind
  /-- A base of the pass comes before any other one. -/
  key_base : ∀ b, base = some b → k.base = some b
  /-- An outcome is what the hooks have come to on some records. -/
  settled : ∀ o, k.outcome? = some o →
    ∃ s : Store, o = contain (Hook.exec (k.hooks environment) s).1

/-- All that a pass knows is sound. -/
structure Pass.Sound (p : Pass) : Prop where
  constructions : ∀ id c, p.constructions.get? id = some c → c.Sound p.environment id
  coercions : ∀ key k, p.coercions.get? key = some k → k.Sound p.environment p.base key

theorem Pass.Sound.initial (environment : Environment) (base : Option Locator) (store : Store) :
    (Pass.begin environment base store).Sound := by
  constructor <;> intro _ _ h <;> exact absurd h (by simp [Pass.begin])

namespace Pass.Sound

variable {p : Pass} {id : NodeId} {c : Construction} {a : AttributeKey} {k : Coercion}

theorem node_id (h : p.Sound) (hc : p.constructions.get? id = some c) : c.node.id = id :=
  (h.constructions id c hc).node_id

theorem node_kind (h : p.Sound) (hc : p.constructions.get? id = some c) :
    p.environment.catalog.elementKind c.node.tag = .ok c.kind :=
  (h.constructions id c hc).node_kind

theorem key (h : p.Sound) (hk : p.coercions.get? a = some k) : k.key = a :=
  (h.coercions a k hk).key

theorem key_kind (h : p.Sound) (hk : p.coercions.get? a = some k) :
    p.environment.catalog.attributeKind a.type = .ok k.kind :=
  (h.coercions a k hk).key_kind

end Pass.Sound

/-- What becomes of a coercion: it may be settled, if it is not so already. -/
structure Coercion.Becomes (c c' : Coercion) : Prop where
  key : c'.key = c.key
  base : c'.base = c.base
  kind : c'.kind = c.kind
  outcome : ∀ o, c.outcome? = some o → c'.outcome? = some o

/-- What becomes of a construction: its element, kind and schema stay. -/
structure Construction.Becomes (c c' : Construction) : Prop where
  node : c'.node = c.node
  kind : c'.kind = c.kind
  schema : c'.schema = c.schema

/-- Calls came to those that there were, for attributes and for elements with the numbers only. -/
def CallsGrow (ids : List NodeId) (calls calls' : List (HookCall × Bool)) : Prop :=
  ∃ added, calls' = added ++ calls ∧
    ∀ hook id tag noted, (HookCall.element hook id tag, noted) ∈ added → id ∈ ids

/-- **A pass goes on by work on the elements with the numbers.** -/
structure Pass.Advances (ids : List NodeId) (p q : Pass) : Prop where
  environment : q.environment = p.environment
  base : q.base = p.base
  released : q.released = p.released
  /-- What was reported stays reported. -/
  diagnostics : p.diagnostics <+: q.diagnostics
  /-- What was called stays called, and what is called is for these elements or attributes. -/
  calls : CallsGrow ids p.calls q.calls
  /-- A coercion stays, and so does its outcome. -/
  coercions : ∀ key c, p.coercions.get? key = some c →
    ∃ c', q.coercions.get? key = some c' ∧ c.Becomes c'
  /-- A construction stays. -/
  constructions : ∀ id c, p.constructions.get? id = some c →
    ∃ c', q.constructions.get? id = some c' ∧ c.Becomes c'
  /-- Nothing becomes of any other element. -/
  others : ∀ id, id ∉ ids → q.constructions.get? id = p.constructions.get? id

theorem Coercion.Becomes.refl (c : Coercion) : c.Becomes c :=
  ⟨rfl, rfl, rfl, fun _ h => h⟩

theorem Coercion.Becomes.trans {a b c : Coercion} (h : a.Becomes b) (h' : b.Becomes c) :
    a.Becomes c :=
  ⟨h'.key.trans h.key, h'.base.trans h.base, h'.kind.trans h.kind,
    fun o ho => h'.outcome o (h.outcome o ho)⟩

theorem Construction.Becomes.refl (c : Construction) : c.Becomes c :=
  ⟨rfl, rfl, rfl⟩

theorem Construction.Becomes.trans {a b c : Construction} (h : a.Becomes b) (h' : b.Becomes c) :
    a.Becomes c :=
  ⟨h'.node.trans h.node, h'.kind.trans h.kind, h'.schema.trans h.schema⟩

namespace CallsGrow

variable {ids : List NodeId} {a b c : List (HookCall × Bool)}

theorem refl (ids : List NodeId) (a : List (HookCall × Bool)) : CallsGrow ids a a :=
  ⟨[], rfl, fun _ _ _ _ h => absurd h List.not_mem_nil⟩

theorem trans (h : CallsGrow ids a b) (h' : CallsGrow ids b c) : CallsGrow ids a c := by
  obtain ⟨added, rfl, hadded⟩ := h
  obtain ⟨added', rfl, hadded'⟩ := h'
  refine ⟨added' ++ added, (List.append_assoc _ _ _).symm, fun hook id tag noted hmem => ?_⟩
  rcases List.mem_append.mp hmem with hmem | hmem
  · exact hadded' hook id tag noted hmem
  · exact hadded hook id tag noted hmem

theorem mono {ids' : List NodeId} (h : CallsGrow ids a b) (hs : ∀ id ∈ ids, id ∈ ids') :
    CallsGrow ids' a b := by
  obtain ⟨added, hb, hadded⟩ := h
  exact ⟨added, hb, fun hook id tag noted hmem => hs id (hadded hook id tag noted hmem)⟩

theorem cons_attribute (ids : List NodeId) (a : List (HookCall × Bool)) (hook : AttributeHook)
    (key : AttributeKey) (noted : Bool) : CallsGrow ids a ((.attribute hook key, noted) :: a) := by
  refine ⟨[(.attribute hook key, noted)], rfl, fun _ _ _ _ hmem => ?_⟩
  cases List.mem_singleton.mp hmem

theorem cons_element (a : List (HookCall × Bool)) (hook : ElementHook) (id : NodeId) (tag : String)
    (noted : Bool) : CallsGrow [id] a ((.element hook id tag, noted) :: a) := by
  refine ⟨[(.element hook id tag, noted)], rfl, fun _ _ _ _ hmem => ?_⟩
  cases List.mem_singleton.mp hmem
  exact List.mem_singleton_self id

end CallsGrow

namespace Pass.Advances

variable {ids : List NodeId} {p q r : Pass}

theorem refl (ids : List NodeId) (p : Pass) : p.Advances ids p where
  environment := rfl
  base := rfl
  released := rfl
  diagnostics := List.prefix_refl _
  calls := .refl _ _
  coercions := fun _ c h => ⟨c, h, .refl c⟩
  constructions := fun _ c h => ⟨c, h, .refl c⟩
  others := fun _ _ => rfl

theorem trans (h : p.Advances ids q) (h' : q.Advances ids r) : p.Advances ids r where
  environment := h'.environment.trans h.environment
  base := h'.base.trans h.base
  released := h'.released.trans h.released
  diagnostics := h.diagnostics.trans h'.diagnostics
  calls := h.calls.trans h'.calls
  coercions := fun key c hc => by
    obtain ⟨c', hc', hb⟩ := h.coercions key c hc
    obtain ⟨c'', hc'', hb'⟩ := h'.coercions key c' hc'
    exact ⟨c'', hc'', hb.trans hb'⟩
  constructions := fun id c hc => by
    obtain ⟨c', hc', hb⟩ := h.constructions id c hc
    obtain ⟨c'', hc'', hb'⟩ := h'.constructions id c' hc'
    exact ⟨c'', hc'', hb.trans hb'⟩
  others := fun id hid => (h'.others id hid).trans (h.others id hid)

theorem mono {j : List NodeId} (h : p.Advances ids q) (hs : ∀ id ∈ ids, id ∈ j) :
    p.Advances j q :=
  { h with
    calls := h.calls.mono hs
    others := fun id hid => h.others id fun hmem => hid (hs id hmem) }

end Pass.Advances

/-- A step that keeps passes sound and works on the elements with the numbers only. -/
def Pass.Leads (ids : List NodeId) (p q : Pass) : Prop :=
  p.Sound → q.Sound ∧ p.Advances ids q

namespace Pass.Leads

variable {ids : List NodeId}

theorem refl (ids : List NodeId) (p : Pass) : Leads ids p p :=
  fun h => ⟨h, .refl ids p⟩

theorem trans (p q r : Pass) (h : Leads ids p q) (h' : Leads ids q r) : Leads ids p r := by
  intro hp
  obtain ⟨hq, ha⟩ := h hp
  obtain ⟨hr, ha'⟩ := h' hq
  exact ⟨hr, ha.trans ha'⟩

theorem mono {ids' : List NodeId} {p q : Pass} (h : Leads ids p q)
    (hs : ∀ id ∈ ids, id ∈ ids') : Leads ids' p q :=
  fun hp => ⟨(h hp).1, (h hp).2.mono hs⟩

end Pass.Leads

/-! ### Looking elements and attributes up -/

/-- What the first look-up of an element makes of it. -/
structure Construction.MadeFor (environment : Environment) (e : Element) (c : Construction) :
    Prop where
  node : c.node = e
  kind : environment.catalog.elementKind e.tag = .ok c.kind
  schema : c.kind.define e = .ok c.schema
  values : c.values = .empty
  children : c.children = []
  outcome : c.outcome? = none

theorem Construction.MadeFor.sound {environment : Environment} {node : Element} {c : Construction}
    (h : c.MadeFor environment node) : c.Sound environment node.id := by
  obtain ⟨rfl, hkind, hschema, -, -, -⟩ := h
  exact ⟨rfl, hkind, hschema⟩

/-- A look-up finds a construction, or makes one of what the catalog gives. -/
theorem lookup_finds {p q : Pass} {node : Element} {c : Construction}
    (h : p.lookup node = .ok (c, q)) :
    (p.constructions.get? node.id = some c ∧ q = p) ∨
      (p.constructions.get? node.id = none ∧ c.MadeFor p.environment node ∧
        q = { p with constructions := p.constructions.insert node.id c }) := by
  unfold Pass.lookup at h
  split at h
  · -- known already, or made with what the catalog and the kind say
    next hc =>
    cases h
    exact .inl ⟨hc, rfl⟩
  · next hnone =>
    split at h
    · cases h
    · next kind hkind =>
      split at h
      · cases h
      · next schema hschema =>
        cases h
        exact .inr ⟨hnone, ⟨rfl, hkind, hschema, rfl, rfl, rfl⟩, rfl⟩

/-- What the first look-up of an attribute makes of it. -/
structure Coercion.MadeFor (p : Pass) (a : AttributeKey) (base : Option Locator) (k : Coercion) :
    Prop where
  key : k.key = a
  /-- A base of the pass comes before the one that is given. -/
  base : k.base = p.base.or base
  kind : p.environment.catalog.attributeKind a.type = .ok k.kind
  outcome : k.outcome? = none

theorem Coercion.MadeFor.sound {p : Pass} {a : AttributeKey} {base : Option Locator} {k : Coercion}
    (h : k.MadeFor p a base) : k.Sound p.environment p.base a where
  key := h.key
  key_kind := h.kind
  key_base b hb := by
    rw [h.base, hb]
    rfl
  settled o ho := by
    rw [h.outcome] at ho
    cases ho

/-- A look-up finds a coercion, or makes one of what the catalog gives. -/
theorem coercion_cases {p q : Pass} {name type value : String} {base : Option Locator}
    {k : Coercion} (h : p.coercion name type value base = .ok (k, q)) :
    (p.coercions.get? (AttributeKey.ofType name type value) = some k ∧ q = p) ∨
      (p.coercions.get? (AttributeKey.ofType name type value) = none ∧
        k.MadeFor p (AttributeKey.ofType name type value) base ∧
        q = { p with
          coercions := p.coercions.insert (AttributeKey.ofType name type value) k }) := by
  unfold Pass.coercion at h
  simp only at h
  split at h
  · -- known already, or made for this request
    next hk =>
    cases h
    exact Or.inl ⟨hk, rfl⟩
  · next hnone =>
    split at h
    · cases h
    · next kind hkind =>
      cases h
      exact Or.inr ⟨hnone, ⟨rfl, rfl, hkind, rfl⟩, rfl⟩

/-! ### Single steps -/

namespace Pass

/-- Whatever only touches records, calls and reports leads on, as long as it takes none back. -/
theorem leads_of_eq {ids : List NodeId} {p q : Pass} (he : q.environment = p.environment)
    (hb : q.base = p.base) (hr : q.released = p.released) (hc : q.constructions = p.constructions)
    (hk : q.coercions = p.coercions) (hd : p.diagnostics <+: q.diagnostics)
    (hs : CallsGrow ids p.calls q.calls) : Leads ids p q := by
  intro hp
  refine ⟨⟨?_, ?_⟩, ⟨he, hb, hr, hd, hs, ?_, ?_, ?_⟩⟩
  · rw [hc, he]; exact hp.constructions
  · rw [hk, he, hb]; exact hp.coercions
  · rw [hk]; exact fun key c h => ⟨c, h, .refl c⟩
  · rw [hc]; exact fun id c h => ⟨c, h, .refl c⟩
  · rw [hc]; exact fun _ _ => rfl

theorem leads_report (ids : List NodeId) (p : Pass) (d : Diagnostic) : Leads ids p (p.report d) :=
  leads_of_eq rfl rfl rfl rfl rfl (List.prefix_append _ _) (.refl _ _)

/-- A change of one construction that keeps its element, kind and schema. -/
theorem leads_modifyConstruction (p : Pass) {id : NodeId} {f : Construction → Construction}
    (hf : ∀ c : Construction, c.Becomes (f c)) : Leads [id] p (p.modifyConstruction id f) := by
  intro hp
  -- whatever is found now was found before, up to the change
  have hback : ∀ id' c', (p.modifyConstruction id f).constructions.get? id' = some c' →
      ∃ c, p.constructions.get? id' = some c ∧ c.Becomes c' := by
    intro id' c' h
    rw [modifyConstruction, OrderedMap.get?_modify] at h
    split at h
    · next heq =>
      obtain ⟨c, hc, rfl⟩ := Option.map_eq_some_iff.mp h
      exact ⟨c, heq ▸ hc, hf c⟩
    · exact ⟨c', h, .refl c'⟩
  refine ⟨⟨?_, hp.coercions⟩,
    ⟨rfl, rfl, rfl, List.prefix_refl _, .refl _ _, fun _ c h => ⟨c, h, .refl c⟩, ?_, ?_⟩⟩
  · -- soundness is about node, kind and schema, which the change keeps
    intro id' c' h
    obtain ⟨c, hc, hb⟩ := hback id' c' h
    obtain ⟨hid, hkind, hschema⟩ := hp.constructions id' c hc
    exact ⟨hb.node ▸ hid, hb.node ▸ hb.kind ▸ hkind, by rw [hb.node, hb.kind, hb.schema, hschema]⟩
  · intro id' c hc
    rw [modifyConstruction, OrderedMap.get?_modify]
    split
    · next heq => exact ⟨f c, by rw [← heq, hc, Option.map_some], hf c⟩
    · exact ⟨c, hc, .refl c⟩
  · intro id' hid
    rw [modifyConstruction, OrderedMap.get?_modify, if_neg (by simpa using hid)]

theorem leads_setValues (p : Pass) (id : NodeId) (values : OrderedMap String Value) :
    Leads [id] p (p.setValues id values) :=
  leads_modifyConstruction p fun _ => ⟨rfl, rfl, rfl⟩

theorem leads_setValue (p : Pass) (id : NodeId) (name : String) (value : Value) :
    Leads [id] p (p.setValue id name value) :=
  leads_modifyConstruction p fun _ => ⟨rfl, rfl, rfl⟩

theorem leads_adopt (p : Pass) (parent child : NodeId) : Leads [parent] p (p.adopt parent child) :=
  leads_modifyConstruction p fun _ => ⟨rfl, rfl, rfl⟩

theorem leads_settle (p : Pass) (id : NodeId) (outcome : Outcome Value) :
    Leads [id] p (p.settle id outcome) :=
  leads_modifyConstruction p fun _ => ⟨rfl, rfl, rfl⟩

theorem leads_leave (p : Pass) (c : Construction) (hook : ElementHook) (bench : Bench) :
    Leads [c.node.id] p (p.leave c hook bench) := by
  refine Leads.trans _ _ _ ?_ (leads_setValues _ _ _)
  exact leads_of_eq rfl rfl rfl rfl rfl (List.prefix_refl _) (.cons_element _ _ _ _ _)

/-- Looking an element up makes its construction, if there is none yet. -/
theorem leads_lookup {p q : Pass} {node : Element} {c : Construction}
    (h : p.lookup node = .ok (c, q)) : Leads [node.id] p q := by
  obtain ⟨-, rfl⟩ | ⟨hnone, hmade, rfl⟩ := lookup_finds h
  · exact Leads.refl _ _
  · intro hp
    refine ⟨⟨fun id' c' h => ?_, hp.coercions⟩,
      ⟨rfl, rfl, rfl, List.prefix_refl _, .refl _ _, fun _ c h => ⟨c, h, .refl c⟩,
        fun id' c' h => ?_, fun id' hid => ?_⟩⟩
    · -- what is found now is the new construction or was found before
      rw [OrderedMap.get?_insert] at h
      split at h
      · next heq =>
        obtain rfl := Option.some.inj h
        exact heq ▸ hmade.sound
      · exact hp.constructions id' c' h
    · refine ⟨c', ?_, .refl c'⟩
      -- the number was free, so nothing that was found before is replaced
      have hne : id' ≠ node.id := by
        rintro rfl
        rw [hnone] at h
        cases h
      rw [OrderedMap.get?_insert_of_ne _ hne, h]
    · exact OrderedMap.get?_insert_of_ne _ (by simpa using hid) _

/-- Looking an attribute up makes its coercion, if there is none yet. -/
theorem leads_coercion {p q : Pass} {name type value : String} {base : Option Locator}
    {k : Coercion} (h : p.coercion name type value base = .ok (k, q)) (ids : List NodeId) :
    Leads ids p q := by
  obtain ⟨-, rfl⟩ | ⟨hnone, hmade, rfl⟩ := coercion_cases h
  · exact Leads.refl _ _
  · intro hp
    refine ⟨⟨hp.constructions, fun key k h => ?_⟩,
      ⟨rfl, rfl, rfl, List.prefix_refl _, .refl _ _, fun key c h => ?_,
        fun _ c h => ⟨c, h, .refl c⟩, fun _ _ => rfl⟩⟩
    · -- the new coercion is sound, and the others were
      rw [OrderedMap.get?_insert] at h
      split at h
      · next heq =>
        obtain rfl := Option.some.inj h
        exact heq ▸ hmade.sound
      · exact hp.coercions key k h
    · refine ⟨c, ?_, .refl c⟩
      have hne : key ≠ AttributeKey.ofType name type value := by
        rintro rfl
        rw [hnone] at h
        cases h
      rw [OrderedMap.get?_insert_of_ne _ hne, h]

/-- Settling a coercion that has no outcome with what its hooks have come to. -/
theorem leads_settleCoercion (p : Pass) {key : AttributeKey} (outcome : Outcome Value)
    (hopen : ∀ k, p.coercions.get? key = some k → k.outcome? = none ∧
      ∃ s : Store, outcome = contain (Hook.exec (k.hooks p.environment) s).1)
    (ids : List NodeId) :
    Leads ids p (p.settleCoercion key outcome) := by
  intro hp
  refine ⟨⟨hp.constructions, ?_⟩,
    ⟨rfl, rfl, rfl, List.prefix_refl _, .refl _ _, ?_,
      fun _ c h => ⟨c, h, .refl c⟩, fun _ _ => rfl⟩⟩
  · intro key' k h
    rw [settleCoercion, OrderedMap.get?_modify] at h
    split at h
    · next heq =>
      subst heq
      obtain ⟨k₀, hk₀, rfl⟩ := Option.map_eq_some_iff.mp h
      obtain ⟨hkey, hkind, hbase, -⟩ := hp.coercions key' k₀ hk₀
      -- sound, because the outcome is what the hooks have come to on some store
      obtain ⟨-, s, ho⟩ := hopen k₀ hk₀
      exact ⟨hkey, hkind, hbase, fun o ho' => ⟨s, (Option.some.inj ho').symm.trans ho⟩⟩
    · exact hp.coercions key' k h
  · intro key' c h
    rw [settleCoercion, OrderedMap.get?_modify]
    split
    · next heq =>
      subst heq
      -- an outcome that was there would stay, but there was none
      refine ⟨{ c with outcome? := some outcome }, by rw [h, Option.map_some], rfl, rfl, rfl,
        fun o ho => ?_⟩
      rw [(hopen c h).1] at ho
      cases ho
    · exact ⟨c, h, .refl c⟩

end Pass

/-! ### Attributes -/

/-- What hooks of attributes can change: the records, besides being remembered. -/
def Pass.OnlyRecords (p q : Pass) : Prop :=
  ∃ store calls, CallsGrow [] p.calls calls ∧ q = { p with store := store, calls := calls }

namespace Pass.OnlyRecords

theorem refl (p : Pass) : OnlyRecords p p :=
  ⟨p.store, p.calls, .refl _ _, rfl⟩

theorem trans (p q r : Pass) (h : OnlyRecords p q) (h' : OnlyRecords q r) : OnlyRecords p r := by
  obtain ⟨store, calls, hs, rfl⟩ := h
  obtain ⟨store', calls', hs', rfl⟩ := h'
  exact ⟨store', calls', hs.trans hs', rfl⟩

theorem leads {p q : Pass} (h : OnlyRecords p q) (ids : List NodeId) : Leads ids p q := by
  obtain ⟨store, calls, hs, rfl⟩ := h
  exact leads_of_eq rfl rfl rfl rfl rfl (List.prefix_refl _) (hs.mono (by simp))

end Pass.OnlyRecords

theorem keeps_callForAttribute {ε α : Type} (c : Coercion) (hook : AttributeHook)
    (h : Hook Store ε α) : Hook.Keeps Pass.OnlyRecords (callForAttribute c hook h) :=
  fun _ => ⟨_, _, .cons_attribute _ _ _ _ _, rfl⟩

/-- The hooks of an attribute change the records at most. -/
theorem keeps_makeValue (c : Coercion) : Hook.Keeps Pass.OnlyRecords (makeValue c) := by
  have hbind {α β : Type} {h : Step α} {f : α → Step β} (hh : Hook.Keeps Pass.OnlyRecords h)
      (hf : ∀ a, Hook.Keeps Pass.OnlyRecords (f a)) : Hook.Keeps Pass.OnlyRecords (h >>= f) :=
    Hook.Keeps.bind Pass.OnlyRecords.trans hh hf
  unfold makeValue
  refine hbind (Hook.Keeps.get Pass.OnlyRecords.refl) fun p => ?_
  refine hbind (Hook.Keeps.adapt (keeps_callForAttribute _ _ _) _) fun _ => ?_
  exact hbind (keeps_callForAttribute _ _ _) fun _ => keeps_callForAttribute _ _ _

/-- The coercion that is meant: the one that the pass has, which may be settled by now. -/
def Pass.currentCoercion (p : Pass) (c : Coercion) : Coercion :=
  (p.coercions.get? c.key).getD c

theorem Pass.Sound.currentCoercion {p : Pass} (hp : p.Sound) {key : AttributeKey} {k : Coercion}
    (hk : p.coercions.get? key = some k) : p.currentCoercion k = k := by
  rw [Pass.currentCoercion, hp.key hk, hk, Option.getD_some]

/-- A coercion gives its outcome, or makes one and is settled with it. -/
theorem Pass.coerce_eq (p : Pass) (c : Coercion) :
    p.coerce c =
      match (p.currentCoercion c).outcome? with
      | some outcome => (outcome, p)
      | none =>
        let run := Hook.exec (makeValue (p.currentCoercion c)) p
        (contain run.1, run.2.settleCoercion (p.currentCoercion c).key (contain run.1)) := rfl

theorem leads_coerce (p : Pass) (c : Coercion) (ids : List NodeId) :
    Pass.Leads ids p (p.coerce c).2 := by
  rw [Pass.coerce_eq]
  cases ho : (p.currentCoercion c).outcome? with
  -- settled before: nothing is called
  | some outcome => exact Pass.Leads.refl _ _
  | none =>
    have hrun := keeps_makeValue (p.currentCoercion c) p
    intro hp
    refine Pass.Leads.trans _ _ _ (hrun.leads ids) (Pass.leads_settleCoercion _ _ ?_ _) hp
    -- the hooks leave the coercions alone, so the one that is settled has no outcome yet
    intro k hk
    obtain ⟨store, calls, -, hq⟩ := hrun
    rw [hq] at hk ⊢
    unfold Pass.currentCoercion at hk ho
    cases hc : p.coercions.get? c.key with
    | none =>
      rw [hc, Option.getD_none, hc] at hk
      cases hk
    | some k₀ =>
      rw [hc, Option.getD_some] at hk ho
      rw [hp.key hc, hc] at hk
      cases hk
      obtain ⟨calls', hmake⟩ := exec_makeValue k p
      refine ⟨ho, p.store, ?_⟩
      rw [Pass.currentCoercion, hc, Option.getD_some, hmake]

/-- What coercing leaves as it is: all but records, calls and coercions. -/
def Pass.OnlyCoerces (p q : Pass) : Prop :=
  ∃ store calls coercions,
    q = { p with store := store, calls := calls, coercions := coercions }

theorem onlyCoerces_coercion {p q : Pass} {name type value : String} {base : Option Locator}
    {k : Coercion} (h : p.coercion name type value base = .ok (k, q)) : p.OnlyCoerces q := by
  obtain ⟨-, rfl⟩ | ⟨-, -, rfl⟩ := coercion_cases h <;> exact ⟨_, _, _, rfl⟩

theorem onlyCoerces_coerce (p : Pass) (k : Coercion) : p.OnlyCoerces (p.coerce k).2 := by
  rw [Pass.coerce_eq]
  cases (p.currentCoercion k).outcome? with
  | some outcome => exact ⟨_, _, _, rfl⟩
  | none =>
    obtain ⟨store, calls, -, hq⟩ := keeps_makeValue (p.currentCoercion k) p
    simp only [Pass.settleCoercion, hq]
    exact ⟨_, _, _, rfl⟩

/-- Coercing leaves the elements alone. -/
theorem constructions_coerce {p q : Pass} {name type value : String} {base : Option Locator}
    {k : Coercion} (h : p.coercion name type value base = .ok (k, q)) :
    (q.coerce k).2.constructions = p.constructions := by
  obtain ⟨_, _, _, hlookup⟩ := onlyCoerces_coercion h
  obtain ⟨_, _, _, hcoerce⟩ := onlyCoerces_coerce q k
  rw [hcoerce, hlookup]

/-! ### The phases of an element -/

theorem keeps_callForElement {ε α : Type} (c : Construction) (hook : ElementHook)
    (h : Hook Bench ε α) : Hook.Keeps (Pass.Leads [c.node.id]) (callForElement c hook h) :=
  fun p => Pass.leads_leave p c hook _

theorem leads_assignTo (ids : List NodeId) (p : Pass) (c : Construction) (value : Value) :
    Pass.Leads ids p (p.assignTo c value) := by
  cases value with
  | record record => exact Pass.leads_of_eq rfl rfl rfl rfl rfl (List.prefix_refl _) (.refl _ _)
  | _ => exact Pass.Leads.refl _ _

/-- **The steps of an element** work on that element, apart from the visits to its children. -/
theorem leads_work (c : Construction) : KeptByWork (Pass.Leads [c.node.id]) c where
  refl := Pass.Leads.refl _
  trans := Pass.Leads.trans
  leave p hook bench := Pass.leads_leave p c hook bench
  setValue p name value := Pass.leads_setValue p c.node.id name value
  report p d := Pass.leads_report _ p d
  coerce hk := Pass.Leads.trans _ _ _ (Pass.leads_coercion hk _) (leads_coerce _ _ _)
  assignTo p value := leads_assignTo _ p c value

/-- Handing values down is setting values of the child, one after the other. -/
theorem handDown_induction {R : Pass → Pass → Prop} (hrefl : ∀ p, R p p)
    (htrans : ∀ p q r, R p q → R q r → R p r) {child : NodeId}
    (hset : ∀ p name value, R p (p.setValue child name value)) (p : Pass) (parent : NodeId) :
    R p (p.handDown parent child) := by
  unfold Pass.handDown
  split
  · exact hrefl p
  · next c hc =>
    -- the values are those of the parent at the start, so that it is found there is not needed
    clear hc
    induction Schema.forwardedNames c.schema generalizing p with
    | nil => exact hrefl p
    | cons name rest ih =>
      rw [List.foldl_cons]
      split
      · exact htrans _ _ _ (hset p name _) (ih _)
      · exact ih p

theorem leads_handDown (p : Pass) (parent child : NodeId) :
    Pass.Leads [child] p (p.handDown parent child) :=
  handDown_induction (Pass.Leads.refl _) Pass.Leads.trans
    (fun p => Pass.leads_setValue p child) p parent

/-! ### Elements -/

theorem leads_reportOutcome (ids : List NodeId) (p : Pass) (child : Element)
    (outcome : Outcome Value) : Pass.Leads ids p (p.reportOutcome child outcome) := by
  cases outcome with
  | ok value => exact Pass.Leads.refl _ _
  | error e => exact Pass.leads_report _ _ _

/-- The phases of an element work on the element, apart from the visits to its children. -/
theorem keeps_phases_of_visit {c : Construction} {id : NodeId} (hid : c.node.id = id)
    {children : List Element}
    (hvisit : Hook.Keeps (Pass.Leads (id :: Element.idsAll children)) (visit id children)) :
    Hook.Keeps (Pass.Leads (id :: Element.idsAll children)) (phases c id children) := by
  refine Hook.Keeps.bind Pass.Leads.trans (fun q => ?_) fun _ =>
    Hook.Keeps.bind Pass.Leads.trans hvisit fun _ => fun q => ?_
  · exact ((leads_work c).compileAttributes q).mono (by simp [hid])
  · exact ((leads_work c).build q).mono (by simp [hid])

mutual

/-- Processing an element works on the element and those below it. -/
theorem leads_process : ∀ (e : Element) (p : Pass), Pass.Leads e.ids p (process e p).2
  | ⟨id, tag, attributes, children, base⟩, p => by
    intro hp
    cases hc : p.constructions.get? id with
    | none =>
      rw [process_absent hc]
      exact Pass.Leads.refl _ _ hp
    | some c =>
      cases ho : c.outcome? with
      | some outcome =>
        rw [process_settled hc ho]
        exact Pass.Leads.refl _ _ hp
      | none =>
        cases hr : p.released with
        | true =>
          rw [process_released hc ho hr]
          -- given up: it is settled without work
          exact (Pass.leads_settle p id _).mono (by simp) hp
        | false =>
          -- the phases work on the number that the construction carries
          have hid : c.node.id = id := hp.node_id hc
          have hphases := keeps_phases_of_visit hid (leads_visit id children)
          rw [process_run hc ho hr, Element.ids_mk]
          exact Pass.Leads.trans _ _ _ (hphases p)
            ((Pass.leads_settle _ id _).mono (by simp)) hp

/-- Visiting children works on the parent and on the trees of the children. -/
theorem leads_visit (parent : NodeId) :
    ∀ children : List Element,
      Hook.Keeps (Pass.Leads (parent :: Element.idsAll children)) (visit parent children)
  | [] => fun p => Pass.Leads.refl _ p
  | child :: rest => by
    intro p
    have hrest : ∀ q, Pass.Leads (parent :: Element.idsAll (child :: rest)) q
        (Hook.exec (visit parent rest) q).2 :=
      fun q => (leads_visit parent rest q).mono (by simp +contextual)
    rw [exec_visit_cons]
    split
    · -- a panic ends the visit, and an unknown child is only reported
      exact Pass.Leads.refl _ _
    · exact Pass.Leads.trans _ _ _ (Pass.leads_report _ _ _) (hrest _)
    · next c p' hl =>
      -- look-up, handing down, processing, report and adoption, one after the other
      have hfound : Pass.Leads (parent :: child.ids) p (visitFound parent child p') := by
        refine Pass.Leads.trans _ _ _ ((Pass.leads_lookup hl).mono ?_) ?_
        · simp [Element.id_mem_ids]
        refine Pass.Leads.trans _ _ _ ((leads_handDown p' parent child.id).mono ?_) ?_
        · simp [Element.id_mem_ids]
        let run := process child (p'.handDown parent child.id)
        refine Pass.Leads.trans _ run.2 _ ((leads_process child _).mono (by simp +contextual)) ?_
        refine Pass.Leads.trans _ _ _ (leads_reportOutcome _ run.2 child run.1) ?_
        exact (Pass.leads_adopt _ parent child.id).mono (by simp)
      exact Pass.Leads.trans _ _ _ (hfound.mono (by simp +contextual)) (hrest _)

end

theorem keeps_phases {c : Construction} {id : NodeId} (hid : c.node.id = id)
    (children : List Element) :
    Hook.Keeps (Pass.Leads (id :: Element.idsAll children)) (phases c id children) :=
  keeps_phases_of_visit hid (leads_visit id children)

/-- **Processing an element changes nothing outside its tree,** and keeps the pass sound. -/
theorem advances_process {p : Pass} (hp : p.Sound) (e : Element) :
    (process e p).2.Sound ∧ p.Advances e.ids (process e p).2 :=
  leads_process e p hp

/-- **Processing settles.** The outcome that is given is the one that is kept. -/
theorem process_settles {p : Pass} (hp : p.Sound) {e : Element} {c : Construction}
    (hc : p.constructions.get? e.id = some c) :
    ∃ c', (process e p).2.constructions.get? e.id = some c' ∧ c.Becomes c' ∧
      c'.outcome? = some (process e p).1 := by
  -- settling an element that is there leaves it there with the outcome
  have hsettle : ∀ (q : Pass) (c₁ : Construction) (o : Outcome Value), c.Becomes c₁ →
      q.constructions.get? e.id = some c₁ →
      ∃ c', (q.settle e.id o).constructions.get? e.id = some c' ∧ c.Becomes c' ∧
        c'.outcome? = some o := by
    intro q c₁ o hb hc₁
    refine ⟨{ c₁ with outcome? := some o }, ?_, ⟨hb.node, hb.kind, hb.schema⟩, rfl⟩
    rw [Pass.settle, Pass.modifyConstruction, OrderedMap.get?_modify_self, hc₁, Option.map_some]
  cases ho : c.outcome? with
  | some outcome =>
    rw [process_settled hc ho]
    exact ⟨c, hc, .refl c, ho⟩
  | none =>
    cases hr : p.released with
    | true =>
      -- whichever way it ends, the outcome is settled last
      rw [process_released hc ho hr]
      exact hsettle p c _ (.refl c) hc
    | false =>
      rw [process_run hc ho hr]
      have hid : c.node.id = e.id := hp.node_id hc
      obtain ⟨c₁, hc₁, hb⟩ := (keeps_phases hid e.children p hp).2.constructions _ _ hc
      exact hsettle _ c₁ _ hb hc₁

end ObjectMarkup
