import ObjectMarkup.Proofs.Containment

/-!
# The values of an element

An element gets its values from three sides: its parent hands values down before it begins, its own
attributes set values, and its hooks may set any. This module says what becomes of the value under
one name in the first two of them, for kinds with any hooks.

What is handed down lies over what the element has (`Schema.overlay`), under the names that the
parent's schema forwards and the parent has a value for, and as it is. An attribute sets a value if
it has one: its raw text if its type is a string, else the value that its coercion has come to
(`Pass.attributeValue?`). An attribute that has failed sets nothing, so whatever was there stays.
Both are read off in the end, from any later pass, as the coercions keep their outcomes.
-/

namespace ObjectMarkup

open Markup (Element NodeId)

/-! ### Handing down -/

namespace Schema

/-- Whether the value of an attribute is handed down. -/
def forwards (s : Schema) (name : String) : Bool :=
  (s.get? name).any Declaration.forwarded

theorem mem_forwardedNames_iff {s : Schema} {name : String} :
    name ∈ s.forwardedNames ↔ s.forwards name = true := by
  unfold forwardedNames forwards
  rw [List.mem_map, Option.any_eq_true]
  refine ⟨fun ⟨e, he, hname⟩ => ?_, fun ⟨d, hd, hforwarded⟩ => ?_⟩
  · obtain ⟨hmem, hforwarded⟩ := List.mem_filter.mp he
    rw [← hname]
    exact ⟨e.2, OrderedMap.get?_of_mem_entries hmem, hforwarded⟩
  · exact ⟨(name, d), List.mem_filter.mpr ⟨OrderedMap.mem_entries_of_get? hd, hforwarded⟩, rfl⟩

/-- The values of a child when those of the parent, whose schema this is, were handed down to it. -/
def overlay (s : Schema) (given own : OrderedMap String Value) : OrderedMap String Value :=
  s.forwardedNames.foldl (fun values name =>
    match given.get? name with
    | some value => values.insert name value
    | none => values) own

/-- What is handed down comes before what the child has. -/
theorem get?_overlay (s : Schema) (given own : OrderedMap String Value) (name : String) :
    (s.overlay given own).get? name
      = (if s.forwards name then given.get? name else none).or (own.get? name) := by
  have hfold : ∀ (names : List String) (own : OrderedMap String Value),
      (names.foldl (fun values name =>
        match given.get? name with
        | some value => values.insert name value
        | none => values) own).get? name
        = (if name ∈ names then given.get? name else none).or (own.get? name) := by
    intro names
    induction names with
    | nil =>
      intro own
      rw [if_neg List.not_mem_nil]
      rfl
    | cons first rest ih =>
      intro own
      rw [List.foldl_cons, ih]
      -- a name that comes again is given the same value again
      by_cases heq : name = first
      · subst heq
        rw [if_pos List.mem_cons_self]
        cases given.get? name with
        | none => rw [ite_self]
        | some value => rw [OrderedMap.get?_insert_self]; split <;> rfl
      · have hmem : name ∈ first :: rest ↔ name ∈ rest := by
          rw [List.mem_cons, or_iff_right heq]
        simp only [hmem]
        cases given.get? first with
        | none => rfl
        | some value => rw [OrderedMap.get?_insert_of_ne _ heq]
  rw [overlay, hfold]
  simp only [mem_forwardedNames_iff]

end Schema

/-- **Handing down** lays the forwarded values of the parent over those of the child, and changes
nothing else of it. -/
theorem get?_handDown {p : Pass} {parent child : NodeId} {c k : Construction}
    (hc : p.constructions.get? parent = some c) (hk : p.constructions.get? child = some k) :
    (p.handDown parent child).constructions.get? child
      = some { k with values := c.schema.overlay c.values k.values } := by
  unfold Pass.handDown Schema.overlay
  simp only [hc]
  -- the values are those of the parent at the start, so that it is found there is not needed
  clear hc
  induction Schema.forwardedNames c.schema generalizing p k with
  | nil => exact hk
  | cons name rest ih =>
    rw [List.foldl_cons, List.foldl_cons]
    cases c.values.get? name with
    | none => exact ih hk
    | some value => exact ih (Pass.get?_setValue hk name value)

/-! ### Attributes -/

/-- The value that an attribute has come to, if it has: its raw text if it is a string, else what
its coercion was settled with. -/
def Pass.attributeValue? (q : Pass) (name type raw : String) : Option Value :=
  if type = "string" then some (.string raw)
  else
    let key := AttributeKey.ofType name type raw
    match q.environment.catalog.attributeKind key.type with
    | .error _ => none
    | .ok _ =>
      match (q.coercions.get? key).bind Coercion.outcome? with
      | some (.ok value) => some value
      | _ => none

/-- The value of an attribute that was coerced, read from any later pass. -/
theorem attributeValue?_of_coerce {p p' q : Pass} (hp : p.Sound) {name type raw : String}
    {base : Option Locator} {k : Coercion} {ids : List NodeId} (hs : type ≠ "string")
    (h : p.coercion name type raw base = .ok (k, p')) (hq : (p'.coerce k).2.Advances ids q) :
    q.attributeValue? name type raw =
      match (p'.coerce k).1 with
      | .ok value => some value
      | .error _ => none := by
  obtain ⟨⟨kind, hkind⟩, ho⟩ := outcome_of_coerce hp h hq
  simp only [Pass.attributeValue?, if_neg hs, hkind, ho]
  cases (p'.coerce k).1 <;> rfl

/-- The values of an element differ from earlier ones at most under the names of some attributes.
There they are those of the attributes that have one. -/
def SetBy (q : Pass) (s : Schema) (attributes : List (String × String))
    (before after : OrderedMap String Value) : Prop :=
  ∀ name, after.get? name
    = ((attributes.lookup name).bind fun raw => q.attributeValue? name (s.typeOf name) raw).or
        (before.get? name)

section SetBy

variable {q : Pass} {s : Schema} {name raw : String} {values : OrderedMap String Value}

theorem setBy_insert {value : Value}
    (h : q.attributeValue? name (s.typeOf name) raw = some value) :
    SetBy q s [(name, raw)] values (values.insert name value) := by
  intro other
  by_cases heq : other = name
  · subst heq
    rw [OrderedMap.get?_insert_self, List.lookup_cons_self, Option.bind_some, h]
    rfl
  · rw [OrderedMap.get?_insert_of_ne _ heq, List.lookup_cons, beq_eq_false_iff_ne.mpr heq]
    rfl

theorem setBy_self (h : q.attributeValue? name (s.typeOf name) raw = none) :
    SetBy q s [(name, raw)] values values := by
  intro other
  by_cases heq : other = name
  · subst heq
    rw [List.lookup_cons_self, Option.bind_some, h]
    rfl
  · rw [List.lookup_cons, beq_eq_false_iff_ne.mpr heq]
    rfl

end SetBy

/-- **An attribute.** Compiling one sets its value, if it has one. -/
theorem setBy_compileAttribute {p q r : Pass} (hp : p.Sound) {c k : Construction}
    (hk : p.constructions.get? c.node.id = some k) {name raw : String} {ids : List NodeId}
    (hrun : Hook.exec (compileAttribute c name raw) p = (.ok (), r)) (hq : r.Advances ids q) :
    ∃ values, r.constructions.get? c.node.id = some { k with values := values } ∧
      SetBy q c.schema [(name, raw)] k.values values := by
  have hseen : (Hook.exec (compileAttribute c name raw) p).2.Advances ids q := by
    rw [hrun]
    exact hq
  rw [exec_compileAttribute] at hrun
  by_cases hs : c.schema.typeOf name = "string"
  · rw [if_pos hs] at hrun
    cases hrun
    refine ⟨_, Pass.get?_setValue hk name _, setBy_insert ?_⟩
    rw [Pass.attributeValue?, if_pos hs]
  rw [if_neg hs] at hrun
  have henv := hq.environment
  cases hl : p.coercion name (c.schema.typeOf name) raw c.node.base with
  | error e =>
    rw [hl] at hrun
    cases hrun
    refine ⟨k.values, hk, setBy_self ?_⟩
    have hkind := coercion_eq_error hl
    have hcatalog : q.environment = p.environment := henv
    simp only [Pass.attributeValue?, if_neg hs, hcatalog, hkind]
  | ok kp =>
    obtain ⟨a, p'⟩ := kp
    rw [hl] at hrun
    simp only at hrun
    have hsame := constructions_coerce hl
    have hvalue := attributeValue?_of_coerce hp hs hl (advances_of_coerce hp hs hl hseen)
    rcases ho : p'.coerce a with ⟨e | value, p''⟩
    · rw [ho] at hrun hsame hvalue
      simp only at hrun
      split at hrun
      · cases hrun
      · cases hrun
        exact ⟨k.values, hsame ▸ hk, setBy_self hvalue⟩
    · rw [ho] at hrun hsame hvalue
      cases hrun
      exact ⟨_, Pass.get?_setValue (hsame ▸ hk) name value, setBy_insert hvalue⟩

/-- **The attributes.** Compiling all of them, whose names differ, sets the values of those that
have one. -/
theorem setBy_compileEach {q r : Pass} {c : Construction} {ids : List NodeId}
    (attributes : List (String × String)) (hnames : (attributes.map Prod.fst).Nodup) {p : Pass}
    (hp : p.Sound) {k : Construction} (hk : p.constructions.get? c.node.id = some k)
    (hrun : Hook.exec (compileEach c attributes) p = (.ok (), r)) (hq : r.Advances ids q) :
    ∃ values, r.constructions.get? c.node.id = some { k with values := values } ∧
      SetBy q c.schema attributes k.values values := by
  induction attributes generalizing p k with
  | nil =>
    cases hrun
    exact ⟨k.values, hk, fun _ => rfl⟩
  | cons a rest ih =>
    obtain ⟨name, raw⟩ := a
    obtain ⟨hfresh, hrest⟩ := List.nodup_cons.mp hnames
    rw [compileEach_cons] at hrun
    rcases hfirst : Hook.exec (compileAttribute c name raw) p with ⟨stop | u, p₁⟩
    · rw [Hook.exec_bind_error hfirst] at hrun
      cases hrun
    rw [Hook.exec_bind_ok hfirst] at hrun
    have hlead := (leads_work c).compileAttribute name raw p hp
    rw [hfirst] at hlead
    have hlater : p₁.Advances (c.node.id :: ids) q :=
      advances_of_compileEach hlead.1 (by rw [hrun]; exact hq)
    obtain ⟨values₁, hk₁, hset₁⟩ := setBy_compileAttribute hp hk hfirst hlater
    obtain ⟨values, hr, hset⟩ := ih hrest hlead.1 hk₁ hrun
    refine ⟨values, hr, fun other => ?_⟩
    by_cases heq : other = name
    · -- no later attribute has the name
      subst heq
      have hnone : rest.lookup other = none :=
        List.lookup_eq_none_iff.mpr fun e he => bne_iff_ne.mpr fun h =>
          hfresh (List.mem_map.mpr ⟨e, he, h.symm⟩)
      rw [hset, hnone, hset₁, List.lookup_cons_self, List.lookup_cons_self]
      rfl
    · have hne : (other == name) = false := beq_eq_false_iff_ne.mpr heq
      rw [hset, hset₁, List.lookup_cons, List.lookup_cons, hne]
      rfl

end ObjectMarkup
