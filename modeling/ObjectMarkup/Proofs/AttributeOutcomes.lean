import ObjectMarkup.Proofs.Lockstep
import ObjectMarkup.Proofs.Values

/-!
# What attributes come to

An element takes the values of its attributes one after the other, and reports those that have
failed. What an attribute has come to can also be read from the pass as it is in the end, because a
coercion that is settled stays so: that is `Pass.attributeOutcome`. The statements here say the
values and the reports of an element in terms of it.

* After the attributes, the value under a name is what the attribute with that name has come to
  (`setBy_compileEach`), there is one report for each attribute that has come to an error
  (`diagnostics_compileEach_of_ok`), and all of them have been compiled (`hasCompiled_compileEach`).
* `GoesThrough.reads`: so it is for an element of the built-in kinds when it has got its value. The
  children make no difference, since what is reported below the element is on other elements
  (`node_mem_reachedBelow`).
-/

namespace ObjectMarkup

open Markup (Element NodeId)

namespace Pass

/-- What an attribute has come to, in a pass in which it was compiled. -/
def attributeOutcome (q : Pass) (name type raw : String) : Outcome Value :=
  if type = "string" then .ok (.string raw)
  else
    let key := AttributeKey.ofType name type raw
    match q.environment.catalog.attributeKind key.type with
    | .error e => .error e
    | .ok _ => ((q.coercions.get? key).bind Coercion.outcome?).getD (.error .detached)

/-- The report on an attribute of an element, if it has failed. -/
def attributeReport? (q : Pass) (e : Element) (s : Schema) (a : String × String) :
    Option Diagnostic :=
  match q.attributeOutcome a.1 (s.typeOf a.1) a.2 with
  | .ok _ => none
  | .error error => some ⟨e.id, e.tag, some a.1, error⟩

/-- **An attribute has been compiled:** if its type has a kind, then its outcome is what the hooks of
the kind have come to, on the records as they were. Strings have no hooks. -/
def HasCompiled (q : Pass) (name type raw : String) : Prop :=
  type ≠ "string" → ∀ kind, q.environment.catalog.attributeKind (Text.nameKey type) = .ok kind →
    ∃ (k : Coercion) (s : Store), q.coercions.get? (.ofType name type raw) = some k ∧
      k.key = .ofType name type raw ∧ k.kind = kind ∧
      q.attributeOutcome name type raw = contain (Hook.exec (k.hooks q.environment) s).1

/-- The value of an attribute is that of its outcome. -/
theorem toOption_attributeOutcome (q : Pass) (name type raw : String) :
    (q.attributeOutcome name type raw).toOption = q.attributeValue? name type raw := by
  rw [attributeOutcome, attributeValue?]
  -- text is its own value on both sides, every other type goes through the shared compiler
  by_cases hs : type = "string"
  · rw [if_pos hs, if_pos hs]
    rfl
  · rw [if_neg hs, if_neg hs]
    simp only
    cases q.environment.catalog.attributeKind (AttributeKey.ofType name type raw).type with
    | error e => rfl
    | ok kind =>
      rcases (q.coercions.get? (AttributeKey.ofType name type raw)).bind Coercion.outcome? with
        _ | _ | _ <;> rfl

/-- Outcomes are read from the environment and from what is known of attributes. -/
theorem attributeOutcome_congr {p q : Pass} (henv : q.environment = p.environment)
    (hsame : q.coercions = p.coercions) : q.attributeOutcome = p.attributeOutcome := by
  funext name type raw
  rw [attributeOutcome, attributeOutcome, henv, hsame]

end Pass

/-! ### One attribute -/

section Attribute

variable {p q : Pass} {c : Construction} {name raw : String} {ids : List NodeId}

/-- What an attribute has failed with is what it has come to, read from any later pass. -/
theorem attributeError?_compileAttribute (hp : p.Sound)
    (hq : (Hook.exec (compileAttribute c name raw) p).2.Advances ids q) :
    q.attributeError? name (c.schema.typeOf name) raw =
      match q.attributeOutcome name (c.schema.typeOf name) raw with
      | .ok _ => none
      | .error e => some e := by
  have henv : q.environment = p.environment :=
    hq.environment.trans ((leads_work c).compileAttribute name raw p hp).2.environment
  rw [Pass.attributeOutcome]
  by_cases hs : c.schema.typeOf name = "string"
  · rw [Pass.attributeError?, if_pos hs, if_pos hs]
  rw [if_neg hs]
  -- either there is no compiler to ask, or the one found has an outcome that lasts until `q`
  cases hl : p.coercion name (c.schema.typeOf name) raw c.node.base with
  | error e =>
    simp only [attributeError?_of_coercion_error henv hs hl, henv, coercion_eq_error hl]
  | ok found =>
    obtain ⟨k, p'⟩ := found
    have hlater := advances_of_coerce hp hs hl hq
    obtain ⟨⟨kind, hkind⟩, ho⟩ := outcome_of_coerce hp hl hlater
    have herror := attributeError?_of_coerce hp hs hl hlater
    cases houtcome : (p'.coerce k).1 with
    | ok value => simp only [herror, houtcome, hkind, ho, Option.getD_some]
    | error e => simp only [herror, houtcome, hkind, ho, Option.getD_some]

/-- An attribute that does not end the element is reported if it has come to an error. -/
theorem diagnostics_compileAttribute_of_ok (hp : p.Sound)
    (hok : (Hook.exec (compileAttribute c name raw) p).1 = .ok ())
    (hq : (Hook.exec (compileAttribute c name raw) p).2.Advances ids q) :
    (Hook.exec (compileAttribute c name raw) p).2.diagnostics
      = p.diagnostics ++ (q.attributeReport? c.node c.schema (name, raw)).toList := by
  obtain ⟨hdiag, hfatal⟩ := diagnostics_compileAttribute hp hq
  have herror := attributeError?_compileAttribute hp hq
  -- the attribute was not fatal, or it would have stopped the element
  have hmild := hfatal.mp hok
  rw [Pass.fatalAt, herror] at hmild
  rw [hdiag, Pass.entry?, herror, Pass.attributeReport?]
  cases houtcome : q.attributeOutcome name (c.schema.typeOf name) raw with
  | ok v => rfl
  | error e =>
    rw [houtcome] at hmild
    have hmild : e.isFatal = false := hmild
    simp only [hmild, Bool.false_eq_true, if_false]

/-- **An attribute is compiled:** what it comes to is what its hooks come to. -/
theorem hasCompiled_compileAttribute (hp : p.Sound)
    (hq : (Hook.exec (compileAttribute c name raw) p).2.Advances ids q) (hsound : q.Sound) :
    q.HasCompiled name (c.schema.typeOf name) raw := by
  intro hs kind hkind
  have henv : q.environment = p.environment :=
    hq.environment.trans ((leads_work c).compileAttribute name raw p hp).2.environment
  cases hl : p.coercion name (c.schema.typeOf name) raw c.node.base with
  | error e =>
    -- the catalog has a kind, so the look-up has not failed
    rw [henv] at hkind
    cases hkind.symm.trans (coercion_eq_error hl)
  | ok found =>
    obtain ⟨k, p'⟩ := found
    obtain ⟨-, ho⟩ := outcome_of_coerce hp hl (advances_of_coerce hp hs hl hq)
    obtain ⟨k', hk', ho'⟩ := Option.bind_eq_some_iff.mp ho
    have hkept := hsound.coercions _ _ hk'
    obtain ⟨s, hran⟩ := hkept.settled _ ho'
    refine ⟨k', s, hk', hkept.key, Except.ok.inj (hkept.key_kind.symm.trans hkind), ?_⟩
    rw [← hran, Pass.attributeOutcome, if_neg hs]
    simp only [hkept.key_kind, ho, Option.getD_some]

end Attribute

/-! ### All attributes -/

section Attributes

variable {q : Pass} {c : Construction} {ids : List NodeId}

/-- The first one of attributes that do not end the element, and the pass in which the others come. -/
theorem compileEach_first {a : String × String} {rest : List (String × String)} {p : Pass}
    (hp : p.Sound) (hok : (Hook.exec (compileEach c (a :: rest)) p).1 = .ok ())
    (hq : (Hook.exec (compileEach c (a :: rest)) p).2.Advances ids q) :
    ∃ p₁, Hook.exec (compileAttribute c a.1 a.2) p = (.ok (), p₁) ∧ p₁.Sound ∧
      (Hook.exec (compileAttribute c a.1 a.2) p).2.Advances (c.node.id :: ids) q ∧
      Hook.exec (compileEach c (a :: rest)) p = Hook.exec (compileEach c rest) p₁ := by
  rw [compileEach_cons] at hok hq ⊢
  -- the walk went on, so its first step returned
  rcases hrun : Hook.exec (compileAttribute c a.1 a.2) p with ⟨stop | u, p₁⟩
  · rw [Hook.exec_bind_error hrun] at hok
    cases hok
  rw [Hook.exec_bind_ok hrun] at hok hq ⊢
  obtain ⟨hp₁, -⟩ := (leads_work c).compileAttribute a.1 a.2 p hp
  rw [hrun] at hp₁
  exact ⟨p₁, rfl, hp₁, advances_of_compileEach hp₁ hq, rfl⟩

/-- Attributes that have come to an error are reported in their order. -/
theorem diagnostics_compileEach_of_ok (attributes : List (String × String)) {p : Pass}
    (hp : p.Sound) (hok : (Hook.exec (compileEach c attributes) p).1 = .ok ())
    (hq : (Hook.exec (compileEach c attributes) p).2.Advances ids q) :
    (Hook.exec (compileEach c attributes) p).2.diagnostics
      = p.diagnostics ++ attributes.filterMap (q.attributeReport? c.node c.schema) := by
  induction attributes generalizing p with
  | nil => exact (List.append_nil _).symm
  | cons a rest ih =>
    obtain ⟨p₁, hrun, hp₁, hlater, hrest⟩ := compileEach_first hp hok hq
    have hdiag := diagnostics_compileAttribute_of_ok hp (congrArg Prod.fst hrun) hlater
    rw [hrun] at hdiag
    rw [hrest] at hok hq ⊢
    rw [ih hp₁ hok hq, hdiag, List.append_assoc, List.filterMap_cons]
    cases q.attributeReport? c.node c.schema a <;> rfl

/-- All of them are compiled. -/
theorem hasCompiled_compileEach (attributes : List (String × String)) {p : Pass} (hp : p.Sound)
    (hok : (Hook.exec (compileEach c attributes) p).1 = .ok ())
    (hq : (Hook.exec (compileEach c attributes) p).2.Advances ids q) (hsound : q.Sound) :
    ∀ a ∈ attributes, q.HasCompiled a.1 (c.schema.typeOf a.1) a.2 := by
  induction attributes generalizing p with
  | nil => exact List.forall_mem_nil _
  | cons a rest ih =>
    obtain ⟨p₁, -, hp₁, hlater, hrest⟩ := compileEach_first hp hok hq
    rw [hrest] at hok hq
    exact List.forall_mem_cons.mpr
      ⟨hasCompiled_compileAttribute hp hlater hsound, ih hp₁ hok hq⟩

end Attributes

/-! ### What is reported below an element -/

/-- The element that an occurrence is on. -/
def Occurrence.node : Occurrence → Element
  | .ofAttribute node _ _ _ => node
  | .ofChild node => node

theorem Occurrence.node_of_entry? {q : Pass} {o : Occurrence} {d : Diagnostic}
    (h : q.entry? o = some d) : d.node = o.node.id := by
  cases o with
  | ofAttribute node name type raw =>
    simp only [Pass.entry?] at h
    split at h
    · split at h
      · cases h
      · cases h; rfl
    · cases h
  | ofChild node =>
    obtain ⟨e, -, rfl⟩ := Option.map_eq_some_iff.mp h
    rfl

theorem node_of_mem_reachedAttributes {q : Pass} {c : Construction} {o : Occurrence}
    (attributes : List (String × String)) (h : o ∈ q.reachedAttributes c attributes) :
    o.node = c.node := by
  induction attributes with
  | nil => cases h
  | cons a rest ih =>
    obtain ⟨name, raw⟩ := a
    rw [Pass.reachedAttributes] at h
    rcases List.mem_cons.mp h with rfl | h
    · rfl
    · split at h
      · cases h
      · exact ih h

theorem node_of_mem_reachedFirst {q p : Pass} {c : Construction} {o : Occurrence}
    (h : o ∈ q.reachedFirst c p) : o.node = c.node := by
  unfold Pass.reachedFirst at h
  split at h
  · cases h
  · exact node_of_mem_reachedAttributes _ h

mutual

/-- What is got to in an element is on the element or on one below it. -/
theorem node_mem_reached {q : Pass} {o : Occurrence} : ∀ (e : Element) {p : Pass}, p.Sound →
    o ∈ q.reached e p → o.node.id ∈ e.ids
  | ⟨id, tag, attributes, children, base⟩, p, hp, h => by
    rw [Element.ids_eq]
    rw [Pass.reached] at h
    split at h
    · cases h
    · next c hc =>
      split at h
      · cases h
      · -- An occurrence at the element is one of its own attributes. The others belong to its
        -- children.
        rcases List.mem_append.mp h with h | h
        · rw [node_of_mem_reachedFirst h, hp.node_id hc]
          exact List.mem_cons_self
        · obtain ⟨hp₁, -⟩ := (leads_work c).compileAttributes p hp
          split at h
          · cases h
          · next hrun =>
            rw [hrun] at hp₁
            exact List.mem_cons_of_mem _ (node_mem_reachedBelow id children hp₁ h)

theorem node_mem_reachedBelow {q : Pass} {o : Occurrence} (parent : NodeId) :
    ∀ (children : List Element) {p : Pass}, p.Sound → o ∈ q.reachedBelow parent children p →
      o.node.id ∈ Element.idsAll children
  | [], p, _, h => by cases h
  | child :: rest, p, hp, h => by
    have hrest : o ∈ q.reachedBelow parent rest (Hook.exec (visit parent [child]) p).2 →
        o.node.id ∈ child.ids ++ Element.idsAll rest := fun h =>
      List.mem_append_right _
        (node_mem_reachedBelow parent rest (leads_visit parent [child] p hp).1 h)
    have hself : (Occurrence.ofChild child).node.id ∈ child.ids ++ Element.idsAll rest :=
      List.mem_append_left _ (Element.id_mem_ids child)
    rw [Element.idsAll_cons]
    rw [Pass.reachedBelow] at h
    split at h
    · cases h
    · rcases List.mem_cons.mp h with rfl | h
      · exact hself
      · exact hrest h
    · next hl =>
      rcases List.mem_append.mp h with h | h
      · have hp' := (leads_handDown _ parent child.id (Pass.leads_lookup hl hp).1).1
        exact List.mem_append_left _ (node_mem_reached child hp' h)
      · rcases List.mem_cons.mp h with rfl | h
        · exact hself
        · exact hrest h

end

/-! ### An element with its attributes and children -/

/-- **How an element of the built-in kinds goes through its phases:** the pass after the attributes,
and the one after the children. -/
structure Pass.GoesThrough (p : Pass) (r : Rule) (e : Element) (p₁ p₂ : Pass) : Prop where
  attributes : Hook.exec (compileEach (r.start e) e.attributes.entries)
    (p.pass (r.start e) .beforeAttributes) = (.ok (), p₁)
  builtin : (p₁.pass (r.start e) .afterAttributes).Builtin
  ready : (p₁.pass (r.start e) .afterAttributes).ReadyFor e.id e.children
  children : Hook.exec (visit e.id e.children) (p₁.pass (r.start e) .afterAttributes) = (.ok (), p₂)
  ending : process e p = (.ok (p₂.makes r e).1,
    ((p₂.pass (r.start e) .construct).pass (r.start e) .finish).conclude r e)

namespace Pass

variable {p p₁ p₂ : Pass} {r : Rule} {e : Element}

/-- Nothing that the built-in kinds do ends an element before its value is made. -/
theorem exists_goesThrough (h : p.Ready e) (hb : p.Builtin)
    (hc : p.constructions.get? e.id = some (r.start e)) : ∃ p₁ p₂, p.GoesThrough r e p₁ p₂ := by
  -- nothing is kept beside the pass itself: the lockstep is used for its compiling step alone
  have L := Kept.lockstep (I := fun _ => True)
    ⟨fun _ _ => trivial, fun _ _ => trivial, fun _ _ _ => trivial, fun _ _ => trivial,
      fun _ _ _ _ => trivial, fun _ _ _ _ _ => trivial, fun _ _ _ _ => trivial,
      fun _ _ _ _ => trivial, fun _ _ _ => trivial⟩
  obtain ⟨p₁, _, _, hp₁, -, -, hw₁, -, -⟩ := L.compileEach (r := r) (e := e) trivial
    e.attributes.entries (fun _ ha => ha) e.attributes.nodup
    (.of_start (hb.pass (r.start e) .beforeAttributes) hc) (fun _ _ => OrderedMap.get?_empty _)
    ⟨rfl, trivial⟩
  obtain ⟨hready, -⟩ := h.past_attributes hp₁
  have hb₁ := hw₁.builtin.pass (r.start e) .afterAttributes
  -- no builtin kind panics in `define`, so the walk over the children returns
  have hpanic := firstPanic?_eq_none (hb₁.catalog ▸ Catalog.reliable_builtin) e.children
  have hending := visit_ending e.children hready
  rw [hpanic] at hending
  have hvisit : Hook.exec (visit e.id e.children) (p₁.pass (r.start e) .afterAttributes)
      = (.ok (), _) := Prod.ext hending rfl
  have hrun := processBy_eq_conclude (g := compileAttribute) hc hb.released hp₁
    ((congrArg (Hook.exec · _) (visitBy_compileAttribute e.id e.children)).trans hvisit)
  rw [processBy_compileAttribute] at hrun
  exact ⟨p₁, _, hp₁, hb₁, hready, hvisit, hrun⟩

/-- A hook that was called may have changed the records. -/
theorem leads_pass (p : Pass) (c : Construction) (hook : ElementHook) (s : Store) :
    Leads [c.node.id] p { p.pass c hook with store := s } := by
  have hleave := leads_leave p c hook ⟨s, p.values c.node.id⟩
  rwa [leave_values] at hleave

/-- Giving an element its value is work on the element. -/
theorem leads_conclude (p : Pass) (r : Rule) (e : Element) :
    Leads [e.id] p (((p.pass (r.start e) .construct).pass (r.start e) .finish).conclude r e) := by
  have hbegun := leads_pass p (r.start e) .construct p.store
  have hended := leads_pass (p.pass (r.start e) .construct) (r.start e) .finish
    ((p.pass (r.start e) .construct).pass (r.start e) .finish |>.makes r e).2
  exact Leads.trans _ _ _ hbegun (Leads.trans _ _ _ hended (leads_settle _ _ _))

theorem Sound.pass (h : p.Sound) (c : Construction) (hook : ElementHook) : (p.pass c hook).Sound :=
  (leads_pass p c hook p.store h).1

/-- What comes after the attributes, and what comes after the children. -/
theorem GoesThrough.later (h : p.GoesThrough r e p₁ p₂) (hp : p.Sound) :
    p₁.Advances (e.id :: Element.idsAll e.children) (process e p).2 ∧
      p₂.Advances [e.id] (process e p).2 := by
  have hsound₁ := ((leads_work (r.start e)).compileEach e.attributes.entries _
    (hp.pass (r.start e) .beforeAttributes)).1
  -- what comes after the attributes: the hook behind them, the children, and the ending
  have hafter : Leads [e.id] p₁ (p₁.pass (r.start e) .afterAttributes) :=
    leads_pass p₁ (r.start e) .afterAttributes p₁.store
  have hvisit := leads_visit e.id e.children (p₁.pass (r.start e) .afterAttributes)
  have hlast := leads_conclude p₂ r e
  have hend := congrArg Prod.snd h.ending
  simp only at hend
  rw [h.attributes] at hsound₁
  rw [h.children] at hvisit
  rw [← hend] at hlast
  exact ⟨(Leads.trans _ _ _ (hafter.mono (by simp))
    (Leads.trans _ _ _ hvisit (hlast.mono (by simp))) hsound₁).2,
    (hlast (hvisit (hafter hsound₁).1).1).2⟩

/-- **What an element has in the end.** Its values are what its attributes have come to, and what was
reported of it are the attributes that have come to an error. -/
theorem GoesThrough.reads (h : p.GoesThrough r e p₁ p₂) (hp : p.Sound)
    (hc : p.constructions.get? e.id = some (r.start e)) :
    (∀ name, (p₂.values e.id).get? name = (e.attribute? name).bind fun raw =>
        ((process e p).2.attributeOutcome name ((r.schema e).typeOf name) raw).toOption) ∧
      ∃ below, (process e p).2.diagnostics = p.diagnostics ++
          (e.attributes.entries.filterMap ((process e p).2.attributeReport? e (r.schema e)) ++ below) ∧
        ∀ d ∈ below, d.node ∈ Element.idsAll e.children := by
  obtain ⟨hlater₁, hlater₂⟩ := h.later hp
  have hbegun := hp.pass (r.start e) .beforeAttributes
  -- the values are read where they were set, and carried over the children and the ending
  obtain ⟨values, hget, hvalues⟩ := setBy_compileEach (c := r.start e) (k := r.start e)
    e.attributes.entries e.attributes.nodup hbegun hc h.attributes hlater₁
  have hdiag := diagnostics_compileEach_of_ok (c := r.start e) e.attributes.entries hbegun
    (congrArg Prod.fst h.attributes) (by rw [h.attributes]; exact hlater₁)
  rw [h.attributes] at hdiag
  have hpanic := firstPanic?_eq_none (h.builtin.catalog ▸ Catalog.reliable_builtin) e.children
  have hget₂ := get?_visits e.children h.ready hpanic _ hget
  rw [h.children] at hget₂
  have hvisited : (Hook.exec (visit e.id e.children) (p₁.pass (r.start e) .afterAttributes)).2.Advances
      [e.id] (process e p).2 := by
    rw [h.children]
    exact hlater₂
  -- whatever the children report belongs to a node below, and none of them is the element
  have hbelow := diagnostics_visit e.id e.children h.ready hvisited
    fun id hid hmem => h.ready.parent (List.mem_singleton.mp hmem ▸ hid)
  rw [h.children] at hbelow
  have hend := congrArg Prod.snd h.ending
  refine ⟨fun name => ?_, (process e p).2.entries ((process e p).2.reachedBelow e.id e.children
    (p₁.pass (r.start e) .afterAttributes)), ?_, fun d hd => ?_⟩
  · simp only [toOption_attributeOutcome]
    rw [values_eq hget₂]
    exact (hvalues name).trans Option.or_none
  · calc (process e p).2.diagnostics = p₂.diagnostics := by rw [hend]; rfl
      _ = p₁.diagnostics ++ _ := hbelow
      _ = _ := by rw [hdiag, List.append_assoc]; rfl
  · obtain ⟨o, ho, hentry⟩ := List.mem_filterMap.mp hd
    rw [Occurrence.node_of_entry? hentry]
    exact node_mem_reachedBelow e.id e.children h.builtin.sound ho

/-- All attributes of an element have been compiled in the end. -/
theorem GoesThrough.compiled (h : p.GoesThrough r e p₁ p₂) (hp : p.Sound) {name raw : String}
    (hraw : e.attribute? name = some raw) :
    (process e p).2.HasCompiled name ((r.schema e).typeOf name) raw :=
  hasCompiled_compileEach (c := r.start e) e.attributes.entries
    (hp.pass (r.start e) .beforeAttributes) (congrArg Prod.fst h.attributes)
    (by rw [h.attributes]; exact (h.later hp).1) (leads_process e p hp).1 (name, raw)
    (OrderedMap.mem_entries_of_get? hraw)

end Pass

end ObjectMarkup
