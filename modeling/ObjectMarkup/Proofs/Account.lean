import ObjectMarkup.Proofs.Ready
import ObjectMarkup.Compile.Compilation
import ObjectMarkup.Kind.Script

/-!
# Every failure that is contained is accounted for

What a compile reports can be told from what has become of elements and attributes in the end. The
traversal of a tree comes by `Occurrence`s, attributes and children, one after the other.
`Pass.reached` lists those that the compile gets to, and `Pass.entry?` says of each what there is to
report, given the pass as it is in the end. The main statement, `diagnostics_account`, is that the
reports are the entries of the occurrences, in that order and nothing else.

The crux is that what an entry is read from does not change any more once the traversal has passed
by: a coercion that is settled stays settled whoever asks for it again, and a child has its outcome
from its own visit on. So the statement is proved for parts of a traversal, with entries that are
read from any pass that comes later (`diagnostics_process`).
-/

namespace ObjectMarkup

open Markup (Element NodeId Document)

/-- Something inside an element that can fail without ending the element. -/
inductive Occurrence where
  /-- An attribute of an element, with its declared type and its raw value. -/
  | ofAttribute (node : Element) (name type raw : String)
  | ofChild (node : Element)

namespace Pass

/-! ### Entries -/

/-- What an attribute has failed with, if it has: its type is not registered, or its coercion was
settled with an error. Strings do not fail. -/
def attributeError? (q : Pass) (name type raw : String) : Option CompileError :=
  if type = "string" then none
  else
    let key := AttributeKey.ofType name type raw
    match q.environment.catalog.attributeKind key.type with
    | .error e => some e
    | .ok _ =>
      match (q.coercions.get? key).bind Coercion.outcome? with
      | some (.error e) => some e
      | _ => none

/-- What a child has failed with, if it has: its tag is unknown, or it was settled with an error. -/
def childError? (q : Pass) (child : Element) : Option CompileError :=
  match q.environment.catalog.elementKind child.tag with
  | .error e => some e
  | .ok _ => (q.constructions.get? child.id).bind Construction.error?

/-- The entry of an occurrence. A fatal error of an attribute is none: it ends the element. -/
def entry? (q : Pass) : Occurrence → Option Diagnostic
  | .ofAttribute node name type raw =>
    match q.attributeError? name type raw with
    | some e => if e.isFatal then none else some ⟨node.id, node.tag, some name, e⟩
    | none => none
  | .ofChild node => (q.childError? node).map fun e => ⟨node.id, node.tag, none, e⟩

def entries (q : Pass) (os : List Occurrence) : List Diagnostic :=
  os.filterMap q.entry?

@[simp] theorem entries_nil (q : Pass) : q.entries [] = [] := rfl

@[simp] theorem entries_cons (q : Pass) (o : Occurrence) (os : List Occurrence) :
    q.entries (o :: os) = (q.entry? o).toList ++ q.entries os := by
  simp only [entries, List.filterMap_cons]
  cases q.entry? o <;> rfl

@[simp] theorem entries_append (q : Pass) (os os' : List Occurrence) :
    q.entries (os ++ os') = q.entries os ++ q.entries os' :=
  List.filterMap_append

/-! ### What a compile gets to -/

def fatalAt (q : Pass) (name type raw : String) : Bool :=
  (q.attributeError? name type raw).any CompileError.isFatal

/-- The attributes up to the first one that has failed fatally, with that one. -/
def reachedAttributes (q : Pass) (c : Construction) : List (String × String) → List Occurrence
  | [] => []
  | (name, raw) :: rest =>
    .ofAttribute c.node name (c.schema.typeOf name) raw ::
      if q.fatalAt name (c.schema.typeOf name) raw then [] else q.reachedAttributes c rest

/-- What is got to before the children: the attributes, if the hook before them ends. -/
def reachedFirst (q : Pass) (c : Construction) (p : Pass) : List Occurrence :=
  match (Hook.exec (c.kind.beforeAttributes (p.view c)) (p.bench c)).1 with
  | .error _ => []
  | .ok _ => q.reachedAttributes c c.node.attributes.entries

mutual

/-- What is got to when an element is processed: first its attributes, and if all before the
children ends, what is got to in the visits to these. An element that has an outcome is not gone
through again. -/
def reached (q : Pass) : Element → Pass → List Occurrence
  | ⟨id, _, _, children, _⟩, p =>
    match p.constructions.get? id with
    | none => []
    | some c =>
      if c.outcome?.isSome || p.released then []
      else
        q.reachedFirst c p ++
          match Hook.exec (compileAttributes c) p with
          | (.error _, _) => []
          | (.ok _, p') => q.reachedBelow id children p'

/-- What is got to in the visits to children: all that is inside a child comes before the child
itself. A panic in a look-up ends the visits. -/
def reachedBelow (q : Pass) (parent : NodeId) : List Element → Pass → List Occurrence
  | [], _ => []
  | child :: rest, p =>
    match p.lookup child with
    | .error (.panic _) => []
    | .error (.error _) =>
      .ofChild child :: q.reachedBelow parent rest (Hook.exec (visit parent [child]) p).2
    | .ok (_, p') =>
      q.reached child (p'.handDown parent child.id) ++
        .ofChild child :: q.reachedBelow parent rest (Hook.exec (visit parent [child]) p).2

end

end Pass

/-! ### Attributes -/

theorem get?_of_coercion {p q : Pass} {name type value : String} {base : Option Locator}
    {k : Coercion} (h : p.coercion name type value base = .ok (k, q)) :
    q.coercions.get? (AttributeKey.ofType name type value) = some k := by
  obtain ⟨hfound, rfl⟩ | ⟨-, -, rfl⟩ := coercion_cases h
  · exact hfound
  · exact OrderedMap.get?_insert_self _ _ _

/-- A look-up of an attribute fails only if its type is not registered. -/
theorem coercion_eq_error {p : Pass} {name type value : String} {base : Option Locator}
    {e : CompileError} (h : p.coercion name type value base = .error e) :
    p.environment.catalog.attributeKind (AttributeKey.ofType name type value).type = .error e := by
  unfold Pass.coercion at h
  simp only at h
  split at h
  · cases h
  · split at h
    · next e' he => cases h; exact he
    · cases h

/-- **Coercing settles.** The outcome that is given is the one that is kept. -/
theorem coerce_settles {p : Pass} (hp : p.Sound) {key : AttributeKey} {k : Coercion}
    (hk : p.coercions.get? key = some k) :
    ∃ k', (p.coerce k).2.coercions.get? key = some k' ∧ k'.outcome? = some (p.coerce k).1 := by
  rw [Pass.coerce_eq, hp.currentCoercion hk]
  cases ho : k.outcome? with
  | some outcome => exact ⟨k, hk, ho⟩
  | none =>
    obtain ⟨store, calls, -, hq⟩ := keeps_makeValue k p
    simp only [Pass.settleCoercion, hq, hp.key hk, OrderedMap.get?_modify_self, hk]
    exact ⟨_, rfl, rfl⟩

/-- Coercing reports nothing by itself. -/
theorem diagnostics_of_onlyCoerces {p q : Pass} (h : p.OnlyCoerces q) :
    q.diagnostics = p.diagnostics := by
  obtain ⟨store, calls, coercions, rfl⟩ := h
  rfl

/-- An attribute kind that is missing leaves its type unresolved, which is not fatal. -/
theorem not_isFatal_of_attributeKind {c : Catalog} {type : String} {e : CompileError}
    (h : c.attributeKind type = .error e) : e.isFatal = false := by
  unfold Catalog.attributeKind at h
  split at h
  · cases h
  · cases h; rfl

/-- The error of an attribute whose type is not registered, read from any later pass. -/
theorem attributeError?_of_coercion_error {p q : Pass} (henv : q.environment = p.environment)
    {name type raw : String} {base : Option Locator} {e : CompileError} (hs : type ≠ "string")
    (h : p.coercion name type raw base = .error e) : q.attributeError? name type raw = some e := by
  simp only [Pass.attributeError?, if_neg hs, henv, coercion_eq_error h]

/-- The outcome of an attribute that was coerced can be read from any later pass. -/
theorem outcome_of_coerce {p p' q : Pass} (hp : p.Sound) {name type raw : String}
    {base : Option Locator} {k : Coercion} {ids : List NodeId}
    (h : p.coercion name type raw base = .ok (k, p')) (hq : (p'.coerce k).2.Advances ids q) :
    (∃ kind, q.environment.catalog.attributeKind (AttributeKey.ofType name type raw).type
        = .ok kind) ∧
      (q.coercions.get? (AttributeKey.ofType name type raw)).bind Coercion.outcome?
        = some (p'.coerce k).1 := by
  have hk := get?_of_coercion h
  have hp' := (Pass.leads_coercion h [] hp).1
  have hkind := hp'.key_kind hk
  rw [← (leads_coerce p' k ids hp').2.environment, ← hq.environment] at hkind
  -- the coercion was settled then, and has kept its outcome since
  obtain ⟨k₁, hk₁, ho₁⟩ := coerce_settles hp' hk
  obtain ⟨k₂, hk₂, hb⟩ := hq.coercions _ _ hk₁
  refine ⟨⟨k.kind, hkind⟩, ?_⟩
  rw [hk₂, Option.bind_some, hb.outcome _ ho₁]

/-- The error of an attribute that was coerced, read from any later pass. -/
theorem attributeError?_of_coerce {p p' q : Pass} (hp : p.Sound) {name type raw : String}
    {base : Option Locator} {k : Coercion} {ids : List NodeId} (hs : type ≠ "string")
    (h : p.coercion name type raw base = .ok (k, p')) (hq : (p'.coerce k).2.Advances ids q) :
    q.attributeError? name type raw =
      match (p'.coerce k).1 with
      | .ok _ => none
      | .error e => some e := by
  obtain ⟨⟨kind, hkind⟩, ho⟩ := outcome_of_coerce hp h hq
  simp only [Pass.attributeError?, if_neg hs, hkind, ho]
  cases (p'.coerce k).1 <;> rfl

/-- What follows the coercion of an attribute is work on the element itself, and then later work. -/
theorem advances_of_coerce {p p' q : Pass} (hp : p.Sound) {c : Construction} {name raw : String}
    {ids : List NodeId} {k : Coercion} (hs : c.schema.typeOf name ≠ "string")
    (hl : p.coercion name (c.schema.typeOf name) raw c.node.base = .ok (k, p'))
    (hq : (Hook.exec (compileAttribute c name raw) p).2.Advances ids q) :
    (p'.coerce k).2.Advances (c.node.id :: ids) q := by
  have hsound := (leads_coerce p' k [] (Pass.leads_coercion hl [] hp).1).1
  -- what follows the coercion is work on the element, and then whatever leads on
  have hlater : ∀ r, Pass.Leads [c.node.id] (p'.coerce k).2 r → r.Advances ids q →
      (p'.coerce k).2.Advances (c.node.id :: ids) q := fun r hr hr' =>
    ((hr hsound).2.mono (by simp)).trans (hr'.mono (List.subset_cons_self _ _))
  rw [exec_compileAttribute, if_neg hs, hl] at hq
  simp only at hq
  rcases hrun : p'.coerce k with ⟨e | value, r⟩
  · rw [hrun] at hq hlater
    simp only at hq
    split at hq
    · exact hlater r (Pass.Leads.refl _ _) hq
    · exact hlater _ (Pass.leads_report _ _ _) hq
  · rw [hrun] at hq hlater
    exact hlater _ (Pass.leads_setValue r c.node.id name value) hq

/-- What follows an attribute is work on the element itself, for those that come after it. -/
theorem advances_of_compileEach {p q : Pass} (hp : p.Sound) {c : Construction} {ids : List NodeId}
    {rest : List (String × String)} (hq : (Hook.exec (compileEach c rest) p).2.Advances ids q) :
    p.Advances (c.node.id :: ids) q :=
  (((leads_work c).compileEach rest p hp).2.mono (by simp)).trans
    (hq.mono (List.subset_cons_self _ _))

/-- **An attribute.** Compiling it reports its entry, and goes on unless it has failed fatally; both
can be read from any later pass. -/
theorem diagnostics_compileAttribute {p q : Pass} (hp : p.Sound) {c : Construction}
    {name raw : String} {ids : List NodeId}
    (hq : (Hook.exec (compileAttribute c name raw) p).2.Advances ids q) :
    (Hook.exec (compileAttribute c name raw) p).2.diagnostics
        = p.diagnostics ++
          (q.entry? (.ofAttribute c.node name (c.schema.typeOf name) raw)).toList ∧
      ((Hook.exec (compileAttribute c name raw) p).1 = .ok () ↔
        q.fatalAt name (c.schema.typeOf name) raw = false) := by
  have henv : q.environment = p.environment :=
    hq.environment.trans ((leads_work c).compileAttribute name raw p hp).2.environment
  rw [exec_compileAttribute]
  simp only [Pass.entry?, Pass.fatalAt]
  by_cases hs : c.schema.typeOf name = "string"
  · simp [Pass.attributeError?, hs, Pass.setValue, Pass.modifyConstruction]
  simp only [if_neg hs]
  cases hl : p.coercion name (c.schema.typeOf name) raw c.node.base with
  | error e =>
    rw [attributeError?_of_coercion_error henv hs hl]
    -- an unknown type is reported, and that is never fatal
    simp [not_isFatal_of_attributeKind (coercion_eq_error hl), Pass.report]
  | ok kp =>
    obtain ⟨k, p'⟩ := kp
    -- the look-up and the hooks report nothing themselves
    have hdiag := (diagnostics_of_onlyCoerces (onlyCoerces_coerce p' k)).trans
      (diagnostics_of_onlyCoerces (onlyCoerces_coercion hl))
    rw [attributeError?_of_coerce hp hs hl (advances_of_coerce hp hs hl hq)]
    cases hrun : p'.coerce k with
    | mk outcome r =>
      rw [hrun] at hdiag
      have hsame : r.diagnostics = p.diagnostics := hdiag
      simp only [hrun]
      cases outcome with
      | ok value => simp [Pass.setValue, Pass.modifyConstruction, hsame]
      | error e =>
        -- a fatal error ends the element instead of being reported
        by_cases hf : e.isFatal = true
        · simp [hf, hsame]
        · simp [hf, hsame, Pass.report]

/-- **The attributes.** Compiling them reports the entries of those that are got to. -/
theorem diagnostics_compileEach {q : Pass} {c : Construction} {ids : List NodeId}
    (attributes : List (String × String)) {p : Pass} (hp : p.Sound)
    (hq : (Hook.exec (compileEach c attributes) p).2.Advances ids q) :
    (Hook.exec (compileEach c attributes) p).2.diagnostics
      = p.diagnostics ++ q.entries (q.reachedAttributes c attributes) := by
  induction attributes generalizing p with
  | nil => simp [Pass.reachedAttributes]
  | cons a rest ih =>
    obtain ⟨name, raw⟩ := a
    rw [compileEach_cons] at hq ⊢
    cases hrun : Hook.exec (compileAttribute c name raw) p with
    | mk ending r =>
      obtain ⟨hr, -⟩ := (leads_work c).compileAttribute name raw p hp
      rw [hrun] at hr
      cases ending with
      | error stop =>
        -- the first attribute has failed fatally
        rw [Hook.exec_bind_error hrun] at hq ⊢
        obtain ⟨hd, hok⟩ := diagnostics_compileAttribute hp (q := q) (by rw [hrun]; exact hq)
        rw [hrun] at hd hok
        have hfatal : q.fatalAt name (c.schema.typeOf name) raw = true := by
          simpa using hok
        rw [Pass.reachedAttributes, if_pos hfatal, Pass.entries_cons, Pass.entries_nil,
          List.append_nil]
        exact hd
      | ok u =>
        rw [Hook.exec_bind_ok hrun] at hq ⊢
        have hlater := advances_of_compileEach hr hq
        obtain ⟨hd, hok⟩ := diagnostics_compileAttribute hp (q := q) (by rw [hrun]; exact hlater)
        rw [hrun] at hd hok
        -- the first attribute was not fatal, so the next one is got to
        have hgo : ¬ q.fatalAt name (c.schema.typeOf name) raw = true := by
          rw [hok.mp rfl]
          exact Bool.false_ne_true
        rw [Pass.reachedAttributes, if_neg hgo, Pass.entries_cons, ih hr hq, hd,
          List.append_assoc]

/-- **Everything before the children** reports the entries of the attributes that are got to. There
are none if the hook before them does not end. -/
theorem diagnostics_compileAttributes {p q : Pass} (hp : p.Sound) {c : Construction}
    {ids : List NodeId} (hq : (Hook.exec (compileAttributes c) p).2.Advances ids q) :
    (Hook.exec (compileAttributes c) p).2.diagnostics
      = p.diagnostics ++ q.entries (q.reachedFirst c p) := by
  rw [exec_compileAttributes] at hq ⊢
  unfold Pass.reachedFirst
  rcases hbefore : Hook.exec (c.kind.beforeAttributes (p.view c)) (p.bench c) with ⟨x | u, bench⟩
  · -- a panic before the attributes: none is got to
    exact (List.append_nil _).symm
  · rw [hbefore] at hq
    have hr := (Pass.leads_leave p c .beforeAttributes bench hp).1
    have hsame : (p.leave c .beforeAttributes bench).diagnostics = p.diagnostics := rfl
    simp only at hq ⊢
    generalize p.leave c .beforeAttributes bench = r at hq hr hsame ⊢
    obtain ⟨hr₁, -⟩ := (leads_work c).compileEach c.node.attributes.entries r hr
    have heach : ∀ ids', (Hook.exec (compileEach c c.node.attributes.entries) r).2.Advances ids' q →
        _ := fun _ h => diagnostics_compileEach c.node.attributes.entries hr h
    rcases hrun : Hook.exec (compileEach c c.node.attributes.entries) r with ⟨stop | u', r₁⟩
    · rw [hrun] at hq heach
      exact hsame ▸ heach _ hq
    · rw [hrun] at hq heach hr₁
      -- the hook after the attributes reports nothing, and is work on the element too
      obtain ⟨-, hafter⟩ := Pass.leads_leave r₁ c .afterAttributes
        (Hook.exec (c.kind.afterAttributes (r₁.view c)) (r₁.bench c)).2 hr₁
      exact hsame ▸ heach _ ((hafter.mono (j := c.node.id :: ids) (by simp)).trans
        (hq.mono (List.subset_cons_self _ _)))

/-! ### Children -/

/-- The error of a child whose tag is unknown, read from any later pass. -/
theorem childError?_of_lookup_error {p q : Pass} {ids : List NodeId} {child : Element}
    {e : CompileError} (hq : p.Advances ids q) (h : p.lookup child = .error (.error e)) :
    q.childError? child = some e := by
  obtain ⟨-, ⟨e', he, heq⟩ | ⟨kind, x, -, -, hx⟩⟩ := lookup_eq_error_iff.mp h
  · cases heq
    rw [Pass.childError?, hq.environment, he]
  · cases hx

/-- The error of a child that was processed, read from any later pass in which nothing was done to
it. -/
theorem childError?_of_process {p q : Pass} (hp : p.Sound) {ids : List NodeId} {child : Element}
    {c : Construction} (hc : p.constructions.get? child.id = some c) (hnode : c.node = child)
    (hq : (process child p).2.Advances ids q) (hid : child.id ∉ ids) :
    q.childError? child =
      match (process child p).1 with
      | .ok _ => none
      | .error e => some e := by
  obtain ⟨hp', ha⟩ := advances_process hp child
  obtain ⟨c', hc', hb, ho⟩ := process_settles hp hc
  -- its tag is known, since its construction carries the kind of the tag
  have hkind := hp'.node_kind hc'
  rw [hb.node, hnode, ← hq.environment] at hkind
  rw [Pass.childError?, hkind, hq.others _ hid, hc', Option.bind_some, Construction.error?, ho]
  cases (process child p).1 <;> rfl

theorem diagnostics_lookup {p q : Pass} {node : Element} {c : Construction}
    (h : p.lookup node = .ok (c, q)) : q.diagnostics = p.diagnostics := by
  obtain ⟨-, rfl⟩ | ⟨-, -, rfl⟩ := lookup_finds h <;> rfl

theorem diagnostics_handDown (p : Pass) (parent child : NodeId) :
    (p.handDown parent child).diagnostics = p.diagnostics :=
  handDown_induction (R := fun p q => q.diagnostics = p.diagnostics) (fun _ => rfl)
    (fun _ _ _ h h' => h'.trans h) (fun _ _ _ => rfl) p parent

/-- What is reported of a child is its entry. -/
theorem diagnostics_reportOutcome {p q : Pass} {child : Element} {outcome : Outcome Value}
    (h : q.childError? child = match outcome with
      | .ok _ => none
      | .error e => some e) :
    (p.reportOutcome child outcome).diagnostics
      = p.diagnostics ++ (q.entry? (.ofChild child)).toList := by
  rw [Pass.entry?, h]
  cases outcome with
  | ok value => exact (List.append_nil _).symm
  | error e => rfl

theorem diagnostics_build (c : Construction) (p : Pass) :
    (Hook.exec (build c) p).2.diagnostics = p.diagnostics := by
  rw [exec_build]
  rcases Hook.exec (c.kind.construct (p.view c)) (p.bench c) with ⟨stop | value, bench⟩
  · rfl
  · cases value <;> rfl

/-- Making the value of an element afterwards changes nothing but the element, and reports
nothing. -/
theorem diagnostics_bind_build (c : Construction) (h : Step Unit) (p : Pass) :
    (Hook.exec (do h; build c) p).2.diagnostics = (Hook.exec h p).2.diagnostics ∧
      Pass.Leads [c.node.id] (Hook.exec h p).2 (Hook.exec (do h; build c) p).2 := by
  rw [Hook.exec_bind]
  cases Hook.exec h p with
  | mk ending r =>
    cases ending with
    | error stop => exact ⟨rfl, Pass.Leads.refl _ _⟩
    | ok u => exact ⟨diagnostics_build c r, (leads_work c).build r⟩

/-- What comes after settling an element comes after what was before it. -/
theorem advances_of_settle {p q : Pass} (hp : p.Sound) {id : NodeId} {ids : List NodeId}
    {outcome : Outcome Value} (hq : (p.settle id outcome).Advances ids q) :
    p.Advances (id :: ids) q :=
  ((Pass.leads_settle p id outcome hp).2.mono (by simp)).trans
    (hq.mono (List.subset_cons_self _ _))

/-- What comes after visits comes after what was before them. -/
theorem advances_of_visit {p q : Pass} (hp : p.Sound) {parent : NodeId} {children : List Element}
    {ids : List NodeId} (hq : (Hook.exec (visit parent children) p).2.Advances ids q) :
    p.Advances (parent :: Element.idsAll children ++ ids) q :=
  ((leads_visit parent children p hp).2.mono fun _ h => List.mem_append_left _ h).trans
    (hq.mono fun _ h => List.mem_append_right _ h)

/-! ### Elements -/

/-- An element that has begun to visit its children reports on its attributes first, and then what
the visits report. -/
theorem diagnostics_phases_of_visit {p p₁ q : Pass} (hp : p.Sound) {c : Construction} {id : NodeId}
    (hid : c.node.id = id) {children : List Element} {ids : List NodeId}
    (hrun : Hook.exec (compileAttributes c) p = (.ok (), p₁))
    (hq : (Hook.exec (phases c id children) p).2.Advances (id :: ids) q)
    (hvisit : (Hook.exec (visit id children) p₁).2.Advances (id :: ids) q →
      (Hook.exec (visit id children) p₁).2.diagnostics
        = p₁.diagnostics ++ q.entries (q.reachedBelow id children p₁)) :
    (Hook.exec (phases c id children) p).2.diagnostics
      = p.diagnostics ++ q.entries (q.reachedFirst c p ++ q.reachedBelow id children p₁) := by
  obtain ⟨hp₁, -⟩ := (leads_work c).compileAttributes p hp
  have hfirst : ∀ ids', (Hook.exec (compileAttributes c) p).2.Advances ids' q → _ :=
    fun _ h => diagnostics_compileAttributes hp h
  unfold phases at hq ⊢
  rw [Hook.exec_bind_ok hrun] at hq ⊢
  rw [hrun] at hp₁ hfirst
  obtain ⟨hp₂, -⟩ := leads_visit id children p₁ hp₁
  -- the value is made at the end, which is work on the element itself
  obtain ⟨hsame, hbuild⟩ := diagnostics_bind_build c (visit id children) p₁
  obtain ⟨-, ha₃⟩ := hbuild hp₂
  have hq₂ := (ha₃.mono (j := id :: ids) (by simp [hid])).trans hq
  calc (Hook.exec (do visit id children; build c) p₁).2.diagnostics
      = p₁.diagnostics ++ q.entries (q.reachedBelow id children p₁) := hsame.trans (hvisit hq₂)
    _ = p.diagnostics ++ q.entries (q.reachedFirst c p) ++
          q.entries (q.reachedBelow id children p₁) := by rw [hfirst _ (advances_of_visit hp₁ hq₂)]
    _ = _ := by rw [List.append_assoc, Pass.entries_append]

mutual

/-- **An element.** Processing it reports the entries of what is got to, read from any later pass in
which nothing was done below the element. -/
theorem diagnostics_process : ∀ (e : Element) {p q : Pass} {ids : List NodeId}, p.Ready e →
    (process e p).2.Advances ids q → (∀ id ∈ Element.idsAll e.children, id ∉ ids) →
    (process e p).2.diagnostics = p.diagnostics ++ q.entries (q.reached e p)
  | ⟨id, tag, attributes, children, base⟩, p, q, ids, h, hq, hdis => by
    have hp := h.sound
    obtain ⟨c, hc⟩ := h.known
    simp only at hc hdis
    cases ho : c.outcome? with
    | some outcome =>
      -- what was settled before, or is given up now, makes no report
      rw [process_settled hc ho]
      simp [Pass.reached, hc, ho]
    | none =>
      cases hr : p.released with
      | true =>
        rw [process_released hc ho hr]
        simp [Pass.reached, hc, hr, Pass.settle, Pass.modifyConstruction]
      | false =>
        have hcid : c.node.id = id := hp.node_id hc
        rw [process_run hc ho hr] at hq ⊢
        simp only [Pass.reached, hc, ho, hr, Option.isSome_none, Bool.or_false,
          Bool.false_eq_true, if_false]
        have hq := advances_of_settle (keeps_phases hcid children p hp).1 hq
        obtain ⟨hp₁, ha₁⟩ := (leads_work c).compileAttributes p hp
        cases hrun : Hook.exec (compileAttributes c) p with
        | mk ending p₁ =>
          cases ending with
          | error stop =>
            -- the attributes have ended the element, so they are all that is got to
            have hfirst : (Hook.exec (compileAttributes c) p).2.Advances (id :: ids) q → _ :=
              diagnostics_compileAttributes hp
            unfold phases at hq ⊢
            rw [Hook.exec_bind_error hrun] at hq ⊢
            rw [hrun] at hfirst
            rw [List.append_nil]
            exact hfirst hq
          | ok u =>
            rw [hrun] at hp₁ ha₁
            have hready := (h.advance hp₁ (hcid ▸ ha₁)).children
            -- attributes and children one after the other, and the value reports nothing
            refine diagnostics_phases_of_visit hp hcid hrun hq fun hq₂ => ?_
            refine diagnostics_visit id children hready hq₂ fun id' hid' hmem => ?_
            rcases List.mem_cons.mp hmem with rfl | hmem
            · exact hready.parent hid'
            · exact hdis id' hid' hmem

/-- **Children.** Visiting them reports the entries of what is got to. -/
theorem diagnostics_visit (parent : NodeId) : ∀ (children : List Element) {p q : Pass}
    {ids : List NodeId}, p.ReadyFor parent children →
    (Hook.exec (visit parent children) p).2.Advances ids q →
    (∀ id ∈ Element.idsAll children, id ∉ ids) →
    (Hook.exec (visit parent children) p).2.diagnostics
      = p.diagnostics ++ q.entries (q.reachedBelow parent children p)
  | [], p, q, ids, h, hq, hdis => by simp [Pass.reachedBelow]
  | child :: rest, p, q, ids, h, hq, hdis => by
    -- what is done after the visit to the child is done elsewhere
    have hids : ∀ id ∈ child.ids, id ∉ parent :: Element.idsAll rest ++ ids := by
      intro id hid hmem
      rcases List.mem_append.mp hmem with hmem | hmem
      · exact h.not_mem_rest hid hmem
      · exact hdis id (by rw [Element.idsAll_cons]; exact List.mem_append_left _ hid) hmem
    have hrest := h.rest
    have hdis' : ∀ id ∈ Element.idsAll rest, id ∉ ids := fun id hid =>
      hdis id (by rw [Element.idsAll_cons]; exact List.mem_append_right _ hid)
    rw [Pass.reachedBelow]
    rw [exec_visit_cons] at hq hrest ⊢
    rw [exec_visit_cons]
    cases hl : p.lookup child with
    | error stop =>
      cases stop with
      -- a panic ends the visit
      | panic x => simp
      | error e =>
        simp only [hl, exec_visit_nil] at hq hrest ⊢
        -- the tag of the child is unknown, which is all there is to say of it
        obtain ⟨hp₁, ha₁⟩ := Pass.leads_report [] p ⟨child.id, child.tag, none, e⟩ h.sound
        have hself := childError?_of_lookup_error
          ((ha₁.mono (by simp)).trans (advances_of_visit hp₁ hq)) hl
        rw [diagnostics_visit parent rest hrest hq hdis']
        simp [Pass.entry?, hself, Pass.report]
    | ok cp =>
      obtain ⟨c, p'⟩ := cp
      simp only [hl, exec_visit_nil] at hq hrest ⊢
      -- first what is inside the child, then the child itself, then the others
      have hfirst := h.first hl
      obtain ⟨c₁, hc₁, hnode⟩ := hfirst.construction
      obtain ⟨hp₂, -⟩ := advances_process hfirst.sound child
      have hq₂ := ((Pass.Leads.trans _ _ _ (leads_reportOutcome [parent] _ child _)
        (Pass.leads_adopt _ parent child.id) hp₂).2.mono
          (j := parent :: Element.idsAll rest ++ ids) (by simp)).trans
            (advances_of_visit hrest.sound hq)
      have hinside := diagnostics_process child hfirst hq₂ fun id hid =>
        hids id (by rw [Element.ids_eq]; exact List.mem_cons_of_mem _ hid)
      have hself := diagnostics_reportOutcome
        (p := (process child (p'.handDown parent child.id)).2)
        (childError?_of_process hfirst.sound hc₁ hnode hq₂ (hids _ (Element.id_mem_ids _)))
      rw [diagnostics_handDown, diagnostics_lookup hl] at hinside
      rw [diagnostics_visit parent rest hrest hq hdis', visitFound, Pass.adopt,
        Pass.modifyConstruction]
      simp only [hself, hinside, Pass.entries_append, Pass.entries_cons, List.append_assoc]

end

/-! ### Whose entries they are -/

theorem not_ofChild_mem_reachedAttributes (q : Pass) (c : Construction) (node : Element)
    (attributes : List (String × String)) :
    Occurrence.ofChild node ∉ q.reachedAttributes c attributes := by
  induction attributes with
  | nil => simp [Pass.reachedAttributes]
  | cons a rest ih =>
    obtain ⟨name, raw⟩ := a
    rw [Pass.reachedAttributes]
    split <;> simp [ih]

theorem not_ofChild_mem_reachedFirst (q : Pass) (c : Construction) (p : Pass) (node : Element) :
    Occurrence.ofChild node ∉ q.reachedFirst c p := by
  unfold Pass.reachedFirst
  split
  · exact List.not_mem_nil
  · exact not_ofChild_mem_reachedAttributes _ _ _ _

mutual

/-- The children that are got to are below the element. -/
theorem mem_preorderAll_of_reached {q : Pass} {node : Element} : ∀ (e : Element) {p : Pass},
    Occurrence.ofChild node ∈ q.reached e p → node ∈ Element.preorderAll e.children
  | ⟨id, tag, attributes, children, base⟩, p, h => by
    rw [Pass.reached] at h
    split at h
    · cases h
    · split at h
      · cases h
      · rcases List.mem_append.mp h with h | h
        · exact absurd h (not_ofChild_mem_reachedFirst _ _ _ _)
        · split at h
          · cases h
          · exact mem_preorderAll_of_reachedBelow id children h

theorem mem_preorderAll_of_reachedBelow {q : Pass} {node : Element} (parent : NodeId) :
    ∀ (children : List Element) {p : Pass},
      Occurrence.ofChild node ∈ q.reachedBelow parent children p →
        node ∈ Element.preorderAll children
  | [], p, h => by cases h
  | child :: rest, p, h => by
    have hself : child ∈ Element.preorderAll (child :: rest) := by
      rw [Element.preorderAll, Element.preorder_eq]
      exact List.mem_append_left _ List.mem_cons_self
    have hrest : ∀ {p}, Occurrence.ofChild node ∈ q.reachedBelow parent rest p →
        node ∈ Element.preorderAll (child :: rest) := fun h => by
      rw [Element.preorderAll]
      exact List.mem_append_right _ (mem_preorderAll_of_reachedBelow parent rest h)
    rw [Pass.reachedBelow] at h
    split at h
    · cases h
    · -- the child is unknown and is got to itself, or it is one of the others
      rcases List.mem_cons.mp h with h | h
      · cases h
        exact hself
      · exact hrest h
    · rcases List.mem_append.mp h with h | h
      · rw [Element.preorderAll, Element.preorder_eq]
        exact List.mem_append_left _ (List.mem_cons_of_mem _ (mem_preorderAll_of_reached child h))
      · rcases List.mem_cons.mp h with h | h
        · cases h
          exact hself
        · exact hrest h

end

theorem not_isFatal_of_entry? {q : Pass} {o : Occurrence} {d : Diagnostic}
    (h : q.entry? o = some d) {name : String} (hname : d.attributeName = some name) :
    d.error.isFatal = false := by
  cases o with
  | ofAttribute node name' type raw =>
    simp only [Pass.entry?] at h
    split at h
    · split at h
      · cases h
      · -- an attribute has an entry only if its error is not fatal
        next hf => cases h; simpa using hf
    · cases h
  | ofChild node =>
    obtain ⟨e, -, rfl⟩ := Option.map_eq_some_iff.mp h
    cases hname

/-- An entry without an attribute is that of a child. -/
theorem ofChild_of_entry? {q : Pass} {o : Occurrence} {d : Diagnostic} (h : q.entry? o = some d)
    (hname : d.attributeName = none) : ∃ node, o = .ofChild node ∧ d.node = node.id := by
  cases o with
  | ofAttribute node name type raw =>
    simp only [Pass.entry?] at h
    split at h
    · split at h
      · cases h
      · cases h; cases hname
    · cases h
  | ofChild node =>
    obtain ⟨e, -, rfl⟩ := Option.map_eq_some_iff.mp h
    exact ⟨node, rfl, rfl⟩

/-! ### Documents -/

namespace Compilation

/-- What the compile of a document gets to, with outcomes as they are in the end. -/
def reached (c : Compilation) : List Occurrence :=
  match c.pass.lookup c.document.root with
  | .error _ => []
  | .ok (_, p) => c.final.reached c.document.root p

/-- What the compile of a document has to report. -/
def account (c : Compilation) : List Diagnostic :=
  c.final.entries c.reached

end Compilation

/-- What the compile of a document reports are the entries of what it gets to. -/
theorem diagnostics_final (environment : Environment) (document : Document)
    (base workingDirectory : Option Locator) (store : Store) (h : document.root.Numbered) :
    (Compilation.begin environment document base workingDirectory store).final.diagnostics
      = (Compilation.begin environment document base workingDirectory store).account := by
  unfold Compilation.account Compilation.reached
  cases hl : (Compilation.begin environment document base workingDirectory store).pass.lookup
      document.root with
  | error stop =>
    -- the root is unknown or panics, and nothing is got to
    rw [(Compilation.process_of_lookup_error hl).2]
    simp only [Compilation.begin] at hl ⊢
    rw [hl]
    rfl
  | ok cp =>
    obtain ⟨k, p⟩ := cp
    have hready : p.Ready document.root := .of_lookup_begin h hl
    have hp : p.diagnostics = [] := diagnostics_lookup hl
    have hrun := diagnostics_process document.root hready (.refl [] _) fun _ _ => List.not_mem_nil
    rw [(Compilation.process_of_lookup hl).2, hrun, hp, List.nil_append]
    simp only [Compilation.begin] at hl ⊢
    rw [hl]

/-- **The account.** What the compile of a document reports are the entries of what it gets to, in
that order: each attribute that has failed without ending its element, wherever it occurs, and each
child that has failed, after all that is inside it. No fatal error of an attribute is among them,
and nothing on the root itself. -/
theorem diagnostics_account (environment : Environment) (document : Document)
    (base workingDirectory : Option Locator) (store : Store) (h : document.root.Numbered) :
    (Compilation.begin environment document base workingDirectory store).final.diagnostics
        = (Compilation.begin environment document base workingDirectory store).account ∧
      (∀ d ∈ (Compilation.begin environment document base workingDirectory store).final.diagnostics,
        ∀ name, d.attributeName = some name → d.error.isFatal = false) ∧
      ∀ d ∈ (Compilation.begin environment document base workingDirectory store).final.diagnostics,
        d.attributeName = none → d.node ≠ document.root.id := by
  rw [diagnostics_final environment document base workingDirectory store h]
  refine ⟨rfl, ?_, ?_⟩
  · -- entries of attributes are those that are not fatal
    intro d hd name hname
    obtain ⟨o, -, ho⟩ := List.mem_filterMap.mp hd
    exact not_isFatal_of_entry? ho hname
  · -- an entry without an attribute is that of an element below the root
    intro d hd hname heq
    obtain ⟨o, ho, hd⟩ := List.mem_filterMap.mp hd
    obtain ⟨node, rfl, hnode⟩ := ofChild_of_entry? hd hname
    unfold Compilation.reached at ho
    split at ho
    · cases ho
    · have hmem := List.mem_map_of_mem (f := Element.id)
        (mem_preorderAll_of_reached document.root ho)
      rw [← hnode, heq] at hmem
      exact ((Element.numbered_iff _).mp h).1 hmem

/-! ### Three ways to fail -/

/-- A kind that panics when the value of an element is made. -/
def fragileScript : Kind.ElementScript where
  name := "fragile"
  known := []
  panic := none
  inherited := none
  schema := []
  before := []
  after := []
  construct := .fail (.panic (.text "broken"))
  finish := .keep

/-- The built-in kinds and one that panics. -/
def fragileCatalog : Catalog :=
  { Catalog.builtin with elements := Catalog.builtin.elements.insert "fragile" fragileScript.kind }

/-- A scalar whose value is no number. -/
def wrongNumber : Markup.Draft :=
  ((Markup.Draft.leaf "data").withAttribute "type" "number").withAttribute "value" "many"

/-- Two scalars that share an attribute which fails, an element that panics, and one with an unknown
tag. -/
def troubledRoot : Element :=
  (Markup.Draft.build none 0 (((((Markup.Draft.leaf "object").withChild wrongNumber).withChild
    wrongNumber).withChild (.leaf "fragile")).withChild (.leaf "widget"))).1

def troubledCompile : Compilation :=
  .begin ⟨.empty, fragileCatalog⟩ ⟨troubledRoot, none⟩ none none .empty

/-- The attribute is reported for both scalars. -/
theorem diagnostics_account_troubled :
    troubledRoot.Numbered ∧ troubledCompile.final.diagnostics = troubledCompile.account ∧
      troubledCompile.account =
        [⟨0, "data", some "value", .typeMismatch "value" "many" "number"⟩,
          ⟨1, "data", some "value", .typeMismatch "value" "many" "number"⟩,
          ⟨2, "fragile", none, .aborted "broken"⟩,
          ⟨3, "widget", none, .unresolved .tag "widget"⟩] := by
  have hn : troubledRoot.Numbered := Markup.Draft.numbered_build _ _ _
  have haccount := (diagnostics_account ⟨.empty, fragileCatalog⟩ ⟨troubledRoot, none⟩ none none .empty
    hn).1
  have hreported : troubledCompile.final.diagnostics =
      [⟨0, "data", some "value", .typeMismatch "value" "many" "number"⟩,
        ⟨1, "data", some "value", .typeMismatch "value" "many" "number"⟩,
        ⟨2, "fragile", none, .aborted "broken"⟩,
        ⟨3, "widget", none, .unresolved .tag "widget"⟩] := by
    decide +kernel
  exact ⟨hn, haccount, haccount.symm.trans hreported⟩

end ObjectMarkup
