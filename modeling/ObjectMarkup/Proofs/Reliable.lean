import ObjectMarkup.Proofs.Builtin
import ObjectMarkup.Proofs.Containment

/-!
# Kinds that never fail an element

A kind of elements is reliable if its hooks always end with a value, and a kind of attributes is
mild if its errors are never fatal. In a catalog of such kinds an element with a known tag always
gets a value (`process_ok`), so that nothing but an unknown tag is left to fail. `Pass.Complete`
says what has become of a tree then: the elements that are known by their own tag and those of all
elements above them have a value, and nothing is known of the others. The main statement,
`complete_process`, is that processing completes the tree, by induction on the tree.

The built-in catalog is reliable (`reliable_builtin`), whatever the namespace holds and whatever is
fetched. A constructor that panics does no harm, since a panic in an attribute is not fatal.
-/

namespace ObjectMarkup

open Markup (Element NodeId Document)

/-- Kinds of elements whose hooks always end with a value. -/
structure ElementKind.Reliable (kind : ElementKind) : Prop where
  define : ∀ e, ∃ schema, kind.define e = .ok schema
  before : ∀ v bench, (Hook.exec (kind.beforeAttributes v) bench).1 = .ok ()
  after : ∀ v bench, (Hook.exec (kind.afterAttributes v) bench).1 = .ok ()
  /-- Finishing need only end well on what constructing gives. -/
  made : ∀ v bench, ∃ value, (Hook.exec (kind.construct v) bench).1 = .ok value ∧
    ∀ v' bench', ∃ value', (Hook.exec (kind.finish v' value) bench').1 = .ok value'

/-- Kinds of attributes whose errors are never fatal. -/
structure AttributeKind.Mild (kind : AttributeKind) : Prop where
  construct : ∀ a s e, (Hook.exec (kind.construct a) s).1 = .error (.error e) →
    e.isFatal = false
  finish : ∀ a value s e, (Hook.exec (kind.finish a value) s).1 = .error (.error e) →
    e.isFatal = false

structure Catalog.Reliable (c : Catalog) : Prop where
  elements : ∀ tag kind, c.elementKind tag = .ok kind → kind.Reliable
  attributes : ∀ type kind, c.attributeKind type = .ok kind → kind.Mild

/-! ### The phases of an element end well -/

/-- An outcome that is an error is one of the step, or tells of its panic. -/
theorem contain_eq_error {α : Type} {ending : Except Stop α} {e : CompileError}
    (h : contain ending = .error e) :
    ending = .error (.error e) ∨ ∃ x : Panic, e = .aborted x.message := by
  rcases ending with (e' | x) | a
  · cases h
    exact Or.inl rfl
  · cases h
    exact Or.inr ⟨x, rfl⟩
  · cases h

theorem contain_eq_ok {α : Type} {ending : Except Stop α} {a : α} (h : contain ending = .ok a) :
    ending = .ok a := by
  rcases ending with (e | x) | b
  · cases h
  · cases h
  · cases h
    rfl

/-- The outcome of a mild kind is not fatal. A panic becomes an error that is not fatal either. -/
theorem not_isFatal_of_hooks {k : Coercion} (h : k.kind.Mild) {environment : Environment}
    {s : Store} {e : CompileError}
    (he : contain (Hook.exec (k.hooks environment) s).1 = .error e) : e.isFatal = false := by
  rcases contain_eq_error he with he | ⟨x, rfl⟩
  · rcases Hook.error_of_bind he with he | ⟨u, s₁, -, he⟩
    · -- the first hook can only panic
      rw [exec_orStop] at he
      cases hx : (Hook.exec (k.kind.before (k.view environment)) s).1 with
      | error x => rw [hx] at he; cases he
      | ok u => rw [hx] at he; cases he
    · rcases Hook.error_of_bind he with he | ⟨value, s₂, -, he⟩
      · exact h.construct _ _ _ he
      · exact h.finish _ _ _ _ he
  · -- a panic is an abortion, which is not fatal
    rfl

section Phases

variable {p : Pass} {c : Construction}

theorem compileAttribute_ok (hp : p.Sound) (hr : p.environment.catalog.Reliable)
    (name raw : String) : (Hook.exec (compileAttribute c name raw) p).1 = .ok () := by
  rw [exec_compileAttribute]
  split
  · rfl
  · split
    · rfl
    · next k p' hl =>
      -- the outcome is what the hooks of the kind have come to, now or at an earlier occurrence
      obtain ⟨hp', ha'⟩ := Pass.leads_coercion hl [] hp
      obtain ⟨hq, ha⟩ := leads_coerce p' k [] hp'
      obtain ⟨k', hk', ho⟩ := coerce_settles hp' (get?_of_coercion hl)
      have hkind := hq.key_kind hk'
      obtain ⟨s, hs⟩ := (hq.coercions _ _ hk').settled _ ho
      rw [ha.environment, ha'.environment] at hkind
      -- the kind is one of the catalog's, so its errors are mild
      have hmild := hr.attributes _ _ hkind
      cases hrun : p'.coerce k with
      | mk outcome q =>
        rw [hrun] at hs
        cases outcome with
        | ok value => rfl
        | error e =>
          have hf : e.isFatal = false := not_isFatal_of_hooks hmild hs.symm
          simp only [hf, Bool.false_eq_true, if_false]

theorem compileEach_ok (attributes : List (String × String)) (hp : p.Sound)
    (hr : p.environment.catalog.Reliable) :
    (Hook.exec (compileEach c attributes) p).1 = .ok () := by
  induction attributes generalizing p with
  | nil => rfl
  | cons a rest ih =>
    obtain ⟨name, raw⟩ := a
    obtain ⟨hq, ha⟩ := (leads_work c).compileAttribute name raw p hp
    have hok := compileAttribute_ok (c := c) hp hr name raw
    rw [compileEach_cons, Hook.exec_bind_ok (Prod.ext hok rfl)]
    exact ih hq (ha.environment ▸ hr)

theorem compileAttributes_ok (hp : p.Sound) (hr : p.environment.catalog.Reliable)
    (hc : c.kind.Reliable) : (Hook.exec (compileAttributes c) p).1 = .ok () := by
  obtain ⟨hq, ha⟩ :=
    keeps_callForElement c .beforeAttributes (c.kind.beforeAttributes (p.view c)) p hp
  have hbefore : (Hook.exec (orStop (callForElement c .beforeAttributes
      (c.kind.beforeAttributes (p.view c)))) p).1 = .ok () := by
    rw [exec_orStop, exec_callForElement, hc.before]
    rfl
  have heach := compileEach_ok (c := c) c.node.attributes.entries hq (ha.environment ▸ hr)
  rw [compileAttributes_eq, Hook.exec_bind_ok (Hook.exec_get p),
    Hook.exec_bind_ok (Prod.ext hbefore rfl), exec_orStop]
  rw [Hook.exec_bind_ok (Prod.ext heach rfl), Hook.exec_bind_ok (Hook.exec_get _), exec_orStop,
    exec_callForElement, hc.after]
  rfl

theorem build_ok (hc : c.kind.Reliable) : ∃ value, (Hook.exec (build c) p).1 = .ok value := by
  obtain ⟨value, hvalue, hfinish⟩ := hc.made (p.view c) (p.bench c)
  rw [exec_build]
  rcases hrun : Hook.exec (c.kind.construct (p.view c)) (p.bench c) with ⟨ending, bench⟩
  rw [hrun] at hvalue
  cases hvalue
  simp only
  obtain ⟨value', hvalue'⟩ := hfinish
    (((p.leave c .construct bench).assignTo c value).view c)
    (((p.leave c .construct bench).assignTo c value).bench c)
  exact ⟨value', by rw [hvalue']; rfl⟩

/-- Kinds of a reliable catalog do not panic when elements are looked up. -/
theorem firstPanic?_eq_none (hr : p.environment.catalog.Reliable) (children : List Element) :
    p.firstPanic? children = none := by
  refine firstPanic?_eq_none_iff.mpr fun child _ x hl => ?_
  obtain ⟨-, ⟨e, -, hx⟩ | ⟨kind, x', hkind, hdefine, -⟩⟩ := lookup_eq_error_iff.mp hl
  · cases hx
  · obtain ⟨schema, hschema⟩ := (hr.elements _ _ hkind).define child
    rw [hschema] at hdefine
    cases hdefine

/-- **An element with a known tag gets a value,** in a catalog of reliable kinds. -/
theorem process_ok {e : Element} (h : p.Ready e) (hr : p.environment.catalog.Reliable)
    (hc : p.constructions.get? e.id = some c) (hopen : c.outcome? = none)
    (hlive : p.released = false) : ∃ value, (process e p).1 = .ok value := by
  have hkind := hr.elements _ _ (h.sound.node_kind hc)
  obtain ⟨c', hc', hnode⟩ := h.construction
  rw [hc] at hc'
  cases hc'
  obtain ⟨hp₁, ha₁⟩ := (leads_work c).compileAttributes p h.sound
  -- no phase can fail: not the attributes, not a child that declares, not the value
  have hattributes := compileAttributes_ok h.sound hr hkind
  have hready := (h.advance hp₁ (hnode ▸ ha₁)).children
  have hvisits := visit_ending e.children hready
  rw [firstPanic?_eq_none (ha₁.environment ▸ hr)] at hvisits
  obtain ⟨value, hvalue⟩ := build_ok (p := (Hook.exec (visit e.id e.children)
    (Hook.exec (compileAttributes c) p).2).2) hkind
  refine ⟨value, ?_⟩
  rw [process_run hc hopen hlive, phases, Hook.exec_bind_ok (Prod.ext hattributes rfl),
    Hook.exec_bind_ok (Prod.ext hvisits rfl), hvalue]
  rfl

end Phases

/-! ### What becomes of a tree -/

/-- The elements of a tree that are known by their own tags and those of all elements above them. -/
inductive Catalog.Reaches (c : Catalog) (e : Element) : Element → Prop where
  /-- The element at the top. -/
  | self : c.knows e = true → Reaches c e e
  /-- A child of an element that is reached. -/
  | child {n child : Element} : Reaches c e n → child ∈ n.children → c.knows child = true →
    Reaches c e child

/-- From the top, what is reached is the element and what its children reach. -/
theorem Catalog.reaches_iff {c : Catalog} {e n : Element} :
    c.Reaches e n ↔ c.knows e = true ∧ (n = e ∨ ∃ child ∈ e.children, c.Reaches child n) := by
  -- a way down is taken from its end in one direction, and from its beginning in the other
  constructor
  · intro h
    induction h with
    | self hk => exact ⟨hk, Or.inl rfl⟩
    | child _ hmem hk ih =>
      obtain ⟨hk', rfl | ⟨top, htop, hreach⟩⟩ := ih
      · exact ⟨hk', Or.inr ⟨_, hmem, .self hk⟩⟩
      · exact ⟨hk', Or.inr ⟨top, htop, .child hreach hmem hk⟩⟩
  · rintro ⟨hk, rfl | ⟨top, htop, hreach⟩⟩
    · exact .self hk
    · induction hreach with
      | self hk' => exact .child (.self hk) htop hk'
      | child _ hmem hk' ih => exact .child ih hmem hk'

theorem Catalog.Reaches.mem_preorder {c : Catalog} {n : Element} : ∀ {e : Element},
    c.Reaches e n → n ∈ e.preorder := by
  refine @(Element.induction fun e ih h => ?_)
  rw [Element.preorder_eq]
  obtain ⟨-, rfl | ⟨child, hchild, hreach⟩⟩ := Catalog.reaches_iff.mp h
  · exact List.mem_cons_self
  · exact List.mem_cons_of_mem _ (Element.mem_preorderAll.mpr ⟨child, hchild, ih child hchild hreach⟩)

/-- **A tree is complete:** what is reached in it has a value, and nothing is known of the rest. -/
structure Pass.Complete (q : Pass) (c : Catalog) (e : Element) : Prop where
  made : ∀ n, c.Reaches e n → ∃ k value, q.constructions.get? n.id = some k ∧ k.node = n ∧
    k.outcome? = some (.ok value)
  absent : ∀ n ∈ e.preorder, ¬ c.Reaches e n → q.constructions.get? n.id = none

theorem Pass.Complete.advance {q r : Pass} {c : Catalog} {e : Element} {ids : List NodeId}
    (h : q.Complete c e) (ha : q.Advances ids r) (hids : ∀ id ∈ e.ids, id ∉ ids) :
    r.Complete c e := by
  refine ⟨fun n hn => ?_, fun n hmem hn => ?_⟩
  · obtain ⟨k, value, hk, hrest⟩ := h.made n hn
    exact ⟨k, value, (ha.others _ (hids _ (List.mem_map_of_mem hn.mem_preorder))).trans hk, hrest⟩
  · exact (ha.others _ (hids _ (List.mem_map_of_mem hmem))).trans (h.absent n hmem hn)

/-- Nothing is known of the trees yet. -/
def Pass.Untouched (p : Pass) (es : List Element) : Prop :=
  ∀ n ∈ Element.preorderAll es, p.constructions.get? n.id = none

theorem Pass.Untouched.advance {p q : Pass} {es : List Element} {ids : List NodeId}
    (h : p.Untouched es) (ha : p.Advances ids q) (hids : ∀ id ∈ Element.idsAll es, id ∉ ids) :
    q.Untouched es :=
  fun n hn => (ha.others _ (hids _ (List.mem_map_of_mem hn))).trans (h n hn)

/-- Work on an element leaves its children untouched. -/
theorem Pass.Untouched.past {p q : Pass} {e : Element} (hnew : p.Untouched e.children)
    (hn : e.Numbered) (ha : p.Advances [e.id] q) : q.Untouched e.children :=
  hnew.advance ha fun _ hid hmem =>
    ((Element.numbered_iff e).mp hn).1 (List.mem_singleton.mp hmem ▸ hid)

/-- The visit to the first child leaves the others untouched. -/
theorem Pass.Untouched.rest {p : Pass} {parent : NodeId} {child : Element} {others : List Element}
    (hnew : p.Untouched (child :: others)) (h : p.ReadyFor parent (child :: others)) :
    (Hook.exec (visit parent [child]) p).2.Untouched others := by
  obtain ⟨-, ha⟩ := leads_visit parent [child] p h.sound
  have hrest : p.Untouched others := fun n hn => hnew n (by
    rw [Element.preorderAll]; exact List.mem_append_right _ hn)
  refine hrest.advance ha fun id hid hmem => ?_
  rcases List.mem_cons.mp hmem with rfl | hmem
  · exact h.rest.parent hid
  · rw [Element.idsAll_cons, Element.idsAll_nil, List.append_nil] at hmem
    exact h.not_mem_rest hmem (List.mem_cons_of_mem _ hid)

/-- Before the first child begins, nothing is known below it. -/
theorem Pass.Untouched.below {p p' : Pass} {parent : NodeId} {child : Element}
    {others : List Element} (hnew : p.Untouched (child :: others))
    (h : p.ReadyFor parent (child :: others)) {c : Construction}
    (hl : p.lookup child = .ok (c, p')) : (p'.handDown parent child.id).Untouched child.children := by
  obtain ⟨-, ha⟩ := Pass.Leads.trans _ _ _ (Pass.leads_lookup hl)
    (leads_handDown p' parent child.id) h.sound
  refine Pass.Untouched.past (fun n hn => ?_) h.child_numbered ha
  refine hnew n (Element.mem_preorderAll.mpr ⟨child, List.mem_cons_self, ?_⟩)
  rw [Element.preorder_eq]
  exact List.mem_cons_of_mem _ hn

/-- A child that was looked up and not known before has no outcome when it is processed. -/
theorem open_of_lookup {p p' : Pass} (parent : NodeId) {child : Element} {c : Construction}
    (hnone : p.constructions.get? child.id = none) (hl : p.lookup child = .ok (c, p')) :
    ∃ k, (p'.handDown parent child.id).constructions.get? child.id = some k ∧
      k.outcome? = none := by
  have hc : c.outcome? = none := by
    obtain ⟨hfound, -⟩ | ⟨-, hmade, -⟩ := lookup_finds hl
    · cases hnone.symm.trans hfound
    · exact hmade.outcome
  have hprogress := keepsProgress_handDown p' parent child.id child.id
  rw [get?_of_lookup hl] at hprogress
  obtain ⟨k, hk, hsame⟩ := Option.map_eq_some_iff.mp hprogress
  exact ⟨k, hk, (congrArg Prod.snd hsame).trans hc⟩

mutual

/-- **Processing completes a tree** that is untouched but for its top. -/
theorem complete_process : ∀ (e : Element) {p : Pass} {c : Construction}, p.Ready e →
    p.environment.catalog.Reliable → p.released = false → p.Untouched e.children →
    p.constructions.get? e.id = some c → c.outcome? = none →
    (process e p).2.Complete p.environment.catalog e
  | ⟨id, tag, attributes, children, base⟩, p, c, h, hr, hlive, hnew, hc, hopen => by
    obtain ⟨c', hc', hnode⟩ := h.construction
    rw [hc] at hc'
    cases hc'
    have hkind := h.sound.node_kind hc
    obtain ⟨hp₁, ha₁⟩ := (leads_work c).compileAttributes p h.sound
    rw [hnode] at ha₁
    have hready := (h.advance hp₁ ha₁).children
    have hvisits := complete_visit id children hready (ha₁.environment ▸ hr)
      (ha₁.released.trans hlive) (hnew.past h.numbered ha₁)
    rw [ha₁.environment] at hvisits
    obtain ⟨value, hvalue⟩ := process_ok h hr hc hopen hlive
    obtain ⟨k, hk, hb, ho⟩ := process_settles h.sound hc
    -- after the visits only the element itself is worked on
    have hchildren : ∀ child ∈ children,
        (process ⟨id, tag, attributes, children, base⟩ p).2.Complete p.environment.catalog child := by
      intro child hchild
      obtain ⟨hp₂, -⟩ := leads_visit id children _ hp₁
      have hattributes := compileAttributes_ok h.sound hr (hr.elements _ _ hkind)
      have hbuild := (diagnostics_bind_build c (visit id children)
        (Hook.exec (compileAttributes c) p).2).2
      rw [hnode] at hbuild
      rw [process_run hc hopen hlive, phases, Hook.exec_bind_ok (Prod.ext hattributes rfl)]
      obtain ⟨-, ha⟩ := Pass.Leads.trans _ _ _ hbuild (Pass.leads_settle _ id _) hp₂
      refine (hvisits child hchild).advance ha fun id' hid hmem => ?_
      exact hready.parent (List.mem_singleton.mp hmem ▸ Element.mem_idsAll hchild hid)
    refine ⟨fun n hn => ?_, fun n hmem hn => ?_⟩
    · -- what is reached is the element or is reached in a child
      obtain ⟨-, rfl | ⟨child, hchild, hreach⟩⟩ := Catalog.reaches_iff.mp hn
      · exact ⟨k, value, hk, hb.node.trans hnode, by rw [ho, hvalue]⟩
      · exact (hchildren child hchild).made n hreach
    · -- what is not reached is below a child, and not reached there either
      rw [Element.preorder_eq] at hmem
      have hknows : p.environment.catalog.knows ⟨id, tag, attributes, children, base⟩ = true := by
        rw [Catalog.knows, ← hnode, hkind]
        rfl
      rcases List.mem_cons.mp hmem with rfl | hmem
      · exact absurd (.self hknows) hn
      · obtain ⟨child, hchild, hmem⟩ := Element.mem_preorderAll.mp hmem
        refine (hchildren child hchild).absent n hmem fun hreach => hn ?_
        exact Catalog.reaches_iff.mpr ⟨hknows, Or.inr ⟨child, hchild, hreach⟩⟩

/-- Visits complete the trees of the children. -/
theorem complete_visit (parent : NodeId) : ∀ (children : List Element) {p : Pass},
    p.ReadyFor parent children → p.environment.catalog.Reliable → p.released = false →
    p.Untouched children → ∀ child ∈ children,
      (Hook.exec (visit parent children) p).2.Complete p.environment.catalog child
  | [], p, h, hr, hlive, hnew => fun _ hmem => absurd hmem List.not_mem_nil
  | child :: rest, p, h, hr, hlive, hnew => by
    have hx := firstPanic?_eq_none_iff.mp (firstPanic?_eq_none hr (child :: rest)) child
      List.mem_cons_self
    obtain ⟨hp₁, ha₁⟩ := leads_visit parent [child] p h.sound
    obtain ⟨-, ha₂⟩ := leads_visit parent rest _ h.rest.sound
    have hrest := complete_visit parent rest h.rest (ha₁.environment ▸ hr)
      (ha₁.released.trans hlive) (hnew.rest h)
    have hfresh : ∀ n ∈ child.preorder, p.constructions.get? n.id = none := fun n hn =>
      hnew n (Element.mem_preorderAll.mpr ⟨child, List.mem_cons_self, hn⟩)
    have hfirst : (Hook.exec (visit parent [child]) p).2.Complete p.environment.catalog child := by
      rw [exec_visit_cons]
      rcases hl : p.lookup child with (e | x) | ⟨c, p'⟩
      · -- nothing is reached below an unknown tag
        refine ⟨fun n hn => ?_, fun n hn _ => hfresh n hn⟩
        rw [Catalog.reaches_iff, not_knows_of_lookup_error hl] at hn
        cases hn.1
      · exact absurd hl (hx x)
      · -- the child is processed as it was looked up, and only the parent is worked on after that
        have hready := h.first hl
        have hself := hfresh child (by rw [Element.preorder_eq]; exact List.mem_cons_self)
        obtain ⟨k, hk, hopen⟩ := open_of_lookup parent hself hl
        obtain ⟨-, ha⟩ := Pass.Leads.trans _ _ _ (Pass.leads_lookup hl)
          (leads_handDown p' parent child.id) h.sound
        have hcomplete := complete_process child hready (ha.environment ▸ hr)
          (ha.released.trans hlive) (hnew.below h hl) hk hopen
        rw [ha.environment] at hcomplete
        obtain ⟨hp₂, -⟩ := advances_process hready.sound child
        obtain ⟨-, ha₂⟩ := Pass.Leads.trans _ _ _
          (leads_reportOutcome [parent] _ child (process child (p'.handDown parent child.id)).1)
          (Pass.leads_adopt _ parent child.id) hp₂
        refine hcomplete.advance ha₂ fun id hid hmem => ?_
        exact h.not_mem_rest hid (List.mem_singleton.mp hmem ▸ List.mem_cons_self)
    -- the visits to the others leave the tree of the first child complete
    rw [exec_visit_of_not_panic hx]
    rw [ha₁.environment] at hrest
    intro child' hmem
    rcases List.mem_cons.mp hmem with rfl | hmem
    · exact hfirst.advance ha₂ fun id hid => h.not_mem_rest hid
    · exact hrest child' hmem

end

/-! ### The built-in kinds -/

namespace Kind

/-- None of them stops: each declares, does nothing around the attributes, makes a value and
finishes it. A container is given a record to finish, since that is what it makes. -/
theorem reliable_of_mem {kind : ElementKind} (h : kind ∈ elements.map Prod.fst) :
    kind.Reliable := by
  simp only [elements, List.map_cons, List.map_nil, List.mem_cons, List.not_mem_nil, or_false] at h
  rcases h with rfl | rfl | rfl | rfl | rfl <;>
    exact ⟨fun _ => ⟨_, rfl⟩, fun _ _ => rfl, fun _ _ => rfl,
      fun _ _ => ⟨_, rfl, fun _ _ => ⟨_, rfl⟩⟩⟩

theorem not_isFatal_of_readOrMismatch {a : AttributeView} {read : Option Value} {s : Store}
    {e : CompileError} (h : (Hook.exec (readOrMismatch a read) s).1 = .error (.error e)) :
    e.isFatal = false := by
  cases read with
  | none => cases h; rfl
  | some value => cases h

/-- A path is unresolved, or leads to no value. -/
theorem not_isFatal_of_reflect {n : Namespace} {path : String} {e : CompileError}
    (h : n.reflect path = .error e) : e.isFatal = false := by
  unfold Namespace.reflect at h
  split at h <;> cases h <;> rfl

theorem not_isFatal_of_symbolOf {a : AttributeView} {s : Store} {e : CompileError}
    (h : (Hook.exec (symbolOf a) s).1 = .error (.error e)) : e.isFatal = false := by
  unfold symbolOf at h
  cases hr : a.symbols.reflect (Text.trimmed a.key.value) with
  | error e' =>
    rw [hr] at h
    cases h
    exact not_isFatal_of_reflect hr
  | ok value =>
    rw [hr] at h
    cases h

/-- A constructor has no errors, but it may panic. -/
theorem call_ne_error (a : AttributeView) (maker : Maker Value) (s : Store) (e : CompileError) :
    (Hook.exec (call a maker) s).1 ≠ .error (.error e) := by
  intro h
  rw [call, Hook.exec_bind_ok (Hook.exec_modifyGet (a.calls.run maker) s)] at h
  cases hcall : (a.calls.run maker s).1 with
  | ok value => rw [hcall] at h; cases h
  | error x => rw [hcall] at h; cases h

theorem mild_boolean : boolean.Mild where
  construct a s e h := by
    rw [construct_boolean] at h
    exact not_isFatal_of_readOrMismatch h
  finish _ _ _ _ h := nomatch h

theorem mild_number : number.Mild where
  construct a s e h := by
    rw [construct_number] at h
    exact not_isFatal_of_readOrMismatch h
  finish _ _ _ _ h := nomatch h

theorem mild_constructor : constructor.Mild where
  construct a s e h := by
    rw [construct_constructor] at h
    exact not_isFatal_of_symbolOf h
  finish _ _ _ _ h := nomatch h

theorem mild_instanceOf : instanceOf.Mild where
  construct a s e h := by
    rcases Hook.error_of_bind h with h | ⟨value, t, -, h⟩
    · exact not_isFatal_of_symbolOf h
    · -- anything else than a constructor is a mismatch
      cases value with
      | constructor path maker => exact absurd h (call_ne_error a maker t e)
      | _ => cases h; rfl
  finish _ _ _ _ h := nomatch h

theorem mild_image : image.Mild where
  construct a s e h := by
    simp only [image] at h
    split at h
    · cases h; rfl
    · split at h
      · cases h
      · cases h; rfl
  finish _ _ _ _ h := nomatch h

theorem mild_list : list.Mild where
  construct _ _ _ h := nomatch h
  finish _ _ _ _ h := nomatch h

end Kind

/-- **The built-in kinds are reliable.** -/
theorem Catalog.reliable_builtin : Catalog.builtin.Reliable := by
  refine ⟨fun tag kind h => ?_, fun type kind h => ?_⟩
  · rw [elementKind_builtin] at h
    split at h
    · next k hk =>
      cases h
      exact Kind.reliable_of_mem (Kind.mem_of_lookup_table hk)
    · cases h
  · rw [attributeKind_builtin] at h
    split at h
    · next k hk =>
      cases h
      have hmem := Kind.mem_of_lookup_table hk
      simp only [Kind.attributes, List.map_cons, List.map_nil, List.mem_cons, List.not_mem_nil,
        or_false] at hmem
      -- one kind of the table after the other
      rcases hmem with rfl | rfl | rfl | rfl | rfl | rfl
      · exact Kind.mild_boolean
      · exact Kind.mild_number
      · exact Kind.mild_constructor
      · exact Kind.mild_instanceOf
      · exact Kind.mild_image
      · exact Kind.mild_list
    · cases h

/-- The tags that are known are the built-in ones, in any spelling. -/
theorem Catalog.knows_builtin_iff (e : Element) :
    Catalog.builtin.knows e = true ↔ Text.nameKey e.tag ∈ Kind.elements.flatMap Prod.snd := by
  have hkeys : (Kind.table Kind.elements).map Prod.fst = Kind.elements.flatMap Prod.snd := rfl
  rw [← hkeys, Catalog.knows, elementKind_builtin]
  cases hl : (Kind.table Kind.elements).lookup (Text.nameKey e.tag) with
  -- what is found by a key has that key in the table
  | some kind =>
    refine iff_of_true rfl ?_
    obtain ⟨l₁, l₂, heq, -⟩ := List.lookup_eq_some_iff.mp hl
    rw [heq, List.map_append]
    exact List.mem_append_right _ List.mem_cons_self
  | none =>
    refine iff_of_false Bool.false_ne_true fun hmem => ?_
    obtain ⟨entry, hentry, hkey⟩ := List.mem_map.mp hmem
    exact bne_iff_ne.mp (List.lookup_eq_none_iff.mp hl entry hentry) hkey.symm

/-! ### Documents -/

section Documents

variable {environment : Environment} {document : Document} {base workingDirectory : Option Locator}
  {store : Store}

/-- The root of a document is found if its tag is known. -/
theorem lookup_root (hr : environment.catalog.Reliable)
    (hk : environment.catalog.knows document.root = true) :
    ∃ c p, (Compilation.begin environment document base workingDirectory store).pass.lookup
      document.root = .ok (c, p) ∧ c.outcome? = none := by
  cases hkind : environment.catalog.elementKind document.root.tag with
  | error e =>
    rw [Catalog.knows, hkind] at hk
    cases hk
  | ok kind =>
    obtain ⟨schema, hschema⟩ := (hr.elements _ _ hkind).define document.root
    simp only [Compilation.begin, Pass.lookup, Pass.begin, OrderedMap.get?_empty, hkind, hschema]
    exact ⟨_, _, rfl, rfl⟩

/-- **A document with a root of a known tag gets a value,** and its tree is complete. -/
theorem final_complete (hr : environment.catalog.Reliable) (h : document.root.Numbered)
    (hk : environment.catalog.knows document.root = true) :
    (∃ value, (Compilation.begin environment document base workingDirectory store).process.1
        = .ok value) ∧
      (Compilation.begin environment document base workingDirectory store).final.Complete
        environment.catalog document.root ∧
      ∀ id, id ∉ document.root.ids → (Compilation.begin environment document base workingDirectory
        store).final.constructions.get? id = none := by
  obtain ⟨c, p, hl, hopen⟩ := lookup_root hr hk
  obtain ⟨hprocess, hfinal⟩ := Compilation.process_of_lookup hl
  have hready : p.Ready document.root := .of_lookup_begin h hl
  obtain ⟨-, ha⟩ := Pass.leads_lookup hl (.initial _ _ _)
  have henv : p.environment = environment := ha.environment
  -- looking the root up is no work on the elements below it
  have hnew : p.Untouched document.root.children := Pass.Untouched.past (fun _ _ => rfl) h ha
  rw [hprocess, hfinal]
  refine ⟨process_ok hready (henv ▸ hr) (get?_of_lookup hl) hopen ha.released, ?_, ?_⟩
  · rw [← henv]
    exact complete_process document.root hready (henv ▸ hr) ha.released hnew (get?_of_lookup hl)
      hopen
  · -- no step works on numbers outside the tree
    intro id hid
    rw [(advances_process hready.sound document.root).2.others id hid,
      ha.others id fun hmem => hid (List.mem_singleton.mp hmem ▸ Element.id_mem_ids _)]
    rfl

/-- A document with a root of an unknown tag fails with that. -/
theorem process_of_not_knows (hk : environment.catalog.knows document.root = false) :
    (Compilation.begin environment document base workingDirectory store).process.1
      = .error (.unresolved .tag document.root.tag) := by
  cases hkind : environment.catalog.elementKind document.root.tag with
  | ok kind =>
    rw [Catalog.knows, hkind] at hk
    cases hk
  | error e =>
    have hl : (Compilation.begin environment document base workingDirectory store).pass.lookup
        document.root = .error (.error e) := by
      simp only [Compilation.begin, Pass.lookup, Pass.begin, OrderedMap.get?_empty, hkind]
    rw [(Compilation.process_of_lookup_error hl).1, elementKind_eq_error hkind]
    rfl

/-- What the pass of a document knows is what is reached in its tree. -/
theorem get?_final_eq_some (hr : environment.catalog.Reliable) (h : document.root.Numbered)
    (hk : environment.catalog.knows document.root = true) {id : NodeId} {k : Construction}
    (hget : (Compilation.begin environment document base workingDirectory
      store).final.constructions.get? id = some k) :
    (∃ n, environment.catalog.Reaches document.root n ∧ n.id = id) ∧ k.status = .succeeded := by
  obtain ⟨-, hcomplete, houtside⟩ :=
    @final_complete environment document base workingDirectory store hr h hk
  -- what is known is in the tree, and it is reached there
  by_cases hid : id ∈ document.root.ids
  · obtain ⟨n, hn, rfl⟩ := List.mem_map.mp hid
    by_cases hreach : environment.catalog.Reaches document.root n
    · obtain ⟨k', value, hget', -, ho⟩ := hcomplete.made n hreach
      rw [hget] at hget'
      cases hget'
      exact ⟨⟨n, hreach, rfl⟩, by rw [Construction.status, ho]; rfl⟩
    · rw [hcomplete.absent n hn hreach] at hget
      cases hget
  · rw [houtside id hid] at hget
    cases hget

/-- What a document reports of elements as a whole is that their tags are unknown. -/
theorem unknown_of_mem_diagnostics (hr : environment.catalog.Reliable)
    (h : document.root.Numbered) (hk : environment.catalog.knows document.root = true)
    {d : Diagnostic} (hd : d ∈ (Compilation.begin environment document base workingDirectory
      store).final.diagnostics) (hname : d.attributeName = none) :
    ∃ n ∈ Element.preorderAll document.root.children, environment.catalog.knows n = false ∧
      d = ⟨n.id, n.tag, none, .unresolved .tag n.tag⟩ := by
  obtain ⟨-, hcomplete, -⟩ :=
    @final_complete environment document base workingDirectory store hr h hk
  rw [diagnostics_final _ document base workingDirectory store h] at hd
  obtain ⟨o, ho, hentry⟩ := List.mem_filterMap.mp hd
  obtain ⟨n, rfl, -⟩ := ofChild_of_entry? hentry hname
  -- the report is about an element that was got to, which is below the root
  have hn : n ∈ Element.preorderAll document.root.children := by
    unfold Compilation.reached at ho
    split at ho
    · cases ho
    · exact mem_preorderAll_of_reached document.root ho
  obtain ⟨error, herror, rfl⟩ := Option.map_eq_some_iff.mp hentry
  -- it says that the tag is unknown, or what the construction has failed with
  unfold Pass.childError? at herror
  rw [Compilation.environment_final] at herror
  cases hkind : environment.catalog.elementKind n.tag with
  | error e =>
    rw [hkind] at herror
    cases herror
    refine ⟨n, hn, by rw [Catalog.knows, hkind]; rfl, ?_⟩
    rw [elementKind_eq_error hkind]
  | ok kind =>
    -- an element that is known has not failed
    rw [hkind] at herror
    obtain ⟨k, hget, hfailed⟩ := Option.bind_eq_some_iff.mp herror
    obtain ⟨-, hstatus⟩ := get?_final_eq_some hr h hk hget
    rw [Construction.status] at hstatus
    rw [Construction.error?] at hfailed
    rcases ho : k.outcome? with _ | (e | value)
    · rw [ho] at hfailed
      cases hfailed
    · rw [ho] at hstatus
      cases hstatus
    · rw [ho] at hfailed
      cases hfailed

end Documents

/-- With the built-in kinds a document gets a value just if the tag of its root is built in. -/
theorem process_ok_iff_builtin (world : World) (document : Document)
    (base workingDirectory : Option Locator) (store : Store) (h : document.root.Numbered) :
    (∃ value, (Compilation.begin (.builtin world) document base workingDirectory
        store).process.1 = .ok value) ↔
      Text.nameKey document.root.tag ∈ Kind.elements.flatMap Prod.snd := by
  have hr : (Environment.builtin world).catalog.Reliable := Catalog.reliable_builtin
  rw [← Catalog.knows_builtin_iff]
  by_cases hk : (Environment.builtin world).catalog.knows document.root = true
  · exact iff_of_true (@final_complete _ document base workingDirectory store hr h hk).1 hk
  · have hfailed := @process_of_not_knows _ document base workingDirectory store
      (Bool.eq_false_iff.mpr hk)
    exact iff_of_false (fun ⟨_, hvalue⟩ => nomatch hfailed.symm.trans hvalue) hk

/-- **Only the tag of the root can fail a document,** with the built-in kinds and whatever the
namespace holds and the fetcher gives. A document whose root has a built-in tag gets a value; then
the elements that are known to the pass are those with built-in tags below none with another tag,
they all have a value, and of other elements it is reported that their tag is unknown. -/
theorem process_builtin (world : World) (document : Document)
    (base workingDirectory : Option Locator) (store : Store) (h : document.root.Numbered) :
    ((∃ value, (Compilation.begin (.builtin world) document base workingDirectory
          store).process.1 = .ok value) ↔
        Text.nameKey document.root.tag ∈ Kind.elements.flatMap Prod.snd) ∧
      (∀ e, (Compilation.begin (.builtin world) document base workingDirectory
          store).process.1 = .error e → e = .unresolved .tag document.root.tag) ∧
      (Text.nameKey document.root.tag ∈ Kind.elements.flatMap Prod.snd →
        (∀ id, id ∈ (Compilation.begin (.builtin world) document base workingDirectory
            store).final.constructions.keys ↔
          ∃ n, Catalog.builtin.Reaches document.root n ∧ n.id = id) ∧
        (∀ id c, (Compilation.begin (.builtin world) document base workingDirectory
            store).final.constructions.get? id = some c → c.status = .succeeded) ∧
        ∀ d ∈ (Compilation.begin (.builtin world) document base workingDirectory
            store).final.diagnostics, d.attributeName = none →
          ∃ n ∈ Element.preorderAll document.root.children,
            Text.nameKey n.tag ∉ Kind.elements.flatMap Prod.snd ∧
              d = ⟨n.id, n.tag, none, .unresolved .tag n.tag⟩) := by
  have hr : (Environment.builtin world).catalog.Reliable := Catalog.reliable_builtin
  refine ⟨process_ok_iff_builtin world document base workingDirectory store h, ?_⟩
  rw [← Catalog.knows_builtin_iff]
  by_cases hk : (Environment.builtin world).catalog.knows document.root = true
  · obtain ⟨hok, hcomplete, -⟩ := @final_complete _ document base workingDirectory store hr h hk
    refine ⟨?_, fun _ => ⟨?_, ?_, ?_⟩⟩
    · -- the root has a value, so it has no error
      intro e he
      obtain ⟨value, hvalue⟩ := hok
      rw [hvalue] at he
      cases he
    · intro id
      rw [OrderedMap.mem_keys_iff, Option.isSome_iff_exists]
      constructor
      · rintro ⟨k, hget⟩
        exact (get?_final_eq_some hr h hk hget).1
      · rintro ⟨n, hreach, rfl⟩
        obtain ⟨k, value, hget, -⟩ := hcomplete.made n hreach
        exact ⟨k, hget⟩
    · intro id k hget
      exact (get?_final_eq_some hr h hk hget).2
    · -- the only elements that are reported are those with unknown tags
      intro d hd hname
      obtain ⟨n, hn, hknows, hd⟩ := unknown_of_mem_diagnostics hr h hk hd hname
      refine ⟨n, hn, ?_, hd⟩
      rw [← Catalog.knows_builtin_iff]
      exact fun htrue => Bool.false_ne_true (hknows.symm.trans htrue)
  · -- the look-up of the root has failed, and nothing else has happened
    have hfailed := @process_of_not_knows _ document base workingDirectory store
      (Bool.eq_false_iff.mpr hk)
    refine ⟨fun e he => ?_, fun hk' => absurd hk' hk⟩
    cases hfailed.symm.trans he
    rfl

/-- A container gets a value whatever is in it. -/
theorem process_builtin_container :
    (Markup.Draft.build none 0
        ((Markup.Draft.leaf " Container").withChild (.leaf "widget"))).1.Numbered ∧
      ∃ value, (Compilation.begin (.builtin .empty)
        ⟨(Markup.Draft.build none 0
          ((Markup.Draft.leaf " Container").withChild (.leaf "widget"))).1, none⟩
        none none .empty).process.1 = .ok value :=
  ⟨Markup.Draft.numbered_build _ _ _,
    (process_builtin _ _ none none _ (Markup.Draft.numbered_build _ _ _)).1.mpr
      (by decide +kernel)⟩

end ObjectMarkup
