import ObjectMarkup.Proofs.Building

/-!
# Compiling is evaluating

With the built-in kinds, compiling a document gives the same outcome and the same reports as
evaluating its tree (`process_evaluates`): neither what is kept of elements and attributes for the
case that they are asked for again, nor records that are changed after they were made can be told
from a recursion that keeps nothing.

The proof goes by induction on the tree. The invariant is that the store is tidy from where it was
when the compile began. So the records of children that are done show as trees, which stay the same
while their siblings and their parent make records of their own (`Pass.Shows.advance`). What an
element gives is put together from its phases in `process_gives`.
-/

namespace ObjectMarkup

open Markup (Element NodeId Document)

/-! ### Looking elements up -/

/-- What is known of an element when it was looked up. -/
def Rule.start (r : Rule) (e : Element) : Construction :=
  ⟨e, r.kind, r.schema e, .empty, [], none⟩

/-- The pass in which an element is known. -/
def Pass.start (p : Pass) (r : Rule) (e : Element) : Pass :=
  { p with constructions := p.constructions.insert e.id (r.start e) }

theorem lookup_evaluates {x : Evaluator} {p : Pass} (hf : p.Follows x) {e : Element}
    (hnone : p.constructions.get? e.id = none) :
    p.lookup e =
      match Rule.ofTag? e.tag with
      | none => .error (.error (.unresolved .tag e.tag))
      | some r => .ok (r.start e, p.start r e) := by
  rw [Pass.lookup, hnone]
  simp only [hf.elementKind]
  cases Rule.ofTag? e.tag with
  | none => rfl
  | some r =>
    simp only [r.define_kind]
    rfl

namespace Evaluator

theorem element_eq (x : Evaluator) (e : Element) :
    x.element e =
      match Rule.ofTag? e.tag with
      | none => (.error (.unresolved .tag e.tag), [])
      | some r =>
        (.ok (r.build e (x.values (r.schema e) e.attributes.entries) (x.elements e.children).1),
          x.failures e (r.schema e) e.attributes.entries ++ (x.elements e.children).2) := by
  obtain ⟨id, tag, attributes, children, base⟩ := e
  cases hr : Rule.ofTag? tag <;> simp only [element, hr]

theorem elements_cons (x : Evaluator) (child : Element) (rest : List Element) :
    x.elements (child :: rest) =
      match x.element child with
      | (.ok t, inside) =>
        ((child, t) :: (x.elements rest).1, inside ++ (x.elements rest).2)
      | (.error e, inside) =>
        ((x.elements rest).1, inside ++ ⟨child.id, child.tag, none, e⟩ :: (x.elements rest).2) := by
  rw [elements]
  rcases x.element child with ⟨e | t, inside⟩ <;> rfl

end Evaluator

/-! ### Children that are done -/

/-- A child that is done shows as the tree that it is evaluated to. -/
def Pass.Shows (q : Pass) (m : Nat) (child : Element) (t : Element × Tree) : Prop :=
  ∃ k, q.constructions.get? child.id = some k ∧ k.childView.Shows m q.store t

/-- Work on other elements leaves a child as it shows. -/
theorem Pass.Shows.advance {q r : Pass} {m : Nat} {child : Element} {t : Element × Tree}
    {ids : List NodeId} (h : q.Shows m child t) (ha : q.Advances ids r) (hid : child.id ∉ ids)
    (hq : q.store.Tidy m) (hr : r.store.Tidy m) (hgrows : q.store.Extends r.store) :
    r.Shows m child t := by
  obtain ⟨k, hk, hnode, v, ho, hv, ht⟩ := h
  exact ⟨k, (ha.others _ hid).trans hk, hnode, v, ho, hv.mono hgrows.size,
    (hq.spread_extends hr hgrows hv).trans ht⟩

/-- What has come of visits to children. -/
structure Pass.Visits (p q : Pass) (m : Nat) (parent : NodeId) (children : List Element)
    (results : List (Element × Tree)) (reports : List Diagnostic) : Prop where
  grows : p.store.Extends q.store
  tidy : q.store.Tidy m
  /-- The values of the parent are its own affair. -/
  values : q.values parent = p.values parent
  /-- The children with known tags are done. -/
  shows : List.Forall₂ (q.Shows m) (children.filter p.environment.catalog.knows) results
  diagnostics : q.diagnostics = p.diagnostics ++ reports

/-- The hooks of the parent see what the children show as. -/
theorem childViews_of_shows {q : Pass} {m : Nat} {id : NodeId} {c : Construction}
    {children : List Element} {results : List (Element × Tree)}
    (hc : q.constructions.get? id = some c) (hchildren : c.children = children.map Element.id)
    (h : List.Forall₂ (q.Shows m) children results) :
    List.Forall₂ (ChildView.Shows m q.store) (q.childViews id) results := by
  rw [Pass.childViews, Pass.children, hc]
  simp only [hchildren]
  clear hc hchildren
  induction h with
  | nil => exact .nil
  | cons hshows _ ih =>
    obtain ⟨k, hk, hview⟩ := hshows
    rw [List.map_cons, List.filterMap_cons_some hk, List.map_cons]
    exact .cons hview ih

section Visits

variable {x : Evaluator} {p : Pass} {m : Nat} {parent : NodeId} {child : Element}
  {others : List Element}

/-- The visit to the first child comes before those to the others. -/
theorem Pass.Visits.cons (h : p.ReadyFor parent (child :: others))
    {results results' : List (Element × Tree)} {reports reports' : List Diagnostic}
    (hfirst : p.Visits (Hook.exec (visit parent [child]) p).2 m parent [child] results reports)
    (hothers : (Hook.exec (visit parent [child]) p).2.Visits
      (Hook.exec (visit parent others) (Hook.exec (visit parent [child]) p).2).2 m parent others
      results' reports') :
    p.Visits (Hook.exec (visit parent others) (Hook.exec (visit parent [child]) p).2).2 m parent
      (child :: others) (results ++ results') (reports ++ reports') := by
  obtain ⟨-, ha⟩ := leads_visit parent [child] p h.sound
  obtain ⟨-, ha'⟩ := leads_visit parent others _ h.rest.sound
  generalize (Hook.exec (visit parent others) (Hook.exec (visit parent [child]) p).2).2 = r at *
  -- what the first child shows as is not changed by the visits to the others
  have hstays : ∀ t, (Hook.exec (visit parent [child]) p).2.Shows m child t → r.Shows m child t :=
    fun t ht => ht.advance ha' (h.not_mem_rest (Element.id_mem_ids child)) hfirst.tidy hothers.tidy
      hothers.grows
  refine ⟨hfirst.grows.trans hothers.grows, hothers.tidy, hothers.values.trans hfirst.values, ?_,
    by rw [hothers.diagnostics, hfirst.diagnostics, List.append_assoc]⟩
  -- the first child is among those with results only if its tag is known
  have hshows := hfirst.shows
  have hshows' := hothers.shows
  rw [ha.environment] at hshows'
  rw [List.filter_cons] at hshows ⊢
  by_cases hk : p.environment.catalog.knows child = true
  · rw [if_pos hk] at hshows ⊢
    cases hshows with
    | cons ht hnil =>
      cases hnil
      exact .cons (hstays _ ht) hshows'
  · rw [if_neg hk] at hshows ⊢
    cases hshows
    exact hshows'

theorem values_adopt (p : Pass) (parent child : NodeId) :
    (p.adopt parent child).values parent = p.values parent := by
  rw [Pass.values, Pass.values, Pass.adopt, Pass.modifyConstruction, OrderedMap.get?_modify_self]
  cases p.constructions.get? parent <;> rfl

/-- The visit to a child whose tag is unknown. -/
theorem visits_unknown (parent : NodeId) (hf : p.Follows x) (htidy : p.store.Tidy m)
    (hnone : p.constructions.get? child.id = none) (hr : Rule.ofTag? child.tag = none) :
    p.Visits (Hook.exec (visit parent [child]) p).2 m parent [child] []
      [⟨child.id, child.tag, none, .unresolved .tag child.tag⟩] := by
  have hl := lookup_evaluates hf hnone
  rw [hr] at hl
  have hfilter : [child].filter p.environment.catalog.knows = [] := by
    rw [List.filter_singleton, not_knows_of_lookup_error hl]
    rfl
  rw [exec_visit_cons, hl]
  exact ⟨.refl _, htidy, rfl, by rw [hfilter]; exact .nil, rfl⟩

/-- The visit to a child that gives a value. -/
theorem visits_known (hf : p.Follows x) (h : p.ReadyFor parent (child :: others))
    (hnone : p.constructions.get? child.id = none) {rule : Rule}
    (hr : Rule.ofTag? child.tag = some rule) {v : Value} {t : Tree} {reports : List Diagnostic}
    (hok : (process child (p.start rule child)).1 = .ok v)
    (hgives : (p.start rule child).Gives (process child (p.start rule child)).2 m v t reports) :
    p.Visits (Hook.exec (visit parent [child]) p).2 m parent [child] [(child, t)] reports := by
  have hl := lookup_evaluates hf hnone
  rw [hr] at hl
  have hknows := knows_of_lookup h hl
  obtain ⟨hstart, hadvance⟩ := Pass.leads_lookup hl h.sound
  -- no built-in kind hands values down, so the child is processed as it was looked up
  have hhand := handDown_evaluates hstart (hf.advance hadvance) parent child.id
  obtain ⟨hsound, ha, k, hk, hnode, ho⟩ := processed_of_lookup h hl
  rw [hhand] at hsound ha hk ho
  have hparent : parent ∉ child.ids := fun hid => h.not_mem_rest hid List.mem_cons_self
  have hne : child.id ∉ [parent] := fun hid =>
    hparent (List.mem_singleton.mp hid ▸ Element.id_mem_ids child)
  -- the outcome that was given is the one that is kept with the child
  have hshows : (process child (p.start rule child)).2.Shows m child (child, t) :=
    ⟨k, hk, hnode, v, hok ▸ ho, hgives.between, hgives.shows⟩
  have hvalues : (process child (p.start rule child)).2.values parent = p.values parent := by
    rw [Pass.values, ha.others parent hparent]
    rfl
  have hrun : (Hook.exec (visit parent [child]) p).2
      = (process child (p.start rule child)).2.adopt parent child.id := by
    rw [exec_visit_cons, hl]
    simp only [visitFound, hhand, hok]
    rfl
  rw [hrun]
  refine ⟨hgives.grows, hgives.tidy, (values_adopt _ parent child.id).trans hvalues, ?_,
    hgives.diagnostics⟩
  have hfilter : [child].filter p.environment.catalog.knows = [child] := by
    rw [List.filter_singleton, hknows]
    rfl
  rw [hfilter]
  obtain ⟨-, hadopt⟩ := Pass.leads_adopt _ parent child.id hsound
  exact .cons (hshows.advance hadopt hne hgives.tidy hgives.tidy (.refl _)) .nil

end Visits

/-! ### Trees -/

/-- Visits end, since no look-up panics, and the parent sees what the children show as. -/
theorem exec_visit_evaluates {x : Evaluator} {m : Nat} {p : Pass} {parent : NodeId}
    {children : List Element} (h : p.ReadyFor parent children) (hf : p.Follows x)
    {c : Construction} (hc : p.constructions.get? parent = some c) (hnone : c.children = [])
    {results : List (Element × Tree)} {reports : List Diagnostic}
    (hvisits : p.Visits (Hook.exec (visit parent children) p).2 m parent children results reports) :
    ∃ q k, Hook.exec (visit parent children) p = (.ok (), q) ∧ q.constructions.get? parent = some k ∧
      p.Visits q m parent children results reports ∧
      List.Forall₂ (ChildView.Shows m q.store) (q.childViews parent) results := by
  -- `define` of the built-in kinds does not panic
  have hpanic := firstPanic?_eq_none hf.reliable children
  have hend := visit_ending children h
  have hk := get?_visits children h hpanic c hc
  rw [hnone, List.nil_append] at hk
  rcases hrun : Hook.exec (visit parent children) p with ⟨ending, q⟩
  rw [hrun] at hend hk hvisits
  rw [hpanic] at hend
  obtain rfl : ending = .ok () := hend
  exact ⟨q, _, rfl, hk, hvisits, childViews_of_shows hk rfl hvisits.shows⟩

/-- **An element** gives what its rule builds from its attributes and its children, if these give
what they are evaluated to. -/
theorem gives_of_visits {x : Evaluator} (hx : x.symbols.Plain) {m : Nat} {e : Element} {p : Pass}
    {r : Rule} (h : p.Ready e) (hf : p.Follows x)
    (hc : p.constructions.get? e.id = some (r.start e))
    {results : List (Element × Tree)} {reports : List Diagnostic}
    (hvisits : ∀ p₁, (Hook.exec (compileAttributes (r.start e)) p).2 = p₁ →
      p₁.Visits (Hook.exec (visit e.id e.children) p₁).2 m e.id e.children results reports) :
    ∃ v, (process e p).1 = .ok v ∧
      p.Gives (process e p).2 m v
        (r.build e (x.values (r.schema e) e.attributes.entries) results)
        (x.failures e (r.schema e) e.attributes.entries ++ reports) := by
  obtain ⟨hok, htakes⟩ := compileAttributes_evaluates hx h.sound hf (c := r.start e) hc rfl
    r.before_kind r.after_kind
  obtain ⟨hp₁, ha₁⟩ := (leads_work (r.start e)).compileAttributes p h.sound
  have hprogress := (keepsProgress_work (r.start e)).compileAttributes p e.id
  have hvisits := hvisits _ rfl
  rw [process_run hc rfl hf.released, phases]
  rcases hattributes : Hook.exec (compileAttributes (r.start e)) p with ⟨ending, p₁⟩
  rw [hattributes] at hok htakes hp₁ ha₁ hprogress hvisits
  obtain rfl : ending = .ok () := hok
  -- the attributes have adopted no children
  rw [hc] at hprogress
  obtain ⟨c₁, hc₁, hsame⟩ := Option.map_eq_some_iff.mp hprogress
  obtain ⟨p₂, c₂, hvisited, hc₂, hvisits, hviews⟩ := exec_visit_evaluates
    (h.advance hp₁ ha₁).children (hf.advance ha₁) hc₁ (congrArg Prod.fst hsame) hvisits
  -- and the visits have left the values of the element alone
  have hvalues : (p₂.values e.id).entries = x.values (r.schema e) e.attributes.entries := by
    have hbegin : (p.values e.id).entries = [] := by rw [Pass.values_eq hc]; rfl
    have htaken : (p₁.values e.id).entries
        = (p.values e.id).entries ++ x.values (r.schema e) e.attributes.entries := htakes.values
    have hkept : p₂.values e.id = p₁.values e.id := hvisits.values
    rw [hkept, htaken, hbegin, List.nil_append]
  obtain ⟨v, hbuild, hgives⟩ := build_evaluates (c := r.start e) (r := r) rfl rfl hc₂ hvisits.tidy
    (hvalues ▸ Evaluator.plain_values hx) hviews
  rw [Hook.exec_bind_ok hattributes, Hook.exec_bind_ok hvisited, hbuild, ← hvalues]
  refine ⟨v, rfl, ⟨?_, hgives.tidy, hgives.between, hgives.shows, ?_⟩⟩
  · exact Store.Extends.trans (htakes.store ▸ hvisits.grows) hgives.grows
  · refine hgives.diagnostics.trans ?_
    rw [List.append_nil, hvisits.diagnostics, htakes.diagnostics, List.append_assoc]
    rfl

mutual

/-- **Processing an element** gives what it is evaluated to. -/
theorem process_gives {x : Evaluator} (hx : x.symbols.Plain) {m : Nat} : ∀ (e : Element) {p : Pass}
    {r : Rule}, p.Ready e → p.Follows x → p.store.Tidy m → p.Untouched e.children →
    p.constructions.get? e.id = some (r.start e) →
    ∃ v, (process e p).1 = .ok v ∧
      p.Gives (process e p).2 m v
        (r.build e (x.values (r.schema e) e.attributes.entries) (x.elements e.children).1)
        (x.failures e (r.schema e) e.attributes.entries ++ (x.elements e.children).2)
  | ⟨id, tag, attributes, children, base⟩, p, r, h, hf, htidy, hnew, hc => by
    obtain ⟨hok, htakes⟩ := compileAttributes_evaluates hx h.sound hf
      (c := r.start ⟨id, tag, attributes, children, base⟩) hc rfl r.before_kind r.after_kind
    obtain ⟨hp₁, ha₁⟩ :=
      (leads_work (r.start ⟨id, tag, attributes, children, base⟩)).compileAttributes p h.sound
    have hready := (h.advance hp₁ ha₁).children
    refine gives_of_visits hx h hf hc ?_
    rintro p₁ rfl
    -- the attributes have made no records and are no work on the children
    exact visit_gives hx id children hready (hf.advance ha₁) (htakes.store ▸ htidy)
      (hnew.past h.numbered ha₁)

/-- **Visits to children** give what these are evaluated to. -/
theorem visit_gives {x : Evaluator} (hx : x.symbols.Plain) {m : Nat} (parent : NodeId) :
    ∀ (children : List Element) {p : Pass}, p.ReadyFor parent children → p.Follows x →
    p.store.Tidy m → p.Untouched children →
    p.Visits (Hook.exec (visit parent children) p).2 m parent children (x.elements children).1
      (x.elements children).2
  | [], p, h, hf, htidy, hnew => ⟨.refl _, htidy, rfl, .nil, (List.append_nil _).symm⟩
  | child :: rest, p, h, hf, htidy, hnew => by
    -- the child is untouched, so looking it up begins a construction of its own
    have hnone : p.constructions.get? child.id = none := hnew child (by
      rw [Element.preorderAll, Element.preorder_eq]
      exact List.mem_cons_self)
    have hl := lookup_evaluates hf hnone
    obtain ⟨-, ha⟩ := leads_visit parent [child] p h.sound
    -- the others are still untouched after the first one, which was somewhere else in the tree
    have hrest := fun htidy' =>
      visit_gives hx parent rest h.rest (hf.advance ha) (m := m) htidy' (hnew.rest h)
    have hrun : (Hook.exec (visit parent (child :: rest)) p).2
        = (Hook.exec (visit parent rest) (Hook.exec (visit parent [child]) p).2).2 := by
      rw [exec_visit_of_not_panic]
      exact firstPanic?_eq_none_iff.mp (firstPanic?_eq_none hf.reliable (child :: rest)) child
        List.mem_cons_self
    rw [hrun, x.elements_cons, x.element_eq]
    cases hr : Rule.ofTag? child.tag with
    | none =>
      have hfirst := visits_unknown parent hf htidy hnone hr
      exact hfirst.cons h (hrest hfirst.tidy)
    | some r =>
      rw [hr] at hl
      obtain ⟨hstart, hadvance⟩ := Pass.leads_lookup hl h.sound
      have hhand := handDown_evaluates hstart (hf.advance hadvance) parent child.id
      have hready := h.first hl
      have hbelow := hnew.below h hl
      rw [hhand] at hready hbelow
      obtain ⟨v, hok, hgives⟩ := process_gives hx child hready (hf.advance hadvance) htidy hbelow
        (get?_of_lookup hl)
      have hfirst := visits_known hf h hnone hr hok hgives
      exact hfirst.cons h (hrest hfirst.tidy)

end

/-! ### Documents -/

/-- The compile of a document with the built-in kinds and what the evaluator depends on. -/
def Evaluator.compile (x : Evaluator) (document : Document) (base workingDirectory : Option Locator)
    (store : Store) : Compilation :=
  .begin (.builtin x.toWorld) document base workingDirectory store

/-- The compile has come to what an evaluation comes to. -/
structure Compilation.Evaluates (c : Compilation)
    (r : Outcome Tree × List Diagnostic) : Prop where
  outcome : c.process.1.map c.final.store.tree = r.1
  diagnostics : c.final.diagnostics = r.2
  json : ∀ v, c.process.1 = .ok v →
    ∃ t j, r.1 = .ok t ∧ t.json? = some j ∧ c.final.store.json? v = some j

section Documents

variable {x : Evaluator} {document : Document} {base workingDirectory : Option Locator}

/-- A root with an unknown tag is all there is to a compile. -/
theorem compile_unknown (store : Store)
    (hbase : (base.or document.base).or workingDirectory = some x.base)
    (hr : Rule.ofTag? document.root.tag = none) :
    (x.compile document base workingDirectory store).process.1
        = .error (.unresolved .tag document.root.tag) ∧
      (x.compile document base workingDirectory store).final.diagnostics = [] := by
  have hf : (x.compile document base workingDirectory store).pass.Follows x := ⟨rfl, hbase, rfl⟩
  have hl := lookup_evaluates hf (e := document.root) rfl
  rw [hr] at hl
  obtain ⟨hprocess, hfinal⟩ := Compilation.process_of_lookup_error hl
  exact ⟨hprocess, congrArg Pass.diagnostics hfinal⟩

/-- A root with a known tag gives what it is evaluated to. -/
theorem compile_gives (hx : x.symbols.Plain) (store : Store) (hn : document.root.Numbered)
    (hbase : (base.or document.base).or workingDirectory = some x.base) {r : Rule}
    (hr : Rule.ofTag? document.root.tag = some r) :
    ∃ v, (x.compile document base workingDirectory store).process.1 = .ok v ∧
      (x.compile document base workingDirectory store).pass.Gives
        (x.compile document base workingDirectory store).final store.size v
        (r.build document.root (x.values (r.schema document.root) document.root.attributes.entries)
          (x.elements document.root.children).1)
        (x.failures document.root (r.schema document.root) document.root.attributes.entries
          ++ (x.elements document.root.children).2) := by
  have hf : (x.compile document base workingDirectory store).pass.Follows x := ⟨rfl, hbase, rfl⟩
  have hl := lookup_evaluates hf (e := document.root) rfl
  rw [hr] at hl
  obtain ⟨-, ha⟩ := Pass.leads_lookup hl (.initial _ _ _)
  obtain ⟨hprocess, hfinal⟩ := Compilation.process_of_lookup hl
  have hready := Pass.Ready.of_lookup_begin hn hl
  -- records that were made before the compile are none of its own
  have htidy : store.Tidy store.size :=
    ⟨Nat.le_refl _, fun _ hm hid => absurd hid (Nat.not_lt.mpr hm)⟩
  have hnew : ((x.compile document base workingDirectory store).pass.start r document.root).Untouched
      document.root.children := Pass.Untouched.past (fun _ _ => rfl) hn ha
  obtain ⟨v, hok, hgives⟩ := process_gives hx document.root hready (hf.advance ha) htidy hnew
    (get?_of_lookup hl)
  have hsame : (x.compile document base workingDirectory store).final
      = (process document.root
          ((x.compile document base workingDirectory store).pass.start r document.root)).2 := hfinal
  rw [hsame]
  exact ⟨v, hprocess.trans hok, hgives.grows, hgives.tidy, hgives.between, hgives.shows,
    hgives.diagnostics⟩

end Documents

/-- A compile evaluates its root, whatever the tag of it is. -/
theorem evaluates_compile {x : Evaluator} (hx : x.symbols.Plain) (document : Document)
    (base workingDirectory : Option Locator) (store : Store) (hn : document.root.Numbered)
    (hbase : (base.or document.base).or workingDirectory = some x.base) :
    (x.compile document base workingDirectory store).Evaluates (x.element document.root) := by
  rw [x.element_eq]
  cases hr : Rule.ofTag? document.root.tag with
  | none =>
    -- there is no pass to speak of, so nothing is reported
    obtain ⟨hprocess, hdiagnostics⟩ := compile_unknown store hbase hr
    exact ⟨by rw [hprocess]; rfl, hdiagnostics, fun v hv => nomatch hprocess.symm.trans hv⟩
  | some r =>
    obtain ⟨v, hprocess, hgives⟩ := compile_gives hx store hn hbase hr
    have htree := (hgives.tidy.tree_eq hgives.between).trans hgives.shows
    refine ⟨by rw [hprocess]; exact congrArg Except.ok htree, hgives.diagnostics, fun v' hv => ?_⟩
    cases hprocess.symm.trans hv
    -- no record is inside itself, so the value has a JSON at all
    obtain ⟨j, hj⟩ := Option.isSome_iff_exists.mp (hgives.tidy.json hgives.between)
    exact ⟨_, j, rfl, (congrArg Tree.json? htree).symm.trans hj, hj⟩

/-- **Compiling is evaluating.** With the built-in kinds, paths to values without records and
constructors, and some base, a document compiles to the outcome that its root is evaluated to, with
the same reports in the same order. A value spreads out to the tree that is evaluated to, so that
its JSON is the same, and there always is one. -/
theorem process_evaluates {x : Evaluator} (hx : x.symbols.Plain) (document : Document)
    (base workingDirectory : Option Locator) (store : Store) (hn : document.root.Numbered)
    (hbase : (base.or document.base).or workingDirectory = some x.base) :
    (x.compile document base workingDirectory store).process.1.map
        (x.compile document base workingDirectory store).final.store.tree
          = (x.element document.root).1 ∧
      (x.compile document base workingDirectory store).final.diagnostics
        = (x.element document.root).2 ∧
      ∀ v, (x.compile document base workingDirectory store).process.1 = .ok v →
        ∃ t j, (x.element document.root).1 = .ok t ∧ t.json? = some j ∧
          (x.compile document base workingDirectory store).final.store.json? v = some j := by
  have h := evaluates_compile hx document base workingDirectory store hn hbase
  exact ⟨h.outcome, h.diagnostics, h.json⟩

def titled : Evaluator :=
  ⟨{ World.empty with symbols := (Namespace.empty.define "app.title" (.string "Title") true).2 },
    ⟨['m', 'e', 'm'], none, .segments [[]], none, none⟩⟩

/-- A container with a controller that is no constructor, and with a child that has an unknown
tag. -/
def titledContainer : Element :=
  (Markup.Draft.build none 0
    (((Markup.Draft.leaf "Container").withAttribute "controller" "app.title").withChild
      (.leaf "widget"))).1

/-- The container compiles to an empty record, with a report on the attribute and then one on the
child. -/
theorem process_evaluates_titled :
    titled.symbols.Plain ∧ titledContainer.Numbered ∧
      ((none : Option Locator).or (some titled.base)).or none = some titled.base ∧
      (titled.compile ⟨titledContainer, some titled.base⟩ none none .empty).process.1.map
          (titled.compile ⟨titledContainer, some titled.base⟩ none none .empty).final.store.tree
        = .ok (.record "Container" [] []) ∧
      (titled.compile ⟨titledContainer, some titled.base⟩ none none .empty).final.diagnostics.map
          (fun d => (d.attributeName, d.error))
        = [(some "controller", .typeMismatch "controller" "app.title" "instance"),
          (none, .unresolved .tag "widget")] := by
  have htitle : (Value.string "Title").Plain := trivial
  have hplain : titled.symbols.Plain := Namespace.plain_define Namespace.plain_empty _ htitle _
  have hn : titledContainer.Numbered := Markup.Draft.numbered_build _ _ _
  have htree : (titled.element titledContainer).1 = .ok (.record "Container" [] []) := by rfl
  obtain ⟨hvalue, hreports, -⟩ :=
    process_evaluates hplain ⟨titledContainer, some titled.base⟩ none none .empty hn rfl
  refine ⟨hplain, hn, rfl, hvalue.trans htree, ?_⟩
  rw [hreports]
  decide +kernel

end ObjectMarkup
