import ObjectMarkup.Proofs.Account

/-!
# When failures of children stay with the children

An element whose attributes are done visits its children, and whatever these do, it goes on to make
its own value, unless the look-up of a child panics. `Contained` says what going on means, and
`contained_iff` that this one exception is exact: a panic of a kind that declares the attributes of
a child is a panic of the parent, which is then aborted before it makes a value.

The visits are gone through one by one. `visit_induction` is the induction for that: it carries
along that the pass is ready for the children to come and that none of their look-ups panics, which
work on other elements does not change.
-/

namespace ObjectMarkup

open Markup (Element NodeId)

/-! ### How visits end -/

/-- The panic of the first child whose look-up panics. -/
def Pass.firstPanic? (p : Pass) (children : List Element) : Option Panic :=
  children.findSome? fun child =>
    match p.lookup child with
    | .error (.panic x) => some x
    | _ => none

theorem firstPanic?_cons (p : Pass) (child : Element) (rest : List Element) :
    p.firstPanic? (child :: rest) =
      match p.lookup child with
      | .error (.panic x) => some x
      | _ => p.firstPanic? rest := by
  rw [Pass.firstPanic?, List.findSome?_cons]
  rcases p.lookup child with (_ | _) | _ <;> rfl

theorem firstPanic?_eq_none_iff {p : Pass} {children : List Element} :
    p.firstPanic? children = none ↔
      ∀ child ∈ children, ∀ x, p.lookup child ≠ .error (.panic x) := by
  rw [Pass.firstPanic?, List.findSome?_eq_none_iff]
  refine forall₂_congr fun child _ => ?_
  rcases p.lookup child with (_ | _) | _ <;> simp

/-- Work on other elements changes nothing about panics. -/
theorem Pass.Advances.firstPanic?_eq {p q : Pass} {ids : List NodeId} {children : List Element}
    (h : p.Advances ids q) (hids : ∀ child ∈ children, child.id ∉ ids) :
    q.firstPanic? children = p.firstPanic? children := by
  induction children with
  | nil => rfl
  | cons child rest ih =>
    have hrest := ih fun c hc => hids c (List.mem_cons_of_mem _ hc)
    -- a look-up of this child fails later just if it fails now
    have hsame : ∀ stop, q.lookup child = .error stop ↔ p.lookup child = .error stop :=
      fun stop => h.lookup_eq_error_iff (hids child List.mem_cons_self)
    rw [firstPanic?_cons, firstPanic?_cons, hrest]
    rcases hp : p.lookup child with (e | x) | cp
    · rw [(hsame (.error e)).mpr hp]
    · rw [(hsame (.panic x)).mpr hp]
    · rcases hq : q.lookup child with (e | x) | cq
      · rfl
      · rw [(hsame _).mp hq] at hp
        cases hp
      · rfl

/-- Visits go on after a child whose look-up does not panic. -/
theorem exec_visit_of_not_panic {parent : NodeId} {child : Element} {rest : List Element} {p : Pass}
    (h : ∀ x, p.lookup child ≠ .error (.panic x)) :
    Hook.exec (visit parent (child :: rest)) p
      = Hook.exec (visit parent rest) (Hook.exec (visit parent [child]) p).2 := by
  rw [exec_visit_cons, exec_visit_cons]
  rcases hl : p.lookup child with (e | x) | cp
  · rfl
  · exact absurd hl (h x)
  · rfl

/-- The panics of the children to come are the same after the visit to the first one. -/
theorem firstPanic?_after_visit {parent : NodeId} {child : Element} {rest : List Element} {p : Pass}
    (h : p.ReadyFor parent (child :: rest)) :
    (Hook.exec (visit parent [child]) p).2.firstPanic? rest = p.firstPanic? rest := by
  refine (leads_visit parent [child] p h.sound).2.firstPanic?_eq fun c hc hmem => ?_
  have hid : c.id ∈ Element.idsAll rest := Element.id_mem_idsAll hc
  rcases List.mem_cons.mp hmem with heq | hmem
  · exact h.rest.parent (heq ▸ hid)
  · rw [Element.idsAll_cons, Element.idsAll_nil, List.append_nil] at hmem
    exact h.not_mem_rest hmem (List.mem_cons_of_mem _ hid)

/-- **The end of visits.** They end well, or with the first panic of a look-up. -/
theorem visit_ending {parent : NodeId} (children : List Element) {p : Pass}
    (h : p.ReadyFor parent children) :
    (Hook.exec (visit parent children) p).1 =
      match p.firstPanic? children with
      | none => .ok ()
      | some x => .error (.panic x) := by
  induction children generalizing p with
  | nil => rfl
  | cons child rest ih =>
    rw [firstPanic?_cons]
    by_cases hx : ∃ x, p.lookup child = .error (.panic x)
    · -- the first panic is the last thing that happens
      obtain ⟨x, hl⟩ := hx
      rw [exec_visit_cons, hl]
    · have hl : ∀ x, p.lookup child ≠ .error (.panic x) := fun x hl => hx ⟨x, hl⟩
      rw [exec_visit_of_not_panic hl, ih h.rest, firstPanic?_after_visit h]
      rcases hp : p.lookup child with (e | x) | cp
      · rfl
      · exact absurd hp (hl x)
      · rfl

/-- Induction on visits that end well. -/
theorem visit_induction {parent : NodeId} {M : List Element → Pass → Pass → Prop}
    (nil : ∀ p, M [] p p)
    (cons : ∀ child rest p q, p.ReadyFor parent (child :: rest) →
      (∀ x, p.lookup child ≠ .error (.panic x)) →
      (Hook.exec (visit parent [child]) p).2.Advances (parent :: Element.idsAll rest) q →
      M rest (Hook.exec (visit parent [child]) p).2 q → M (child :: rest) p q)
    (children : List Element) {p : Pass} (h : p.ReadyFor parent children)
    (hx : p.firstPanic? children = none) :
    M children p (Hook.exec (visit parent children) p).2 := by
  induction children generalizing p with
  | nil => exact nil p
  | cons child rest ih =>
    have hl := firstPanic?_eq_none_iff.mp hx
    have hrest : p.firstPanic? rest = none :=
      firstPanic?_eq_none_iff.mpr fun c hc => hl c (List.mem_cons_of_mem _ hc)
    rw [exec_visit_of_not_panic (hl child List.mem_cons_self)]
    -- visiting does not make later children panic that did not before
    refine cons child rest p _ h (hl child List.mem_cons_self) ?_ ?_
    · exact (leads_visit parent rest _ h.rest.sound).2
    · exact ih h.rest ((firstPanic?_after_visit h).trans hrest)

/-! ### One visit -/

/-- Whether there is a kind for the tag of an element. -/
def Catalog.knows (c : Catalog) (e : Element) : Bool :=
  (c.elementKind e.tag).isOk

/-- Calls came child by child, in the order of the document: those for one child are all made before
those for the next one. -/
inductive CallsInOrder : List Element → List (HookCall × Bool) → List (HookCall × Bool) → Prop where
  /-- Without children nothing is called. -/
  | nil (a : List (HookCall × Bool)) : CallsInOrder [] a a
  /-- First come the calls for the first child. -/
  | cons {child : Element} {rest : List Element} {a b c : List (HookCall × Bool)} :
    CallsGrow child.ids a b → CallsInOrder rest b c → CallsInOrder (child :: rest) a c

/-- Calls for children are calls for elements of their trees. -/
theorem CallsInOrder.grow {children : List Element} {a b : List (HookCall × Bool)}
    (h : CallsInOrder children a b) : CallsGrow (Element.idsAll children) a b := by
  induction h with
  | nil a => exact .refl _ a
  | cons hfirst _ ih =>
    rw [Element.idsAll_cons]
    exact (hfirst.mono fun _ h => List.mem_append_left _ h).trans
      (ih.mono fun _ h => List.mem_append_right _ h)

section Visit

variable {parent : NodeId} {child : Element} {rest : List Element} {p : Pass}

/-- A child that was looked up is processed, which changes its tree only and settles it. -/
theorem processed_of_lookup (h : p.ReadyFor parent (child :: rest)) {c : Construction} {p' : Pass}
    (hl : p.lookup child = .ok (c, p')) :
    (process child (p'.handDown parent child.id)).2.Sound ∧
      p.Advances child.ids (process child (p'.handDown parent child.id)).2 ∧
      ∃ k, (process child (p'.handDown parent child.id)).2.constructions.get? child.id = some k ∧
        k.node = child ∧
        k.outcome? = some (process child (p'.handDown parent child.id)).1 := by
  have hfirst := h.first hl
  obtain ⟨k, hk, hnode⟩ := hfirst.construction
  obtain ⟨k', hk', hb, ho⟩ := process_settles hfirst.sound hk
  -- looking up and handing down are work on the child itself
  have hself : ∀ id ∈ [child.id], id ∈ child.ids := by simp [Element.id_mem_ids]
  obtain ⟨hsound, ha⟩ := Pass.Leads.trans _ _ _ ((Pass.leads_lookup hl).mono hself)
    (Pass.Leads.trans _ _ _ ((leads_handDown p' parent child.id).mono hself)
      (leads_process child _)) h.sound
  exact ⟨hsound, ha, k', hk', hb.node.trans hnode, ho⟩

/-- A child that is looked up has a tag that is known. -/
theorem knows_of_lookup (h : p.ReadyFor parent (child :: rest)) {c : Construction} {p' : Pass}
    (hl : p.lookup child = .ok (c, p')) : p.environment.catalog.knows child = true := by
  obtain ⟨hsound, ha, k, hk, hnode, -⟩ := processed_of_lookup h hl
  have hkind := hsound.node_kind hk
  rw [hnode, ha.environment] at hkind
  rw [Catalog.knows, hkind]
  rfl

/-- A child whose look-up fails without a panic has a tag that is unknown. -/
theorem not_knows_of_lookup_error {e : CompileError} (hl : p.lookup child = .error (.error e)) :
    p.environment.catalog.knows child = false := by
  obtain ⟨-, ⟨e', he, -⟩ | ⟨kind, x, -, -, hx⟩⟩ := lookup_eq_error_iff.mp hl
  · rw [Catalog.knows, he]
    rfl
  · cases hx

theorem calls_reportOutcome (p : Pass) (child : Element) (outcome : Outcome Value) :
    (p.reportOutcome child outcome).calls = p.calls := by
  cases outcome <;> rfl

theorem calls_visit (h : p.ReadyFor parent (child :: rest)) :
    CallsGrow child.ids p.calls (Hook.exec (visit parent [child]) p).2.calls := by
  rw [exec_visit_cons]
  rcases hl : p.lookup child with (e | x) | ⟨c, p'⟩
  · exact .refl _ _
  · exact .refl _ _
  · obtain ⟨-, ha, -⟩ := processed_of_lookup h hl
    simp only [exec_visit_nil, visitFound, Pass.adopt, Pass.modifyConstruction,
      calls_reportOutcome]
    exact ha.calls

/-- A visit to a child adds it to those of the parent, if its tag is known, and changes nothing else
of the parent. -/
theorem get?_visit (h : p.ReadyFor parent (child :: rest))
    (hx : ∀ x, p.lookup child ≠ .error (.panic x)) {c : Construction}
    (hc : p.constructions.get? parent = some c) :
    (Hook.exec (visit parent [child]) p).2.constructions.get? parent
      = some { c with
        children := c.children ++ ([child].filter p.environment.catalog.knows).map Element.id } := by
  rw [exec_visit_cons]
  rcases hl : p.lookup child with (e | x) | ⟨k, p'⟩
  · -- a child with an unknown tag is not adopted
    have hfilter : [child].filter p.environment.catalog.knows = [] :=
      List.filter_cons_of_neg (by rw [not_knows_of_lookup_error hl]; exact Bool.false_ne_true)
    rw [hfilter, List.map_nil, List.append_nil]
    exact hc
  · exact absurd hl (hx x)
  · obtain ⟨-, ha, -⟩ := processed_of_lookup h hl
    have hparent : parent ∉ child.ids := fun hmem => h.not_mem_rest hmem List.mem_cons_self
    -- the parent is not touched until it adopts the child
    have hc' : ((process child (p'.handDown parent child.id)).2.reportOutcome child
        (process child (p'.handDown parent child.id)).1).constructions.get? parent = some c := by
      rw [(leads_reportOutcome [] _ child _ (processed_of_lookup h hl).1).2.others _ List.not_mem_nil,
        ha.others _ hparent, hc]
    have hfilter : [child].filter p.environment.catalog.knows = [child] :=
      List.filter_cons_of_pos (knows_of_lookup h hl)
    rw [hfilter]
    simp only [exec_visit_nil, visitFound, Pass.adopt, Pass.modifyConstruction]
    rw [OrderedMap.get?_modify_self, hc', Option.map_some]
    rfl

/-- After a visit to a child with a known tag the child is settled. -/
theorem settled_visit (h : p.ReadyFor parent (child :: rest))
    (hx : ∀ x, p.lookup child ≠ .error (.panic x))
    (hk : p.environment.catalog.knows child = true) :
    ∃ k, (Hook.exec (visit parent [child]) p).2.constructions.get? child.id = some k ∧
      k.node = child ∧ k.outcome?.isSome = true := by
  rw [exec_visit_cons]
  rcases hl : p.lookup child with (e | x) | ⟨c, p'⟩
  · rw [not_knows_of_lookup_error hl] at hk
    cases hk
  · exact absurd hl (hx x)
  · obtain ⟨hsound, -, k, hk, hnode, ho⟩ := processed_of_lookup h hl
    -- reporting and adopting are not
    have hne : child.id ∉ [parent] := fun hmem =>
      h.not_mem_rest (Element.id_mem_ids child) (List.mem_singleton.mp hmem ▸ List.mem_cons_self)
    obtain ⟨-, ha⟩ := Pass.Leads.trans _ _ _
      (leads_reportOutcome [parent] _ child (process child (p'.handDown parent child.id)).1)
      (Pass.leads_adopt _ parent child.id) hsound
    exact ⟨k, (ha.others _ hne).trans hk, hnode, by rw [ho]; rfl⟩

end Visit

/-! ### All visits -/

section Visits

variable {parent : NodeId} {p : Pass}

/-- Visits make calls child by child. -/
theorem calls_visits (children : List Element) (h : p.ReadyFor parent children)
    (hx : p.firstPanic? children = none) :
    CallsInOrder children p.calls (Hook.exec (visit parent children) p).2.calls :=
  visit_induction (M := fun children p q => CallsInOrder children p.calls q.calls)
    (fun _ => .nil _) (fun _ _ _ _ h _ _ hrest => .cons (calls_visit h) hrest) children h hx

/-- Visits add the children with known tags to the parent, in order, and change nothing else of it. -/
theorem get?_visits (children : List Element) (h : p.ReadyFor parent children)
    (hx : p.firstPanic? children = none) : ∀ c, p.constructions.get? parent = some c →
    (Hook.exec (visit parent children) p).2.constructions.get? parent
      = some { c with
        children := c.children ++ (children.filter p.environment.catalog.knows).map Element.id } := by
  refine visit_induction (M := fun children p q => ∀ c, p.constructions.get? parent = some c →
    q.constructions.get? parent = some { c with
      children := c.children ++ (children.filter p.environment.catalog.knows).map Element.id })
    ?_ ?_ children h hx
  · intro p c hc
    rw [List.filter_nil, List.map_nil, List.append_nil]
    exact hc
  · -- what the first visit adds comes before what the others add
    intro child rest p q h hx _ ih c hc
    rw [ih _ (get?_visit h hx hc), (leads_visit parent [child] p h.sound).2.environment,
      List.append_assoc, ← List.map_append, ← List.filter_append]
    rfl

/-- After the visits the children with known tags are settled. -/
theorem settled_visits (children : List Element) (h : p.ReadyFor parent children)
    (hx : p.firstPanic? children = none) :
    ∀ child ∈ children, p.environment.catalog.knows child = true →
      ∃ k, (Hook.exec (visit parent children) p).2.constructions.get? child.id = some k ∧
        k.node = child ∧ k.outcome?.isSome = true := by
  refine visit_induction (M := fun children p q => ∀ child ∈ children,
    p.environment.catalog.knows child = true → ∃ k, q.constructions.get? child.id = some k ∧
      k.node = child ∧ k.outcome?.isSome = true) ?_ ?_ children h hx
  · intro p child hmem
    cases hmem
  · intro child rest p q h hx ha ih child' hmem hk
    rcases List.mem_cons.mp hmem with rfl | hmem
    · -- the later visits do not touch the child
      obtain ⟨k, hget, hnode, ho⟩ := settled_visit h hx hk
      exact ⟨k, (ha.others _ (h.not_mem_rest (Element.id_mem_ids _))).trans hget, hnode, ho⟩
    · refine ih child' hmem ?_
      rw [(leads_visit parent [child] p h.sound).2.environment]
      exact hk

end Visits

/-! ### Reports on children -/

/-- Whether a report is on one of the children as a whole. -/
def Diagnostic.isOn (children : List Element) (d : Diagnostic) : Bool :=
  d.attributeName.isNone && children.any fun child => child.id == d.node

/-- Entries of occurrences that are none of the children. -/
theorem filter_isOn_eq_nil {q : Pass} {children : List Element} {os : List Occurrence}
    (h : ∀ node, Occurrence.ofChild node ∈ os → ∀ child ∈ children, child.id ≠ node.id) :
    (q.entries os).filter (Diagnostic.isOn children) = [] := by
  rw [List.filter_eq_nil_iff]
  intro d hd hon
  obtain ⟨o, ho, hentry⟩ := List.mem_filterMap.mp hd
  rw [Diagnostic.isOn, Bool.and_eq_true, List.any_eq_true] at hon
  obtain ⟨hname, child, hchild, heq⟩ := hon
  obtain ⟨node, rfl, hnode⟩ := ofChild_of_entry? hentry (Option.isNone_iff_eq_none.mp hname)
  exact h node ho child hchild ((beq_iff_eq.mp heq).trans hnode)

/-- The entry of one of the children. -/
theorem filter_isOn_entry {q : Pass} {children : List Element} {child : Element}
    (h : child ∈ children) :
    (q.entry? (.ofChild child)).toList.filter (Diagnostic.isOn children)
      = (q.entry? (.ofChild child)).toList := by
  rw [List.filter_eq_self]
  intro d hd
  obtain ⟨e, -, rfl⟩ := Option.map_eq_some_iff.mp (Option.mem_toList.mp hd)
  rw [Diagnostic.isOn, Bool.and_eq_true, List.any_eq_true]
  exact ⟨rfl, child, h, beq_self_eq_true _⟩

/-- Among what is got to in visits, the children themselves come once each and in order. -/
theorem filter_reachedBelow {parent : NodeId} {p : Pass} (q : Pass) (siblings : List Element)
    (children : List Element) (h : p.ReadyFor parent children)
    (hx : p.firstPanic? children = none) (hsib : ∀ child ∈ children, child ∈ siblings)
    (hbelow : ∀ child ∈ children, ∀ node ∈ Element.preorderAll child.children,
      ∀ sibling ∈ siblings, sibling.id ≠ node.id) :
    (q.entries (q.reachedBelow parent children p)).filter (Diagnostic.isOn siblings)
      = q.entries (children.map .ofChild) := by
  revert hsib hbelow
  refine visit_induction (M := fun children p _ => (∀ child ∈ children, child ∈ siblings) →
    (∀ child ∈ children, ∀ node ∈ Element.preorderAll child.children,
      ∀ sibling ∈ siblings, sibling.id ≠ node.id) →
    (q.entries (q.reachedBelow parent children p)).filter (Diagnostic.isOn siblings)
      = q.entries (children.map .ofChild)) ?_ ?_ children h hx
  · intro p _ _
    rfl
  · intro child rest p _ h hx _ ih hsib hbelow
    have hrest := ih (fun c hc => hsib c (List.mem_cons_of_mem _ hc))
      fun c hc => hbelow c (List.mem_cons_of_mem _ hc)
    have hself := filter_isOn_entry (q := q) (hsib child List.mem_cons_self)
    rw [List.map_cons, Pass.entries_cons, Pass.reachedBelow]
    rcases hl : p.lookup child with (e | x) | ⟨c, p'⟩
    · -- an unknown child has one entry, its own
      simp only [Pass.entries_cons, List.filter_append, hself, hrest]
    · exact absurd hl (hx x)
    · -- what is inside the child is on none of the siblings
      have hinside : (q.entries (q.reached child (p'.handDown parent child.id))).filter
          (Diagnostic.isOn siblings) = [] :=
        filter_isOn_eq_nil fun node hnode sibling hsibling =>
          hbelow child List.mem_cons_self node (mem_preorderAll_of_reached child hnode)
            sibling hsibling
      simp only [Pass.entries_append, Pass.entries_cons, List.filter_append, hinside, hself, hrest,
        List.nil_append]

/-! ### Before and after the visits -/

/-- What a change of constructions leaves alone, it leaves alone in every one of them. -/
theorem Pass.map_get?_modifyConstruction {α : Type} (p : Pass) (id : NodeId)
    {f : Construction → Construction} {g : Construction → α} (h : ∀ c, g (f c) = g c)
    (id' : NodeId) :
    ((p.modifyConstruction id f).constructions.get? id').map g
      = (p.constructions.get? id').map g := by
  rw [Pass.modifyConstruction, OrderedMap.get?_modify]
  split
  · next heq =>
    rw [heq, Option.map_map]
    exact congrArg (Option.map · _) (funext h)
  · rfl

theorem Pass.values_modifyConstruction {p : Pass} {id : NodeId} {c : Construction}
    {f : Construction → Construction} (hc : p.constructions.get? id = some c) :
    (p.modifyConstruction id f).values id = (f c).values := by
  rw [Pass.values, Pass.modifyConstruction, OrderedMap.get?_modify_self, hc]
  rfl

theorem Pass.values_eq {p : Pass} {id : NodeId} {c : Construction}
    (hc : p.constructions.get? id = some c) : p.values id = c.values := by
  rw [Pass.values, hc]

/-- A value that is set is all that changes of an element. -/
theorem Pass.get?_setValue {p : Pass} {id : NodeId} {k : Construction}
    (hk : p.constructions.get? id = some k) (name : String) (v : Value) :
    (p.setValue id name v).constructions.get? id
      = some { k with values := k.values.insert name v } := by
  rw [Pass.setValue, Pass.modifyConstruction, OrderedMap.get?_modify_self, hk, Option.map_some]

/-- How far a construction has come: the children that were visited, and the outcome. -/
def Construction.progress (c : Construction) : List NodeId × Option (Outcome Value) :=
  (c.children, c.outcome?)

/-- What leaves all constructions as far as they have come. -/
def Pass.KeepsProgress (p q : Pass) : Prop :=
  ∀ id, (q.constructions.get? id).map Construction.progress
    = (p.constructions.get? id).map Construction.progress

namespace Pass.KeepsProgress

theorem refl (p : Pass) : KeepsProgress p p :=
  fun _ => rfl

theorem trans (p q r : Pass) (h : KeepsProgress p q) (h' : KeepsProgress q r) :
    KeepsProgress p r :=
  fun id => (h' id).trans (h id)

/-- A change of one construction that leaves it as far as it has come. -/
theorem modifyConstruction (p : Pass) (id : NodeId) {f : Construction → Construction}
    (hf : ∀ c, (f c).progress = c.progress) : KeepsProgress p (p.modifyConstruction id f) :=
  p.map_get?_modifyConstruction id hf

end Pass.KeepsProgress

theorem Pass.OnlyCoerces.keepsProgress {p q : Pass} (h : p.OnlyCoerces q) :
    Pass.KeepsProgress p q := by
  obtain ⟨store, calls, coercions, rfl⟩ := h
  exact fun _ => rfl

/-- Work on an element leaves it as far as it has come with its children. -/
theorem keepsProgress_work (c : Construction) : KeptByWork Pass.KeepsProgress c where
  refl := .refl
  trans := .trans
  leave _ _ _ := .modifyConstruction _ _ fun _ => rfl
  setValue _ _ _ := .modifyConstruction _ _ fun _ => rfl
  report _ _ := fun _ => rfl
  coerce hk := .trans _ _ _ (onlyCoerces_coercion hk).keepsProgress
    (onlyCoerces_coerce _ _).keepsProgress
  assignTo _ value := by cases value <;> exact fun _ => rfl

theorem keepsProgress_handDown (p : Pass) (parent child : NodeId) :
    Pass.KeepsProgress p (p.handDown parent child) :=
  handDown_induction Pass.KeepsProgress.refl Pass.KeepsProgress.trans
    (fun _ _ _ => .modifyConstruction _ _ fun _ => rfl) p parent

/-- The hook that makes the value is the next one to be called. -/
theorem calls_build (c : Construction) (p : Pass) :
    ∃ after, (Hook.exec (build c) p).2.calls =
      after ++ (.element .construct c.node.id c.node.tag, c.kind.noted) :: p.calls := by
  rw [exec_build]
  rcases Hook.exec (c.kind.construct (p.view c)) (p.bench c) with ⟨stop | value, bench⟩
  · exact ⟨[], rfl⟩
  · refine ⟨[(.element .finish c.node.id c.node.tag, c.kind.noted)], ?_⟩
    cases value <;> rfl

/-! ### Containment -/

/-- **Containment.** An element that has begun to visit its children in the pass `p` gets past them,
and `q` is how it leaves the pass. -/
structure Contained (p : Pass) (e : Element) (q : Pass) : Prop where
  /-- The hooks of the trees below are called child by child, and next its own hook that makes a
  value. -/
  calls : ∃ visited after noted, CallsInOrder e.children p.calls visited ∧
    q.calls = after ++ (.element .construct e.id e.tag, noted) :: visited
  /-- Of the reports, those on its children are one for each child that has failed, in order. -/
  reports : ∃ added, q.diagnostics = p.diagnostics ++ added ∧
    added.filter (Diagnostic.isOn e.children) = q.entries (e.children.map .ofChild)
  /-- Its children are those with known tags, once each and in order. -/
  children : (q.children e.id).map Construction.node
    = e.children.filter p.environment.catalog.knows
  /-- They all have an outcome. -/
  settled : ∀ k ∈ q.children e.id, k.outcome?.isSome = true

/-- Visits make calls for the trees of the children only, also if they end with a panic. -/
theorem callsGrow_visits {parent : NodeId} (children : List Element) {p : Pass}
    (h : p.ReadyFor parent children) :
    CallsGrow (Element.idsAll children) p.calls (Hook.exec (visit parent children) p).2.calls := by
  induction children generalizing p with
  | nil => exact .refl _ _
  | cons child rest ih =>
    by_cases hx : ∃ x, p.lookup child = .error (.panic x)
    · obtain ⟨x, hl⟩ := hx
      rw [exec_visit_cons, hl]
      exact .refl _ _
    · rw [exec_visit_of_not_panic fun x hl => hx ⟨x, hl⟩, Element.idsAll_cons]
      exact ((calls_visit h).mono fun _ h => List.mem_append_left _ h).trans
        ((ih h.rest).mono fun _ h => List.mem_append_right _ h)

/-- The constructions of children that are all found. -/
theorem map_node_children {q : Pass} {id : NodeId} {c : Construction} {es : List Element}
    (hc : q.constructions.get? id = some c) (hchildren : c.children = es.map Element.id)
    (hfound : ∀ child ∈ es, ∃ k, q.constructions.get? child.id = some k ∧ k.node = child ∧
      k.outcome?.isSome = true) :
    (q.children id).map Construction.node = es ∧
      ∀ k ∈ q.children id, k.outcome?.isSome = true := by
  rw [Pass.children, hc]
  simp only [hchildren]
  clear hc hchildren
  induction es with
  | nil => exact ⟨rfl, fun k hk => absurd hk List.not_mem_nil⟩
  | cons child rest ih =>
    obtain ⟨k, hk, hnode, ho⟩ := hfound child List.mem_cons_self
    obtain ⟨hmap, hall⟩ := ih fun c hc => hfound c (List.mem_cons_of_mem _ hc)
    rw [List.map_cons, List.filterMap_cons_some hk, List.map_cons, hnode, hmap]
    -- all of them are found, in this order, and settled
    refine ⟨rfl, fun k' hk' => ?_⟩
    rcases List.mem_cons.mp hk' with rfl | hk'
    · exact ho
    · exact hall k' hk'

section Containment

variable {p p₁ : Pass} {e : Element} {c : Construction}

/-- An element gets past its children if no look-up panics. -/
theorem contained_of_visits (h : p₁.ReadyFor e.id e.children)
    (hc : p₁.constructions.get? e.id = some c) (hnone : c.children = [])
    (hx : p₁.firstPanic? e.children = none) (outcome : Outcome Value) {k : Construction}
    (hk : k.node = e) :
    Contained p₁ e ((Hook.exec (build k)
      (Hook.exec (visit e.id e.children) p₁).2).2.settle e.id outcome) := by
  obtain ⟨hp₂, ha₂⟩ := leads_visit e.id e.children p₁ h.sound
  have hc₂ := get?_visits e.children h hx c hc
  have hsettled := settled_visits e.children h hx
  have hreports := @diagnostics_visit e.id e.children p₁
    ((Hook.exec (build k) (Hook.exec (visit e.id e.children) p₁).2).2.settle e.id outcome) [e.id] h
  have hcalls := calls_visits e.children h hx
  generalize (Hook.exec (visit e.id e.children) p₁).2 = p₂ at *
  -- making the value is work on the element alone
  have hlast : Pass.Leads [e.id] p₂ ((Hook.exec (build k) p₂).2.settle e.id outcome) :=
    Pass.Leads.trans _ _ _ (hk ▸ (leads_work k).build p₂) (Pass.leads_settle _ _ _)
  obtain ⟨-, ha⟩ := hlast hp₂
  -- the children of the element, as they are when all is done
  have hmine : ∃ c', ((Hook.exec (build k) p₂).2.settle e.id outcome).constructions.get? e.id
      = some c' ∧ c'.children = (e.children.filter p₁.environment.catalog.knows).map Element.id := by
    have hkeep := (keepsProgress_work k).build p₂ e.id
    rw [hc₂] at hkeep
    obtain ⟨c', hc', hprogress⟩ := Option.map_eq_some_iff.mp hkeep
    refine ⟨{ c' with outcome? := some outcome }, ?_, ?_⟩
    · rw [Pass.settle, Pass.modifyConstruction, OrderedMap.get?_modify_self, hc', Option.map_some]
    · rw [← List.nil_append (List.map _ _), ← hnone]
      exact congrArg Prod.fst hprogress
  -- the children are settled after their visits and stay as they are
  have hfound : ∀ child ∈ e.children.filter p₁.environment.catalog.knows,
      ∃ k', ((Hook.exec (build k) p₂).2.settle e.id outcome).constructions.get? child.id = some k' ∧
        k'.node = child ∧ k'.outcome?.isSome = true := by
    intro child hmem
    obtain ⟨hmem, hknows⟩ := List.mem_filter.mp hmem
    obtain ⟨k', hk', hrest⟩ := hsettled child hmem hknows
    refine ⟨k', (ha.others _ fun hid => ?_).trans hk', hrest⟩
    exact h.parent (List.mem_singleton.mp hid ▸ Element.id_mem_idsAll hmem)
  obtain ⟨c', hc', hchildren'⟩ := hmine
  obtain ⟨hnodes, hall⟩ := map_node_children hc' hchildren' hfound
  obtain ⟨after, hafter⟩ := calls_build k p₂
  rw [hk] at hafter
  have hreports := hreports ha fun id hid hmem => h.parent (List.mem_singleton.mp hmem ▸ hid)
  have hon := filter_reachedBelow ((Hook.exec (build k) p₂).2.settle e.id outcome) e.children
    e.children h hx (fun _ hmem => hmem) (Element.id_ne_of_mem_preorderAll h.numbered)
  exact ⟨⟨p₂.calls, after, k.kind.noted, hcalls, hafter⟩,
    ⟨_, (diagnostics_build k p₂).trans hreports, hon⟩, hnodes, hall⟩

/-- An element that does not get to the end of its visits does not get past its children. -/
theorem not_contained_of_visits (h : p₁.ReadyFor e.id e.children) (outcome : Outcome Value) :
    ¬ Contained p₁ e ((Hook.exec (visit e.id e.children) p₁).2.settle e.id outcome) := by
  rintro ⟨⟨visited, after, noted, hvisited, hcalls⟩, -, -, -⟩
  obtain ⟨inside, rfl, -⟩ := hvisited.grow
  obtain ⟨added, hadded, hids⟩ := callsGrow_visits e.children h
  have heq : added ++ p₁.calls
      = (after ++ (.element .construct e.id e.tag, noted) :: inside) ++ p₁.calls := by
    rw [← hadded, List.append_assoc]
    exact hcalls
  rw [List.append_cancel_right heq] at hids
  exact h.parent (hids .construct e.id e.tag noted
    (List.mem_append_right _ List.mem_cons_self))

/-- **When failures of children stay with the children.** An element whose attributes are done gets
past its children exactly if no look-up of a child panics. Otherwise the first such panic is its
own: it is aborted. -/
theorem contained_iff (h : p.Ready e) (hc : p.constructions.get? e.id = some c)
    (hopen : c.outcome? = none) (hnone : c.children = []) (hlive : p.released = false)
    (hfirst : Hook.exec (compileAttributes c) p = (.ok (), p₁)) :
    (Contained p₁ e (process e p).2 ↔
        ∀ child ∈ e.children, ∀ x, p.lookup child ≠ .error (.panic x)) ∧
      ∀ x, p.firstPanic? e.children = some x →
        (process e p).1 = .error (.aborted x.message) := by
  obtain ⟨c', hc', hnode⟩ := h.construction
  rw [hc] at hc'
  cases hc'
  have hlead := (leads_work c).compileAttributes p h.sound
  have hprogress := (keepsProgress_work c).compileAttributes p e.id
  rw [hfirst] at hlead hprogress
  obtain ⟨hp₁, ha₁⟩ := hlead
  rw [hnode] at ha₁
  have hready := (h.advance hp₁ ha₁).children
  -- the attributes are work on the element itself, so they change nothing about panics
  have hpanic : p₁.firstPanic? e.children = p.firstPanic? e.children :=
    ha₁.firstPanic?_eq fun child hmem hid =>
      hready.parent (List.mem_singleton.mp hid ▸ Element.id_mem_idsAll hmem)
  have hending := visit_ending e.children hready
  rw [hpanic] at hending
  rw [process_run hc hopen hlive, phases, Hook.exec_bind_ok hfirst]
  cases hx : p.firstPanic? e.children with
  | none =>
    rw [hx] at hending
    rw [Hook.exec_bind_ok (a := ()) (t := (Hook.exec (visit e.id e.children) p₁).2)
      (Prod.ext hending rfl)]
    refine ⟨⟨fun _ => firstPanic?_eq_none_iff.mp hx, fun _ => ?_⟩, fun x hx' => nomatch hx'⟩
    obtain ⟨c₁, hc₁, -⟩ := ha₁.constructions _ _ hc
    rw [hc₁, hc] at hprogress
    have hnone₁ : c₁.children = [] := (congrArg Prod.fst (Option.some.inj hprogress)).trans hnone
    exact contained_of_visits hready hc₁ hnone₁ (hpanic.trans hx) _ hnode
  | some x =>
    rw [hx] at hending
    rw [Hook.exec_bind_error (e := Stop.panic x) (t := (Hook.exec (visit e.id e.children) p₁).2)
      (Prod.ext hending rfl)]
    refine ⟨⟨fun hcontained => ?_, fun hno => ?_⟩, fun x' hx' => ?_⟩
    · exact absurd hcontained (not_contained_of_visits hready _)
    · rw [firstPanic?_eq_none_iff.mpr hno] at hx
      cases hx
    · cases hx'
      rfl

/-- A kind that panics while it declares the attributes. -/
def panicky : ElementKind where
  name := "panicky"
  define _ := .error (.text "kaboom")

/-- A generic record with a child of that kind. -/
def panickyTree : Element :=
  (Markup.Draft.build none 0 ((Markup.Draft.leaf "object").withChild (.leaf "panicky"))).1

/-- The catalog of both. -/
def panickyCatalog : Catalog :=
  ⟨.ofList [("object", Kind.object), ("panicky", panicky)], .empty⟩

/-- The record as it was looked up. -/
def panickyRoot : Construction :=
  ⟨panickyTree, Kind.object, .empty, .empty, [], none⟩

/-- The pass before that. -/
def panickyStart : Pass :=
  .begin ⟨.empty, panickyCatalog⟩ none .empty

/-- The pass in which it was looked up. -/
def panickyPass : Pass :=
  { panickyStart with constructions := OrderedMap.empty.insert panickyTree.id panickyRoot }

/-- A record does not get past a child whose kind panics when it is looked up. -/
theorem contained_iff_panicky :
    panickyPass.Ready panickyTree ∧
      Hook.exec (compileAttributes panickyRoot) panickyPass
        = (.ok (), (Hook.exec (compileAttributes panickyRoot) panickyPass).2) ∧
      ¬ Contained (Hook.exec (compileAttributes panickyRoot) panickyPass).2 panickyTree
        (process panickyTree panickyPass).2 ∧
      (process panickyTree panickyPass).1 = .error (.aborted "kaboom") := by
  have hlookup : panickyStart.lookup panickyTree = .ok (panickyRoot, panickyPass) := by
    have hkey : Text.nameKey panickyTree.tag = "object" := by decide +kernel
    rw [Pass.lookup, Catalog.elementKind, hkey]
    rfl
  have hready : panickyPass.Ready panickyTree := .of_lookup_begin (by decide) hlookup
  have hfirst : Hook.exec (compileAttributes panickyRoot) panickyPass
      = (.ok (), (Hook.exec (compileAttributes panickyRoot) panickyPass).2) := rfl
  have hpanic : panickyPass.firstPanic? panickyTree.children = some (.text "kaboom") := by
    have hkey : Text.nameKey "panicky" = "panicky" := by decide +kernel
    have hchild : panickyPass.lookup ⟨0, "panicky", .empty, [], none⟩
        = .error (.panic (.text "kaboom")) := by
      rw [Pass.lookup, Catalog.elementKind, hkey]
      rfl
    rw [show panickyTree.children = [⟨0, "panicky", .empty, [], none⟩] from rfl,
      firstPanic?_cons, hchild]
  obtain ⟨hiff, haborted⟩ := contained_iff hready rfl rfl rfl rfl hfirst
  refine ⟨hready, hfirst, fun h => ?_, haborted _ hpanic⟩
  rw [firstPanic?_eq_none_iff.mpr (hiff.mp h)] at hpanic
  cases hpanic

end Containment

end ObjectMarkup
