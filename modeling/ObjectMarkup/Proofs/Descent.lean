import ObjectMarkup.Proofs.Values

/-!
# The way down to an element

Processing an element gets to the elements below it one after the other. This module follows the way
down to a single one of them. A `Beginning` is an element at the point at which it begins, with the
pass as it is then, and `Enters` takes the run of an element from there to the beginning of one of
its children. `Lineage` puts such steps together.

What comes off the way does not matter for an element on it: `Lineage.get?_process` says that all
that becomes of an element is what becomes of it when it is processed where it begins, and
`reached_or_left` that there is such a way to an element, or nothing becomes of it at all. An
element that was looked up before, settled or not, begins as it was, with what its parent hands down
laid over its values (`Inherits`), so nothing here asks for elements that are new to the pass.
-/

namespace ObjectMarkup

open Markup (Element NodeId)

/-! ### Visits, one part after the other -/

section Visits

variable {parent : NodeId} {p r : Pass}

theorem lookup_ne_panic_of_visit {child : Element} {rest : List Element}
    (hrun : Hook.exec (visit parent (child :: rest)) p = (.ok (), r)) (x : Panic) :
    p.lookup child ≠ .error (.panic x) := by
  intro hl
  rw [exec_visit_cons, hl] at hrun
  cases hrun

/-- Visits to children are visits to the first ones and then to the others. -/
theorem exec_visit_append (before rest : List Element) (p : Pass) :
    Hook.exec (visit parent (before ++ rest)) p
      = Hook.exec (do visit parent before; visit parent rest) p := by
  induction before generalizing p with
  | nil => rfl
  | cons child others ih =>
    rw [List.cons_append, exec_visit_cons, Hook.exec_bind, exec_visit_cons]
    rcases p.lookup child with (e | x) | ⟨c, q⟩
    · exact (ih _).trans (Hook.exec_bind _ _ _)
    · rfl
    · exact (ih _).trans (Hook.exec_bind _ _ _)

/-- After visits to the first children the pass is ready for the others. -/
theorem Pass.ReadyFor.after (before : List Element) {rest : List Element}
    (h : p.ReadyFor parent (before ++ rest))
    (hrun : Hook.exec (visit parent before) p = (.ok (), r)) : r.ReadyFor parent rest := by
  induction before generalizing p with
  | nil =>
    cases hrun
    exact h
  | cons child others ih =>
    rw [exec_visit_of_not_panic (lookup_ne_panic_of_visit hrun)] at hrun
    exact ih h.rest hrun

/-- The first children have no number in common with the others or the parent. -/
theorem Pass.ReadyFor.not_mem_before {before rest : List Element}
    (h : p.ReadyFor parent (before ++ rest)) {id : NodeId} (hid : id ∈ Element.idsAll rest) :
    id ∉ parent :: Element.idsAll before := by
  have hparent := h.parent
  have hnodup : (Element.idsAll (before ++ rest)).Nodup := h.numbered
  rw [Element.idsAll_append] at hparent hnodup
  intro hmem
  rcases List.mem_cons.mp hmem with heq | hmem
  · exact hparent (heq ▸ List.mem_append_right _ hid)
  · exact (List.nodup_append.mp hnodup).2.2 id hmem id hid rfl

/-- However visits end, they leave the parent as it is but for its list of children. -/
theorem get?_visits_parent (children : List Element) {rest : List Element}
    (h : p.ReadyFor parent (children ++ rest)) {c : Construction}
    (hc : p.constructions.get? parent = some c) :
    ∃ ids, (Hook.exec (visit parent children) p).2.constructions.get? parent
      = some { c with children := ids } := by
  induction children generalizing p c with
  | nil => exact ⟨c.children, hc⟩
  | cons child others ih =>
    -- a panic ends the walk, and the parent then is as the child before left it
    by_cases hx : ∃ x, p.lookup child = .error (.panic x)
    · obtain ⟨x, hl⟩ := hx
      rw [exec_visit_cons, hl]
      exact ⟨c.children, hc⟩
    · have hl : ∀ x, p.lookup child ≠ .error (.panic x) := fun x hl => hx ⟨x, hl⟩
      rw [exec_visit_of_not_panic hl]
      obtain ⟨ids, hids⟩ := ih h.rest (get?_visit h hl hc)
      exact ⟨ids, hids⟩

/-- A look-up finds a construction, or makes one without values and without an outcome. -/
theorem lookup_cases {child : Element} {c : Construction} (hl : p.lookup child = .ok (c, r)) :
    p.constructions.get? child.id = some c ∨
      (p.constructions.get? child.id = none ∧ c.values = .empty ∧ c.outcome? = none) := by
  obtain ⟨hfound, -⟩ | ⟨hnone, hmade, -⟩ := lookup_finds hl
  · exact Or.inl hfound
  · exact Or.inr ⟨hnone, hmade.values, hmade.outcome⟩

end Visits

/-! ### Beginnings -/

/-- An element at the point at which it begins: its phases are to come in the pass, in which it was
looked up. -/
structure Beginning where
  node : Element
  pass : Pass
  construction : Construction

namespace Beginning

/-- The pass when the attributes are done and the children come next. -/
def done (b : Beginning) : Pass :=
  (Hook.exec (compileAttributes b.construction) b.pass).2

/-- The element gets to its children. -/
def Completes (b : Beginning) : Prop :=
  (Hook.exec (compileAttributes b.construction) b.pass).1 = .ok ()

/-- A construction with what the element hands down to its children laid over its values. -/
def handOver (b : Beginning) (c : Construction) : Construction :=
  { c with values := b.construction.schema.overlay (b.done.values b.node.id) c.values }

/-- The pass is ready for the element, and the construction is the one that it knows. -/
structure Known (b : Beginning) : Prop where
  ready : b.pass.Ready b.node
  found : b.pass.constructions.get? b.node.id = some b.construction

/-- **An element enters a child.** The way from the beginning of an element that is processed to
that of one of its children: its attributes are done, the children before are visited, and the child
is looked up and handed values down. -/
inductive Enters : Beginning → Beginning → Prop where
  | visit {a : Beginning} {before after : List Element} {child : Element} {r s : Pass}
      {c k : Construction} (opens : a.construction.outcome? = none)
      (live : a.pass.released = false) (completes : a.Completes)
      (children : a.node.children = before ++ child :: after)
      (visits : Hook.exec (ObjectMarkup.visit a.node.id before) a.done = (.ok (), r))
      (lookup : r.lookup child = .ok (c, s))
      (begins : (s.handDown a.node.id child.id).constructions.get? child.id = some k) :
      Enters a ⟨child, s.handDown a.node.id child.id, k⟩

/-- What an element begins with that was entered from its parent. -/
structure Inherits (a b : Beginning) : Prop where
  known : b.Known
  live : b.pass.released = false
  /-- Nothing has happened below the child. -/
  below : ∀ id ∈ Element.idsAll b.node.children,
    b.pass.constructions.get? id = a.pass.constructions.get? id
  /-- The child is as it was when the parent began, or new. What the parent hands down is laid over
  its values. -/
  construction : ∃ c : Construction, b.construction = a.handOver c ∧
    (a.pass.constructions.get? b.node.id = some c ∨
      (a.pass.constructions.get? b.node.id = none ∧ c.values = .empty ∧ c.outcome? = none))

section Known

variable {a b : Beginning}

theorem exec_of_completes (h : b.Completes) :
    Hook.exec (compileAttributes b.construction) b.pass = (.ok (), b.done) :=
  Prod.ext h rfl

theorem Known.node (h : b.Known) : b.construction.node = b.node := by
  obtain ⟨c, hc, hnode⟩ := h.ready.construction
  rw [h.found] at hc
  cases hc
  exact hnode

theorem Known.advances (h : b.Known) : b.done.Sound ∧ b.pass.Advances [b.node.id] b.done := by
  have hlead := (leads_work b.construction).compileAttributes b.pass h.ready.sound
  rw [h.node] at hlead
  exact hlead

/-- When the attributes are done, the pass is ready for the children. -/
theorem Known.readyFor (h : b.Known) : b.done.ReadyFor b.node.id b.node.children :=
  (h.ready.advance h.advances.1 h.advances.2).children

/-- Work on the element itself leaves everything below it alone. -/
theorem Known.get?_done (h : b.Known) {id : NodeId} (hid : id ∈ Element.idsAll b.node.children) :
    b.done.constructions.get? id = b.pass.constructions.get? id := by
  refine h.advances.2.others id fun hmem => h.readyFor.parent ?_
  rw [← List.mem_singleton.mp hmem]
  exact hid

theorem Enters.completes (h : a.Enters b) : a.Completes := by
  cases h
  assumption

theorem Enters.opens (h : a.Enters b) : a.construction.outcome? = none := by
  cases h
  assumption

theorem Enters.mem_children (h : a.Enters b) : b.node ∈ a.node.children := by
  obtain ⟨-, -, -, children, -, -, -⟩ := h
  rw [children]
  exact List.mem_append_right _ List.mem_cons_self

theorem Enters.ids_subset (h : a.Enters b) :
    ∀ id ∈ b.node.ids, id ∈ Element.idsAll a.node.children :=
  fun _ hid => Element.mem_idsAll h.mem_children hid

/-- **What a child begins with.** -/
theorem Enters.inherits (h : a.Enters b) (ha : a.Known) : a.Inherits b := by
  cases h with
  | @visit before after child r s c k opens live completes children visits lookup begins =>
  have hready := ha.readyFor
  obtain ⟨hdone, ha₁⟩ := ha.advances
  obtain ⟨parent, hparent, hbecomes⟩ := ha₁.constructions _ _ ha.found
  rw [children] at hready
  have hr := hready.after before visits
  -- the parent has handed its values down to the children before, and only its list of children
  -- grew
  obtain ⟨ids, hids⟩ := get?_visits_parent before hready hparent
  obtain ⟨-, hvisits⟩ := leads_visit a.node.id before a.done hdone
  rw [visits] at hids hvisits
  -- until the child is looked up, nothing happens to it
  have hsame : ∀ id ∈ child.ids, r.constructions.get? id = a.pass.constructions.get? id := by
    intro id hid
    have hmem : id ∈ Element.idsAll (child :: after) := Element.mem_idsAll List.mem_cons_self hid
    rw [hvisits.others id (hready.not_mem_before hmem)]
    refine ha.get?_done ?_
    rw [children, Element.idsAll_append]
    exact List.mem_append_right _ hmem
  have hne : a.node.id ∉ [child.id] := fun hmem =>
    hr.not_mem_rest (Element.id_mem_ids child) (List.mem_singleton.mp hmem ▸ List.mem_cons_self)
  obtain ⟨hs, hlookup⟩ := Pass.leads_lookup lookup hr.sound
  obtain ⟨-, hhand⟩ := leads_handDown s a.node.id child.id hs
  have hk := (get?_handDown ((hlookup.others _ hne).trans hids) (get?_of_lookup lookup)).symm.trans
    begins
  have hvalues : a.done.values a.node.id = parent.values := Pass.values_eq hparent
  cases hk
  -- four things to show: known, not released, untouched below, and given the values of the parent
  refine ⟨⟨hr.first lookup, begins⟩, ?_, fun id hid => ?_, c, ?_, ?_⟩
  · exact (hhand.released.trans (hlookup.released.trans hvisits.released)).trans
      (ha₁.released.trans live)
  · have hid' : id ∉ [child.id] := fun hmem => (hr.first lookup).children.parent
      (List.mem_singleton.mp hmem ▸ hid)
    rw [hhand.others id hid', hlookup.others id hid']
    exact hsame id (by rw [Element.ids_eq]; exact List.mem_cons_of_mem _ hid)
  · unfold handOver
    rw [hvalues, ← hbecomes.schema]
  · show a.pass.constructions.get? child.id = some c ∨
      (a.pass.constructions.get? child.id = none ∧ c.values = .empty ∧ c.outcome? = none)
    rw [← hsame child.id (Element.id_mem_ids child)]
    exact lookup_cases lookup

/-- What comes after the visit to a child: visits to others, and the value of the parent. -/
theorem leads_after (ha : a.Known) (after : List Element) (p : Pass) :
    Pass.Leads (a.node.id :: Element.idsAll after) p
      (Hook.exec (do ObjectMarkup.visit a.node.id after; build a.construction) p).2 := by
  refine Hook.Keeps.bind Pass.Leads.trans (leads_visit a.node.id after) (fun _ q => ?_) p
  exact ((leads_work a.construction).build q).mono (by simp [ha.node])

/-- When a child was processed, whatever comes then in its parent leaves its tree as it is. -/
theorem Enters.get?_process (h : a.Enters b) (ha : a.Known) : ∀ id ∈ b.node.ids,
    (process a.node a.pass).2.constructions.get? id
      = (process b.node b.pass).2.constructions.get? id := by
  cases h with
  | @visit before after child r s c k opens live completes children visits lookup begins =>
  have hready := ha.readyFor
  rw [children] at hready
  have hr := hready.after before visits
  have hvisit : Hook.exec (ObjectMarkup.visit a.node.id [child]) r
      = (.ok (), visitFound a.node.id child s) := by
    rw [exec_visit_cons, lookup]
    rfl
  have hsound := (leads_visit a.node.id [child] r hr.sound).1
  rw [hvisit] at hsound
  -- the phases of the parent, cut at the child that is entered
  have hphases : Hook.exec (phases a.construction a.node.id a.node.children) a.pass
      = Hook.exec (do ObjectMarkup.visit a.node.id after; build a.construction)
          (visitFound a.node.id child s) := by
    unfold phases
    rw [Hook.exec_bind_ok (exec_of_completes completes), Hook.exec_bind, children,
      exec_visit_append, Hook.exec_bind_ok visits, exec_visit_cons, lookup, Hook.exec_bind]
  intro id hid
  have hparent : id ∉ [a.node.id] := fun hmem =>
    hr.not_mem_rest hid (List.mem_singleton.mp hmem ▸ List.mem_cons_self)
  -- what comes after the child is about the parent and the children behind it
  obtain ⟨-, hlater⟩ := Pass.Leads.trans _ _ _ (leads_after ha after _)
    ((Pass.leads_settle _ a.node.id (contain (Hook.exec (phases a.construction a.node.id
      a.node.children) a.pass).1)).mono (by simp)) hsound
  obtain ⟨hprocessed, -, -⟩ := processed_of_lookup hr lookup
  obtain ⟨-, hfound⟩ := Pass.Leads.trans _ _ _
    (leads_reportOutcome [a.node.id] _ child (process child (s.handDown a.node.id child.id)).1)
    (Pass.leads_adopt _ a.node.id child.id) hprocessed
  rw [process_run ha.found opens live, hphases]
  rw [hphases] at hlater
  exact (hlater.others id (hr.not_mem_rest hid)).trans (hfound.others id hparent)

/-- The phases of an element leave a child alone that they do not enter. -/
theorem Known.get?_phases_of_not_enters (ha : a.Known) (opens : a.construction.outcome? = none)
    (live : a.pass.released = false) {child : Element} (hchild : child ∈ a.node.children)
    (hnot : ∀ b : Beginning, b.node = child → ¬ a.Enters b) : ∀ id ∈ child.ids,
      (Hook.exec (phases a.construction a.node.id a.node.children) a.pass).2.constructions.get? id
        = a.pass.constructions.get? id := by
  obtain ⟨before, after, children⟩ := List.append_of_mem hchild
  have hready := ha.readyFor
  intro id hid
  have hsame := ha.get?_done (Element.mem_idsAll hchild hid)
  unfold phases
  rcases hattributes : Hook.exec (compileAttributes a.construction) a.pass with ⟨stop | u, q⟩
  · -- the attributes have ended the parent
    rw [Hook.exec_bind_error hattributes]
    have hq : a.done = q := by rw [done, hattributes]
    exact hq ▸ hsame
  have hdone : a.Completes := by rw [Completes, hattributes]
  rw [children] at hready
  rw [Hook.exec_bind_ok (exec_of_completes hdone), children, Hook.exec_bind, exec_visit_append]
  have hbefore := (leads_visit a.node.id before a.done ha.advances.1).2.others id
    (hready.not_mem_before (Element.mem_idsAll List.mem_cons_self hid))
  rcases hrun : Hook.exec (ObjectMarkup.visit a.node.id before) a.done with ⟨stop | u', r⟩
  · -- a child before it has ended the visits
    rw [Hook.exec_bind_error hrun]
    rw [hrun] at hbefore
    exact hbefore.trans hsame
  rw [hrun] at hbefore
  have hr := hready.after before hrun
  rw [Hook.exec_bind_ok hrun, exec_visit_cons]
  rcases hl : r.lookup child with (e | x) | ⟨c, s⟩
  · -- its tag is unknown, and what comes next is about others
    obtain ⟨-, hrest⟩ := leads_after ha after _ (Pass.leads_report [] r
      ⟨child.id, child.tag, none, e⟩ hr.sound).1
    have hothers := hrest.others id (hr.not_mem_rest hid)
    rw [Hook.exec_bind] at hothers
    exact hothers.trans (hbefore.trans hsame)
  · -- its kind panics, which ends the visits as well
    exact hbefore.trans hsame
  · obtain ⟨k, hk⟩ := (hr.first hl).known
    exact absurd (.visit opens live hdone children hrun hl hk) (hnot _ rfl)

/-- A child that is not entered is left alone, and so is everything below it. -/
theorem Known.get?_process_of_not_enters (ha : a.Known) {child : Element}
    (hchild : child ∈ a.node.children) (hnot : ∀ b : Beginning, b.node = child → ¬ a.Enters b) :
    ∀ id ∈ child.ids,
      (process a.node a.pass).2.constructions.get? id = a.pass.constructions.get? id := by
  intro id hid
  have hparent : id ≠ a.node.id := fun heq =>
    ha.readyFor.parent (heq ▸ Element.mem_idsAll hchild hid)
  -- settling the parent is no change to the child
  have hsettle : ∀ (q : Pass) outcome, (q.settle a.node.id outcome).constructions.get? id
      = q.constructions.get? id := fun q outcome => OrderedMap.get?_modify_of_ne _ hparent _
  cases opens : a.construction.outcome? with
  | some outcome => rw [process_settled ha.found opens]
  | none =>
    cases live : a.pass.released with
    | true => rw [process_released ha.found opens live, hsettle]
    | false =>
      rw [process_run ha.found opens live, hsettle]
      exact ha.get?_phases_of_not_enters opens live hchild hnot id hid

end Known

/-! ### Down a chain of elements -/

/-- The elements above one, from its parent up to the top, nearest first. Each of them has entered
the one before it. -/
inductive Lineage (top : Beginning) : Beginning → List Beginning → Prop where
  | top : Lineage top top []
  | down {a b : Beginning} {up : List Beginning} (above : Lineage top a up) (enters : a.Enters b) :
      Lineage top b (a :: up)

section Lineage

variable {top b : Beginning} {up : List Beginning}

theorem Lineage.known (h : Lineage top b up) (htop : top.Known) : b.Known := by
  induction h with
  | top => exact htop
  | down _ enters ih => exact (enters.inherits ih).known

/-- When the top is processed, everything in a chain is as it was when it was processed itself. -/
theorem Lineage.get?_process (h : Lineage top b up) (htop : top.Known) : ∀ id ∈ b.node.ids,
    (process top.node top.pass).2.constructions.get? id
      = (process b.node b.pass).2.constructions.get? id := by
  induction h with
  | top => exact fun _ _ => rfl
  | @down a b up above enters ih =>
    intro id hid
    have hup : id ∈ a.node.ids := by
      rw [Element.ids_eq]
      exact List.mem_cons_of_mem _ (enters.ids_subset id hid)
    rw [ih id hup, enters.get?_process (above.known htop) id hid]

/-- Whatever is below an element in a chain is as it was when the top began. -/
theorem Lineage.get?_below (h : Lineage top b up) (htop : top.Known) :
    ∀ id ∈ Element.idsAll b.node.children,
      b.pass.constructions.get? id = top.pass.constructions.get? id := by
  induction h with
  | top => exact fun _ _ => rfl
  | @down a b up above enters ih =>
    intro id hid
    rw [(enters.inherits (above.known htop)).below id hid]
    refine ih id (enters.ids_subset id ?_)
    rw [Element.ids_eq]
    exact List.mem_cons_of_mem _ hid

theorem Lineage.mem_preorder (h : Lineage top b up) : b.node ∈ top.node.preorder := by
  induction h with
  | top => exact Element.self_mem_preorder _
  | down _ enters ih =>
    refine (Element.preorder_section ih).subset ?_
    rw [Element.preorder_eq]
    exact List.mem_cons_of_mem _
      (Element.mem_preorderAll.mpr ⟨_, enters.mem_children, Element.self_mem_preorder _⟩)

/-- An element that is known when the top begins is as it was then when its parent enters it, with
what is handed down. -/
theorem Lineage.construction_eq {a : Beginning} (above : Lineage top a up) (enters : a.Enters b)
    (htop : top.Known) {c : Construction}
    (hc : top.pass.constructions.get? b.node.id = some c) : b.construction = a.handOver c := by
  obtain ⟨c', hbegins, hcases⟩ := (enters.inherits (above.known htop)).construction
  rw [above.get?_below htop _ (enters.ids_subset _ (Element.id_mem_ids _)), hc] at hcases
  rcases hcases with hfound | ⟨hnone, -⟩
  · rw [hbegins, ← Option.some.inj hfound]
  · cases hnone

/-- It has the outcome that it begins with itself. -/
theorem Lineage.outcome (h : Lineage top b up) (htop : top.Known) {c : Construction}
    (hc : top.pass.constructions.get? b.node.id = some c) :
    b.construction.outcome? = c.outcome? := by
  cases h with
  | top =>
    rw [htop.found] at hc
    cases hc
    rfl
  | down above enters =>
    rw [above.construction_eq enters htop hc]
    rfl

/-- A chain can be begun one element further up. -/
theorem Lineage.above {a : Beginning} (henters : a.Enters top) (h : Lineage top b up) :
    Lineage a b (up ++ [a]) := by
  induction h with
  | top => exact .down .top henters
  | down _ enters ih => exact .down ih enters

end Lineage

/-- **Reached or left.** When an element is processed, there is a way down to an element of its
tree, or nothing becomes of that. -/
theorem reached_or_left (e : Element) : ∀ a : Beginning, a.node = e → a.Known → ∀ n ∈ e.preorder,
    (∃ b up, Lineage a b up ∧ b.node = n) ∨
      (process a.node a.pass).2.constructions.get? n.id = a.pass.constructions.get? n.id := by
  refine Element.induction (M := fun e => ∀ a : Beginning, a.node = e → a.Known →
    ∀ n ∈ e.preorder, (∃ b up, Lineage a b up ∧ b.node = n) ∨
      (process a.node a.pass).2.constructions.get? n.id = a.pass.constructions.get? n.id)
    (fun e ih a he ha n hn => ?_) e
  rw [Element.preorder_eq] at hn
  rcases List.mem_cons.mp hn with rfl | hn
  · exact Or.inl ⟨a, [], .top, he⟩
  obtain ⟨child, hchild, hn⟩ := Element.mem_preorderAll.mp hn
  have hid : n.id ∈ child.ids := List.mem_map_of_mem hn
  -- a child that is not entered is left as it is, with all that is below it
  by_cases henters : ∃ b : Beginning, b.node = child ∧ a.Enters b
  · obtain ⟨b, rfl, henters⟩ := henters
    have hinherits := henters.inherits ha
    rcases ih b.node hchild b rfl hinherits.known n hn with ⟨b', up, hlineage, hnode⟩ | hleft
    · exact Or.inl ⟨b', up ++ [a], hlineage.above henters, hnode⟩
    · rw [Element.preorder_eq] at hn
      rcases List.mem_cons.mp hn with heq | hn
      · exact Or.inl ⟨b, [a], .down .top henters, heq.symm⟩
      · -- below the child nothing has happened before
        refine Or.inr ?_
        rw [henters.get?_process ha n.id hid, hleft]
        exact hinherits.below n.id (List.mem_map_of_mem hn)
  · refine Or.inr (ha.get?_process_of_not_enters (he ▸ hchild) (fun b hb henters' => ?_) n.id hid)
    exact henters ⟨b, hb, henters'⟩

end Beginning

end ObjectMarkup
