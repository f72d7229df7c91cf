import ObjectMarkup.Compile.Query
import ObjectMarkup.Proofs.Forwarding

/-!
# Sessions

Whoever holds a pass can look elements up and have them processed, in any order, a child before its
parent included. This module follows such a session and says what it leaves of an element that is
settled.

A settled element is never processed again, so its outcome and its children stay as they are. Its
values need not: an element that gets to a child hands values down to it before it asks whether the
child is settled. So a child that was settled before its parent ends with the values of the parent
laid over its own ones, those included that its own markup has given it. This happens once at most,
as the parent is settled then, and not at all if the parent was settled first. `session_settled` is
the exact statement.

The crux is `Request.HandsDown.get?_serve`. However far below the element that was asked for, the
child is looked up as it was, the values are laid over it, and processing it then is nothing. It
rests on `Beginning.Inherits`, which does not ask for new elements. `Pass.Serves` is what the pass
of a session is like throughout.
-/

namespace ObjectMarkup

open Markup (Element NodeId)

/-! ### Requests -/

/-- What a pass can be asked for from outside. -/
inductive Request where
  /-- Looks an element up. -/
  | element (node : Element)
  /-- Looks the elements below one up that have a tag. -/
  | queryByTag (node : Element) (tag : String)
  /-- Looks the first element below one up that has an id. -/
  | queryById (node : Element) (id : String)
  /-- Processes an element, if it was looked up. -/
  | process (node : Element)
  /-- Looks an attribute up and coerces it. -/
  | coerce (name type value : String) (base : Option Locator)
  /-- Gives the pass up. -/
  | release

/-- An element that is asked for is one of the trees. -/
def Request.Within (trees : List Element) : Request → Prop
  | .element node | .queryByTag node _ | .queryById node _ | .process node =>
    node ∈ Element.preorderAll trees
  | .coerce .. | .release => True

namespace Pass

/-- The pass after a request. -/
def serve (p : Pass) : Request → Pass
  | .element node =>
    match p.lookup node with
    | .ok (_, q) => q
    | .error _ => p
  | .queryByTag node tag => (p.queryByTag node tag).2
  | .queryById node id => (p.queryById node id).2
  | .process node => (ObjectMarkup.process node p).2
  | .coerce name type value base =>
    match p.coercion name type value base with
    | .ok (k, q) => (q.coerce k).2
    | .error _ => p
  | .release => p.release

/-- The pass after requests, one after the other. -/
def serveAll (p : Pass) (requests : List Request) : Pass :=
  requests.foldl serve p

theorem serveAll_cons (p : Pass) (r : Request) (rest : List Request) :
    p.serveAll (r :: rest) = (p.serve r).serveAll rest := rfl

theorem serveAll_append (p : Pass) (before after : List Request) :
    p.serveAll (before ++ after) = (p.serveAll before).serveAll after :=
  List.foldl_append

/-- **The pass of a session** about some trees. -/
structure Serves (p : Pass) (trees : List Element) : Prop where
  sound : p.Sound
  numbered : Element.NumberedAll trees
  /-- Nothing but elements of the trees is known under their numbers. -/
  fits : p.Fits (Element.preorderAll trees)

/-- The element is settled. -/
def Settled (p : Pass) (n : Element) : Prop :=
  ∃ c outcome, p.constructions.get? n.id = some c ∧ c.outcome? = some outcome

theorem Serves.begin (environment : Environment) (base : Option Locator) (store : Store)
    {trees : List Element} (hn : Element.NumberedAll trees) :
    (Pass.begin environment base store).Serves trees :=
  ⟨.initial _ _ _, hn, fits_begin _ _ _ _⟩

variable {trees : List Element} {p q r : Pass}

/-- A pass that serves is ready for every element of the trees that it knows. -/
theorem Serves.known (h : p.Serves trees) {x : Element} (hx : x ∈ Element.preorderAll trees)
    {c : Construction} (hc : p.constructions.get? x.id = some c) :
    (⟨x, p, c⟩ : Beginning).Known where
  ready :=
    { sound := h.sound
      numbered := h.numbered.numbered hx
      fits := fun e he => h.fits e ((Element.preorder_section_preorderAll hx).subset he)
      known := ⟨c, hc⟩ }
  found := hc

/-! ### Looking up -/

/-- A step that looks up at most: what is known stays known as it is. -/
structure LooksUp (trees : List Element) (p q : Pass) : Prop where
  serves : q.Serves trees
  stays : ∀ id c, p.constructions.get? id = some c → q.constructions.get? id = some c

theorem LooksUp.refl (h : p.Serves trees) : LooksUp trees p p :=
  ⟨h, fun _ _ hc => hc⟩

theorem LooksUp.trans (h : LooksUp trees p q) (h' : LooksUp trees q r) : LooksUp trees p r :=
  ⟨h'.serves, fun id c hc => h'.stays id c (h.stays id c hc)⟩

theorem looksUp_of_constructions_eq (h : p.Serves trees) (hq : q.Sound)
    (hsame : q.constructions = p.constructions) : LooksUp trees p q := by
  refine ⟨⟨hq, h.numbered, ?_⟩, fun id c hc => ?_⟩
  · unfold Fits
    rw [hsame]
    exact h.fits
  · rw [hsame]
    exact hc

theorem looksUp_lookup (h : p.Serves trees) {node : Element}
    (hnode : node ∈ Element.preorderAll trees) {c : Construction}
    (hl : p.lookup node = .ok (c, q)) : LooksUp trees p q := by
  obtain ⟨hq, ha⟩ := leads_lookup hl h.sound
  refine ⟨⟨hq, h.numbered, fun e he k hk => ?_⟩, fun id k hk => ?_⟩
  · -- only the element that is looked up can be new
    by_cases heq : e.id = node.id
    · obtain rfl := h.numbered.eq_of_id_eq he hnode heq
      rw [get?_of_lookup hl] at hk
      cases hk
      have hfits : p.Fits [e] := fun e' he' => List.mem_singleton.mp he' ▸ h.fits e he
      exact hfits.lookup hl
    · rw [ha.others _ (fun hmem => heq (List.mem_singleton.mp hmem))] at hk
      exact h.fits e he k hk
  · by_cases heq : id = node.id
    · -- an element that is known is found
      subst heq
      rw [lookup, hk] at hl
      cases hl
      exact hk
    · rw [ha.others _ (fun hmem => heq (List.mem_singleton.mp hmem))]
      exact hk

theorem looksUp_lookupAll (nodes : List Element) (h : p.Serves trees)
    (hnodes : ∀ node ∈ nodes, node ∈ Element.preorderAll trees) :
    LooksUp trees p (p.lookupAll nodes).2 := by
  induction nodes generalizing p with
  | nil => exact .refl h
  | cons node rest ih =>
    obtain ⟨hnode, hrest⟩ := List.forall_mem_cons.mp hnodes
    unfold lookupAll
    cases hl : p.lookup node with
    | error stop => exact .refl h
    | ok found =>
      have hfirst := looksUp_lookup h hnode hl
      have hothers := ih hfirst.serves hrest
      simp only
      -- however the others end, what was found stays
      rcases hall : found.2.lookupAll rest with ⟨stop | others, q⟩
      all_goals
        rw [hall] at hothers
        exact hfirst.trans hothers

end Pass

section Requests

variable {trees : List Element} {p : Pass} {r : Request}

/-- Every request but one to process an element looks up at most. -/
theorem looksUp_serve (h : p.Serves trees) (hr : r.Within trees) (hnot : ∀ x, r ≠ .process x) :
    Pass.LooksUp trees p (p.serve r) := by
  cases r with
  | element node =>
    rw [Pass.serve]
    cases hl : p.lookup node with
    | error stop => exact .refl h
    | ok found => exact Pass.looksUp_lookup h hr hl
  | queryByTag node tag =>
    rw [Pass.serve, Pass.queryByTag]
    split
    · exact .refl h
    · refine Pass.looksUp_lookupAll _ h fun n hn => ?_
      exact Element.mem_preorderAll_of_mem_descendants hr (List.mem_filter.mp hn).1
  | queryById node id =>
    rw [Pass.serve, Pass.queryById]
    split
    · exact .refl h
    split
    · exact .refl h
    · next n hfound =>
      have hn := Element.mem_preorderAll_of_mem_descendants hr (List.mem_of_find?_eq_some hfound)
      cases hl : p.lookup n with
      | error stop => exact .refl h
      | ok found => exact Pass.looksUp_lookup h hn hl
  | process x => exact absurd rfl (hnot x)
  | coerce name type value base =>
    rw [Pass.serve]
    cases hl : p.coercion name type value base with
    | error e => exact .refl h
    | ok found =>
      obtain ⟨k, q⟩ := found
      -- the hooks of an attribute do not reach elements
      have hlead := Pass.Leads.trans _ _ _ (Pass.leads_coercion hl []) (leads_coerce q k [])
      exact Pass.looksUp_of_constructions_eq h (hlead h.sound).1 (constructions_coerce hl)
  | release =>
    exact Pass.looksUp_of_constructions_eq h ⟨h.sound.constructions, h.sound.coercions⟩ rfl

/-- Processing an element keeps to the trees: who was reached is an element of them, and of all
others nothing has become. -/
theorem Pass.Serves.process (h : p.Serves trees) {x : Element}
    (hx : x ∈ Element.preorderAll trees) : (process x p).2.Serves trees := by
  obtain ⟨hsound, ha⟩ := advances_process h.sound x
  refine ⟨hsound, h.numbered, fun e he k hk => ?_⟩
  cases hc : p.constructions.get? x.id with
  | none =>
    rw [process_absent hc] at hk
    exact h.fits e he k hk
  | some c =>
    by_cases hid : e.id ∈ x.ids
    · -- one that was reached was looked up as itself, and one that was left is known as before
      have hmem := h.numbered.mem_preorder_of_id_mem hx he hid
      have hknown := h.known hx hc
      rcases Beginning.reached_or_left x ⟨x, p, c⟩ rfl hknown e hmem with
        ⟨b, up, hlineage, rfl⟩ | hleft
      · have hb := hlineage.known hknown
        obtain ⟨k', hk', hbecomes, -⟩ := process_settles hb.ready.sound hb.found
        rw [hlineage.get?_process hknown _ (Element.id_mem_ids _), hk'] at hk
        cases hk
        exact hbecomes.node.trans hb.node
      · exact h.fits e he k (hleft ▸ hk)
    · rw [ha.others _ hid] at hk
      exact h.fits e he k hk

/-- **Every request keeps the pass serving.** -/
theorem Pass.Serves.serve (h : p.Serves trees) (hr : r.Within trees) :
    (p.serve r).Serves trees := by
  by_cases hprocess : ∃ x, r = .process x
  · obtain ⟨x, rfl⟩ := hprocess
    exact h.process hr
  · exact (looksUp_serve h hr fun x heq => hprocess ⟨x, heq⟩).serves

theorem Pass.Serves.serveAll (h : p.Serves trees) {requests : List Request}
    (hr : ∀ r ∈ requests, r.Within trees) : (p.serveAll requests).Serves trees := by
  induction requests generalizing p with
  | nil => exact h
  | cons r rest ih =>
    obtain ⟨hfirst, hrest⟩ := List.forall_mem_cons.mp hr
    exact ih (h.serve hfirst) hrest

end Requests

/-! ### Handing down to a settled element -/

/-- **A request hands values down to an element:** it processes one above it, and on the way down
the parent `a` enters the element. -/
inductive Request.HandsDown (p : Pass) (n : Element) : Request → Beginning → Prop where
  | process {x : Element} {c : Construction} {a b : Beginning} {up : List Beginning}
      (found : p.constructions.get? x.id = some c)
      (lineage : Beginning.Lineage ⟨x, p, c⟩ b (a :: up)) (node : b.node = n) :
      HandsDown p n (.process x) a

section Settled

variable {trees : List Element} {p : Pass} {r : Request} {n : Element} {a : Beginning}
  {c : Construction} {outcome : Outcome Value}

namespace Request.HandsDown

/-- It is the parent that hands down. -/
theorem parent (hd : r.HandsDown p n a) (hr : r.Within trees) :
    a.node ∈ Element.preorderAll trees ∧ n ∈ a.node.children := by
  obtain ⟨found, _ | ⟨above, enters⟩, rfl⟩ := hd
  exact ⟨(Element.preorder_section_preorderAll hr).subset above.mem_preorder, enters.mem_children⟩

/-- The parent was not settled before. -/
theorem not_settled (hd : r.HandsDown p n a) (h : p.Serves trees) (hr : r.Within trees) :
    ¬ p.Settled a.node := by
  rintro ⟨k, outcome, hk, ho⟩
  obtain ⟨found, _ | ⟨above, enters⟩, -⟩ := hd
  have hopen := above.outcome (h.known hr found) hk
  rw [enters.opens, ho] at hopen
  cases hopen

/-- The parent is settled afterwards. -/
theorem settled (hd : r.HandsDown p n a) (h : p.Serves trees) (hr : r.Within trees) :
    (p.serve r).Settled a.node := by
  obtain ⟨found, _ | ⟨above, enters⟩, -⟩ := hd
  have htop := h.known hr found
  have ha := above.known htop
  obtain ⟨k, hk, -, ho⟩ := process_settles ha.ready.sound ha.found
  exact ⟨k, _, (above.get?_process htop _ (Element.id_mem_ids _)).trans hk, ho⟩

/-- **What is handed down to a settled element** comes in place of what it has, and nothing else
becomes of it. -/
theorem get?_serve (hd : r.HandsDown p n a) (h : p.Serves trees) (hr : r.Within trees)
    (hc : p.constructions.get? n.id = some c) (ho : c.outcome? = some outcome) :
    (p.serve r).constructions.get? n.id = some (a.handOver c) := by
  obtain ⟨found, hlineage, rfl⟩ := hd
  have htop := h.known hr found
  have hb := hlineage.known htop
  have hprocess := hlineage.get?_process htop _ (Element.id_mem_ids _)
  rw [Pass.serve]
  obtain _ | ⟨above, enters⟩ := hlineage
  have hbegins := above.construction_eq enters htop hc
  -- the element is settled when its parent enters it, so processing it is nothing
  rw [hprocess, process_settled hb.found (by rw [hbegins]; exact ho), hb.found, hbegins]

end Request.HandsDown

/-- A settled element that nothing is handed down to stays as it is, whatever is processed. -/
theorem get?_process_of_not_handsDown (h : p.Serves trees) {x : Element}
    (hx : x ∈ Element.preorderAll trees) (hn : n ∈ Element.preorderAll trees)
    (hc : p.constructions.get? n.id = some c) (ho : c.outcome? = some outcome)
    (hnot : ∀ a, ¬ (Request.process x).HandsDown p n a) :
    (process x p).2.constructions.get? n.id = some c := by
  cases found : p.constructions.get? x.id with
  | none =>
    rw [process_absent found]
    exact hc
  | some cx =>
    -- outside the tree nothing is touched, and inside only what is entered
    by_cases hid : n.id ∈ x.ids
    · have hmem := h.numbered.mem_preorder_of_id_mem hx hn hid
      rcases Beginning.reached_or_left x ⟨x, p, cx⟩ rfl (h.known hx found) n hmem with
        ⟨b, up, hlineage, hnode⟩ | hleft
      · cases hlineage with
        | top =>
          -- it is the one that is processed, and it is settled
          obtain rfl : x = n := hnode
          rw [process_settled hc ho]
          exact hc
        | down above enters =>
          -- whoever enters it hands values down, which is excluded
          exact absurd (.process found (.down above enters) hnode) (hnot _)
      · exact hleft.trans hc
    · exact ((advances_process h.sound x).2.others _ hid).trans hc

/-- **A request leaves a settled element as it is** if it does not hand values down to it. -/
theorem get?_serve_of_not_handsDown (h : p.Serves trees) (hr : r.Within trees)
    (hn : n ∈ Element.preorderAll trees) (hc : p.constructions.get? n.id = some c)
    (ho : c.outcome? = some outcome) (hnot : ∀ a, ¬ r.HandsDown p n a) :
    (p.serve r).constructions.get? n.id = some c := by
  by_cases hprocess : ∃ x, r = .process x
  · obtain ⟨x, rfl⟩ := hprocess
    exact get?_process_of_not_handsDown h hr hn hc ho hnot
  · exact (looksUp_serve h hr fun x heq => hprocess ⟨x, heq⟩).stays _ _ hc

/-- What is settled stays settled. -/
theorem Pass.Settled.serve (hs : p.Settled n) (h : p.Serves trees) (hr : r.Within trees)
    (hn : n ∈ Element.preorderAll trees) : (p.serve r).Settled n := by
  obtain ⟨c, outcome, hc, ho⟩ := hs
  by_cases hhands : ∃ a, r.HandsDown p n a
  · -- only values are handed down, so the outcome is still there
    obtain ⟨a, hd⟩ := hhands
    exact ⟨a.handOver c, outcome, hd.get?_serve h hr hc ho, ho⟩
  · refine ⟨c, outcome, get?_serve_of_not_handsDown h hr hn hc ho fun a hd => ?_, ho⟩
    exact hhands ⟨a, hd⟩

/-- A parent that is settled hands nothing down. -/
theorem Pass.Settled.not_handsDown {e : Element} (hs : p.Settled e) (h : p.Serves trees)
    (hr : r.Within trees) (he : e ∈ Element.preorderAll trees) (hchild : n ∈ e.children) :
    ¬ r.HandsDown p n a := by
  intro hd
  obtain ⟨hmem, hparent⟩ := hd.parent hr
  obtain rfl := h.numbered.parent_unique he hmem hchild hparent
  exact hd.not_settled h hr hs

/-! ### Sessions -/

/-- One of the requests hands values down to the element, in the pass as it is when it comes. -/
def Pass.HandsDownIn (p : Pass) (requests : List Request) (n : Element) (a : Beginning) : Prop :=
  ∃ before r after, requests = before ++ r :: after ∧ r.HandsDown (p.serveAll before) n a

variable {requests : List Request}

theorem Pass.Settled.serveAll (hs : p.Settled n) (h : p.Serves trees)
    (hr : ∀ r ∈ requests, r.Within trees) (hn : n ∈ Element.preorderAll trees) :
    (p.serveAll requests).Settled n := by
  induction requests generalizing p with
  | nil => exact hs
  | cons r rest ih =>
    obtain ⟨hfirst, hrest⟩ := List.forall_mem_cons.mp hr
    exact ih (hs.serve h hfirst hn) (h.serve hfirst) hrest

/-- Without being handed values down a settled element stays as it is. -/
theorem get?_serveAll_of_not_handsDownIn (h : p.Serves trees)
    (hr : ∀ r ∈ requests, r.Within trees) (hn : n ∈ Element.preorderAll trees)
    (hc : p.constructions.get? n.id = some c) (ho : c.outcome? = some outcome)
    (hnot : ∀ a, ¬ p.HandsDownIn requests n a) :
    (p.serveAll requests).constructions.get? n.id = some c := by
  induction requests generalizing p with
  | nil => exact hc
  | cons r rest ih =>
    obtain ⟨hfirst, hrest⟩ := List.forall_mem_cons.mp hr
    -- nothing comes down in the first request, and then not in the others
    have hstep : (p.serve r).constructions.get? n.id = some c :=
      get?_serve_of_not_handsDown h hfirst hn hc ho fun a hd => hnot a ⟨[], r, rest, rfl, hd⟩
    refine ih (h.serve hfirst) hrest hstep fun a hd => ?_
    obtain ⟨before, r', after, heq, hd⟩ := hd
    exact hnot a ⟨r :: before, r', after, congrArg (r :: ·) heq, hd⟩

theorem Pass.HandsDownIn.parent (hd : p.HandsDownIn requests n a)
    (hr : ∀ r ∈ requests, r.Within trees) :
    a.node ∈ Element.preorderAll trees ∧ n ∈ a.node.children := by
  obtain ⟨before, r, after, rfl, hd⟩ := hd
  exact hd.parent (hr r (List.mem_append_right _ List.mem_cons_self))

/-- A parent that is settled never hands anything down. -/
theorem Pass.Settled.not_handsDownIn {e : Element} (hs : p.Settled e) (h : p.Serves trees)
    (hr : ∀ r ∈ requests, r.Within trees) (he : e ∈ Element.preorderAll trees)
    (hchild : n ∈ e.children) : ¬ p.HandsDownIn requests n a := by
  rintro ⟨before, r, after, rfl, hd⟩
  obtain ⟨hbefore, hrest⟩ := List.forall_mem_append.mp hr
  exact (hs.serveAll h hbefore he).not_handsDown (h.serveAll hbefore)
    (hrest r List.mem_cons_self) he hchild hd

/-- A settled element that values are handed down to has them from then on. -/
theorem get?_serveAll_of_handsDownIn (h : p.Serves trees) (hr : ∀ r ∈ requests, r.Within trees)
    (hn : n ∈ Element.preorderAll trees) (hc : p.constructions.get? n.id = some c)
    (ho : c.outcome? = some outcome) (hd : p.HandsDownIn requests n a) :
    (p.serveAll requests).constructions.get? n.id = some (a.handOver c) := by
  obtain ⟨before, r, after, rfl, hd⟩ := hd
  obtain ⟨hbefore, hrest⟩ := List.forall_mem_append.mp hr
  obtain ⟨hone, hafter⟩ := List.forall_mem_cons.mp hrest
  have hq := h.serveAll hbefore
  obtain ⟨hmem, hchild⟩ := hd.parent hone
  -- had something come down before, the parent would be settled already
  have hnot : ∀ a', ¬ p.HandsDownIn before n a' := by
    rintro a' ⟨before', r', after', rfl, hd'⟩
    obtain ⟨hbefore', hrest'⟩ := List.forall_mem_append.mp hbefore
    obtain ⟨hone', hafter'⟩ := List.forall_mem_cons.mp hrest'
    have hq' := h.serveAll hbefore'
    obtain ⟨hmem', hchild'⟩ := hd'.parent hone'
    have hsettled := (hd'.settled hq' hone').serveAll (hq'.serve hone') hafter' hmem'
    rw [Pass.serveAll_append, Pass.serveAll_cons] at hd hq
    exact hsettled.not_handsDown hq hone hmem' hchild' hd
  have hsame := get?_serveAll_of_not_handsDownIn h hbefore hn hc ho hnot
  have hlaid := hd.get?_serve hq hone hsame ho
  -- and after it the parent is settled, so that nothing comes down any more
  rw [Pass.serveAll_append, Pass.serveAll_cons]
  refine get?_serveAll_of_not_handsDownIn (hq.serve hone) hafter hn hlaid ho fun a' => ?_
  exact (hd.settled hq hone).not_handsDownIn (hq.serve hone) hafter hmem hchild

/-- **What requests leave of a settled element** that the pass knows as `c`. -/
structure Remains (trees : List Element) (p : Pass) (requests : List Request) (n : Element)
    (c : Construction) : Prop where
  /-- Its outcome, its children and all else but its values stay. -/
  stays : ∃ values, (p.serveAll requests).constructions.get? n.id
    = some { c with values := values }
  /-- Its values stay as well, as long as none are handed down to it. -/
  unless_handed : (∀ a, ¬ p.HandsDownIn requests n a) →
    (p.serveAll requests).constructions.get? n.id = some c
  /-- None are if its parent is settled, or it has none. -/
  parent_settled : (∀ e ∈ Element.preorderAll trees, n ∈ e.children → p.Settled e) →
    (p.serveAll requests).constructions.get? n.id = some c
  /-- Else they come in place of its own, wherever both have one. -/
  handed : ∀ a, p.HandsDownIn requests n a →
    (p.serveAll requests).constructions.get? n.id = some (a.handOver c)

theorem remains_of_settled (h : p.Serves trees) (hr : ∀ r ∈ requests, r.Within trees)
    (hn : n ∈ Element.preorderAll trees) (hc : p.constructions.get? n.id = some c)
    (ho : c.outcome? = some outcome) : Remains trees p requests n c := by
  have hhanded : ∀ a, p.HandsDownIn requests n a → _ := fun a hd =>
    get?_serveAll_of_handsDownIn h hr hn hc ho hd
  have hunless := get?_serveAll_of_not_handsDownIn h hr hn hc ho
  refine ⟨?_, hunless, fun hparent => hunless fun a hd => ?_, hhanded⟩
  · by_cases hd : ∃ a, p.HandsDownIn requests n a
    · obtain ⟨a, hd⟩ := hd
      exact ⟨_, hhanded a hd⟩
    · exact ⟨c.values, hunless fun a hd' => hd ⟨a, hd'⟩⟩
  · obtain ⟨hmem, hchild⟩ := hd.parent hr
    exact (hparent _ hmem hchild).not_handsDownIn h hr hmem hchild hd

end Settled

/-- **A settled element in a session.** In every session about some trees, whatever is asked for and
in whatever order before an element is settled and after, `Remains` says what is left of it. -/
theorem session_settled (environment : Environment) (base : Option Locator) (store : Store)
    {trees : List Element} (hnumbered : Element.NumberedAll trees) {earlier later : List Request}
    (hearlier : ∀ r ∈ earlier, r.Within trees) (hlater : ∀ r ∈ later, r.Within trees)
    {n : Element} (hn : n ∈ Element.preorderAll trees) {c : Construction} {outcome : Outcome Value}
    (hc : ((Pass.begin environment base store).serveAll earlier).constructions.get? n.id = some c)
    (ho : c.outcome? = some outcome) :
    Remains trees ((Pass.begin environment base store).serveAll earlier) later n c :=
  remains_of_settled ((Pass.Serves.begin environment base store hnumbered).serveAll hearlier) hlater
    hn hc ho

/-- A kind that hands a color down. -/
def layer : ElementKind where
  name := "layer"
  define _ := .ok (.ofList [("color", ⟨"string", true, true⟩)])

/-- A red layer with a layer inside that has no color of its own. -/
def layerTree : Element :=
  (Markup.Draft.build none 0
    (((Markup.Draft.leaf "layer").withAttribute "color" "red").withChild (.leaf "layer"))).1

/-- The document of both, before anything is processed. -/
def layerDocument : Compilation :=
  .begin ⟨.empty, ⟨.ofList [("layer", layer)], .empty⟩⟩
    ⟨layerTree, none⟩ none none .empty

/-- A layer as it is looked up. -/
def newLayer (node : Element) : Construction :=
  ⟨node, layer, .ofList [("color", ⟨"string", true, true⟩)], .empty, [], none⟩

/-- The pass when a layer was looked up. -/
def Pass.withLayer (p : Pass) (node : Element) : Pass :=
  { p with constructions := p.constructions.insert node.id (newLayer node) }

theorem lookup_layer {p : Pass} {node : Element} (htag : node.tag = "layer")
    (henv : p.environment = layerDocument.pass.environment)
    (hnone : p.constructions.get? node.id = none) :
    p.lookup node = .ok (newLayer node, p.withLayer node) := by
  have hkey : Text.nameKey "layer" = "layer" := by decide +kernel
  have hkind : p.environment.catalog.elementKind node.tag = .ok layer := by
    rw [henv, htag, Catalog.elementKind, hkey]
    rfl
  rw [Pass.lookup, hnone, hkind]
  rfl

/-- A red layer with a blue one inside. -/
def paintedTree : Element :=
  (Markup.Draft.build none 0
    (((Markup.Draft.leaf "layer").withAttribute "color" "red").withChild
      ((Markup.Draft.leaf "layer").withAttribute "color" "blue"))).1

/-- The layer inside. -/
def blueLayer : Element :=
  ⟨0, "layer", OrderedMap.empty.insert "color" "blue", [], none⟩

/-- The requests that have the layer inside processed first. -/
def childFirst : List Request :=
  [.element paintedTree, .element blueLayer, .process blueLayer]

/-- The pass in which both layers were looked up. -/
def bothKnown : Pass :=
  (layerDocument.pass.withLayer paintedTree).withLayer blueLayer

/-- The red layer begins, when the blue one is settled. -/
def redBeginning : Beginning :=
  ⟨paintedTree, (process blueLayer bothKnown).2, newLayer paintedTree⟩

/-- What is known of the blue layer when it is settled. -/
def settledBlue : Construction :=
  { newLayer blueLayer with
    values := OrderedMap.empty.insert "color" (.string "blue")
    outcome? := some (process blueLayer bothKnown).1 }

/-- A blue layer that is settled turns red when the red one around it is processed. -/
theorem session_settled_painted :
    (layerDocument.pass.serveAll childFirst).constructions.get? blueLayer.id = some settledBlue ∧
      settledBlue.values.get? "color" = some (.string "blue") ∧
      ∃ k, ((layerDocument.pass.serveAll childFirst).serveAll
          [.process paintedTree]).constructions.get? blueLayer.id = some k ∧
        k.outcome? = settledBlue.outcome? ∧ k.values.get? "color" = some (.string "red") := by
  -- the two look-ups and the child are served first
  have hpass : layerDocument.pass.serveAll childFirst = redBeginning.pass := by
    have hred : layerDocument.pass.lookup paintedTree = .ok (newLayer paintedTree, _) :=
      lookup_layer rfl rfl rfl
    have hblue : (layerDocument.pass.withLayer paintedTree).lookup blueLayer
        = .ok (newLayer blueLayer, _) := lookup_layer rfl rfl rfl
    simp only [childFirst, Pass.serveAll_cons, Pass.serve, hred, hblue]
    rfl
  have hfound : redBeginning.pass.constructions.get? blueLayer.id = some settledBlue := rfl
  have hnumbered : Element.NumberedAll [paintedTree] :=
    (Element.numberedAll_cons _ _).mpr ⟨by decide, List.nodup_nil, by simp⟩
  have hred : paintedTree ∈ Element.preorderAll [paintedTree] := List.mem_cons_self
  have hblue : blueLayer ∈ Element.preorderAll [paintedTree] :=
    List.mem_cons_of_mem _ List.mem_cons_self
  have hearlier : ∀ r ∈ childFirst, r.Within [paintedTree] := by
    simp [childFirst, Request.Within, hred, hblue]
  have hlater : ∀ r ∈ [Request.process paintedTree], r.Within [paintedTree] := by
    simp [Request.Within, hred]
  have hremains : Remains [paintedTree] (layerDocument.pass.serveAll childFirst)
      [.process paintedTree] blueLayer settledBlue :=
    session_settled _ _ _ hnumbered hearlier hlater hblue (hpass ▸ hfound) rfl
  -- the red layer hands its color down, though the blue one is settled
  have hchildren : redBeginning.node.children = [] ++ blueLayer :: [] := rfl
  have henters : redBeginning.Enters ⟨blueLayer,
      redBeginning.done.handDown paintedTree.id blueLayer.id, redBeginning.handOver settledBlue⟩ :=
    .visit rfl rfl rfl hchildren rfl rfl rfl
  have hhands : (Request.process paintedTree).HandsDown redBeginning.pass blueLayer redBeginning :=
    .process rfl (.down .top henters) rfl
  have hlaid := hremains.handed redBeginning ⟨[], _, [], rfl, hpass ▸ hhands⟩
  exact ⟨hpass ▸ hfound, rfl, redBeginning.handOver settledBlue, hlaid, rfl, rfl⟩

end ObjectMarkup
