import ObjectMarkup.Proofs.Insertions
import ObjectMarkup.Proofs.Making
import ObjectMarkup.Proofs.Session

/-!
# Generic records

The generic kind makes a record out of all that its element has: the values of the attributes are
the properties, and the results of the children become properties too or are put among the children
of the record. Two hooks write to that one record, with the children between the attributes and
them.

`process_gathers` says what the record is in terms of two lists: the values that the element holds
(`Construction.heldValues`) and the children that have come to a value (`Pass.successes`). Both hooks
together are one insertion of a list into a map (`foldl_gather_eq`), so the order of the properties
and what becomes of a name that comes twice are those of `OrderedMap.insertAll`. Children of the
element may be of any kind. One that fails is in no list; it takes the record with it only if its
kind panics while it is looked up.
-/

namespace ObjectMarkup

open Markup (Element NodeId)

/-! ### What a generic record is made of -/

/-- The values that an element of the generic kind holds when its attributes are done: those that it
had before, and its own attributes as they are written. -/
def Construction.heldValues (c : Construction) : OrderedMap String Value :=
  c.values.insertAll (c.node.attributes.entries.map fun a => (a.1, .string a.2))

/-- The children that have come to a value, with the values, in the order of the document. -/
def Pass.successes (q : Pass) (children : List Element) : List (Element × Value) :=
  children.filterMap fun child =>
    (q.constructions.get? child.id).bind fun k => k.childView.result?.map fun v => (child, v)

/-- Whether the value of a child goes among the children of a record: it is a record itself, or the
child has no name. -/
def staysChild (result : Element × Value) : Bool :=
  result.2.isRecord || (result.1.attribute? "name").isNone

/-- The values that go among the children of a record. -/
def keptResults (results : List (Element × Value)) : List Value :=
  (results.filter staysChild).map Prod.snd

/-- The values that become properties, each under the name of its child. -/
def namedResults (results : List (Element × Value)) : List (String × Value) :=
  (results.filter fun result => !staysChild result).filterMap fun result =>
    (result.1.attribute? "name").map fun name => (name, result.2)

/-- **A generic record:** the values of the element, overlaid with the named results of its children
in their order, and all other results as children. -/
def genericRecord (tag : String) (held : OrderedMap String Value)
    (results : List (Element × Value)) : Record :=
  ⟨tag, held.insertAll (namedResults results), keptResults results⟩

/-- What views of children show of values. -/
def viewedResults (views : List ChildView) : List (Element × Value) :=
  views.filterMap fun view => view.result?.map fun v => (view.node, v)

/-- **Gathering is inserting a list and appending another.** -/
theorem foldl_gather_eq (views : List ChildView) (r : Record) :
    views.foldl Record.gather r =
      ⟨r.className, r.properties.insertAll (namedResults (viewedResults views)),
        r.children ++ keptResults (viewedResults views)⟩ := by
  induction views generalizing r with
  | nil => simp [viewedResults, namedResults, keptResults, OrderedMap.insertAll]
  | cons view rest ih =>
    rw [List.foldl_cons, ih, Record.gather]
    -- a child without a result leaves the record as it is
    cases hresult : view.result? with
    | none =>
      have hsame : viewedResults (view :: rest) = viewedResults rest := by
        rw [viewedResults, List.filterMap_cons, hresult]
        rfl
      rw [hsame]
    | some v =>
      have hmore : viewedResults (view :: rest) = (view.node, v) :: viewedResults rest := by
        rw [viewedResults, List.filterMap_cons, hresult]
        rfl
      rw [hmore]
      -- the value is pushed if it is a record or has no name, and else set
      cases hname : view.node.attribute? "name" with
      | none => simp [namedResults, keptResults, staysChild, hname, Record.push]
      | some name =>
        cases hrecord : v.isRecord with
        | true => simp [namedResults, keptResults, staysChild, hrecord, Record.push]
        | false =>
          simp [namedResults, keptResults, staysChild, hname, hrecord, Record.set,
            OrderedMap.insertAll]

/-- Every result goes to one place. -/
theorem length_gathered (results : List (Element × Value)) :
    (keptResults results).length + (namedResults results).length = results.length := by
  induction results with
  | nil => rfl
  | cons result rest ih =>
    have hstep : (keptResults (result :: rest)).length + (namedResults (result :: rest)).length =
        (keptResults rest).length + (namedResults rest).length + 1 := by
      simp only [keptResults, namedResults, List.filter_cons]
      cases hstays : staysChild result with
      | true =>
        simp only [if_true, Bool.not_true, Bool.false_eq_true, if_false, List.map_cons,
          List.length_cons]
        omega
      | false =>
        -- what does not stay has a name
        obtain ⟨name, hname⟩ : ∃ name, result.1.attribute? "name" = some name := by
          refine Option.isSome_iff_exists.mp ?_
          rw [staysChild, Bool.or_eq_false_iff, Option.isNone_eq_false_iff] at hstays
          exact hstays.2
        simp only [Bool.false_eq_true, if_false, Bool.not_false, if_true, List.filterMap_cons,
          hname, Option.map_some, List.length_cons]
        omega
    rw [hstep, ih, List.length_cons]

/-! ### The attributes -/

section Generic

variable {p : Pass} {e : Element} {c : Construction}

/-- The generic kind declares no attributes. -/
theorem schema_of_generic {environment : Environment} {id : NodeId}
    (h : c.Sound environment id) (hkind : c.kind = Kind.object) : c.schema = .empty := by
  have hschema := h.node_schema
  rw [hkind] at hschema
  exact (Except.ok.inj hschema).symm

/-- Attributes that are not declared are taken as they are written. -/
theorem compileEach_undeclared (hschema : c.schema = .empty) (attributes : List (String × String))
    {p : Pass} {k : Construction} (hk : p.constructions.get? c.node.id = some k) :
    ∃ q, Hook.exec (compileEach c attributes) p = (.ok (), q) ∧
      q.constructions.get? c.node.id = some { k with
        values := k.values.insertAll (attributes.map fun a => (a.1, .string a.2)) } := by
  induction attributes generalizing p k with
  | nil => exact ⟨p, rfl, hk⟩
  | cons a rest ih =>
    obtain ⟨name, raw⟩ := a
    have hstring : c.schema.typeOf name = "string" := by
      rw [hschema]
      rfl
    obtain ⟨q, hq, hvalues⟩ := ih (Pass.get?_setValue hk name (.string raw))
    refine ⟨q, ?_, hvalues⟩
    have hone : Hook.exec (compileAttribute c name raw) p =
        (.ok (), p.setValue c.node.id name (.string raw)) := by
      rw [exec_compileAttribute, if_pos hstring]
    rw [compileEach_cons, Hook.exec_bind_ok hone, hq]

/-- Before the children the element gets its attributes, and nothing else happens to it. -/
theorem compileAttributes_generic (hkind : c.kind = Kind.object) (hschema : c.schema = .empty)
    (hc : p.constructions.get? c.node.id = some c) :
    ∃ q, Hook.exec (compileAttributes c) p = (.ok (), q) ∧
      q.constructions.get? c.node.id = some { c with values := c.heldValues } := by
  have hbefore : Hook.exec (c.kind.beforeAttributes (p.view c)) (p.bench c) =
      (.ok (), p.bench c) := by
    rw [hkind]
    rfl
  have hafter : ∀ q : Pass, Hook.exec (c.kind.afterAttributes (q.view c)) (q.bench c) =
      (.ok (), q.bench c) := by
    rw [hkind]
    exact fun _ => rfl
  -- the hooks of an object do nothing, so leaving them leaves the compilers alone
  have hleave : ∀ (q : Pass) hook, (q.leave c hook (q.bench c)).constructions = q.constructions :=
    fun q hook => by
      rw [Pass.bench, Pass.leave_values]
      rfl
  obtain ⟨q, hq, hvalues⟩ := compileEach_undeclared hschema c.node.attributes.entries
    (p := p.leave c .beforeAttributes (p.bench c)) (by rw [hleave]; exact hc)
  refine ⟨q.leave c .afterAttributes (q.bench c), ?_, ?_⟩
  · rw [exec_compileAttributes, hbefore]
    simp only [hq, hafter]
    rfl
  · rw [hleave]
    exact hvalues

/-! ### The children -/

/-- What children have come to does not depend on other elements. -/
theorem successes_congr {q r : Pass} {children : List Element}
    (h : ∀ child ∈ children, r.constructions.get? child.id = q.constructions.get? child.id) :
    r.successes children = q.successes children :=
  List.filterMap_congr fun child hchild => by rw [h child hchild]

/-- Children that are not known have come to nothing. -/
theorem successes_filter {q : Pass} {children : List Element} {known : Element → Bool}
    (h : ∀ child ∈ children, known child = false → q.constructions.get? child.id = none) :
    q.successes (children.filter known) = q.successes children := by
  rw [Pass.successes, List.filterMap_filter]
  refine List.filterMap_congr fun child hchild => ?_
  cases hknown : known child with
  | true => rfl
  | false => rw [h child hchild hknown]; rfl

/-- What an element sees of its children is what they have come to. -/
theorem viewedResults_childViews {q : Pass} {id : NodeId} {k : Construction} {es : List Element}
    (hk : q.constructions.get? id = some k) (hchildren : k.children = es.map Element.id)
    (hfound : ∀ child ∈ es, ∃ k', q.constructions.get? child.id = some k' ∧ k'.node = child) :
    viewedResults (q.childViews id) = q.successes es := by
  rw [Pass.childViews, Pass.children, hk]
  simp only [hchildren]
  clear hk hchildren
  induction es with
  | nil => rfl
  | cons child rest ih =>
    obtain ⟨k', hk', hnode⟩ := hfound child List.mem_cons_self
    have hrest := ih fun c hc => hfound c (List.mem_cons_of_mem _ hc)
    have hview : k'.childView.node = child := hnode
    rw [List.map_cons, List.filterMap_cons_some hk', List.map_cons, viewedResults,
      List.filterMap_cons, Pass.successes, List.filterMap_cons, hk', hview, Option.bind_some]
    -- the views are those of the known children, in order, and each views the outcome in `q`
    cases k'.childView.result? with
    | none => exact hrest
    | some v => exact congrArg _ hrest

/-! ### The record -/

/-- **A generic record is gathered** when its element is processed. -/
structure Gathers (p : Pass) (e : Element) (c : Construction) (outcome : Outcome Value) (q : Pass) :
    Prop where
  /-- A record is made when the children are done, and nothing else becomes of the records then. -/
  made : ∃ r, Hook.exec (do compileAttributes c; visit e.id e.children) p = (.ok (), r) ∧
    outcome = .ok (.record r.store.size) ∧
    q.store = (r.store.make (genericRecord e.tag c.heldValues (q.successes e.children))).2
  /-- The values are those that the element has. -/
  values : q.values e.id = c.heldValues
  /-- The properties are in the order in which their names appear first. -/
  keys : (genericRecord e.tag c.heldValues (q.successes e.children)).properties.keys =
    (c.heldValues.keys ++ (namedResults (q.successes e.children)).map Prod.fst).eraseDups
  /-- Of all that has a name, the last one is kept. -/
  last : ∀ name,
    (genericRecord e.tag c.heldValues (q.successes e.children)).properties.get? name =
      ((namedResults (q.successes e.children)).reverse.lookup name).or (c.heldValues.get? name)
  /-- Every result is a property or a child. -/
  once : (keptResults (q.successes e.children)).length +
    (namedResults (q.successes e.children)).length = (q.successes e.children).length
  /-- A child with a known tag is settled, with a value or with an error, and only values count. -/
  settled : ∀ child ∈ e.children, p.environment.catalog.knows child = true →
    ∃ k, q.constructions.get? child.id = some k ∧ k.node = child ∧ k.outcome?.isSome = true
  /-- One with an unknown tag has come to nothing. -/
  unknown : ∀ child ∈ e.children, p.environment.catalog.knows child = false →
    q.constructions.get? child.id = none

/-- A child with an unknown tag comes to nothing while its parent is processed. -/
theorem get?_process_of_unknown (h : p.Ready e) {child : Element} (hchild : child ∈ e.children)
    (hunknown : p.environment.catalog.knows child = false) :
    (process e p).2.constructions.get? child.id = none := by
  have hpreorder : Element.preorderAll [e] = e.preorder := List.append_nil _
  have hserves : p.Serves [e] :=
    ⟨h.sound, by rw [Element.NumberedAll, Element.idsAll, hpreorder]; exact h.numbered,
      by rw [hpreorder]; exact h.fits⟩
  have hself : e ∈ Element.preorderAll [e] := hpreorder ▸ Element.self_mem_preorder e
  have hafter := hserves.process hself
  have hmem : child ∈ Element.preorderAll [e] := by
    rw [hpreorder, Element.preorder_eq]
    exact List.mem_cons_of_mem _
      (Element.mem_preorderAll.mpr ⟨child, hchild, Element.self_mem_preorder child⟩)
  refine Option.eq_none_iff_forall_ne_some.mpr fun k hk => ?_
  -- whoever is known has a kind
  have hkind := hafter.sound.node_kind hk
  rw [hafter.fits child hmem k hk, (advances_process h.sound e).2.environment] at hkind
  rw [Catalog.knows, hkind] at hunknown
  cases hunknown

/-- An element that gets past its children gathers them. -/
theorem gathers_of_visits {p₁ p₂ : Pass} (h : p.Ready e) (hready : p₁.ReadyFor e.id e.children)
    (hkind : c.kind = Kind.object) (hschema : c.schema = .empty) (hnode : c.node = e)
    (hnone : c.children = []) (hfirst : Hook.exec (compileAttributes c) p = (.ok (), p₁))
    (henv : p₁.environment = p.environment)
    (hc₁ : p₁.constructions.get? e.id = some { c with values := c.heldValues })
    (hx : p₁.firstPanic? e.children = none)
    (hvisit : Hook.exec (visit e.id e.children) p₁ = (.ok (), p₂))
    (hrun : process e p =
      (contain (Hook.exec (build c) p₂).1,
        (Hook.exec (build c) p₂).2.settle e.id (contain (Hook.exec (build c) p₂).1))) :
    Gathers p e c (process e p).1 (process e p).2 := by
  -- an unknown child has no compiler, neither before nor after the walk
  have hunknown := fun child (hchild : child ∈ e.children) => get?_process_of_unknown h hchild
  have hc₂ := get?_visits e.children hready hx _ hc₁
  have hsettled := settled_visits e.children hready hx
  rw [hvisit, henv] at hc₂ hsettled
  have hbuild := exec_build_made (p := p₂) (r := .object) hkind hschema
  rw [Rule.made_of_ne_data (by decide), hnode] at hbuild
  rw [hbuild] at hrun
  rw [hrun] at hunknown ⊢
  -- the record and the final pass get names, or every goal would carry the whole ending
  generalize hrecord : Rule.object.record e (p₂.values e.id) (p₂.childViews e.id) = record
  rw [hrecord] at hunknown
  generalize hq : (p₂.built c (p₂.store.make record).2).settle e.id
    (contain (.ok (.record p₂.store.size))) = q at hunknown
  -- building changes no child, and of the element only the outcome
  have hothers : ∀ child ∈ e.children,
      q.constructions.get? child.id = p₂.constructions.get? child.id := fun child hchild => by
    rw [← hq]
    refine OrderedMap.get?_modify_of_ne _ (fun heq => hready.parent ?_) _
    exact heq ▸ Element.id_mem_idsAll hchild
  have hvalues : q.values e.id = c.heldValues := by
    rw [← hq]
    exact Pass.values_modifyConstruction hc₂
  -- what the record is built from is what can be read off the final pass
  have hviews : viewedResults (p₂.childViews e.id) = q.successes e.children := by
    calc viewedResults (p₂.childViews e.id)
        = p₂.successes (e.children.filter p.environment.catalog.knows) := by
          refine viewedResults_childViews hc₂ ?_ fun child hmem => ?_
          · show c.children ++ _ = _
            rw [hnone, List.nil_append]
          · obtain ⟨hmem, hknows⟩ := List.mem_filter.mp hmem
            obtain ⟨k, hk, hknode, -⟩ := hsettled child hmem hknows
            exact ⟨k, hk, hknode⟩
      _ = q.successes (e.children.filter p.environment.catalog.knows) :=
          (successes_congr fun child hmem => hothers child (List.mem_filter.mp hmem).1).symm
      _ = q.successes e.children := successes_filter hunknown
  have hgeneric : record = genericRecord e.tag c.heldValues (q.successes e.children) := by
    rw [← hrecord, Pass.values_eq hc₂, Rule.record, foldl_gather_eq, hviews]
    rfl
  exact
    { made := ⟨p₂, by rw [Hook.exec_bind_ok hfirst, hvisit], rfl, by rw [← hgeneric, ← hq]; rfl⟩
      values := hvalues
      keys := OrderedMap.keys_insertAll _ _
      last := fun name => OrderedMap.get?_insertAll _ _ name
      once := length_gathered _
      settled := fun child hchild hknows => by
        rw [hothers child hchild]
        exact hsettled child hchild hknows
      unknown := hunknown }

/-- **A generic record gathers everything once,** under children of any kind. Only a panic while a
child is looked up keeps it from that: the element is aborted with the first one. -/
theorem process_gathers (h : p.Ready e) (hc : p.constructions.get? e.id = some c)
    (hkind : c.kind = Kind.object) (hopen : c.outcome? = none) (hnone : c.children = [])
    (hlive : p.released = false) :
    match p.firstPanic? e.children with
    | some x => (process e p).1 = .error (.aborted x.message)
    | none => Gathers p e c (process e p).1 (process e p).2 := by
  obtain ⟨c', hc', rfl⟩ := h.construction
  rw [hc] at hc'
  cases hc'
  have hschema := schema_of_generic (h.sound.constructions _ _ hc) hkind
  obtain ⟨p₁, hfirst, hc₁⟩ := compileAttributes_generic hkind hschema hc
  have hlead := (leads_work c).compileAttributes p h.sound
  rw [hfirst] at hlead
  obtain ⟨hp₁, ha₁⟩ := hlead
  have hready := (h.advance hp₁ ha₁).children
  -- compiling attributes starts no compiler, so the first panic is the one the claim reads off `p`
  have hpanic : p₁.firstPanic? c.node.children = p.firstPanic? c.node.children :=
    ha₁.firstPanic?_eq fun child hmem hid =>
      hready.parent (List.mem_singleton.mp hid ▸ Element.id_mem_idsAll hmem)
  have hending := visit_ending c.node.children hready
  have hrun := process_run hc hopen hlive
  rw [phases, Hook.exec_bind_ok hfirst] at hrun
  rw [← hpanic]
  -- a kind that panics in `define` is the only thing that keeps the walk from returning
  cases hx : p₁.firstPanic? c.node.children with
  | some x =>
    rw [hx] at hending
    rw [Hook.exec_bind_error (e := Stop.panic x)
      (t := (Hook.exec (visit c.node.id c.node.children) p₁).2) (Prod.ext hending rfl)] at hrun
    simp only [hrun]
    rfl
  | none =>
    rw [hx] at hending
    have hvisit : Hook.exec (visit c.node.id c.node.children) p₁ =
        (.ok (), (Hook.exec (visit c.node.id c.node.children) p₁).2) := Prod.ext hending rfl
    rw [Hook.exec_bind_ok hvisit] at hrun
    exact gathers_of_visits h hready hkind hschema rfl hnone hfirst ha₁.environment hc₁ hx hvisit
      hrun

end Generic

/-! ### A record and a failure -/

/-- A generic element with a named scalar, a child of the generic kind and one with an unknown tag. -/
def heroTree : Element :=
  (Markup.Draft.build none 0
    (((((Markup.Draft.leaf "object").withAttribute "title" "hero").withChild (.leaf "ghost")).withChild
      (((Markup.Draft.leaf "data").withAttribute "name" "title").withAttribute "value" "three")).withChild
        (.leaf "object"))).1

def heroRoot : Construction :=
  ⟨heroTree, Kind.object, .empty, .empty, [], none⟩

def heroStart : Pass :=
  .begin ⟨.empty, ⟨.ofList [("object", Kind.object), ("data", Kind.data)], .empty⟩⟩ none .empty

/-- The pass in which the element was looked up. -/
def heroPass : Pass :=
  { heroStart with constructions := OrderedMap.empty.insert heroTree.id heroRoot }

/-- The named result takes the place of the attribute with its name, the other one becomes a child, and
the unknown tag leaves no trace. A kind that panics when its child is looked up leaves no record. -/
theorem process_gathers_hero :
    (heroPass.Ready heroTree ∧ heroPass.firstPanic? heroTree.children = none ∧
      Gathers heroPass heroTree heroRoot (process heroTree heroPass).1 (process heroTree heroPass).2 ∧
      (process heroTree heroPass).2.store.size = 2 ∧
      ((process heroTree heroPass).2.store.get 1).properties.keys = ["title"] ∧
      ((process heroTree heroPass).2.store.get 1).children.length = 1) ∧
    panickyPass.Ready panickyTree ∧
      (process panickyTree panickyPass).1 = .error (.aborted "kaboom") := by
  have hobject : Text.nameKey "object" = "object" := by decide +kernel
  constructor
  · have hready : heroPass.Ready heroTree := by
      refine .of_lookup_begin (by decide) (c := heroRoot) (p := heroPass)
        (?_ : heroStart.lookup heroTree = _)
      rw [Pass.lookup, Catalog.elementKind, show heroTree.tag = "object" from rfl, hobject]
      rfl
    have hpanic : heroPass.firstPanic? heroTree.children = none := by
      decide +kernel
    have hgathers := process_gathers hready rfl rfl rfl rfl rfl
    rw [hpanic] at hgathers
    exact ⟨hready, hpanic, hgathers, by decide +kernel, by decide +kernel, by decide +kernel⟩
  · have hready : panickyPass.Ready panickyTree := by
      refine .of_lookup_begin (by decide) (c := panickyRoot) (p := panickyPass)
        (?_ : panickyStart.lookup panickyTree = _)
      rw [Pass.lookup, Catalog.elementKind, show panickyTree.tag = "object" from rfl, hobject]
      rfl
    have hpanic : panickyPass.firstPanic? panickyTree.children = some (.text "kaboom") := by
      decide +kernel
    have haborted := process_gathers hready rfl rfl rfl rfl rfl
    rw [hpanic] at haborted
    exact ⟨hready, haborted⟩

end ObjectMarkup
