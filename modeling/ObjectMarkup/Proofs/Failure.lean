import ObjectMarkup.Proofs.Moments

/-!
# What an element fails with

An element that is processed can fail in three ways, and its error tells them apart. An attribute
can end it, with an error that is fatal; a hook that makes its value can, with an error that is
marked as one of constructing; and a panic can, with an error that tells of the panic. Other errors
do not get out of an element: `isFatal`, `constructionFailure` and `aborted` exclude each other.

`EndedByAttribute`, `EndedInConstruction` and `EndedByPanic` say what has happened in each case.
What the hooks have done is read from the moments of the element, so each of them says where the
run was broken off and not only what the error looks like. The phases are gone through in their
order: whatever ends the attributes is classified by `compileAttributes_error`, the visits end with
panics only (`visit_ending`), and `build_error` classifies the rest.

A document fails as its root does. Only a root that cannot be looked up has no construction that
could have failed, and then the document has an error of its own (`Compilation.FollowsRoot`).
-/

namespace ObjectMarkup

open Markup (Element NodeId)

/-- Errors that show a mistake in a kind. -/
theorem CompileError.isFatal_iff {e : CompileError} :
    e.isFatal = true ↔
      (∃ violation, e = .protocol violation) ∨ (∃ kind hook, e = .notImplemented kind hook) ∨
        e = .detached := by
  cases e <;> simp [CompileError.isFatal]

/-! ### How an element is ended -/

/-- Exactly one of three. -/
def ExactlyOne (a b c : Prop) : Prop :=
  (a ∧ ¬ b ∧ ¬ c) ∨ (¬ a ∧ b ∧ ¬ c) ∨ (¬ a ∧ ¬ b ∧ c)

/-- **Ended by an attribute.** The element `c` that begins in the pass `p` gets no further than to
one of its attributes. -/
structure EndedByAttribute (p : Pass) (e : Element) (c : Construction) (err : CompileError) :
    Prop where
  fatal : (∃ violation, err = .protocol violation) ∨
    (∃ kind hook, err = .notImplemented kind hook) ∨ err = .detached
  /-- The error is that of the first attribute, in the order of the document, that has failed
  fatally. -/
  first : ∃ before name raw after, e.attributes.entries = before ++ (name, raw) :: after ∧
    (∀ a ∈ before, (process e p).2.fatalAt a.1 (c.schema.typeOf a.1) a.2 = false) ∧
    (process e p).2.attributeError? name (c.schema.typeOf name) raw = some err
  /-- No hook of an element was called but the one before the attributes. -/
  hooks : ∀ node hook stop?, Moment.ofHook node hook stop? ∈ p.moments e →
    node = e ∧ hook = .beforeAttributes
  /-- No child was visited. -/
  children : ((process e p).2.constructions.get? e.id).map Construction.children = some c.children
  others : ∀ id, id ≠ e.id →
    (process e p).2.constructions.get? id = p.constructions.get? id

/-- **Ended in construction.** A hook that makes or finishes the value has ended with an error. It
is marked as one of constructing this element, unless it is so marked already. -/
def EndedInConstruction (p : Pass) (e : Element) (err : CompileError) : Prop :=
  ∃ hook source, (hook = .construct ∨ hook = .finish) ∧
    Moment.ofHook e hook (some (.error source)) ∈ p.moments e ∧
    (((∃ tag inner, source = .constructionFailure tag inner) ∧ err = source) ∨
      ((∀ tag inner, source ≠ .constructionFailure tag inner) ∧
        err = .constructionFailure e.tag source))

/-- A panic is raised while the element runs: in one of its hooks, or when it looks a child up. -/
def Pass.Raises (p : Pass) (e : Element) (c : Construction) (x : Panic) : Prop :=
  (∃ hook, Moment.ofHook e hook (some (.panic x)) ∈ p.moments e) ∨
    ∃ q, Hook.exec (compileAttributes c) p = (.ok (), q) ∧ q.firstPanic? e.children = some x

/-- **Ended by a panic.** -/
def EndedByPanic (p : Pass) (e : Element) (c : Construction) (err : CompileError) : Prop :=
  ∃ x : Panic, p.Raises e c x ∧ err = .aborted x.message

/-- The error of an element that was ended in construction is marked so. -/
theorem EndedInConstruction.marked {p : Pass} {e : Element} {err : CompileError}
    (h : EndedInConstruction p e err) : ∃ tag source, err = .constructionFailure tag source := by
  obtain ⟨hook, source, -, -, ⟨⟨tag, inner, rfl⟩, rfl⟩ | ⟨-, rfl⟩⟩ := h
  · exact ⟨tag, inner, rfl⟩
  · exact ⟨e.tag, source, rfl⟩

section Ended

variable {p : Pass} {e : Element} {c : Construction} {err : CompileError}

/-- The three ways exclude each other, since their errors differ. -/
theorem exactlyOne_of_ended (h : EndedByAttribute p e c err ∨ EndedInConstruction p e err ∨
      EndedByPanic p e c err) :
    ExactlyOne (EndedByAttribute p e c err) (EndedInConstruction p e err)
      (EndedByPanic p e c err) := by
  -- three kinds of errors that exclude each other: fatal, construction, aborted
  have hfatal : EndedByAttribute p e c err → err.isFatal = true := fun h =>
    CompileError.isFatal_iff.mpr h.fatal
  have hmarked : EndedInConstruction p e err →
      ∃ tag source, err = .constructionFailure tag source := EndedInConstruction.marked
  have haborted : EndedByPanic p e c err → ∃ text, err = .aborted text := fun ⟨_, _, h⟩ => ⟨_, h⟩
  rcases h with h | h | h
  · refine Or.inl ⟨h, fun h' => ?_, fun h' => ?_⟩
    · obtain ⟨tag, source, rfl⟩ := hmarked h'
      exact absurd (hfatal h) Bool.false_ne_true
    · obtain ⟨text, rfl⟩ := haborted h'
      exact absurd (hfatal h) Bool.false_ne_true
  · obtain ⟨tag, source, rfl⟩ := hmarked h
    refine Or.inr (Or.inl ⟨fun h' => absurd (hfatal h') Bool.false_ne_true, h, fun h' => ?_⟩)
    obtain ⟨text, heq⟩ := haborted h'
    cases heq
  · obtain ⟨text, rfl⟩ := haborted h
    refine Or.inr (Or.inr ⟨fun h' => absurd (hfatal h') Bool.false_ne_true, fun h' => ?_, h⟩)
    obtain ⟨tag, source, heq⟩ := hmarked h'
    cases heq

end Ended

/-! ### What ends the attributes -/

/-- An attribute ends the element only with its own fatal error, which can be read from any later
pass. -/
theorem compileAttribute_error {p q r : Pass} (hp : p.Sound) {c : Construction} {name raw : String}
    {ids : List NodeId} {stop : Stop}
    (hrun : Hook.exec (compileAttribute c name raw) p = (.error stop, r)) (hq : r.Advances ids q) :
    ∃ err, stop = .error err ∧ err.isFatal = true ∧
      q.attributeError? name (c.schema.typeOf name) raw = some err := by
  rw [exec_compileAttribute] at hrun
  by_cases hs : c.schema.typeOf name = "string"
  · -- a string does not stop an element, nor does an unknown type
    rw [if_pos hs] at hrun
    cases hrun
  rw [if_neg hs] at hrun
  cases hl : p.coercion name (c.schema.typeOf name) raw c.node.base with
  | error e => rw [hl] at hrun; cases hrun
  | ok kp =>
    obtain ⟨k, p'⟩ := kp
    have herror : (p'.coerce k).2.Advances ids q → _ := attributeError?_of_coerce hp hs hl
    rw [hl] at hrun
    simp only at hrun
    rcases hk : p'.coerce k with ⟨err | value, r'⟩
    · rw [hk] at hrun herror
      simp only at hrun
      split at hrun
      · next hf =>
        cases hrun
        exact ⟨err, rfl, hf, herror hq⟩
      · cases hrun
    · rw [hk] at hrun
      cases hrun

/-- **What ends a list of attributes** is the first one of them that fails fatally. -/
theorem compileEach_error {q : Pass} {c : Construction} {ids : List NodeId} {stop : Stop}
    (attributes : List (String × String)) {p r : Pass} (hp : p.Sound)
    (hrun : Hook.exec (compileEach c attributes) p = (.error stop, r)) (hq : r.Advances ids q) :
    ∃ err before name raw after, stop = .error err ∧ err.isFatal = true ∧
      attributes = before ++ (name, raw) :: after ∧
      (∀ a ∈ before, q.fatalAt a.1 (c.schema.typeOf a.1) a.2 = false) ∧
      q.attributeError? name (c.schema.typeOf name) raw = some err := by
  induction attributes generalizing p with
  | nil => cases hrun
  | cons a rest ih =>
    obtain ⟨name, raw⟩ := a
    rw [compileEach_cons] at hrun
    rcases hfirst : Hook.exec (compileAttribute c name raw) p with ⟨stop' | u, p₁⟩
    · -- it is the first one of the list
      rw [Hook.exec_bind_error hfirst] at hrun
      cases hrun
      obtain ⟨err, rfl, hfatal, herr⟩ := compileAttribute_error hp hfirst hq
      exact ⟨err, [], name, raw, rest, rfl, hfatal, rfl, fun _ h => absurd h List.not_mem_nil, herr⟩
    · rw [Hook.exec_bind_ok hfirst] at hrun
      have hlead := (leads_work c).compileAttribute name raw p hp
      rw [hfirst] at hlead
      obtain ⟨hp₁, -⟩ := hlead
      -- the first one has not failed fatally, and what is read of it does not change any more
      have hlater : p₁.Advances (c.node.id :: ids) q :=
        advances_of_compileEach hp₁ (by rw [hrun]; exact hq)
      have hseen : (Hook.exec (compileAttribute c name raw) p).2.Advances (c.node.id :: ids) q := by
        rw [hfirst]
        exact hlater
      have hpast : q.fatalAt name (c.schema.typeOf name) raw = false :=
        (diagnostics_compileAttribute hp hseen).2.mp (by rw [hfirst])
      obtain ⟨err, before, name', raw', after, hstop, hfatal, rfl, hbefore, herr⟩ := ih hp₁ hrun
      refine ⟨err, (name, raw) :: before, name', raw', after, hstop, hfatal, rfl, ?_, herr⟩
      intro a ha
      rcases List.mem_cons.mp ha with rfl | ha
      · exact hpast
      · exact hbefore a ha

/-- Attributes have moments of their own only. -/
theorem ofHook_not_mem_momentsOfEach (c : Construction) (attributes : List (String × String))
    (p : Pass) (node : Element) (hook : ElementHook) (stop? : Option Stop) :
    Moment.ofHook node hook stop? ∉ Pass.momentsOfEach c attributes p := by
  induction attributes generalizing p with
  | nil => exact List.not_mem_nil
  | cons a rest ih =>
    obtain ⟨name, raw⟩ := a
    rw [Pass.momentsOfEach, List.mem_append, not_or]
    refine ⟨fun h => ?_, fun h => ?_⟩
    · -- each attribute has moments of attributes only
      unfold Pass.momentsOfAttribute at h
      split at h
      · cases h
      · split at h
        · cases h
        · cases List.mem_singleton.mp h
    · unfold continued at h
      split at h
      · exact ih _ h
      · cases h

/-- What ends everything before the children: a hook panics, or an attribute has failed fatally, and
then no other hook was called than the one before the attributes. -/
theorem compileAttributes_error {p q r : Pass} (hp : p.Sound) {c : Construction}
    {ids : List NodeId} {stop : Stop}
    (hrun : Hook.exec (compileAttributes c) p = (.error stop, r)) (hq : r.Advances ids q) :
    (∃ x hook, stop = .panic x ∧ Moment.ofHook c.node hook (some stop) ∈ p.momentsFirst c) ∨
      ((∃ err before name raw after, stop = .error err ∧ err.isFatal = true ∧
          c.node.attributes.entries = before ++ (name, raw) :: after ∧
          (∀ a ∈ before, q.fatalAt a.1 (c.schema.typeOf a.1) a.2 = false) ∧
          q.attributeError? name (c.schema.typeOf name) raw = some err) ∧
        ∀ node hook stop?, Moment.ofHook node hook stop? ∈ p.momentsFirst c →
          node = c.node ∧ hook = .beforeAttributes) := by
  rw [exec_compileAttributes] at hrun
  simp only [Pass.momentsFirst, exec_orStop, exec_callForElement]
  rcases hbefore : Hook.exec (c.kind.beforeAttributes (p.view c)) (p.bench c) with ⟨x | u, bench⟩
  · -- a panic in the first hook, then an attribute, then a panic in the last hook
    rw [hbefore] at hrun
    cases hrun
    exact Or.inl ⟨x, .beforeAttributes, rfl, List.mem_append_left _ List.mem_cons_self⟩
  rw [hbefore] at hrun
  simp only [Hook.mapError_ok, continued_ok] at hrun ⊢
  have hp₁ := (Pass.leads_leave p c .beforeAttributes bench hp).1
  generalize p.leave c .beforeAttributes bench = p₁ at hrun hp₁ ⊢
  rcases heach : Hook.exec (compileEach c c.node.attributes.entries) p₁ with ⟨stop' | u', p₂⟩
  · rw [heach] at hrun
    cases hrun
    refine Or.inr ⟨compileEach_error _ hp₁ heach hq, fun node hook stop? hmem => ?_⟩
    rw [continued_error, List.append_nil, List.mem_append] at hmem
    rcases hmem with hmem | hmem
    · cases List.mem_singleton.mp hmem
      exact ⟨rfl, rfl⟩
    · exact absurd hmem (ofHook_not_mem_momentsOfEach _ _ _ _ _ _)
  · rw [heach] at hrun
    simp only [continued_ok] at hrun ⊢
    rcases hafter : Hook.exec (c.kind.afterAttributes (p₂.view c)) (p₂.bench c)
      with ⟨x | u₂, bench'⟩
    · rw [hafter] at hrun
      cases hrun
      refine Or.inl ⟨x, .afterAttributes, rfl, List.mem_append_right _ ?_⟩
      exact List.mem_append_right _ List.mem_cons_self
    · rw [hafter] at hrun
      cases hrun

/-! ### What ends the construction -/

/-- What ends everything after the children is what one of the two hooks has ended with. -/
theorem build_error {p r : Pass} {c : Construction} {stop : Stop}
    (hrun : Hook.exec (build c) p = (.error stop, r)) :
    ∃ hook source, (hook = .construct ∨ hook = .finish) ∧
      stop = Stop.inConstruction c.node.tag source ∧
      Moment.ofHook c.node hook (some source) ∈ p.momentsLast c := by
  rw [exec_build] at hrun
  rw [Pass.momentsLast]
  rcases hmade : Hook.exec (c.kind.construct (p.view c)) (p.bench c) with ⟨source | value, bench⟩
  · -- either of the two hooks may fail, and what it fails with is marked
    rw [hmade] at hrun
    cases hrun
    exact ⟨.construct, source, Or.inl rfl, rfl, List.mem_cons_self⟩
  · rw [hmade] at hrun
    simp only at hrun ⊢
    generalize (p.leave c .construct bench).assignTo c value = q at hrun ⊢
    rcases hfinish : Hook.exec (c.kind.finish (q.view c) value) (q.bench c) with ⟨source | v, b⟩
    · rw [hfinish] at hrun
      cases hrun
      exact ⟨.finish, source, Or.inr rfl, rfl, List.mem_cons_of_mem _ List.mem_cons_self⟩
    · rw [hfinish] at hrun
      cases hrun

/-- Marking an error as one of constructing changes it, or leaves one that is marked as it is. -/
theorem CompileError.inConstruction_cases (tag : String) (source : CompileError) :
    ((∃ tag' inner, source = .constructionFailure tag' inner) ∧
        source.inConstruction tag = source) ∨
      ((∀ tag' inner, source ≠ .constructionFailure tag' inner) ∧
        source.inConstruction tag = .constructionFailure tag source) := by
  cases source with
  | constructionFailure tag' inner => exact Or.inl ⟨⟨tag', inner, rfl⟩, rfl⟩
  | _ => exact Or.inr ⟨fun _ _ h => (by cases h), rfl⟩

/-! ### Elements -/

section Element

variable {p : Pass} {e : Element} {c : Construction} {err : CompileError}

/-- An element that is ended before its children. -/
theorem ended_of_compileAttributes (h : p.Ready e) (hc : p.constructions.get? e.id = some c)
    (hopen : c.outcome? = none) (hlive : p.released = false) (hnode : c.node = e) {stop : Stop}
    {r : Pass} (hrun : Hook.exec (compileAttributes c) p = (.error stop, r))
    (herr : (process e p).1 = .error err) :
    EndedByAttribute p e c err ∨ EndedByPanic p e c err := by
  have hmoments : p.moments e = p.momentsFirst c := by
    rw [moments_run hc hopen hlive, hrun, continued_error, List.append_nil]
  have hlead := (leads_work c).compileAttributes p h.sound
  have hprogress := (keepsProgress_work c).compileAttributes p e.id
  rw [hrun, hnode] at hlead
  rw [hrun, hc] at hprogress
  have hprocess : process e p = (contain (.error stop), r.settle e.id (contain (.error stop))) := by
    have hphases : Hook.exec (phases c e.id e.children) p = (.error stop, r) := by
      unfold phases
      exact Hook.exec_bind_error hrun _
    rw [process_run hc hopen hlive, hphases]
  obtain ⟨-, hsettle⟩ := Pass.leads_settle r e.id (contain (.error stop)) hlead.1
  rcases compileAttributes_error h.sound hrun hsettle with
    ⟨x, hook, rfl, hmem⟩ | ⟨⟨err', before, name, raw, after, rfl, hfatal, hentries, hpast, hat⟩,
      hhooks⟩
  · refine Or.inr ⟨x, Or.inl ⟨hook, ?_⟩, ?_⟩
    · rw [hmoments, ← hnode]
      exact hmem
    · rw [hprocess] at herr
      cases herr
      rfl
  · -- a fatal error passes on unchanged
    have hsame : err' = err := by
      rw [hprocess] at herr
      cases herr
      rfl
    subst hsame
    have hfinal : (process e p).2 = r.settle e.id (contain (.error (.error err'))) := by
      rw [hprocess]
    refine Or.inl ⟨CompileError.isFatal_iff.mp hfatal, ?_, ?_, ?_, ?_⟩
    · rw [hfinal]
      exact ⟨before, name, raw, after, hnode ▸ hentries, hpast, hat⟩
    · rw [hmoments, ← hnode]
      exact hhooks
    · -- settling leaves the children alone
      obtain ⟨c', hc', hsame⟩ := Option.map_eq_some_iff.mp hprogress
      rw [hfinal, Pass.settle, Pass.modifyConstruction, OrderedMap.get?_modify_self, hc',
        Option.map_some, Option.map_some]
      exact congrArg some (congrArg Prod.fst hsame)
    · intro id hid
      rw [hfinal, hsettle.others id (by simpa using hid), hlead.2.others id (by simpa using hid)]

/-- An element that gets past its children is ended by one of the two hooks that come then. -/
theorem ended_of_build (hnode : c.node = e) {r : Pass}
    (hmoments : ∀ m ∈ r.momentsLast c, m ∈ p.moments e)
    (hcontain : contain (Hook.exec (build c) r).1 = .error err) :
    EndedInConstruction p e err ∨ EndedByPanic p e c err := by
  rcases hbuild : Hook.exec (build c) r with ⟨stop | value, s⟩
  · obtain ⟨hook, source, hhook, rfl, hmem⟩ := build_error hbuild
    have hmem := hmoments _ hmem
    rw [hbuild] at hcontain
    rw [hnode] at hmem hcontain
    -- a panic is an abortion here as well, an error is wrapped once
    cases source with
    | panic x =>
      cases hcontain
      exact Or.inr ⟨x, Or.inl ⟨hook, hmem⟩, rfl⟩
    | error source =>
      cases hcontain
      exact Or.inl ⟨hook, source, hhook, hmem, source.inConstruction_cases e.tag⟩
  · rw [hbuild] at hcontain
    cases hcontain

/-- An element that gets to its children is ended by a panic, or in construction. -/
theorem ended_of_children (h : p.Ready e) (hc : p.constructions.get? e.id = some c)
    (hopen : c.outcome? = none) (hlive : p.released = false) (hnode : c.node = e) {q : Pass}
    (hrun : Hook.exec (compileAttributes c) p = (.ok (), q))
    (herr : (process e p).1 = .error err) :
    EndedInConstruction p e err ∨ EndedByPanic p e c err := by
  have hlead := (leads_work c).compileAttributes p h.sound
  rw [hrun, hnode] at hlead
  have hready := (h.advance hlead.1 hlead.2).children
  have hending := visit_ending e.children hready
  have hphases : Hook.exec (phases c e.id e.children) p
      = Hook.exec (do visit e.id e.children; build c) q := by
    unfold phases
    exact Hook.exec_bind_ok hrun _
  have hcontain : contain (Hook.exec (do visit e.id e.children; build c) q).1 = .error err := by
    rw [← hphases, ← herr, process_run hc hopen hlive]
  cases hx : q.firstPanic? e.children with
  | some x =>
    -- the first look-up that panics ends the visits, and with them the element
    rw [hx] at hending
    have hvisit : Hook.exec (visit e.id e.children) q
        = (.error (.panic x), (Hook.exec (visit e.id e.children) q).2) := Prod.ext hending rfl
    rw [Hook.exec_bind_error hvisit] at hcontain
    cases hcontain
    exact Or.inr ⟨x, Or.inr ⟨q, hrun, hx⟩, rfl⟩
  | none =>
    rw [hx] at hending
    -- no child stops the element, so it is stopped when its value is made
    have hvisit : Hook.exec (visit e.id e.children) q
        = (.ok (), (Hook.exec (visit e.id e.children) q).2) := Prod.ext hending rfl
    rw [Hook.exec_bind_ok hvisit] at hcontain
    have hmoments : ∀ m ∈ (Hook.exec (visit e.id e.children) q).2.momentsLast c,
        m ∈ p.moments e := by
      intro m hm
      rw [moments_run hc hopen hlive, hrun, continued_ok]
      refine List.mem_append_right _ (List.mem_append_right _ ?_)
      rw [hvisit]
      exact hm
    exact ended_of_build hnode hmoments hcontain

/-- **How an element fails.** One that was processed in a live pass and has failed was ended in
exactly one of the three ways. -/
theorem exactlyOne_ended (h : p.Ready e) (hc : p.constructions.get? e.id = some c)
    (hopen : c.outcome? = none) (hlive : p.released = false)
    (herr : (process e p).1 = .error err) :
    ExactlyOne (EndedByAttribute p e c err) (EndedInConstruction p e err)
      (EndedByPanic p e c err) := by
  obtain ⟨c', hc', hnode⟩ := h.construction
  rw [hc] at hc'
  cases hc'
  apply exactlyOne_of_ended
  -- stopped by the attributes, or behind them
  rcases hrun : Hook.exec (compileAttributes c) p with ⟨stop | u, q⟩
  · rcases ended_of_compileAttributes h hc hopen hlive hnode hrun herr with h | h
    · exact Or.inl h
    · exact Or.inr (Or.inr h)
  · exact Or.inr (ended_of_children h hc hopen hlive hnode hrun herr)

end Element

/-! ### Documents -/

/-- **A document ends as its root does.** The document `c` has not been processed. -/
structure Compilation.FollowsRoot (c : Compilation) : Prop where
  /-- A root that is found has the outcome of the document, and so all that is seen of it. -/
  found : ∀ k p, c.pass.lookup c.document.root = .ok (k, p) →
    c.process.1 = (ObjectMarkup.process c.document.root p).1 ∧
      c.process.2.root = some c.document.root.id ∧
      ∃ root, c.process.2.pass.constructions.get? c.document.root.id = some root ∧
        root.node = k.node ∧ root.outcome? = some c.process.1 ∧
        c.process.2.outcome? = root.outcome? ∧ c.process.2.status = root.status ∧
        c.process.2.result? = root.result? ∧ c.process.2.error? = root.error?
  /-- Without a root the document fails: the tag is unknown, or its kind panics. -/
  absent : ∀ stop, c.pass.lookup c.document.root = .error stop →
    c.process.2.root = none ∧ c.process.2.status = .failed ∧
      ((c.pass.environment.catalog.knows c.document.root = false ∧
          c.process.2.error? = some (.unresolved .tag c.document.root.tag)) ∨
        ∃ kind x, c.pass.environment.catalog.elementKind c.document.root.tag = .ok kind ∧
          kind.define c.document.root = .error x ∧
          c.process.2.error? = some (.aborted x.message))
  /-- Who asks again gets the same. -/
  again : c.process.2.process = c.process

theorem Compilation.followsRoot {c : Compilation} (hp : c.pass.Sound) (hopen : c.outcome? = none) :
    c.FollowsRoot := by
  have hprocess : c.process = ((processRoot c.pass c.document.root).1,
      { c with
        pass := (processRoot c.pass c.document.root).2.1
        root := (processRoot c.pass c.document.root).2.2
        outcome? := some (processRoot c.pass c.document.root).1 }) := by
    rw [Compilation.process, hopen]
  refine ⟨fun k p hl => ?_, fun stop hl => ?_, ?_⟩
  · have hroot : processRoot c.pass c.document.root
        = ((ObjectMarkup.process c.document.root p).1, (ObjectMarkup.process c.document.root p).2,
          some c.document.root.id) := by
      rw [processRoot, hl]
    -- the document and its root read status, value and error off the outcome in one way
    obtain ⟨⟨node, kind, schema, values, children, outcome?⟩, hget, hb, ho⟩ :=
      process_settles (Pass.leads_lookup hl hp).1 (get?_of_lookup hl)
    obtain rfl : outcome? = some _ := ho
    rw [hprocess, hroot]
    exact ⟨rfl, rfl, _, hget, hb.node, rfl, rfl, rfl, rfl, rfl⟩
  · have hroot : processRoot c.pass c.document.root = (contain (.error stop), c.pass, none) := by
      rw [processRoot, hl]
    rw [hprocess, hroot]
    obtain ⟨-, ⟨e, he, rfl⟩ | ⟨kind, x, hkind, hdefine, rfl⟩⟩ := lookup_eq_error_iff.mp hl
    · refine ⟨rfl, rfl, Or.inl ⟨not_knows_of_lookup_error hl, ?_⟩⟩
      rw [← elementKind_eq_error he]
      rfl
    · exact ⟨rfl, rfl, Or.inr ⟨kind, x, hkind, hdefine, rfl⟩⟩
  · rw [hprocess, Compilation.process]

/-! ### Failures -/

/-- An element whose pass was given up before it began. -/
structure TooLate (p : Pass) (e : Element) : Prop where
  outcome : (process e p).1 = .error .detached
  /-- Nothing happens but that the element is settled. -/
  pass : (process e p).2 = p.settle e.id (.error .detached)
  moments : p.moments e = []
  /-- Who asks again gets the same. -/
  again : process e (process e p).2 = process e p

theorem tooLate {p : Pass} {e : Element} {c : Construction}
    (hc : p.constructions.get? e.id = some c) (hopen : c.outcome? = none)
    (hlate : p.released = true) : TooLate p e := by
  have hprocess := process_released hc hopen hlate
  refine ⟨by rw [hprocess], by rw [hprocess], ?_, ?_⟩
  · exact moments_done hc (by rw [hlate, Bool.or_true])
  · have hsettled : (p.settle e.id (.error .detached)).constructions.get? e.id
        = some { c with outcome? := some (.error .detached) } := by
      rw [Pass.settle, Pass.modifyConstruction, OrderedMap.get?_modify_self, hc, Option.map_some]
    rw [hprocess]
    exact process_settled hsettled rfl

/-- **What failures look like**, of elements in a live pass, of documents, and of elements whose
pass was given up. -/
theorem failures_classified :
    (∀ (p : Pass) (e : Element) (c : Construction) (err : CompileError), p.Ready e →
      p.constructions.get? e.id = some c → c.outcome? = none → p.released = false →
      (process e p).1 = .error err →
        ExactlyOne (EndedByAttribute p e c err) (EndedInConstruction p e err)
          (EndedByPanic p e c err)) ∧
    (∀ c : Compilation, c.pass.Sound → c.outcome? = none → c.FollowsRoot) ∧
    ∀ (p : Pass) (e : Element) (c : Construction), p.constructions.get? e.id = some c →
      c.outcome? = none → p.released = true → TooLate p e := by
  refine ⟨?_, ?_, ?_⟩
  · intro p e c err h hc hopen hlive herr
    exact exactlyOne_ended h hc hopen hlive herr
  · intro c hp hopen
    exact Compilation.followsRoot hp hopen
  · intro p e c hc hopen hlate
    exact tooLate hc hopen hlate

/-- A kind that has no value to give. -/
def broken : ElementKind where
  name := "broken"
  construct _ := throw (.error (.message "no canvas"))

/-- An element of that kind. -/
def brokenTree : Element :=
  (Markup.Draft.build none 0 (.leaf "broken")).1

/-- The element as it was looked up. -/
def brokenRoot : Construction :=
  ⟨brokenTree, broken, .empty, .empty, [], none⟩

/-- The document of the element, before it is processed. -/
def brokenDocument : Compilation :=
  .begin ⟨.empty, ⟨.ofList [("broken", broken)], .empty⟩⟩
    ⟨brokenTree, none⟩ none none .empty

/-- The pass of the document, when the element was looked up. -/
def brokenPass : Pass :=
  { brokenDocument.pass with constructions := OrderedMap.empty.insert brokenTree.id brokenRoot }

/-- The error of a hook that makes the value is marked, and it is the error of the document. In a
pass that was given up the element is too late. -/
theorem failures_classified_broken :
    EndedInConstruction brokenPass brokenTree
        (.constructionFailure "broken" (.message "no canvas")) ∧
      brokenDocument.process.2.error?
        = some (.constructionFailure "broken" (.message "no canvas")) ∧
      TooLate brokenPass.release brokenTree := by
  have hlookup : brokenDocument.pass.lookup brokenTree = .ok (brokenRoot, brokenPass) := by
    have hkey : Text.nameKey brokenTree.tag = "broken" := by decide +kernel
    rw [Pass.lookup, Catalog.elementKind, hkey]
    rfl
  have hready : brokenPass.Ready brokenTree := .of_lookup_begin (by decide) hlookup
  have herr : (process brokenTree brokenPass).1
      = .error (.constructionFailure "broken" (.message "no canvas")) := rfl
  obtain ⟨helement, hdocument, hlate⟩ := failures_classified
  have hroot : brokenPass.constructions.get? brokenTree.id = some brokenRoot :=
    get?_of_lookup hlookup
  refine ⟨?_, ?_, hlate brokenPass.release brokenTree brokenRoot hroot rfl rfl⟩
  · -- of the three endings only the second one has this error
    rcases helement _ _ _ _ hready hroot rfl rfl herr with h | h | h
    · rcases h.1.fatal with ⟨_, h⟩ | ⟨_, _, h⟩ | h <;> cases h
    · exact h.2.1
    · obtain ⟨x, -, h⟩ := h.2.2
      cases h
  · obtain ⟨houtcome, -, root, -, -, ho, -, -, -, hsame⟩ :=
      (hdocument brokenDocument (.initial _ _ _) rfl).found _ _ hlookup
    have hdocumentRoot : brokenDocument.document.root = brokenTree := rfl
    rw [hsame, Construction.error?, ho, houtcome, hdocumentRoot, herr]

end ObjectMarkup
