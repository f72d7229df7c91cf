import ObjectMarkup.Proofs.HookRun

/-!
# The phases of an element

What each phase of processing does to a pass, as one equation: `exec_compileAttribute` for an
attribute, `exec_visit_cons` for a child, `process_eq` for an element as a whole. They say how the
phases are put together and leave the hooks alone; of a hook it is only said that it sees the
records and the values of its own element (`exec_callForElement`) or the records alone
(`exec_callForAttribute`). `KeptByWork` lists the small steps that a relation between passes has to
be kept by, so that the phases of an element keep it.
-/

namespace ObjectMarkup

open Markup (Element NodeId)

/-! ### Calls of hooks -/

@[simp] theorem exec_orStop {σ α : Type} (h : Hook σ Panic α) (s : σ) :
    Hook.exec (orStop h) s = ((Hook.exec h s).1.mapError Stop.panic, (Hook.exec h s).2) := rfl

/-- A hook of an attribute changes the records, and that it was called is remembered. -/
theorem exec_callForAttribute {ε α : Type} (c : Coercion) (hook : AttributeHook)
    (h : Hook Store ε α) (p : Pass) :
    Hook.exec (callForAttribute c hook h) p
      = ((Hook.exec h p.store).1,
          { p.remember (.attribute hook c.key) c.kind.noted with
            store := (Hook.exec h p.store).2 }) := rfl

/-- The pass that a hook of an element leaves behind with its bench. -/
def Pass.leave (p : Pass) (c : Construction) (hook : ElementHook) (bench : Bench) : Pass :=
  { p.remember (.element hook c.node.id c.node.tag) c.kind.noted with store := bench.store }.setValues
    c.node.id bench.values

/-- What a hook of an element finds on its bench. -/
def Pass.bench (p : Pass) (c : Construction) : Bench :=
  ⟨p.store, p.values c.node.id⟩

/-- A hook of an element changes the records and the values of the element, and that it was called
is remembered. -/
theorem exec_callForElement {ε α : Type} (c : Construction) (hook : ElementHook)
    (h : Hook Bench ε α) (p : Pass) :
    Hook.exec (callForElement c hook h) p
      = ((Hook.exec h (p.bench c)).1, p.leave c hook (Hook.exec h (p.bench c)).2) := rfl

/-! ### Attributes -/

/-- All hooks of an attribute, on the records alone. -/
def Coercion.hooks (c : Coercion) (e : Environment) : Hook Store Stop Value := do
  orStop (c.kind.before (c.view e))
  let value ← c.kind.construct (c.view e)
  c.kind.finish (c.view e) value

/-- The hooks of an attribute change the records, and that they were called is remembered. -/
theorem exec_makeValue (c : Coercion) (p : Pass) :
    ∃ calls, Hook.exec (makeValue c) p
      = ((Hook.exec (c.hooks p.environment) p.store).1,
          { p with store := (Hook.exec (c.hooks p.environment) p.store).2, calls := calls }) := by
  unfold makeValue Coercion.hooks
  rw [Hook.exec_bind_ok (Hook.exec_get p), Hook.exec_bind, Hook.exec_bind, exec_orStop, exec_orStop,
    exec_callForAttribute]
  -- each hook that fails ends the run with what the ones before it logged
  rcases Hook.exec (c.kind.before (c.view p.environment)) p.store with ⟨x | u, s⟩
  · exact ⟨_, rfl⟩
  · simp only [Hook.mapError_ok]
    rw [Hook.exec_bind, Hook.exec_bind, exec_callForAttribute]
    simp only
    rcases Hook.exec (c.kind.construct (c.view p.environment)) s with ⟨stop | value, s'⟩
    · exact ⟨_, rfl⟩
    · exact ⟨_, rfl⟩

/-- An attribute of a string type is copied; any other one is coerced, and its failure is fatal or
reported. -/
theorem exec_compileAttribute (c : Construction) (name raw : String) (p : Pass) :
    Hook.exec (compileAttribute c name raw) p =
      if c.schema.typeOf name = "string" then (.ok (), p.setValue c.node.id name (.string raw))
      else
        match p.coercion name (c.schema.typeOf name) raw c.node.base with
        | .error e => (.ok (), p.report ⟨c.node.id, c.node.tag, some name, e⟩)
        | .ok (k, p') =>
          match p'.coerce k with
          | (.ok value, q) => (.ok (), q.setValue c.node.id name value)
          | (.error e, q) =>
            if e.isFatal then (.error (.error e), q)
            else (.ok (), q.report ⟨c.node.id, c.node.tag, some name, e⟩) := by
  unfold compileAttribute
  -- plain text is stored as it is written, without a compiler
  by_cases hs : c.schema.typeOf name = "string"
  · simp only [if_pos hs, Hook.exec_modify]
  · simp only [if_neg hs]
    rw [Hook.exec_bind_ok (Hook.exec_get p)]
    cases p.coercion name (c.schema.typeOf name) raw c.node.base with
    | error e => rfl
    | ok kp =>
      obtain ⟨k, p'⟩ := kp
      simp only
      -- the one failure that stops the element is the fatal one
      cases p'.coerce k with
      | mk outcome q =>
        simp only
        rw [Hook.exec_bind_ok (Hook.exec_set p q)]
        cases outcome with
        | ok value => rfl
        | error e =>
          simp only
          split <;> rfl

/-- The attribute phase up to the hook after it, without the latter. -/
def compileEach (c : Construction) (attributes : List (String × String)) : Step Unit :=
  attributes.forM fun (name, raw) => compileAttribute c name raw

/-- Everything before the children: a hook, the attributes, a hook. -/
theorem compileAttributes_eq (c : Construction) :
    compileAttributes c = (do
      orStop (callForElement c .beforeAttributes (c.kind.beforeAttributes ((← get).view c)))
      compileEach c c.node.attributes.entries
      orStop (callForElement c .afterAttributes (c.kind.afterAttributes ((← get).view c)))) := rfl

/-- Each of the three is begun only if those before it have ended. -/
theorem exec_compileAttributes (c : Construction) (p : Pass) :
    Hook.exec (compileAttributes c) p =
      match Hook.exec (c.kind.beforeAttributes (p.view c)) (p.bench c) with
      | (.error x, bench) => (.error (.panic x), p.leave c .beforeAttributes bench)
      | (.ok _, bench) =>
        match Hook.exec (compileEach c c.node.attributes.entries)
          (p.leave c .beforeAttributes bench) with
        | (.error stop, q) => (.error stop, q)
        | (.ok _, q) =>
          let run := Hook.exec (c.kind.afterAttributes (q.view c)) (q.bench c)
          (run.1.mapError Stop.panic, q.leave c .afterAttributes run.2) := by
  rw [compileAttributes_eq, Hook.exec_bind_ok (Hook.exec_get p), Hook.exec_bind, exec_orStop,
    exec_callForElement]
  -- the attributes are compiled only when the first hook returned, the last hook only after all of
  -- them
  rcases Hook.exec (c.kind.beforeAttributes (p.view c)) (p.bench c) with ⟨x | u, bench⟩
  · rfl
  · simp only [Hook.mapError_ok]
    rw [Hook.exec_bind]
    rcases Hook.exec (compileEach c c.node.attributes.entries)
      (p.leave c .beforeAttributes bench) with ⟨stop | u, q⟩ <;> rfl

@[simp] theorem compileEach_nil (c : Construction) : compileEach c [] = pure () := rfl

theorem compileEach_cons (c : Construction) (name raw : String) (rest : List (String × String)) :
    compileEach c ((name, raw) :: rest) = (do compileAttribute c name raw; compileEach c rest) :=
  rfl

/-! ### Children -/

/-- Reports the outcome of a child, if it is a failure. -/
def Pass.reportOutcome (p : Pass) (child : Element) (outcome : Outcome Value) : Pass :=
  match outcome with
  | .error e => p.report ⟨child.id, child.tag, none, e⟩
  | .ok _ => p

/-- The visit to a child that was looked up: values are handed down to it, it is processed, and its
outcome is reported. -/
def visitFound (parent : NodeId) (child : Element) (p : Pass) : Pass :=
  let run := process child (p.handDown parent child.id)
  (run.2.reportOutcome child run.1).adopt parent child.id

@[simp] theorem exec_visit_nil (parent : NodeId) (p : Pass) :
    Hook.exec (visit parent []) p = (.ok (), p) := rfl

/-- A child is looked up. A panic in that ends the visits, any other failure is reported, and a child
that was found is processed and adopted. -/
theorem exec_visit_cons (parent : NodeId) (child : Element) (rest : List Element) (p : Pass) :
    Hook.exec (visit parent (child :: rest)) p =
      match p.lookup child with
      | .error (.panic x) => (.error (.panic x), p)
      | .error (.error e) =>
        Hook.exec (visit parent rest) (p.report ⟨child.id, child.tag, none, e⟩)
      | .ok (_, p') => Hook.exec (visit parent rest) (visitFound parent child p') := by
  rw [visit, Hook.exec_bind_ok (Hook.exec_get p)]
  -- a failed look-up is reported and the child skipped; a panic ends the walk
  cases hl : p.lookup child with
  | error stop =>
    cases stop with
    | error e => rfl
    | panic x => rfl
  | ok cp =>
    obtain ⟨c, p'⟩ := cp
    simp only [visitFound]
    cases hp : process child (p'.handDown parent child.id) with
    | mk outcome q =>
      cases outcome <;> rfl

/-! ### Values -/

/-- A stop of a hook that belongs to the construction of an element. -/
def Stop.inConstruction (tag : String) : Stop → Stop
  | .error e => .error (e.inConstruction tag)
  | .panic x => .panic x

@[simp] theorem exec_inConstruction {σ α : Type} (tag : String) (h : Hook σ Stop α) (s : σ) :
    Hook.exec (inConstruction tag h) s
      = ((Hook.exec h s).1.mapError (Stop.inConstruction tag), (Hook.exec h s).2) := rfl

/-- The pass when the value of an element was made: a record has got its properties. -/
def Pass.assignTo (p : Pass) (c : Construction) : Value → Pass
  | .record record => p.assign c record
  | _ => p

/-- The value of an element is made, gets its properties and is finished. -/
theorem exec_build (c : Construction) (p : Pass) :
    Hook.exec (build c) p =
      match Hook.exec (c.kind.construct (p.view c)) (p.bench c) with
      | (.error stop, bench) => (.error (stop.inConstruction c.node.tag), p.leave c .construct bench)
      | (.ok value, bench) =>
        let q := (p.leave c .construct bench).assignTo c value
        let run := Hook.exec (c.kind.finish (q.view c) value) (q.bench c)
        (run.1.mapError (Stop.inConstruction c.node.tag), q.leave c .finish run.2) := by
  unfold build
  rw [Hook.exec_bind_ok (Hook.exec_get p), Hook.exec_bind, exec_inConstruction, exec_callForElement]
  -- a stop of `construct` is wrapped once, and `finish` is then not called
  cases Hook.exec (c.kind.construct (p.view c)) (p.bench c) with
  | mk ending bench =>
    cases ending with
    | error stop => rfl
    | ok value => cases value <;> rfl

/-! ### What all work on an element keeps -/

/-- A relation that every single step of the work on an element keeps, apart from the visits to its
children. -/
structure KeptByWork (R : Pass → Pass → Prop) (c : Construction) : Prop where
  refl : ∀ p, R p p
  trans : ∀ p q r, R p q → R q r → R p r
  leave : ∀ p hook bench, R p (p.leave c hook bench)
  setValue : ∀ p name value, R p (p.setValue c.node.id name value)
  report : ∀ p d, R p (p.report d)
  coerce : ∀ {p p' : Pass} {k : Coercion} {name type raw : String} {base : Option Locator},
    p.coercion name type raw base = .ok (k, p') → R p (p'.coerce k).2
  assignTo : ∀ p value, R p (p.assignTo c value)

namespace KeptByWork

variable {R : Pass → Pass → Prop} {c : Construction}

theorem compileAttribute (hR : KeptByWork R c) (name raw : String) :
    Hook.Keeps R (compileAttribute c name raw) := by
  intro p
  rw [exec_compileAttribute]
  split
  · exact hR.setValue _ _ _
  · split
    · exact hR.report _ _
    · next k p' hk =>
      -- the shared compiler was asked in every case, so its step is taken before the split
      have hcoerce := hR.coerce hk
      cases hr : p'.coerce k with
      | mk outcome q =>
        rw [hr] at hcoerce
        cases outcome with
        | ok value => exact hR.trans _ _ _ hcoerce (hR.setValue _ _ _)
        | error e =>
          simp only
          split
          · exact hcoerce
          · exact hR.trans _ _ _ hcoerce (hR.report _ _)

theorem compileEach (hR : KeptByWork R c) (attributes : List (String × String)) :
    Hook.Keeps R (compileEach c attributes) :=
  Hook.Keeps.forM hR.refl hR.trans (fun (name, raw) => hR.compileAttribute name raw) attributes

theorem compileAttributes (hR : KeptByWork R c) : Hook.Keeps R (compileAttributes c) := by
  have hget : Hook.Keeps R (get : Step Pass) := Hook.Keeps.get hR.refl
  have hcall (hook : ElementHook) (h : Hook Bench Panic Unit) :
      Hook.Keeps R (orStop (callForElement c hook h)) :=
    Hook.Keeps.adapt (fun p => hR.leave p hook _) _
  rw [compileAttributes_eq]
  refine Hook.Keeps.bind hR.trans hget fun _ => Hook.Keeps.bind hR.trans (hcall _ _) fun _ => ?_
  refine Hook.Keeps.bind hR.trans (hR.compileEach _) fun _ => ?_
  exact Hook.Keeps.bind hR.trans hget fun _ => hcall _ _

theorem build (hR : KeptByWork R c) : Hook.Keeps R (build c) := by
  intro p
  rw [exec_build]
  rcases Hook.exec (c.kind.construct (p.view c)) (p.bench c) with ⟨stop | value, bench⟩
  · exact hR.leave p _ _
  · refine hR.trans _ _ _ (hR.leave p .construct bench) ?_
    exact hR.trans _ _ _ (hR.assignTo _ _) (hR.leave _ _ _)

end KeptByWork

/-! ### Elements -/

def phases (c : Construction) (id : NodeId) (children : List Element) : Step Value := do
  compileAttributes c
  visit id children
  build c

/-- An element is found by its number, and one without an outcome goes through its phases, unless the
pass was given up. -/
theorem process_eq (e : Element) (p : Pass) :
    process e p =
      match p.constructions.get? e.id with
      | none => (.error .detached, p)
      | some c =>
        match c.outcome? with
        | some outcome => (outcome, p)
        | none =>
          if p.released then (.error .detached, p.settle e.id (.error .detached))
          else
            let run := Hook.exec (phases c e.id e.children) p
            (contain run.1, run.2.settle e.id (contain run.1)) := by
  obtain ⟨id, tag, attributes, children, base⟩ := e
  -- the parts of the element are taken apart because `process` recurses on its children
  rw [process]
  rfl

section Process

variable {e : Element} {p : Pass} {c : Construction}

theorem process_absent (h : p.constructions.get? e.id = none) :
    process e p = (.error .detached, p) := by
  rw [process_eq, h]

theorem process_settled {outcome : Outcome Value} (h : p.constructions.get? e.id = some c)
    (ho : c.outcome? = some outcome) : process e p = (outcome, p) := by
  rw [process_eq, h]
  simp only [ho]

theorem process_released (h : p.constructions.get? e.id = some c) (ho : c.outcome? = none)
    (hr : p.released = true) :
    process e p = (.error .detached, p.settle e.id (.error .detached)) := by
  rw [process_eq, h]
  simp only [ho, hr, if_true]

theorem process_run (h : p.constructions.get? e.id = some c) (ho : c.outcome? = none)
    (hr : p.released = false) :
    process e p =
      (contain (Hook.exec (phases c e.id e.children) p).1,
        (Hook.exec (phases c e.id e.children) p).2.settle e.id
          (contain (Hook.exec (phases c e.id e.children) p).1)) := by
  rw [process_eq, h]
  simp only [ho, hr, Bool.false_eq_true, if_false]

end Process

end ObjectMarkup
