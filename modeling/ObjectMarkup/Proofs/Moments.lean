import ObjectMarkup.Proofs.Containment

/-!
# The course of a compile, moment by moment

A trace lists hooks that were called, but it does not say how they ended, and an attribute whose
value was there already leaves no mark in it. So the course of a compile is told by `Moment`s: a hook
of an element is called and ends, or an attribute gets its outcome, for which hooks are called or
not. `Pass.moments` tells the moments of an element in the pass in which it begins. Each of them is
taken from the run itself: how a hook has ended is how it ends on the bench that it finds.

`Pass.Tells` says that moments are a true account of the way from one pass to another: the calls in
the trace are theirs (`Moment.calls`), and the coercions of the pass are those that were asked for
(`Recorded`). An account is put together from those of single steps (`Hook.Tells.bind`), and the one
of a whole element is `tells_process`. Along the way every key is followed: `OncePerKey` says that
hooks are called for it when it is asked for first, and never again.
-/

namespace ObjectMarkup

open Markup (Element NodeId Document)

/-- Something that happens in the work on an element. -/
inductive Moment where
  /-- A hook of an element is called, and ends early or not. -/
  | ofHook (node : Element) (hook : ElementHook) (stop? : Option Stop)
  /-- An attribute of an element gets its outcome, after hooks were called for it. -/
  | ofAttribute (node : Element) (key : AttributeKey) (hooks : List AttributeHook)
      (outcome : Outcome Value)

namespace Moment

/-- The calls of hooks at a moment. -/
def calls : Moment → List HookCall
  | ofHook node hook _ => [.element hook node.id node.tag]
  | ofAttribute _ key hooks _ => hooks.map (.attribute · key)

/-- The key that an outcome is asked for. -/
def key? : Moment → Option AttributeKey
  | ofHook _ _ _ => none
  | ofAttribute _ key _ _ => some key

end Moment

/-- The calls at moments, one after the other. -/
def callsAt (ms : List Moment) : List HookCall :=
  ms.flatMap Moment.calls

@[simp] theorem callsAt_nil : callsAt [] = [] := rfl

@[simp] theorem callsAt_cons (m : Moment) (ms : List Moment) :
    callsAt (m :: ms) = m.calls ++ callsAt ms :=
  List.flatMap_cons

@[simp] theorem callsAt_append (ms ms' : List Moment) :
    callsAt (ms ++ ms') = callsAt ms ++ callsAt ms' :=
  List.flatMap_append

/-! ### The moments of an element -/

/-- Why a run has ended early, if it has. -/
def stopOf? {α : Type} : Except Stop α → Option Stop
  | .ok _ => none
  | .error stop => some stop

/-- The moments after a run, which there are only if it has ended with a value. -/
def continued {α : Type} (run : Except Stop α × Pass) (next : Pass → List Moment) : List Moment :=
  match run with
  | (.ok _, q) => next q
  | (.error _, _) => []

@[simp] theorem continued_ok {α : Type} (a : α) (q : Pass) (next : Pass → List Moment) :
    continued (.ok a, q) next = next q := rfl

@[simp] theorem continued_error {α : Type} (stop : Stop) (q : Pass) (next : Pass → List Moment) :
    continued ((.error stop, q) : Except Stop α × Pass) next = [] := rfl

/-- The hooks that are called for an attribute: each one only if those before it have ended with a
value. -/
def Coercion.called (k : Coercion) (e : Environment) (s : Store) : List AttributeHook :=
  match Hook.exec (k.kind.before (k.view e)) s with
  | (.error _, _) => [.before]
  | (.ok _, s) =>
    match Hook.exec (k.kind.construct (k.view e)) s with
    | (.error _, _) => [.before, .construct]
    | (.ok _, _) => [.before, .construct, .finish]

namespace Pass

/-- The hooks that are called when a coercion is asked for its outcome: none if it has one. -/
def calledFor (p : Pass) (k : Coercion) : List AttributeHook :=
  match (p.currentCoercion k).outcome? with
  | some _ => []
  | none => (p.currentCoercion k).called p.environment p.store

/-- The moment of an attribute. A string has none, and neither has an attribute whose type is not
registered: no outcome is asked for. -/
def momentsOfAttribute (p : Pass) (c : Construction) (name raw : String) : List Moment :=
  if c.schema.typeOf name = "string" then []
  else
    match p.coercion name (c.schema.typeOf name) raw c.node.base with
    | .error _ => []
    | .ok (k, p') => [.ofAttribute c.node k.key (p'.calledFor k) (p'.coerce k).1]

/-- The moments of attributes, up to the one that ends the element if there is one. -/
def momentsOfEach (c : Construction) : List (String × String) → Pass → List Moment
  | [], _ => []
  | (name, raw) :: rest, p =>
    p.momentsOfAttribute c name raw ++
      continued (Hook.exec (compileAttribute c name raw) p) (momentsOfEach c rest)

/-- The moment of a hook of an element that ends so. -/
def momentOfHook {α : Type} (c : Construction) (hook : ElementHook) (ending : Except Stop α) :
    Moment :=
  .ofHook c.node hook (stopOf? ending)

/-- The moments before the children. -/
def momentsFirst (p : Pass) (c : Construction) : List Moment :=
  let before := Hook.exec (orStop (callForElement c .beforeAttributes
    (c.kind.beforeAttributes (p.view c)))) p
  [momentOfHook c .beforeAttributes before.1] ++ continued before fun p =>
    momentsOfEach c c.node.attributes.entries p ++
      continued (Hook.exec (compileEach c c.node.attributes.entries) p) fun p =>
        let after := Hook.exec (orStop (callForElement c .afterAttributes
          (c.kind.afterAttributes (p.view c)))) p
        [momentOfHook c .afterAttributes after.1]

/-- The moments after the children. -/
def momentsLast (p : Pass) (c : Construction) : List Moment :=
  let made := Hook.exec (c.kind.construct (p.view c)) (p.bench c)
  momentOfHook c .construct made.1 ::
    match made with
    | (.error _, _) => []
    | (.ok value, bench) =>
      let q := (p.leave c .construct bench).assignTo c value
      [momentOfHook c .finish (Hook.exec (c.kind.finish (q.view c) value) (q.bench c)).1]

mutual

/-- **The moments of an element** that begins in a pass. An element that has an outcome, or whose
pass was given up, has none. -/
def moments : Element → Pass → List Moment
  | ⟨id, _, _, children, _⟩, p =>
    match p.constructions.get? id with
    | none => []
    | some c =>
      if c.outcome?.isSome || p.released then []
      else
        p.momentsFirst c ++ continued (Hook.exec (compileAttributes c) p) fun p =>
          momentsBelow id children p ++ continued (Hook.exec (visit id children) p) fun p =>
            p.momentsLast c

/-- The moments of children, one child after the other. A panic in a look-up ends them. -/
def momentsBelow (parent : NodeId) : List Element → Pass → List Moment
  | [], _ => []
  | child :: rest, p =>
    match p.lookup child with
    | .error (.panic _) => []
    | .error (.error _) => momentsBelow parent rest (Hook.exec (visit parent [child]) p).2
    | .ok (_, p') =>
      moments child (p'.handDown parent child.id) ++
        momentsBelow parent rest (Hook.exec (visit parent [child]) p).2

end

end Pass

section Element

variable {e : Element} {p : Pass} {c : Construction}

theorem moments_absent (h : p.constructions.get? e.id = none) : p.moments e = [] := by
  obtain ⟨id, tag, attributes, children, base⟩ := e
  rw [Pass.moments, h]

theorem moments_done (h : p.constructions.get? e.id = some c)
    (hdone : (c.outcome?.isSome || p.released) = true) : p.moments e = [] := by
  obtain ⟨id, tag, attributes, children, base⟩ := e
  rw [Pass.moments, h]
  simp only [hdone, if_true]

theorem moments_run (h : p.constructions.get? e.id = some c) (ho : c.outcome? = none)
    (hr : p.released = false) :
    p.moments e = p.momentsFirst c ++ continued (Hook.exec (compileAttributes c) p) fun q =>
      q.momentsBelow e.id e.children ++ continued (Hook.exec (visit e.id e.children) q) fun r =>
        r.momentsLast c := by
  obtain ⟨id, tag, attributes, children, base⟩ := e
  rw [Pass.moments, h]
  simp only [ho, hr, Option.isSome_none, Bool.or_false, Bool.false_eq_true, if_false]

end Element

/-! ### Every key once -/

/-- **Once for every key.** -/
structure OncePerKey (ms : List Moment) : Prop where
  /-- When a key is asked for first, hooks are called for it, in their order and up to the first one
  that ends early. -/
  first : ∀ u v node key hooks outcome, ms = u ++ .ofAttribute node key hooks outcome :: v →
    (∀ m ∈ u, m.key? ≠ some key) →
      hooks ≠ [] ∧ hooks <+: [.before, .construct, .finish] ∧
        (outcome.isOk = true → hooks = [.before, .construct, .finish])
  /-- When it is asked for again, no hook is called, and the outcome is the same. -/
  again : ∀ u v node key hooks outcome, ms = u ++ .ofAttribute node key hooks outcome :: v →
    ∀ node' hooks' outcome', Moment.ofAttribute node' key hooks' outcome' ∈ u →
      hooks = [] ∧ outcome = outcome'

namespace OncePerKey

theorem nil : OncePerKey [] := by
  constructor <;> intro u v node key hooks outcome h <;>
    exact absurd h (List.append_ne_nil_of_right_ne_nil _ (List.cons_ne_nil _ _)).symm

/-- A list that is taken apart at one of its items: the last one, or one before it. -/
theorem eq_of_concat {α : Type} {l u v : List α} {a b : α} (h : l ++ [a] = u ++ b :: v) :
    (l = u ∧ a = b) ∨ ∃ v', l = u ++ b :: v' := by
  rcases List.eq_nil_or_concat v with rfl | ⟨v', c, rfl⟩
  · obtain ⟨hl, ha⟩ := List.append_inj' h rfl
    exact Or.inl ⟨hl, List.head_eq_of_cons_eq ha⟩
  · have h : l ++ [a] = (u ++ b :: v') ++ [c] := by simpa using h
    exact Or.inr ⟨v', (List.append_inj' h rfl).1⟩

/-- A moment without a key changes nothing. -/
theorem concat_hook {ms : List Moment} (h : OncePerKey ms) (node : Element) (hook : ElementHook)
    (stop? : Option Stop) : OncePerKey (ms ++ [.ofHook node hook stop?]) := by
  constructor <;> intro u v node key hooks outcome heq
  · obtain ⟨-, ha⟩ | ⟨v', heq⟩ := eq_of_concat heq
    · cases ha
    · exact h.first u v' node key hooks outcome heq
  · obtain ⟨-, ha⟩ | ⟨v', heq⟩ := eq_of_concat heq
    · cases ha
    · exact h.again u v' node key hooks outcome heq

/-- A key that is asked for first. -/
theorem concat_first {ms : List Moment} (h : OncePerKey ms) (node : Element) {key : AttributeKey}
    {hooks : List AttributeHook} {outcome : Outcome Value} (hnew : ∀ m ∈ ms, m.key? ≠ some key)
    (hne : hooks ≠ []) (hhooks : hooks <+: [.before, .construct, .finish])
    (hall : outcome.isOk = true → hooks = [.before, .construct, .finish]) :
    OncePerKey (ms ++ [.ofAttribute node key hooks outcome]) := by
  constructor <;> intro u v node' key' hooks' outcome' heq
  · intro hfirst
    -- the moment that is added, or one from before
    obtain ⟨-, ha⟩ | ⟨v', heq⟩ := eq_of_concat heq
    · cases ha
      exact ⟨hne, hhooks, hall⟩
    · exact h.first u v' node' key' hooks' outcome' heq hfirst
  · intro node'' hooks'' outcome'' hmem
    obtain ⟨rfl, ha⟩ | ⟨v', heq⟩ := eq_of_concat heq
    · cases ha
      exact absurd rfl (hnew _ hmem)
    · exact h.again u v' node' key' hooks' outcome' heq node'' hooks'' outcome'' hmem

/-- A key that is asked for again. -/
theorem concat_again {ms : List Moment} (h : OncePerKey ms) (node : Element) {key : AttributeKey}
    {outcome : Outcome Value} (hold : ∃ m ∈ ms, m.key? = some key)
    (hsame : ∀ node' hooks' outcome', Moment.ofAttribute node' key hooks' outcome' ∈ ms →
      outcome = outcome') :
    OncePerKey (ms ++ [.ofAttribute node key [] outcome]) := by
  constructor <;> intro u v node' key' hooks' outcome' heq
  · intro hfirst
    obtain ⟨rfl, ha⟩ | ⟨v', heq⟩ := eq_of_concat heq
    · cases ha
      -- the added moment is not the first one with its key
      obtain ⟨m, hm, hkey⟩ := hold
      exact absurd hkey (hfirst m hm)
    · exact h.first u v' node' key' hooks' outcome' heq hfirst
  · -- seen from the first moment with the key, the added one repeats its outcome
    intro node'' hooks'' outcome'' hmem
    obtain ⟨rfl, ha⟩ | ⟨v', heq⟩ := eq_of_concat heq
    · cases ha
      exact ⟨rfl, hsame _ _ _ hmem⟩
    · exact h.again u v' node' key' hooks' outcome' heq node'' hooks'' outcome'' hmem

end OncePerKey

/-- What was recorded of coercions at moments, up to some pass: every key is found once, and the
coercions are those that were asked for, with the outcomes that they gave. -/
structure Recorded (ms : List Moment) (p : Pass) : Prop where
  once : OncePerKey ms
  /-- A key that was asked for is settled. -/
  settled : ∀ node key hooks outcome, Moment.ofAttribute node key hooks outcome ∈ ms →
    ∃ k, p.coercions.get? key = some k ∧ k.outcome? = some outcome
  /-- A key that the pass knows was asked for. -/
  asked : ∀ key k, p.coercions.get? key = some k → ∃ m ∈ ms, m.key? = some key

/-- **A true account** of the way from a pass to another one. -/
def Pass.Tells (ms : List Moment) (p q : Pass) : Prop :=
  p.Sound → q.Sound ∧ q.trace = p.trace ++ callsAt ms ∧
    ∀ past, Recorded past p → Recorded (past ++ ms) q

namespace Pass.Tells

theorem trans {ms ms' : List Moment} {p q r : Pass} (h : Tells ms p q) (h' : Tells ms' q r) :
    Tells (ms ++ ms') p r := by
  intro hp
  obtain ⟨hq, htrace, hrecord⟩ := h hp
  obtain ⟨hr, htrace', hrecord'⟩ := h' hq
  refine ⟨hr, ?_, fun past hpast => ?_⟩
  · rw [htrace', htrace, callsAt_append, List.append_assoc]
  · rw [← List.append_assoc]
    exact hrecord' _ (hrecord past hpast)

/-- A step of which there is nothing to tell: it calls no hook and leaves the coercions alone. -/
theorem silent {ids : List NodeId} {p q : Pass} (h : Pass.Leads ids p q) (hcalls : q.calls = p.calls)
    (hcoercions : q.coercions = p.coercions) : Tells [] p q := by
  intro hp
  refine ⟨(h hp).1, ?_, fun past hpast => ?_⟩
  · rw [Pass.trace, hcalls, callsAt_nil, List.append_nil, Pass.trace]
  · rw [List.append_nil]
    exact ⟨hpast.once, hcoercions ▸ hpast.settled, hcoercions ▸ hpast.asked⟩

theorem refl (p : Pass) : Tells [] p p :=
  silent (Pass.Leads.refl [] p) rfl rfl

end Pass.Tells

/-- **Sequencing.** The account of a sequence is that of its first part and, if this ends with a
value, that of the second one. -/
theorem Pass.Tells.bind {α β : Type} {h : Step α} {f : α → Step β} {ms : List Moment}
    {ms' : Pass → List Moment} {p : Pass} (hh : Pass.Tells ms p (Hook.exec h p).2)
    (hf : ∀ a q, Hook.exec h p = (.ok a, q) → Pass.Tells (ms' q) q (Hook.exec (f a) q).2) :
    Pass.Tells (ms ++ continued (Hook.exec h p) ms') p (Hook.exec (h >>= f) p).2 := by
  rw [Hook.exec_bind]
  rcases hrun : Hook.exec h p with ⟨stop | a, q⟩
  · rw [hrun] at hh
    show Pass.Tells (ms ++ []) p q
    rw [List.append_nil]
    exact hh
  · rw [hrun] at hh
    exact hh.trans (hf a q hrun)

/-! ### Hooks of elements -/

/-- Leaving the bench of a hook tells of the hook. -/
theorem tells_leave (p : Pass) (c : Construction) (hook : ElementHook) (bench : Bench)
    (stop? : Option Stop) : Pass.Tells [.ofHook c.node hook stop?] p (p.leave c hook bench) := by
  intro hp
  refine ⟨(Pass.leads_leave p c hook bench hp).1, List.reverse_cons, fun past hpast => ?_⟩
  refine ⟨hpast.once.concat_hook _ _ _, fun node key hooks outcome hmem => ?_, fun key k hk => ?_⟩
  · rcases List.mem_append.mp hmem with hmem | hmem
    · exact hpast.settled node key hooks outcome hmem
    · cases List.mem_singleton.mp hmem
  · obtain ⟨m, hm, hkey⟩ := hpast.asked key k hk
    exact ⟨m, List.mem_append_left _ hm, hkey⟩

theorem tells_orStop (c : Construction) (hook : ElementHook) (h : Hook Bench Panic Unit) (p : Pass) :
    Pass.Tells [Pass.momentOfHook c hook (Hook.exec (orStop (callForElement c hook h)) p).1] p
      (Hook.exec (orStop (callForElement c hook h)) p).2 :=
  tells_leave p c hook _ _

/-! ### Attributes -/

theorem trace_remember (p : Pass) (call : HookCall) (noted : Bool) :
    (p.remember call noted).trace = p.trace ++ [call] :=
  List.reverse_cons

/-- The hooks of an attribute that are called are those that `called` says. -/
theorem trace_makeValue (k : Coercion) (p : Pass) :
    (Hook.exec (makeValue k) p).2.trace
      = p.trace ++ (k.called p.environment p.store).map (.attribute · k.key) := by
  unfold makeValue Coercion.called
  rw [Hook.exec_bind_ok (Hook.exec_get p), Hook.exec_bind, exec_orStop, exec_callForAttribute]
  rcases Hook.exec (k.kind.before (k.view p.environment)) p.store with ⟨x | u, s⟩
  · exact trace_remember _ _ _
  · simp only [Hook.mapError_ok]
    rw [Hook.exec_bind, exec_callForAttribute]
    simp only
    rcases Hook.exec (k.kind.construct (k.view p.environment)) s with ⟨stop | value, s'⟩
    · simp [Pass.trace, Pass.remember]
    · simp [Pass.trace, Pass.remember, exec_callForAttribute]

/-- Whether hooks end early decides how many of them are called. -/
theorem called_eq (k : Coercion) (p : Pass) :
    k.called p.environment p.store ≠ [] ∧
      k.called p.environment p.store <+: [.before, .construct, .finish] ∧
      ((contain (Hook.exec (makeValue k) p).1).isOk = true →
        k.called p.environment p.store = [.before, .construct, .finish]) := by
  unfold makeValue Coercion.called
  rw [Hook.exec_bind_ok (Hook.exec_get p), Hook.exec_bind, exec_orStop, exec_callForAttribute]
  rcases Hook.exec (k.kind.before (k.view p.environment)) p.store with ⟨x | u, s⟩
  · -- stopped in the first hook, the second, or not at all
    exact ⟨List.cons_ne_nil _ _, List.prefix_append [AttributeHook.before] _, fun h => by cases h⟩
  · simp only [Hook.mapError_ok]
    rw [Hook.exec_bind, exec_callForAttribute]
    simp only
    rcases Hook.exec (k.kind.construct (k.view p.environment)) s with ⟨stop | value, s'⟩
    · refine ⟨List.cons_ne_nil _ _, List.prefix_append [.before, AttributeHook.construct] _, ?_⟩
      intro h
      cases stop <;> cases h
    · exact ⟨List.cons_ne_nil _ _, List.prefix_refl _, fun _ => rfl⟩

/-- What coercing does to the coercions: the one that is asked for is settled, and no other one is
touched. -/
theorem get?_coercions_coerce {p : Pass} (hp : p.Sound) {key : AttributeKey} {k : Coercion}
    (hk : p.coercions.get? key = some k) {key' : AttributeKey} (hne : key' ≠ key) :
    (p.coerce k).2.coercions.get? key' = p.coercions.get? key' := by
  rw [Pass.coerce_eq, hp.currentCoercion hk]
  cases k.outcome? with
  | some outcome => rfl
  | none =>
    obtain ⟨store, calls, -, hq⟩ := keeps_makeValue k p
    simp only [Pass.settleCoercion, hq, hp.key hk, OrderedMap.get?_modify_of_ne _ hne]

theorem trace_coerce {p : Pass} (hp : p.Sound) {key : AttributeKey} {k : Coercion}
    (hk : p.coercions.get? key = some k) :
    (p.coerce k).2.trace = p.trace ++ (p.calledFor k).map (.attribute · k.key) := by
  rw [Pass.coerce_eq, Pass.calledFor, hp.currentCoercion hk]
  cases k.outcome? with
  | some outcome => exact (List.append_nil _).symm
  | none => exact trace_makeValue k p

/-- A key that the pass knows is asked for again. -/
theorem Recorded.again {past : List Moment} {p : Pass} (h : Recorded past p) (hp : p.Sound)
    {k : Coercion} (hk : p.coercions.get? k.key = some k) (node : Element) :
    Recorded (past ++ [.ofAttribute node k.key (p.calledFor k) (p.coerce k).1])
      (p.coerce k).2 := by
  -- it was asked for, so it is settled
  obtain ⟨m, hm, hkey⟩ := h.asked _ k hk
  obtain ⟨outcome, ho⟩ : ∃ outcome, k.outcome? = some outcome := by
    cases m with
    | ofHook => cases hkey
    | ofAttribute node' key hooks outcome =>
      cases hkey
      obtain ⟨k', hk', ho⟩ := h.settled _ _ _ _ hm
      rw [hk] at hk'
      cases hk'
      exact ⟨outcome, ho⟩
  rw [Pass.calledFor, Pass.coerce_eq, hp.currentCoercion hk, ho]
  -- no hook is called, and the outcome is the one from before
  refine ⟨h.once.concat_again node ⟨m, hm, hkey⟩ ?_, ?_, ?_⟩
  · intro node' hooks' outcome' hmem
    obtain ⟨k', hk', ho'⟩ := h.settled _ _ _ _ hmem
    rw [hk] at hk'
    cases hk'
    exact Option.some.inj (ho.symm.trans ho')
  · intro node' key' hooks' outcome' hmem
    rcases List.mem_append.mp hmem with hmem | hmem
    · exact h.settled _ _ _ _ hmem
    · cases List.mem_singleton.mp hmem
      exact ⟨k, hk, ho⟩
  · intro key' k' hk'
    obtain ⟨m', hm', hkey'⟩ := h.asked key' k' hk'
    exact ⟨m', List.mem_append_left _ hm', hkey'⟩

/-- A key that is new to the pass is asked for first. -/
theorem Recorded.first {past : List Moment} {p p' : Pass} (h : Recorded past p) (hp : p'.Sound)
    {k : Coercion} (hk : p'.coercions.get? k.key = some k) (hnone : p.coercions.get? k.key = none)
    (hopen : k.outcome? = none)
    (hothers : ∀ key, key ≠ k.key → p'.coercions.get? key = p.coercions.get? key)
    (node : Element) :
    Recorded (past ++ [.ofAttribute node k.key (p'.calledFor k) (p'.coerce k).1])
      (p'.coerce k).2 := by
  -- had there been a moment with the key, the coercion would be known
  have hnew : ∀ node' hooks' outcome', Moment.ofAttribute node' k.key hooks' outcome' ∉ past := by
    intro node' hooks' outcome' hmem
    obtain ⟨k', hk', -⟩ := h.settled _ _ _ _ hmem
    rw [hnone] at hk'
    cases hk'
  obtain ⟨k₁, hk₁, ho₁⟩ := coerce_settles hp hk
  have hcalled : p'.calledFor k = k.called p'.environment p'.store := by
    rw [Pass.calledFor, hp.currentCoercion hk, hopen]
  have hvalue : (p'.coerce k).1 = contain (Hook.exec (makeValue k) p').1 := by
    rw [Pass.coerce_eq, hp.currentCoercion hk, hopen]
  have hafter : ∀ key, key ≠ k.key → (p'.coerce k).2.coercions.get? key = p.coercions.get? key :=
    fun key hne => (get?_coercions_coerce hp hk hne).trans (hothers key hne)
  -- three parts: once per key, moments are settled, and what was asked for has a moment
  obtain ⟨hne, hprefix, hall⟩ := called_eq k p'
  refine ⟨?_, ?_, ?_⟩
  · refine h.once.concat_first node (fun m hm hkey => ?_) (hcalled ▸ hne) (hcalled ▸ hprefix)
      (fun hok => hcalled ▸ hall (hvalue ▸ hok))
    cases m with
    | ofHook => cases hkey
    | ofAttribute node' key' hooks' outcome' =>
      cases hkey
      exact hnew _ _ _ hm
  · intro node' key' hooks' outcome' hmem
    rcases List.mem_append.mp hmem with hmem | hmem
    · have hkey' : key' ≠ k.key := by
        rintro rfl
        exact hnew _ _ _ hmem
      rw [hafter key' hkey']
      exact h.settled _ _ _ _ hmem
    · cases List.mem_singleton.mp hmem
      exact ⟨k₁, hk₁, ho₁⟩
  · intro key' k' hk'
    -- the new key is in the moment that was added, and all others were asked for before
    by_cases heq : key' = k.key
    · exact ⟨_, List.mem_append_right _ (List.mem_singleton_self _), heq ▸ rfl⟩
    · rw [hafter key' heq] at hk'
      obtain ⟨m', hm', hkey'⟩ := h.asked key' k' hk'
      exact ⟨m', List.mem_append_left _ hm', hkey'⟩

/-- Asking for an attribute tells of it: it is there already, or its hooks are called. -/
theorem tells_coerce {p p' : Pass} {name type raw : String} {base : Option Locator} {k : Coercion}
    (h : p.coercion name type raw base = .ok (k, p')) (node : Element) :
    Pass.Tells [.ofAttribute node k.key (p'.calledFor k) (p'.coerce k).1] p (p'.coerce k).2 := by
  intro hp
  have hp' := (Pass.leads_coercion h [] hp).1
  have hk := get?_of_coercion h
  have hkey := hp'.key hk
  -- looking the compiler up calls nothing
  have htrace : p'.trace = p.trace := by
    obtain ⟨-, rfl⟩ | ⟨-, -, rfl⟩ := coercion_cases h <;> rfl
  refine ⟨(leads_coerce p' k [] hp').1, ?_, fun past hpast => ?_⟩
  · rw [trace_coerce hp' hk, htrace]
    simp [Moment.calls]
  · rw [← hkey] at hk
    obtain ⟨hold, rfl⟩ | ⟨hnone, hmade, rfl⟩ := coercion_cases h
    · -- known before, or made by this look-up
      exact hpast.again hp' hk node
    · refine hpast.first hp' hk (hkey ▸ hnone) hmade.outcome (fun key hne => ?_) node
      exact OrderedMap.get?_insert_of_ne _ (hkey ▸ hne) _

/-- **An attribute.** -/
theorem tells_compileAttribute (c : Construction) (name raw : String) (p : Pass) :
    Pass.Tells (p.momentsOfAttribute c name raw) p (Hook.exec (compileAttribute c name raw) p).2 := by
  rw [exec_compileAttribute, Pass.momentsOfAttribute]
  by_cases hs : c.schema.typeOf name = "string"
  · simp only [if_pos hs]
    exact .silent (Pass.leads_setValue p _ _ _) rfl rfl
  · simp only [if_neg hs]
    cases hk : p.coercion name (c.schema.typeOf name) raw c.node.base with
    -- a report is no moment
    | error e => exact .silent (Pass.leads_report [] p _) rfl rfl
    | ok kp =>
      obtain ⟨k, p'⟩ := kp
      have hcoerce := tells_coerce hk c.node
      simp only
      cases hrun : p'.coerce k with
      | mk outcome q =>
        rw [hrun] at hcoerce
        cases outcome with
        | ok value =>
          exact hcoerce.trans (.silent (Pass.leads_setValue q c.node.id name value) rfl rfl)
        | error e =>
          simp only
          -- the fatal error stops the element, any other is reported, and neither calls a hook
          split
          · exact hcoerce
          · exact hcoerce.trans (.silent (Pass.leads_report [] q _) rfl rfl)

theorem tells_compileEach (c : Construction) (attributes : List (String × String)) (p : Pass) :
    Pass.Tells (Pass.momentsOfEach c attributes p) p (Hook.exec (compileEach c attributes) p).2 := by
  induction attributes generalizing p with
  | nil => exact .refl p
  | cons a rest ih =>
    obtain ⟨name, raw⟩ := a
    rw [compileEach_cons]
    exact (tells_compileAttribute c name raw p).bind fun _ q _ => ih q

/-! ### Elements -/

/-- Everything before the children. -/
theorem tells_compileAttributes (c : Construction) (p : Pass) :
    Pass.Tells (p.momentsFirst c) p (Hook.exec (compileAttributes c) p).2 := by
  rw [compileAttributes_eq, Hook.exec_bind_ok (Hook.exec_get p)]
  refine (tells_orStop c .beforeAttributes _ p).bind fun _ q _ => ?_
  refine (tells_compileEach c _ q).bind fun _ r _ => ?_
  rw [Hook.exec_bind_ok (Hook.exec_get r)]
  exact tells_orStop c .afterAttributes _ r

theorem tells_assignTo (p : Pass) (c : Construction) (value : Value) :
    Pass.Tells [] p (p.assignTo c value) := by
  refine .silent (leads_assignTo [] p c value) ?_ ?_ <;> cases value <;> rfl

/-- Everything after the children. -/
theorem tells_build (c : Construction) (p : Pass) :
    Pass.Tells (p.momentsLast c) p (Hook.exec (build c) p).2 := by
  rw [exec_build, Pass.momentsLast]
  have hleave := fun ending bench => tells_leave p c .construct bench (stopOf? (α := Value) ending)
  rcases Hook.exec (c.kind.construct (p.view c)) (p.bench c) with ⟨stop | value, bench⟩
  · exact hleave (.error stop) bench
  · refine (hleave (.ok value) bench).trans ((tells_assignTo _ c value).trans ?_)
    exact tells_leave _ c .finish _ _

/-- Handing down, looking up and what follows the outcome of a child call no hook. -/
theorem tells_handDown (p : Pass) (parent child : NodeId) :
    Pass.Tells [] p (p.handDown parent child) :=
  handDown_induction .refl (fun _ _ _ h h' => h.trans h')
    (fun p name value => .silent (Pass.leads_setValue p child name value) rfl rfl) p parent

theorem tells_lookup {p q : Pass} {node : Element} {c : Construction}
    (h : p.lookup node = .ok (c, q)) : Pass.Tells [] p q := by
  have hleads := Pass.leads_lookup h
  obtain ⟨-, rfl⟩ | ⟨-, -, rfl⟩ := lookup_finds h <;> exact .silent hleads rfl rfl

theorem tells_reportOutcome (p : Pass) (child : Element) (outcome : Outcome Value) :
    Pass.Tells [] p (p.reportOutcome child outcome) := by
  cases outcome with
  | ok value => exact .refl p
  | error e => exact .silent (Pass.leads_report [] p _) rfl rfl

mutual

/-- **The moments of an element are a true account** of its processing. -/
theorem tells_process : ∀ (e : Element) (p : Pass), Pass.Tells (p.moments e) p (process e p).2
  | ⟨id, tag, attributes, children, base⟩, p => by
    cases hc : p.constructions.get? id with
    | none =>
      rw [moments_absent hc, process_absent hc]
      exact .refl p
    | some c =>
      cases ho : c.outcome? with
      | some outcome =>
        rw [moments_done hc (by rw [ho]; rfl), process_settled hc ho]
        exact .refl p
      | none =>
        cases hr : p.released with
        | true =>
          rw [moments_done hc (by rw [hr, Bool.or_true]), process_released hc ho hr]
          exact .silent (Pass.leads_settle p id _) rfl rfl
        | false =>
          rw [moments_run hc ho hr, process_run hc ho hr]
          -- what the phases tell, one after the other, and settling tells nothing
          have hphases : Pass.Tells _ p (Hook.exec (phases c id children) p).2 :=
            (tells_compileAttributes c p).bind fun _ p₁ _ =>
              (tells_visit id children p₁).bind fun _ p₂ _ => tells_build c p₂
          have hsettle := hphases.trans
            (.silent (Pass.leads_settle _ id (contain (Hook.exec (phases c id children) p).1)) rfl rfl)
          rw [List.append_nil] at hsettle
          exact hsettle

theorem tells_visit (parent : NodeId) : ∀ (children : List Element) (p : Pass),
    Pass.Tells (p.momentsBelow parent children) p (Hook.exec (visit parent children) p).2
  | [], p => by
    rw [Pass.momentsBelow]
    exact .refl p
  | child :: rest, p => by
    have hrest := fun q => tells_visit parent rest q
    rw [Pass.momentsBelow, exec_visit_cons, exec_visit_cons]
    cases hl : p.lookup child with
    | error stop =>
      cases stop with
      | panic x => exact .refl p
      | error e =>
        exact Pass.Tells.trans (.silent (Pass.leads_report [] p _) rfl rfl) (hrest _)
    | ok cp =>
      obtain ⟨c, p'⟩ := cp
      have hchild := ((tells_lookup hl).trans (tells_handDown p' parent child.id)).trans
        (tells_process child _)
      let run := process child (p'.handDown parent child.id)
      have hreport := tells_reportOutcome run.2 child run.1
      have hadopt : Pass.Tells [] (run.2.reportOutcome child run.1)
          ((run.2.reportOutcome child run.1).adopt parent child.id) :=
        .silent (Pass.leads_adopt _ parent child.id) rfl rfl
      -- of all that is done at a child only its block can be heard
      have hafter := (hchild.trans hreport).trans hadopt
      simp only [List.nil_append, List.append_nil] at hafter
      exact hafter.trans (hrest _)

end

end ObjectMarkup
