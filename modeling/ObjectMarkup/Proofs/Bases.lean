import ObjectMarkup.Proofs.Attributes
import ObjectMarkup.Proofs.Identity

/-!
# Bases of attributes

Relative references in attributes are resolved against a base, that of the pass or, where the pass
has none, one that comes with the request. Since attributes with equal names, types and raw values
share one compiler, and bases do not tell them apart, a request need not get a compiler with its own
base: without a base of the pass the base is that of the first request for the name, type and value,
and all later ones share what is loaded from there. `attributes_based` says so of every run, and
`image_shares_base` is the least run in which a request does not get its own base.

What a compiler carries is decided when it is made, and `Pass.Honest` is the invariant behind what
it gives: coercions are kept under their keys, and an outcome is what the hooks have come to. Nothing
in it depends on the kinds that are registered, so it holds in runs that register kinds. `Grounded`
puts it together with what never changes in a pass, and is kept by every step.
-/

namespace ObjectMarkup

open Markup (Element NodeId)

/-! ### Outcomes come from hooks -/

namespace Coercion

variable {k k' : Coercion} {e e' : Environment} {o : Outcome Value}

/-- Whatever the records are, the hooks come to the outcome. -/
def Gives (k : Coercion) (e : Environment) (o : Outcome Value) : Prop :=
  ∀ s : Store, contain (Hook.exec (k.hooks e) s).1 = o

/-- The hooks do not see the catalog. -/
theorem hooks_congr (hworld : e'.toWorld = e.toWorld) : k.hooks e' = k.hooks e := by
  unfold hooks view
  rw [hworld]

theorem Stays.hooks (h : k.Stays k') (e : Environment) : k'.hooks e = k.hooks e := by
  unfold Coercion.hooks view
  rw [h.key, h.base, h.kind]

end Coercion

/-- **Coercions are kept under their keys,** and an outcome is what the hooks have come to. -/
def Pass.Honest (p : Pass) : Prop :=
  ∀ key k, p.coercions.get? key = some k →
    k.key = key ∧
      ∀ o, k.outcome? = some o → ∃ s : Store, o = contain (Hook.exec (k.hooks p.environment) s).1

namespace Pass.Honest

variable {p q : Pass}

theorem begin (environment : Environment) (base : Option Locator) (store : Store) :
    (Pass.begin environment base store).Honest :=
  fun _ _ hk => by cases hk

/-- The same coercions are honest where the hooks see the same. -/
theorem of_coercions_eq (h : p.Honest) (hcoercions : q.coercions = p.coercions)
    (hworld : q.environment.toWorld = p.environment.toWorld) : q.Honest := by
  intro key k hk
  rw [hcoercions] at hk
  rw [Coercion.hooks_congr hworld]
  exact h key k hk

theorem coercion {name type value : String} {base : Option Locator} {k : Coercion}
    (h : p.Honest) (hk : p.coercion name type value base = .ok (k, q)) : q.Honest := by
  obtain ⟨-, rfl⟩ | ⟨-, hmade, rfl⟩ := coercion_cases hk
  · exact h
  · intro key k hk
    simp only [OrderedMap.get?_insert] at hk
    split at hk
    · -- the new one has no outcome yet
      next heq =>
      cases hk
      refine ⟨hmade.key.trans heq.symm, fun o ho => ?_⟩
      rw [hmade.outcome] at ho
      cases ho
    · exact h key k hk

/-- The coercion that is meant is the one that is kept under the key. -/
theorem currentCoercion {key : AttributeKey} {k k' : Coercion}
    (hk : p.coercions.get? key = some k') (hkey : k.key = key) : p.currentCoercion k = k' := by
  rw [Pass.currentCoercion, hkey, hk, Option.getD_some]

/-- If one is kept under its key at all, then it is the one. -/
theorem currentCoercion_eq (h : p.Honest) {k k' : Coercion}
    (hk : p.coercions.get? (p.currentCoercion k).key = some k') : p.currentCoercion k = k' := by
  -- a compiler that is not kept under its key is found nowhere, so there is nothing to compare
  cases hkept : p.coercions.get? k.key with
  | none =>
    have hcurrent : p.currentCoercion k = k := by
      rw [Pass.currentCoercion, hkept, Option.getD_none]
    rw [hcurrent, hkept] at hk
    cases hk
  | some k₁ =>
    have hcurrent := currentCoercion hkept rfl
    rw [hcurrent, (h _ _ hkept).1, hkept] at hk
    rw [hcurrent]
    exact Option.some.inj hk

/-- **A coercion is settled with what its hooks come to.** -/
theorem coerce (h : p.Honest) (k : Coercion) : (p.coerce k).2.Honest := by
  rw [Pass.coerce_eq]
  cases ho : (p.currentCoercion k).outcome? with
  | some outcome => exact h
  | none =>
    obtain ⟨calls, hrun⟩ := exec_makeValue (p.currentCoercion k) p
    simp only [hrun, settleCoercion]
    intro key k' hk'
    simp only [OrderedMap.get?_modify] at hk'
    split at hk'
    · next heq =>
      obtain ⟨k₀, hk₀, rfl⟩ := Option.map_eq_some_iff.mp hk'
      -- it is settled only if it is kept, and then it is the one whose hooks were called
      rw [heq]
      refine ⟨(h _ k₀ hk₀).1, fun o ho => ⟨p.store, ?_⟩⟩
      cases ho
      rw [h.currentCoercion_eq hk₀]
      rfl
    · exact h key k' hk'

/-- **Processing a coercion gives what its hooks come to,** also if it was settled before. -/
theorem fst_coerce (h : p.Honest) {k k' : Coercion} {o : Outcome Value}
    (hk : p.coercions.get? k.key = some k') (hstays : k.Stays k') (ho : k.Gives p.environment o) :
    (p.coerce k).1 = o := by
  have hgives : ∀ s, contain (Hook.exec (k'.hooks p.environment) s).1 = o := fun s => by
    rw [hstays.hooks]
    exact ho s
  rw [Pass.coerce_eq, currentCoercion hk rfl]
  -- settled or not, the outcome is that of the hooks on some records, and the hooks give `o` on any
  cases hsettled : k'.outcome? with
  | some outcome =>
    obtain ⟨s, hs⟩ := (h _ _ hk).2 outcome hsettled
    exact hs.trans (hgives s)
  | none =>
    obtain ⟨calls, hrun⟩ := exec_makeValue k' p
    simp only [hrun]
    exact hgives p.store

end Pass.Honest

/-! ### What never changes in a pass -/

/-- **A run on one ground.** The pass keeps its base, and all look-ups are made with it; the hooks see
the same world throughout. -/
structure Pass.Grounded (p : Pass) (lookups : Lookups) (q : Pass) : Prop where
  proceeds : p.Proceeds lookups q
  base : q.base = p.base
  world : q.environment.toWorld = p.environment.toWorld
  looked : ∀ a ∈ lookups.attributes, a.before.base = p.base
  honest : p.Honest → q.Honest

namespace Pass.Grounded

variable {p q r : Pass} {a b : Lookups}

theorem trans (h : p.Grounded a q) (h' : q.Grounded b r) : p.Grounded (a ++ b) r where
  proceeds := h.proceeds.trans h'.proceeds
  base := h'.base.trans h.base
  world := h'.world.trans h.world
  looked l hl := by
    rcases List.mem_append.mp hl with hl | hl
    · exact h.looked l hl
    · exact (h'.looked l hl).trans h.base
  honest hp := h'.honest (h.honest hp)

/-- A step without look-ups of attributes that leaves the coercions alone. -/
theorem of_coercions_eq (h : p.Proceeds a q) (ha : a.attributes = []) (hbase : q.base = p.base)
    (henvironment : q.environment = p.environment) (hcoercions : q.coercions = p.coercions) :
    p.Grounded a q where
  proceeds := h
  base := hbase
  world := by rw [henvironment]
  looked l hl := by rw [ha] at hl; cases hl
  honest hp := hp.of_coercions_eq hcoercions (by rw [henvironment])

theorem coercion {name type value : String} {base : Option Locator} {k : Coercion}
    (h : p.coercion name type value base = .ok (k, q)) :
    p.Grounded (p.coercionOf name type value base) q := by
  obtain ⟨_, _, _, hq⟩ := onlyCoerces_coercion h
  refine ⟨proceeds_coercion h, by rw [hq], by rw [hq], ?_, fun hp => hp.coercion h⟩
  rw [coercionOf_ok h]
  exact List.forall_mem_singleton.mpr rfl

theorem coerce (p : Pass) (k : Coercion) : p.Grounded .none (p.coerce k).2 := by
  obtain ⟨_, _, _, hq⟩ := onlyCoerces_coerce p k
  exact ⟨proceeds_coerce p k, by rw [hq], by rw [hq], fun _ hl => absurd hl List.not_mem_nil,
    fun hp => hp.coerce k⟩

theorem lookup {node : Element} {c : Construction} (h : p.lookup node = .ok (c, q)) :
    p.Grounded (p.lookupOf node) q := by
  have hattributes : (p.lookupOf node).attributes = [] := by rw [lookupOf_ok h]
  have hproceeds := proceeds_lookup h
  obtain ⟨-, rfl⟩ | ⟨-, -, rfl⟩ := lookup_finds h
  · exact of_coercions_eq hproceeds hattributes rfl rfl rfl
  · exact of_coercions_eq hproceeds hattributes rfl rfl rfl

theorem assignTo (p : Pass) (c : Construction) (value : Value) :
    p.Grounded .none (p.assignTo c value) := by
  have hproceeds := proceeds_assignTo p c value
  cases value with
  | record record => exact of_coercions_eq hproceeds rfl rfl rfl rfl
  | _ => exact of_coercions_eq hproceeds rfl rfl rfl rfl

end Pass.Grounded

theorem keptByRuns_grounded : KeptByRuns Pass.Grounded where
  refl p := .of_coercions_eq (.refl p) rfl rfl rfl rfl
  trans := .trans
  mem_keys h := h.proceeds.mem_keys
  lookup := .lookup
  coercion := .coercion
  coerce := .coerce
  leave p c hook bench := .of_coercions_eq (proceeds_leave p c hook bench) rfl rfl rfl rfl
  setValue p id name value := .of_coercions_eq (proceeds_setValue p id name value) rfl rfl rfl rfl
  assignTo := .assignTo
  report p d := .of_coercions_eq (proceeds_report p d) rfl rfl rfl rfl
  settle p id outcome := .of_coercions_eq (proceeds_settle p id outcome) rfl rfl rfl rfl
  adopt p parent _ h := .of_coercions_eq (proceeds_adopt p parent h) rfl rfl rfl rfl
  release p := .of_coercions_eq (keptByRuns_proceeds.release p) rfl rfl rfl rfl
  register p _ h :=
    { proceeds := keptByRuns_proceeds.register p h
      base := rfl
      world := rfl
      looked := fun _ hl => absurd hl List.not_mem_nil
      honest := fun hp => hp.of_coercions_eq rfl rfl }

/-! ### Images -/

/-- **What an image attribute loads:** what the fetcher has for the locator that its raw value names
from a base. -/
def Environment.load (e : Environment) (base : Option Locator) (key : AttributeKey) :
    Outcome Value :=
  match Locator.resolve e.domains base (Text.trimmed key.value) with
  | .error _ => .error (.typeMismatch key.name key.value key.type)
  | .ok url =>
    match e.fetch url with
    | .ok r => .ok (.resource r)
    | .error x => .error (.fetch x)

/-- A kind with no other hook gives what it constructs. -/
theorem Coercion.gives_of_construct {k : Coercion} {e : Environment} {o : Outcome Value}
    (hbefore : k.kind.before (k.view e) = pure ())
    (hconstruct : k.kind.construct (k.view e) = Kind.ofOutcome o)
    (hfinish : ∀ value, k.kind.finish (k.view e) value = pure value) : k.Gives e o := by
  intro s
  have hnothing : Hook.exec (orStop (pure ()) : Hook Store Stop Unit) s = (.ok (), s) := rfl
  rw [Coercion.hooks, hbefore, hconstruct, Hook.exec_bind_ok hnothing, Hook.exec_bind]
  -- the last hook gives back what it is given
  cases o with
  | error x => rfl
  | ok value =>
    simp only [Kind.ofOutcome, Hook.exec_pure, hfinish]
    rfl

theorem Coercion.gives_image {k : Coercion} (hk : k.kind = Kind.image) (e : Environment) :
    k.Gives e (e.load k.base k.key) := by
  refine gives_of_construct (by rw [hk]; rfl) ?_ (by rw [hk]; exact fun _ => rfl)
  rw [hk, Environment.load]
  simp only [Kind.image, Coercion.view]
  cases Locator.resolve e.domains k.base (Text.trimmed k.key.value) with
  | error x => rfl
  | ok url =>
    simp only
    cases e.fetch url <;> rfl

/-! ### Against which base -/

/-- An element asks for the attributes of its markup, with its own base. -/
theorem asks_of_lookupsOfEach (c : Construction) {attributes : List (String × String)} {p : Pass}
    {a : AttributeLookup} (ha : a ∈ (lookupsOfEach c attributes p).attributes) :
    a.base = c.node.base ∧ (a.name, a.value) ∈ attributes := by
  induction attributes generalizing p with
  | nil => cases ha
  | cons entry rest ih =>
    obtain ⟨name, raw⟩ := entry
    rw [lookupsOfEach, Lookups.attributes_append] at ha
    rcases List.mem_append.mp ha with hfirst | hrest
    · -- this attribute, if it is looked up at all
      split at hfirst
      · cases hfirst
      · cases hk : p.coercion name (c.schema.typeOf name) raw c.node.base with
        | error e =>
          rw [Pass.coercionOf_error hk] at hfirst
          cases hfirst
        | ok found =>
          rw [Pass.coercionOf_ok hk] at hfirst
          obtain rfl := List.mem_singleton.mp hfirst
          exact ⟨rfl, List.mem_cons_self⟩
    · split at hrest
      · obtain ⟨hbase, hmem⟩ := ih hrest
        exact ⟨hbase, List.mem_cons_of_mem _ hmem⟩
      · cases hrest

theorem asks_of_lookupsOfAttributes (c : Construction) (p : Pass) {a : AttributeLookup}
    (ha : a ∈ (lookupsOfAttributes c p).attributes) :
    a.base = c.node.base ∧ (a.name, a.value) ∈ c.node.attributes.entries := by
  unfold lookupsOfAttributes at ha
  split at ha
  · exact asks_of_lookupsOfEach c ha
  · cases ha

/-- **Against which base attributes compile in a run.** In every statement `lookups` are all look-ups
of the run that have come to something, those of elements that were processed among them, and `last`
is what the run comes to. -/
structure Compilation.Based (start : Compilation) (lookups : Lookups) (last : Compilation) :
    Prop where
  /-- A base of the pass is the base of every attribute. -/
  given : ∀ base, start.pass.base = some base → ∀ a ∈ lookups.attributes,
    a.coercion.base = some base
  /-- Without one it is that of the first request with the same name, raw value and type. -/
  first : start.pass.base = none →
    ∀ earlier first later, lookups.attributes = earlier ++ first :: later →
      (∀ a ∈ earlier, a.key ≠ first.key) →
      ∀ a ∈ lookups.attributes, a.key = first.key → a.coercion.base = first.base
  /-- The base stays. -/
  stays : ∀ a ∈ lookups.attributes,
    ∃ k, last.pass.coercions.get? a.key = some k ∧ a.coercion.Stays k
  /-- An element that is processed asks for the attributes of its markup with its own base. -/
  asks : ∀ c p, ∀ a ∈ (lookupsOfAttributes c p).attributes,
    a.base = c.node.base ∧ (a.name, a.value) ∈ c.node.attributes.entries
  /-- And an image is what its raw value names from there, whenever it is processed. -/
  loads : ∀ a ∈ lookups.attributes, a.coercion.kind = Kind.image →
    (last.pass.coerce a.coercion).1 = start.pass.environment.load a.coercion.base a.key

section Run

variable (environment : Environment) (document : Markup.Document) (base : Option Locator)
  (store : Store) (events : List Event)

/-- A compile that has not begun, with a base or without one. -/
def Compilation.unbegun : Compilation :=
  ⟨document, .begin environment base store, none, none⟩

variable {environment document base store events} {a : AttributeLookup}
  (ha : a ∈ ((Compilation.unbegun environment document base store).lookupsOfAll events).attributes)
include ha

/-- A compiler that was looked up is kept under its key. -/
theorem AttributeLookup.kept :
    a.coercion.key = a.key ∧
      ∃ k, ((Compilation.unbegun environment document base store).undergoAll events).pass.coercions.get?
        a.key = some k ∧ a.coercion.Stays k := by
  have hrun := keptByRuns_grounded.undergoAll (.unbegun environment document base store) events
  obtain ⟨k, hk, hstays⟩ :=
    (hrun.proceeds.coercions.grows_of_mem (List.mem_map_of_mem ha)).values _ _ a.find.get?_after
  have hkey : k.key = a.key := ((hrun.honest (.begin _ _ _)) _ _ hk).1
  exact ⟨hstays.key.symm.trans hkey, k, hk, hstays⟩

/-- **What the hooks of a compiler come to is its outcome,** whenever it is processed. -/
theorem AttributeLookup.fst_coerce {o : Outcome Value} (ho : a.coercion.Gives environment o) :
    (((Compilation.unbegun environment document base store).undergoAll events).pass.coerce
      a.coercion).1 = o := by
  have hrun := keptByRuns_grounded.undergoAll (.unbegun environment document base store) events
  obtain ⟨hkey, k, hk, hstays⟩ := a.kept ha
  refine (hrun.honest (.begin _ _ _)).fst_coerce (hkey ▸ hk) hstays fun s => ?_
  rw [Coercion.hooks_congr hrun.world]
  exact ho s

end Run

/-- **Attributes compile against the base of the pass, or else against that of the first request.** -/
theorem attributes_based (environment : Environment) (document : Markup.Document)
    (base : Option Locator) (store : Store) (events : List Event) :
    let start := Compilation.unbegun environment document base store
    start.Based (start.lookupsOfAll events) (start.undergoAll events) := by
  intro start
  have hrun := keptByRuns_grounded.undergoAll start events
  have hempty : start.pass.coercions = .empty := rfl
  -- the first request with a key makes the coercion, with the base that the pass has always had
  have hmade : ∀ earlier first later,
      (start.lookupsOfAll events).attributes = earlier ++ first :: later →
      (∀ a ∈ earlier, a.key ≠ first.key) →
      ∀ a ∈ (start.lookupsOfAll events).attributes, a.key = first.key →
        a.coercion.base = start.pass.base.or first.base := by
    intro earlier first later heq hfirst a ha hkey
    obtain ⟨-, hbase, -⟩ := attribute_of_first hrun.proceeds hempty heq hfirst ha hkey
    have hmem : first ∈ (start.lookupsOfAll events).attributes := by
      rw [heq]
      exact List.mem_append_right _ List.mem_cons_self
    rw [hbase, hrun.looked first hmem]
  refine
    { given := fun b hb a ha => ?given
      first := fun hnone earlier first later heq hfirst a ha hkey => ?first
      stays := fun a ha => (a.kept ha).2
      asks := fun c p _ => asks_of_lookupsOfAttributes c p
      loads := fun a ha hkind => a.fst_coerce ha ?loads }
  case given =>
    -- every request has a first one with its key
    obtain ⟨first, hfind⟩ := Option.isSome_iff_exists.mp
      (List.find?_isSome (p := fun b : AttributeLookup => decide (b.key = a.key)).mpr
        ⟨a, ha, decide_eq_true rfl⟩)
    obtain ⟨hkey, earlier, later, heq, hfirst⟩ := List.find?_eq_some_iff_append.mp hfind
    have hkey : first.key = a.key := of_decide_eq_true hkey
    rw [hmade earlier first later heq (fun b hb => ?_) a ha hkey.symm, hb, Option.some_or]
    rw [hkey]
    simpa only [Bool.not_eq_true', decide_eq_false_iff_not] using hfirst b hb
  case first => rw [hmade earlier first later heq hfirst a ha hkey, hnone, Option.none_or]
  case loads =>
    have hgives := Coercion.gives_image hkind start.pass.environment
    rwa [(a.kept ha).1] at hgives

/-- A new compiler for a built-in type. -/
theorem coercion_builtin {p : Pass} (hcatalog : p.environment.catalog = .builtin)
    {type : String} {r : Reading} (hr : Reading.ofType? (Text.nameKey type) = some r)
    (name value : String) (base : Option Locator)
    (hnone : p.coercions.get? (.ofType name type value) = none) :
    ∃ k q, p.coercion name type value base = .ok (k, q) ∧ k.key = .ofType name type value ∧
      k.base = p.base.or base ∧ k.kind = r.kind := by
  have hkind : p.environment.catalog.attributeKind (Text.nameKey type) = .ok r.kind := by
    rw [hcatalog, attributeKind_eq_kind, hr]
  cases hk : p.coercion name type value base with
  | error e => cases hkind.symm.trans (coercion_eq_error hk)
  | ok found =>
    have hmade := coercion_made hk hnone
    exact ⟨found.1, found.2, rfl, hmade.key, hmade.base, Except.ok.inj (hmade.kind.symm.trans hkind)⟩

/-- The locator of a text at the place with a name. -/
def shelfLocator (name text : List Char) : Locator :=
  ⟨['m', 'e', 'm'], some (.ofHost (.name name)), .segments [text], none, none⟩

/-- A world with nothing but empty files, everywhere. -/
def emptyFiles : World :=
  { World.empty with fetch := fun url => .ok ⟨url, []⟩ }

/-- **A request need not get its own base.** A pass without a base is asked for one image reference
from two places, and for the second one it gives the compiler of the first, which loads the file of
the first place. -/
theorem image_shares_base :
    ∃ k p, (Pass.begin (.builtin emptyFiles) none .empty).coercion "src" "image" "a.png"
        (some (shelfLocator ['x'] [])) = .ok (k, p) ∧
      p.coercion "src" "image" "a.png" (some (shelfLocator ['y'] [])) = .ok (k, p) ∧
      k.base = some (shelfLocator ['x'] []) ∧ k.base ≠ some (shelfLocator ['y'] []) ∧
      (p.coerce k).1 = .ok (.resource ⟨shelfLocator ['x'] ['a', '.', 'p', 'n', 'g'], []⟩) := by
  -- the first request makes the compiler, and the second one finds it
  obtain ⟨k, p, hk, hkey, hbase, hkind⟩ :=
    coercion_builtin (p := .begin (.builtin emptyFiles) none .empty) rfl
      (by decide +kernel : Reading.ofType? (Text.nameKey "image") = some .image)
      "src" "a.png" (some (shelfLocator ['x'] [])) rfl
  have hfound := get?_of_coercion hk
  have hagain : p.coercion "src" "image" "a.png" (some (shelfLocator ['y'] [])) = .ok (k, p) := by
    rw [Pass.coercion]
    simp only [hfound]
  have hload : p.environment.load k.base k.key
      = .ok (.resource ⟨shelfLocator ['x'] ['a', '.', 'p', 'n', 'g'], []⟩) := by
    obtain ⟨_, _, _, hp⟩ := onlyCoerces_coercion hk
    rw [hbase, hkey, hp]
    rfl
  refine ⟨k, p, hk, hagain, hbase, ?_, ?_⟩
  · rw [hbase]
    decide
  · rw [← hload]
    exact ((Pass.Honest.begin _ _ _).coercion hk).fst_coerce (hkey ▸ hfound)
      (refl_of Coercion.Stays k) (Coercion.gives_image hkind _)

end ObjectMarkup
