import ObjectMarkup.Proofs.Literals
import ObjectMarkup.Proofs.PlainNamespaces

/-!
# Which records contain themselves

Most records that a compile makes contain only records that were there before them, and constructors
that are acyclic bring no record inside itself. So no chain of containment comes back to where it
began, except for one reason: a scalar element whose value is a record writes this value into the
record itself, as its property `value`. These records contain themselves, and they are the only ones
that can be reached from the result or from the namespace and are inside themselves
(`compile_loopsAtScalars`).

The invariant is `Pass.Loops`: all that a pass can come by are records of a region `H`, and those of
them that are inside themselves are the values of scalars (`Store.LoopsAt`). The region grows with
each record that is made and with each call of a constructor. It does not matter where it lies in the
store, nor what lies outside.
-/

namespace ObjectMarkup

open Markup (Element NodeId Document)
open Relation (TransGen ReflTransGen)

/-! ### Changes of a region -/

namespace Store.LoopsAt

variable {s : Store} {H L : RecordId → Prop}

/-- **A record is made** out of records of the region. -/
theorem make (h : s.LoopsAt H L) {r : Record} (hr : ∀ i ∈ r.records, H i) :
    (s.make r).2.LoopsAt (fun i => H i ∨ i = s.size) L := by
  have hnew : ∀ a b, s.size ≤ a → (s.make r).2.Contains a b → H b := by
    intro a b ha hab
    rcases contains_make hab with ⟨hlt, -⟩ | ⟨-, hb⟩
    · exact absurd hlt (Nat.not_lt_of_le ha)
    · exact hr b hb
  have hadds : s.AddsAcyclic H (s.make r).2 := by
    refine ⟨fun i hi => get_make_of_lt hi r, fun a ha haa => ?_, fun a b ha hab => Or.inl ?_⟩
    · -- the new record contains old ones only, so there is no first step to a new one
      obtain ⟨b, ⟨hab, hb⟩, -⟩ := TransGen.head'_iff.mp haa
      exact absurd (h.below b (hnew a b ha hab)) (Nat.not_lt_of_le hb)
    · exact hnew a b ha hab
  have hregion : (fun i => H i ∨ i = s.size) = fun i => H i ∨ s.size ≤ i ∧ i < (s.make r).2.size := by
    funext i
    rw [size_make, Nat.lt_succ_iff, ← Nat.le_antisymm_iff, eq_comm (a := s.size)]
  rw [hregion]
  exact h.grow (size_make s r ▸ Nat.le_succ s.size) hadds

/-- **A record gets itself as its property** `value`, and nothing else that is a record. -/
theorem write (h : s.LoopsAt H L) {i : RecordId} (hi : H i) {f : Record → Record}
    (hf : ∀ (r : Record) b, b ∈ (f r).records → b = i ∨ b ∈ r.records)
    (hvalue : ∀ r : Record, (f r).properties.get? "value" = some (.record i)) :
    (s.modify i f).LoopsAt H fun j => L j ∨ j = i := by
  have hget : ∀ j, (s.modify i f).get j = if j = i then f (s.get i) else s.get j :=
    fun j => get_modify (h.below i hi) j f
  have hcontains : ∀ a b, (s.modify i f).Contains a b → b = i ∧ a = i ∨ s.Contains a b :=
    fun _ _ => contains_modify (h.below i hi) hf
  -- the new containment takes no chain anywhere else
  have hchain : ∀ a b, TransGen (s.modify i f).Contains a b → b = i ∧ a = i ∨ TransGen s.Contains a b := by
    intro a b hab
    induction hab with
    | single hab => exact (hcontains _ _ hab).imp_right .single
    | tail _ hbc ih =>
      rcases hcontains _ _ hbc with ⟨rfl, rfl⟩ | hbc
      · exact ih
      · rcases ih with ⟨heq, heq'⟩ | hab
        · rw [heq, ← heq'] at hbc
          exact Or.inr (.single hbc)
        · exact Or.inr (hab.tail hbc)
  refine ⟨fun j hj => (size_modify s i f).symm ▸ h.below j hj, fun a b ha hab => ?closed,
    fun j hj hjj => ?inside, fun j hj => ?known, fun j hj => ?loop⟩
  case closed =>
    rcases hcontains a b hab with ⟨rfl, -⟩ | hab
    · exact hi
    · exact h.closed a b ha hab
  case inside =>
    rcases hchain j j hjj with ⟨rfl, -⟩ | hjj
    · exact Or.inr rfl
    · exact Or.inl (h.inside j hj hjj)
  case known =>
    rcases hj with hj | rfl
    · exact h.known j hj
    · exact hi
  case loop =>
    rw [property?, hget]
    split
    · next heq =>
      subst heq
      exact hvalue _
    · next hne => exact h.loop j (hj.resolve_right hne)

theorem congr {L' : RecordId → Prop} (h : s.LoopsAt H L) (hL : ∀ i, L' i ↔ L i) : s.LoopsAt H L' :=
  (funext fun i => propext (hL i) : L' = L) ▸ h

end Store.LoopsAt

/-! ### The invariant -/

/-- **All that a pass can come by** are records of `H`, and only values of scalars are inside
themselves. -/
structure Pass.Loops (p : Pass) (H : RecordId → Prop) : Prop where
  store : p.store.LoopsAt H p.Scalar
  provides : ∀ v, p.environment.symbols.Provides v → ∀ i ∈ v.records, H i
  memory : AllIn H p.store.memory
  refers : ∀ i, p.Refers i → H i
  calls : ∀ maker, p.environment.symbols.Offers maker → p.environment.calls.Acyclic maker

namespace Pass.Loops

variable {H : RecordId → Prop} {p q : Pass}

/-- A step that leaves the store alone. -/
theorem same_store (h : p.Loops H) (henv : q.environment = p.environment)
    (hstore : q.store = p.store) (hrefers : ∀ i, q.Refers i → H i)
    (hscalar : ∀ i, q.Scalar i ↔ p.Scalar i) : q.Loops H where
  store := hstore ▸ h.store.congr hscalar
  provides := henv ▸ h.provides
  memory := hstore ▸ h.memory
  refers := hrefers
  calls := henv ▸ h.calls

/-- An element gets its value. -/
theorem conclude (h : p.Loops H) {r : Rule} {e : Element} {k : Construction}
    (hw : p.WorksOn r e k) (hspelled : k.Spelled r e) : ∃ H', (p.conclude r e).Loops H' := by
  have hvalues : p.values e.id = k.values := Pass.values_eq hw.get
  -- which records are scalars after the step depends on what the rule makes
  have hscalar := fun i => Pass.scalar_conclude (i := i) hw.toOpens
  have hstore : (p.conclude r e).store = (p.makes r e).2 := rfl
  have hrefers : ∀ i, (p.conclude r e).Refers i → i ∈ (p.makes r e).1.records ∨ p.Refers i := by
    rintro i ⟨v, hv, hi⟩
    rcases Pass.knows_of_settle hv with rfl | hv
    · exact Or.inl hi
    · exact Or.inr ⟨v, hv, hi⟩
  have hknown : ∀ v, (p.values e.id).get? "value" = some v → ∀ i ∈ v.records, H i :=
    fun v hv i hi => h.refers i ⟨v, Pass.knows_of_values (OrderedMap.mem_entries_of_get? hv), hi⟩
  by_cases hr : r = .data
  · subst hr
    by_cases hrecord : ∃ i, (p.values e.id).get? "value" = some (.record i)
    · -- the attributes are written into the value, itself among them
      obtain ⟨i, hi⟩ := hrecord
      have hH : H i := hknown _ hi i (List.mem_singleton_self i)
      rw [Pass.makes_written hi] at hstore hscalar hrefers
      rw [hvalues] at hi hstore
      have hwritten := h.store.write (f := Record.scalar k.values) hH
        (fun _ _ => mem_records_scalar hspelled hi) fun r => get?_value_scalar hi r
      refine ⟨H, ?_, h.provides, hstore ▸ h.memory, fun j hj => ?_, h.calls⟩
      · rw [hstore]
        refine hwritten.congr fun j => (hscalar j).trans (or_congr_right ⟨fun hj => ?_, fun hj => ?_⟩)
        · exact (Value.record.inj hj.2).symm
        · exact ⟨rfl, congrArg Value.record hj.symm⟩
      · rcases hrefers j hj with hj | hj
        · exact List.mem_singleton.mp hj ▸ hH
        · exact h.refers j hj
    · -- a scalar with any other value does nothing
      have hkept := Pass.makes_kept (not_exists.mp hrecord)
      refine ⟨H, h.same_store rfl (hstore.trans (congrArg Prod.snd hkept)) (fun i hi => ?_)
        fun i => (hscalar i).trans ?_⟩
      · rcases hrefers i hi with hi | hi
        · rw [hkept] at hi
          cases hv : (p.values e.id).get? "value" with
          | none =>
            rw [hv] at hi
            exact absurd hi List.not_mem_nil
          | some v =>
            rw [hv] at hi
            exact hknown v hv i hi
        · exact h.refers i hi
      · exact or_iff_left fun hi => hrecord ⟨i, Pass.makes_eq_record.mp hi.2⟩
  · rw [Pass.makes_of_ne_data hr] at hrefers hstore
    have hfresh : ∀ i ∈ (r.record e (p.values e.id) (p.childViews e.id)).records, H i :=
      fun i hi => h.refers i (Pass.refers_of_record hi)
    -- any other rule makes a record of what the pass has a hold of
    have hmade := h.store.make hfresh
    refine ⟨fun i => H i ∨ i = p.store.size, ?_, fun v hv i hi => Or.inl (h.provides v hv i hi),
      fun v hv i hi => ?_, fun i hi => ?_, h.calls⟩
    · rw [hstore]
      exact hmade.congr fun i => (hscalar i).trans (or_iff_left fun hi => hr hi.1)
    · rw [hstore] at hv
      exact Or.inl (h.memory v hv i hi)
    · rcases hrefers i hi with hi | hi
      · exact Or.inr (List.mem_singleton.mp hi)
      · exact Or.inl (h.refers i hi)

end Pass.Loops

/-- **Each small step keeps the invariant,** with a region that grows. -/
theorem kept_loops : Kept fun p => ∃ H, p.Loops H where
  calls := fun ⟨H, h⟩ _ => ⟨H, h.same_store rfl rfl h.refers fun _ => Iff.rfl⟩
  report := fun ⟨H, h⟩ _ => ⟨H, h.same_store rfl rfl h.refers fun _ => Iff.rfl⟩
  adopt := fun ⟨H, h⟩ parent child => by
    refine ⟨H, h.same_store rfl rfl
      (fun i ⟨v, hv, hi⟩ => h.refers i ⟨v, Pass.knows_of_adopt hv, hi⟩) ?_⟩
    exact fun i => Pass.scalar_congr fun _ => Pass.stands_modify fun _ => rfl
  start := fun ⟨H, h⟩ hnone => by
    refine ⟨H, h.same_store rfl rfl
      (fun i ⟨v, hv, hi⟩ => h.refers i ⟨v, Pass.knows_of_start hv, hi⟩) ?_⟩
    exact fun i => Pass.scalar_congr fun _ => Pass.stands_start hnone
  string := fun ⟨H, h⟩ id name raw => by
    refine ⟨H, h.same_store rfl rfl (fun i ⟨v, hv, hi⟩ => ?_)
      fun i => Pass.scalar_congr fun _ => Pass.stands_setValue⟩
    rcases Pass.knows_of_setValue hv with rfl | hv
    · exact absurd hi List.not_mem_nil
    · exact h.refers i ⟨v, hv, hi⟩
  value := fun ⟨H, h⟩ ha ho id name => by
    refine ⟨H, h.same_store rfl rfl (fun i ⟨w, hw, hi⟩ => ?_)
      fun i => Pass.scalar_congr fun _ => Pass.stands_setValue⟩
    rcases Pass.knows_of_setValue hw with rfl | hw
    · exact h.refers i ⟨w, Or.inr ⟨_, _, ha, ho⟩, hi⟩
    · exact h.refers i ⟨w, hw, hi⟩
  given := fun ⟨H, h⟩ hgives key a => by
    refine ⟨H, h.same_store rfl rfl (fun i ⟨v, hv, hi⟩ => ?_) fun _ => Iff.rfl⟩
    rcases Pass.knows_of_insert hv with ho | hv
    · -- a reading makes no record: its value holds none, or is a symbol
      rcases hgives v (contain_eq_ok (Option.some.inj ho)) with hnil | hprovides
      · rw [hnil] at hi
        exact absurd hi List.not_mem_nil
      · exact h.provides v (Or.inl hprovides) i hi
    · exact h.refers i ⟨v, hv, hi⟩
  called {p maker} := fun ⟨H, h⟩ hoffers key a => by
    -- the constructor knows what it has captured and what is kept, so its results are in the region
    obtain ⟨H', hmono, hloops, hmemory, hvalue⟩ := h.calls maker hoffers p.store H p.Scalar h.store
      (fun v hv => h.provides v (Or.inr ⟨maker, hoffers, hv⟩)) h.memory
    refine ⟨H', hloops, fun v hv i hi => hmono i (h.provides v hv i hi), hmemory,
      fun i ⟨v, hv, hi⟩ => ?_, h.calls⟩
    rcases Pass.knows_of_insert hv with ho | hv
    · refine hvalue v ?_ i hi
      have hended := contain_eq_ok (Option.some.inj ho)
      cases hcall : (p.environment.calls.run maker p.store).1 with
      | ok w =>
        rw [hcall] at hended
        exact congrArg Except.ok (Except.ok.inj hended)
      | error x =>
        rw [hcall] at hended
        cases hended
    · exact hmono i (h.refers i ⟨v, hv, hi⟩)
  conclude := fun ⟨_, h⟩ hw hspelled => h.conclude hw hspelled

/-! ### Documents -/

/-- A value that can be come by in the beginning: the namespace provides it, or a constructor has kept
it from calls that were made before. -/
def Namespace.Supplies (n : Namespace) (s : Store) (v : Value) : Prop :=
  n.Provides v ∨ v ∈ s.memory

/-- A record that such a value leads to. -/
def Namespace.LeadsTo (n : Namespace) (s : Store) (i : RecordId) : Prop :=
  ∃ v, n.Supplies s v ∧ ∃ r ∈ v.records, ReflTransGen s.Contains r i

/-- **Only values of scalars contain themselves** when a compile is done. -/
structure Compilation.LoopsAtScalars (c : Compilation) : Prop where
  /-- What can be reached from the result or from the namespace is inside itself exactly if it is the
  value of a scalar. -/
  inside : ∀ v, (c.process.1 = .ok v ∨ c.pass.environment.symbols.Provides v) →
    ∀ r ∈ v.records, ∀ i, ReflTransGen c.final.store.Contains r i →
      (TransGen c.final.store.Contains i i ↔ c.final.Scalar i)
  /-- Then it has itself as a property. -/
  loop : ∀ i, c.final.Scalar i → c.final.store.property? i "value" = some (.record i)
  /-- Without such scalars the result does not contain itself and has a JSON. -/
  acyclic : (∀ i, ¬ c.final.Scalar i) → ∀ v, c.process.1 = .ok v →
    c.final.store.Acyclic v ∧ (c.final.store.json? v).isSome = true

/-- In the beginning the region is what the namespace leads to, and no element is a scalar. -/
theorem Pass.Loops.begin {environment : Environment} {base : Option Locator} {store : Store}
    (hclosed : store.Closed)
    (hstored : ∀ v, environment.symbols.Supplies store v → ∀ i ∈ v.records, i < store.size)
    (hacyclic : ∀ v, environment.symbols.Supplies store v → store.Acyclic v)
    (hcalls : ∀ maker, environment.symbols.Offers maker → environment.calls.Acyclic maker) :
    (Pass.begin environment base store).Loops (environment.symbols.LeadsTo store) where
  store :=
    { below := fun _ ⟨v, hv, r, hr, hri⟩ => hclosed.lt_of_reaches (hstored v hv r hr) hri
      closed := fun _ _ ⟨v, hv, r, hr, hra⟩ hab => ⟨v, hv, r, hr, hra.tail hab⟩
      inside := fun i ⟨v, hv, r, hr, hri⟩ hii => absurd hii (hacyclic v hv r hr i hri)
      known := fun _ ⟨_, _, hc, _⟩ => by cases hc
      loop := fun _ ⟨_, _, hc, _⟩ => by cases hc }
  provides := fun v hv i hi => ⟨v, Or.inl hv, i, hi, .refl⟩
  memory := fun v hv i hi => ⟨v, Or.inr hv, i, hi, .refl⟩
  refers := fun _ ⟨_, hknows, _⟩ => absurd hknows Pass.not_knows_begin
  calls := hcalls

/-- **The only records inside themselves are values of scalars.** Let nothing that the namespace or
its constructors have lead to a record that is inside itself when a compile with the built-in kinds
begins, and let the constructors be acyclic. When the compile is done, a record that can be reached
from its value or from the namespace is inside itself exactly if it is the value of a scalar element,
and each of these has itself as the property `value`. So if no scalar has a record for its value, then
the value of the compile does not contain itself, and it has a JSON. -/
theorem compile_loopsAtScalars (world : World) (document : Document)
    (base workingDirectory : Option Locator) (store : Store) (hn : document.root.Numbered)
    (hclosed : store.Closed)
    (hstored : ∀ v, world.symbols.Supplies store v → ∀ i ∈ v.records, i < store.size)
    (hacyclic : ∀ v, world.symbols.Supplies store v → store.Acyclic v)
    (hcalls : ∀ maker, world.symbols.Offers maker → world.calls.Acyclic maker) :
    (Compilation.begin (.builtin world) document base workingDirectory
      store).LoopsAtScalars := by
  have hcat : (Environment.builtin world).catalog = .builtin := rfl
  obtain ⟨⟨H, hfinal⟩, hroot⟩ := kept_loops.compile (.builtin world) document base
    workingDirectory store hcat hn ⟨_, .begin hclosed hstored hacyclic hcalls⟩
  have hreached : ∀ v, ((Compilation.begin (.builtin world) document base workingDirectory
      store).process.1 = .ok v ∨ world.symbols.Provides v) → ∀ r ∈ v.records, H r := by
    rintro v (hv | hv) r hr
    · -- the value of the root is one that the pass has a hold of
      obtain ⟨k, hk, ho⟩ := hroot v hv
      exact hfinal.refers r ⟨v, Or.inl ⟨_, k, hk, Or.inr ho⟩, hr⟩
    · refine hfinal.provides v ?_ r hr
      rwa [Compilation.environment_final]
  -- every chain from a value that is reached stays in the region of the final pass
  have hiff := fun v hv r hr i hri =>
    hfinal.store.inside_itself_iff (hfinal.store.of_reaches (hreached v hv r hr) (b := i) hri)
  refine ⟨hiff, hfinal.store.loop, fun hno v hv => ?_⟩
  -- without a scalar record nothing is inside itself, so the value can be written out
  have hnone : Store.Acyclic _ v := fun r hr i hri hii =>
    hno i ((hiff v (Or.inl hv) r hr i hri).mp hii)
  exact ⟨hnone, Store.json?_isSome hnone⟩

/-! ### A record that is shared -/

/-- A constructor that has captured a record. -/
def kitMaker : Maker Value :=
  ⟨"kit", [.record 0]⟩

/-- A namespace with a record and with the constructor that has captured it. -/
def sharedSymbols : Namespace :=
  ⟨[("shared", .value (.record 0)), ("kit", .value (.constructor "kit" kitMaker))]⟩

/-- For each call there is a new record with a new part, in which the captured record is. -/
def kitLiteral : Literal :=
  .record "kit" [("part", .record "part" [] [.reference 0])] [.string "kit"]

def sharedWorld : World :=
  { World.empty with
    symbols := sharedSymbols
    calls := Literal.calls [("kit", kitLiteral)] }

def sharedStore : Store :=
  (Store.empty.make { className := "shared" }).2

/-- A scalar that stands for the record. -/
def sharedDraft : Markup.Draft :=
  ((Markup.Draft.leaf "data").withAttribute "type" "class").withAttribute "value" "shared"

/-- A scalar that stands for a new record. -/
def kitDraft : Markup.Draft :=
  ((Markup.Draft.leaf "data").withAttribute "type" "instance").withAttribute "value" "kit"

/-- A generic record around both. -/
def kitRoot : Element :=
  (Markup.Draft.build none 0 (((Markup.Draft.leaf "object").withChild sharedDraft).withChild
    kitDraft)).1

def kitCompile : Compilation :=
  .begin (.builtin sharedWorld) ⟨kitRoot, none⟩ none none sharedStore

theorem reflect_shared : sharedSymbols.reflect "shared" = .ok (.record 0) := by
  have hparts : Namespace.parts "shared" = ["shared"] := by decide +kernel
  rw [Namespace.reflect, hparts]
  rfl

theorem reflect_shared_cases {path : String} {v : Value} (h : sharedSymbols.reflect path = .ok v) :
    v = .record 0 ∨ v = .constructor "kit" kitMaker := by
  have hall : Namespace.HoldsAll (fun v => v = .record 0 ∨ v = .constructor "kit" kitMaker)
      sharedSymbols.root := ⟨Or.inl rfl, Or.inr rfl, trivial⟩
  exact hall.reflect h

theorem eq_of_offers_shared {maker : Maker Value} (h : sharedSymbols.Offers maker) :
    maker = kitMaker := by
  obtain ⟨path, name, hpath⟩ := h
  rcases reflect_shared_cases hpath with heq | heq
  · cases heq
  · exact (Value.constructor.inj heq).2

/-- There is only one record that the namespace has or that its constructor has captured. -/
theorem eq_of_provides_shared {v : Value} (h : sharedSymbols.Provides v) {i : RecordId}
    (hi : i ∈ v.records) : i = 0 := by
  rcases h with ⟨path, hv⟩ | ⟨maker, hoffers, hv⟩
  · rcases reflect_shared_cases hv with rfl | rfl
    · exact List.mem_singleton.mp hi
    · exact absurd hi List.not_mem_nil
  · rw [eq_of_offers_shared hoffers] at hv
    rw [List.mem_singleton.mp hv] at hi
    exact List.mem_singleton.mp hi

theorem storedIn_shared : sharedSymbols.StoredIn sharedStore := by
  intro v hv i hi
  rw [eq_of_provides_shared hv hi]
  exact Nat.zero_lt_one

theorem not_contains_shared (a b : RecordId) : ¬ sharedStore.Contains a b := by
  intro hab
  have ha : a = 0 := Nat.lt_one_iff.mp (Store.lt_size_of_contains hab)
  subst ha
  exact absurd hab List.not_mem_nil

theorem acyclic_shared (v : Value) : sharedStore.Acyclic v := by
  intro r _ a _ haa
  obtain ⟨b, hab, -⟩ := Relation.TransGen.head'_iff.mp haa
  exact not_contains_shared a b hab

/-- Both records have come to contain themselves: the one that was there, which is the value of one
scalar, and the new one, which is that of the other one. -/
theorem compile_loopsAtScalars_kit :
    kitRoot.Numbered ∧ sharedStore.Closed ∧
      (∀ v, sharedSymbols.Supplies sharedStore v → ∀ i ∈ v.records, i < sharedStore.size) ∧
      (∀ v, sharedSymbols.Supplies sharedStore v → sharedStore.Acyclic v) ∧
      (∀ maker, sharedSymbols.Offers maker → sharedWorld.calls.Acyclic maker) ∧
      kitCompile.LoopsAtScalars ∧ kitCompile.final.Scalar 0 ∧ kitCompile.final.Scalar 2 := by
  have hn : kitRoot.Numbered := Markup.Draft.numbered_build _ _ _
  have hclosed : sharedStore.Closed := fun a b hab => absurd hab (not_contains_shared a b)
  have hstored : ∀ v, sharedSymbols.Supplies sharedStore v → ∀ i ∈ v.records, i < sharedStore.size :=
    fun v hv => hv.elim (storedIn_shared v) fun hmemory => absurd hmemory List.not_mem_nil
  have hacyclic : ∀ v, sharedSymbols.Supplies sharedStore v → sharedStore.Acyclic v :=
    fun v _ => acyclic_shared v
  have hcalls : ∀ maker, sharedSymbols.Offers maker → sharedWorld.calls.Acyclic maker := by
    intro maker hoffers
    rw [eq_of_offers_shared hoffers]
    exact Literal.acyclic_calls (l := kitLiteral) rfl
  have hloops : kitCompile.LoopsAtScalars :=
    compile_loopsAtScalars sharedWorld ⟨kitRoot, none⟩ none none sharedStore hn hclosed hstored
      hacyclic hcalls
  -- the shared record and the one that was made for the root both contain themselves
  obtain ⟨hroot, hshared, hinside, hkit⟩ :
      kitCompile.process.1.toOption.bind Value.record? = some 3 ∧
        0 ∈ (kitCompile.final.store.get 0).records ∧ 2 ∈ (kitCompile.final.store.get 3).records ∧
        2 ∈ (kitCompile.final.store.get 2).records := by
    decide +kernel
  obtain ⟨v, hv, hrecord⟩ : ∃ v, kitCompile.process.1 = .ok v ∧ v.record? = some 3 := by
    cases hprocess : kitCompile.process.1 with
    | error e =>
      rw [hprocess] at hroot
      cases hroot
    | ok v =>
      rw [hprocess] at hroot
      exact ⟨v, rfl, hroot⟩
  have hthree : 3 ∈ v.records := by
    cases v with
    | record i => exact List.mem_singleton.mpr (Option.some.inj hrecord).symm
    | _ => cases hrecord
  refine ⟨hn, hclosed, hstored, hacyclic, hcalls, hloops, ?_, ?_⟩
  · exact (hloops.inside (.record 0) (Or.inr (Or.inl ⟨_, reflect_shared⟩)) 0
      (List.mem_singleton_self 0) 0 .refl).mp (.single hshared)
  · exact (hloops.inside v (Or.inl hv) 3 hthree 2 (.single hinside)).mp (.single hkit)

end ObjectMarkup
