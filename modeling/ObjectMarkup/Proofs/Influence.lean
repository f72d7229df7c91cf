import ObjectMarkup.Proofs.Loops

/-!
# Documents compiled one after the other

What a compile leaves behind in its environment are its records, what scalar elements have written
into old records that are their values, and what constructors keep for their next calls. The last of
these can be seen by any document: a constructor that counts its calls tells how many there were
before (`counting`). So let all constructors be steady. Then a document that is compiled after
another one makes the same reports and ends with the same value as it would alone, but for two things.
Its new records have higher numbers, which nobody can see (`shift`). And an old record into which the
first document has written shows what was written. This is all (`compile_separate`).

The second compile is compared with the same compile alone by going through both in lockstep. The
invariant `Pass.Shifts` says that the passes are the same up to the numbers of records, and so are
the records apart from those that were written into. What constructors keep is left out of it, since
it makes no difference to steady ones.
-/

namespace ObjectMarkup

open Markup (Element NodeId Document)
open Relation (TransGen ReflTransGen)

/-! ### The invariant -/

/-- What becomes of an attribute, with other numbers for the records of its value. -/
def Coercion.rename (ρ : RecordId → RecordId) (a : Coercion) : Coercion :=
  { a with outcome? := a.outcome?.map (Outcome.rename ρ) }

/-- **Two passes that are the same** up to the numbers of records, and so are the records apart from
some of the old ones. -/
structure Pass.Shifts (m k : Nat) (T : RecordId → Prop) (p q : Pass) : Prop where
  renames : p.Renames (shift m k) q
  coercions : p.coercions = q.coercions.map (Coercion.rename (shift m k))
  attributes : q.SoundAttributes
  /-- What the namespace provides is old. -/
  provides : ∀ v, q.environment.symbols.Provides v → ∀ i ∈ v.records, i < m
  calls : ∀ maker, q.environment.symbols.Offers maker → q.environment.calls.Steady m maker
  stores : Store.Shifts m k T p.store q.store

namespace Pass.Shifts

variable {m k : Nat} {T : RecordId → Prop} {p q : Pass}

theorem coercionFor (h : p.Shifts m k T q) (key : AttributeKey) (base : Option Locator)
    (r : Reading) :
    p.coercionFor key base r = (q.coercionFor key base r).rename (shift m k) := by
  unfold Pass.coercionFor
  rw [h.coercions, OrderedMap.get?_map]
  cases q.coercions.get? key with
  | some a => rfl
  | none =>
    rw [h.renames.base]
    rfl

theorem take (h : p.Shifts m k T q) (e : Element) (name : String) (o : Outcome Value) :
    (p.take e name (Outcome.rename (shift m k) o)).Shifts m k T (q.take e name o) := by
  have hrenames := h.renames.take e name o
  cases o with
  | ok v => exact { h with renames := hrenames }
  | error error => exact { h with renames := hrenames }

/-- An attribute comes to something in both passes, and the element takes it. -/
theorem answer (h : p.Shifts m k T q) {key : AttributeKey} {a : Coercion}
    (ha : a.Sound q.environment q.base key) {run run' : Except Stop Value × Store}
    (hrun : Hook.exec (a.hooks q.environment) q.store = run')
    (hout : contain run.1 = Outcome.rename (shift m k) (contain run'.1))
    (hstores : Store.Shifts m k T run.2 run'.2) (calls calls' : List (HookCall × Bool))
    (e : Element) (name : String) :
    (Pass.take { p.answer key (a.rename (shift m k)) run with calls := calls } e name
        (contain run.1)).Shifts m k T
      (Pass.take { q.answer key a run' with calls := calls' } e name (contain run'.1)) := by
  subst hrun
  have hanswer : ({ p.answer key (a.rename (shift m k)) run with calls := calls }).Shifts m k T
      { q.answer key a (Hook.exec (a.hooks q.environment) q.store) with calls := calls' } :=
    { renames := h.renames.frame _ _ _ _ _ _
      coercions := by
        rw [Pass.answer, Pass.answer, OrderedMap.map_insert, ← h.coercions, hout]
        rfl
      attributes := h.attributes.answer ha q.store
      provides := h.provides
      calls := h.calls
      stores := hstores }
  rw [hout]
  exact hanswer.take e name _

/-- **An attribute** is compiled in both passes. -/
theorem compileAttribute (h : p.Shifts m k T q) (hb : p.Builtin) (c : Construction)
    (name raw : String) :
    (Hook.exec (ObjectMarkup.compileAttribute c name raw) q).1 = .ok () ∧
      (Hook.exec (ObjectMarkup.compileAttribute c name raw) p).2.Shifts m k T
        (Hook.exec (ObjectMarkup.compileAttribute c name raw) q).2 := by
  have hcat : q.environment.catalog = .builtin :=
    (congrArg Environment.catalog h.renames.environment).trans hb.catalog
  obtain ⟨calls, hp⟩ := exec_compileAttribute_builtin hb.catalog hb.sound.coercions c name raw
  obtain ⟨calls', hq⟩ := exec_compileAttribute_builtin hcat h.attributes c name raw
  rw [hp, hq]
  refine ⟨rfl, ?_⟩
  by_cases hstring : c.schema.typeOf name = "string"
  · rw [if_pos hstring, if_pos hstring]
    -- a string has no records, so it is the same in both passes
    exact { h with renames := h.renames.setValue c.node.id name (.string raw) }
  · rw [if_neg hstring, if_neg hstring]
    generalize AttributeKey.ofType name (c.schema.typeOf name) raw = key
    simp only
    cases hr : Reading.ofType? key.type with
    | none => exact { h with renames := h.renames.report _ }
    | some r =>
      have hsound := Pass.sound_coercionFor hcat h.attributes hr c.node.base
      have hkind := Pass.kind_coercionFor hcat h.attributes hr c.node.base
      simp only [h.coercionFor key c.node.base r, ← h.renames.environment]
      generalize q.coercionFor key c.node.base r = a at hsound hkind
      have hopen : (a.rename (shift m k)).outcome? = a.outcome?.map (Outcome.rename (shift m k)) :=
        rfl
      have hhooks : (a.rename (shift m k)).hooks q.environment = a.hooks q.environment := rfl
      rw [hopen, hhooks]
      cases ho : a.outcome? with
      -- settled in both passes, and to the same but for the numbers
      | some o => exact h.take _ _ o
      | none =>
        rcases Reading.hooks_cases q.environment hkind with ⟨ending, hends, hgives⟩ |
          ⟨maker, -, hoffers, hasks⟩
        · -- the namespace has old records only, and these have the same numbers in both passes
          have hsame := hgives.rename_contain (ρ := shift m k)
            fun v hv i hi => shift_of_lt (h.provides v hv i hi)
          rw [hends p.store, hends q.store]
          exact h.answer hsound (hends q.store) hsame.symm h.stores calls calls' c.node name
        · -- the constructor does in both passes what it does in each call
          obtain ⟨b, hb⟩ := h.calls maker hoffers
          have hsize := h.stores.size
          have hlarge : m ≤ p.store.size := hsize ▸ Nat.le_add_right_of_le h.stores.old
          have hleft := hb.adds p.store hlarge
          rw [hsize, b.recordsAt_add h.stores.old] at hleft
          rw [hasks p.store, hasks q.store]
          refine h.answer hsound (hasks q.store) ?_ (h.stores.adds hleft (hb.adds q.store h.stores.old))
            calls calls' c.node name
          rw [hb.outcome hlarge, hb.outcome h.stores.old, hsize, b.outcomeAt_add h.stores.old]

/-- An element gets its value in both passes. -/
theorem conclude (h : p.Shifts m k T q) (r : Rule) (e : Element) :
    (p.conclude r e).Shifts m k T (q.conclude r e) := by
  have hmade : ∀ (v : Value) {s t : Store}, q.makes r e = (v, t) →
      p.makes r e = (v.rename (shift m k), s) → Store.Shifts m k T s t →
      (p.conclude r e).Shifts m k T (q.conclude r e) := by
    intro v s t hq hp hstores
    rw [Pass.conclude, Pass.conclude, hp, hq]
    exact { h with
      renames := (h.renames.frame s t p.calls q.calls p.coercions q.coercions).settle e.id (.ok v)
      stores := hstores }
  -- both passes write, keep or make the same, under shifted numbers
  cases h.renames.makesAlike r e with
  | written _ _ hq hp =>
    refine hmade (.record _) hq hp (h.stores.modify _ fun record => ?_)
    rw [h.renames.values]
    exact Record.rename_scalar _ _ record
  | kept _ _ _ hq hp => exact hmade _ hq hp h.stores
  | @made record _ _ hq hp =>
    refine hmade (.record q.store.size) hq ?_ (h.stores.make record)
    rw [Value.rename, h.stores.shift_size]
    exact hp

/-- **The passes stay the same** in each small step. -/
theorem lockstep (m k : Nat) (T : RecordId → Prop) :
    Lockstep ObjectMarkup.compileAttribute (fun _ => True) (Pass.Shifts m k T) where
  environment h := h.renames.environment
  released h := h.renames.released
  absent h := h.renames.absent
  begun h _ hc := h.renames.begun hc
  handDown h hb parent child := h.renames.handDown hb parent child
  remember h _ _ := { h with renames := h.renames.frame _ _ _ _ _ _ }
  report h d := { h with renames := h.renames.report d }
  adopt h parent child := { h with renames := h.renames.adopt parent child }
  start h _ := { h with renames := h.renames.start _ _ }
  attributeStep h hw _ _ _ := h.compileAttribute hw.builtin _ _ _
  conclude h _ _ _ := h.conclude _ _

end Pass.Shifts

/-! ### What is left behind -/

/-- A record with nothing changed in it but what scalars write. -/
structure Record.Spares (r r' : Record) : Prop where
  className : r'.className = r.className
  children : r'.children = r.children
  properties : ∀ name, name ∉ scalarProperties.map Prod.fst →
    r'.properties.get? name = r.properties.get? name

namespace Record

variable {r r' : Record}

theorem Spares.refl (r : Record) : r.Spares r :=
  ⟨rfl, rfl, fun _ _ => rfl⟩

theorem Spares.scalar (h : r.Spares r') (values : OrderedMap String Value) :
    r.Spares (r'.scalar values) := by
  -- each property that is set has one of the names that scalars write
  have hset : ∀ properties : List (String × String),
      (∀ property ∈ properties, property.1 ∈ scalarProperties.map Prod.fst) →
      ∀ {r'}, r.Spares r' → r.Spares (r'.setAll values properties) := by
    intro properties
    induction properties with
    | nil => exact fun _ _ h => h
    | cons property rest ih =>
      intro hmem r' h
      obtain ⟨hfirst, hrest⟩ := List.forall_mem_cons.mp hmem
      refine ih hrest ?_
      unfold setFrom
      cases values.get? property.2 with
      | none => exact h
      | some v =>
        refine ⟨h.className, h.children, fun name hname => ?_⟩
        have hne : name ≠ property.1 := fun heq => hname (heq ▸ hfirst)
        exact (OrderedMap.get?_insert_of_ne _ hne v).trans (h.properties name hname)
  exact hset _ (fun property hproperty => List.mem_map_of_mem hproperty) h

end Record

/-- **What a compile leaves behind** in a store: old records with nothing changed in them but what
scalars write into their values, and new ones. -/
structure Pass.Spares (s₀ : Store) (p : Pass) : Prop where
  size : s₀.size ≤ p.store.size
  /-- Old records are what they were, apart from values of scalars. -/
  kept : ∀ i < s₀.size, ¬ p.Scalar i → p.store.get i = s₀.get i
  spares : ∀ i < s₀.size, (s₀.get i).Spares (p.store.get i)
  closed : p.store.Closed
  refers : ∀ i, p.Refers i → i < p.store.size
  stored : p.environment.symbols.StoredIn s₀
  calls : ∀ maker, p.environment.symbols.Offers maker → p.environment.calls.Steady s₀.size maker

namespace Pass.Spares

variable {s₀ : Store} {p q : Pass}

theorem begin {environment : Environment} {base : Option Locator} (hclosed : s₀.Closed)
    (hstored : environment.symbols.StoredIn s₀)
    (hcalls : ∀ maker, environment.symbols.Offers maker → environment.calls.Steady s₀.size maker) :
    (Pass.begin environment base s₀).Spares s₀ where
  size := Nat.le_refl _
  kept := fun _ _ _ => rfl
  spares := fun _ _ => Record.Spares.refl _
  closed := hclosed
  refers := fun _ ⟨_, hknows, _⟩ => absurd hknows Pass.not_knows_begin
  stored := hstored
  calls := hcalls

/-- A step that leaves the records alone. -/
theorem same_store (h : p.Spares s₀) (henv : q.environment = p.environment)
    (hstore : q.store = p.store) (hrefers : ∀ i, q.Refers i → i < s₀.size ∨ p.Refers i)
    (hscalar : ∀ i, q.Scalar i ↔ p.Scalar i) : q.Spares s₀ where
  size := hstore ▸ h.size
  kept i hi hns := hstore ▸ h.kept i hi fun hs => hns ((hscalar i).mpr hs)
  spares := hstore ▸ h.spares
  closed := hstore ▸ h.closed
  refers i hi := by
    rw [hstore]
    rcases hrefers i hi with hi | hi
    · exact Nat.lt_of_lt_of_le hi h.size
    · exact h.refers i hi
  stored := henv ▸ h.stored
  calls := henv ▸ h.calls

/-- Records are added, made of what there is. -/
theorem adds (h : p.Spares s₀) {rs : List Record} (henv : q.environment = p.environment)
    (hadds : p.store.Adds rs q.store) (hrs : ∀ r ∈ rs, ∀ i ∈ r.records, i < q.store.size)
    (hrefers : ∀ i, q.Refers i → i < q.store.size)
    (hscalar : ∀ i, q.Scalar i ↔ p.Scalar i) : q.Spares s₀ where
  size := Nat.le_trans h.size hadds.size_le
  kept i hi hns := by
    rw [hadds.old i (Nat.lt_of_lt_of_le hi h.size)]
    exact h.kept i hi fun hs => hns ((hscalar i).mpr hs)
  spares i hi := by
    rw [hadds.old i (Nat.lt_of_lt_of_le hi h.size)]
    exact h.spares i hi
  closed := hadds.closed h.closed hrs
  refers := hrefers
  stored := henv ▸ h.stored
  calls := henv ▸ h.calls

/-- The value of a scalar is written into. -/
theorem write (h : p.Spares s₀) {e : Element} {k : Construction} (hspelled : k.Spelled .data e)
    {i : RecordId} (hi : k.values.get? "value" = some (.record i)) (hlt : i < p.store.size)
    (henv : q.environment = p.environment)
    (hstore : q.store = p.store.modify i (Record.scalar k.values))
    (hrefers : ∀ j, q.Refers j → j = i ∨ p.Refers j)
    (hscalar : ∀ j, q.Scalar j ↔ p.Scalar j ∨ j = i) : q.Spares s₀ := by
  -- one record changes, and it is the value of a scalar from now on
  have hget : ∀ j, q.store.get j
      = if j = i then Record.scalar k.values (p.store.get i) else p.store.get j := fun j => by
    rw [hstore, Store.get_modify hlt]
  have hsize : q.store.size = p.store.size := by rw [hstore, Store.size_modify]
  refine ⟨hsize ▸ h.size, fun j hj hns => ?kept, fun j hj => ?spares, ?closed,
    fun j hj => ?refers, henv ▸ h.stored, henv ▸ h.calls⟩
  case kept =>
    have hne : j ≠ i := fun heq => hns ((hscalar j).mpr (Or.inr heq))
    rw [hget, if_neg hne]
    exact h.kept j hj fun hs => hns ((hscalar j).mpr (Or.inl hs))
  case spares =>
    rw [hget]
    split
    · -- into a value of the namespace, if it is one: but only the properties of scalars
      next heq =>
      subst heq
      exact (h.spares j hj).scalar k.values
    · exact h.spares j hj
  case closed =>
    rw [hstore]
    exact h.closed.modify hlt fun _ _ => mem_records_scalar hspelled hi
  case refers =>
    rw [hsize]
    rcases hrefers j hj with rfl | hj
    · exact hlt
    · exact h.refers j hj

/-- An element gets its value. -/
theorem conclude (h : p.Spares s₀) {r : Rule} {e : Element} {k : Construction}
    (hw : p.WorksOn r e k) (hspelled : k.Spelled r e) : (p.conclude r e).Spares s₀ := by
  have hvalues : p.values e.id = k.values := Pass.values_eq hw.get
  have hstore : (p.conclude r e).store = (p.makes r e).2 := rfl
  have hscalar := fun i => Pass.scalar_conclude (i := i) hw.toOpens
  have hrefers : ∀ i, (p.conclude r e).Refers i → i ∈ (p.makes r e).1.records ∨ p.Refers i := by
    rintro i ⟨v, hv, hi⟩
    rcases Pass.knows_of_settle hv with rfl | hv
    · exact Or.inl hi
    · exact Or.inr ⟨v, hv, hi⟩
  have hknown : ∀ v, (p.values e.id).get? "value" = some v → ∀ i ∈ v.records, p.Refers i :=
    fun v hv i hi => ⟨v, Pass.knows_of_values (OrderedMap.mem_entries_of_get? hv), hi⟩
  -- a scalar writes into the record it has, any other element makes a new one
  by_cases hr : r = .data
  · subst hr
    by_cases hrecord : ∃ i, (p.values e.id).get? "value" = some (.record i)
    · obtain ⟨i, hi⟩ := hrecord
      have hlt := h.refers i (hknown _ hi i (List.mem_singleton_self i))
      rw [Pass.makes_written hi] at hstore hscalar hrefers
      rw [hvalues] at hi hstore
      refine h.write hspelled hi hlt rfl hstore
        (fun j hj => (hrefers j hj).imp_left List.mem_singleton.mp)
        fun j => (hscalar j).trans (or_congr_right ⟨fun hj => ?_, fun hj => ⟨rfl, ?_⟩⟩)
      · exact (Value.record.inj hj.2).symm
      · exact congrArg Value.record hj.symm
    · -- its value is no record, so nothing is written
      have hkept := Pass.makes_kept (not_exists.mp hrecord)
      refine h.same_store rfl (hstore.trans (congrArg Prod.snd hkept)) (fun i hi => Or.inr ?_)
        fun i => (hscalar i).trans (or_iff_left fun hi => hrecord ⟨i, Pass.makes_eq_record.mp hi.2⟩)
      rcases hrefers i hi with hi | hi
      · rw [hkept] at hi
        cases hv : (p.values e.id).get? "value" with
        | none =>
          rw [hv] at hi
          exact absurd hi List.not_mem_nil
        | some v =>
          rw [hv] at hi
          exact hknown v hv i hi
      · exact hi
  · rw [Pass.makes_of_ne_data hr] at hrefers hstore
    have hadds := Store.Adds.make p.store (r.record e (p.values e.id) (p.childViews e.id))
    rw [← hstore] at hadds
    refine h.adds rfl hadds (fun r hr i hi => ?_) (fun i hi => ?_)
      fun i => (hscalar i).trans (or_iff_left fun hi => hr hi.1)
    · rw [List.mem_singleton.mp hr] at hi
      exact Nat.lt_of_lt_of_le (h.refers i (Pass.refers_of_record hi)) hadds.size_le
    · rcases hrefers i hi with hi | hi
      · rw [List.mem_singleton.mp hi, hadds.size]
        exact Nat.lt_succ_self _
      · exact Nat.lt_of_lt_of_le (h.refers i hi) hadds.size_le

end Pass.Spares

namespace Compilation

/-- The compile of another document in the environment as it was left. -/
def next (c : Compilation) (document : Document) (base workingDirectory : Option Locator) :
    Compilation :=
  .begin c.final.environment document base workingDirectory c.final.store

end Compilation

/-- A value with other numbers, each for one record only, shows the same if all that it leads to is
the same up to the numbers. -/
theorem Store.tree_rename_of_reaches {ρ : RecordId → RecordId} {s t : Store} (hclosed : t.Closed)
    (hinjective : ∀ a b, ρ a = ρ b → a = b) (hlt : ∀ b < t.size, ρ b < s.size) {v : Value}
    (hv : ∀ r ∈ v.records, r < t.size)
    (hget : ∀ r ∈ v.records, ∀ i, ReflTransGen t.Contains r i → s.get (ρ i) = (t.get i).rename ρ) :
    s.tree (v.rename ρ) = t.tree v := by
  have hmirrors : Mirrors ρ (fun b => ∃ r ∈ v.records, ReflTransGen t.Contains r b) s t := by
    refine ⟨fun b ⟨r, hr, hrb⟩ => ?_, fun a b ⟨r, hr, hra⟩ hab => ⟨r, hr, hra.tail hab⟩,
      fun b ⟨r, hr, hrb⟩ => hget r hr b hrb, fun a b _ _ hsame => hinjective a b hsame⟩
    have hb := hclosed.lt_of_reaches (hv r hr) hrb
    exact ⟨hb, hlt b hb⟩
  exact hmirrors.tree_rename fun b hb => ⟨b, hb, .refl⟩

/-- A value shows as before if it does not lead to the value of a scalar. -/
theorem Pass.Spares.tree_eq {s₀ : Store} {p : Pass} (h : p.Spares s₀) (hclosed : s₀.Closed)
    {v : Value} (hv : ∀ r ∈ v.records, r < s₀.size)
    (hno : ∀ r ∈ v.records, ∀ i, ReflTransGen s₀.Contains r i → ¬ p.Scalar i) :
    p.store.tree v = s₀.tree v := by
  have htree : p.store.tree (v.rename id) = s₀.tree v := by
    refine Store.tree_rename_of_reaches hclosed (fun _ _ hsame => hsame)
      (fun b hb => Nat.lt_of_lt_of_le hb h.size) hv fun r hr i hri => ?_
    have hkept := h.kept i (hclosed.lt_of_reaches (hv r hr) hri) (hno r hr i hri)
    exact hkept.trans (Record.rename_eq_self fun _ _ => rfl).symm
  rwa [Value.rename_id] at htree

end ObjectMarkup
