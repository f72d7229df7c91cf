import ObjectMarkup.Proofs.Calls

/-!
# What scalars write into instances

A scalar whose value is a record writes its name, its type and the record itself into the record
(`Record.stamp`). If constructors are steady, nothing else is ever written into an instance after it
was made. So as long as all scalars with this value agree on name and type, there are only two things
that an instance can be: what it was made as, if it is the value of no scalar yet, and else what any
one of them writes into that (`Pass.Dressed`). The order in which they have written, and how many they
are, cannot be seen.
-/

namespace ObjectMarkup

open Markup (Element NodeId)

/-! ### Stamps -/

namespace Record

def setText (r : Record) (name : String) : Option String → Record
  | some text => r.set name (.string text)
  | none => r

/-- What a scalar writes into the record that is its value. -/
def stamp (r : Record) (e : Element) (i : RecordId) : Record :=
  ((r.setText "name" (e.attribute? "name")).setText "type" (e.attribute? "type")).set "value"
    (.record i)

theorem scalar_eq_stamp {k : Construction} {e : Element} (hspelled : k.Spelled .data e)
    {i : RecordId} (hi : k.values.get? "value" = some (.record i)) (r : Record) :
    Record.scalar k.values r = r.stamp e i := by
  have htext : ∀ (r : Record) name, (Rule.data.schema e).typeOf name = "string" →
      setFrom k.values r (name, name) = r.setText name (e.attribute? name) := by
    intro r name hs
    unfold setFrom
    rw [hspelled name hs]
    cases e.attribute? name <;> rfl
  rw [Record.scalar, setAll, scalarProperties, List.foldl_cons, List.foldl_cons, List.foldl_cons,
    List.foldl_nil, htext _ "name" rfl, htext _ "type" rfl, setFrom, hi, stamp]

section Stamp

variable {r : Record} {e n : Element} {i : RecordId}

theorem rename_setText (ρ : RecordId → RecordId) (r : Record) (name : String)
    (text : Option String) : (r.setText name text).rename ρ = (r.rename ρ).setText name text := by
  cases text with
  | none => rfl
  | some text => exact rename_set ρ r name _

theorem rename_stamp (ρ : RecordId → RecordId) (r : Record) (e : Element) (i : RecordId) :
    (r.stamp e i).rename ρ = (r.rename ρ).stamp e (ρ i) := by
  rw [stamp, rename_set, rename_setText, rename_setText]
  rfl

theorem setText_of_get? {name : String} {text : Option String}
    (h : ∀ raw, text = some raw → r.properties.get? name = some (.string raw)) :
    r.setText name text = r := by
  cases text with
  | none => rfl
  | some raw => exact congrArg (Record.mk _ · _) (OrderedMap.insert_of_get? (h raw rfl))

theorem get?_setText {name other : String} {text : Option String} (h : other ≠ name) :
    (r.setText name text).properties.get? other = r.properties.get? other := by
  cases text with
  | none => rfl
  | some raw => exact OrderedMap.get?_insert_of_ne _ h _

/-- A stamp that is there already. -/
theorem stamp_stamp : (r.stamp e i).stamp e i = r.stamp e i := by
  -- each property is there already with the value it is set to
  have hname : ∀ raw, e.attribute? "name" = some raw →
      (r.stamp e i).properties.get? "name" = some (.string raw) := by
    intro raw hraw
    rw [stamp, set, OrderedMap.get?_insert_of_ne _ (by decide), get?_setText (by decide), hraw]
    exact OrderedMap.get?_insert_self _ _ _
  have htype : ∀ raw, e.attribute? "type" = some raw →
      (r.stamp e i).properties.get? "type" = some (.string raw) := by
    intro raw hraw
    rw [stamp, set, OrderedMap.get?_insert_of_ne _ (by decide), hraw]
    exact OrderedMap.get?_insert_self _ _ _
  have hvalue : (r.stamp e i).properties.get? "value" = some (.record i) :=
    OrderedMap.get?_insert_self _ _ _
  rw [stamp, setText_of_get? hname, setText_of_get? htype]
  exact congrArg (Record.mk _ · _) (OrderedMap.insert_of_get? hvalue)

end Stamp

end Record

/-! ### Instances -/

/-- The record is the value of scalars with different names or types. -/
def Pass.Disputed (p : Pass) (i : RecordId) : Prop :=
  ∃ n n', p.Stands n i ∧ p.Stands n' i ∧
    (n.attribute? "name" ≠ n'.attribute? "name" ∨ n.attribute? "type" ≠ n'.attribute? "type")

theorem Pass.Disputed.mono {p q : Pass} {i j : RecordId} (h : p.Disputed i)
    (hstands : ∀ n, p.Stands n i → q.Stands n j) : q.Disputed j := by
  obtain ⟨n, n', hn, hn', hne⟩ := h
  exact ⟨n, n', hstands n hn, hstands n' hn', hne⟩

/-- The same elements stand for records with other numbers. -/
theorem Pass.Renames.stands {ρ : RecordId → RecordId} {p q : Pass} (h : p.Renames ρ q) {n : Element}
    {a : RecordId} : p.Stands n a ↔ ∃ b, q.Stands n b ∧ ρ b = a := by
  constructor
  · rintro ⟨id, k, hk, hnode, hkind, ho⟩
    rw [h.get?, Option.map_eq_some_iff] at hk
    obtain ⟨c, hc, rfl⟩ := hk
    obtain ⟨o, hout, hrename⟩ := Option.map_eq_some_iff.mp ho
    -- a renamed outcome is a record only if the outcome was one
    rcases o with e | v
    · cases hrename
    · cases v with
      | record b =>
        cases hrename
        exact ⟨b, ⟨id, c, hc, hnode, hkind, hout⟩, rfl⟩
      | _ => cases hrename
  · rintro ⟨b, ⟨id, c, hc, hnode, hkind, ho⟩, rfl⟩
    refine ⟨id, c.rename ρ, by rw [h.get?, hc, Option.map_some], hnode, hkind, ?_⟩
    rw [Construction.rename, ho]
    rfl

/-- Scalars that agree write the same. -/
theorem Record.stamp_eq_of_not_disputed {p : Pass} {i : RecordId} (h : ¬ p.Disputed i)
    {n n' : Element} (hn : p.Stands n i) (hn' : p.Stands n' i) (r : Record) :
    r.stamp n i = r.stamp n' i := by
  have hname : n.attribute? "name" = n'.attribute? "name" :=
    Decidable.of_not_not fun hne => h ⟨n, n', hn, hn', Or.inl hne⟩
  have htype : n.attribute? "type" = n'.attribute? "type" :=
    Decidable.of_not_not fun hne => h ⟨n, n', hn, hn', Or.inr hne⟩
  rw [stamp, stamp, hname, htype]

/-- **What can be in an instance** that was made as this record. -/
structure Pass.Dressed (p : Pass) (i : RecordId) (made : Record) : Prop where
  blank : (∀ n, ¬ p.Stands n i) → p.store.get i = made
  written : ¬ p.Disputed i → ∀ n, p.Stands n i → p.store.get i = made.stamp n i

namespace Pass.Dressed

variable {p q : Pass} {i : RecordId} {made : Record}

theorem congr (h : p.Dressed i made) (hstands : ∀ n, q.Stands n i ↔ p.Stands n i)
    (hget : q.store.get i = p.store.get i) : q.Dressed i made where
  blank hno := hget.trans (h.blank fun n hn => hno n ((hstands n).mpr hn))
  written hnd n hn := hget.trans
    (h.written (fun hd => hnd (hd.mono fun n => (hstands n).mpr)) n ((hstands n).mp hn))

/-- A record that is the value of no element. -/
theorem of_get (hget : p.store.get i = made) (hno : ∀ n, ¬ p.Stands n i) : p.Dressed i made :=
  ⟨fun _ => hget, fun _ n hn => absurd hn (hno n)⟩

/-- **Whatever element gets its value,** instances stay what they can be. -/
theorem conclude (h : p.Dressed i made) {r : Rule} {e : Element} {k : Construction}
    (ho : p.Opens r e k) (hspelled : k.Spelled r e) (hi : i < p.store.size) :
    (p.conclude r e).Dressed i made := by
  have hvalues : p.values e.id = k.values := Pass.values_eq ho.get
  -- the record is written only by a `data` element whose value it is
  by_cases hwritten : r = .data ∧ (p.values e.id).get? "value" = some (.record i)
  · obtain ⟨rfl, hv⟩ := hwritten
    have hmakes := Pass.makes_written hv
    have hget : (p.conclude .data e).store.get i = (p.store.get i).stamp e i := by
      show (p.makes .data e).2.get i = _
      rw [hmakes, Store.get_modify_self hi, hvalues]
      exact Record.scalar_eq_stamp hspelled (hvalues ▸ hv) _
    have hself : (p.conclude .data e).Stands e i :=
      (Pass.stands_conclude ho).mpr (Or.inr ⟨rfl, rfl, congrArg Prod.fst hmakes⟩)
    have hmono : ∀ n, p.Stands n i → (p.conclude .data e).Stands n i :=
      fun n hn => (Pass.stands_conclude ho).mpr (Or.inl hn)
    refine ⟨fun hno => absurd hself (hno e), fun hnd n hn => ?_⟩
    -- undisputed, all elements the record stands for write the same
    have hsame : ∀ n, (p.conclude .data e).Stands n i → ∀ r : Record, r.stamp n i = r.stamp e i :=
      fun n hn r => Record.stamp_eq_of_not_disputed hnd hn hself r
    rw [hget, hsame n hn]
    by_cases hbefore : ∃ n₀, p.Stands n₀ i
    · -- what was written before is written once more
      obtain ⟨n₀, hn₀⟩ := hbefore
      rw [h.written (fun hd => hnd (hd.mono hmono)) n₀ hn₀, hsame n₀ (hmono n₀ hn₀),
        Record.stamp_stamp]
    · rw [h.blank (not_exists.mp hbefore)]
  · -- otherwise the record is not touched, and no element comes to stand for it
    refine h.congr (fun n => (Pass.stands_conclude ho).trans (or_iff_left fun hn => hwritten ?_))
      (Pass.get_makes hi hwritten)
    obtain ⟨-, rfl, hv⟩ := hn
    exact ⟨rfl, Pass.makes_eq_record.mp hv⟩

end Pass.Dressed

/-! ### Scalars that are still worked on -/

/-- The record is the value of the attribute of a scalar, and it is or will be the value of the
scalar. -/
structure Construction.Claims (c : Construction) (i : RecordId) : Prop where
  kind : c.kind = Kind.data
  value : c.values.get? "value" = some (.record i)
  outcome : ∀ o, c.outcome? = some o → o = .ok (.record i)

def Pass.Claims (p : Pass) (i : RecordId) : Prop :=
  ∃ id c, p.constructions.get? id = some c ∧ c.Claims i

/-- The record is the value of the attribute of a scalar or of a scalar itself. -/
def Construction.Bears (c : Construction) (i : RecordId) : Prop :=
  c.kind = Kind.data ∧
    (c.values.get? "value" = some (.record i) ∨ c.outcome? = some (.ok (.record i)))

def Pass.Bears (p : Pass) (i : RecordId) : Prop :=
  ∃ id c, p.constructions.get? id = some c ∧ c.Bears i

theorem Pass.Stands.bears {p : Pass} {n : Element} {i : RecordId} (h : p.Stands n i) : p.Bears i := by
  obtain ⟨id, c, hc, -, hkind, ho⟩ := h
  exact ⟨id, c, hc, hkind, Or.inr ho⟩

theorem Pass.Bears.refers {p : Pass} {i : RecordId} (h : p.Bears i) : p.Refers i := by
  obtain ⟨id, c, hc, -, hv | ho⟩ := h
  · exact ⟨_, Or.inl ⟨id, c, hc, Or.inl ⟨_, OrderedMap.mem_entries_of_get? hv⟩⟩,
      List.mem_singleton_self i⟩
  · exact ⟨_, Or.inl ⟨id, c, hc, Or.inr ho⟩, List.mem_singleton_self i⟩

section Steps

variable {p : Pass} {r : Rule} {e : Element} {k : Construction} {id : NodeId} {i : RecordId}

theorem Pass.Claims.modify (h : p.Claims i) {f : Construction → Construction}
    (hf : ∀ c, p.constructions.get? id = some c → c.Claims i → (f c).Claims i) :
    (p.modifyConstruction id f).Claims i := by
  obtain ⟨id', c, hc, hclaims⟩ := h
  by_cases heq : id' = id
  · subst heq
    refine ⟨id', f c, ?_, hf c hc hclaims⟩
    rw [Pass.modifyConstruction, OrderedMap.get?_modify_self, hc, Option.map_some]
  · refine ⟨id', c, ?_, hclaims⟩
    rw [Pass.modifyConstruction, OrderedMap.get?_modify_of_ne _ heq, hc]

theorem Pass.bears_of_modify {f : Construction → Construction} {P : Prop}
    (hf : ∀ c, p.constructions.get? id = some c → (f c).Bears i → P ∨ c.Bears i)
    (h : (p.modifyConstruction id f).Bears i) : P ∨ p.Bears i := by
  obtain ⟨id', c', hc', hbears⟩ := h
  rw [Pass.modifyConstruction, OrderedMap.get?_modify] at hc'
  split at hc'
  · obtain ⟨c, hc, rfl⟩ := Option.map_eq_some_iff.mp hc'
    exact (hf c hc hbears).imp_right fun hbears => ⟨id, c, hc, hbears⟩
  · exact Or.inr ⟨id', c', hc', hbears⟩

theorem Pass.Claims.start (h : p.Claims i) (hnone : p.constructions.get? e.id = none) :
    (p.start r e).Claims i := by
  obtain ⟨id, c, hc, hclaims⟩ := h
  have hne : id ≠ e.id := by
    rintro rfl
    rw [hnone] at hc
    cases hc
  exact ⟨id, c, (OrderedMap.get?_insert_of_ne _ hne _).trans hc, hclaims⟩

theorem Pass.bears_of_start (h : (p.start r e).Bears i) : p.Bears i := by
  obtain ⟨id, c, hc, hbears⟩ := h
  rw [Pass.start, OrderedMap.get?_insert] at hc
  split at hc
  · -- a construction that is begun has no values
    cases hc
    obtain ⟨-, hv | ho⟩ := hbears
    · cases hv
    · cases ho
  · exact ⟨id, c, hc, hbears⟩

/-- A value that comes to an attribute without one. -/
theorem Pass.Claims.setValue (h : p.Claims i) (hk : p.constructions.get? id = some k) {name : String}
    (hnone : k.values.get? name = none) (v : Value) : (p.setValue id name v).Claims i := by
  refine h.modify fun c hc hclaims => ⟨hclaims.kind, ?_, hclaims.outcome⟩
  rw [hk] at hc
  cases hc
  have hne : "value" ≠ name := by
    rintro rfl
    rw [hclaims.value] at hnone
    cases hnone
  exact (OrderedMap.get?_insert_of_ne _ hne v).trans hclaims.value

/-- A scalar claims the record that it takes for its value. -/
theorem Pass.claims_setValue (ho : p.Opens .data e k) (i : RecordId) :
    (p.setValue e.id "value" (.record i)).Claims i := by
  refine ⟨e.id, _, Pass.get?_setValue ho.get "value" _, ho.kind,
    OrderedMap.get?_insert_self _ _ _, fun o hout => ?_⟩
  have hout : k.outcome? = some o := hout
  rw [ho.unsettled] at hout
  cases hout

theorem Pass.bears_of_setValue {name : String} {v : Value} (h : (p.setValue id name v).Bears i) :
    (name = "value" ∧ v = .record i) ∨ p.Bears i := by
  refine Pass.bears_of_modify (fun c _ ⟨hkind, hbears⟩ => ?_) h
  rcases hbears with hv | ho
  · by_cases hname : "value" = name
    · subst hname
      rw [OrderedMap.get?_insert_self] at hv
      exact Or.inl ⟨rfl, Option.some.inj hv⟩
    · rw [OrderedMap.get?_insert_of_ne _ hname] at hv
      exact Or.inr ⟨hkind, Or.inl hv⟩
  · exact Or.inr ⟨hkind, Or.inr ho⟩

theorem Pass.Claims.conclude (h : p.Claims i) (ho : p.Opens r e k) : (p.conclude r e).Claims i := by
  refine Pass.Claims.modify (p := { p with store := (p.makes r e).2 }) h fun c hc hclaims =>
    ⟨hclaims.kind, hclaims.value, fun o hout => ?_⟩
  have hget : p.constructions.get? e.id = some c := hc
  have hvalues := Pass.values_eq hget
  rw [ho.get] at hget
  cases hget
  obtain rfl := Rule.eq_data_of_kind (ho.kind.symm.trans hclaims.kind)
  have hmakes := Pass.makes_eq_record.mpr (hvalues ▸ hclaims.value)
  exact (Option.some.inj hout).symm.trans (congrArg Except.ok hmakes)

theorem Pass.bears_of_conclude (ho : p.Opens r e k) (h : (p.conclude r e).Bears i) : p.Bears i := by
  have hbefore : ({ p with store := (p.makes r e).2 } : Pass).Bears i := by
    refine (Pass.bears_of_modify (P := False) (fun c hc ⟨hkind, hbears⟩ => Or.inr ⟨hkind, Or.inl ?_⟩)
      h).resolve_left id
    have hget : p.constructions.get? e.id = some c := hc
    have hvalues := Pass.values_eq hget
    rw [ho.get] at hget
    cases hget
    -- the outcome of a `data` element is the record only if its value was
    rcases hbears with hv | hout
    · exact hv
    · obtain rfl := Rule.eq_data_of_kind (ho.kind.symm.trans hkind)
      rw [← hvalues]
      exact Pass.makes_eq_record.mp (Except.ok.inj (Option.some.inj hout))
  exact hbefore

end Steps

end ObjectMarkup
