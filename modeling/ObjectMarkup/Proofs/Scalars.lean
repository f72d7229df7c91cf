import ObjectMarkup.Proofs.Knowing

/-!
# Scalars that stand for records

A scalar element whose attribute has a record for its value stands for this record (`Pass.Stands`),
and writes its name, its type and the record itself into it. These are the only changes that are ever
made to a record after it was made, but for what constructors do. Which scalars stand for which
records changes in one kind of step only, when an element gets its value (`Pass.stands_conclude`).
-/

namespace ObjectMarkup

open Markup (Element NodeId)
open Relation (ReflTransGen)

/-! ### Values of scalars -/

/-- A record that is the value of a scalar element. -/
def Pass.Scalar (p : Pass) (i : RecordId) : Prop :=
  ∃ id c, p.constructions.get? id = some c ∧ c.kind = Kind.data ∧
    c.outcome? = some (.ok (.record i))

/-- The record is the value of this scalar element. -/
def Pass.Stands (p : Pass) (n : Element) (i : RecordId) : Prop :=
  ∃ id c, p.constructions.get? id = some c ∧ c.node = n ∧ c.kind = Kind.data ∧
    c.outcome? = some (.ok (.record i))

theorem Pass.scalar_iff {p : Pass} {i : RecordId} : p.Scalar i ↔ ∃ n, p.Stands n i := by
  constructor
  · rintro ⟨id, c, hc, hkind, ho⟩
    exact ⟨c.node, id, c, hc, rfl, hkind, ho⟩
  · rintro ⟨n, id, c, hc, -, hkind, ho⟩
    exact ⟨id, c, hc, hkind, ho⟩

theorem Pass.scalar_congr {p q : Pass} {i : RecordId} (h : ∀ n, q.Stands n i ↔ p.Stands n i) :
    q.Scalar i ↔ p.Scalar i := by
  rw [Pass.scalar_iff, Pass.scalar_iff]
  exact exists_congr h

/-- What decides whether a record is the value of a scalar. -/
def Construction.verdict (c : Construction) : Element × ElementKind × Option (Outcome Value) :=
  (c.node, c.kind, c.outcome?)

section Stands

variable {p q : Pass} {r : Rule} {e n : Element} {i : RecordId}

theorem Pass.stands_congr (h : ∀ id, (q.constructions.get? id).map Construction.verdict
    = (p.constructions.get? id).map Construction.verdict) : q.Stands n i ↔ p.Stands n i := by
  have hverdict : ∀ r : Pass, r.Stands n i ↔ ∃ id,
      (r.constructions.get? id).map Construction.verdict
        = some (n, Kind.data, some (.ok (.record i))) := fun r => by
    refine exists_congr fun id => ?_
    rw [Option.map_eq_some_iff]
    refine exists_congr fun c => and_congr_right fun _ => ?_
    rw [Construction.verdict, Prod.mk.injEq, Prod.mk.injEq]
  rw [hverdict, hverdict]
  simp only [h]

/-- Changes that have nothing to do with the verdict. -/
theorem Pass.stands_modify {id : NodeId} {f : Construction → Construction}
    (hf : ∀ c, (f c).verdict = c.verdict) :
    (p.modifyConstruction id f).Stands n i ↔ p.Stands n i :=
  Pass.stands_congr (Pass.map_get?_modifyConstruction _ id hf)

theorem Pass.stands_setValue {id : NodeId} {name : String} {v : Value} :
    (p.setValue id name v).Stands n i ↔ p.Stands n i :=
  Pass.stands_modify fun _ => rfl

theorem Pass.stands_start (hnone : p.constructions.get? e.id = none) :
    (p.start r e).Stands n i ↔ p.Stands n i := by
  constructor
  · rintro ⟨id, c, hc, hnode, hkind, ho⟩
    rw [Pass.start, OrderedMap.get?_insert] at hc
    split at hc
    · cases hc
      cases ho
    · exact ⟨id, c, hc, hnode, hkind, ho⟩
  · rintro ⟨id, c, hc, hnode, hkind, ho⟩
    have hne : id ≠ e.id := by
      rintro rfl
      rw [hnone] at hc
      cases hc
    exact ⟨id, c, (OrderedMap.get?_insert_of_ne _ hne _).trans hc, hnode, hkind, ho⟩

/-- No other rule gives the kind of scalars. -/
theorem Rule.eq_data_of_kind (h : r.kind = Kind.data) : r = .data := by
  have hname := congrArg ElementKind.name h
  cases r with
  | data => rfl
  | _ => exact absurd hname (by decide)

theorem Pass.Opens.get?_conclude {k : Construction} (h : p.Opens r e k) (id : NodeId) :
    (p.conclude r e).constructions.get? id
      = if id = e.id then some { k with outcome? := some (.ok (p.makes r e).1) }
        else p.constructions.get? id := by
  rw [Pass.conclude, Pass.settle, Pass.modifyConstruction, OrderedMap.get?_modify]
  refine ite_congr rfl (fun _ => ?_) fun _ => rfl
  exact congrArg (Option.map _) h.get

/-- An element that gets its value is one more scalar, if it is one and the value is a record. -/
theorem Pass.stands_conclude {k : Construction} (h : p.Opens r e k) :
    (p.conclude r e).Stands n i ↔
      p.Stands n i ∨ n = e ∧ r = .data ∧ (p.makes r e).1 = .record i := by
  constructor
  · rintro ⟨id, c, hc, hnode, hkind, ho⟩
    rw [h.get?_conclude] at hc
    split at hc
    · cases hc
      exact Or.inr ⟨hnode.symm.trans h.node, Rule.eq_data_of_kind (h.kind.symm.trans hkind),
        Except.ok.inj (Option.some.inj ho)⟩
    · exact Or.inl ⟨id, c, hc, hnode, hkind, ho⟩
  · rintro (⟨id, c, hc, hnode, hkind, ho⟩ | ⟨rfl, rfl, hv⟩)
    · -- the element itself has had no value yet
      have hne : id ≠ e.id := by
        rintro rfl
        rw [h.get] at hc
        cases hc
        rw [h.unsettled] at ho
        cases ho
      exact ⟨id, c, by rw [h.get?_conclude, if_neg hne, hc], hnode, hkind, ho⟩
    · refine ⟨n.id, _, (h.get?_conclude n.id).trans (if_pos rfl), h.node, h.kind, ?_⟩
      exact congrArg (fun v => some (Except.ok v)) hv

theorem Pass.scalar_conclude {k : Construction} (h : p.Opens r e k) :
    (p.conclude r e).Scalar i ↔ p.Scalar i ∨ r = .data ∧ (p.makes r e).1 = .record i := by
  rw [Pass.scalar_iff, Pass.scalar_iff]
  simp only [Pass.stands_conclude h, exists_or, exists_eq_left]

end Stands

/-! ### What is written into the value of a scalar -/

/-- The names and types of scalars are strings, so nothing is contained after they were written but
the value. -/
theorem mem_records_scalar {k : Construction} {e : Element} (hspelled : k.Spelled .data e)
    {i : RecordId} (hi : k.values.get? "value" = some (.record i)) {r : Record} {b : RecordId}
    (h : b ∈ (Record.scalar k.values r).records) : b = i ∨ b ∈ r.records := by
  rcases mem_records_setAll h with ⟨property, hmem, v, hv, hb⟩ | hb
  · have hstring : ∀ name, (Rule.data.schema e).typeOf name = "string" →
        k.values.get? name = some v → b ∈ v.records → b = i := by
      intro name hs hv hb
      rw [hspelled name hs] at hv
      obtain ⟨raw, -, rfl⟩ := Option.map_eq_some_iff.mp hv
      exact absurd hb List.not_mem_nil
    simp only [scalarProperties, List.mem_cons, List.not_mem_nil, or_false] at hmem
    rcases hmem with rfl | rfl | rfl
    · exact Or.inl (hstring "name" rfl hv hb)
    · exact Or.inl (hstring "type" rfl hv hb)
    · rw [hi] at hv
      cases hv
      exact Or.inl (List.mem_singleton.mp hb)
  · exact Or.inr hb

/-- The value is written last. -/
theorem get?_value_scalar {values : OrderedMap String Value} {v : Value}
    (hv : values.get? "value" = some v) (r : Record) :
    (Record.scalar values r).properties.get? "value" = some v := by
  simp only [Record.scalar, Record.setAll, scalarProperties, List.foldl_cons, List.foldl_nil]
  generalize Record.setFrom values (Record.setFrom values r ("name", "name")) ("type", "type") = r'
  rw [Record.setFrom, hv]
  exact OrderedMap.get?_insert_self _ _ _

/-! ### Records that are made and written into -/

/-- The new record leads to what it is made of, and all others lead where they did. -/
theorem Store.contains_make {s : Store} {r : Record} {a b : RecordId}
    (hab : (s.make r).2.Contains a b) :
    a < s.size ∧ s.Contains a b ∨ a = s.size ∧ b ∈ r.records := by
  by_cases hlt : a < s.size
  · rw [Store.Contains, Store.get_make_of_lt hlt] at hab
    exact Or.inl ⟨hlt, hab⟩
  · have hsize : a < s.size + 1 := Store.size_make s r ▸ Store.lt_size_of_contains hab
    have hself : (s.make r).2.get s.size = r := Store.get_make_self s r
    obtain rfl : a = s.size := Nat.le_antisymm (Nat.le_of_lt_succ hsize) (Nat.le_of_not_lt hlt)
    rw [Store.Contains, hself] at hab
    exact Or.inr ⟨rfl, hab⟩

/-- **Writing into a record** lets it contain itself, and adds nothing else. -/
theorem Store.contains_modify {s : Store} {i : RecordId} (hi : i < s.size) {f : Record → Record}
    (hf : ∀ (r : Record) b, b ∈ (f r).records → b = i ∨ b ∈ r.records) {a b : RecordId}
    (hab : (s.modify i f).Contains a b) : b = i ∧ a = i ∨ s.Contains a b := by
  rw [Store.Contains, Store.get_modify hi] at hab
  split at hab
  · next heq =>
    subst heq
    exact (hf _ b hab).imp_left fun hb => ⟨hb, rfl⟩
  · exact Or.inr hab

/-! ### Stores that are closed -/

/-- No record contains one that was never made. -/
def Store.Closed (s : Store) : Prop :=
  ∀ a b, s.Contains a b → b < s.size

theorem Store.Closed.lt_of_reaches {s : Store} (h : s.Closed) {a b : RecordId} (ha : a < s.size)
    (hab : ReflTransGen s.Contains a b) : b < s.size := by
  cases hab with
  | refl => exact ha
  | tail _ hcb => exact h _ _ hcb

theorem Store.Closed.modify {s : Store} (h : s.Closed) {i : RecordId} (hi : i < s.size)
    {f : Record → Record} (hf : ∀ (r : Record) b, b ∈ (f r).records → b = i ∨ b ∈ r.records) :
    (s.modify i f).Closed := by
  intro a b hab
  rw [Store.size_modify]
  rcases Store.contains_modify hi hf hab with ⟨rfl, -⟩ | hab
  · exact hi
  · exact h a b hab

/-- What the namespace provides is in the store. -/
def Namespace.StoredIn (n : Namespace) (s : Store) : Prop :=
  ∀ v, n.Provides v → ∀ i ∈ v.records, i < s.size

end ObjectMarkup
