import ObjectMarkup.Proofs.References
import ObjectMarkup.Value.Equality

/-!
# Likeness of values

When two values are structurally equal, said without an order of comparing and without anything being
held: `Store.Alike`. A record is like itself whatever is in it, and like another record if the two
have one class, properties under the same names and children in the same number, with like values.

Like records go down together: what is inside the one has its like inside the other, at the same depth
(`Alike.inside`). So a record cannot be like one inside it, or it would go down for ever, unless it
contains itself (`not_alike_of_inside`). This is what keeps a comparison of like values from coming
upon a record that it holds.
-/

namespace ObjectMarkup

open Relation (TransGen ReflTransGen)

theorem Decimal.Binary64.same_comm (x y : Decimal.Binary64) : x.same y = y.same x := by
  unfold same
  rw [Bool.and_comm x.isZero, Bool.beq_comm (a := x.bits), Bool.and_comm (!x.isNaN)]

/-- An item is smaller than its list. -/
theorem Value.sizeOf_lt_of_mem {items : List Value} {v : Value} (h : v ∈ items) :
    sizeOf v < sizeOf (Value.list items) := by
  have hsize := List.sizeOf_lt_of_mem h
  rw [Value.list.sizeOf_spec]
  omega

namespace Store

/-- **Structural equality of values.** -/
inductive Alike (s : Store) : Value → Value → Prop where
  | null : Alike s .null .null
  | bool (b : Bool) : Alike s (.bool b) (.bool b)
  | int (i : Int64) : Alike s (.int i) (.int i)
  | float {x y : Decimal.Binary64} (same : x.same y = true) : Alike s (.float x) (.float y)
  | string (text : String) : Alike s (.string text) (.string text)
  | resource (r : Resource) : Alike s (.resource r) (.resource r)
  /-- Constructors are known by their paths. -/
  | constructor (path : String) (f g : Maker Value) :
    Alike s (.constructor path f) (.constructor path g)
  | list {as bs : List Value} (length : as.length = bs.length)
    (items : ∀ (i : Nat) (v w : Value), as[i]? = some v → bs[i]? = some w → Alike s v w) :
    Alike s (.list as) (.list bs)
  | itself (a : RecordId) : Alike s (.record a) (.record a)
  | record {a b : RecordId} (className : (s.get a).className = (s.get b).className)
    (names : ∀ name, name ∈ (s.get a).properties.keys ↔ name ∈ (s.get b).properties.keys)
    (properties : ∀ (name : String) (v w : Value), (s.get a).properties.get? name = some v →
      (s.get b).properties.get? name = some w → Alike s v w)
    (children : Alike s (.list (s.get a).children) (.list (s.get b).children)) :
    Alike s (.record a) (.record b)

variable {s : Store} {v w : Value} {a b c : RecordId}

/-- What has the same length has something at the same places. -/
theorem exists_getElem?_of_length {α β : Type} {as : List α} {bs : List β}
    (h : as.length = bs.length) {i : Nat} {x : α} (hx : as[i]? = some x) : ∃ y, bs[i]? = some y :=
  ⟨bs.get ⟨i, h ▸ (List.getElem?_eq_some_iff.mp hx).1⟩, List.getElem?_eq_getElem _⟩

/-- A value under a name of the one record has a value under that name in the other. -/
theorem exists_get?_of_mem_keys_iff {m n : OrderedMap String Value}
    (h : ∀ name, name ∈ m.keys ↔ name ∈ n.keys) {name : String} (hv : m.get? name = some v) :
    ∃ w, n.get? name = some w := by
  have hm : name ∈ m.keys := (m.mem_keys_iff name).mpr (by rw [hv]; rfl)
  exact Option.isSome_iff_exists.mp ((n.mem_keys_iff name).mp ((h name).mp hm))

namespace Alike

theorem symm (h : s.Alike v w) : s.Alike w v := by
  induction h with
  | null => exact .null
  | bool b => exact .bool b
  | int i => exact .int i
  | float same => exact .float (Decimal.Binary64.same_comm _ _ ▸ same)
  | string text => exact .string text
  | resource r => exact .resource r
  | constructor path f g => exact .constructor path g f
  | list length _ ih => exact .list length.symm fun i v w hv hw => ih i w v hw hv
  | itself a => exact .itself a
  | record className names _ _ properties children =>
    exact .record className.symm (fun name => (names name).symm)
      (fun name v w hv hw => properties name w v hw hv) children

/-- **What a value refers to has its like in a like value.** -/
theorem mem_records (h : s.Alike v w) (hc : c ∈ v.records) :
    ∃ d ∈ w.records, s.Alike (.record c) (.record d) := by
  induction h with
  | null | bool | int | float | string | resource | constructor => cases hc
  | @list as bs length _ ih =>
    have hall : ∀ items : List Value, (Value.list items).records = items.flatMap Value.records :=
      Value.recordsAll_eq_flatMap
    rw [hall, List.mem_flatMap] at hc
    obtain ⟨v, hv, hc⟩ := hc
    obtain ⟨i, hi⟩ := List.getElem?_of_mem hv
    obtain ⟨w, hw⟩ := exists_getElem?_of_length length hi
    obtain ⟨d, hd, halike⟩ := ih i v w hi hw hc
    rw [hall]
    exact ⟨d, List.mem_flatMap.mpr ⟨w, List.mem_of_getElem? hw, hd⟩, halike⟩
  | itself a => exact ⟨c, hc, .itself c⟩
  | @record a b className names properties children _ _ =>
    obtain rfl := List.mem_singleton.mp hc
    exact ⟨b, List.mem_singleton_self b, .record className names properties children⟩

/-- What a record contains has its like in a like record. -/
theorem contains (h : s.Alike (.record a) (.record b)) (hc : s.Contains a c) :
    ∃ d, s.Contains b d ∧ s.Alike (.record c) (.record d) := by
  cases h with
  | itself => exact ⟨c, hc, .itself c⟩
  | record className names properties children =>
    rcases Record.mem_records.mp hc with ⟨e, he, hc⟩ | ⟨v, hv, hc⟩
    · -- through a property
      have hv : (s.get a).properties.get? e.1 = some e.2 := OrderedMap.get?_of_mem_entries he
      obtain ⟨w, hw⟩ := exists_get?_of_mem_keys_iff names hv
      obtain ⟨d, hd, halike⟩ := (properties e.1 e.2 w hv hw).mem_records hc
      exact ⟨d, Record.mem_records.mpr (Or.inl ⟨_, OrderedMap.mem_entries_of_get? hw, hd⟩), halike⟩
    · -- through a child
      have hc : c ∈ (Value.list (s.get a).children).records := by
        change c ∈ Value.recordsAll _
        rw [Value.recordsAll_eq_flatMap]
        exact List.mem_flatMap.mpr ⟨v, hv, hc⟩
      obtain ⟨d, hd, halike⟩ := children.mem_records hc
      exact ⟨d, List.mem_append_right _ hd, halike⟩

/-- **Like records go down together.** -/
theorem inside (h : s.Alike (.record a) (.record b)) (hc : TransGen s.Contains a c) :
    ∃ d, TransGen s.Contains b d ∧ s.Alike (.record c) (.record d) := by
  induction hc with
  | single hc =>
    obtain ⟨d, hd, halike⟩ := h.contains hc
    exact ⟨d, .single hd, halike⟩
  | tail _ hc ih =>
    obtain ⟨d, hd, halike⟩ := ih
    obtain ⟨d', hd', halike'⟩ := halike.contains hc
    exact ⟨d', .tail hd hd', halike'⟩

end Alike

/-! ### Likeness of lists and of records -/

theorem alike_list_iff {as bs : List Value} :
    s.Alike (.list as) (.list bs) ↔
      as.length = bs.length ∧ ∀ p ∈ as.zip bs, s.Alike p.1 p.2 := by
  constructor
  · rintro ⟨⟩
    case list length items =>
      refine ⟨length, fun p hp => ?_⟩
      obtain ⟨i, hi⟩ := List.getElem?_of_mem hp
      obtain ⟨hv, hw⟩ := List.getElem?_zip_eq_some.mp hi
      exact items i p.1 p.2 hv hw
  · rintro ⟨length, items⟩
    exact .list length fun i v w hv hw =>
      items (v, w) (List.mem_of_getElem? (List.getElem?_zip_eq_some.mpr ⟨hv, hw⟩))

/-- A property of the one record has its like in the other. -/
def Answers (s : Store) (b : RecordId) (e : String × Value) : Prop :=
  ∃ w, (s.get b).properties.get? e.1 = some w ∧ s.Alike e.2 w

/-- Maps of one size have the same names if those of the one are names of the other. -/
theorem mem_keys_iff_of_subset {m n : OrderedMap String Value} (hsize : m.size = n.size)
    (h : m.keys ⊆ n.keys) (name : String) : name ∈ m.keys ↔ name ∈ n.keys := by
  have hlength : n.keys.length ≤ m.keys.length := by
    rw [OrderedMap.keys, OrderedMap.keys, List.length_map, List.length_map]
    exact Nat.le_of_eq hsize.symm
  exact ((List.subperm_of_subset m.nodup h).perm_of_length_le hlength).mem_iff

/-- Maps with the same names are of one size. -/
theorem size_eq_of_mem_keys_iff {m n : OrderedMap String Value}
    (h : ∀ name, name ∈ m.keys ↔ name ∈ n.keys) : m.size = n.size := by
  calc m.size = m.keys.length := (List.length_map _).symm
    _ = n.keys.length := ((List.perm_ext_iff_of_nodup m.nodup n.nodup).mpr h).length_eq
    _ = n.size := List.length_map _

/-- **Two different records are alike** if they have one class, as many properties, in the one what
answers those of the other, and like children. -/
theorem alike_record_iff (hne : a ≠ b) :
    s.Alike (.record a) (.record b) ↔
      (s.get a).className = (s.get b).className ∧
        (s.get a).properties.size = (s.get b).properties.size ∧
        (∀ e ∈ (s.get a).properties.entries, s.Answers b e) ∧
        s.Alike (.list (s.get a).children) (.list (s.get b).children) := by
  constructor
  · rintro ⟨⟩
    case itself => exact absurd rfl hne
    case record className names properties children =>
      refine ⟨className, size_eq_of_mem_keys_iff names, fun e he => ?_, children⟩
      have hv : (s.get a).properties.get? e.1 = some e.2 := OrderedMap.get?_of_mem_entries he
      obtain ⟨w, hw⟩ := exists_get?_of_mem_keys_iff names hv
      exact ⟨w, hw, properties e.1 e.2 w hv hw⟩
  · rintro ⟨className, hsize, hanswers, children⟩
    refine .record className (mem_keys_iff_of_subset hsize ?_) (fun name v w hv hw => ?_) children
    · intro name hname
      obtain ⟨e, he, rfl⟩ := List.mem_map.mp hname
      obtain ⟨w, hw, -⟩ := hanswers e he
      exact ((s.get b).properties.mem_keys_iff e.1).mpr (by rw [hw]; rfl)
    · obtain ⟨w', hw', halike⟩ := hanswers _ (OrderedMap.mem_entries_of_get? hv)
      obtain rfl := Option.some.inj (hw'.symm.trans hw)
      exact halike

/-! ### No record is like one inside it -/

/-- **No record is like one inside it,** unless records contain themselves. -/
theorem not_alike_of_inside (hacyclic : ∀ c, ReflTransGen s.Contains a c → ¬ TransGen s.Contains c c)
    (hb : TransGen s.Contains a b) : ¬ s.Alike (.record a) (.record b) := by
  refine Way.induction_nil
    (P := fun _ _ a => ∀ b, TransGen s.Contains a b → ¬ s.Alike (.record a) (.record b))
    (fun _ _ a _ _ ih b hb halike => ?_) hacyclic b hb
  -- the record inside is like one inside itself then, and so on down without an end
  obtain ⟨d, hd, hnext⟩ := halike.inside hb
  exact ih b hb d hd hnext

end Store

end ObjectMarkup
