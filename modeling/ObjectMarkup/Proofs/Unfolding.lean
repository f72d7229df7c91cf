import ObjectMarkup.Proofs.Holding
import ObjectMarkup.Value.Json

/-!
# Unfolding values

A value that does not contain itself can be taken apart: into the items of lists, and the properties
and children of records, and so on until nothing is left (`Store.Founded`). Records may be shared as
they like. To prove something about all such values it is enough to prove it for a list, a record and
anything else from what it is for the parts, and there is no more to do with depths and with what is
open around a record.

The same goes for what values are shown as. How a record spreads out does not depend on the records
around it (`recordTree_eq`), so that its tree is made of the trees of its parts (`tree_record`), and
its JSON of their JSONs (`json?_record_eq_some_iff`).
-/

namespace ObjectMarkup

open Relation (TransGen ReflTransGen)

/-! ### Lists and records -/

/-- Lists that are related item by item are of one length and related at every place. -/
theorem forall₂_iff_getElem? {α β : Type} {R : α → β → Prop} {as : List α} {bs : List β} :
    List.Forall₂ R as bs ↔
      as.length = bs.length ∧
        ∀ (i : Nat) (a : α) (b : β), as[i]? = some a → bs[i]? = some b → R a b := by
  rw [List.forall₂_iff_get]
  refine and_congr_right fun hlength => ⟨fun h i a b ha hb => ?_, fun h i hi hi' => ?_⟩
  · obtain ⟨hi, rfl⟩ := List.getElem?_eq_some_iff.mp ha
    obtain ⟨hi', rfl⟩ := List.getElem?_eq_some_iff.mp hb
    exact h i hi hi'
  · exact h i _ _ (List.getElem?_eq_getElem hi) (List.getElem?_eq_getElem hi')

/-- Two lists have the same images if they have so at every place. -/
theorem map_eq_map_iff_getElem? {α β γ : Type} {f : α → γ} {g : β → γ} {as : List α} {bs : List β} :
    as.map f = bs.map g ↔
      as.length = bs.length ∧
        ∀ (i : Nat) (a : α) (b : β), as[i]? = some a → bs[i]? = some b → f a = g b := by
  rw [← List.forall₂_eq_eq_eq, List.forall₂_map_left_iff, List.forall₂_map_right_iff,
    forall₂_iff_getElem?]

/-- What is in the second of two lists is related to something in the first. -/
theorem exists_mem_of_forall₂ {α β : Type} {R : α → β → Prop} {as : List α} {bs : List β}
    (h : List.Forall₂ R as bs) {b : β} (hb : b ∈ bs) : ∃ a ∈ as, R a b := by
  obtain ⟨hlength, hitems⟩ := forall₂_iff_getElem?.mp h
  obtain ⟨i, hi⟩ := List.getElem?_of_mem hb
  obtain ⟨a, ha⟩ := Store.exists_getElem?_of_length hlength.symm hi
  exact ⟨a, List.mem_of_getElem? ha, hitems i a b ha hi⟩

/-- Entries that are related one by one have the same names. -/
theorem map_fst_eq_of_forall₂ {α β : Type} {R : String × α → String × β → Prop}
    {es : List (String × α)} {fs : List (String × β)}
    (h : List.Forall₂ (fun e f => e.1 = f.1 ∧ R e f) es fs) :
    es.map Prod.fst = fs.map Prod.fst := by
  induction h with
  | nil => rfl
  | cons h _ ih => rw [List.map_cons, List.map_cons, h.1, ih]

/-- How the contents of a record show depends on the records that it contains. -/
theorem Record.contents_congr {f g : RecordId → Tree} {r : Record}
    (h : ∀ c ∈ r.records, f c = g c) : r.contents f = r.contents g := by
  have hcontents := Record.contents_rename (ρ := id) h
  rwa [Record.rename_eq_self (ρ := id) fun _ _ => rfl] at hcontents

namespace Store

variable {s : Store} {v w : Value} {a b c : RecordId}

/-! ### What is in a value that does not contain itself -/

/-- A value is all the parts that it has, down to the last ones. -/
inductive Founded (s : Store) : Value → Prop where
  | list {items : List Value} (items_founded : ∀ v ∈ items, Founded s v) : Founded s (.list items)
  | record {a : RecordId} (properties : ∀ e ∈ (s.get a).properties.entries, Founded s e.2)
    (children : Founded s (.list (s.get a).children)) : Founded s (.record a)
  | flat {v : Value} (list : ∀ items, v ≠ .list items) (record : ∀ a, v ≠ .record a) : Founded s v

mutual

theorem founded_of_records : ∀ {v : Value}, (∀ a ∈ v.records, s.Founded (.record a)) → s.Founded v
  | .list _, h => .list (foundedAll_of_records h)
  | .record a, h => h a (List.mem_singleton_self a)
  | .null, _ | .bool _, _ | .int _, _ | .float _, _ | .string _, _ | .constructor _ _, _
  | .resource _, _ => .flat nofun nofun

theorem foundedAll_of_records : ∀ {items : List Value},
    (∀ a ∈ Value.recordsAll items, s.Founded (.record a)) → ∀ v ∈ items, s.Founded v
  | [], _ => fun _ hv => absurd hv List.not_mem_nil
  | v :: rest, h => by
    rw [Value.recordsAll] at h
    exact List.forall_mem_cons.mpr
      ⟨founded_of_records fun a ha => h a (List.mem_append_left _ ha),
        foundedAll_of_records fun a ha => h a (List.mem_append_right _ ha)⟩

end

/-- **A value that does not contain itself can be taken apart** until nothing is left. -/
theorem Acyclic.founded (h : s.Acyclic v) : s.Founded v := by
  refine founded_of_records fun b hb => ?_
  refine Way.induction_nil (P := fun _ _ b => s.Founded (.record b)) (fun _ _ b _ _ ih => ?_) (h b hb)
  have hrecords : ∀ c ∈ (s.get b).records, s.Founded (.record c) := fun c hc => ih c (.single hc)
  exact .record
    (fun e he => founded_of_records fun c hc => hrecords c (Nested.records_entry he hc))
    (founded_of_records fun c hc => hrecords c (Nested.records_children b hc))

namespace Acyclic

/-- From a value to what refers to less. -/
theorem sub (h : s.Acyclic v) (hw : w.records ⊆ v.records) : s.Acyclic w :=
  fun r hr => h r (hw hr)

theorem inside (h : s.Acyclic (.record a)) (hv : v.records ⊆ (s.get a).records) : s.Acyclic v :=
  fun _ hc d hd => h a (List.mem_singleton_self a) d (.head (hv hc) hd)

theorem item {items : List Value} (h : s.Acyclic (.list items)) (hv : v ∈ items) : s.Acyclic v := by
  obtain ⟨i, hi⟩ := List.getElem?_of_mem hv
  exact h.sub (Nested.records_item hi)

theorem property {e : String × Value} (h : s.Acyclic (.record a))
    (he : e ∈ (s.get a).properties.entries) : s.Acyclic e.2 :=
  h.inside (Nested.records_entry he)

theorem children (h : s.Acyclic (.record a)) : s.Acyclic (.list (s.get a).children) :=
  h.inside (Nested.records_children a)

end Acyclic

/-! ### Its tree -/

/-- How a record shows does not depend on the records around it, if it does not contain itself. -/
theorem recordTree_eq {depth : Nat} {opened : List RecordId} (hway : s.Way (· < s.size) opened)
    (hinside : ∀ c ∈ opened, TransGen s.Contains c a)
    (hacyclic : ∀ c, ReflTransGen s.Contains a c → ¬ TransGen s.Contains c c)
    (hdepth : s.size < opened.length + depth) :
    s.recordTree depth opened a = s.recordTree (s.size + 1) [] a := by
  -- going down on one side, with any records open on the other side
  refine Way.induction_nil (P := fun depth' opened' b => ∀ (depth : Nat) (opened : List RecordId),
      s.Way (· < s.size) opened → (∀ c ∈ opened, TransGen s.Contains c b) →
      s.size < opened.length + depth → s.recordTree depth opened b = s.recordTree depth' opened' b)
    (fun depth' opened' b hnew' hacyclic ih depth opened hway hinside hdepth => ?_) hacyclic depth
    opened hway hinside hdepth
  cases depth with
  | zero => exact absurd hway.length_le (Nat.not_le_of_lt hdepth)
  | succ depth =>
    have hnew : b ∉ opened := fun hmem => hacyclic b .refl (hinside b hmem)
    rw [recordTree_succ s depth hnew, recordTree_succ s depth' hnew']
    -- neither side has `b` open, so both unfold it and go on below
    refine congrArg Contents.tree (Record.contents_congr fun c hc => ?_)
    refine ih c (.single hc) depth (b :: opened) ?_ (Way.below hinside hc) ?_
    · exact hway.cons (lt_size_of_contains hc) hinside hnew
    · rw [List.length_cons]
      omega

theorem tree_list (s : Store) (items : List Value) : s.tree (.list items) = .list (items.map s.tree) :=
  congrArg Tree.list (Value.spreadAll_eq_map _ items)

/-- **A record shows as its contents,** if it does not contain itself. -/
theorem tree_record (h : s.Acyclic (.record a)) :
    s.tree (.record a) = .record (s.get a).className
      ((s.get a).properties.entries.map fun e => (e.1, s.tree e.2)) ((s.get a).children.map s.tree) := by
  have hnil : ∀ c ∈ ([] : List RecordId), TransGen s.Contains c a := fun _ hc =>
    absurd hc List.not_mem_nil
  -- being inside `a` makes no difference below it, since nothing below leads back
  have hsame : ∀ c ∈ (s.get a).records,
      s.recordTree s.size [a] c = s.recordTree (s.size + 1) [] c := by
    intro c hc
    have hway : s.Way (· < s.size) [a] :=
      (Way.nil s _).cons (lt_size_of_contains hc) hnil List.not_mem_nil
    refine recordTree_eq hway (Way.below hnil hc)
      (fun d hd => h a (List.mem_singleton_self a) d (.head hc hd)) ?_
    rw [List.length_singleton]
    omega
  exact (recordTree_succ s s.size List.not_mem_nil).trans
    (congrArg Contents.tree (Record.contents_congr hsame))

end Store

/-! ### Its JSON -/

/-- The JSON of a record: what is empty is left out. -/
def Json.ofRecord (className : String) (properties : List (String × Json)) (children : List Json) :
    Json :=
  .object (("class", .string className)
    :: ((if properties.isEmpty then [] else [("properties", .object properties)])
      ++ (if children.isEmpty then [] else [("children", .array children)])))

namespace Tree

theorem jsonAll?_eq_some_iff {ts : List Tree} : ∀ {js : List Json},
    jsonAll? ts = some js ↔ List.Forall₂ (fun t j => t.json? = some j) ts js := by
  induction ts with
  | nil =>
    intro js
    rw [jsonAll?, Option.some_inj, List.forall₂_nil_left_iff]
    exact eq_comm
  | cons t ts ih =>
    intro js
    simp only [jsonAll?, List.forall₂_cons_left_iff, ← ih, Option.bind_eq_bind,
      Option.bind_eq_some_iff, Option.some_inj]
    constructor
    · rintro ⟨j, hj, js, hjs, rfl⟩
      exact ⟨j, js, hj, hjs, rfl⟩
    · rintro ⟨j, js, hj, hjs, rfl⟩
      exact ⟨j, hj, js, hjs, rfl⟩

theorem jsonEntries?_eq_some_iff {es : List (String × Tree)} : ∀ {fs : List (String × Json)},
    jsonEntries? es = some fs ↔
      List.Forall₂ (fun e f => e.1 = f.1 ∧ e.2.json? = some f.2) es fs := by
  induction es with
  | nil =>
    intro fs
    rw [jsonEntries?, Option.some_inj, List.forall₂_nil_left_iff]
    exact eq_comm
  | cons e es ih =>
    intro fs
    obtain ⟨name, t⟩ := e
    simp only [jsonEntries?, List.forall₂_cons_left_iff, ← ih, Option.bind_eq_bind,
      Option.bind_eq_some_iff, Option.some_inj]
    constructor
    · rintro ⟨j, hj, fs, hfs, rfl⟩
      exact ⟨(name, j), fs, ⟨rfl, hj⟩, hfs, rfl⟩
    · rintro ⟨⟨_, j⟩, fs, ⟨rfl, hj⟩, hfs, rfl⟩
      exact ⟨j, hj, fs, hfs, rfl⟩

theorem json?_list_eq_some_iff {ts : List Tree} {j : Json} :
    (Tree.list ts).json? = some j ↔ ∃ js, jsonAll? ts = some js ∧ j = .array js := by
  rw [json?, Option.map_eq_some_iff]
  exact exists_congr fun js => and_congr_right fun _ => eq_comm

theorem json?_record_eq_some_iff {className : String} {es : List (String × Tree)} {ts : List Tree}
    {j : Json} :
    (Tree.record className es ts).json? = some j ↔
      ∃ fs js, jsonEntries? es = some fs ∧ jsonAll? ts = some js ∧ j = .ofRecord className fs js := by
  simp only [json?, Option.bind_eq_bind, Option.bind_eq_some_iff, Option.some_inj]
  constructor
  · rintro ⟨fs, hfs, js, hjs, rfl⟩
    exact ⟨fs, js, hfs, hjs, rfl⟩
  · rintro ⟨fs, js, hfs, hjs, rfl⟩
    exact ⟨fs, hfs, js, hjs, rfl⟩

end Tree

namespace Store

variable {s : Store} {a : RecordId} {j : Json}

/-- What a list has as its JSON. -/
theorem json?_list_eq_some_iff {items : List Value} :
    s.json? (.list items) = some j ↔
      ∃ js, List.Forall₂ (fun v j => s.json? v = some j) items js ∧ j = .array js := by
  rw [json?, tree_list, Tree.json?_list_eq_some_iff]
  simp only [Tree.jsonAll?_eq_some_iff, List.forall₂_map_left_iff]
  rfl

/-- **What a record has as its JSON,** if it does not contain itself. -/
theorem json?_record_eq_some_iff (h : s.Acyclic (.record a)) :
    s.json? (.record a) = some j ↔
      ∃ fs js, List.Forall₂ (fun e f => e.1 = f.1 ∧ s.json? e.2 = some f.2)
          (s.get a).properties.entries fs ∧
        s.json? (.list (s.get a).children) = some (.array js) ∧
        j = .ofRecord (s.get a).className fs js := by
  rw [json?, tree_record h, Tree.json?_record_eq_some_iff, json?, tree_list]
  simp only [Tree.jsonEntries?_eq_some_iff, Tree.json?_list_eq_some_iff, Json.array.injEq,
    List.forall₂_map_left_iff, exists_eq_right']
  rfl

end Store

end ObjectMarkup
