import Mathlib.Data.List.Perm.Subperm
import Mathlib.Logic.Relation
import ObjectMarkup.Proofs.Spread

/-!
# What refers to what

A record contains the records that its properties and children refer to, directly or through lists
(`Store.Contains`). What a constructor hands out is not contained in it. How a value spreads out
depends on what can be reached from it by containment, and on nothing else:

* if no record on the way contains itself, directly or through others, then there is a JSON
  (`Store.json?_isSome`);
* if what can be reached in one store is found under other numbers in another store, then the value
  spreads out to the same tree there (`Store.Mirrors.tree_rename`). The other numbers need not all be
  different, as long as records that are inside each other get different ones.

Both go down from record to record. The records on the way are pairwise different, so there are never
more of them than the store has, and the bound on the depth is never met.
-/

namespace ObjectMarkup

open Relation (TransGen ReflTransGen)

/-! ### Maps -/

namespace OrderedMap

variable {κ α β : Type}

/-- The map with other values under the same keys, in the same order. -/
def map (f : α → β) (m : OrderedMap κ α) : OrderedMap κ β :=
  ⟨m.entries.map fun (key, value) => (key, f value), by
    rw [List.map_map]
    exact m.nodup⟩

theorem map_congr {f g : α → β} {m : OrderedMap κ α} (h : ∀ e ∈ m.entries, f e.2 = g e.2) :
    m.map f = m.map g :=
  ext (List.map_congr_left fun e he => congrArg (Prod.mk e.1) (h e he))

theorem map_eq_self {f : α → α} {m : OrderedMap κ α} (h : ∀ e ∈ m.entries, f e.2 = e.2) :
    m.map f = m := by
  have hmap : m.entries.map (fun (key, value) => (key, f value)) = m.entries.map fun e => e :=
    List.map_congr_left fun e he => congrArg (Prod.mk e.1) (h e he)
  exact ext (hmap.trans (List.map_id' _))

variable [DecidableEq κ]

theorem get?_map (f : α → β) (m : OrderedMap κ α) (key : κ) :
    (m.map f).get? key = (m.get? key).map f := by
  have hlookup : ∀ l : List (κ × α),
      (l.map fun (key, value) => (key, f value)).lookup key = (l.lookup key).map f := fun l => by
    induction l with
    | nil => rfl
    | cons e rest ih =>
      rw [List.map_cons, List.lookup_cons, List.lookup_cons, ih]
      split <;> rfl
  exact hlookup m.entries

theorem map_insert (f : α → β) (m : OrderedMap κ α) (key : κ) (value : α) :
    (m.insert key value).map f = (m.map f).insert key (f value) :=
  ext (map_put f key value m.entries)

end OrderedMap

/-! ### Values -/

namespace Value

mutual

/-- The records that a value refers to, through lists. -/
def records : Value → List RecordId
  | .list items => recordsAll items
  | .record id => [id]
  | _ => []

def recordsAll : List Value → List RecordId
  | [] => []
  | v :: rest => records v ++ recordsAll rest

end

mutual

/-- The value with other numbers for its records. -/
def rename (ρ : RecordId → RecordId) : Value → Value
  | .list items => .list (renameAll ρ items)
  | .record id => .record (ρ id)
  | .null => .null
  | .bool b => .bool b
  | .int i => .int i
  | .float x => .float x
  | .string s => .string s
  | .constructor path maker => .constructor path maker
  | .resource r => .resource r

def renameAll (ρ : RecordId → RecordId) : List Value → List Value
  | [] => []
  | v :: rest => rename ρ v :: renameAll ρ rest

end

theorem recordsAll_eq_flatMap (items : List Value) : recordsAll items = items.flatMap records := by
  induction items with
  | nil => rfl
  | cons v rest ih => rw [recordsAll, ih, List.flatMap_cons]

theorem renameAll_eq_map (ρ : RecordId → RecordId) (items : List Value) :
    renameAll ρ items = items.map (rename ρ) := by
  induction items with
  | nil => rfl
  | cons v rest ih => rw [renameAll, ih, List.map_cons]

variable {ρ σ : RecordId → RecordId} {f g : RecordId → Tree}

mutual

theorem rename_congr : ∀ {v : Value}, (∀ id ∈ v.records, ρ id = σ id) → v.rename ρ = v.rename σ
  | .list _, h => congrArg Value.list (renameAll_congr h)
  | .record _, h => congrArg Value.record (h _ (List.mem_singleton_self _))
  | .null, _ | .bool _, _ | .int _, _ | .float _, _ | .string _, _ | .constructor _ _, _
  | .resource _, _ => rfl

theorem renameAll_congr : ∀ {items : List Value}, (∀ id ∈ recordsAll items, ρ id = σ id) →
    renameAll ρ items = renameAll σ items
  | [], _ => rfl
  | v :: rest, h => by
    rw [recordsAll] at h
    rw [renameAll, renameAll, rename_congr fun id hid => h id (List.mem_append_left _ hid),
      renameAll_congr fun id hid => h id (List.mem_append_right _ hid)]

end

mutual

theorem rename_id : ∀ v : Value, v.rename id = v
  | .list items => congrArg Value.list (renameAll_id items)
  | .null | .bool _ | .int _ | .float _ | .string _ | .record _ | .constructor _ _
  | .resource _ => rfl

theorem renameAll_id : ∀ items : List Value, renameAll id items = items
  | [] => rfl
  | v :: rest => by rw [renameAll, rename_id v, renameAll_id rest]

end

mutual

/-- Numbers that are changed twice. -/
theorem rename_rename (ρ σ : RecordId → RecordId) : ∀ v : Value,
    (v.rename ρ).rename σ = v.rename fun id => σ (ρ id)
  | .list items => congrArg Value.list (renameAll_renameAll ρ σ items)
  | .record _ | .null | .bool _ | .int _ | .float _ | .string _ | .constructor _ _
  | .resource _ => rfl

theorem renameAll_renameAll (ρ σ : RecordId → RecordId) : ∀ items : List Value,
    renameAll σ (renameAll ρ items) = renameAll (fun id => σ (ρ id)) items
  | [] => rfl
  | v :: rest => congrArg₂ List.cons (rename_rename ρ σ v) (renameAll_renameAll ρ σ rest)

end

theorem rename_eq_self {v : Value} (h : ∀ id ∈ v.records, ρ id = id) : v.rename ρ = v :=
  (rename_congr h).trans (rename_id v)

mutual

theorem records_rename : ∀ v : Value, (v.rename ρ).records = v.records.map ρ
  | .list items => recordsAll_renameAll items
  | .null | .bool _ | .int _ | .float _ | .string _ | .record _ | .constructor _ _
  | .resource _ => rfl

theorem recordsAll_renameAll : ∀ items : List Value,
    recordsAll (renameAll ρ items) = (recordsAll items).map ρ
  | [] => rfl
  | v :: rest => by
    rw [renameAll, recordsAll, recordsAll, records_rename v, recordsAll_renameAll rest,
      List.map_append]

end

mutual

/-- A value that refers to such records only. -/
theorem Within.of_mem_records {P : RecordId → Prop} : ∀ {v : Value}, v.Within P →
    ∀ id ∈ v.records, P id
  | .list _, h => WithinAll.of_mem_records h
  | .record _, h => List.forall_mem_singleton.mpr h
  | .null, _ | .bool _, _ | .int _, _ | .float _, _ | .string _, _ | .resource _, _ =>
    fun _ hid => absurd hid List.not_mem_nil

theorem WithinAll.of_mem_records {P : RecordId → Prop} : ∀ {items : List Value},
    WithinAll P items → ∀ id ∈ recordsAll items, P id
  | [], _ => fun _ hid => absurd hid List.not_mem_nil
  | _ :: _, h => List.forall_mem_append.mpr ⟨h.1.of_mem_records, WithinAll.of_mem_records h.2⟩

end

theorem Plain.records_eq_nil {v : Value} (h : v.Plain) : v.records = [] :=
  List.eq_nil_iff_forall_not_mem.mpr h.of_mem_records

mutual

/-- Spreading out with other numbers is spreading out, if the trees are the same. -/
theorem spread_rename : ∀ {v : Value}, (∀ id ∈ v.records, f (ρ id) = g id) →
    (v.rename ρ).spread f = v.spread g
  | .list _, h => congrArg Tree.list (spreadAll_renameAll h)
  | .record _, h => h _ (List.mem_singleton_self _)
  | .null, _ | .bool _, _ | .int _, _ | .float _, _ | .string _, _ | .constructor _ _, _
  | .resource _, _ => rfl

theorem spreadAll_renameAll : ∀ {items : List Value}, (∀ id ∈ recordsAll items, f (ρ id) = g id) →
    spreadAll f (renameAll ρ items) = spreadAll g items
  | [], _ => rfl
  | v :: rest, h => by
    rw [recordsAll] at h
    rw [renameAll, spreadAll, spreadAll, spread_rename fun id hid => h id (List.mem_append_left _ hid),
      spreadAll_renameAll fun id hid => h id (List.mem_append_right _ hid)]

end

mutual

/-- A value has a JSON if the records that it refers to have one. -/
theorem json?_spread : ∀ {v : Value}, (∀ id ∈ v.records, (f id).json?.isSome = true) →
    (v.spread f).json?.isSome = true
  | .list items, h => by
    rw [Value.spread, Tree.json?, Option.isSome_map]
    exact Tree.jsonAll?_isSome (json?_spreadAll h)
  | .record _, h => h _ (List.mem_singleton_self _)
  | .null, _ | .bool _, _ | .int _, _ | .float _, _ | .string _, _ | .constructor _ _, _
  | .resource _, _ => rfl

theorem json?_spreadAll : ∀ {items : List Value},
    (∀ id ∈ recordsAll items, (f id).json?.isSome = true) →
      ∀ t ∈ spreadAll f items, t.json?.isSome = true
  | [], _ => fun _ ht => absurd ht List.not_mem_nil
  | v :: rest, h => by
    rw [recordsAll] at h
    rw [spreadAll]
    exact List.forall_mem_cons.mpr ⟨json?_spread fun id hid => h id (List.mem_append_left _ hid),
      json?_spreadAll fun id hid => h id (List.mem_append_right _ hid)⟩

end

end Value

/-! ### Records -/

namespace Record

/-- The records that a record contains. -/
def records (r : Record) : List RecordId :=
  r.properties.entries.flatMap (·.2.records) ++ Value.recordsAll r.children

/-- The record with other numbers for those that it contains. -/
def rename (ρ : RecordId → RecordId) (r : Record) : Record :=
  ⟨r.className, r.properties.map (Value.rename ρ), Value.renameAll ρ r.children⟩

theorem mem_records {r : Record} {id : RecordId} :
    id ∈ r.records ↔ (∃ e ∈ r.properties.entries, id ∈ e.2.records) ∨
      ∃ v ∈ r.children, id ∈ v.records := by
  rw [records, List.mem_append, List.mem_flatMap, Value.recordsAll_eq_flatMap, List.mem_flatMap]

variable {ρ σ : RecordId → RecordId} {r : Record}

theorem rename_congr (h : ∀ id ∈ r.records, ρ id = σ id) : r.rename ρ = r.rename σ := by
  have hproperties : r.properties.map (Value.rename ρ) = r.properties.map (Value.rename σ) :=
    OrderedMap.map_congr fun e he =>
      Value.rename_congr fun id hid => h id (mem_records.mpr (Or.inl ⟨e, he, hid⟩))
  have hchildren : Value.renameAll ρ r.children = Value.renameAll σ r.children :=
    Value.renameAll_congr fun id hid => h id (List.mem_append_right _ hid)
  rw [rename, rename, hproperties, hchildren]

theorem rename_eq_self (h : ∀ id ∈ r.records, ρ id = id) : r.rename ρ = r := by
  have hproperties : r.properties.map (Value.rename ρ) = r.properties :=
    OrderedMap.map_eq_self fun e he =>
      Value.rename_eq_self fun id hid => h id (mem_records.mpr (Or.inl ⟨e, he, hid⟩))
  have hchildren : Value.renameAll ρ r.children = r.children :=
    (Value.renameAll_congr fun id hid => h id (List.mem_append_right _ hid)).trans
      (Value.renameAll_id r.children)
  rw [rename, hproperties, hchildren]

theorem rename_rename (ρ σ : RecordId → RecordId) (r : Record) :
    (r.rename ρ).rename σ = r.rename fun id => σ (ρ id) := by
  have hproperties : (r.properties.map (Value.rename ρ)).map (Value.rename σ)
      = r.properties.map (Value.rename fun id => σ (ρ id)) := by
    refine OrderedMap.ext ?_
    simp only [OrderedMap.map, List.map_map]
    exact List.map_congr_left fun e _ => congrArg (Prod.mk e.1) (Value.rename_rename ρ σ e.2)
  exact congrArg₂ (Record.mk r.className) hproperties (Value.renameAll_renameAll ρ σ r.children)

theorem mem_records_rename {id : RecordId} (h : id ∈ r.records) : ρ id ∈ (r.rename ρ).records := by
  rcases mem_records.mp h with ⟨e, he, hid⟩ | ⟨v, hv, hid⟩
  · refine mem_records.mpr (Or.inl ⟨(e.1, e.2.rename ρ), List.mem_map_of_mem he, ?_⟩)
    rw [Value.records_rename]
    exact List.mem_map_of_mem hid
  · refine mem_records.mpr (Or.inr ⟨v.rename ρ, ?_, ?_⟩)
    · rw [rename, Value.renameAll_eq_map]
      exact List.mem_map_of_mem hv
    · rw [Value.records_rename]
      exact List.mem_map_of_mem hid

/-- What a record with other numbers contains are other numbers of what the record contains. -/
theorem mem_of_records_rename {id : RecordId} (h : id ∈ (r.rename ρ).records) :
    ∃ i ∈ r.records, ρ i = id := by
  have hvalue : ∀ v : Value, id ∈ (v.rename ρ).records → ∃ i ∈ v.records, ρ i = id := fun v hv => by
    rw [Value.records_rename] at hv
    exact List.mem_map.mp hv
  rcases mem_records.mp h with ⟨e, he, hid⟩ | ⟨v, hv, hid⟩
  · obtain ⟨e, he', rfl⟩ := List.mem_map.mp he
    obtain ⟨i, hi, heq⟩ := hvalue e.2 hid
    exact ⟨i, mem_records.mpr (Or.inl ⟨e, he', hi⟩), heq⟩
  · rw [rename, Value.renameAll_eq_map] at hv
    obtain ⟨v, hv', rfl⟩ := List.mem_map.mp hv
    obtain ⟨i, hi, heq⟩ := hvalue v hid
    exact ⟨i, mem_records.mpr (Or.inr ⟨v, hv', hi⟩), heq⟩

theorem rename_set (ρ : RecordId → RecordId) (r : Record) (name : String) (v : Value) :
    (r.set name v).rename ρ = (r.rename ρ).set name (v.rename ρ) :=
  congrArg (Record.mk _ · _) (OrderedMap.map_insert _ _ _ _)

theorem rename_push (ρ : RecordId → RecordId) (r : Record) (v : Value) :
    (r.push v).rename ρ = (r.rename ρ).push (v.rename ρ) := by
  simp only [rename, push, Value.renameAll_eq_map, List.map_append, List.map_cons, List.map_nil]

/-- A record with other numbers shows as the record, if what it contains does. -/
theorem contents_rename {f g : RecordId → Tree} (h : ∀ id ∈ r.records, f (ρ id) = g id) :
    (r.rename ρ).contents f = r.contents g := by
  have hproperties : (r.rename ρ).properties.entries.map (fun e => (e.1, e.2.spread f))
      = r.properties.entries.map fun e => (e.1, e.2.spread g) := by
    rw [rename, OrderedMap.map, List.map_map]
    exact List.map_congr_left fun e he => congrArg (Prod.mk e.1)
      (Value.spread_rename fun id hid => h id (mem_records.mpr (Or.inl ⟨e, he, hid⟩)))
  have hchildren : (r.rename ρ).children.map (Value.spread f) = r.children.map (Value.spread g) := by
    rw [rename, Value.renameAll_eq_map, List.map_map]
    exact List.map_congr_left fun v hv =>
      Value.spread_rename fun id hid => h id (mem_records.mpr (Or.inr ⟨v, hv, hid⟩))
  exact congrArg₂ (Contents.mk r.className) hproperties hchildren

/-- What is contained after a property was set is the value, or was contained before. -/
theorem mem_records_set {name : String} {v : Value} {id : RecordId}
    (h : id ∈ (r.set name v).records) : id ∈ v.records ∨ id ∈ r.records := by
  have hentries : ∀ e ∈ (r.set name v).properties.entries,
      id ∈ e.2.records → id ∈ v.records ∨ id ∈ r.records :=
    OrderedMap.forall_mem_put
      (fun e he hid => Or.inr (mem_records.mpr (Or.inl ⟨e, he, hid⟩))) Or.inl
  rcases mem_records.mp h with ⟨e, he, hid⟩ | ⟨w, hw, hid⟩
  · exact hentries e he hid
  · exact Or.inr (mem_records.mpr (Or.inr ⟨w, hw, hid⟩))

theorem mem_records_push {v : Value} {id : RecordId} (h : id ∈ (r.push v).records) :
    id ∈ v.records ∨ id ∈ r.records := by
  rcases mem_records.mp h with ⟨e, he, hid⟩ | ⟨w, hw, hid⟩
  · exact Or.inr (mem_records.mpr (Or.inl ⟨e, he, hid⟩))
  · rcases List.mem_append.mp hw with hw | hw
    · exact Or.inr (mem_records.mpr (Or.inr ⟨w, hw, hid⟩))
    · exact Or.inl (List.mem_singleton.mp hw ▸ hid)

end Record

namespace Store

/-- A record contains another one, through properties, children and lists. -/
def Contains (s : Store) (a b : RecordId) : Prop :=
  b ∈ (s.get a).records

/-- A record that was never made contains nothing. -/
theorem lt_size_of_contains {s : Store} {a b : RecordId} (h : s.Contains a b) : a < s.size := by
  by_contra hlt
  have hget : s.get a = { className := "" } := by
    simp only [get, size] at hlt ⊢
    rw [Array.getElem?_eq_none (Nat.le_of_not_lt hlt), Option.getD_none]
  rw [Contains, hget] at h
  cases h

/-! ### Ways down -/

/-- Records that are open at once, innermost first: each is inside those that come after it. -/
structure Way (s : Store) (D : RecordId → Prop) (opened : List RecordId) : Prop where
  nodup : opened.Nodup
  inside : opened.Pairwise fun b a => TransGen s.Contains a b
  all : ∀ a ∈ opened, D a

theorem Way.nil (s : Store) (D : RecordId → Prop) : s.Way D [] :=
  ⟨.nil, .nil, fun _ h => absurd h List.not_mem_nil⟩

/-- One more record is opened. -/
theorem Way.cons {s : Store} {D : RecordId → Prop} {opened : List RecordId} (h : s.Way D opened)
    {b : RecordId} (hb : D b) (hinside : ∀ a ∈ opened, TransGen s.Contains a b)
    (hnew : b ∉ opened) : s.Way D (b :: opened) :=
  ⟨List.nodup_cons.mpr ⟨hnew, h.nodup⟩, .cons hinside h.inside,
    List.forall_mem_cons.mpr ⟨hb, h.all⟩⟩

/-- What is contained in the innermost record is inside all that are open. -/
theorem Way.below {s : Store} {opened : List RecordId} {b c : RecordId}
    (hinside : ∀ a ∈ opened, TransGen s.Contains a b) (hc : s.Contains b c) :
    ∀ a ∈ b :: opened, TransGen s.Contains a c :=
  List.forall_mem_cons.mpr ⟨.single hc, fun a ha => (hinside a ha).tail hc⟩

/-- Different numbers below a bound are not more than it says. -/
theorem length_le_of_nodup {ids : List RecordId} (h : ids.Nodup) {n : Nat} (hn : ∀ id ∈ ids, id < n) :
    ids.length ≤ n := by
  have hsub : ids ⊆ List.range n := fun id hid => List.mem_range.mpr (hn id hid)
  have hle := (List.subperm_of_subset h hsub).length_le
  rwa [List.length_range] at hle

theorem Way.length_le {s : Store} {opened : List RecordId} (h : s.Way (· < s.size) opened) :
    opened.length ≤ s.size :=
  length_le_of_nodup h.nodup h.all

/-- **Induction on the way down:** what holds of a record, with some records open and some depth left,
if it holds of all that are inside it with this one open too, holds of every record that does not
contain itself. The depth does not run out, for no record is opened twice. -/
theorem Way.induction {s : Store} {P : Nat → List RecordId → RecordId → Prop}
    (step : ∀ (depth : Nat) (opened : List RecordId) (b : RecordId), b ∉ opened →
      (∀ a, ReflTransGen s.Contains b a → ¬ TransGen s.Contains a a) →
      (∀ c, TransGen s.Contains b c → P depth (b :: opened) c) → P (depth + 1) opened b) :
    ∀ (depth : Nat) (opened : List RecordId) (b : RecordId), s.Way (· < s.size) opened →
      (∀ a ∈ opened, TransGen s.Contains a b) →
      (∀ a, ReflTransGen s.Contains b a → ¬ TransGen s.Contains a a) →
      s.size < opened.length + depth → P depth opened b
  | 0, _, _, hway, _, _, hdepth => absurd hway.length_le (Nat.not_le_of_lt hdepth)
  | depth + 1, opened, b, hway, hinside, hacyclic, hdepth => by
    -- a record that is opened already would lie inside itself
    have hnew : b ∉ opened := fun hmem => hacyclic b .refl (hinside b hmem)
    refine step depth opened b hnew hacyclic fun c hc => ?_
    have hsize : b < s.size := by
      obtain ⟨d, hd, -⟩ := TransGen.head'_iff.mp hc
      exact lt_size_of_contains hd
    refine Way.induction step depth (b :: opened) c (hway.cons hsize hinside hnew) ?_ ?_ ?_
    · exact List.forall_mem_cons.mpr ⟨hc, fun a ha => (hinside a ha).trans hc⟩
    · exact fun a ha => hacyclic a (hc.to_reflTransGen.trans ha)
    · rw [List.length_cons]
      omega

/-- Induction on the way down from a record with none open around it. -/
theorem Way.induction_nil {s : Store} {P : Nat → List RecordId → RecordId → Prop}
    (step : ∀ (depth : Nat) (opened : List RecordId) (b : RecordId), b ∉ opened →
      (∀ a, ReflTransGen s.Contains b a → ¬ TransGen s.Contains a a) →
      (∀ c, TransGen s.Contains b c → P depth (b :: opened) c) → P (depth + 1) opened b)
    {b : RecordId} (hacyclic : ∀ a, ReflTransGen s.Contains b a → ¬ TransGen s.Contains a a) :
    P (s.size + 1) [] b := by
  refine Way.induction step (s.size + 1) [] b (.nil _ _) (fun _ ha => absurd ha List.not_mem_nil)
    hacyclic ?_
  rw [List.length_nil]
  omega

/-- A record that is not open shows as its contents. -/
theorem recordTree_succ (s : Store) (depth : Nat) {opened : List RecordId} {id : RecordId}
    (h : id ∉ opened) :
    s.recordTree (depth + 1) opened id
      = ((s.get id).contents (s.recordTree depth (id :: opened))).tree := by
  rw [recordTree, List.idxOf?_eq_none_iff.mpr h]
  simp only [Value.spreadAll_eq_map]
  rfl

/-! ### Values that do not contain themselves -/

/-- Whatever is reached from the records of a value does not contain itself. -/
def Acyclic (s : Store) (v : Value) : Prop :=
  ∀ r ∈ v.records, ∀ a, ReflTransGen s.Contains r a → ¬ TransGen s.Contains a a

/-- A record has a JSON if those that it contains have one. -/
theorem json?_contents {f : RecordId → Tree} {r : Record}
    (h : ∀ id ∈ r.records, (f id).json?.isSome = true) : (r.contents f).tree.json?.isSome = true := by
  have hproperties : (Tree.jsonEntries? (r.contents f).properties).isSome = true := by
    refine Tree.jsonEntries?_isSome fun e he => ?_
    obtain ⟨⟨name, v⟩, hmem, rfl⟩ := List.mem_map.mp he
    exact Value.json?_spread fun id hid => h id (Record.mem_records.mpr (Or.inl ⟨_, hmem, hid⟩))
  have hchildren : (Tree.jsonAll? (r.contents f).children).isSome = true := by
    refine Tree.jsonAll?_isSome fun t ht => ?_
    obtain ⟨v, hmem, rfl⟩ := List.mem_map.mp ht
    exact Value.json?_spread fun id hid => h id (Record.mem_records.mpr (Or.inr ⟨v, hmem, hid⟩))
  obtain ⟨js, hjs⟩ := Option.isSome_iff_exists.mp hproperties
  obtain ⟨js', hjs'⟩ := Option.isSome_iff_exists.mp hchildren
  simp [Contents.tree, Tree.json?, hjs, hjs']

/-- **A value that does not contain itself has a JSON.** -/
theorem json?_isSome {s : Store} {v : Value} (h : s.Acyclic v) : (s.json? v).isSome = true := by
  refine Value.json?_spread fun b hb => ?_
  refine Way.induction_nil (P := fun depth opened b => (s.recordTree depth opened b).json?.isSome = true)
    (fun depth opened b hnew _ ih => ?_) (h b hb)
  rw [recordTree_succ s depth hnew]
  exact json?_contents fun c hc => ih c (.single hc)

/-! ### Stores that show the same -/

/-- What is under some numbers of one store is under other numbers in another store. -/
structure Mirrors (ρ : RecordId → RecordId) (D : RecordId → Prop) (s t : Store) : Prop where
  /-- All numbers belong to records. -/
  bounds : ∀ b, D b → b < t.size ∧ ρ b < s.size
  /-- What is contained in such a record is such a record. -/
  closed : ∀ a b, D a → t.Contains a b → D b
  get : ∀ b, D b → s.get (ρ b) = (t.get b).rename ρ
  /-- Records inside each other have different numbers. -/
  apart : ∀ a b, D a → TransGen t.Contains a b → ρ a = ρ b → a = b

namespace Mirrors

variable {ρ : RecordId → RecordId} {D : RecordId → Prop} {s t : Store}

/-- The other numbers of records that are open at once are pairwise different, too. -/
theorem length_le (h : Mirrors ρ D s t) {opened : List RecordId} (hway : t.Way D opened) :
    opened.length ≤ t.size ∧ opened.length ≤ s.size := by
  refine ⟨length_le_of_nodup hway.nodup fun b hb => (h.bounds b (hway.all b hb)).1, ?_⟩
  have hnodup : (opened.map ρ).Nodup := by
    refine List.pairwise_map.mpr ?_
    refine (hway.inside.and hway.nodup).imp_of_mem fun {b a} hb ha hboth heq => ?_
    exact hboth.2 (h.apart a b (hway.all a ha) hboth.1 heq.symm).symm
  have hle := length_le_of_nodup (n := s.size) hnodup fun id hid => by
    obtain ⟨b, hb, rfl⟩ := List.mem_map.mp hid
    exact (h.bounds b (hway.all b hb)).2
  rwa [List.length_map] at hle

/-- A record is open under its other number exactly if it is open, and it is as many records up. -/
theorem idxOf?_map (h : Mirrors ρ D s t) {opened : List RecordId} (hway : t.Way D opened)
    {b : RecordId} (hinside : ∀ a ∈ opened, TransGen t.Contains a b) :
    (opened.map ρ).idxOf? (ρ b) = opened.idxOf? b := by
  -- on the way to a record no other one is a copy of the same
  have hsame : ∀ a ∈ opened, ρ a = ρ b ↔ a = b := fun a ha =>
    ⟨h.apart a b (hway.all a ha) (hinside a ha), congrArg ρ⟩
  clear hway hinside
  induction opened with
  | nil => rfl
  | cons a rest ih =>
    obtain ⟨hfirst, hrest⟩ := List.forall_mem_cons.mp hsame
    have hbeq : (ρ a == ρ b) = (a == b) := by
      rw [Bool.eq_iff_iff, beq_iff_eq, beq_iff_eq]
      exact hfirst
    rw [List.map_cons, List.idxOf?_cons, List.idxOf?_cons, hbeq, ih hrest]

theorem recordTree_rename (h : Mirrors ρ D s t) :
    ∀ (depth depth' : Nat) (opened : List RecordId) (b : RecordId), t.Way D opened → D b →
      (∀ a ∈ opened, TransGen t.Contains a b) → t.size < opened.length + depth →
      s.size < opened.length + depth' →
      s.recordTree depth' (opened.map ρ) (ρ b) = t.recordTree depth opened b
  | 0, _, opened, _, hway, _, _, hdepth, _ =>
    absurd (h.length_le hway).1 (Nat.not_le_of_lt hdepth)
  | depth + 1, 0, opened, _, hway, _, _, _, hdepth' =>
    absurd (h.length_le hway).2 (Nat.not_le_of_lt hdepth')
  | depth + 1, depth' + 1, opened, b, hway, hb, hinside, hdepth, hdepth' => by
    have hidx := h.idxOf?_map hway hinside
    by_cases hnew : b ∈ opened
    · -- opened above: both trees refer to the same place
      obtain ⟨up, hup⟩ := Option.ne_none_iff_exists'.mp
        (fun hnone => List.idxOf?_eq_none_iff.mp hnone hnew)
      rw [recordTree, recordTree, hidx, hup]
    · -- new on the way: both are unfolded, with one step less
      have hnew' : ρ b ∉ opened.map ρ := by
        rw [← List.idxOf?_eq_none_iff, hidx, List.idxOf?_eq_none_iff]
        exact hnew
      rw [recordTree_succ s depth' hnew', recordTree_succ t depth hnew, h.get b hb]
      refine congrArg Contents.tree (Record.contents_rename fun c hc => ?_)
      refine recordTree_rename h depth depth' (b :: opened) c (hway.cons hb hinside hnew)
        (h.closed b c hb hc) (Way.below hinside hc) ?_ ?_ <;> rw [List.length_cons] <;> omega

/-- **A value shows the same in both stores.** -/
theorem tree_rename (h : Mirrors ρ D s t) {v : Value} (hv : ∀ b ∈ v.records, D b) :
    s.tree (v.rename ρ) = t.tree v := by
  refine Value.spread_rename fun b hb => ?_
  refine h.recordTree_rename _ _ [] b (.nil _ _) (hv b hb) (fun _ ha => absurd ha List.not_mem_nil)
    ?_ ?_ <;> rw [List.length_nil] <;> omega

end Mirrors

end Store

end ObjectMarkup
