import ObjectMarkup.Kind.Builtin

/-!
# What the built-in catalog knows

The built-in catalog is filled by registering one kind after the other. `Kind.table` is the table
that comes of it, and `elementKind_builtin` and `attributeKind_builtin` say that looking a name up
is looking its key up in the table. So nothing further on goes through the registrations.
-/

namespace ObjectMarkup

namespace OrderedMap

variable {κ α : Type} [DecidableEq κ]

/-- Inserting a new key puts the entry at the end. -/
theorem entries_insert_of_not_mem (m : OrderedMap κ α) {key : κ} (h : key ∉ m.keys) (value : α) :
    (m.insert key value).entries = m.entries ++ [(key, value)] := by
  have h : key ∉ m.entries.map Prod.fst := h
  change put key value m.entries = _
  revert h
  induction m.entries with
  | nil => exact fun _ => rfl
  | cons e rest ih =>
    intro h
    obtain ⟨k, v⟩ := e
    rw [List.map_cons, List.mem_cons, not_or] at h
    rw [put, if_neg (Ne.symm h.1), ih h.2, List.cons_append]

theorem entries_foldl_insert (l : List (κ × α)) (m : OrderedMap κ α)
    (h : (m.keys ++ l.map Prod.fst).Nodup) :
    (l.foldl (fun m e => m.insert e.1 e.2) m).entries = m.entries ++ l := by
  induction l generalizing m with
  | nil => exact (List.append_nil _).symm
  | cons e rest ih =>
    have hnew : e.1 ∉ m.keys := by
      intro hmem
      exact (List.nodup_append.mp h).2.2 _ hmem _ List.mem_cons_self rfl
    have hentries := entries_insert_of_not_mem m hnew e.2
    rw [List.foldl_cons, ih, hentries, List.append_assoc, List.singleton_append]
    rw [keys, hentries, List.map_append, List.append_assoc]
    exact h

/-- A list without a repeated key is the list of entries of its map. -/
theorem entries_ofList {l : List (κ × α)} (h : (l.map Prod.fst).Nodup) :
    (ofList l).entries = l :=
  entries_foldl_insert l empty h

end OrderedMap

/-- Kinds by their names. -/
def Kind.table {α : Type} (kinds : List (α × List String)) : List (String × α) :=
  kinds.flatMap fun (kind, names) => names.map fun name => (name, kind)

/-- The names of the built-in kinds are written as they are looked up. -/
theorem nameKey_builtin : ∀ name ∈ Kind.elements.flatMap Prod.snd ++ Kind.attributes.flatMap Prod.snd,
    Text.nameKey name = name := by
  decide +kernel

namespace Association

/-- Registering a kind under names that are written as they are looked up. -/
theorem all_eq {α : Type} (kind : α) (names : List String) (m : OrderedMap String α)
    (h : ∀ name ∈ names, Text.nameKey name = name) :
    (all kind names m).2 =
      (names.map fun name => (name, kind)).foldl (fun m e => m.insert e.1 e.2) m := by
  induction names generalizing m with
  | nil => rfl
  | cons name rest ih =>
    simp only [all, one, h name List.mem_cons_self, List.map_cons, List.foldl_cons]
    exact ih _ fun n hn => h n (List.mem_cons_of_mem _ hn)

end Association

namespace Catalog

/-- Registering kinds of elements one after the other. -/
theorem foldl_addElement (kinds : List (ElementKind × List String)) (c : Catalog)
    (h : ∀ name ∈ kinds.flatMap Prod.snd, Text.nameKey name = name) :
    kinds.foldl (fun c (kind, tags) => (c.addElement kind tags).2) c =
      { c with elements := (Kind.table kinds).foldl (fun m e => m.insert e.1 e.2) c.elements } := by
  induction kinds generalizing c with
  | nil => rfl
  | cons k rest ih =>
    obtain ⟨kind, tags⟩ := k
    rw [List.flatMap_cons] at h
    have hfirst := Association.all_eq kind tags c.elements
      fun n hn => h n (List.mem_append_left _ hn)
    rw [List.foldl_cons, ih _ fun n hn => h n (List.mem_append_right _ hn)]
    simp only [addElement, hfirst, Kind.table, List.flatMap_cons, List.foldl_append]

/-- Registering kinds of attributes one after the other. -/
theorem foldl_addAttribute (kinds : List (AttributeKind × List String)) (c : Catalog)
    (h : ∀ name ∈ kinds.flatMap Prod.snd, Text.nameKey name = name) :
    kinds.foldl (fun c (kind, types) => (c.addAttribute kind types).2) c =
      { c with
        attributes := (Kind.table kinds).foldl (fun m e => m.insert e.1 e.2) c.attributes } := by
  induction kinds generalizing c with
  | nil => rfl
  | cons k rest ih =>
    obtain ⟨kind, types⟩ := k
    rw [List.flatMap_cons] at h
    -- the names are keys already, so the table has them as they stand in the list
    have hfirst := Association.all_eq kind types c.attributes
      fun n hn => h n (List.mem_append_left _ hn)
    rw [List.foldl_cons, ih _ fun n hn => h n (List.mem_append_right _ hn)]
    simp only [addAttribute, hfirst, Kind.table, List.flatMap_cons, List.foldl_append]

/-- The built-in catalog is that of the two tables. -/
theorem builtin_eq :
    Catalog.builtin = ⟨.ofList (Kind.table Kind.elements), .ofList (Kind.table Kind.attributes)⟩ := by
  have helements := foldl_addElement Kind.elements
    ⟨.empty, .ofList (Kind.table Kind.attributes)⟩
    fun n hn => nameKey_builtin n (List.mem_append_left _ hn)
  have hattributes := foldl_addAttribute Kind.attributes .empty
    fun n hn => nameKey_builtin n (List.mem_append_right _ hn)
  rw [builtin]
  simp only [hattributes]
  exact helements

theorem elementKind_of_get? {c : Catalog} {table : List (String × ElementKind)} {tag : String}
    (h : c.elements.get? (Text.nameKey tag) = table.lookup (Text.nameKey tag)) :
    c.elementKind tag =
      match table.lookup (Text.nameKey tag) with
      | some kind => .ok kind
      | none => .error (.unresolved .tag tag) := by
  cases hkind : table.lookup (Text.nameKey tag) <;> simp only [elementKind, h, hkind]

theorem attributeKind_of_get? {c : Catalog} {table : List (String × AttributeKind)} {type : String}
    (h : c.attributes.get? (Text.nameKey type) = table.lookup (Text.nameKey type)) :
    c.attributeKind type =
      match table.lookup (Text.nameKey type) with
      | some kind => .ok kind
      | none => .error (.unresolved .type type) := by
  cases hkind : table.lookup (Text.nameKey type) <;> simp only [attributeKind, h, hkind]

/-- **The kind of a tag** is the one in the table under its key. -/
theorem elementKind_builtin (tag : String) :
    builtin.elementKind tag =
      match (Kind.table Kind.elements).lookup (Text.nameKey tag) with
      | some kind => .ok kind
      | none => .error (.unresolved .tag tag) := by
  have hget : builtin.elements.get? (Text.nameKey tag)
      = (Kind.table Kind.elements).lookup (Text.nameKey tag) := by
    rw [builtin_eq, OrderedMap.get?, OrderedMap.entries_ofList (by decide)]
  rw [elementKind_of_get? hget]

/-- **The kind of a type** is the one in the table under its key. -/
theorem attributeKind_builtin (type : String) :
    builtin.attributeKind type =
      match (Kind.table Kind.attributes).lookup (Text.nameKey type) with
      | some kind => .ok kind
      | none => .error (.unresolved .type type) := by
  have hget : builtin.attributes.get? (Text.nameKey type)
      = (Kind.table Kind.attributes).lookup (Text.nameKey type) := by
    rw [builtin_eq, OrderedMap.get?, OrderedMap.entries_ofList (by decide)]
  rw [attributeKind_of_get? hget]

end Catalog

/-- The kinds of a table are those that were put in. -/
theorem Kind.mem_of_lookup_table {α : Type} {kinds : List (α × List String)} {name : String}
    {kind : α} (h : (Kind.table kinds).lookup name = some kind) :
    kind ∈ kinds.map Prod.fst := by
  have hmem : (name, kind) ∈ Kind.table kinds := by
    obtain ⟨l₁, l₂, heq, -⟩ := List.lookup_eq_some_iff.mp h
    rw [heq]
    exact List.mem_append_right _ List.mem_cons_self
  obtain ⟨⟨kind', names⟩, hkinds, hname⟩ := List.mem_flatMap.mp hmem
  obtain ⟨_, -, heq⟩ := List.mem_map.mp hname
  cases heq
  exact List.mem_map_of_mem (f := Prod.fst) hkinds

/-! ### How values of attributes are made -/

namespace Kind

theorem construct_boolean (a : AttributeView) :
    boolean.construct a = readOrMismatch a ((readBoolean a.key.value).map .bool) := by
  simp only [boolean]

theorem construct_number (a : AttributeView) :
    number.construct a = readOrMismatch a (readNumberAs a.key.type a.key.value) := by
  simp only [number]

theorem construct_constructor (a : AttributeView) : constructor.construct a = symbolOf a := by
  simp only [constructor]

theorem construct_list (a : AttributeView) :
    list.construct a = pure (.list (readItems a.key.value.toList)) := by
  simp only [list]

end Kind

end ObjectMarkup
