/-!
# Maps that remember the order of insertion

A map from keys to values whose entries stay in the order in which their keys were first inserted.
Inserting under a key that is present replaces the value and keeps the place.

No key occurs twice, and the type says so; with that, `get?` after `insert` behaves as in any map
(`get?_insert_self`, `get?_insert_of_ne`), and `keys_insert` says what becomes of the order.
-/

namespace ObjectMarkup

universe u v

/-- A map that remembers the order of insertion. -/
structure OrderedMap (κ : Type u) (α : Type v) where
  /-- The entries, in the order in which the keys were first inserted. -/
  entries : List (κ × α)
  /-- No key occurs twice. -/
  nodup : (entries.map Prod.fst).Nodup

namespace OrderedMap

variable {κ : Type u} {α : Type v}

def empty : OrderedMap κ α :=
  ⟨[], List.nodup_nil⟩

instance : Inhabited (OrderedMap κ α) := ⟨empty⟩

instance : EmptyCollection (OrderedMap κ α) := ⟨empty⟩

def keys (m : OrderedMap κ α) : List κ :=
  m.entries.map Prod.fst

def size (m : OrderedMap κ α) : Nat :=
  m.entries.length

@[simp] theorem keys_empty : (empty : OrderedMap κ α).keys = [] := rfl

@[ext] theorem ext {m n : OrderedMap κ α} (h : m.entries = n.entries) : m = n := by
  cases m; cases n; cases h; rfl

variable [DecidableEq κ]

def get? (m : OrderedMap κ α) (key : κ) : Option α :=
  m.entries.lookup key

def contains (m : OrderedMap κ α) (key : κ) : Bool :=
  (m.get? key).isSome

/-! ### Insertion on lists of entries -/

/-- Replaces the value under the key in place, or puts the entry at the end. -/
def put (key : κ) (value : α) : List (κ × α) → List (κ × α)
  | [] => [(key, value)]
  | (k, v) :: rest => if k = key then (key, value) :: rest else (k, v) :: put key value rest

theorem map_fst_put (key : κ) (value : α) (l : List (κ × α)) :
    (put key value l).map Prod.fst
      = if key ∈ l.map Prod.fst then l.map Prod.fst else l.map Prod.fst ++ [key] := by
  induction l with
  | nil => simp [put]
  | cons e rest ih =>
    obtain ⟨k, v⟩ := e
    by_cases h : k = key
    · subst h; simp [put]
    · simp only [put, if_neg h, List.map_cons, ih, List.mem_cons, Ne.symm h, false_or]
      split <;> simp

theorem nodup_put {key : κ} {value : α} {l : List (κ × α)}
    (h : (l.map Prod.fst).Nodup) : ((put key value l).map Prod.fst).Nodup := by
  rw [map_fst_put]
  split
  · exact h
  · next hn =>
    refine List.nodup_append.2 ⟨h, by simp, ?_⟩
    intro a ha b hb
    have hb' : b = key := by simpa using hb
    intro hab
    exact hn (hb' ▸ hab ▸ ha)

theorem lookup_put_self (key : κ) (value : α) (l : List (κ × α)) :
    (put key value l).lookup key = some value := by
  induction l with
  | nil => simp [put]
  | cons e rest ih =>
    obtain ⟨k, v⟩ := e
    by_cases h : k = key
    · simp [put, h]
    · have h' : (key == k) = false := by simpa using Ne.symm h
      simp [put, h, List.lookup_cons, h', ih]

theorem lookup_put_of_ne {key other : κ} (h : other ≠ key) (value : α)
    (l : List (κ × α)) : (put key value l).lookup other = l.lookup other := by
  have hne : (other == key) = false := by simpa using h
  induction l with
  | nil => simp [put, List.lookup_cons, hne]
  | cons e rest ih =>
    obtain ⟨k, v⟩ := e
    by_cases hk : k = key
    · subst hk; simp [put, List.lookup_cons, hne]
    · simp only [put, if_neg hk, List.lookup_cons, ih]

/-- What holds of all entries goes on to hold of them if it holds of the new one. -/
theorem forall_mem_put {P : κ × α → Prop} {key : κ} {value : α} {l : List (κ × α)}
    (h : ∀ e ∈ l, P e) (hnew : P (key, value)) : ∀ e ∈ put key value l, P e := by
  induction l with
  | nil => exact List.forall_mem_singleton.mpr hnew
  | cons e rest ih =>
    obtain ⟨he, hrest⟩ := List.forall_mem_cons.mp h
    rw [put]
    split
    · exact List.forall_mem_cons.mpr ⟨hnew, hrest⟩
    · exact List.forall_mem_cons.mpr ⟨he, ih hrest⟩

/-- Values can be changed before or after one is put under a key. -/
theorem map_put {β : Type v} (f : α → β) (key : κ) (value : α) (l : List (κ × α)) :
    (put key value l).map (fun (k, v) => (k, f v))
      = put key (f value) (l.map fun (k, v) => (k, f v)) := by
  induction l with
  | nil => rfl
  | cons e rest ih =>
    simp only [put, List.map_cons]
    split
    · rfl
    · rw [List.map_cons, ih]

/-! ### Insertion -/

/-- Inserts a value under a key: in place if the key is present, else at the end. -/
def insert (m : OrderedMap κ α) (key : κ) (value : α) : OrderedMap κ α :=
  ⟨put key value m.entries, nodup_put m.nodup⟩

/-- The map of a list of entries, where a later entry replaces an earlier one in its place. -/
def ofList (l : List (κ × α)) : OrderedMap κ α :=
  l.foldl (fun m e => m.insert e.1 e.2) empty

/-- Changes the value under a key, if the key is present. -/
def modify (m : OrderedMap κ α) (key : κ) (f : α → α) : OrderedMap κ α :=
  match m.get? key with
  | some value => m.insert key (f value)
  | none => m

@[simp] theorem get?_empty (key : κ) : (empty : OrderedMap κ α).get? key = none := rfl

@[simp] theorem get?_insert_self (m : OrderedMap κ α) (key : κ) (value : α) :
    (m.insert key value).get? key = some value :=
  lookup_put_self key value m.entries

theorem get?_insert_of_ne (m : OrderedMap κ α) {key other : κ} (h : other ≠ key)
    (value : α) : (m.insert key value).get? other = m.get? other :=
  lookup_put_of_ne h value m.entries

theorem get?_modify_self (m : OrderedMap κ α) (key : κ) (f : α → α) :
    (m.modify key f).get? key = (m.get? key).map f := by
  unfold modify
  cases h : m.get? key <;> simp [h]

theorem get?_modify_of_ne (m : OrderedMap κ α) {key other : κ} (h : other ≠ key) (f : α → α) :
    (m.modify key f).get? other = m.get? other := by
  unfold modify
  cases m.get? key <;> simp [get?_insert_of_ne m h]

theorem get?_insert (m : OrderedMap κ α) (key other : κ) (value : α) :
    (m.insert key value).get? other = if other = key then some value else m.get? other := by
  split
  · next h => rw [h, get?_insert_self]
  · next h => exact get?_insert_of_ne m h value

theorem get?_modify (m : OrderedMap κ α) (key other : κ) (f : α → α) :
    (m.modify key f).get? other = if other = key then (m.get? key).map f else m.get? other := by
  split
  · next h => rw [h, get?_modify_self]
  · next h => exact get?_modify_of_ne m h f

/-- A new key goes to the end, and a present one keeps its place. -/
theorem keys_insert (m : OrderedMap κ α) (key : κ) (value : α) :
    (m.insert key value).keys = if key ∈ m.keys then m.keys else m.keys ++ [key] :=
  map_fst_put key value m.entries

/-- The keys are those that a value is under. -/
theorem mem_keys_iff (m : OrderedMap κ α) (key : κ) : key ∈ m.keys ↔ (m.get? key).isSome := by
  simp only [keys, get?]
  induction m.entries with
  | nil => simp
  | cons e rest ih =>
    rw [List.map_cons, List.mem_cons, ih, List.lookup_cons]
    by_cases h : key = e.1
    · simp [h]
    · have hne : (key == e.1) = false := beq_eq_false_iff_ne.mpr h
      simp only [h, false_or, hne]

@[simp] theorem keys_modify (m : OrderedMap κ α) (key : κ) (f : α → α) :
    (m.modify key f).keys = m.keys := by
  unfold modify
  cases h : m.get? key with
  | none => rfl
  | some value =>
    have hmem : key ∈ m.keys := by rw [mem_keys_iff, h]; rfl
    simp only [keys_insert, if_pos hmem]

theorem mem_entries_of_get? {m : OrderedMap κ α} {key : κ} {value : α}
    (h : m.get? key = some value) : (key, value) ∈ m.entries := by
  obtain ⟨l₁, l₂, heq, -⟩ := List.lookup_eq_some_iff.mp h
  rw [heq]
  exact List.mem_append_right _ List.mem_cons_self

/-- Every entry is found under its key, since no other one has the key. -/
theorem get?_of_mem_entries {m : OrderedMap κ α} {e : κ × α} (h : e ∈ m.entries) :
    m.get? e.1 = some e.2 := by
  obtain ⟨l₁, l₂, heq⟩ := List.append_of_mem h
  refine List.lookup_eq_some_iff.mpr ⟨l₁, l₂, heq, fun e' he' => ?_⟩
  -- the keys before it are other ones
  have hnodup := m.nodup
  rw [heq, List.map_append, List.nodup_append] at hnodup
  have hne := hnodup.2.2 _ (List.mem_map_of_mem he') _ (List.mem_map_of_mem List.mem_cons_self)
  exact bne_iff_ne.mpr hne.symm

instance [DecidableEq α] : DecidableEq (OrderedMap κ α) := fun m n =>
  if h : m.entries = n.entries then isTrue (ext h) else isFalse fun e => h (e ▸ rfl)

end OrderedMap

end ObjectMarkup
