import Mathlib.Data.List.Forall2
import ObjectMarkup.Proofs.Evaluator

/-!
# Records as trees

A record can be told as a tree without its store if it only refers to records that were made before
it. `Store.Tidy` says that of all records from some number on. In a tidy store no record is met
inside itself, so that spreading it out is a plain recursion (`treeOf_eq`), and goes on to give the
same tree when more records are made (`Tidy.treeOf_extends`).

`Store.Builds` is about the one record that is being made: all others are as they were, and the new
one shows as given `Contents`. What is set in it or put into it is set in or put into the contents
(`Builds.set`, `Builds.push`), and once it is done the store is tidy again (`Builds.tidy`).
-/

namespace ObjectMarkup

/-! ### What values refer to -/

namespace Value

mutual

/-- A value without constructors that refers to such records only. -/
def Within (P : RecordId → Prop) : Value → Prop
  | .list items => WithinAll P items
  | .record id => P id
  | .constructor _ _ => False
  | _ => True

/-- Values of that kind. -/
def WithinAll (P : RecordId → Prop) : List Value → Prop
  | [] => True
  | v :: rest => Within P v ∧ WithinAll P rest

end

/-- A value without records and constructors. -/
def Plain (v : Value) : Prop :=
  v.Within fun _ => False

/-- A value that refers to records with numbers from the first one up to the second one. -/
def Between (lo hi : Nat) (v : Value) : Prop :=
  v.Within fun id => lo ≤ id ∧ id < hi

theorem spreadAll_eq_map (record : RecordId → Tree) (items : List Value) :
    spreadAll record items = items.map (spread record) := by
  induction items with
  | nil => rfl
  | cons v rest ih => rw [spreadAll, ih, List.map_cons]

variable {P Q : RecordId → Prop} {f g : RecordId → Tree}

mutual

theorem Within.mono (h : ∀ id, P id → Q id) : ∀ {v : Value}, v.Within P → v.Within Q
  | .list _, hv => WithinAll.mono h hv
  | .record id, hv => h id hv
  | .null, _ | .bool _, _ | .int _, _ | .float _, _ | .string _, _ | .resource _, _ => trivial

theorem WithinAll.mono (h : ∀ id, P id → Q id) : ∀ {items : List Value}, WithinAll P items →
    WithinAll Q items
  | [], _ => trivial
  | _ :: _, hv => ⟨hv.1.mono h, WithinAll.mono h hv.2⟩

end

mutual

/-- How a value spreads out depends on the records that it refers to. -/
theorem Within.spread_congr (h : ∀ id, P id → f id = g id) :
    ∀ {v : Value}, v.Within P → v.spread f = v.spread g
  | .list _, hv => congrArg Tree.list (WithinAll.spread_congr h hv)
  | .record id, hv => h id hv
  | .null, _ | .bool _, _ | .int _, _ | .float _, _ | .string _, _ | .resource _, _ => rfl

theorem WithinAll.spread_congr (h : ∀ id, P id → f id = g id) :
    ∀ {items : List Value}, WithinAll P items → spreadAll f items = spreadAll g items
  | [], _ => rfl
  | _ :: _, hv => by rw [spreadAll, spreadAll, hv.1.spread_congr h, WithinAll.spread_congr h hv.2]

end

theorem Plain.within {v : Value} (h : v.Plain) : v.Within P :=
  h.mono fun _ => False.elim

theorem Plain.spread {v : Value} (h : v.Plain) : v.spread f = v.plainTree :=
  h.spread_congr fun _ => False.elim

theorem plain_list {items : List Value} (h : ∀ v ∈ items, v.Plain) : (Value.list items).Plain := by
  change WithinAll _ items
  induction items with
  | nil => trivial
  | cons v rest ih =>
    exact ⟨h v List.mem_cons_self, ih fun w hw => h w (List.mem_cons_of_mem _ hw)⟩

theorem Between.mono {lo hi hi' : Nat} {v : Value} (h : v.Between lo hi) (hle : hi ≤ hi') :
    v.Between lo hi' :=
  Within.mono (fun _ hid => ⟨hid.1, Nat.lt_of_lt_of_le hid.2 hle⟩) h

end Value

/-! ### Contents of records -/

namespace Record

/-- What a record holds, spread out. -/
def contents (f : RecordId → Tree) (r : Record) : Contents :=
  ⟨r.className, r.properties.entries.map fun (name, v) => (name, v.spread f),
    r.children.map (Value.spread f)⟩

/-- A record that refers to such records only. -/
structure Within (P : RecordId → Prop) (r : Record) : Prop where
  properties : ∀ e ∈ r.properties.entries, e.2.Within P
  children : ∀ v ∈ r.children, v.Within P

theorem Within.contents_congr {P : RecordId → Prop} {f g : RecordId → Tree} {r : Record}
    (h : r.Within P) (hfg : ∀ id, P id → f id = g id) : r.contents f = r.contents g := by
  have hproperties : r.properties.entries.map (fun (name, v) => (name, v.spread f))
      = r.properties.entries.map fun (name, v) => (name, v.spread g) :=
    List.map_congr_left fun e he => congrArg _ ((h.properties e he).spread_congr hfg)
  have hchildren : r.children.map (Value.spread f) = r.children.map (Value.spread g) :=
    List.map_congr_left fun v hv => (h.children v hv).spread_congr hfg
  rw [contents, contents, hproperties, hchildren]

theorem contents_plain {f : RecordId → Tree} {className : String}
    {properties : OrderedMap String Value} (h : ∀ e ∈ properties.entries, e.2.Plain) :
    contents f ⟨className, properties, []⟩
      = ⟨className, properties.entries.map fun (name, v) => (name, v.plainTree), []⟩ :=
  congrArg (Contents.mk _ · _) (List.map_congr_left fun e he => congrArg _ (h e he).spread)

theorem contents_set (f : RecordId → Tree) (r : Record) (name : String) (v : Value) :
    (r.set name v).contents f = (r.contents f).put name (v.spread f) :=
  congrArg (Contents.mk _ · _) (OrderedMap.map_put (Value.spread f) name v r.properties.entries)

theorem contents_push (f : RecordId → Tree) (r : Record) (v : Value) :
    (r.push v).contents f = (r.contents f).push (v.spread f) :=
  congrArg (Contents.mk _ _) List.map_append

theorem Within.set {P : RecordId → Prop} {r : Record} (h : r.Within P) (name : String) {v : Value}
    (hv : v.Within P) : (r.set name v).Within P :=
  ⟨OrderedMap.forall_mem_put h.properties hv, h.children⟩

theorem Within.push {P : RecordId → Prop} {r : Record} (h : r.Within P) {v : Value}
    (hv : v.Within P) : (r.push v).Within P := by
  refine ⟨h.properties, fun w hw => ?_⟩
  rcases List.mem_append.mp hw with hw | hw
  · exact h.children w hw
  · exact List.mem_singleton.mp hw ▸ hv

end Record

/-! ### Tidy stores -/

namespace Store

/-- From a number on, every record refers to records between that number and its own. -/
structure Tidy (m : Nat) (s : Store) : Prop where
  le : m ≤ s.size
  records : ∀ id, m ≤ id → id < s.size → (s.get id).Within fun j => m ≤ j ∧ j < id

/-- More records were made, and the others are as they were. -/
structure Extends (s s' : Store) : Prop where
  size : s.size ≤ s'.size
  get : ∀ id, id < s.size → s'.get id = s.get id

theorem Extends.refl (s : Store) : s.Extends s :=
  ⟨Nat.le_refl _, fun _ _ => rfl⟩

theorem Extends.trans {s t u : Store} (h : s.Extends t) (h' : t.Extends u) : s.Extends u :=
  ⟨Nat.le_trans h.size h'.size, fun id hid =>
    (h'.get id (Nat.lt_of_lt_of_le hid h.size)).trans (h.get id hid)⟩

def treeOf (s : Store) (id : RecordId) : Tree :=
  s.recordTree (id + 1) [] id

section Tidy

variable {m : Nat} {s s' : Store}

/-- Spreading a record out does not depend on what is opened around it, as long as that was made
later. -/
theorem Tidy.recordTree_eq (h : s.Tidy m) : ∀ id, m ≤ id → id < s.size →
    ∀ depth opened, id < depth → (∀ j ∈ opened, id < j) →
      s.recordTree depth opened id = ((s.get id).contents s.treeOf).tree := by
  intro id
  induction id using Nat.strongRecOn with
  | _ id ih =>
    intro hm hid depth opened hdepth hopened
    obtain ⟨depth, rfl⟩ : ∃ d, depth = d + 1 := ⟨depth - 1, by omega⟩
    -- the records around have greater numbers, so none of them is met again
    have hclosed : opened.idxOf? id = none := by
      rw [List.idxOf?_eq_none_iff]
      intro hmem
      exact absurd (hopened id hmem) (Nat.lt_irrefl id)
    -- inside, smaller numbers are looked for with less depth and one more record around
    have hinside : ∀ j, m ≤ j ∧ j < id → s.recordTree depth (id :: opened) j = s.treeOf j := by
      intro j ⟨hmj, hj⟩
      have hjs : j < s.size := Nat.lt_trans hj hid
      have hbelow : ∀ k ∈ id :: opened, j < k := by
        intro k hk
        rcases List.mem_cons.mp hk with rfl | hk
        · exact hj
        · exact Nat.lt_trans hj (hopened k hk)
      rw [ih j hj hmj hjs depth (id :: opened) (by omega) hbelow, treeOf,
        ih j hj hmj hjs (j + 1) [] (Nat.lt_succ_self j) (fun _ hk => absurd hk List.not_mem_nil)]
    have hcontents := (h.records id hm hid).contents_congr hinside
    rw [recordTree, hclosed]
    simp only [Value.spreadAll_eq_map]
    exact congrArg Contents.tree hcontents

/-- **A record of a tidy store** shows as its contents. -/
theorem Tidy.treeOf_eq (h : s.Tidy m) {id : RecordId} (hm : m ≤ id) (hid : id < s.size) :
    s.treeOf id = ((s.get id).contents s.treeOf).tree :=
  h.recordTree_eq id hm hid (id + 1) [] (Nat.lt_succ_self id) fun _ hk => absurd hk List.not_mem_nil

theorem Tidy.tree_eq (h : s.Tidy m) {v : Value} (hv : v.Between m s.size) :
    s.tree v = v.spread s.treeOf := by
  refine Value.Within.spread_congr (fun id hid => ?_) hv
  rw [h.treeOf_eq hid.1 hid.2]
  exact h.recordTree_eq id hid.1 hid.2 _ [] (Nat.lt_succ_of_lt hid.2) fun _ hk => absurd hk List.not_mem_nil

/-- More records change nothing about how the others show. -/
theorem Tidy.treeOf_extends (h : s.Tidy m) (h' : s'.Tidy m) (he : s.Extends s') :
    ∀ id, m ≤ id → id < s.size → s'.treeOf id = s.treeOf id := by
  intro id
  induction id using Nat.strongRecOn with
  | _ id ih =>
    intro hm hid
    have hcontents := (h.records id hm hid).contents_congr fun j hj =>
      ih j hj.2 hj.1 (Nat.lt_trans hj.2 hid)
    rw [h.treeOf_eq hm hid, h'.treeOf_eq hm (Nat.lt_of_lt_of_le hid he.size), he.get id hid,
      hcontents]

theorem Tidy.spread_extends (h : s.Tidy m) (h' : s'.Tidy m) (he : s.Extends s') {v : Value}
    (hv : v.Between m s.size) : v.spread s'.treeOf = v.spread s.treeOf :=
  Value.Within.spread_congr (fun id hid => h.treeOf_extends h' he id hid.1 hid.2) hv

/-- A value is a record exactly if it shows as one. -/
theorem Tidy.isRecord_spread (h : s.Tidy m) {v : Value} (hv : v.Between m s.size) :
    (v.spread s.treeOf).isRecord = v.isRecord := by
  cases v with
  | record id =>
    rw [Value.spread, h.treeOf_eq hv.1 hv.2]
    rfl
  | _ => rfl

end Tidy

end Store

/-! ### JSON -/

theorem Tree.jsonAll?_isSome {items : List Tree} (h : ∀ t ∈ items, t.json?.isSome = true) :
    (Tree.jsonAll? items).isSome = true := by
  induction items with
  | nil => rfl
  | cons t rest ih =>
    obtain ⟨ht, hrest⟩ := List.forall_mem_cons.mp h
    obtain ⟨j, hj⟩ := Option.isSome_iff_exists.mp ht
    obtain ⟨js, hjs⟩ := Option.isSome_iff_exists.mp (ih hrest)
    simp [Tree.jsonAll?, hj, hjs]

theorem Tree.jsonEntries?_isSome {entries : List (String × Tree)}
    (h : ∀ e ∈ entries, e.2.json?.isSome = true) : (Tree.jsonEntries? entries).isSome = true := by
  induction entries with
  | nil => rfl
  | cons e rest ih =>
    obtain ⟨name, t⟩ := e
    obtain ⟨ht, hrest⟩ := List.forall_mem_cons.mp h
    obtain ⟨j, hj⟩ := Option.isSome_iff_exists.mp ht
    obtain ⟨js, hjs⟩ := Option.isSome_iff_exists.mp (ih hrest)
    simp [Tree.jsonEntries?, hj, hjs]

section Json

variable {P : RecordId → Prop} {f : RecordId → Tree}

mutual

/-- A value has a JSON if the records that it refers to have one. -/
theorem Value.Within.json (h : ∀ id, P id → (f id).json?.isSome = true) :
    ∀ {v : Value}, v.Within P → (v.spread f).json?.isSome = true
  | .list items, hv => by
    rw [Value.spread, Tree.json?, Option.isSome_map, Value.spreadAll_eq_map]
    exact Tree.jsonAll?_isSome (WithinAll.json h hv)
  | .record id, hv => h id hv
  | .null, _ | .bool _, _ | .int _, _ | .float _, _ | .string _, _ | .resource _, _ => rfl

theorem Value.WithinAll.json (h : ∀ id, P id → (f id).json?.isSome = true) :
    ∀ {items : List Value}, Value.WithinAll P items →
      ∀ t ∈ items.map (Value.spread f), t.json?.isSome = true
  | [], _ => fun _ ht => absurd ht List.not_mem_nil
  | _ :: _, hv => List.forall_mem_cons.mpr ⟨hv.1.json h, WithinAll.json h hv.2⟩

end

theorem Record.Within.json (h : ∀ id, P id → (f id).json?.isSome = true) {r : Record}
    (hr : r.Within P) : (r.contents f).tree.json?.isSome = true := by
  have hproperties : (Tree.jsonEntries? (r.contents f).properties).isSome = true := by
    refine Tree.jsonEntries?_isSome fun e he => ?_
    obtain ⟨⟨name, v⟩, hmem, rfl⟩ := List.mem_map.mp he
    exact (hr.properties _ hmem).json h
  have hchildren : (Tree.jsonAll? (r.contents f).children).isSome = true := by
    refine Tree.jsonAll?_isSome fun t ht => ?_
    obtain ⟨v, hmem, rfl⟩ := List.mem_map.mp ht
    exact (hr.children v hmem).json h
  obtain ⟨js, hjs⟩ := Option.isSome_iff_exists.mp hproperties
  obtain ⟨js', hjs'⟩ := Option.isSome_iff_exists.mp hchildren
  simp [Contents.tree, Tree.json?, hjs, hjs']

end Json

/-- **A value of a tidy store has a JSON.** -/
theorem Store.Tidy.json {m : Nat} {s : Store} (h : s.Tidy m) {v : Value}
    (hv : v.Between m s.size) : (s.json? v).isSome = true := by
  have hrecord : ∀ id, m ≤ id ∧ id < s.size → (s.treeOf id).json?.isSome = true := by
    intro id
    induction id using Nat.strongRecOn with
    | _ id ih =>
      intro hid
      rw [h.treeOf_eq hid.1 hid.2]
      exact (h.records id hid.1 hid.2).json fun j hj =>
        ih j hj.2 ⟨hj.1, Nat.lt_trans hj.2 hid.2⟩
  rw [Store.json?, h.tree_eq hv]
  exact Value.Within.json hrecord hv

/-! ### Making a record -/

namespace Store

/-- **A record is being made** on top of a store and shows as the contents. -/
structure Builds (m : Nat) (s s' : Store) (r : Contents) : Prop where
  size : s'.size = s.size + 1
  others : ∀ id, id < s.size → s'.get id = s.get id
  within : (s'.get s.size).Within fun j => m ≤ j ∧ j < s.size
  shows : (s'.get s.size).contents s.treeOf = r

namespace Builds

variable {m : Nat} {s s' : Store} {r : Contents}

theorem make (s : Store) {r : Record} (h : r.Within fun j => m ≤ j ∧ j < s.size) :
    Builds m s (s.make r).2 (r.contents s.treeOf) := by
  have hself : (s.make r).2.get s.size = r := get_make_self s r
  exact ⟨size_make s r, fun id hid => get_make_of_lt hid r, hself.symm ▸ h, by rw [hself]⟩

/-- A change of the record that is being made. -/
theorem modify (h : Builds m s s' r) {f : Record → Record} {g : Contents → Contents}
    (hwithin : ∀ r : Record, (r.Within fun j => m ≤ j ∧ j < s.size) →
      (f r).Within fun j => m ≤ j ∧ j < s.size)
    (hshows : ∀ r : Record, (f r).contents s.treeOf = g (r.contents s.treeOf)) :
    Builds m s (s'.modify s.size f) (g r) := by
  have hself : (s'.modify s.size f).get s.size = f (s'.get s.size) :=
    get_modify_self (by rw [h.size]; exact Nat.lt_succ_self _) f
  refine ⟨(size_modify s' s.size f).trans h.size, fun id hid => ?_, ?_, ?_⟩
  · rw [get_modify_of_ne s' (Nat.ne_of_lt hid) f, h.others id hid]
  · rw [hself]
    exact hwithin _ h.within
  · rw [hself, hshows, h.shows]

theorem set (h : Builds m s s' r) (name : String) {v : Value} (hv : v.Between m s.size) :
    Builds m s (s'.set s.size name v) (r.put name (v.spread s.treeOf)) :=
  h.modify (f := (·.set name v)) (g := (·.put name (v.spread s.treeOf)))
    (fun _ hr => hr.set name hv) fun r => r.contents_set _ name v

theorem push (h : Builds m s s' r) {v : Value} (hv : v.Between m s.size) :
    Builds m s (s'.push s.size v) (r.push (v.spread s.treeOf)) :=
  h.modify (f := (·.push v)) (g := (·.push (v.spread s.treeOf)))
    (fun _ hr => hr.push hv) fun r => r.contents_push _ v

/-- Adding to a record and to its contents, one thing after the other. -/
theorem foldl {α β : Type} {R : α → β → Prop} {f : Store → α → Store}
    {g : Contents → β → Contents}
    (hstep : ∀ {s' r a b}, R a b → Builds m s s' r → Builds m s (f s' a) (g r b))
    {l : List α} {l' : List β} (hl : List.Forall₂ R l l') :
    ∀ {s' r}, Builds m s s' r → Builds m s (l.foldl f s') (l'.foldl g r) := by
  induction hl with
  | nil => exact fun h => h
  | cons hab _ ih => exact fun h => ih (hstep hab h)

theorem extends_self (h : Builds m s s' r) : s.Extends s' :=
  ⟨by rw [h.size]; exact Nat.le_succ _, h.others⟩

theorem tidy (h : Builds m s s' r) (hs : s.Tidy m) : s'.Tidy m := by
  refine ⟨Nat.le_trans hs.le h.extends_self.size, fun id hm hid => ?_⟩
  rcases Nat.lt_or_eq_of_le (Nat.le_of_lt_succ (h.size ▸ hid)) with hid | rfl
  · rw [h.others id hid]
    exact hs.records id hm hid
  · exact h.within

theorem treeOf_eq (h : Builds m s s' r) (hs : s.Tidy m) : s'.treeOf s.size = r.tree := by
  have hs' := h.tidy hs
  have hid : s.size < s'.size := by rw [h.size]; exact Nat.lt_succ_self _
  rw [hs'.treeOf_eq hs.le hid, ← h.shows]
  refine congrArg Contents.tree (h.within.contents_congr fun j hj => ?_)
  exact hs.treeOf_extends hs' h.extends_self j hj.1 hj.2

end Builds

end Store

end ObjectMarkup
