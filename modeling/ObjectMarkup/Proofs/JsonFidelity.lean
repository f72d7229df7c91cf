import ObjectMarkup.Proofs.Unfolding

/-!
# The JSON of a value determines it

Records, constructors and loaded bytes all become objects, and empty parts of records are left out.
Can two different values have one JSON? There are two ways only. A number that is not finite is
written as `null` (`Json.written`), and of loaded bytes nothing is left but where they came from and how
many they are. Other values are told in full (`Store.Faithful`), and then the JSON says it all.

How a value is told is a relation between values and JSONs with one case for each kind of value
(`Store.Spells`). Read backwards, at most one of the cases fits a JSON: only records and constructors
are objects, and a record has an entry with its class, which a constructor has not
(`Json.ofRecord_ne_ofConstructor`). What parts a record has can be seen from the names of its entries
(`Json.ofRecord_inj`). So if one JSON tells two values, these are the same part by part
(`same_of_spells`), which is `json_determines`.

Entries can be told apart by their names, too: in no object of the JSON is there a name twice
(`unambiguous_of_json?`).
-/

namespace ObjectMarkup

open Decimal (Binary64)

namespace Json

/-! ### JSON as it is written -/

mutual

/-- The JSON as it is written: a floating point number that is not finite is written as `null`. -/
def written : Json → Json
  | .float x => if x.isFinite then .float x else .null
  | .array items => .array (writtenAll items)
  | .object entries => .object (writtenEntries entries)
  | .null => .null
  | .bool b => .bool b
  | .integer i => .integer i
  | .string s => .string s

def writtenAll : List Json → List Json
  | [] => []
  | j :: rest => written j :: writtenAll rest

def writtenEntries : List (String × Json) → List (String × Json)
  | [] => []
  | (name, j) :: rest => (name, written j) :: writtenEntries rest

end

theorem writtenAll_eq_map (js : List Json) : writtenAll js = js.map written := by
  induction js with
  | nil => rfl
  | cons j rest ih => rw [writtenAll, ih, List.map_cons]

theorem writtenEntries_eq_map (fs : List (String × Json)) :
    writtenEntries fs = fs.map fun f => (f.1, f.2.written) := by
  induction fs with
  | nil => rfl
  | cons f rest ih => rw [writtenEntries, ih, List.map_cons]

variable {className className' : String} {fs fs' : List (String × Json)} {js js' : List Json}

theorem written_ofRecord :
    (ofRecord className fs js).written
      = ofRecord className (fs.map fun f => (f.1, f.2.written)) (js.map written) := by
  cases fs <;> cases js <;>
    simp [ofRecord, written, writtenEntries, writtenAll, writtenEntries_eq_map, writtenAll_eq_map]

/-- **What is left out was empty:** the parts of a record can be told from its JSON. -/
theorem ofRecord_inj (h : ofRecord className fs js = ofRecord className' fs' js') :
    className = className' ∧ fs = fs' ∧ js = js' := by
  rcases fs with - | ⟨f, fs⟩ <;> rcases fs' with - | ⟨f', fs'⟩ <;> rcases js with - | ⟨j, js⟩ <;>
    rcases js' with - | ⟨j', js'⟩ <;> simp [ofRecord] at h ⊢ <;> exact h

/-- The JSON of a constructor. -/
def ofConstructor (path : String) : Json :=
  .object [("constructor", .string path)]

theorem ofConstructor_inj {path path' : String} (h : ofConstructor path = ofConstructor path') :
    path = path' := by
  simpa [ofConstructor] using h

/-- A record has a class, and a constructor has none. -/
theorem ofRecord_ne_ofConstructor {path : String} :
    ofRecord className fs js ≠ ofConstructor path := by
  simp [ofRecord, ofConstructor]

/-- No object of the JSON has two entries under one name. -/
inductive Unambiguous : Json → Prop where
  | array {items : List Json} (items_unambiguous : ∀ j ∈ items, Unambiguous j) :
    Unambiguous (.array items)
  | object {entries : List (String × Json)} (names : (entries.map Prod.fst).Nodup)
    (entries_unambiguous : ∀ e ∈ entries, Unambiguous e.2) : Unambiguous (.object entries)
  | flat {j : Json} (array : ∀ items, j ≠ .array items) (object : ∀ entries, j ≠ .object entries) :
    Unambiguous j

theorem Unambiguous.string (text : String) : Unambiguous (.string text) :=
  .flat nofun nofun

theorem Unambiguous.ofRecord (hnames : (fs.map Prod.fst).Nodup) (hfs : ∀ f ∈ fs, f.2.Unambiguous)
    (hjs : ∀ j ∈ js, j.Unambiguous) : (ofRecord className fs js).Unambiguous := by
  refine .object ?_ ?_
  · cases fs <;> cases js <;> simp
  · refine List.forall_mem_cons.mpr ⟨.string className, List.forall_mem_append.mpr ⟨?_, ?_⟩⟩
    · split
      · exact List.forall_mem_nil _
      · exact List.forall_mem_singleton.mpr (.object hnames hfs)
    · split
      · exact List.forall_mem_nil _
      · exact List.forall_mem_singleton.mpr (.array hjs)

end Json

namespace Store

variable {s t : Store} {v w u : Value} {a b : RecordId} {j k : Json}

/-! ### Values that are told in full -/

/-- What occurs in a value, through lists, properties and children. -/
inductive Occurs (s : Store) : Value → Value → Prop where
  | itself (v : Value) : Occurs s v v
  | item {items : List Value} {v u : Value} (mem : v ∈ items) (occurs : Occurs s v u) :
    Occurs s (.list items) u
  | property {a : RecordId} {e : String × Value} {u : Value}
    (mem : e ∈ (s.get a).properties.entries) (occurs : Occurs s e.2 u) : Occurs s (.record a) u
  | child {a : RecordId} {u : Value} (occurs : Occurs s (.list (s.get a).children) u) :
    Occurs s (.record a) u

/-- **A value that its JSON tells in full:** all its floating point numbers are finite, and no loaded
bytes occur in it. -/
structure Faithful (s : Store) (v : Value) : Prop where
  finite : ∀ x, s.Occurs v (.float x) → x.isFinite = true
  no_resource : ∀ r, ¬ s.Occurs v (.resource r)

theorem Faithful.of_occurs (h : s.Faithful v) (hw : ∀ u, s.Occurs w u → s.Occurs v u) :
    s.Faithful w :=
  ⟨fun x hx => h.finite x (hw _ hx), fun r hr => h.no_resource r (hw _ hr)⟩

theorem faithful_list_iff {items : List Value} :
    s.Faithful (.list items) ↔ ∀ v ∈ items, s.Faithful v := by
  refine ⟨fun h v hv => h.of_occurs fun _ => .item hv, fun h => ⟨fun x hx => ?_, fun r hr => ?_⟩⟩
  · cases hx with
    | item hv hx => exact (h _ hv).finite x hx
  · cases hr with
    | item hv hr => exact (h _ hv).no_resource r hr

theorem faithful_record_iff :
    s.Faithful (.record a) ↔
      (∀ e ∈ (s.get a).properties.entries, s.Faithful e.2) ∧
        s.Faithful (.list (s.get a).children) := by
  constructor
  · exact fun h => ⟨fun e he => h.of_occurs fun _ => .property he, h.of_occurs fun _ => .child⟩
  · rintro ⟨hproperties, hchildren⟩
    refine ⟨fun x hx => ?_, fun r hr => ?_⟩
    · cases hx with
      | property he hx => exact (hproperties _ he).finite x hx
      | child hx => exact hchildren.finite x hx
    · cases hr with
      | property he hr => exact (hproperties _ he).no_resource r hr
      | child hr => exact hchildren.no_resource r hr

/-- **How a value is told as JSON,** part by part. -/
inductive Spells (s : Store) : Value → Json → Prop where
  | null : Spells s .null .null
  | bool (b : Bool) : Spells s (.bool b) (.bool b)
  | int (i : Int64) : Spells s (.int i) (.integer i.toInt)
  | float (x : Binary64) : Spells s (.float x) (.float x)
  | string (text : String) : Spells s (.string text) (.string text)
  | constructor (path : String) (f : Maker Value) :
    Spells s (.constructor path f) (.ofConstructor path)
  | list {items : List Value} {js : List Json} (length : items.length = js.length)
    (items_spell : ∀ (i : Nat) (v : Value) (j : Json), items[i]? = some v → js[i]? = some j →
      Spells s v j) :
    Spells s (.list items) (.array js)
  | record {a : RecordId} {fs : List (String × Json)} {js : List Json}
    (names : (s.get a).properties.keys = fs.map Prod.fst)
    (properties : ∀ (i : Nat) (e : String × Value) (f : String × Json),
      (s.get a).properties.entries[i]? = some e → fs[i]? = some f → Spells s e.2 f.2)
    (children : Spells s (.list (s.get a).children) (.array js)) :
    Spells s (.record a) (.ofRecord (s.get a).className fs js)

/-- **Two values are the same,** each in its store: they have one shape and the same parts in the same
order, whatever the numbers of their records are. -/
inductive Same (s t : Store) : Value → Value → Prop where
  | null : Same s t .null .null
  | bool (b : Bool) : Same s t (.bool b) (.bool b)
  | int (i : Int64) : Same s t (.int i) (.int i)
  | float (x : Binary64) : Same s t (.float x) (.float x)
  | string (text : String) : Same s t (.string text) (.string text)
  | resource (r : Resource) : Same s t (.resource r) (.resource r)
  | constructor (path : String) (f g : Maker Value) :
    Same s t (.constructor path f) (.constructor path g)
  | list {as bs : List Value} (length : as.length = bs.length)
    (items : ∀ (i : Nat) (v w : Value), as[i]? = some v → bs[i]? = some w → Same s t v w) :
    Same s t (.list as) (.list bs)
  | record {a b : RecordId} (className : (s.get a).className = (t.get b).className)
    (names : (s.get a).properties.keys = (t.get b).properties.keys)
    (properties : ∀ (i : Nat) (e f : String × Value), (s.get a).properties.entries[i]? = some e →
      (t.get b).properties.entries[i]? = some f → Same s t e.2 f.2)
    (children : Same s t (.list (s.get a).children) (.list (t.get b).children)) :
    Same s t (.record a) (.record b)

/-- The JSON of a value that is told in full tells it. -/
theorem spells_of_json? (h : s.Founded v) : s.Acyclic v → s.Faithful v → ∀ {j : Json},
    s.json? v = some j → s.Spells v j.written := by
  -- on how the value is founded, so that the hypothesis reaches the items, the properties and the
  -- children
  induction h with
  | list _ ih =>
    intro hacyclic hfaithful j hj
    obtain ⟨js, hjs, rfl⟩ := json?_list_eq_some_iff.mp hj
    obtain ⟨hlength, hitems⟩ := forall₂_iff_getElem?.mp hjs
    rw [Json.written, Json.writtenAll_eq_map]
    refine .list (by rw [List.length_map, hlength]) fun i v k hv hk => ?_
    rw [List.getElem?_map, Option.map_eq_some_iff] at hk
    obtain ⟨j, hj, rfl⟩ := hk
    have hmem := List.mem_of_getElem? hv
    exact ih v hmem (hacyclic.item hmem) (faithful_list_iff.mp hfaithful v hmem) (hitems i v j hv hj)
  | @record a _ _ hproperties hchildren =>
    intro hacyclic hfaithful j hj
    obtain ⟨fs, js, hfs, hjs, rfl⟩ := (json?_record_eq_some_iff hacyclic).mp hj
    obtain ⟨hfp, hfc⟩ := faithful_record_iff.mp hfaithful
    have hchildren := hchildren hacyclic.children hfc hjs
    rw [Json.written, Json.writtenAll_eq_map] at hchildren
    obtain ⟨hlength, hentries⟩ := forall₂_iff_getElem?.mp hfs
    rw [Json.written_ofRecord]
    refine .record ?_ (fun i e f he hf => ?_) hchildren
    · rw [List.map_map]
      exact map_fst_eq_of_forall₂ hfs
    · rw [List.getElem?_map, Option.map_eq_some_iff] at hf
      obtain ⟨g, hg, rfl⟩ := hf
      have hmem := List.mem_of_getElem? he
      exact hproperties e hmem (hacyclic.property hmem) (hfp e hmem) (hentries i e g he hg).2
  | @flat v hlist hrecord =>
    intro _ hfaithful j hj
    cases v with
    | list items => exact absurd rfl (hlist items)
    | record a => exact absurd rfl (hrecord a)
    -- a resource loses its bytes in the output and an infinity is written as null: both are
    -- excluded
    | resource r => exact absurd (.itself _) (hfaithful.no_resource r)
    | float x =>
      obtain rfl : Json.float x = j := Option.some.inj hj
      rw [Json.written, if_pos (hfaithful.finite x (.itself _))]
      exact .float x
    | null =>
      obtain rfl : Json.null = j := Option.some.inj hj
      exact .null
    | bool b =>
      obtain rfl : Json.bool b = j := Option.some.inj hj
      exact .bool b
    | int i =>
      obtain rfl : Json.integer i.toInt = j := Option.some.inj hj
      exact .int i
    | string text =>
      obtain rfl : Json.string text = j := Option.some.inj hj
      exact .string text
    | constructor path f =>
      obtain rfl : Json.ofConstructor path = j := Option.some.inj hj
      exact .constructor path f

/-- **What tells two values tells the same value.** Only an object may stand for a record or for a
constructor, and these have other names for their entries. -/
theorem same_of_spells (h : s.Spells v j) : ∀ {w : Value} {k : Json}, t.Spells w k → j = k →
    Same s t v w := by
  induction h with
  | null =>
    intro w k hk hjk
    cases hk with
    | null => exact .null
    | _ => cases hjk
  | bool b =>
    intro w k hk hjk
    cases hk with
    | bool b' => exact Json.bool.inj hjk ▸ .bool b
    | _ => cases hjk
  | int i =>
    intro w k hk hjk
    cases hk with
    | int i' => exact Int64.toInt_inj.mp (Json.integer.inj hjk) ▸ .int i
    | _ => cases hjk
  | float x =>
    intro w k hk hjk
    cases hk with
    | float x' => exact Json.float.inj hjk ▸ .float x
    | _ => cases hjk
  | string text =>
    intro w k hk hjk
    cases hk with
    | string text' => exact Json.string.inj hjk ▸ .string text
    | _ => cases hjk
  | constructor path f =>
    intro w k hk hjk
    cases hk with
    -- the path is in the output, the function it names is not
    | constructor path' g =>
      obtain rfl := Json.ofConstructor_inj hjk
      exact .constructor path f g
    | record => exact absurd hjk.symm Json.ofRecord_ne_ofConstructor
    | _ => cases hjk
  | list length _ ih =>
    intro w k hk hjk
    cases hk with
    | list length' items' =>
      obtain rfl := Json.array.inj hjk
      refine .list (length.trans length'.symm) fun i v w hv hw => ?_
      obtain ⟨j, hj⟩ := exists_getElem?_of_length length hv
      exact ih i v j hv hj (items' i w j hw hj) rfl
    | _ => cases hjk
  | record names _ _ ihproperties ihchildren =>
    intro w k hk hjk
    cases hk with
    | record names' properties' children' =>
      -- class, properties and children are three keys of one object, so each is read back
      obtain ⟨hclass, rfl, rfl⟩ := Json.ofRecord_inj hjk
      refine .record hclass (names.trans names'.symm) (fun i e f he hf => ?_)
        (ihchildren children' rfl)
      obtain ⟨g, hg⟩ := exists_getElem?_of_length (map_eq_map_iff_getElem?.mp names).1 he
      exact ihproperties i e g he hg (properties' i f g hf hg) rfl
    | constructor => exact absurd hjk Json.ofRecord_ne_ofConstructor
    | _ => cases hjk

/-- The same values show as the same tree. -/
theorem Same.tree_eq (h : Same s t v w) : s.Acyclic v → t.Acyclic w → s.tree v = t.tree w := by
  induction h with
  | null | bool | int | float | string | resource | constructor => exact fun _ _ => rfl
  | list length _ ih =>
    intro hv hw
    rw [tree_list, tree_list]
    refine congrArg Tree.list (map_eq_map_iff_getElem?.mpr ⟨length, fun i v w hv' hw' => ?_⟩)
    exact ih i v w hv' hw' (hv.item (List.mem_of_getElem? hv')) (hw.item (List.mem_of_getElem? hw'))
  | record className names _ _ ihproperties ihchildren =>
    intro hv hw
    have hchildren := ihchildren hv.children hw.children
    rw [tree_list, tree_list] at hchildren
    -- the numbers of the two records are free: only what is below them counts
    rw [tree_record hv, tree_record hw, className, Tree.list.inj hchildren]
    obtain ⟨hlength, hnames⟩ := map_eq_map_iff_getElem?.mp names
    refine congrArg (Tree.record _ · _)
      (map_eq_map_iff_getElem?.mpr ⟨hlength, fun i e f he hf => ?_⟩)
    rw [hnames i e f he hf, ihproperties i e f he hf (hv.property (List.mem_of_getElem? he))
      (hw.property (List.mem_of_getElem? hf))]

/-- **No name stands twice in the JSON of a value,** for no record has two properties under one name
and its own entries have different names. -/
theorem unambiguous_of_json? (h : s.Founded v) : s.Acyclic v → ∀ {j : Json}, s.json? v = some j →
    j.Unambiguous := by
  induction h with
  | list _ ih =>
    intro hacyclic j hj
    obtain ⟨js, hjs, rfl⟩ := json?_list_eq_some_iff.mp hj
    refine .array fun k hk => ?_
    obtain ⟨v, hv, hvk⟩ := exists_mem_of_forall₂ hjs hk
    exact ih v hv (hacyclic.item hv) hvk
  | @record a _ _ hproperties hchildren =>
    intro hacyclic j hj
    obtain ⟨fs, js, hfs, hjs, rfl⟩ := (json?_record_eq_some_iff hacyclic).mp hj
    -- the entries of a record have distinct names, and its three keys are distinct too
    have hnames : (fs.map Prod.fst).Nodup := map_fst_eq_of_forall₂ hfs ▸ (s.get a).properties.nodup
    refine .ofRecord hnames (fun f hf => ?_) ?_
    · obtain ⟨e, he, -, hef⟩ := exists_mem_of_forall₂ hfs hf
      exact hproperties e he (hacyclic.property he) hef
    · cases hchildren hacyclic.children hjs with
      | array hitems => exact hitems
      | flat harray => exact absurd rfl (harray js)
  | @flat v hlist hrecord =>
    intro _ j hj
    cases v with
    | list items => exact absurd rfl (hlist items)
    | record a => exact absurd rfl (hrecord a)
    | resource r =>
      rw [← Option.some.inj hj]
      refine .object (by simp) (List.forall_mem_cons.mpr ⟨.string _, ?_⟩)
      exact List.forall_mem_singleton.mpr (.flat nofun nofun)
    | constructor path f =>
      rw [← Option.some.inj hj]
      exact .object (List.pairwise_singleton _ _) (List.forall_mem_singleton.mpr (.string path))
    | null | bool | int | float | string =>
      rw [← Option.some.inj hj]
      exact .flat nofun nofun

/-! ### JSON tells values -/

/-- **The JSON of a value determines it.** Two values that do not contain themselves have JSONs, and
these are written in the same way exactly if the values are the same, so long as no number in them is
infinite or undefined and no loaded bytes are. -/
theorem json_determines (hv : s.Acyclic v) (hw : t.Acyclic w) (hfv : s.Faithful v)
    (hfw : t.Faithful w) :
    ∃ j k, s.json? v = some j ∧ t.json? w = some k ∧ (j.written = k.written ↔ Same s t v w) ∧
      j.Unambiguous ∧ k.Unambiguous := by
  obtain ⟨j, hj⟩ := Option.isSome_iff_exists.mp (json?_isSome hv)
  obtain ⟨k, hk⟩ := Option.isSome_iff_exists.mp (json?_isSome hw)
  refine ⟨j, k, hj, hk, ⟨fun hjk => ?_, fun hsame => ?_⟩, unambiguous_of_json? hv.founded hv hj,
    unambiguous_of_json? hw.founded hw hk⟩
  · -- what is written spells both values, so the values are the same
    exact same_of_spells (spells_of_json? hv.founded hv hfv hj)
      (spells_of_json? hw.founded hw hfw hk) hjk
  · have htree := congrArg Tree.json? (hsame.tree_eq hv hw)
    exact congrArg Json.written (Option.some.inj (hj.symm.trans (htree.trans hk)))

/-- A record and a list that contains a number and a record: both can be told, and not by one JSON. -/
theorem json_determines_chain :
    chain.Acyclic (.record 1) ∧ chain.Acyclic (.list [.float (.zero true), .record 0]) ∧
      chain.Faithful (.record 1) ∧ chain.Faithful (.list [.float (.zero true), .record 0]) ∧
      ∃ j k, chain.json? (.record 1) = some j ∧
        chain.json? (.list [.float (.zero true), .record 0]) = some k ∧ j.written ≠ k.written := by
  have hzero : chain.Faithful (.record 0) :=
    faithful_record_iff.mpr ⟨fun _ he => absurd he List.not_mem_nil,
      faithful_list_iff.mpr fun _ hv => absurd hv List.not_mem_nil⟩
  have hone : chain.Faithful (.record 1) :=
    faithful_record_iff.mpr ⟨fun _ he => absurd he List.not_mem_nil,
      faithful_list_iff.mpr (List.forall_mem_singleton.mpr hzero)⟩
  have hlist : chain.Faithful (.list [.float (.zero true), .record 0]) := by
    refine faithful_list_iff.mpr (List.forall_mem_cons.mpr ⟨⟨?_, nofun⟩,
      List.forall_mem_singleton.mpr hzero⟩)
    rintro x ⟨⟩
    decide
  refine ⟨chain_acyclic _, chain_acyclic _, hone, hlist, ?_⟩
  obtain ⟨j, k, hj, hk, hiff, -, -⟩ :=
    json_determines (chain_acyclic _) (chain_acyclic _) hone hlist
  refine ⟨j, k, hj, hk, fun hjk => ?_⟩
  cases hiff.mp hjk

end Store

end ObjectMarkup
