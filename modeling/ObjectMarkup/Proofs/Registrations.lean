import ObjectMarkup.Proofs.Identity

/-!
# Registering kinds

Kinds are registered under names by calls that come one after the other. Two of the questions that a
catalog answers depend on the whole run: which kind a name has, and whether it was there before.

* `lastWriter` is the kind of the last call that held a name with the key. It is what a name has
  (`get?_registerEach`), whatever spelling is asked for.
* A name was there before if an earlier call held one with its key, or the same call did so before
  it (`Association.answer_all`).

`Catalog.mirrors_registerAll` puts them together for both kinds of names. A schema writes types as
keys, the key of a coercion is made of that, and the catalog makes a key once more: since the key of
a key is the key (`Text.nameKey_nameKey`), all three mean one entry.
-/

namespace ObjectMarkup

/-- A call that registers a kind under names. -/
inductive Registration where
  | element (kind : ElementKind) (tags : List String)
  | attribute (kind : AttributeKind) (types : List String)

namespace Registration

def names : Registration → List String
  | .element _ tags => tags
  | .attribute _ types => types

def element? : Registration → Option (ElementKind × List String)
  | .element kind tags => some (kind, tags)
  | .attribute .. => none

def attribute? : Registration → Option (AttributeKind × List String)
  | .element .. => none
  | .attribute kind types => some (kind, types)

end Registration

/-- What a call answers, and the catalog after it. -/
def Catalog.register (c : Catalog) : Registration → List Association × Catalog
  | .element kind tags => c.addElement kind tags
  | .attribute kind types => c.addAttribute kind types

/-- What calls answer, one after the other, and the catalog after them. -/
def Catalog.registerAll : List Registration → Catalog → List (List Association) × Catalog
  | [], c => ([], c)
  | call :: rest, c =>
    let (answer, c) := c.register call
    let (answers, c) := registerAll rest c
    (answer :: answers, c)

/-! ### One kind of names -/

section Calls

variable {α : Type}

/-- The keys of the names that calls held. -/
def keysOf (calls : List (α × List String)) : List String :=
  calls.flatMap fun call => call.2.map Text.nameKey

/-- The kind of the last call that held a name with the key. -/
def lastWriter (calls : List (α × List String)) (key : String) : Option α :=
  (calls.reverse.find? fun call => decide (key ∈ call.2.map Text.nameKey)).map Prod.fst

theorem lastWriter_concat (calls : List (α × List String)) (kind : α) (names : List String)
    (key : String) : lastWriter (calls ++ [(kind, names)]) key =
      if key ∈ names.map Text.nameKey then some kind else lastWriter calls key := by
  rw [lastWriter, List.reverse_concat, List.find?_cons]
  by_cases h : key ∈ names.map Text.nameKey
  · simp only [h, decide_true, if_true, Option.map_some]
  · simp only [h, decide_false, if_false]
    rfl

/-- The last writer is there just if some call held a name with the key. -/
theorem lastWriter_isSome_iff (calls : List (α × List String)) (key : String) :
    (lastWriter calls key).isSome ↔ key ∈ keysOf calls := by
  simp [lastWriter, keysOf]

/-- The map after calls. -/
def registerEach (calls : List (α × List String)) (m : OrderedMap String α) : OrderedMap String α :=
  calls.foldl (fun m call => (Association.all call.1 call.2 m).2) m

theorem registerEach_concat (calls : List (α × List String)) (kind : α) (names : List String)
    (m : OrderedMap String α) : registerEach (calls ++ [(kind, names)]) m =
      (Association.all kind names (registerEach calls m)).2 :=
  List.foldl_append

/-- **The last writer wins.** The induction takes the last call away, since it is the one that
decides. -/
theorem get?_registerEach (calls : List (α × List String)) (key : String) :
    (registerEach calls .empty).get? key = lastWriter calls key := by
  induction calls using List.reverseRecOn with
  | nil => rfl
  | append_singleton calls call ih =>
    obtain ⟨kind, names⟩ := call
    rw [registerEach_concat, lastWriter_concat]
    split
    · next hmem => exact Association.get?_all kind hmem
    · next hmem => rw [Association.get?_all_of_not_mem kind hmem, ih]

theorem mem_keys_registerEach (calls : List (α × List String)) (key : String) :
    key ∈ (registerEach calls .empty).keys ↔ key ∈ keysOf calls := by
  rw [OrderedMap.mem_keys_iff, get?_registerEach, lastWriter_isSome_iff]

/-- What is said of a name that is registered after others. -/
def Association.afterKeys (earlier : List String) (name : String) : Association :=
  if Text.nameKey name ∈ earlier then .replaced else .inserted

namespace Association

theorem length_all (kind : α) (names : List String) (m : OrderedMap String α) :
    (all kind names m).1.length = names.length := by
  induction names generalizing m with
  | nil => rfl
  | cons name rest ih => simp only [all, List.length_cons, ih]

theorem all_append (kind : α) (names others : List String) (m : OrderedMap String α) :
    all kind (names ++ others) m =
      ((all kind names m).1 ++ (all kind others (all kind names m).2).1,
        (all kind others (all kind names m).2).2) := by
  induction names generalizing m with
  | nil => rfl
  | cons name rest ih =>
    show all kind (name :: (rest ++ others)) m = _
    simp only [all, ih, List.cons_append]

/-- The answer to a name: whether its key was there before the call, or stood before it in the
call. -/
theorem answer_all (kind : α) (before : List String) (name : String) (after : List String)
    (calls : List (α × List String)) :
    (all kind (before ++ name :: after) (registerEach calls .empty)).1[before.length]? =
      some (afterKeys (keysOf calls ++ before.map Text.nameKey) name) := by
  have hkey : Text.nameKey name ∈ (all kind before (registerEach calls .empty)).2.keys ↔
      Text.nameKey name ∈ keysOf calls ++ before.map Text.nameKey := by
    rw [mem_keys_all, mem_keys_registerEach, List.mem_append]
  have hlength := length_all kind before (registerEach calls .empty)
  rw [all_append, List.getElem?_append_right hlength.le, hlength, Nat.sub_self]
  simp only [all, one, OrderedMap.contains, List.getElem?_cons_zero, ← OrderedMap.mem_keys_iff,
    hkey, afterKeys]

end Association

end Calls

/-! ### Both kinds of names -/

/-- The calls that register elements. -/
def elementCalls (calls : List Registration) : List (ElementKind × List String) :=
  calls.filterMap Registration.element?

/-- The calls that register attributes. -/
def attributeCalls (calls : List Registration) : List (AttributeKind × List String) :=
  calls.filterMap Registration.attribute?

namespace Catalog

theorem registerAll_append (calls others : List Registration) (c : Catalog) :
    registerAll (calls ++ others) c =
      ((registerAll calls c).1 ++ (registerAll others (registerAll calls c).2).1,
        (registerAll others (registerAll calls c).2).2) := by
  induction calls generalizing c with
  | nil => rfl
  | cons call rest ih =>
    show registerAll (call :: (rest ++ others)) c = _
    simp only [registerAll, ih, List.cons_append]

/-- Every call is answered name by name. -/
theorem lengths_registerAll (calls : List Registration) (c : Catalog) :
    (registerAll calls c).1.map List.length = calls.map fun call => call.names.length := by
  induction calls generalizing c with
  | nil => rfl
  | cons call rest ih =>
    have hcall : (c.register call).1.length = call.names.length := by
      cases call <;> exact Association.length_all _ _ _
    simp only [registerAll, List.map_cons, ih, hcall]

/-- Calls of one kind leave the names of the other kind alone. -/
theorem registerAll_snd (calls : List Registration) (c : Catalog) :
    (registerAll calls c).2 =
      ⟨registerEach (elementCalls calls) c.elements, registerEach (attributeCalls calls) c.attributes⟩ := by
  induction calls generalizing c with
  | nil => rfl
  | cons call rest ih => cases call <;> exact ih _

/-- The answer to a call that stands behind others. -/
theorem answer_registerAll (earlier : List Registration) (call : Registration)
    (later : List Registration) :
    (registerAll (earlier ++ call :: later) .empty).1[earlier.length]? =
      some ((registerAll earlier .empty).2.register call).1 := by
  have hlength : (registerAll earlier .empty).1.length = earlier.length := by
    simpa only [List.length_map] using congrArg List.length (lengths_registerAll earlier .empty)
  rw [registerAll_append, List.getElem?_append_right hlength.le, hlength, Nat.sub_self]
  rfl

/-- A tag has the kind of the last call that held its key, and fails as it is spelled. -/
theorem elementKind_registerAll (calls : List Registration) (tag : String) :
    (registerAll calls .empty).2.elementKind tag =
      match lastWriter (elementCalls calls) (Text.nameKey tag) with
      | some kind => .ok kind
      | none => .error (.unresolved .tag tag) := by
  rw [← get?_registerEach, registerAll_snd]
  rfl

theorem attributeKind_registerAll (calls : List Registration) (type : String) :
    (registerAll calls .empty).2.attributeKind type =
      match lastWriter (attributeCalls calls) (Text.nameKey type) with
      | some kind => .ok kind
      | none => .error (.unresolved .type type) := by
  rw [← get?_registerEach, registerAll_snd]
  rfl

theorem mem_sorted {names : List String} {name : String} : name ∈ sorted names ↔ name ∈ names :=
  (List.mergeSort_perm names _).mem_iff

theorem pairwise_sorted {names : List String} (h : names.Nodup) :
    (sorted names).Pairwise (· < ·) := by
  have htrans : ∀ a b c : String, decide (a ≤ b) = true → decide (b ≤ c) = true →
      decide (a ≤ c) = true := fun a b c hab hbc =>
    decide_eq_true (String.le_trans (of_decide_eq_true hab) (of_decide_eq_true hbc))
  have htotal : ∀ a b : String, (decide (a ≤ b) || decide (b ≤ a)) = true := fun a b => by
    simpa using String.le_total a b
  have hsorted := List.pairwise_mergeSort htrans htotal names
  -- sorting gives an order with repetitions, and the names have none
  have hne : (sorted names).Pairwise (· ≠ ·) := (List.mergeSort_perm names _).nodup_iff.mpr h
  refine hsorted.imp₂ (fun a b hab hab' => ?_) hne
  -- who is not below is above or the same
  exact String.not_le.mp fun hba => hab' (String.le_antisymm (of_decide_eq_true hab) hba)

/-- **A catalog after calls that began with none.** -/
structure Mirrors (calls : List Registration) (answers : List (List Association)) (c : Catalog) :
    Prop where
  /-- Every call has one answer for each of its names. -/
  answered : answers.map List.length = calls.map fun call => call.names.length
  /-- The answer to a tag says whether an earlier call registered its key, or the same call did so
  with a tag before it. -/
  tag_answer : ∀ earlier kind before tag after later,
    calls = earlier ++ .element kind (before ++ tag :: after) :: later →
    (answers[earlier.length]?.bind fun answer => answer[before.length]?) =
      some (.afterKeys (keysOf (elementCalls earlier) ++ before.map Text.nameKey) tag)
  type_answer : ∀ earlier kind before type after later,
    calls = earlier ++ .attribute kind (before ++ type :: after) :: later →
    (answers[earlier.length]?.bind fun answer => answer[before.length]?) =
      some (.afterKeys (keysOf (attributeCalls earlier) ++ before.map Text.nameKey) type)
  /-- A tag has the kind of the last call that held its key, and fails as it is spelled. -/
  kind_of_tag : ∀ tag, c.elementKind tag =
    match lastWriter (elementCalls calls) (Text.nameKey tag) with
    | some kind => .ok kind
    | none => .error (.unresolved .tag tag)
  kind_of_type : ∀ type, c.attributeKind type =
    match lastWriter (attributeCalls calls) (Text.nameKey type) with
    | some kind => .ok kind
    | none => .error (.unresolved .type type)
  /-- The tags are the keys in ascending order, each once. -/
  tags_ascend : c.tags.Pairwise (· < ·)
  mem_tags : ∀ name, name ∈ c.tags ↔ name ∈ keysOf (elementCalls calls)
  types_ascend : c.types.Pairwise (· < ·)
  mem_types : ∀ name, name ∈ c.types ↔ name ∈ keysOf (attributeCalls calls)
  /-- A key is its own key. -/
  normal : ∀ name, Text.nameKey (Text.nameKey name) = Text.nameKey name
  /-- A type that a schema declares has the key of every one of its spellings. -/
  declared : ∀ (schema : Schema) name type assigned forwarded spelled value,
    Text.nameKey spelled = Text.nameKey type →
    AttributeKey.ofType name ((schema.declare name type assigned forwarded).typeOf name) value =
      AttributeKey.ofType name spelled value
  /-- So a pass that asks for the declared type gets the one compiler of all spellings, or makes it
  of the kind of the last call that held its key. -/
  reached : ∀ (p : Pass) (schema : Schema) name type assigned forwarded value base,
    p.environment.catalog = c →
    p.coercion name ((schema.declare name type assigned forwarded).typeOf name) value base =
      let key := AttributeKey.ofType name type value
      match p.coercions.get? key with
      | some k => .ok (k, p)
      | none =>
        match lastWriter (attributeCalls calls) (Text.nameKey type) with
        | none => .error (.unresolved .type (Text.nameKey type))
        | some kind =>
          let k : Coercion := ⟨key, p.base.or base, kind, none⟩
          .ok (k, { p with coercions := p.coercions.insert key k })

/-- A schema keeps the key of the type that it declares. -/
theorem typeOf_declare (schema : Schema) (name type : String) (assigned forwarded : Bool) :
    (schema.declare name type assigned forwarded).typeOf name = Text.nameKey type := by
  simp only [Schema.declare, Schema.typeOf, OrderedMap.get?_insert_self]

/-- A type in any spelling makes the key of the entry that a schema declares. -/
theorem ofType_declare (schema : Schema) (name : String) {type spelled : String}
    (assigned forwarded : Bool) (value : String)
    (h : Text.nameKey spelled = Text.nameKey type) :
    AttributeKey.ofType name ((schema.declare name type assigned forwarded).typeOf name) value =
      AttributeKey.ofType name spelled value := by
  rw [typeOf_declare, AttributeKey.ofType, AttributeKey.ofType, Text.nameKey_nameKey, h]

/-- A pass whose catalog comes of calls, asked for the type that a schema declares. -/
theorem coercion_declare {calls : List Registration} {p : Pass}
    (hp : p.environment.catalog = (registerAll calls .empty).2) (schema : Schema)
    (name type : String) (assigned forwarded : Bool) (value : String) (base : Option Locator) :
    p.coercion name ((schema.declare name type assigned forwarded).typeOf name) value base =
      let key := AttributeKey.ofType name type value
      match p.coercions.get? key with
      | some k => .ok (k, p)
      | none =>
        match lastWriter (attributeCalls calls) (Text.nameKey type) with
        | none => .error (.unresolved .type (Text.nameKey type))
        | some kind =>
          let k : Coercion := ⟨key, p.base.or base, kind, none⟩
          .ok (k, { p with coercions := p.coercions.insert key k }) := by
  -- the type is made a key in the schema, in the key of the coercion and in the catalog
  have hown : (AttributeKey.ofType name type value).type = Text.nameKey type := rfl
  rw [Pass.coercion, ofType_declare schema name assigned forwarded value rfl]
  simp only [hown, hp, attributeKind_registerAll, Text.nameKey_nameKey]
  -- a compiler made before is found again, else the last registration of the type decides
  cases p.coercions.get? (AttributeKey.ofType name type value) with
  | some k => rfl
  | none => cases lastWriter (attributeCalls calls) (Text.nameKey type) <;> rfl

/-- **Registering is writing to two maps,** one for tags and one for types, in which names with one
key are one name and the last writer wins. -/
theorem mirrors_registerAll (calls : List Registration) :
    Mirrors calls (registerAll calls .empty).1 (registerAll calls .empty).2 := by
  refine
    { answered := lengths_registerAll calls .empty
      tag_answer := fun earlier kind before tag after later heq => ?tag_answer
      type_answer := fun earlier kind before type after later heq => ?type_answer
      kind_of_tag := elementKind_registerAll calls
      kind_of_type := attributeKind_registerAll calls
      tags_ascend := pairwise_sorted (registerAll calls .empty).2.elements.nodup
      mem_tags := fun name => ?mem_tags
      types_ascend := pairwise_sorted (registerAll calls .empty).2.attributes.nodup
      mem_types := fun name => ?mem_types
      normal := Text.nameKey_nameKey
      declared := fun schema name _ assigned forwarded _ value hspelled =>
        ofType_declare schema name assigned forwarded value hspelled
      reached := fun _ schema name type assigned forwarded value base hp =>
        coercion_declare hp schema name type assigned forwarded value base }
  -- an answer depends on the registrations before it and not on those of the other kind
  case tag_answer =>
    rw [heq, answer_registerAll, registerAll_snd]
    exact Association.answer_all kind before tag after (elementCalls earlier)
  case type_answer =>
    rw [heq, answer_registerAll, registerAll_snd]
    exact Association.answer_all kind before type after (attributeCalls earlier)
  case mem_tags =>
    rw [tags, mem_sorted, registerAll_snd]
    exact mem_keys_registerEach (elementCalls calls) name
  case mem_types =>
    rw [types, mem_sorted, registerAll_snd]
    exact mem_keys_registerEach (attributeCalls calls) name

example : (registerAll [.element Kind.object ["Box", " box "], .attribute Kind.number ["box"],
      .element Kind.data ["BOX"]] .empty).1 =
    [[.inserted, .replaced], [.inserted], [.replaced]] := by
  decide +kernel

end Catalog

end ObjectMarkup
