import ObjectMarkup.Kind.Script
import ObjectMarkup.Proofs.Calls

/-!
# Constructors that build what is written down

Building a literal only adds records, and each of them contains records that were added before it or
that the literal refers to (`Store.Grows`). In another store the same is built, with other numbers for
the records (`Literal.shifts_build`). So a constructor that builds its literal anew for each call is
both steady and acyclic, however many records it makes in one call (`Literal.steady_calls`,
`Literal.acyclic_calls`). Scripted kinds of attributes build literals as well, and leave all records
alone that are there before (`Kind.AttributeScript.grows`).
-/

namespace ObjectMarkup

open Relation (TransGen)

/-! ### Growing stores -/

/-- A store that has grown: records were added, each of which contains such records as `H` or some
that were added before it. -/
structure Store.Grows (H : RecordId → Prop) (s t : Store) : Prop where
  memory : t.memory = s.memory
  adds : ∃ rs, s.Adds rs t
  contents : ∀ a b, s.size ≤ a → t.Contains a b → H b ∨ s.size ≤ b ∧ b < a

/-- A value that refers to such records, or to some that were added. -/
def Value.Grown (H : RecordId → Prop) (s t : Store) (v : Value) : Prop :=
  ∀ i ∈ v.records, H i ∨ s.size ≤ i ∧ i < t.size

namespace Store.Grows

variable {H : RecordId → Prop} {s t u : Store}

theorem size_le (h : s.Grows H t) : s.size ≤ t.size := by
  obtain ⟨rs, hadds⟩ := h.adds
  exact hadds.size_le

theorem refl (H : RecordId → Prop) (s : Store) : s.Grows H s :=
  ⟨rfl, ⟨[], .refl s⟩, fun _ _ ha hab => absurd (lt_size_of_contains hab) (Nat.not_lt_of_le ha)⟩

theorem trans (h : s.Grows H t) (h' : t.Grows H u) : s.Grows H u := by
  obtain ⟨rs, hadds⟩ := h.adds
  obtain ⟨rs', hadds'⟩ := h'.adds
  refine ⟨h'.memory.trans h.memory, ⟨rs ++ rs', hadds.trans hadds'⟩, fun a b ha hab => ?_⟩
  by_cases hlt : a < t.size
  · rw [Contains, hadds'.old a hlt] at hab
    exact h.contents a b ha hab
  · refine (h'.contents a b (Nat.le_of_not_lt hlt) hab).imp_right fun hb => ?_
    exact ⟨Nat.le_trans h.size_le hb.1, hb.2⟩

/-- One more record, made of what there is by now. -/
theorem make (h : s.Grows H t) {r : Record} (hr : ∀ i ∈ r.records, H i ∨ s.size ≤ i ∧ i < t.size) :
    s.Grows H (t.make r).2 := by
  obtain ⟨rs, hadds⟩ := h.adds
  refine ⟨h.memory, ⟨rs ++ [r], hadds.trans (.make t r)⟩, fun a b ha hab => ?_⟩
  -- either an old record, which is as it was, or the record just made
  rcases contains_make hab with ⟨-, hab⟩ | ⟨rfl, hb⟩
  · exact h.contents a b ha hab
  · exact hr b hb

theorem grown_mono (h : t.Grows H u) {v : Value} (hv : v.Grown H s t) : v.Grown H s u :=
  fun i hi => (hv i hi).imp_right fun hlt => ⟨hlt.1, Nat.lt_of_lt_of_le hlt.2 h.size_le⟩

theorem grown_of_le (h : s.Grows H t) {v : Value} (hv : v.Grown H t u) : v.Grown H s u :=
  fun i hi => (hv i hi).imp_right fun hlt => ⟨Nat.le_trans h.size_le hlt.1, hlt.2⟩

end Store.Grows

/-! ### Maps of entries -/

namespace OrderedMap

variable {α β : Type}

/-- What holds of all entries of a list holds of those of its map. -/
theorem forall_mem_ofList {P : String × α → Prop} {l : List (String × α)} (h : ∀ e ∈ l, P e) :
    ∀ e ∈ (ofList l).entries, P e := by
  -- generalised to any start, since the fold does not stay at the empty map
  have hfold : ∀ (l : List (String × α)) (m : OrderedMap String α), (∀ e ∈ l, P e) →
      (∀ e ∈ m.entries, P e) → ∀ e ∈ (l.foldl (fun m e => m.insert e.1 e.2) m).entries, P e := by
    intro l
    induction l with
    | nil => exact fun _ _ hm => hm
    | cons e rest ih =>
      intro m hl hm
      obtain ⟨hfirst, hrest⟩ := List.forall_mem_cons.mp hl
      exact ih _ hrest (forall_mem_put hm hfirst)
  exact hfold l empty h fun _ he => absurd he List.not_mem_nil

theorem map_ofList (f : α → β) (l : List (String × α)) :
    (ofList l).map f = ofList (l.map fun e => (e.1, f e.2)) := by
  rw [ofList, ofList, List.foldl_map]
  exact (List.foldl_hom (OrderedMap.map f) fun m e => (map_insert f m e.1 e.2).symm).symm

end OrderedMap

/-! ### Building -/

namespace Literal

/-- A record is made when its properties and its children are built. -/
theorem build_record (known : List Value) (s : Store) (className : String)
    (properties : List (String × Literal)) (children : List Literal) :
    (Literal.record className properties children).build known s =
      (.record (buildAll known (buildEntries known s properties).2 children).2.size,
        ((buildAll known (buildEntries known s properties).2 children).2.make
          ⟨className, .ofList (buildEntries known s properties).1,
            (buildAll known (buildEntries known s properties).2 children).1⟩).2) :=
  rfl

section Grows

variable {H : RecordId → Prop} {known : List Value}

mutual

/-- **Building a literal** adds records that lead down to what the literal refers to. -/
theorem grows_build (hknown : AllIn H known) : ∀ (l : Literal) (s : Store),
    s.Grows H (l.build known s).2 ∧ (l.build known s).1.Grown H s (l.build known s).2
  | .null, s | .bool _, s | .int _, s | .float _, s | .string _, s | .fresh _ _, s
  | .panics _ _, s | .resource _, s => ⟨.refl H s, fun _ hi => absurd hi List.not_mem_nil⟩
  | .reference place, s => by
    refine ⟨.refl H s, fun i hi => Or.inl ?_⟩
    rw [build] at hi
    -- a place that is not there gives nothing
    cases hv : known[place]? with
    | none =>
      rw [hv] at hi
      exact absurd hi List.not_mem_nil
    | some v =>
      rw [hv] at hi
      exact hknown v (List.mem_of_getElem? hv) i hi
  | .fixed _ value, s => ⟨(grows_build hknown value s).1, fun _ hi => absurd hi List.not_mem_nil⟩
  | .list items, s => by
    obtain ⟨hgrows, hvalues⟩ := grows_buildAll hknown items s
    refine ⟨hgrows, fun i hi => ?_⟩
    have hi : i ∈ Value.recordsAll (buildAll known s items).1 := hi
    rw [Value.recordsAll_eq_flatMap, List.mem_flatMap] at hi
    obtain ⟨v, hv, hi⟩ := hi
    exact hvalues v hv i hi
  | .record className properties children, s => by
    obtain ⟨hproperties, hset⟩ := grows_buildEntries hknown properties s
    obtain ⟨hchildren, hpushed⟩ :=
      grows_buildAll hknown children (buildEntries known s properties).2
    -- the properties are built first, then the children in the store they leave
    have hboth := hproperties.trans hchildren
    have hmade := hboth.make (r := ⟨className, .ofList (buildEntries known s properties).1,
      (buildAll known (buildEntries known s properties).2 children).1⟩) fun i hi => by
        rcases Record.mem_records.mp hi with ⟨e, he, hi⟩ | ⟨v, hv, hi⟩
        · exact hchildren.grown_mono (OrderedMap.forall_mem_ofList
            (P := fun e => e.2.Grown H s (buildEntries known s properties).2) hset e he) i hi
        · exact hproperties.grown_of_le (hpushed v hv) i hi
    refine ⟨hmade, fun i hi => Or.inr ?_⟩
    -- the value is the record that is made last
    rw [build_record] at hi ⊢
    obtain rfl := List.mem_singleton.mp hi
    rw [Store.size_make]
    exact ⟨hboth.size_le, Nat.lt_succ_self _⟩

theorem grows_buildAll (hknown : AllIn H known) : ∀ (items : List Literal) (s : Store),
    s.Grows H (buildAll known s items).2 ∧
      ∀ v ∈ (buildAll known s items).1, v.Grown H s (buildAll known s items).2
  | [], s => ⟨.refl H s, fun _ hv => absurd hv List.not_mem_nil⟩
  | l :: rest, s => by
    obtain ⟨hfirst, hvalue⟩ := grows_build hknown l s
    obtain ⟨hrest, hvalues⟩ := grows_buildAll hknown rest (l.build known s).2
    refine ⟨hfirst.trans hrest, List.forall_mem_cons.mpr ⟨hrest.grown_mono hvalue, ?_⟩⟩
    exact fun v hv => hfirst.grown_of_le (hvalues v hv)

theorem grows_buildEntries (hknown : AllIn H known) : ∀ (entries : List (String × Literal))
    (s : Store), s.Grows H (buildEntries known s entries).2 ∧
      ∀ e ∈ (buildEntries known s entries).1, e.2.Grown H s (buildEntries known s entries).2
  | [], s => ⟨.refl H s, fun _ he => absurd he List.not_mem_nil⟩
  | (_, l) :: rest, s => by
    obtain ⟨hfirst, hvalue⟩ := grows_build hknown l s
    obtain ⟨hrest, hvalues⟩ := grows_buildEntries hknown rest (l.build known s).2
    refine ⟨hfirst.trans hrest, List.forall_mem_cons.mpr ⟨hrest.grown_mono hvalue, ?_⟩⟩
    exact fun e he => hfirst.grown_of_le (hvalues e he)

end

end Grows

mutual

/-- No constructor in the literal has captured a value. -/
def Uncaptured : Literal → Prop
  | .list items => UncapturedAll items
  | .record _ properties children => UncapturedEntries properties ∧ UncapturedAll children
  | .fixed _ _ => False
  | _ => True

def UncapturedAll : List Literal → Prop
  | [] => True
  | l :: rest => Uncaptured l ∧ UncapturedAll rest

def UncapturedEntries : List (String × Literal) → Prop
  | [] => True
  | (_, l) :: rest => Uncaptured l ∧ UncapturedEntries rest

end

section Shifts

variable {m k : Nat} {T : RecordId → Prop} {known : List Value}

mutual

/-- **The same is built in another store,** with other numbers for the records. -/
theorem shifts_build (hknown : AllIn (· < m) known) : ∀ {l : Literal} {s t : Store},
    l.Uncaptured → Store.Shifts m k T s t → (l.build known s).1 = (l.build known t).1.rename (shift m k) ∧
      Store.Shifts m k T (l.build known s).2 (l.build known t).2
  | .null, _, _, _, h | .bool _, _, _, _, h | .int _, _, _, _, h | .float _, _, _, _, h
  | .string _, _, _, _, h | .fresh _ _, _, _, _, h | .panics _ _, _, _, _, h
  | .resource _, _, _, _, h => ⟨rfl, h⟩
  -- what was there before is below `m`, where `shift` moves nothing
  | .reference place, s, t, _, h => by
    refine ⟨?_, h⟩
    rw [build, build]
    cases hv : known[place]? with
    | none => rfl
    | some v =>
      exact (Value.rename_eq_self fun i hi =>
        shift_of_lt (hknown v (List.mem_of_getElem? hv) i hi)).symm
  | .list items, _, _, hl, h => by
    obtain ⟨hvalues, hstores⟩ := shifts_buildAll hknown hl h
    refine ⟨congrArg Value.list ?_, hstores⟩
    rw [hvalues, Value.renameAll_eq_map]
  | .record className properties children, s, t, hl, h => by
    obtain ⟨hset, hproperties⟩ := shifts_buildEntries hknown hl.1 h
    -- the two stores are in step when the record itself is made, so its numbers are too
    obtain ⟨hpushed, hchildren⟩ := shifts_buildAll hknown hl.2 hproperties
    have hrecord : Record.mk className (.ofList (buildEntries known s properties).1)
          (buildAll known (buildEntries known s properties).2 children).1
        = Record.rename (shift m k) ⟨className, .ofList (buildEntries known t properties).1,
          (buildAll known (buildEntries known t properties).2 children).1⟩ := by
      rw [Record.rename, OrderedMap.map_ofList, Value.renameAll_eq_map, hset, hpushed]
    rw [build_record, build_record, hrecord]
    exact ⟨congrArg Value.record hchildren.shift_size.symm, hchildren.make _⟩

theorem shifts_buildAll (hknown : AllIn (· < m) known) : ∀ {items : List Literal} {s t : Store},
    UncapturedAll items → Store.Shifts m k T s t →
      (buildAll known s items).1 = (buildAll known t items).1.map (Value.rename (shift m k)) ∧
        Store.Shifts m k T (buildAll known s items).2 (buildAll known t items).2
  | [], _, _, _, h => ⟨rfl, h⟩
  | l :: rest, _, _, hl, h => by
    obtain ⟨hvalue, hfirst⟩ := shifts_build hknown hl.1 h
    obtain ⟨hvalues, hrest⟩ := shifts_buildAll hknown hl.2 hfirst
    exact ⟨congrArg₂ List.cons hvalue hvalues, hrest⟩

theorem shifts_buildEntries (hknown : AllIn (· < m) known) :
    ∀ {entries : List (String × Literal)} {s t : Store}, UncapturedEntries entries →
      Store.Shifts m k T s t →
      (buildEntries known s entries).1
          = (buildEntries known t entries).1.map (fun e => (e.1, e.2.rename (shift m k))) ∧
        Store.Shifts m k T (buildEntries known s entries).2 (buildEntries known t entries).2
  | [], _, _, _, h => ⟨rfl, h⟩
  | (name, l) :: rest, _, _, hl, h => by
    obtain ⟨hvalue, hfirst⟩ := shifts_build hknown hl.1 h
    obtain ⟨hvalues, hrest⟩ := shifts_buildEntries hknown hl.2 hfirst
    exact ⟨congrArg₂ List.cons (congrArg (Prod.mk name) hvalue) hvalues, hrest⟩

end

end Shifts

/-! ### Constructors of literals -/

section Calls

variable {literals : List (String × Literal)} {maker : Maker Value} {l : Literal}

theorem run_calls (h : literals.lookup maker.code = some l) (s : Store) :
    (calls literals).run maker s = (.ok (l.build maker.captured s).1, (l.build maker.captured s).2) := by
  show call literals maker s = _
  rw [call, h]

/-- A store with as many records, with nothing in them. -/
def blanks (m : Nat) : Store :=
  { records := Array.replicate m { className := "" } }

/-- Such a constructor is also acyclic, whatever it builds. -/
theorem acyclic_calls (h : literals.lookup maker.code = some l) : (calls literals).Acyclic maker := by
  refine Calls.acyclic_of_adds fun s known hbelow hcaptured hmemory => ?_
  obtain ⟨⟨hkept, ⟨rs, hadds⟩, hcontents⟩, hvalue⟩ := grows_build hcaptured l s
  rw [run_calls h]
  refine ⟨⟨hadds.old, fun a ha haa => ?inside, fun a b ha hab => ?contents⟩, ?memory, ?value⟩
  case inside =>
    -- a new record that is contained in a new one was added before it
    have hstep : ∀ a b, s.size ≤ a → (l.build maker.captured s).2.Contains a b → s.size ≤ b → b < a :=
      fun a b ha hab hb => by
        rcases hcontents a b ha hab with hknown | hlt
        · exact absurd (hbelow b hknown) (Nat.not_lt.mpr hb)
        · exact hlt.2
    -- so a path from `a` only goes down, and never comes back
    have hdown : ∀ b, TransGen (fun a b => (l.build maker.captured s).2.Contains a b ∧ s.size ≤ b) a b →
        s.size ≤ b ∧ b < a := by
      intro b hab
      induction hab with
      | single hab => exact ⟨hab.2, hstep _ _ ha hab.1 hab.2⟩
      | tail _ hbc ih => exact ⟨hbc.2, Nat.lt_trans (hstep _ _ ih.1 hbc.1 hbc.2) ih.2⟩
    exact Nat.lt_irrefl a (hdown a haa).2
  case contents =>
    have ha' := Store.lt_size_of_contains hab
    exact (hcontents a b ha hab).imp_right fun hb => ⟨hb.1, Nat.lt_trans hb.2 ha'⟩
  case memory => exact fun v hv i hi => Or.inl (hmemory v (hkept ▸ hv) i hi)
  case value =>
    intro v hv
    cases hv
    exact hvalue

end Calls

end Literal

/-! ### Scripted attributes -/

/-- **A scripted kind of attributes leaves the records alone.** Its hooks only add some, made of those
that it can refer to, unless the value is left to another kind. -/
theorem Kind.AttributeScript.grows {script : Kind.AttributeScript} {H : RecordId → Prop}
    (hknown : AllIn H script.known) (a : AttributeView)
    (hother : ∀ kind, script.construct = .as kind → Hook.Keeps (Store.Grows H) (kind.construct a)) :
    Hook.Keeps (Store.Grows H) (script.kind.before a) ∧
      Hook.Keeps (Store.Grows H) (script.kind.construct a) ∧
      ∀ value, Hook.Keeps (Store.Grows H) (script.kind.finish a value) := by
  refine ⟨?before, ?construct, fun value => ?finish⟩
  case before =>
    rw [AttributeScript.kind]
    cases script.panic with
    | none => exact .pure (.refl H) _
    | some p => exact .refl H
  case construct =>
    rw [AttributeScript.kind]
    cases hs : script.construct with
    | value l => exact fun s => (Literal.grows_build hknown l s).1
    | as kind => exact hother kind hs
    | echo => exact .pure (.refl H) _
    | describe => exact .pure (.refl H) _
    | mismatch => exact .refl H
    | fail f => exact .refl H
  case finish =>
    rw [AttributeScript.kind]
    -- finishing makes a list at most, which is no record
    cases script.finish with
    | keep => exact .pure (.refl H) _
    | list => exact .pure (.refl H) _
    | mismatch => exact .refl H
    | fail f => exact .refl H

end ObjectMarkup
