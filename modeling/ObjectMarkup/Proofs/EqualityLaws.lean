import ObjectMarkup.Proofs.Unfolding

/-!
# The laws of equality

Comparing holds the records that it goes through, and is stuck where it would have to hold one twice.
What is left if nothing is held? `Store.equate` compares in the same way and holds nothing; where
`Store.compare` has an answer it is the same one. For values that do not contain themselves an answer
always comes, and it is whether they are alike (`equate_decides`). So the laws of equality are those of
likeness:

* It is symmetric, though the properties of the one record are looked up in the other: maps of one
  size have the same names if those of the one are names of the other.
* It is transitive (`Alike.trans`), also where one of the steps is that both records are one record.
* It is reflexive but for numbers that equal nothing, and these do no harm inside of a record, which is
  itself whatever is in it (`alike_self_iff`).
* Records that have the same parts are equal, in whatever order their properties were set
  (`alike_record_iff_equalParts`).
* What is equal has JSONs that differ in the order of properties and the sign of zeros at most
  (`Alike.agrees`).

`equality_laws` puts them together.
-/

namespace ObjectMarkup

open Relation (TransGen ReflTransGen)
open Decimal (Binary64)

/-! ### Comparisons that decide -/

namespace Comparison

/-- The comparison has an answer, which says whether a proposition holds. -/
structure Decides (c : Comparison) (p : Prop) : Prop where
  answers : c ≠ none
  eq_true_iff : c = some true ↔ p

variable {α : Type} {c : Comparison} {p q : Prop}

theorem decides_some {answer : Bool} (h : answer = true ↔ p) : Decides (some answer) p :=
  ⟨nofun, by rw [Option.some_inj, h]⟩

/-- Comparisons that decide the same have the same answer. -/
theorem Decides.eq_of_iff {d : Comparison} (hc : c.Decides p) (hd : d.Decides q) (h : p ↔ q) :
    c = d := by
  obtain ⟨x, rfl⟩ := Option.ne_none_iff_exists'.mp hc.answers
  obtain ⟨y, rfl⟩ := Option.ne_none_iff_exists'.mp hd.answers
  have hxy := hc.eq_true_iff.trans (h.trans hd.eq_true_iff.symm)
  rw [Option.some_inj, Option.some_inj] at hxy
  exact congrArg some (Bool.eq_iff_iff.mpr hxy)

theorem Decides.andThen {next : Unit → Comparison} (hc : c.Decides p)
    (hnext : (next ()).Decides q) : (c.andThen next).Decides (p ∧ q) := by
  refine ⟨fun hnone => ?_, ?_⟩
  · rcases andThen_eq_none_iff.mp hnone with h | ⟨-, h⟩
    · exact hc.answers h
    · exact hnext.answers h
  · rw [andThen_eq_true_iff, hc.eq_true_iff, hnext.eq_true_iff]

theorem decides_all {f : α → Comparison} {P : α → Prop} {l : List α}
    (h : ∀ x ∈ l, (f x).Decides (P x)) : (all f l).Decides (∀ x ∈ l, P x) := by
  refine ⟨fun hnone => ?_, ?_⟩
  · obtain ⟨i, x, hx, hstuck, -⟩ := all_eq_none_iff.mp hnone
    exact (h x (List.mem_of_getElem? hx)).answers hstuck
  · rw [all_eq_true_iff]
    exact forall₂_congr fun x hx => (h x hx).eq_true_iff

theorem decides_ite {b : Prop} [Decidable b] (h : b → c.Decides p) :
    (if b then c else some false).Decides (b ∧ p) := by
  split
  · next hb =>
    rw [and_iff_right hb]
    exact h hb
  · next hb => exact decides_some (iff_of_false Bool.false_ne_true fun h => hb h.1)

theorem decides_ofEntry {values : Value → Value → Comparison} {n : OrderedMap String Value}
    {e : String × Value} {P : Value → Prop}
    (h : ∀ w, n.get? e.1 = some w → (values e.2 w).Decides (P w)) :
    (ofEntry values n e).Decides (∃ w, n.get? e.1 = some w ∧ P w) := by
  refine ⟨fun hnone => ?_, ?_⟩
  · obtain ⟨w, hw, hstuck⟩ := ofEntry_eq_none_iff.mp hnone
    exact (h w hw).answers hstuck
  · rw [ofEntry_eq_true_iff]
    exact exists_congr fun w => and_congr_right fun hw => (h w hw).eq_true_iff

end Comparison

namespace Store

/-! ### Comparing without holding -/

/-- Compares two records, holding none; `depth` bounds how far it goes down. -/
def equateRecords (s : Store) : (depth : Nat) → RecordId → RecordId → Comparison
  | 0, _, _ => none
  | depth + 1, a, b =>
    if a = b then some true
    else
      let ra := s.get a
      let rb := s.get b
      if ra.className = rb.className then
        Comparison.andThen (ra.properties.compareWith (Value.compare (s.equateRecords depth)) rb.properties)
          fun _ => Value.compareAll (s.equateRecords depth) ra.children rb.children
      else some false

/-- **Compares two values, holding no records.** -/
def equate (s : Store) (v w : Value) : Comparison :=
  v.compare (s.equateRecords (s.size + 1)) w

variable {s : Store} {v w u : Value} {a b : RecordId}

/-- Comparing values decides whether they are alike if comparing the records in the first one does. -/
theorem compare_decides {records : RecordId → RecordId → Comparison} {v w : Value}
    (h : ∀ a ∈ v.records, ∀ b, (records a b).Decides (s.Alike (.record a) (.record b))) :
    (v.compare records w).Decides (s.Alike v w) := by
  -- lists are compared item by item, so the recursion goes into the items only
  by_cases hlist : ∃ as bs, v = .list as ∧ w = .list bs
  · obtain ⟨as, bs, rfl, rfl⟩ := hlist
    rw [Value.compare_list, alike_list_iff]
    refine Comparison.decides_ite fun _ => Comparison.decides_all fun p hp => ?_
    refine compare_decides fun a ha => h a ?_
    obtain ⟨i, hi⟩ := List.getElem?_of_mem (List.of_mem_zip hp).1
    exact Nested.records_item hi ha
  -- Two records are what `records` decides. Every other pair is flat.
  by_cases hrecord : ∃ a b, v = .record a ∧ w = .record b
  · obtain ⟨a, b, rfl, rfl⟩ := hrecord
    rw [Value.compare]
    exact h a (List.mem_singleton_self a) b
  · obtain ⟨answer, hcompare, hanswer⟩ := compare_flat (s := s) records hlist hrecord
    rw [hcompare]
    exact Comparison.decides_some hanswer
termination_by sizeOf v
decreasing_by
  subst_vars
  exact Value.sizeOf_lt_of_mem (List.of_mem_zip hp).1

/-- Comparing two records decides whether they are alike if comparing what is in the first one does. -/
theorem equateRecords_succ_decides {depth : Nat}
    (h : ∀ c ∈ (s.get a).records, ∀ d,
      (s.equateRecords depth c d).Decides (s.Alike (.record c) (.record d))) (b : RecordId) :
    (s.equateRecords (depth + 1) a b).Decides (s.Alike (.record a) (.record b)) := by
  rw [equateRecords]
  -- one record is answered before either side is locked
  by_cases hab : a = b
  · subst hab
    rw [if_pos rfl]
    exact Comparison.decides_some (iff_of_true rfl (.itself a))
  -- depth is spent on records alone: the values of `a` hold no record but those of `h`
  have hvalues : ∀ {v : Value}, v.records ⊆ (s.get a).records → ∀ w,
      (v.compare (s.equateRecords depth) w).Decides (s.Alike v w) :=
    fun hv _ => compare_decides fun c hc d => h c (hv hc) d
  have hproperties : Comparison.Decides
      (if (s.get a).properties.size = (s.get b).properties.size then
        Comparison.all (Comparison.ofEntry (Value.compare (s.equateRecords depth))
          (s.get b).properties) (s.get a).properties.entries
      else some false)
      ((s.get a).properties.size = (s.get b).properties.size ∧
        ∀ e ∈ (s.get a).properties.entries, s.Answers b e) :=
    Comparison.decides_ite fun _ => Comparison.decides_all fun e he =>
      Comparison.decides_ofEntry fun w _ => hvalues (Nested.records_entry he) w
  have hchildren := hvalues (Nested.records_children a) (.list (s.get b).children)
  rw [Value.compare] at hchildren
  -- names and properties come first, the children last, as the comparison takes them
  rw [if_neg hab, alike_record_iff hab, ← and_assoc (a := _ = (s.get b).properties.size)]
  dsimp only
  rw [Comparison.compareWith_eq]
  exact Comparison.decides_ite fun _ => hproperties.andThen hchildren

/-- **Comparing without holding always has an answer,** which is whether the values are alike. -/
theorem equate_decides (hv : s.Acyclic v) (w : Value) : (s.equate v w).Decides (s.Alike v w) := by
  refine compare_decides fun a ha => ?_
  exact Way.induction_nil
    (P := fun depth _ a => ∀ b, (s.equateRecords depth a b).Decides (s.Alike (.record a) (.record b)))
    (fun _ _ _ _ _ ih => equateRecords_succ_decides fun c hc => ih c (.single hc)) (hv a ha)

end Store

/-! ### Likeness is a partial equivalence -/

namespace Decimal.Binary64

theorem same_self (x : Binary64) : x.same x = !x.isNaN := by
  simp [same]

/-- What is the same number has the same pattern, or both are zeros. -/
theorem eq_or_zeros_of_same {x y : Binary64} (h : x.same y = true) :
    x = y ∨ x.isZero = true ∧ y.isZero = true := by
  simp only [same, Bool.and_eq_true, Bool.or_eq_true, beq_iff_eq] at h
  rcases h.2 with hbits | hzeros
  · cases x; cases y; cases hbits; exact Or.inl rfl
  · exact Or.inr hzeros

theorem same_trans {x y z : Binary64} (hxy : x.same y = true) (hyz : y.same z = true) :
    x.same z = true := by
  rcases eq_or_zeros_of_same hxy with rfl | ⟨hx, hy⟩
  · exact hyz
  rcases eq_or_zeros_of_same hyz with rfl | ⟨-, hz⟩
  · exact hxy
  · simp only [same, Bool.and_eq_true, Bool.or_eq_true] at hxy hyz ⊢
    exact ⟨⟨hxy.1.1, hyz.1.2⟩, Or.inr ⟨hx, hz⟩⟩

end Decimal.Binary64

namespace Store

variable {s : Store} {v w u : Value} {a b : RecordId}

theorem Alike.trans (h : s.Alike u v) : ∀ {w : Value}, s.Alike v w → s.Alike u w := by
  induction h with
  | null | bool | int | string | resource | itself => exact fun h => h
  | float same =>
    rintro w ⟨⟩
    case float same' => exact .float (Decimal.Binary64.same_trans same same')
  | constructor path f g =>
    rintro w ⟨⟩
    exact .constructor path f _
  | list length items ih =>
    rintro w ⟨⟩
    case list length' items' =>
      refine .list (length.trans length') fun i u w hu hw => ?_
      obtain ⟨v, hv⟩ := exists_getElem?_of_length length hu
      exact ih i u v hu hv (items' i v w hv hw)
  | record className names properties children ihproperties ihchildren =>
    rintro w ⟨⟩
    -- one of the two steps may be a record with itself, which changes nothing
    case itself => exact .record className names properties children
    case record className' names' properties' children' =>
      refine .record (className.trans className') (fun name => (names name).trans (names' name))
        (fun name u w hu hw => ?_) (ihchildren children')
      obtain ⟨v, hv⟩ := exists_get?_of_mem_keys_iff names hu
      exact ihproperties name u v hu hv (properties' name v w hv hw)

end Store

/-! ### Values that are like themselves -/

/-- A value is in another one through lists, or it is that one. -/
inductive Value.InLists (u : Value) : Value → Prop where
  | itself : InLists u u
  | item {items : List Value} {v : Value} (mem : v ∈ items) (inside : InLists u v) :
    InLists u (.list items)

namespace Store

variable {s : Store} {v w : Value} {a b : RecordId}

theorem alike_self {v : Value} (h : ∀ x, (Value.float x).InLists v → x.isNaN = false) :
    s.Alike v v := by
  cases v with
  | null => exact .null
  | bool b => exact .bool b
  | int i => exact .int i
  -- the one value of a scalar kind that is not itself is NaN
  | float x => exact .float (by rw [Decimal.Binary64.same_self, h x .itself]; rfl)
  | string text => exact .string text
  | list items =>
    refine .list rfl fun i v w hv hw => ?_
    obtain rfl := Option.some.inj (hv.symm.trans hw)
    have hmem : v ∈ items := List.mem_of_getElem? hv
    exact alike_self fun x hx => h x (.item hmem hx)
  | record a => exact .itself a
  | constructor path f => exact .constructor path f f
  | resource r => exact .resource r
termination_by sizeOf v
decreasing_by
  subst_vars
  exact Value.sizeOf_lt_of_mem hmem

/-- **A value is like itself** unless it has a number in it that equals nothing, outside of records. -/
theorem alike_self_iff :
    s.Alike v v ↔ ∀ x, (Value.float x).InLists v → x.isNaN = false := by
  refine ⟨fun h x hx => ?_, alike_self⟩
  induction hx with
  | itself =>
    cases h with
    | float same => simpa [Decimal.Binary64.same_self] using same
  | item hmem _ ih =>
    cases h with
    | list _ items =>
      obtain ⟨i, hi⟩ := List.getElem?_of_mem hmem
      exact ih (items i _ _ hi hi)

end Store

/-! ### JSON of like values -/

/-- **Two JSONs agree** if they are equal but for the order of the properties in records and the sign
of zeros. -/
inductive Json.Agrees : Json → Json → Prop where
  | same (j : Json) : Agrees j j
  | zero {x y : Binary64} (left : x.isZero = true) (right : y.isZero = true) :
    Agrees (.float x) (.float y)
  | array {js ks : List Json} (length : js.length = ks.length)
    (items : ∀ (i : Nat) (j k : Json), js[i]? = some j → ks[i]? = some k → Agrees j k) :
    Agrees (.array js) (.array ks)
  | record (className : String) {fs gs : List (String × Json)} {js ks : List Json}
    (unique : (fs.map Prod.fst).Nodup) (names : (fs.map Prod.fst).Perm (gs.map Prod.fst))
    (properties : ∀ (name : String) (j k : Json), (name, j) ∈ fs → (name, k) ∈ gs → Agrees j k)
    (children : Agrees (.array js) (.array ks)) :
    Agrees (.ofRecord className fs js) (.ofRecord className gs ks)

namespace Store

variable {s : Store} {v w : Value} {a b : RecordId}

/-- **The JSONs of like values agree.** -/
theorem Alike.agrees (h : s.Alike v w) : s.Acyclic v → s.Acyclic w → ∀ {j k : Json},
    s.json? v = some j → s.json? w = some k → j.Agrees k := by
  induction h with
  | null | bool | int | string | resource | constructor | itself =>
    intro _ _ j k hj hk
    obtain rfl := Option.some.inj (hj.symm.trans hk)
    exact .same j
  | @float x y same =>
    intro _ _ j k hj hk
    rw [← Option.some.inj hj, ← Option.some.inj hk]
    -- equal floats are the same bits, or the two zeros
    rcases Decimal.Binary64.eq_or_zeros_of_same same with rfl | ⟨hx, hy⟩
    · exact .same _
    · exact .zero hx hy
  | list length _ ih =>
    intro hv hw j k hj hk
    obtain ⟨js, hjs, rfl⟩ := json?_list_eq_some_iff.mp hj
    obtain ⟨ks, hks, rfl⟩ := json?_list_eq_some_iff.mp hk
    obtain ⟨hlj, hjs⟩ := forall₂_iff_getElem?.mp hjs
    obtain ⟨hlk, hks⟩ := forall₂_iff_getElem?.mp hks
    refine .array (hlj.symm.trans (length.trans hlk)) fun i j k hj hk => ?_
    obtain ⟨v, hv'⟩ := exists_getElem?_of_length hlj.symm hj
    obtain ⟨w, hw'⟩ := exists_getElem?_of_length hlk.symm hk
    exact ih i v w hv' hw' (hv.item (List.mem_of_getElem? hv')) (hw.item (List.mem_of_getElem? hw'))
      (hjs i v j hv' hj) (hks i w k hw' hk)
  | @record a b className names _ _ ihproperties ihchildren =>
    intro hv hw j k hj hk
    obtain ⟨fs, js, hfs, hjs, rfl⟩ := (json?_record_eq_some_iff hv).mp hj
    obtain ⟨gs, ks, hgs, hks, rfl⟩ := (json?_record_eq_some_iff hw).mp hk
    have hnodup := (s.get a).properties.nodup
    -- the objects agree up to the order of their fields, the names being distinct
    have hperm : (s.get a).properties.keys.Perm (s.get b).properties.keys :=
      (List.perm_ext_iff_of_nodup hnodup (s.get b).properties.nodup).mpr names
    rw [OrderedMap.keys, OrderedMap.keys, map_fst_eq_of_forall₂ hgs] at hperm
    rw [map_fst_eq_of_forall₂ hfs] at hperm hnodup
    rw [className]
    refine .record _ hnodup hperm (fun name j k hj hk => ?_) (ihchildren hv.children hw.children hjs hks)
    -- a field of either object is a property of either record, under the same name
    obtain ⟨e, he, rfl, hej⟩ := exists_mem_of_forall₂ hfs hj
    obtain ⟨f, hf, hname, hfk⟩ := exists_mem_of_forall₂ hgs hk
    have hget : (s.get b).properties.get? e.1 = some f.2 := by
      rw [← hname]
      exact OrderedMap.get?_of_mem_entries hf
    exact ihproperties e.1 e.2 f.2 (OrderedMap.get?_of_mem_entries he) hget (hv.property he)
      (hw.property hf) hej hfk

/-! ### The laws -/

/-- **Two records have equal parts:** one class, the same names of properties, in whatever order, with
equal values, and equal children in order. -/
structure EqualParts (s : Store) (a b : RecordId) : Prop where
  className : (s.get a).className = (s.get b).className
  names : ∀ name, name ∈ (s.get a).properties.keys ↔ name ∈ (s.get b).properties.keys
  properties : ∀ (name : String) (v w : Value), (s.get a).properties.get? name = some v →
    (s.get b).properties.get? name = some w → s.equate v w = some true
  length : (s.get a).children.length = (s.get b).children.length
  children : ∀ (i : Nat) (v w : Value), (s.get a).children[i]? = some v →
    (s.get b).children[i]? = some w → s.equate v w = some true

/-- **The laws of equality,** for values that do not contain themselves. -/
structure EqualityLaws (s : Store) : Prop where
  /-- There always is an answer. -/
  answers : ∀ v w, s.Acyclic v → s.Acyclic w → s.equate v w ≠ none
  /-- A comparison that holds records and is not stuck has the same answer. -/
  compare_eq : ∀ v w, s.Acyclic v → s.Acyclic w → s.compare v w ≠ none →
    s.compare v w = s.equate v w
  symm : ∀ v w, s.Acyclic v → s.Acyclic w → s.equate v w = s.equate w v
  trans : ∀ u v w, s.Acyclic u → s.Acyclic v → s.Acyclic w → s.equate u v = some true →
    s.equate v w = some true → s.equate u w = some true
  /-- A copy of a value refers to the same records, so it is the same value. -/
  itself : ∀ v, s.Acyclic v →
    (s.equate v v = some true ↔ ∀ x, (Value.float x).InLists v → x.isNaN = false)
  records : ∀ a b, s.Acyclic (.record a) → s.Acyclic (.record b) →
    (s.equate (.record a) (.record b) = some true ↔ a = b ∨ s.EqualParts a b)
  json : ∀ v w, s.Acyclic v → s.Acyclic w → s.equate v w = some true →
    ∃ j k, s.json? v = some j ∧ s.json? w = some k ∧ j.Agrees k

theorem equate_eq_true_iff (hv : s.Acyclic v) : s.equate v w = some true ↔ s.Alike v w :=
  (equate_decides hv w).eq_true_iff

/-- Likeness of records, said of comparing what is in them. -/
theorem alike_record_iff_equalParts (ha : s.Acyclic (.record a)) :
    s.Alike (.record a) (.record b) ↔ a = b ∨ s.EqualParts a b := by
  constructor
  · rintro ⟨⟩
    case itself => exact Or.inl rfl
    case record className names properties children =>
      -- `Alike` of the two child lists is their length and their items
      cases children with
      | list length items =>
        refine Or.inr ⟨className, names, fun name v w hv hw => ?_, length, fun i v w hv hw => ?_⟩
        · have hmem := OrderedMap.mem_entries_of_get? hv
          exact (equate_eq_true_iff (ha.property hmem)).mpr (properties name v w hv hw)
        · have hmem := List.mem_of_getElem? hv
          exact (equate_eq_true_iff (ha.children.item hmem)).mpr (items i v w hv hw)
  · rintro (rfl | h)
    · exact .itself a
    · refine .record h.className h.names (fun name v w hv hw => ?_)
        (.list h.length fun i v w hv hw => ?_)
      · have hmem := OrderedMap.mem_entries_of_get? hv
        exact (equate_eq_true_iff (ha.property hmem)).mp (h.properties name v w hv hw)
      · have hmem := List.mem_of_getElem? hv
        exact (equate_eq_true_iff (ha.children.item hmem)).mp (h.children i v w hv hw)

/-- **Equality is a partial equivalence that ignores the order of properties.** -/
theorem equality_laws (s : Store) : s.EqualityLaws where
  answers v w hv _ := (equate_decides hv w).answers
  compare_eq v w hv hw hanswers :=
    Comparison.Decides.eq_of_iff ⟨hanswers, (Nested.start hv hw).compare_eq_true_iff⟩
      (equate_decides hv w) Iff.rfl
  symm v w hv hw :=
    (equate_decides hv w).eq_of_iff (equate_decides hw v) ⟨Alike.symm, Alike.symm⟩
  trans u v w hu hv _ huv hvw := by
    rw [equate_eq_true_iff hu] at huv ⊢
    exact huv.trans ((equate_eq_true_iff hv).mp hvw)
  -- only NaN outside records differs from itself: a record is itself whatever it holds
  itself v hv := (equate_eq_true_iff hv).trans alike_self_iff
  records a b ha _ := (equate_eq_true_iff ha).trans (alike_record_iff_equalParts ha)
  json v w hv hw hvw := by
    obtain ⟨j, hj⟩ := Option.isSome_iff_exists.mp (json?_isSome hv)
    obtain ⟨k, hk⟩ := Option.isSome_iff_exists.mp (json?_isSome hw)
    exact ⟨j, k, hj, hk, ((equate_eq_true_iff hv).mp hvw).agrees hv hw hj hk⟩

/-- The third record and the second, whose comparison is stuck if they are held: they differ, because
their children do. -/
theorem equality_laws_chain :
    chain.Acyclic (.record 2) ∧ chain.Acyclic (.record 1) ∧
      chain.equate (.record 2) (.record 1) = some false := by
  have hlaws := equality_laws chain
  -- from the bottom up: the lists of children differ in length, and then in an item
  have hone : chain.equate (.record 1) (.record 0) ≠ some true := by
    rw [Ne, hlaws.records 1 0 (chain_acyclic _) (chain_acyclic _)]
    rintro (h | h)
    · cases h
    · cases h.length
  have htwo : chain.equate (.record 2) (.record 1) ≠ some true := by
    rw [Ne, hlaws.records 2 1 (chain_acyclic _) (chain_acyclic _)]
    rintro (h | h)
    · cases h
    · exact hone (h.children 0 _ _ rfl rfl)
  refine ⟨chain_acyclic _, chain_acyclic _, ?_⟩
  obtain ⟨answer, hanswer⟩ := Option.ne_none_iff_exists'.mp
    (hlaws.answers (.record 2) (.record 1) (chain_acyclic _) (chain_acyclic _))
  rw [hanswer] at htwo ⊢
  cases answer with
  | true => exact absurd rfl htwo
  | false => rfl

end Store

end ObjectMarkup
