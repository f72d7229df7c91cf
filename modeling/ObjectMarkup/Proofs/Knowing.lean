import ObjectMarkup.Proofs.Lockstep

/-!
# What a pass has a hold of

A pass knows the values that elements have taken from their attributes, the values that elements were
built to, and the values that coercions have come to (`Pass.Knows`). Nothing else ever gets into a
record: what an element is built to refers only to records that the pass referred to before
(`Pass.refers_of_record`). Each small step makes known at most one value that was not known before;
there is one lemma for each.
-/

namespace ObjectMarkup

open Markup (Element NodeId)

/-! ### What records are put together from -/

namespace OrderedMap

variable {κ α : Type} [DecidableEq κ]

theorem mem_entries_insert {m : OrderedMap κ α} {key : κ} {value : α} {e : κ × α}
    (h : e ∈ (m.insert key value).entries) : e = (key, value) ∨ e ∈ m.entries :=
  forall_mem_put (P := fun e => e = (key, value) ∨ e ∈ m.entries) (fun _ he => Or.inr he)
    (Or.inl rfl) e h

end OrderedMap

/-- A record that one of the values refers to. -/
def OrderedMap.Refers (values : OrderedMap String Value) (id : RecordId) : Prop :=
  ∃ e ∈ values.entries, id ∈ e.2.records

theorem OrderedMap.refers_of_get? {values : OrderedMap String Value} {name : String} {v : Value}
    (hv : values.get? name = some v) {id : RecordId} (hid : id ∈ v.records) : values.Refers id :=
  ⟨(name, v), mem_entries_of_get? hv, hid⟩

section Records

variable {values : OrderedMap String Value} {r : Record} {id : RecordId}

/-- What is contained after properties were set is one of the values, or was contained before. -/
theorem mem_records_setAll {properties : List (String × String)}
    (h : id ∈ (r.setAll values properties).records) :
    (∃ property ∈ properties, ∃ v, values.get? property.2 = some v ∧ id ∈ v.records) ∨
      id ∈ r.records := by
  induction properties generalizing r with
  | nil => exact Or.inr h
  | cons property rest ih =>
    rcases ih h with ⟨property', hmem, hv⟩ | hid
    · exact Or.inl ⟨property', List.mem_cons_of_mem _ hmem, hv⟩
    · unfold Record.setFrom at hid
      cases hv : values.get? property.2 with
      | none =>
        rw [hv] at hid
        exact Or.inr hid
      | some v =>
        rw [hv] at hid
        -- setting one property brings in the records of its value and no others
        rcases Record.mem_records_set hid with hid | hid
        · exact Or.inl ⟨property, List.mem_cons_self, v, hv, hid⟩
        · exact Or.inr hid

theorem refers_of_mem_setAll {properties : List (String × String)} {className : String}
    (h : id ∈ (Record.setAll values properties { className := className }).records) :
    values.Refers id := by
  rcases mem_records_setAll h with ⟨_, _, v, hv, hid⟩ | hid
  · exact OrderedMap.refers_of_get? hv hid
  · exact absurd hid List.not_mem_nil

/-- A record that one of the results of the children refers to. -/
def Refer (views : List ChildView) (id : RecordId) : Prop :=
  ∃ view ∈ views, ∃ v, view.result? = some v ∧ id ∈ v.records

theorem mem_records_gather {views : List ChildView} (h : id ∈ (views.foldl Record.gather r).records) :
    Refer views id ∨ id ∈ r.records := by
  induction views generalizing r with
  | nil => exact Or.inr h
  | cons view rest ih =>
    rcases ih h with ⟨view', hmem, hv⟩ | hid
    · exact Or.inl ⟨view', List.mem_cons_of_mem _ hmem, hv⟩
    · unfold Record.gather at hid
      cases hv : view.result? with
      | none =>
        rw [hv] at hid
        exact Or.inr hid
      | some v =>
        have hfirst : id ∈ v.records → Refer (view :: rest) id :=
          fun hid => ⟨view, List.mem_cons_self, v, hv, hid⟩
        simp only [hv] at hid
        -- set or pushed, the result is the only thing that comes in
        split at hid
        · exact (Record.mem_records_set hid).imp_left hfirst
        · exact (Record.mem_records_push hid).imp_left hfirst

theorem mem_records_pushAll {items : List Value} (h : id ∈ (items.foldl Record.push r).records) :
    (∃ v ∈ items, id ∈ v.records) ∨ id ∈ r.records := by
  induction items generalizing r with
  | nil => exact Or.inr h
  | cons v rest ih =>
    rcases ih h with ⟨v', hmem, hid⟩ | hid
    · exact Or.inl ⟨v', List.mem_cons_of_mem _ hmem, hid⟩
    · exact (Record.mem_records_push hid).imp_left fun hid => ⟨v, List.mem_cons_self, hid⟩

/-- **The record of an element** contains what its attributes and its children refer to. -/
theorem refers_of_mem_record {rule : Rule} {e : Element} {views : List ChildView}
    (h : id ∈ (rule.record e values views).records) : values.Refers id ∨ Refer views id := by
  -- the record starts with the values and no children
  have hgather : id ∈ (views.foldl Record.gather ⟨e.tag, values, []⟩).records →
      values.Refers id ∨ Refer views id := by
    intro h
    rcases mem_records_gather h with hview | hid
    · exact Or.inr hview
    · rcases Record.mem_records.mp hid with ⟨entry, hentry, hid⟩ | ⟨v, hv, -⟩
      · exact Or.inl ⟨entry, hentry, hid⟩
      · exact absurd hv List.not_mem_nil
  cases rule with
  | data => exact hgather h
  | object => exact hgather h
  | container =>
    rcases mem_records_pushAll h with ⟨v, hv, hid⟩ | hid
    · obtain ⟨view, hview, hresult⟩ := List.mem_filterMap.mp (List.mem_filter.mp hv).1
      exact Or.inr ⟨view, hview, v, hresult, hid⟩
    · exact Or.inl (refers_of_mem_setAll hid)
  | shape => exact Or.inl (refers_of_mem_setAll h)
  | bitmap => exact Or.inl (refers_of_mem_setAll h)

end Records

/-! ### Values that a pass knows -/

/-- A value of an attribute of the element, or the value of the element itself. -/
def Construction.Has (c : Construction) (v : Value) : Prop :=
  (∃ name, (name, v) ∈ c.values.entries) ∨ c.outcome? = some (.ok v)

/-- A value of some element or of some coercion. -/
def Pass.Knows (p : Pass) (v : Value) : Prop :=
  (∃ id c, p.constructions.get? id = some c ∧ c.Has v) ∨
    ∃ key a, p.coercions.get? key = some a ∧ a.outcome? = some (.ok v)

/-- A record that a value refers to which the pass knows. -/
def Pass.Refers (p : Pass) (id : RecordId) : Prop :=
  ∃ v, p.Knows v ∧ id ∈ v.records

section Knowing

variable {p : Pass} {id : NodeId} {v w : Value} {i : RecordId}

theorem Pass.not_knows_begin {environment : Environment} {base : Option Locator} {store : Store} :
    ¬ (Pass.begin environment base store).Knows v := by
  rintro (⟨_, _, hc, -⟩ | ⟨_, _, ha, -⟩)
  · cases hc
  · cases ha

theorem Pass.knows_of_values {e : String × Value} (h : e ∈ (p.values id).entries) : p.Knows e.2 := by
  unfold Pass.values at h
  cases hc : p.constructions.get? id with
  | none =>
    rw [hc] at h
    exact absurd h List.not_mem_nil
  | some c =>
    rw [hc] at h
    exact Or.inl ⟨id, c, hc, Or.inl ⟨e.1, h⟩⟩

theorem Pass.knows_of_childViews {view : ChildView} (h : view ∈ p.childViews id)
    (hv : view.result? = some v) : p.Knows v := by
  obtain ⟨c, hc, rfl⟩ := List.mem_map.mp h
  unfold Pass.children at hc
  -- a view is that of a compiler in the pass, and shows its outcome
  cases hparent : p.constructions.get? id with
  | none =>
    rw [hparent] at hc
    exact absurd hc List.not_mem_nil
  | some parent =>
    rw [hparent] at hc
    obtain ⟨child, -, hchild⟩ := List.mem_filterMap.mp hc
    refine Or.inl ⟨child, c, hchild, Or.inr ?_⟩
    rw [ChildView.result?, Construction.childView] at hv
    split at hv
    · next value ho =>
      cases hv
      exact ho
    · cases hv

/-- **What an element is built to** refers to what the pass has referred to. -/
theorem Pass.refers_of_record {rule : Rule} {e : Element}
    (h : i ∈ (rule.record e (p.values id) (p.childViews id)).records) : p.Refers i := by
  rcases refers_of_mem_record h with ⟨entry, hentry, hid⟩ | ⟨view, hview, v, hresult, hid⟩
  · exact ⟨entry.2, Pass.knows_of_values hentry, hid⟩
  · exact ⟨v, Pass.knows_of_childViews hview hresult, hid⟩

/-- A change of one construction makes known what the change brings along. -/
theorem Pass.knows_of_modify {f : Construction → Construction} {P : Prop}
    (hf : ∀ c, (f c).Has w → P ∨ c.Has w) (h : (p.modifyConstruction id f).Knows w) :
    P ∨ p.Knows w := by
  rcases h with ⟨id', c', hc', hw⟩ | hcoercion
  · rw [Pass.modifyConstruction, OrderedMap.get?_modify] at hc'
    split at hc'
    · obtain ⟨c, hc, rfl⟩ := Option.map_eq_some_iff.mp hc'
      exact (hf c hw).imp_right fun hw => Or.inl ⟨id, c, hc, hw⟩
    · exact Or.inr (Or.inl ⟨id', c', hc', hw⟩)
  · exact Or.inr (Or.inr hcoercion)

theorem Pass.knows_of_setValue {name : String} (h : (p.setValue id name v).Knows w) :
    w = v ∨ p.Knows w := by
  refine Pass.knows_of_modify (fun c hw => ?_) h
  rcases hw with ⟨name', hmem⟩ | ho
  · rcases OrderedMap.mem_entries_insert hmem with heq | hmem
    · exact Or.inl (congrArg Prod.snd heq)
    · exact Or.inr (Or.inl ⟨name', hmem⟩)
  · exact Or.inr (Or.inr ho)

theorem Pass.knows_of_settle (h : (p.settle id (.ok v)).Knows w) : w = v ∨ p.Knows w := by
  refine Pass.knows_of_modify (fun c hw => ?_) h
  rcases hw with hmem | ho
  · exact Or.inr (Or.inl hmem)
  · cases ho
    exact Or.inl rfl

theorem Pass.knows_of_adopt {child : NodeId} (h : (p.adopt id child).Knows w) : p.Knows w := by
  have hkept : ∀ c : Construction,
      ({ c with children := c.children ++ [child] } : Construction).Has w → False ∨ c.Has w :=
    fun _ hw => Or.inr hw
  exact (Pass.knows_of_modify hkept h).resolve_left not_false

theorem Pass.knows_of_start {rule : Rule} {e : Element} (h : (p.start rule e).Knows w) :
    p.Knows w := by
  rcases h with ⟨id', c, hc, hw⟩ | hcoercion
  · rw [Pass.start, OrderedMap.get?_insert] at hc
    split at hc
    · -- a construction that is begun has no values
      cases hc
      rcases hw with ⟨_, hmem⟩ | ho
      · exact absurd hmem List.not_mem_nil
      · cases ho
    · exact Or.inl ⟨id', c, hc, hw⟩
  · exact Or.inr hcoercion

theorem Pass.knows_of_insert {key : AttributeKey} {a : Coercion} {s : Store}
    (h : ({ p with store := s, coercions := p.coercions.insert key a } : Pass).Knows w) :
    a.outcome? = some (.ok w) ∨ p.Knows w := by
  rcases h with hconstruction | ⟨key', a', ha', ho⟩
  · exact Or.inr (Or.inl hconstruction)
  · rw [OrderedMap.get?_insert] at ha'
    split at ha'
    · cases ha'
      exact Or.inl ho
    · exact Or.inr (Or.inr ⟨key', a', ha', ho⟩)

/-- Settling an attribute makes known what it has come to. -/
theorem Pass.knows_of_answer {key : AttributeKey} {a : Coercion} {run : Except Stop Value × Store}
    {calls : List (HookCall × Bool)} (h : ({ p.answer key a run with calls := calls }).Knows w) :
    contain run.1 = .ok w ∨ p.Knows w :=
  (Pass.knows_of_insert (p := { p with calls := calls }) (s := run.2) h).imp_left Option.some.inj

end Knowing

end ObjectMarkup
