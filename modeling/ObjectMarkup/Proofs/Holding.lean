import ObjectMarkup.Proofs.Likeness

/-!
# When a comparison gets stuck

A comparison goes down both values in lock step and holds the records that it has gone through, one
on either side. No record contains itself, so what is met on one side is never one that is held on
that side. But it may be one that is held on the other side, at another depth. Take three records,
each but the first with the one before as its child. Comparing the third with the second holds both
and goes on to the child of the third, which is the second: the comparison is stuck (`chain`).

`compares_of_acyclic` says when that happens. Where a comparison stands is a `Pairing`, and
`Store.Enters` is how it goes down: into the parts of what it stands at, one after the other, as long
as the parts before were alike. The comparison is stuck if and only if it gets to two different
records one of which is held on the other side (`Pairing.Clashes`); otherwise its answer says whether
the values are alike. Like values never get stuck, and neither do values that have no records in
common but such as contain no other.

The crux is that parts which are alike compare equal whatever is held around them
(`Nested.compare_eq_true_iff`): a record that is met there and held on the other side would be like
one that is inside it, or inside one that it is like, which `not_alike_of_inside` excludes.
-/

namespace ObjectMarkup

open Relation (TransGen ReflTransGen)

/-! ### Comparing lists -/

namespace Comparison

variable {α : Type} {f : α → Comparison}

theorem andThen_eq_true_iff {c : Comparison} {next : Unit → Comparison} :
    c.andThen next = some true ↔ c = some true ∧ next () = some true := by
  rcases c with - | - | - <;> simp [andThen]

theorem andThen_eq_none_iff {c : Comparison} {next : Unit → Comparison} :
    c.andThen next = none ↔ c = none ∨ c = some true ∧ next () = none := by
  rcases c with - | - | - <;> simp [andThen]

theorem all_eq_true_iff {l : List α} : all f l = some true ↔ ∀ x ∈ l, f x = some true := by
  induction l with
  | nil => simp [all]
  | cons x rest ih => rw [all, andThen_eq_true_iff, ih, List.forall_mem_cons]

/-- Comparing is stuck at the first item that is stuck, if all before are equal. -/
theorem all_eq_none_iff {l : List α} :
    all f l = none ↔
      ∃ (i : Nat) (x : α), l[i]? = some x ∧ f x = none ∧
        ∀ (j : Nat) (y : α), j < i → l[j]? = some y → f y = some true := by
  induction l with
  | nil => simp [all]
  | cons x rest ih =>
    rw [all, andThen_eq_none_iff, ih]
    constructor
    · -- stuck at once, or at a later place behind an item that compares
      rintro (hx | ⟨hx, i, y, hy, hstuck, hbefore⟩)
      · exact ⟨0, x, rfl, hx, fun j _ hj => absurd hj (Nat.not_lt_zero j)⟩
      · refine ⟨i + 1, y, hy, hstuck, fun j z hj hz => ?_⟩
        cases j with
        | zero =>
          obtain rfl : x = z := Option.some.inj hz
          exact hx
        | succ j => exact hbefore j z (by omega) hz
    · rintro ⟨i, y, hy, hstuck, hbefore⟩
      cases i with
      | zero =>
        obtain rfl : x = y := Option.some.inj hy
        exact Or.inl hstuck
      | succ i =>
        refine Or.inr ⟨hbefore 0 x (Nat.succ_pos i) rfl, i, y, hy, hstuck, fun j z hj hz => ?_⟩
        exact hbefore (j + 1) z (by omega) hz

variable {values : Value → Value → Comparison} {m n : OrderedMap String Value}

/-- Comparing an entry of one map with what another has under its name. -/
def ofEntry (values : Value → Value → Comparison) (n : OrderedMap String Value) (e : String × Value) :
    Comparison :=
  (n.get? e.1).elim (some false) (values e.2)

theorem ofEntry_eq_true_iff {e : String × Value} :
    ofEntry values n e = some true ↔ ∃ w, n.get? e.1 = some w ∧ values e.2 w = some true := by
  unfold ofEntry
  cases n.get? e.1 <;> simp

theorem ofEntry_eq_none_iff {e : String × Value} :
    ofEntry values n e = none ↔ ∃ w, n.get? e.1 = some w ∧ values e.2 w = none := by
  unfold ofEntry
  cases n.get? e.1 <;> simp

theorem compareWith_eq :
    m.compareWith values n =
      if m.size = n.size then Comparison.all (ofEntry values n) m.entries else some false := by
  unfold OrderedMap.compareWith
  congr
  funext ⟨name, v⟩
  simp only [ofEntry]
  cases n.get? name <;> rfl

end Comparison

namespace Value

variable {records : RecordId → RecordId → Comparison}

/-- The items of two lists are compared pair by pair. -/
theorem compareItems_eq : ∀ as bs : List Value,
    compareItems records as bs
      = Comparison.all (fun p : Value × Value => p.1.compare records p.2) (as.zip bs)
  | a :: as, b :: bs => by
    rw [compareItems, List.zip_cons_cons, Comparison.all, compareItems_eq as bs]
  | [], _ => by
    rw [compareItems]
    · rfl
    · simp
  | _ :: _, [] => by
    rw [compareItems]
    · rfl
    · simp

/-- Two lists of one length are compared pair by pair. -/
theorem compare_list (as bs : List Value) :
    (Value.list as).compare records (.list bs) =
      if as.length = bs.length then
        Comparison.all (fun p : Value × Value => p.1.compare records p.2) (as.zip bs)
      else some false := by
  rw [Value.compare, compareAll, compareItems_eq]

end Value

/-! ### Where a comparison stands -/

/-- Where a comparison stands: the pairs of records that it holds, innermost first, and the two values
that it is to compare. -/
structure Pairing where
  opened : List (RecordId × RecordId)
  left : Value
  right : Value

namespace Pairing

/-- The records that are held on the left side. -/
def lefts (P : Pairing) : List RecordId :=
  P.opened.map Prod.fst

def rights (P : Pairing) : List RecordId :=
  P.opened.map Prod.snd

/-- **Two different records are met, and one of them is held on the other side.** -/
def Clashes (P : Pairing) : Prop :=
  ∃ a b, P.left = .record a ∧ P.right = .record b ∧ a ≠ b ∧ (a ∈ P.rights ∨ b ∈ P.lefts)

end Pairing

namespace Store

variable {s : Store}

/-- Comparing from where a comparison stands. -/
def comparePairing (s : Store) (P : Pairing) : Comparison :=
  P.left.compare
    (s.compareRecords (s.size + 1 - P.opened.length) (P.opened.flatMap fun p => [p.1, p.2])) P.right

/-- Two records are opened: they are different, none is held on the other side, and they agree in
class and number of properties. -/
structure Opens (s : Store) (opened : List (RecordId × RecordId)) (a b : RecordId) : Prop where
  ne : a ≠ b
  free : ¬ Pairing.Clashes ⟨opened, .record a, .record b⟩
  className : (s.get a).className = (s.get b).className
  size : (s.get a).properties.size = (s.get b).properties.size

/-- **How a comparison goes down:** from lists to their items, and from records that it opens to their
properties and then to their children, each if all before were alike. -/
inductive Enters (s : Store) : Pairing → Pairing → Prop where
  | item {opened : List (RecordId × RecordId)} {as bs : List Value} {i : Nat} {v w : Value}
    (length : as.length = bs.length) (left : as[i]? = some v) (right : bs[i]? = some w)
    (before : ∀ (j : Nat) (v' w' : Value), j < i → as[j]? = some v' → bs[j]? = some w' →
      s.Alike v' w') :
    Enters s ⟨opened, .list as, .list bs⟩ ⟨opened, v, w⟩
  | property {opened : List (RecordId × RecordId)} {a b : RecordId} {i : Nat} {name : String}
    {v w : Value} (opens : s.Opens opened a b)
    (left : (s.get a).properties.entries[i]? = some (name, v))
    (right : (s.get b).properties.get? name = some w)
    (before : ∀ (j : Nat) (e : String × Value), j < i →
      (s.get a).properties.entries[j]? = some e → s.Answers b e) :
    Enters s ⟨opened, .record a, .record b⟩ ⟨(a, b) :: opened, v, w⟩
  | children {opened : List (RecordId × RecordId)} {a b : RecordId} (opens : s.Opens opened a b)
    (before : ∀ e ∈ (s.get a).properties.entries, s.Answers b e) :
    Enters s ⟨opened, .record a, .record b⟩
      ⟨(a, b) :: opened, .list (s.get a).children, .list (s.get b).children⟩

/-! ### What is compared is inside what is held -/

/-- **Both values are inside all records that are held on their side,** and nothing in them contains
itself. -/
structure Nested (s : Store) (P : Pairing) : Prop where
  left : ∀ a ∈ P.lefts, ∀ c ∈ P.left.records, TransGen s.Contains a c
  right : ∀ b ∈ P.rights, ∀ c ∈ P.right.records, TransGen s.Contains b c
  acyclicLeft : s.Acyclic P.left
  acyclicRight : s.Acyclic P.right
  nodup : P.lefts.Nodup

namespace Nested

variable {opened : List (RecordId × RecordId)} {a b : RecordId} {v w : Value}

theorem start {x y : Value} (hx : s.Acyclic x) (hy : s.Acyclic y) : s.Nested ⟨[], x, y⟩ :=
  ⟨fun _ ha => absurd ha List.not_mem_nil, fun _ hb => absurd hb List.not_mem_nil, hx, hy, .nil⟩

/-- From values to what they refer to. -/
theorem sub {v' w' : Value} (h : s.Nested ⟨opened, v, w⟩) (hv : v'.records ⊆ v.records)
    (hw : w'.records ⊆ w.records) : s.Nested ⟨opened, v', w'⟩ :=
  ⟨fun a ha _ hc => h.left a ha _ (hv hc), fun b hb _ hc => h.right b hb _ (hw hc),
    fun _ hc => h.acyclicLeft _ (hv hc), fun _ hc => h.acyclicRight _ (hw hc), h.nodup⟩

/-- A record is not met again on the side on which it is held: it would be inside itself. -/
theorem not_mem_lefts (h : s.Nested ⟨opened, .record a, w⟩) : a ∉ opened.map Prod.fst := by
  intro ha
  have haa : TransGen s.Contains a a := h.left a ha a (List.mem_singleton_self a)
  exact h.acyclicLeft a (List.mem_singleton_self a) a .refl haa

theorem not_mem_rights (h : s.Nested ⟨opened, v, .record b⟩) : b ∉ opened.map Prod.snd := by
  intro hb
  have hbb : TransGen s.Contains b b := h.right b hb b (List.mem_singleton_self b)
  exact h.acyclicRight b (List.mem_singleton_self b) b .refl hbb

/-- From records to what they contain; they are held then. -/
theorem inside (h : s.Nested ⟨opened, .record a, .record b⟩)
    (hv : v.records ⊆ (s.get a).records) (hw : w.records ⊆ (s.get b).records) :
    s.Nested ⟨(a, b) :: opened, v, w⟩ where
  left := List.forall_mem_cons.mpr ⟨fun _ hc => .single (hv hc), fun p hp _ hc =>
    (h.left p hp a (List.mem_singleton_self a)).tail (hv hc)⟩
  right := List.forall_mem_cons.mpr ⟨fun _ hc => .single (hw hc), fun p hp _ hc =>
    (h.right p hp b (List.mem_singleton_self b)).tail (hw hc)⟩
  acyclicLeft _ hc d hd := h.acyclicLeft a (List.mem_singleton_self a) d (.head (hv hc) hd)
  acyclicRight _ hc d hd := h.acyclicRight b (List.mem_singleton_self b) d (.head (hw hc) hd)
  nodup := List.nodup_cons.mpr ⟨h.not_mem_lefts, h.nodup⟩

/-- Where records are met there are fewer pairs held than there are records. -/
theorem length_le (h : s.Nested ⟨opened, .record a, w⟩) : opened.length ≤ s.size := by
  have hsize : ∀ p ∈ opened.map Prod.fst, p < s.size := by
    intro p hp
    -- what is held contains the record that is met
    obtain ⟨c, hc, -⟩ := TransGen.head'_iff.mp (h.left p hp a (List.mem_singleton_self a))
    exact lt_size_of_contains hc
  calc opened.length = (opened.map Prod.fst).length := (List.length_map _).symm
    _ ≤ s.size := length_le_of_nodup h.nodup hsize

/-- An entry refers to what its record contains. -/
theorem records_entry {e : String × Value} (he : e ∈ (s.get a).properties.entries) :
    e.2.records ⊆ (s.get a).records :=
  fun _ hc => Record.mem_records.mpr (Or.inl ⟨e, he, hc⟩)

theorem records_get? {name : String} (hv : (s.get a).properties.get? name = some v) :
    v.records ⊆ (s.get a).records :=
  records_entry (OrderedMap.mem_entries_of_get? hv)

theorem records_children (a : RecordId) :
    (Value.list (s.get a).children).records ⊆ (s.get a).records := by
  intro c hc
  exact List.mem_append_right _ hc

theorem records_item {as : List Value} {i : Nat} (hv : as[i]? = some v) :
    v.records ⊆ (Value.list as).records := by
  intro c hc
  show c ∈ Value.recordsAll as
  rw [Value.recordsAll_eq_flatMap]
  exact List.mem_flatMap.mpr ⟨v, List.mem_of_getElem? hv, hc⟩

/-- The items at one place are compared while the same records are held. -/
theorem item {as bs : List Value} {p : Value × Value} (h : s.Nested ⟨opened, .list as, .list bs⟩)
    (hp : p ∈ as.zip bs) : s.Nested ⟨opened, p.1, p.2⟩ := by
  obtain ⟨i, hi⟩ := List.getElem?_of_mem hp
  obtain ⟨hv, hw⟩ := List.getElem?_zip_eq_some.mp hi
  exact h.sub (records_item hv) (records_item hw)

theorem enters {P Q : Pairing} (h : s.Nested P) (hPQ : s.Enters P Q) : s.Nested Q := by
  cases hPQ with
  | item _ left right _ => exact h.sub (records_item left) (records_item right)
  | property _ left right _ =>
    exact h.inside (records_entry (List.mem_of_getElem? left)) (records_get? right)
  | children _ _ => exact h.inside (records_children _) (records_children _)

theorem run {P Q : Pairing} (h : s.Nested P) (hPQ : ReflTransGen s.Enters P Q) : s.Nested Q := by
  induction hPQ with
  | refl => exact h
  | tail _ hRQ ih => exact ih.enters hRQ

/-- Of two records that are held, only one on the other side is met again. -/
theorem held_iff (h : s.Nested ⟨opened, .record a, .record b⟩) :
    a ∈ opened.flatMap (fun p => [p.1, p.2]) ∨ b ∈ opened.flatMap (fun p => [p.1, p.2]) ↔
      a ∈ opened.map Prod.snd ∨ b ∈ opened.map Prod.fst := by
  -- what is held on either side, the left ones and the right ones together
  have hmem : ∀ c, c ∈ opened.flatMap (fun p => [p.1, p.2]) ↔
      c ∈ opened.map Prod.fst ∨ c ∈ opened.map Prod.snd := by
    intro c
    simp only [List.mem_flatMap, List.mem_cons, List.not_mem_nil, or_false, List.mem_map]
    constructor
    · rintro ⟨p, hp, rfl | rfl⟩
      · exact Or.inl ⟨p, hp, rfl⟩
      · exact Or.inr ⟨p, hp, rfl⟩
    · rintro (⟨p, hp, rfl⟩ | ⟨p, hp, rfl⟩)
      · exact ⟨p, hp, Or.inl rfl⟩
      · exact ⟨p, hp, Or.inr rfl⟩
  rw [hmem, hmem, or_iff_right h.not_mem_lefts, or_iff_left h.not_mem_rights]

end Nested

variable {opened : List (RecordId × RecordId)} {a b : RecordId} {v w : Value}

theorem Pairing.clashes_iff :
    Pairing.Clashes ⟨opened, .record a, .record b⟩ ↔
      a ≠ b ∧ (a ∈ opened.map Prod.snd ∨ b ∈ opened.map Prod.fst) := by
  constructor
  · rintro ⟨_, _, ⟨⟩, ⟨⟩, hclash⟩
    exact hclash
  · exact fun hclash => ⟨a, b, rfl, rfl, hclash⟩

/-! ### What comparing does from where it stands -/

/-- Comparing a property of a record that is opened with what the other has under its name. -/
def compareEntry (s : Store) (opened : List (RecordId × RecordId)) (a b : RecordId) :
    String × Value → Comparison :=
  Comparison.ofEntry (fun v w => s.comparePairing ⟨(a, b) :: opened, v, w⟩) (s.get b).properties

theorem comparePairing_list (as bs : List Value) :
    s.comparePairing ⟨opened, .list as, .list bs⟩ =
      if as.length = bs.length then
        Comparison.all (fun p : Value × Value => s.comparePairing ⟨opened, p.1, p.2⟩) (as.zip bs)
      else some false :=
  Value.compare_list as bs

theorem compareEntry_eq_true_iff {e : String × Value}
    (h : ∀ w, (s.get b).properties.get? e.1 = some w →
      (s.comparePairing ⟨(a, b) :: opened, e.2, w⟩ = some true ↔ s.Alike e.2 w)) :
    s.compareEntry opened a b e = some true ↔ s.Answers b e := by
  rw [compareEntry, Comparison.ofEntry_eq_true_iff]
  exact exists_congr fun w => and_congr_right (h w)

/-- Comparing two records: its depth is never used up, and only what is held on the other side is in
the way. -/
theorem Nested.comparePairing_record (h : s.Nested ⟨opened, .record a, .record b⟩) :
    s.comparePairing ⟨opened, .record a, .record b⟩ =
      if a = b then some true
      else if a ∈ opened.map Prod.snd ∨ b ∈ opened.map Prod.fst then none
      else if (s.get a).className = (s.get b).className then
        Comparison.andThen
          (if (s.get a).properties.size = (s.get b).properties.size then
            Comparison.all (s.compareEntry opened a b) (s.get a).properties.entries
          else some false) fun _ =>
          s.comparePairing ⟨(a, b) :: opened, .list (s.get a).children, .list (s.get b).children⟩
      else some false := by
  have hle := h.length_le
  -- one more pair is held, and so one less step is left
  have hdepth : s.size + 1 - opened.length = (s.size + 1 - ((a, b) :: opened).length) + 1 := by
    rw [List.length_cons]
    omega
  rw [comparePairing, Value.compare, hdepth, compareRecords]
  simp only [h.held_iff, Comparison.compareWith_eq, compareEntry, comparePairing, Value.compare,
    List.flatMap_cons, List.cons_append, List.nil_append]

/-- Comparing two records that are opened goes through the properties and then the children. -/
theorem Nested.comparePairing_opens (h : s.Nested ⟨opened, .record a, .record b⟩)
    (hopens : s.Opens opened a b) :
    s.comparePairing ⟨opened, .record a, .record b⟩ =
      Comparison.andThen
        (Comparison.all (s.compareEntry opened a b) (s.get a).properties.entries) fun _ =>
        s.comparePairing ⟨(a, b) :: opened, .list (s.get a).children, .list (s.get b).children⟩ := by
  have hfree := fun hheld => hopens.free (Pairing.clashes_iff.mpr ⟨hopens.ne, hheld⟩)
  rw [h.comparePairing_record, if_neg hopens.ne, if_neg hfree, if_pos hopens.className,
    if_pos hopens.size]

/-- **What comparing two records does.** They are one record; or it clashes; or it opens them and
compares the properties and then the children; or they differ. -/
theorem Nested.record_cases (h : s.Nested ⟨opened, .record a, .record b⟩) :
    (a = b ∧ s.comparePairing ⟨opened, .record a, .record b⟩ = some true) ∨
    (Pairing.Clashes ⟨opened, .record a, .record b⟩ ∧
      s.comparePairing ⟨opened, .record a, .record b⟩ = none) ∨
    s.Opens opened a b ∨
    (¬ s.Alike (.record a) (.record b) ∧
      s.comparePairing ⟨opened, .record a, .record b⟩ = some false) := by
  have hcompare := h.comparePairing_record
  -- in the order of the comparison: the same record, held already, class, number of properties
  by_cases hab : a = b
  · exact Or.inl ⟨hab, hcompare.trans (if_pos hab)⟩
  rw [if_neg hab] at hcompare
  by_cases hheld : a ∈ opened.map Prod.snd ∨ b ∈ opened.map Prod.fst
  · exact Or.inr (Or.inl ⟨Pairing.clashes_iff.mpr ⟨hab, hheld⟩, hcompare.trans (if_pos hheld)⟩)
  have hfree : ¬ Pairing.Clashes ⟨opened, .record a, .record b⟩ :=
    fun hclash => hheld (Pairing.clashes_iff.mp hclash).2
  rw [if_neg hheld] at hcompare
  by_cases hclass : (s.get a).className = (s.get b).className
  · by_cases hsize : (s.get a).properties.size = (s.get b).properties.size
    · exact Or.inr (Or.inr (Or.inl ⟨hab, hfree, hclass, hsize⟩))
    · rw [if_pos hclass, if_neg hsize] at hcompare
      exact Or.inr (Or.inr (Or.inr
        ⟨fun halike => hsize ((alike_record_iff hab).mp halike).2.1, hcompare⟩))
  · rw [if_neg hclass] at hcompare
    exact Or.inr (Or.inr (Or.inr
      ⟨fun halike => hclass ((alike_record_iff hab).mp halike).1, hcompare⟩))

/-- What is neither two lists nor two records has its answer at once. -/
theorem compare_flat (records : RecordId → RecordId → Comparison)
    (hlist : ¬ ∃ as bs, v = .list as ∧ w = .list bs)
    (hrecord : ¬ ∃ a b, v = .record a ∧ w = .record b) :
    ∃ answer, v.compare records w = some answer ∧ (answer = true ↔ s.Alike v w) := by
  cases v <;> cases w
  -- two of one shape are compared by what they carry
  case null.null => exact ⟨true, by rw [Value.compare], iff_of_true rfl .null⟩
  case bool.bool a b =>
    refine ⟨a == b, by rw [Value.compare], ?_⟩
    rw [beq_iff_eq]
    exact ⟨fun h => h ▸ .bool a, by rintro ⟨⟩; rfl⟩
  case int.int a b =>
    refine ⟨a == b, by rw [Value.compare], ?_⟩
    rw [beq_iff_eq]
    exact ⟨fun h => h ▸ .int a, by rintro ⟨⟩; rfl⟩
  case float.float x y =>
    exact ⟨x.same y, by rw [Value.compare], .float, by rintro ⟨⟩; assumption⟩
  case string.string a b =>
    refine ⟨a == b, by rw [Value.compare], ?_⟩
    rw [beq_iff_eq]
    exact ⟨fun h => h ▸ .string a, by rintro ⟨⟩; rfl⟩
  case constructor.constructor a f b g =>
    refine ⟨a == b, by rw [Value.compare], ?_⟩
    rw [beq_iff_eq]
    exact ⟨fun h => h ▸ .constructor a f g, by rintro ⟨⟩; rfl⟩
  case resource.resource a b =>
    refine ⟨a == b, by rw [Value.compare], ?_⟩
    rw [beq_iff_eq]
    exact ⟨fun h => h ▸ .resource a, by rintro ⟨⟩; rfl⟩
  case list.list as bs => exact absurd ⟨as, bs, rfl, rfl⟩ hlist
  case record.record a b => exact absurd ⟨a, b, rfl, rfl⟩ hrecord
  -- two shapes
  all_goals
    refine ⟨false, by simp [Value.compare], iff_of_false Bool.false_ne_true ?_⟩
    rintro ⟨⟩

/-! ### Like values compare equal, whatever is held -/

namespace Nested

/-- **Like records are not held on the other side.** One that is held there contains what is met, and
is like it or like what it is like. -/
theorem not_clashes_of_alike (h : s.Nested ⟨opened, .record a, .record b⟩)
    (halike : s.Alike (.record a) (.record b)) :
    ¬ Pairing.Clashes ⟨opened, .record a, .record b⟩ := by
  rw [Pairing.clashes_iff]
  rintro ⟨-, ha | hb⟩
  · -- the record on the left is held on the right, so it contains the one that it is like
    have hab : TransGen s.Contains a b := h.right a ha b (List.mem_singleton_self b)
    exact not_alike_of_inside (h.acyclicLeft a (List.mem_singleton_self a)) hab halike
  · have hba : TransGen s.Contains b a := h.left b hb a (List.mem_singleton_self a)
    exact not_alike_of_inside (h.acyclicRight b (List.mem_singleton_self b)) hba halike.symm

/-- **Values compare equal if and only if they are alike,** whatever records are held around them. -/
theorem compare_eq_true_iff {opened : List (RecordId × RecordId)} {v w : Value}
    (h : s.Nested ⟨opened, v, w⟩) :
    s.comparePairing ⟨opened, v, w⟩ = some true ↔ s.Alike v w := by
  by_cases hlist : ∃ as bs, v = .list as ∧ w = .list bs
  · obtain ⟨as, bs, rfl, rfl⟩ := hlist
    rw [comparePairing_list, alike_list_iff]
    split
    case isTrue hlength =>
      rw [Comparison.all_eq_true_iff, and_iff_right hlength]
      exact forall₂_congr fun p hp => (h.item hp).compare_eq_true_iff
    case isFalse hlength => simp [hlength]
  by_cases hrecord : ∃ a b, v = .record a ∧ w = .record b
  · obtain ⟨a, b, rfl, rfl⟩ := hrecord
    have hle := h.length_le
    rcases h.record_cases with ⟨rfl, hc⟩ | ⟨hclash, hc⟩ | hopens | ⟨hdiff, hc⟩
    · exact iff_of_true hc (.itself a)
    · -- records that clash are not alike, since one would lie inside itself
      rw [hc]
      exact iff_of_false nofun fun halike => h.not_clashes_of_alike halike hclash
    · rw [h.comparePairing_opens hopens, Comparison.andThen_eq_true_iff, Comparison.all_eq_true_iff,
        (h.inside (records_children a) (records_children b)).compare_eq_true_iff,
        alike_record_iff hopens.ne, and_iff_right hopens.className, and_iff_right hopens.size]
      -- every property and the children, all with one more pair held
      refine and_congr_left' (forall₂_congr fun e he => compareEntry_eq_true_iff fun w hw => ?_)
      exact (h.inside (records_entry he) (records_get? hw)).compare_eq_true_iff
    · rw [hc]
      exact iff_of_false (by simp) hdiff
  · obtain ⟨answer, hcompare, hanswer⟩ := compare_flat (s := s) _ hlist hrecord
    rw [comparePairing, hcompare, Option.some.injEq, hanswer]
termination_by (s.size + 1 - opened.length, sizeOf v)
decreasing_by
  · -- an item of a list is smaller
    subst_vars
    exact .right _ (Value.sizeOf_lt_of_mem (List.of_mem_zip hp).1)
  -- and what is in a record is compared while one more pair is held
  · exact .left _ _ (Nat.sub_lt_sub_left (Nat.lt_succ_of_le hle) (Nat.lt_succ_self _))
  · exact .left _ _ (Nat.sub_lt_sub_left (Nat.lt_succ_of_le hle) (Nat.lt_succ_self _))

/-- Whether a property has its answer in the other record, said of comparing. -/
theorem answers_iff (h : s.Nested ⟨opened, .record a, .record b⟩) {e : String × Value}
    (he : e ∈ (s.get a).properties.entries) :
    s.compareEntry opened a b e = some true ↔ s.Answers b e :=
  compareEntry_eq_true_iff fun _ hw =>
    (h.inside (records_entry he) (records_get? hw)).compare_eq_true_iff

/-! ### A comparison is stuck where it clashes -/

/-- **One step of getting stuck**: where it is stuck, a comparison clashes or goes down to where it is
stuck. -/
theorem clashes_or_enters {P : Pairing} (h : s.Nested P) (hnone : s.comparePairing P = none) :
    P.Clashes ∨ ∃ Q, s.Enters P Q ∧ s.comparePairing Q = none := by
  obtain ⟨opened, v, w⟩ := P
  by_cases hlist : ∃ as bs, v = .list as ∧ w = .list bs
  · -- the first item that is stuck, and all before it are alike
    obtain ⟨as, bs, rfl, rfl⟩ := hlist
    rw [comparePairing_list] at hnone
    split at hnone
    case isFalse => cases hnone
    case isTrue hlength =>
    obtain ⟨i, p, hi, hp, hbefore⟩ := Comparison.all_eq_none_iff.mp hnone
    obtain ⟨hv, hw⟩ := List.getElem?_zip_eq_some.mp hi
    refine Or.inr ⟨_, .item hlength hv hw fun j v' w' hj hv' hw' => ?_, hp⟩
    have hp' : (as.zip bs)[j]? = some (v', w') := List.getElem?_zip_eq_some.mpr ⟨hv', hw'⟩
    exact (h.item (List.mem_of_getElem? hp')).compare_eq_true_iff.mp (hbefore j _ hj hp')
  by_cases hrecord : ∃ a b, v = .record a ∧ w = .record b
  · obtain ⟨a, b, rfl, rfl⟩ := hrecord
    rcases h.record_cases with ⟨-, hc⟩ | ⟨hclash, -⟩ | hopens | ⟨-, hc⟩
    · rw [hc] at hnone
      cases hnone
    · exact Or.inl hclash
    · rw [h.comparePairing_opens hopens, Comparison.andThen_eq_none_iff] at hnone
      rcases hnone with hnone | ⟨htrue, hnone⟩
      · -- stuck in a property
        obtain ⟨i, e, hi, he, hbefore⟩ := Comparison.all_eq_none_iff.mp hnone
        obtain ⟨w, hw, he⟩ := Comparison.ofEntry_eq_none_iff.mp he
        refine Or.inr ⟨_, .property hopens hi hw fun j e' hj he' => ?_, he⟩
        exact (h.answers_iff (List.mem_of_getElem? he')).mp (hbefore j e' hj he')
      · -- stuck in the children, with all properties behind it
        refine Or.inr ⟨_, .children hopens fun e he => ?_, hnone⟩
        exact (h.answers_iff he).mp (Comparison.all_eq_true_iff.mp htrue e he)
    · rw [hc] at hnone
      cases hnone
  · obtain ⟨answer, hcompare, -⟩ := compare_flat (s := s) _ hlist hrecord
    rw [comparePairing, hcompare] at hnone
    cases hnone

theorem compare_of_clashes {P : Pairing} (h : s.Nested P) (hclash : P.Clashes) :
    s.comparePairing P = none := by
  obtain ⟨opened, v, w⟩ := P
  obtain ⟨a, b, rfl, rfl, hne, hheld⟩ := hclash
  exact h.comparePairing_record.trans ((if_neg hne).trans (if_pos hheld))

/-- What is stuck inside is stuck. -/
theorem compare_of_enters {P Q : Pairing} (h : s.Nested P) (hPQ : s.Enters P Q)
    (hnone : s.comparePairing Q = none) : s.comparePairing P = none := by
  -- whatever comes before is alike, so the comparison gets there
  cases hPQ with
  | item length left right before =>
    rw [comparePairing_list, if_pos length]
    refine Comparison.all_eq_none_iff.mpr
      ⟨_, (_, _), List.getElem?_zip_eq_some.mpr ⟨left, right⟩, hnone, fun j p hj hp => ?_⟩
    obtain ⟨hv, hw⟩ := List.getElem?_zip_eq_some.mp hp
    exact (h.item (List.mem_of_getElem? hp)).compare_eq_true_iff.mpr (before j p.1 p.2 hj hv hw)
  | property opens left right before =>
    rw [h.comparePairing_opens opens, Comparison.andThen_eq_none_iff]
    refine Or.inl (Comparison.all_eq_none_iff.mpr ⟨_, _, left, ?_, fun j e hj he => ?_⟩)
    · exact Comparison.ofEntry_eq_none_iff.mpr ⟨_, right, hnone⟩
    · exact (h.answers_iff (List.mem_of_getElem? he)).mpr (before j e hj he)
  | children opens before =>
    rw [h.comparePairing_opens opens, Comparison.andThen_eq_none_iff]
    refine Or.inr ⟨Comparison.all_eq_true_iff.mpr fun e he => ?_, hnone⟩
    exact (h.answers_iff he).mpr (before e he)

/-- Going down, either there are fewer records left to be held or the left value gets smaller. -/
theorem lex_of_enters {P Q : Pairing} (h : s.Nested P) (hPQ : s.Enters P Q) :
    Prod.Lex (· < ·) (· < ·) (s.size + 1 - Q.opened.length, sizeOf Q.left)
      (s.size + 1 - P.opened.length, sizeOf P.left) := by
  cases hPQ with
  | item _ left _ _ => exact .right _ (Value.sizeOf_lt_of_mem (List.mem_of_getElem? left))
  | property _ _ _ _ | children _ _ =>
    exact .left _ _ (Nat.sub_lt_sub_left (Nat.lt_succ_of_le h.length_le) (Nat.lt_succ_self _))

/-- **A comparison is stuck if and only if it gets to where it clashes.** -/
theorem compare_eq_none_iff {P : Pairing} (h : s.Nested P) :
    s.comparePairing P = none ↔ ∃ Q, ReflTransGen s.Enters P Q ∧ Q.Clashes := by
  constructor
  · intro hnone
    rcases h.clashes_or_enters hnone with hclash | ⟨Q, hPQ, hnone⟩
    · exact ⟨P, .refl, hclash⟩
    · obtain ⟨R, hQR, hclash⟩ := (h.enters hPQ).compare_eq_none_iff.mp hnone
      exact ⟨R, .head hPQ hQR, hclash⟩
  · rintro ⟨Q, hPQ, hclash⟩
    induction hPQ using ReflTransGen.head_induction_on with
    | refl => exact h.compare_of_clashes hclash
    | head hPR _ ih => exact h.compare_of_enters hPR (ih (h.enters hPR))
termination_by (s.size + 1 - P.opened.length, sizeOf P.left)
decreasing_by exact h.lex_of_enters hPQ

end Nested

/-! ### What the two sides have in common -/

/-- **What is on one side stays on its side**: whatever holds of the records that the first value
refers to, and of what such records contain, holds of the records on the left, and likewise for the
second value. -/
structure Parted (p q : RecordId → Prop) (P : Pairing) : Prop where
  lefts : ∀ a ∈ P.lefts, p a
  left : ∀ c ∈ P.left.records, p c
  rights : ∀ b ∈ P.rights, q b
  right : ∀ c ∈ P.right.records, q c

namespace Parted

variable {p q : RecordId → Prop} {P Q : Pairing}

/-- From records to what they contain; they are held then. -/
theorem inside (hp : ∀ a c, p a → s.Contains a c → p c) (hq : ∀ a c, q a → s.Contains a c → q c)
    (h : Parted p q ⟨opened, .record a, .record b⟩) (hv : v.records ⊆ (s.get a).records)
    (hw : w.records ⊆ (s.get b).records) : Parted p q ⟨(a, b) :: opened, v, w⟩ := by
  have ha : p a := h.left a (List.mem_singleton_self a)
  have hb : q b := h.right b (List.mem_singleton_self b)
  constructor
  · exact List.forall_mem_cons.mpr ⟨ha, h.lefts⟩
  · intro c hc
    exact hp a c ha (hv hc)
  · exact List.forall_mem_cons.mpr ⟨hb, h.rights⟩
  · intro c hc
    exact hq b c hb (hw hc)

theorem enters (hp : ∀ a c, p a → s.Contains a c → p c) (hq : ∀ a c, q a → s.Contains a c → q c)
    (h : Parted p q P) (hPQ : s.Enters P Q) : Parted p q Q := by
  cases hPQ with
  | item _ left right _ =>
    exact ⟨h.lefts, fun c hc => h.left c (Nested.records_item left hc), h.rights,
      fun c hc => h.right c (Nested.records_item right hc)⟩
  | property _ left right _ =>
    exact h.inside hp hq (Nested.records_entry (List.mem_of_getElem? left))
      (Nested.records_get? right)
  | children _ _ =>
    exact h.inside hp hq (Nested.records_children _) (Nested.records_children _)

theorem run (hp : ∀ a c, p a → s.Contains a c → p c) (hq : ∀ a c, q a → s.Contains a c → q c)
    (h : Parted p q P) (hPQ : ReflTransGen s.Enters P Q) : Parted p q Q := by
  induction hPQ with
  | refl => exact h
  | tail _ hRQ ih => exact ih.enters hp hq hRQ

/-- Where a comparison clashes, a record on both sides contains what is met. -/
theorem of_clashes (hnested : s.Nested P) (h : Parted p q P) (hclash : P.Clashes) :
    ∃ c, p c ∧ q c ∧ ∃ d, s.Contains c d := by
  obtain ⟨opened, v, w⟩ := P
  obtain ⟨a, b, rfl, rfl, -, ha | hb⟩ := hclash
  · obtain ⟨d, hd, -⟩ := TransGen.head'_iff.mp (hnested.right a ha b (List.mem_singleton_self b))
    exact ⟨a, h.left a (List.mem_singleton_self a), h.rights a ha, d, hd⟩
  · obtain ⟨d, hd, -⟩ := TransGen.head'_iff.mp (hnested.left b hb a (List.mem_singleton_self a))
    exact ⟨b, h.lefts b hb, h.right b (List.mem_singleton_self b), d, hd⟩

end Parted

/-- The record is one that the value refers to or is inside one of these. -/
def LeadsTo (s : Store) (v : Value) (c : RecordId) : Prop :=
  ∃ r ∈ v.records, ReflTransGen s.Contains r c

/-! ### How comparisons end -/

/-- How comparing two values ends. -/
structure Compares (s : Store) (x y : Value) : Prop where
  /-- It is stuck if and only if it gets to two different records one of which is held on the other
  side. -/
  stuck : s.compare x y = none ↔ ∃ P, ReflTransGen s.Enters ⟨[], x, y⟩ P ∧ P.Clashes
  /-- It says that the values are equal if and only if they are alike. -/
  equal : s.compare x y = some true ↔ s.Alike x y
  /-- It is never stuck if what the values have in common are records without records inside. -/
  apart : (∀ c, s.LeadsTo x c → s.LeadsTo y c → ∀ d, ¬ s.Contains c d) → s.compare x y ≠ none

/-- **Comparing is right, and is stuck where it clashes.** This is for values in which no record
contains itself, whatever records they share. -/
theorem compares_of_acyclic {s : Store} {x y : Value} (hx : s.Acyclic x) (hy : s.Acyclic y) :
    s.Compares x y where
  stuck := (Nested.start hx hy).compare_eq_none_iff
  equal := (Nested.start hx hy).compare_eq_true_iff
  apart hapart hnone := by
    have hstart := Nested.start hx hy
    obtain ⟨P, hP, hclash⟩ := hstart.compare_eq_none_iff.mp hnone
    have hleads : ∀ v a c, s.LeadsTo v a → s.Contains a c → s.LeadsTo v c := by
      rintro v a c ⟨r, hr, hra⟩ hac
      exact ⟨r, hr, hra.tail hac⟩
    have hparted : Parted (s.LeadsTo x) (s.LeadsTo y) ⟨[], x, y⟩ :=
      ⟨fun _ ha => absurd ha List.not_mem_nil, fun c hc => ⟨c, hc, .refl⟩,
        fun _ hb => absurd hb List.not_mem_nil, fun c hc => ⟨c, hc, .refl⟩⟩
    -- what is held on the left is below `x`, and on the right below `y`
    have hparted : Parted (s.LeadsTo x) (s.LeadsTo y) P := hparted.run (hleads x) (hleads y) hP
    obtain ⟨c, hxc, hyc, d, hd⟩ := hparted.of_clashes (hstart.run hP) hclash
    exact hapart c hxc hyc d hd

/-- Three records, each but the first with the one before as its child. -/
def chain : Store :=
  { records := #[{ className := "n" }, { className := "n", children := [.record 0] },
    { className := "n", children := [.record 1] }] }

theorem chain_contains_lt {a c : RecordId} (h : chain.Contains a c) : c < a := by
  have hsize : a < 3 := lt_size_of_contains h
  match a, hsize with
  | 0, _ => exact absurd h List.not_mem_nil
  | 1, _ => rw [List.mem_singleton.mp h]; decide
  | 2, _ => rw [List.mem_singleton.mp h]; decide

theorem chain_acyclic (v : Value) : chain.Acyclic v := by
  intro _ _ a _ ha
  have hlt : ∀ c, TransGen chain.Contains a c → c < a := fun c hc => by
    induction hc with
    | single h => exact chain_contains_lt h
    | tail _ h ih => exact Nat.lt_trans (chain_contains_lt h) ih
  exact Nat.lt_irrefl a (hlt a ha)

/-- The third record and the second: their children are compared while both are held, and the child
of the third is the second. -/
theorem compares_of_acyclic_chain :
    chain.Acyclic (.record 2) ∧ chain.Acyclic (.record 1) ∧
      chain.compare (.record 2) (.record 1) = none := by
  refine ⟨chain_acyclic _, chain_acyclic _, ?_⟩
  refine (compares_of_acyclic (chain_acyclic _) (chain_acyclic _)).stuck.mpr
    ⟨⟨[(2, 1)], .record 1, .record 0⟩, ?_, 1, 0, rfl, rfl, by decide, Or.inl (by decide)⟩
  have hopens : chain.Opens [] 2 1 :=
    ⟨by decide, fun hclash => by simpa using (Pairing.clashes_iff.mp hclash).2, rfl, rfl⟩
  have hnone : ∀ e, e ∉ (chain.get 2).properties.entries := fun _ => List.not_mem_nil
  refine .head (.children hopens fun e he => absurd he (hnone e)) (.single ?_)
  exact .item (i := 0) rfl rfl rfl fun j _ _ hj => absurd hj (Nat.not_lt_zero j)

end Store

end ObjectMarkup
