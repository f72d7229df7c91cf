import ObjectMarkup.Proofs.Influence
import ObjectMarkup.Proofs.Stamps

/-!
# Compiling each attribute anew

Attributes with one key share what they come to. If constructors do the same on each call
(`Calls.Steady`), this can hardly be told from compiling each of them anew: what the namespace has is
the same each time, and what is read from the text is, too. Only instances are made anew, with all the
records that belong to them, so two scalars with one key have one record for their value instead of
two (`compile_cacheSeen`). But then they write into one record, and if they have different names or
types, the one that comes last is seen in both places. Nothing else can be seen of the cache.

The compile with the cache and the one without are gone through in lockstep. The records of the
second one are copies of those of the first one (`Pass.Copies`): each has the number of what it is a
copy of, and one record has several copies only if it is the instance for a key. The contents of
instances are not compared before the end, when each scalar has its value. Until then it is enough to
know what can be in an instance at all (`Pass.Dressed`).
-/

namespace ObjectMarkup

open Markup (Element NodeId Document)
open Relation (TransGen ReflTransGen)

/-! ### Attributes without a cache -/

/-- Compiles an attribute without what is known of others. -/
def compileUncached : AttributeStep := fun c name raw => do
  modify fun p => { p with coercions := .empty }
  compileAttribute c name raw

/-- What is known of a record that a constructor has made for an attribute. -/
structure Label where
  /-- The record is what the constructor has handed out, and it is or will be the value of scalars. -/
  claimed : Bool
  /-- The record as it was made. -/
  made : Record

/-- The numbers behind the first `size` stand for those behind the first `n`. -/
def extend (ρ : RecordId → RecordId) (size n : Nat) (b : RecordId) : RecordId :=
  if b < size then ρ b else n + (b - size)

section Extend

variable {ρ : RecordId → RecordId} {size n b : Nat}

theorem extend_of_lt (h : b < size) : extend ρ size n b = ρ b :=
  if_pos h

theorem extend_add (ρ : RecordId → RecordId) (size n j : Nat) : extend ρ size n (size + j) = n + j := by
  rw [extend, if_neg (Nat.not_lt.mpr (Nat.le_add_right size j)), Nat.add_sub_cancel_left]

theorem rename_extend {r : Record} (h : ∀ i ∈ r.records, i < size) :
    r.rename (extend ρ size n) = r.rename ρ :=
  Record.rename_congr fun i hi => extend_of_lt (h i hi)

end Extend

/-- **A store of copies.** What is under a number is a copy of what is under `ρ` of it in the other
store. The labels `τ` tell the records there that constructors have made, which may have several
copies, and are not compared. The first `m` records are in both. -/
structure Store.Copies (m : Nat) (ρ : RecordId → RecordId) (τ : RecordId → Option Label)
    (s t : Store) : Prop where
  size : m ≤ t.size
  old : ∀ b < m, ρ b = b
  bare : ∀ a < m, τ a = none
  bounds : ∀ b < t.size, ρ b < s.size
  closed : t.Closed
  /-- The first records lead to no others. -/
  below : ∀ a b, a < m → t.Contains a b → b < m
  /-- What was made in one call is copied as a whole, so its copies lie as far from each other. -/
  inner : ∀ a b, (τ (ρ a)).isSome = true → t.Contains a b →
    b < m ∨ (τ (ρ b)).isSome = true ∧ ρ b + a = ρ a + b
  apart : ∀ a < t.size, ∀ b < t.size, ρ a = ρ b → a = b ∨ (τ (ρ a)).isSome = true
  plain : ∀ b < t.size, τ (ρ b) = none → s.get (ρ b) = (t.get b).rename ρ
  labels : ∀ a label, τ a = some label → a < s.size

namespace Store.Copies

variable {m : Nat} {ρ : RecordId → RecordId} {τ τ' : RecordId → Option Label} {s s' t t' : Store}

theorem lt_of_isSome (h : Copies m ρ τ s t) {a : RecordId} (ha : (τ a).isSome = true) : a < s.size := by
  obtain ⟨label, hτ⟩ := Option.isSome_iff_exists.mp ha
  exact h.labels a label hτ

/-- The next record has no label yet. -/
theorem label_size (h : Copies m ρ τ s t) : τ s.size = none := by
  cases hτ : τ s.size with
  | none => rfl
  | some label => exact absurd (h.labels _ _ hτ) (Nat.lt_irrefl _)

theorem le_of_isSome (h : Copies m ρ τ s t) {a : RecordId} (ha : (τ a).isSome = true) : m ≤ a := by
  by_contra hlt
  rw [h.bare a (Nat.lt_of_not_le hlt)] at ha
  cases ha

/-- The first records are in the first store, too. -/
theorem size_le (h : Copies m ρ τ s t) : m ≤ s.size := by
  cases m with
  | zero => exact Nat.zero_le _
  | succ n =>
    have hlast := h.bounds n (Nat.lt_of_lt_of_le (Nat.lt_succ_self n) h.size)
    rw [h.old n (Nat.lt_succ_self n)] at hlast
    exact hlast

/-- Places that lie as far from each other as their copies do. -/
theorem offset_trans {a b c x y z : Nat} (h : y + a = x + b) (h' : z + b = y + c) :
    z + a = x + c := by
  omega

/-- **Of what was made in one call** no two records inside each other are copies of one. -/
theorem eq_of_inside (h : Copies m ρ τ s t) {a b : RecordId} (ha : (τ (ρ a)).isSome = true)
    (hab : TransGen t.Contains a b) (heq : ρ a = ρ b) : a = b := by
  -- from a labelled record the way leads along its own copies, or to the first records for good
  have hway : b < m ∨ (τ (ρ b)).isSome = true ∧ ρ b + a = ρ a + b := by
    clear heq
    induction hab with
    | single hab => exact h.inner a _ ha hab
    | tail _ hbc ih =>
      rcases ih with hb | ⟨hb, hoffset⟩
      · exact Or.inl (h.below _ _ hb hbc)
      · refine (h.inner _ _ hb hbc).imp_right fun hc => ⟨hc.1, ?_⟩
        exact offset_trans hoffset hc.2
  rcases hway with hb | ⟨-, hoffset⟩
  · rw [heq, h.old b hb, h.bare b hb] at ha
    cases ha
  · rw [heq] at hoffset
    exact Nat.add_left_cancel hoffset

/-- Records and labels are added that have no copies yet. -/
theorem grow (h : Copies m ρ τ s t) {rs : List Record} (hadds : s.Adds rs s')
    (hsame : ∀ a < s.size, τ' a = τ a) (hlabels : ∀ a label, τ' a = some label → a < s'.size) :
    Copies m ρ τ' s' t where
  size := h.size
  old := h.old
  bare a ha := by
    -- the first records have copies, so they are not among the added ones
    have hlt := h.bounds a (Nat.lt_of_lt_of_le ha h.size)
    rw [h.old a ha] at hlt
    exact (hsame a hlt).trans (h.bare a ha)
  bounds b hb := Nat.lt_of_lt_of_le (h.bounds b hb) hadds.size_le
  closed := h.closed
  below := h.below
  inner a b hτ hab := by
    -- both ends are copies of what was there before, so both labels are old
    rw [hsame _ (h.bounds a (lt_size_of_contains hab))] at hτ
    rw [hsame _ (h.bounds b (h.closed a b hab))]
    exact h.inner a b hτ hab
  apart a ha b hb heq := by
    rw [hsame _ (h.bounds a ha)]
    exact h.apart a ha b hb heq
  plain b hb hτ := by
    rw [hsame _ (h.bounds b hb)] at hτ
    exact (hadds.old _ (h.bounds b hb)).trans (h.plain b hb hτ)
  labels := hlabels

/-- **Copies are added** of the records behind the first `n`. -/
theorem copy (h : Copies m ρ τ s t) {rs : List Record} (hadds : t.Adds rs t') {n : Nat}
    (hn : ∀ j < rs.length, n + j < s.size) (hrs : ∀ r ∈ rs, ∀ i ∈ r.records, i < t'.size)
    (hfree : ∀ j < rs.length, (∀ b < t.size, ρ b ≠ n + j) ∨ (τ (n + j)).isSome = true)
    (hinner : ∀ (j : Nat) (hj : j < rs.length), (τ (n + j)).isSome = true → ∀ i ∈ rs[j].records,
      i < m ∨ ∃ j', i = t.size + j' ∧ (τ (n + j')).isSome = true)
    (hplain : ∀ (j : Nat) (hj : j < rs.length), τ (n + j) = none →
      s.get (n + j) = rs[j].rename (extend ρ t.size n)) :
    Copies m (extend ρ t.size n) τ s t' := by
  have hself : ∀ j, extend ρ t.size n (t.size + j) = n + j := extend_add ρ t.size n
  have hsame : ∀ b < t.size, extend ρ t.size n b = ρ b := fun b hb => extend_of_lt hb
  refine ⟨Nat.le_trans h.size hadds.size_le, fun b hb => ?old, h.bare, fun b hb => ?bounds,
    hadds.closed h.closed hrs, fun a b ha hab => ?below, fun a b hτ hab => ?inner,
    fun a ha b hb heq => ?apart, fun b hb hτ => ?plain, h.labels⟩
  case old =>
    rw [hsame b (Nat.lt_of_lt_of_le hb h.size)]
    exact h.old b hb
  case bounds =>
    rcases hadds.cases hb with hb | ⟨j, hj, rfl⟩
    · rw [hsame b hb]
      exact h.bounds b hb
    · rw [hself]
      exact hn j hj
  case below =>
    rw [Contains, hadds.old a (Nat.lt_of_lt_of_le ha h.size)] at hab
    exact h.below a b ha hab
  case inner =>
    -- the distance between two new copies is that between the records they are copies of
    rcases hadds.cases (lt_size_of_contains hab) with ha | ⟨j, hj, rfl⟩
    · rw [Contains, hadds.old a ha] at hab
      rw [hsame a ha] at hτ ⊢
      rw [hsame b (h.closed a b hab)]
      exact h.inner a b hτ hab
    · rw [Contains, hadds.new j hj] at hab
      rw [hself] at hτ ⊢
      refine (hinner j hj hτ b hab).imp_right ?_
      rintro ⟨j', rfl, hj'⟩
      rw [hself]
      have hswap : ∀ n k j j' : Nat, n + j' + (k + j) = n + j + (k + j') := fun _ _ _ _ => by omega
      exact ⟨hj', hswap n t.size j j'⟩
  case apart =>
    rcases hadds.cases ha with ha | ⟨j, hj, rfl⟩ <;> rcases hadds.cases hb with hb | ⟨j', hj', rfl⟩
    · rw [hsame a ha, hsame b hb] at heq
      rw [hsame a ha]
      exact h.apart a ha b hb heq
    · -- a new copy is of a record without one, or of one with a label
      rw [hsame a ha, hself] at heq
      rw [hsame a ha, heq]
      exact Or.inr ((hfree j' hj').resolve_left fun hno => hno a ha heq)
    · rw [hself, hsame b hb] at heq
      rw [hself]
      exact Or.inr ((hfree j hj).resolve_left fun hno => hno b hb heq.symm)
    · rw [hself, hself] at heq
      exact Or.inl (congrArg (t.size + ·) (Nat.add_left_cancel heq))
  case plain =>
    rcases hadds.cases hb with hb | ⟨j, hj, rfl⟩
    · rw [hsame b hb] at hτ ⊢
      rw [hadds.old b hb, rename_extend fun c hc => h.closed b c hc]
      exact h.plain b hb hτ
    · rw [hself] at hτ ⊢
      rw [hadds.new j hj]
      exact hplain j hj hτ

/-- A record is made, and a copy of it. -/
theorem make (h : Copies m ρ τ s t) {record : Record} (hrecords : ∀ b ∈ record.records, b < t.size) :
    Copies m (extend ρ t.size s.size) τ (s.make (record.rename ρ)).2 (t.make record).2 := by
  have hleft := Adds.make s (record.rename ρ)
  have hright := Adds.make t record
  -- the record is added first, and then its copy, which is the only one
  have hnone := h.label_size
  have hgrown : Copies m ρ τ (s.make (record.rename ρ)).2 t :=
    h.grow hleft (fun _ _ => rfl) fun a label ha =>
      Nat.lt_of_lt_of_le (h.labels a label ha) hleft.size_le
  have hzero : ∀ {j}, j < [record].length → j = 0 := fun hj => Nat.lt_one_iff.mp hj
  refine hgrown.copy hright (fun j hj => ?_) (fun r hr i hi => ?_)
    (fun j hj => Or.inl fun b hb heq => ?_) (fun j hj hτ => ?_) fun j hj hτ => ?_
  · rw [hleft.size, hzero hj]
    exact Nat.lt_succ_self _
  · rw [List.mem_singleton.mp hr] at hi
    exact Nat.lt_of_lt_of_le (hrecords i hi) hright.size_le
  · -- nothing was a copy of the new record before
    rw [hzero hj] at heq
    exact Nat.ne_of_lt (h.bounds b hb) heq
  · obtain rfl := hzero hj
    rw [Nat.add_zero, hnone] at hτ
    cases hτ
  · obtain rfl := hzero hj
    have hrename : record.rename (extend ρ t.size s.size) = record.rename ρ := rename_extend hrecords
    exact (get_make_self s _).trans hrename.symm

/-- A record and its copies are changed. -/
theorem modify (h : Copies m ρ τ s t) {i : RecordId} (hi : i < t.size) {f g : Record → Record}
    (hfg : ∀ r : Record, (f r).rename ρ = g (r.rename ρ))
    (hf : ∀ (r : Record) b, b ∈ (f r).records → b = i ∨ b ∈ r.records) :
    Copies m ρ τ (s.modify (ρ i) g) (t.modify i f) where
  size := by
    rw [Store.size_modify]
    exact h.size
  old := h.old
  bare := h.bare
  bounds b hb := by
    rw [Store.size_modify] at hb ⊢
    exact h.bounds b hb
  closed := h.closed.modify hi hf
  below b c hb hbc := by
    -- the changed copy leads to itself now, or where it led before
    rcases contains_modify hi hf hbc with ⟨rfl, rfl⟩ | hbc
    · exact hb
    · exact h.below b c hb hbc
  inner b c hτ hbc := by
    -- a record is as far from itself as its copy is, which is not at all
    rcases contains_modify hi hf hbc with ⟨rfl, rfl⟩ | hbc
    · exact Or.inr ⟨hτ, rfl⟩
    · exact h.inner b c hτ hbc
  apart b hb c hc heq := by
    rw [Store.size_modify] at hb hc
    exact h.apart b hb c hc heq
  plain b hb hτ := by
    rw [Store.size_modify] at hb
    by_cases heq : b = i
    · subst heq
      rw [Store.get_modify_self (h.bounds b hb), Store.get_modify_self hb, h.plain b hb hτ, hfg]
    · -- a record without a label has one copy only, so another one was changed
      have hne : ρ b ≠ ρ i := fun hsame => by
        rcases h.apart b hb i hi hsame with hbi | hsome
        · exact heq hbi
        · rw [hτ] at hsome
          cases hsome
      rw [Store.get_modify_of_ne s hne, Store.get_modify_of_ne t heq]
      exact h.plain b hb hτ
  labels a label hτ := by
    rw [Store.size_modify]
    exact h.labels a label hτ

end Store.Copies

/-! ### Values that elements take -/

section Take

variable {p : Pass} {e n : Element} {k : Construction} {i : RecordId} {v : Value} {o : Outcome Value}
  {name : String}

theorem Pass.frame_take (p : Pass) (e : Element) (name : String) (o : Outcome Value) :
    (p.take e name o).store = p.store ∧ (p.take e name o).coercions = p.coercions ∧
      (p.take e name o).base = p.base ∧ (p.take e name o).environment = p.environment := by
  cases o <;> exact ⟨rfl, rfl, rfl, rfl⟩

theorem Pass.stands_take : (p.take e name o).Stands n i ↔ p.Stands n i := by
  cases o with
  | ok v => exact Pass.stands_setValue
  | error e => exact Iff.rfl

theorem Pass.Claims.take (h : p.Claims i) (hk : p.constructions.get? e.id = some k)
    (hnone : k.values.get? name = none) (o : Outcome Value) : (p.take e name o).Claims i := by
  cases o with
  | ok v => exact h.setValue hk hnone v
  | error e => exact h

theorem Pass.bears_of_take (h : (p.take e name o).Bears i) :
    (name = "value" ∧ o = .ok (.record i)) ∨ p.Bears i := by
  cases o with
  | ok v => exact (Pass.bears_of_setValue h).imp_left fun hv => ⟨hv.1, congrArg Except.ok hv.2⟩
  | error e => exact Or.inr h

theorem Pass.knows_of_take (h : (p.take e name o).Knows v) : o = .ok v ∨ p.Knows v := by
  cases o with
  | ok w => exact (Pass.knows_of_setValue h).imp_left fun hv => congrArg Except.ok hv.symm
  | error e => exact Or.inr h

end Take

/-! ### What was made for an attribute -/

/-- The record that the call hands out, if it is one. -/
def Batch.record? (b : Batch) : Option RecordId :=
  match b.ending with
  | .ok v => v.record?
  | .error _ => none

/-- A scalar takes the record with this place in the batch for its value. -/
def Batch.claims (b : Batch) (m : Nat) (key : AttributeKey) (j : Nat) : Bool :=
  decide (key.name = "value" ∧ b.record? = some (m + j))

/-- What is known of the record with this place in the batch, if the batch was added behind the first
`n`. -/
def Batch.label? (b : Batch) (m n : Nat) (key : AttributeKey) (j : Nat) : Option Label :=
  b.records[j]?.map fun r => ⟨b.claims m key j, r.rename (shift m (n - m))⟩

theorem Batch.isSome_label? {b : Batch} {m n : Nat} {key : AttributeKey} {j : Nat} :
    (b.label? m n key j).isSome = true ↔ j < b.records.length := by
  rw [label?, Option.isSome_map, isSome_getElem?]

theorem Batch.label?_eq {b : Batch} {m n : Nat} {key : AttributeKey} {j : Nat}
    (hj : j < b.records.length) :
    b.label? m n key j = some ⟨b.claims m key j, b.records[j].rename (shift m (n - m))⟩ := by
  rw [label?, List.getElem?_eq_getElem hj, Option.map_some]

theorem Batch.record?_eq_some {b : Batch} {i : RecordId} :
    b.record? = some i ↔ b.ending = .ok (.record i) := by
  rw [record?]
  rcases b.ending with _ | v
  · exact ⟨nofun, nofun⟩
  · cases v <;> simp [Value.record?]

/-- A record that an attribute comes to is the one that the call hands out. -/
theorem Batch.outcomeAt_eq_record {b : Batch} {m n : Nat} {i : RecordId} :
    b.outcomeAt m n = .ok (.record i) ↔ ∃ i', b.record? = some i' ∧ i = shift m (n - m) i' := by
  simp only [record?_eq_some, outcomeAt]
  cases b.ending with
  | error x =>
    constructor
    · intro h
      cases h
    · rintro ⟨i', h, -⟩
      cases h
  | ok v =>
    constructor
    · intro h
      -- renaming keeps the constructor, so only a record gives a record
      cases v with
      | record i' => exact ⟨i', rfl, (Value.record.inj (Except.ok.inj h)).symm⟩
      | _ => cases h
    · rintro ⟨i', h, rfl⟩
      cases h
      rfl

/-- The call hands out a record that was there in the beginning, or a new one. -/
theorem Batch.Bounded.of_record? {b : Batch} {m : Nat} (h : b.Bounded m) {i : RecordId}
    (hi : b.record? = some i) : i < m ∨ ∃ j < b.records.length, i = m + j := by
  have hlt := h.ending _ (Batch.record?_eq_some.mp hi) i (List.mem_singleton_self i)
  -- what lies behind the first `m` is in the batch, by its place
  by_cases hold : i < m
  · exact Or.inl hold
  · obtain ⟨j, rfl⟩ := Nat.exists_eq_add_of_le (Nat.le_of_not_lt hold)
    exact Or.inr ⟨j, Nat.lt_of_add_lt_add_left hlt, rfl⟩

section CopyBatch

variable {ρ : RecordId → RecordId} {b : Batch} {m size n : Nat}

/-- The numbers of one batch in two stores. -/
theorem extend_shift (hold : ∀ b < m, ρ b = b) (hsize : m ≤ size) (hn : m ≤ n) (i : Nat) :
    extend ρ size n (shift m (size - m) i) = shift m (n - m) i := by
  -- an old number is left alone on both sides, a new one goes by its place in the batch
  by_cases h : i < m
  · rw [shift_of_lt h, shift_of_lt h, extend_of_lt (Nat.lt_of_lt_of_le h hsize)]
    exact hold i h
  · have h := Nat.le_of_not_lt h
    have hindex : ∀ k, m ≤ k → i + (k - m) = k + (i - m) := fun k hk => by omega
    rw [shift_of_le h, shift_of_le h, hindex size hsize, hindex n hn, extend_add]

theorem Batch.outcomeAt_extend (hold : ∀ b < m, ρ b = b) (hsize : m ≤ size) (hn : m ≤ n) :
    b.outcomeAt m n = Outcome.rename (extend ρ size n) (b.outcomeAt m size) := by
  rw [outcomeAt, outcomeAt]
  cases contain (b.ending.mapError Stop.panic) with
  | error e => rfl
  | ok v =>
    refine congrArg Except.ok ?_
    rw [Value.rename_rename]
    exact Value.rename_congr fun i _ => (extend_shift hold hsize hn i).symm

theorem Batch.record_extend (hold : ∀ b < m, ρ b = b) (hsize : m ≤ size) (hn : m ≤ n) (r : Record) :
    r.rename (shift m (n - m)) = (r.rename (shift m (size - m))).rename (extend ρ size n) := by
  rw [Record.rename_rename]
  exact Record.rename_congr fun i _ => (extend_shift hold hsize hn i).symm

/-- **What was made in one call is copied** by calling the constructor again. -/
theorem Store.Copies.copy_batch {τ : RecordId → Option Label} {s t : Store} (h : Copies m ρ τ s t)
    {call : Store → Except Panic Value × Store} (hb : b.Describes m call)
    (hlabels : ∀ j < b.records.length, (τ (n + j)).isSome = true) :
    Copies m (extend ρ t.size n) τ s (call t).2 := by
  have hadds := hb.adds t h.size
  have hlength := b.length_recordsAt m t.size
  -- all records of the batch have labels, so nothing is asked of their contents
  refine h.copy hadds (fun j hj => ?_) (fun record hrecord i hi => ?_)
    (fun j hj => Or.inr (hlabels j (hlength ▸ hj))) (fun j hj _ i hi => ?_) fun j hj hnone => ?_
  · exact h.lt_of_isSome (hlabels j (hlength ▸ hj))
  · exact hb.lt_size h.size (hb.bounded.of_recordsAt h.size hrecord hi)
  · refine (hb.bounded.of_recordsAt h.size (List.getElem_mem hj) hi).imp_right fun ⟨hle, hlt⟩ => ?_
    obtain ⟨j', rfl⟩ := Nat.exists_eq_add_of_le hle
    exact ⟨j', rfl, hlabels j' (Nat.lt_of_add_lt_add_left hlt)⟩
  · have hlabel := hlabels j (hlength ▸ hj)
    rw [hnone] at hlabel
    cases hlabel

end CopyBatch

/-! ### The invariant -/

/-- An attribute has come to what a constructor does, with its records behind the first `n`. -/
structure Batch.AnswersAt (b : Batch) (m n : Nat) (τ : RecordId → Option Label) (key : AttributeKey)
    (h : Hook Store Stop Value) (o : Outcome Value) : Prop where
  asks : ∃ call, h.Asks call ∧ b.Describes m call
  le : m ≤ n
  labels : ∀ j < b.records.length, τ (n + j) = b.label? m n key j
  outcome : o = b.outcomeAt m n

/-- **A pass whose records are copies** of those of another pass. All references are resolved against
one base, `anchor`. -/
structure Pass.Copies (base anchor : Option Locator) (m : Nat) (ρ : RecordId → RecordId)
    (τ : RecordId → Option Label) (p q : Pass) : Prop where
  renames : p.Renames ρ q
  stores : Store.Copies m ρ τ p.store q.store
  base : p.base = base
  provides : ∀ v, p.environment.symbols.Provides v → ∀ i ∈ v.records, i < m
  steady : ∀ maker, p.environment.symbols.Offers maker → p.environment.calls.Steady m maker
  refers : ∀ i, q.Refers i → i < q.store.size
  bases : ∀ key k, p.coercions.get? key = some k → k.base = anchor
  /-- What attributes have come to was there before, or a constructor has made it. -/
  answered : ∀ key k o, p.coercions.get? key = some k → k.outcome? = some o →
    (∃ ending, (k.hooks p.environment).Ends ending ∧ Reading.Gives p.environment ending ∧
      o = contain ending) ∨ ∃ (b : Batch) (n : Nat), b.AnswersAt m n τ key (k.hooks p.environment) o
  labelled : ∀ a label, τ a = some label → p.Dressed a label.made
  copied : ∀ b < q.store.size, ∀ label, τ (ρ b) = some label → ∃ made : Record,
    label.made = made.rename ρ ∧ (∀ i ∈ made.records, i < q.store.size) ∧ q.Dressed b made ∧
      (label.claimed = true → q.Claims b)
  /-- What scalars have for their values was there in the beginning, or a constructor has handed it
  out to them. -/
  bears : ∀ i, q.Bears i → i < m ∨ ∃ label, τ (ρ i) = some label ∧ label.claimed = true

namespace Pass.Copies

variable {base anchor : Option Locator} {m : Nat} {ρ : RecordId → RecordId}
  {τ : RecordId → Option Label} {p q p' q' : Pass}

/-- Steps that leave records and attributes alone, and what elements stand for. -/
theorem quiet (h : p.Copies base anchor m ρ τ q) (hrenames : p'.Renames ρ q')
    (hstore : p'.store = p.store) (hstore' : q'.store = q.store)
    (hcoercions : p'.coercions = p.coercions) (hbase : p'.base = p.base)
    (henvironment : p'.environment = p.environment)
    (hrefers : ∀ i, q'.Refers i → i < m ∨ q.Refers i)
    (hstands : ∀ n i, q'.Stands n i ↔ q.Stands n i) (hclaims : ∀ i, q.Claims i → q'.Claims i)
    (hbears : ∀ i, q'.Bears i → i < m ∨ q.Bears i) : p'.Copies base anchor m ρ τ q' where
  renames := hrenames
  stores := by
    rw [hstore, hstore']
    exact h.stores
  base := hbase.trans h.base
  provides := henvironment ▸ h.provides
  steady := henvironment ▸ h.steady
  refers i hi := by
    rw [hstore']
    rcases hrefers i hi with hold | hi
    · exact Nat.lt_of_lt_of_le hold h.stores.size
    · exact h.refers i hi
  bases := hcoercions ▸ h.bases
  answered := by
    rw [hcoercions, henvironment]
    exact h.answered
  -- neither the record nor what stands for it has changed
  labelled a label hτ := by
    refine (h.labelled a label hτ).congr (fun n => ?_) (by rw [hstore])
    rw [hrenames.stands, h.renames.stands]
    simp only [hstands]
  -- claims may be added, but none is given up
  copied b hb label hτ := by
    rw [hstore'] at hb ⊢
    obtain ⟨made, hmade, hrecords, hdressed, hclaimed⟩ := h.copied b hb label hτ
    exact ⟨made, hmade, hrecords, hdressed.congr (hstands · b) (by rw [hstore']),
      fun hc => hclaims b (hclaimed hc)⟩
  bears i hi := (hbears i hi).elim Or.inl (h.bears i)

theorem remember (h : p.Copies base anchor m ρ τ q) (call : HookCall) (noted : Bool) :
    (p.remember call noted).Copies base anchor m ρ τ (q.remember call noted) :=
  h.quiet (h.renames.frame _ _ _ _ _ _) rfl rfl rfl rfl rfl (fun _ => Or.inr) (fun _ _ => Iff.rfl)
    (fun _ => id) fun _ => Or.inr

theorem report (h : p.Copies base anchor m ρ τ q) (d : Diagnostic) :
    (p.report d).Copies base anchor m ρ τ (q.report d) :=
  h.quiet (h.renames.report d) rfl rfl rfl rfl rfl (fun _ => Or.inr) (fun _ _ => Iff.rfl)
    (fun _ => id) fun _ => Or.inr

theorem adopt (h : p.Copies base anchor m ρ τ q) (parent child : NodeId) :
    (p.adopt parent child).Copies base anchor m ρ τ (q.adopt parent child) :=
  h.quiet (h.renames.adopt parent child) rfl rfl rfl rfl rfl
    (fun _ ⟨v, hv, hi⟩ => Or.inr ⟨v, Pass.knows_of_adopt hv, hi⟩)
    (fun _ _ => Pass.stands_modify fun _ => rfl)
    (fun _ hclaims => hclaims.modify fun _ _ hc => ⟨hc.kind, hc.value, hc.outcome⟩)
    fun _ => Pass.bears_of_modify fun _ _ => Or.inr

theorem start (h : p.Copies base anchor m ρ τ q) {r : Rule} {e : Element}
    (hnone : p.constructions.get? e.id = none) :
    (p.start r e).Copies base anchor m ρ τ (q.start r e) := by
  have hnone' := h.renames.absent.mpr hnone
  exact h.quiet (h.renames.start r e) rfl rfl rfl rfl rfl
    (fun _ ⟨v, hv, hi⟩ => Or.inr ⟨v, Pass.knows_of_start hv, hi⟩)
    (fun _ _ => Pass.stands_start hnone') (fun _ hclaims => hclaims.start hnone')
    fun _ hi => Or.inr (Pass.bears_of_start hi)

/-- An element takes an old value for an attribute. -/
theorem setValue (h : p.Copies base anchor m ρ τ q) {r : Rule} {e : Element} {k : Construction}
    (ho : p.Opens r e k) {name : String} (hnone : k.values.get? name = none) {v : Value}
    (hv : ∀ i ∈ v.records, i < m) :
    (p.setValue e.id name (v.rename ρ)).Copies base anchor m ρ τ (q.setValue e.id name v) := by
  obtain ⟨k', ho', rfl⟩ := h.renames.opens ho
  rw [Construction.rename, OrderedMap.get?_map, Option.map_eq_none_iff] at hnone
  refine h.quiet (h.renames.setValue e.id name v) rfl rfl rfl rfl rfl (fun i hi => ?_)
    (fun _ _ => Pass.stands_setValue)
    (fun _ hclaims => hclaims.setValue ho'.get hnone v) fun i hi => ?_
  · -- what is known besides the value was known before
    obtain ⟨w, hw, hi⟩ := hi
    rcases Pass.knows_of_setValue hw with rfl | hw
    · exact Or.inl (hv i hi)
    · exact Or.inr ⟨w, hw, hi⟩
  · -- an old record may become the value of a scalar, which needs no label
    rcases Pass.bears_of_setValue hi with ⟨-, rfl⟩ | hi
    · exact Or.inl (hv i (List.mem_singleton_self i))
    · exact Or.inr hi

theorem take (h : p.Copies base anchor m ρ τ q) {r : Rule} {e : Element} {k : Construction}
    (ho : p.Opens r e k) {name : String} (hnone : k.values.get? name = none) {ending : Except Stop Value}
    (hgives : Reading.Gives p.environment ending) :
    (p.take e name (contain ending)).Copies base anchor m ρ τ (q.take e name (contain ending)) := by
  cases ending with
  | error stop => cases stop <;> exact h.report _
  | ok v =>
    -- what is given was read, or is a value of the namespace: it has old records only
    have hv : ∀ i ∈ v.records, i < m := by
      intro i hi
      rcases hgives v rfl with hnil | hprovides
      · rw [hnil] at hi
        exact absurd hi List.not_mem_nil
      · exact h.provides v (Or.inl hprovides) i hi
    have hset := h.setValue ho hnone hv
    -- and old records are copies of themselves
    rw [Value.rename_eq_self fun i hi => h.stores.old i (hv i hi)] at hset
    exact hset

/-! ### Attributes -/

/-- What is known of attributes in the second pass may be forgotten. -/
theorem forget (h : p.Copies base anchor m ρ τ q) :
    p.Copies base anchor m ρ τ { q with coercions := .empty } := by
  refine h.quiet (h.renames.frame _ _ _ _ _ _) rfl rfl rfl rfl rfl (fun i ⟨v, hv, hi⟩ => ?_)
    (fun _ _ => Iff.rfl) (fun _ => id) fun _ => Or.inr
  -- less is known, as nothing is known from attributes any more
  rcases hv with hconstruction | ⟨_, _, hk, -⟩
  · exact Or.inr ⟨v, Or.inl hconstruction, hi⟩
  · cases hk

theorem bases_answer (h : p.Copies base anchor m ρ τ q) {key : AttributeKey} {k : Coercion}
    (hbase : k.base = anchor) (run : Except Stop Value × Store) :
    ∀ key' k', (p.answer key k run).coercions.get? key' = some k' → k'.base = anchor := by
  intro key' k' hk'
  rw [Pass.answer, OrderedMap.get?_insert] at hk'
  -- the attribute that is answered, or another one
  split at hk'
  · cases hk'
    exact hbase
  · exact h.bases key' k' hk'

/-- In the first pass an attribute comes to something that was there before. -/
theorem settle_given (h : p.Copies base anchor m ρ τ q) {key : AttributeKey} {k : Coercion}
    (hbase : k.base = anchor) {ending : Except Stop Value}
    (hends : (k.hooks p.environment).Ends ending) (hgives : Reading.Gives p.environment ending)
    (calls : List (HookCall × Bool)) :
    ({ p.answer key k (ending, p.store) with calls := calls }).Copies base anchor m ρ τ q where
  renames := h.renames.frame _ _ _ _ _ _
  stores := h.stores
  base := h.base
  provides := h.provides
  steady := h.steady
  refers := h.refers
  bases := h.bases_answer hbase _
  answered key' k' o hk' ho := by
    rw [Pass.answer, OrderedMap.get?_insert] at hk'
    -- what is answered now was given, all else is as before
    split at hk'
    · cases hk'
      exact Or.inl ⟨ending, hends, hgives, (Option.some.inj ho).symm⟩
    · exact h.answered key' k' o hk' ho
  labelled a label hτ := (h.labelled a label hτ).congr (fun _ => Iff.rfl) rfl
  copied := h.copied
  bears := h.bears

/-- No element of the first pass stands for a record that is not there yet. -/
theorem lt_of_stands (h : p.Copies base anchor m ρ τ q) {n : Element} {a : RecordId}
    (hn : p.Stands n a) : a < p.store.size := by
  -- the other pass knows of the copy, and what is known is in the store
  obtain ⟨b, hb, rfl⟩ := h.renames.stands.mp hn
  exact h.stores.bounds b (h.refers b hb.bears.refers)

/-- The labels when the records of a batch were added behind the first `n`. -/
def relabel (τ : RecordId → Option Label) (b : Batch) (m n : Nat) (key : AttributeKey) (a : RecordId) :
    Option Label :=
  if a < n then τ a else b.label? m n key (a - n)

theorem relabel_add (τ : RecordId → Option Label) (b : Batch) (m n : Nat) (key : AttributeKey)
    (j : Nat) : relabel τ b m n key (n + j) = b.label? m n key j := by
  rw [relabel, if_neg (Nat.not_lt.mpr (Nat.le_add_right n j)), Nat.add_sub_cancel_left]

/-- In the first pass a constructor is called for an attribute. -/
theorem settle_made (h : p.Copies base anchor m ρ τ q) {key : AttributeKey} {k : Coercion}
    (hbase : k.base = anchor) {call : Store → Except Panic Value × Store}
    (hasks : (k.hooks p.environment).Asks call) {b : Batch} (hb : b.Describes m call)
    (hm : m ≤ p.store.size) (calls : List (HookCall × Bool)) :
    ({ p.answer key k ((call p.store).1.mapError Stop.panic, (call p.store).2) with
      calls := calls }).Copies base anchor m ρ (relabel τ b m p.store.size key) q := by
  have hadds := hb.adds p.store hm
  have hlength := b.length_recordsAt m p.store.size
  have hsame : ∀ a < p.store.size, relabel τ b m p.store.size key a = τ a := fun a ha => if_pos ha
  have hself := relabel_add τ b m p.store.size key
  have hcases : ∀ a label, relabel τ b m p.store.size key a = some label →
      (a < p.store.size ∧ τ a = some label) ∨
        ∃ j, a = p.store.size + j ∧ b.label? m p.store.size key j = some label := by
    intro a label hτ
    -- an old label, or one of the batch
    by_cases ha : a < p.store.size
    · exact Or.inl ⟨ha, (hsame a ha).symm.trans hτ⟩
    · obtain ⟨j, rfl⟩ := Nat.exists_eq_add_of_le (Nat.le_of_not_lt ha)
      exact Or.inr ⟨j, rfl, (hself j).symm.trans hτ⟩
  refine ⟨h.renames.frame _ _ _ _ _ _, ?stores, h.base, h.provides, h.steady, h.refers,
    h.bases_answer hbase _, ?answered, ?labelled, ?copied, ?bears⟩
  case stores =>
    -- nothing is copied yet: the second pass follows in `copy`
    refine h.stores.grow hadds hsame fun a label hτ => ?_
    rcases hcases a label hτ with ⟨ha, -⟩ | ⟨j, rfl, hlabel⟩
    · exact Nat.lt_of_lt_of_le ha hadds.size_le
    · have hj := Batch.isSome_label?.mp (Option.isSome_iff_exists.mpr ⟨label, hlabel⟩)
      refine Nat.lt_of_lt_of_eq (Nat.add_lt_add_left hj _) ?_
      exact (hlength ▸ hadds.size).symm
  case answered =>
    intro key' k' o hk' ho
    rw [Pass.answer, OrderedMap.get?_insert] at hk'
    split at hk'
    · -- the attribute itself, which is answered by the batch
      next heq =>
      cases hk'
      subst heq
      exact Or.inr ⟨b, p.store.size, ⟨call, hasks, hb⟩, hm, fun j _ => hself j,
        (Option.some.inj ho).symm.trans (hb.outcome hm)⟩
    · refine (h.answered key' k' o hk' ho).imp_right ?_
      rintro ⟨b', n, hanswers⟩
      refine ⟨b', n, { hanswers with labels := fun j hj => ?_ }⟩
      -- what has a label is there already
      have hlabel := hanswers.labels j hj
      have hsome : (τ (n + j)).isSome = true := hlabel ▸ Batch.isSome_label?.mpr hj
      exact (hsame _ (h.stores.lt_of_isSome hsome)).trans hlabel
  case labelled =>
    intro a label hτ
    rcases hcases a label hτ with ⟨ha, hτ⟩ | ⟨j, rfl, hlabel⟩
    · exact (h.labelled a label hτ).congr (fun _ => Iff.rfl) (hadds.old a ha)
    · -- the new record is as it was made, and no element has it for its value yet
      have hj := Batch.isSome_label?.mp (Option.isSome_iff_exists.mpr ⟨label, hlabel⟩)
      rw [Batch.label?_eq hj] at hlabel
      cases hlabel
      refine .of_get ?_ fun n hn => absurd (h.lt_of_stands hn) ?_
      · exact (hadds.new j (hlength.symm ▸ hj)).trans (Batch.getElem_recordsAt _)
      · exact Nat.not_lt.mpr (Nat.le_add_right _ _)
  case copied =>
    intro b' hb' label hτ
    -- copies are of old records, whose labels are the same
    rw [hsame _ (h.stores.bounds b' hb')] at hτ
    exact h.copied b' hb' label hτ
  case bears =>
    intro i hi
    rw [hsame _ (h.stores.bounds i (h.refers i hi.refers))]
    exact h.bears i hi

/-- In the second pass an attribute comes to something that was there before. -/
theorem answer_given (h : p.Copies base anchor m ρ τ q) (key : AttributeKey) (k : Coercion)
    {ending : Except Stop Value} (hgives : Reading.Gives p.environment ending)
    (calls : List (HookCall × Bool)) :
    p.Copies base anchor m ρ τ { q.answer key k (ending, q.store) with calls := calls } := by
  refine h.quiet (h.renames.frame _ _ _ _ _ _) rfl rfl rfl rfl rfl (fun i ⟨v, hv, hi⟩ => ?_)
    (fun _ _ => Iff.rfl) (fun _ => id) fun _ => Or.inr
  -- the answer may be known now, and its records are old
  rcases Pass.knows_of_answer hv with ho | hv
  · rcases hgives v (contain_eq_ok ho) with hnil | hprovides
    · rw [hnil] at hi
      exact absurd hi List.not_mem_nil
    · exact Or.inl (h.provides v (Or.inl hprovides) i hi)
  · exact Or.inr ⟨v, hv, hi⟩

/-- **What a constructor has made is copied.** In the second pass the constructor is called again, and
the element takes what it hands out. -/
theorem copy (h : p.Copies base anchor m ρ τ q) {r : Rule} {e : Element} {k : Construction}
    (ho : p.Opens r e k) {key : AttributeKey} {b : Batch} {n : Nat} (hmn : m ≤ n)
    (hlabels : ∀ j < b.records.length, τ (n + j) = b.label? m n key j)
    {call : Store → Except Panic Value × Store} (hb : b.Describes m call)
    (hnone : k.values.get? key.name = none) (hdata : key.name = "value" → r = .data) (k' : Coercion)
    (calls : List (HookCall × Bool)) :
    (p.take e key.name (b.outcomeAt m n)).Copies base anchor m (extend ρ q.store.size n) τ
      (Pass.take { q.answer key k' ((call q.store).1.mapError Stop.panic, (call q.store).2) with
        calls := calls } e key.name (b.outcomeAt m q.store.size)) := by
  -- the copies are numbered by `extend`: old ones stay, new ones go by their place in the batch
  have hm := h.stores.size
  have hadds := hb.adds q.store hm
  have hsame : ∀ c < q.store.size, extend ρ q.store.size n c = ρ c := fun c hc => extend_of_lt hc
  have hbound : ∀ i, i < m ∨ q.store.size ≤ i ∧ i < q.store.size + b.records.length →
      i < (call q.store).2.size := fun i => hb.lt_size hm
  obtain ⟨d, hd, rfl⟩ := h.renames.opens ho
  rw [Construction.rename, OrderedMap.get?_map, Option.map_eq_none_iff] at hnone
  -- both passes come to the same, with the numbers of the copies
  have hrenames := ((h.renames.congr fun i hi => (hsame i (h.refers i hi)).symm).frame p.store
    (call q.store).2 p.calls calls p.coercions (q.answer key k'
      ((call q.store).1.mapError Stop.panic, (call q.store).2)).coercions).take e key.name
        (b.outcomeAt m q.store.size)
  rw [← Batch.outcomeAt_extend h.stores.old hm hmn] at hrenames
  change (p.take e key.name (b.outcomeAt m n)).Renames (extend ρ q.store.size n) (Pass.take
    { q.answer key k' ((call q.store).1.mapError Stop.panic, (call q.store).2) with calls := calls }
    e key.name (b.outcomeAt m q.store.size)) at hrenames
  obtain ⟨hstore, hcoercions, hbase, henvironment⟩ := p.frame_take e key.name (b.outcomeAt m n)
  generalize hanswered : ({ q.answer key k' ((call q.store).1.mapError Stop.panic, (call q.store).2)
    with calls := calls } : Pass) = q' at hrenames ⊢
  have hopens : q'.Opens r e d := hanswered ▸ hd.congr rfl
  have hconstructions : q'.constructions = q.constructions := hanswered ▸ rfl
  have hstands : ∀ n i, q'.Stands n i ↔ q.Stands n i := fun n i => by
    rw [Pass.Stands, Pass.Stands, hconstructions]
  have hstore' : (q'.take e key.name (b.outcomeAt m q.store.size)).store = (call q.store).2 :=
    (q'.frame_take _ _ _).1.trans (hanswered ▸ rfl)
  refine ⟨hrenames, ?stores, hbase.trans h.base, henvironment ▸ h.provides, henvironment ▸ h.steady,
    fun i hi => ?refers, hcoercions ▸ h.bases, ?answered,
    fun a label hτ => ?labelled, fun c hc label hτ => ?copied, fun i hi => ?bears⟩
  case stores =>
    rw [hstore, hstore']
    exact h.stores.copy_batch hb fun j hj => hlabels j hj ▸ Batch.isSome_label?.mpr hj
  case refers =>
    obtain ⟨v, hv, hi⟩ := hi
    rw [hstore']
    -- known is what the element takes, what the attribute has come to, and what was known
    rcases Pass.knows_of_take hv with hout | hv
    · exact hbound i (hb.bounded.of_outcomeAt hm hout hi)
    · subst hanswered
      rcases Pass.knows_of_answer hv with hout | hv
      · exact hbound i (hb.bounded.of_outcomeAt hm ((hb.outcome hm).symm.trans hout) hi)
      · exact Nat.lt_of_lt_of_le (h.refers i ⟨v, hv, hi⟩) hadds.size_le
  case answered =>
    rw [hcoercions, henvironment]
    exact h.answered
  case labelled =>
    exact (h.labelled a label hτ).congr (fun _ => Pass.stands_take) (by rw [hstore])
  case copied =>
    rw [hstore'] at hc ⊢
    -- an old copy has lost nothing
    rcases hadds.cases hc with hold | ⟨j, hj, rfl⟩
    · rw [hsame c hold] at hτ
      obtain ⟨made, hmade, hrecords, hdressed, hclaimed⟩ := h.copied c hold label hτ
      refine ⟨made, hmade.trans (rename_extend hrecords).symm, fun i hi =>
        Nat.lt_of_lt_of_le (hrecords i hi) hadds.size_le, hdressed.congr (fun n =>
          Pass.stands_take.trans (hstands n c)) ?_, fun hlabel => ?_⟩
      · rw [hstore', hadds.old c hold]
      · obtain ⟨id, c', hget, hclaims⟩ := hclaimed hlabel
        exact Pass.Claims.take ⟨id, c', hconstructions ▸ hget, hclaims⟩ hopens.get hnone _
    · -- a new copy is as its record was made, and no element has it for its value yet
      have hj' : j < b.records.length := b.length_recordsAt m q.store.size ▸ hj
      rw [extend_add, hlabels j hj', Batch.label?_eq hj'] at hτ
      cases hτ
      refine ⟨(b.recordsAt m q.store.size)[j], ?_, fun i hi =>
        hbound i (hb.bounded.of_recordsAt hm (List.getElem_mem hj) hi),
        .of_get (hstore' ▸ hadds.new j hj) fun n hn => ?_, fun hclaimed => ?_⟩
      · rw [Batch.getElem_recordsAt]
        exact Batch.record_extend h.stores.old hm hmn _
      · have hn := h.refers _ ((hstands n _).mp (Pass.stands_take.mp hn)).bears.refers
        exact Nat.not_lt.mpr (Nat.le_add_right _ _) hn
      · -- it is claimed, so it is handed out, and the scalar takes it in this very step
        obtain ⟨hvalue, hrecord⟩ := of_decide_eq_true hclaimed
        obtain rfl := hdata hvalue
        have hindex : m + j + (q.store.size - m) = q.store.size + j := by omega
        rw [Batch.outcomeAt_eq_record.mpr ⟨_, hrecord, rfl⟩, shift_of_le (Nat.le_add_right m j), hindex,
          hvalue]
        exact Pass.claims_setValue hopens _
  case bears =>
    rcases Pass.bears_of_take hi with ⟨hvalue, hout⟩ | ⟨id, c, hget, hbears⟩
    · -- the record that the call has handed out
      obtain ⟨i', hrecord, rfl⟩ := Batch.outcomeAt_eq_record.mp hout
      rcases hb.bounded.of_record? hrecord with hold | ⟨j, hj, rfl⟩
      · exact Or.inl (by rwa [shift_of_lt hold])
      · have hplace : shift m (n - m) (m + j) = n + j :=
          (shift_of_le (Nat.le_add_right m j)).trans (by omega)
        rw [extend_shift h.stores.old hm hmn, hplace]
        exact Or.inr ⟨_, (hlabels j hj).trans (Batch.label?_eq hj), decide_eq_true ⟨hvalue, hrecord⟩⟩
    · have hbears : q.Bears i := ⟨id, c, hconstructions ▸ hget, hbears⟩
      rw [hsame i (h.refers i hbears.refers)]
      exact h.bears i hbears

/-- The attribute has come to something before. In the second pass it comes to the same anew, or to a
copy. -/
theorem take_again (h : p.Copies base anchor m ρ τ q) {r : Rule} {e : Element} {k : Construction}
    (ho : p.Opens r e k) {key : AttributeKey} (hnone : k.values.get? key.name = none)
    (hdata : key.name = "value" → r = .data) {a : Coercion} (ha : p.coercions.get? key = some a)
    {o : Outcome Value} (hsettled : a.outcome? = some o) (k' : Coercion)
    (calls : List (HookCall × Bool)) :
    ∃ ρ', (p.take e key.name o).Copies base anchor m ρ' τ
      ({ q.answer key k' (Hook.exec (a.hooks p.environment) q.store) with calls := calls }.take e
        key.name (contain (Hook.exec (a.hooks p.environment) q.store).1)) := by
  -- what was given is given again, what was made is made again behind the other records
  rcases h.answered key a o ha hsettled with ⟨ending, hends, hgives, rfl⟩ | ⟨b, n, hanswers⟩
  · rw [hends]
    exact ⟨ρ, (h.answer_given key k' hgives calls).take ho hnone hgives⟩
  · obtain ⟨call, hasks, hb⟩ := hanswers.asks
    rw [hasks, hb.outcome h.stores.size, hanswers.outcome]
    exact ⟨_, h.copy ho hanswers.le hanswers.labels hb hnone hdata k' calls⟩

/-- The attribute comes to something in both passes. What a constructor makes in the first one is
copied at once. -/
theorem take_first (h : p.Copies base anchor m ρ τ q) {r : Rule} {e : Element} {k : Construction}
    (ho : p.Opens r e k) {key : AttributeKey} (hnone : k.values.get? key.name = none)
    (hdata : key.name = "value" → r = .data) {a : Coercion} {reading : Reading}
    (hkind : a.kind = reading.kind) (hbase : a.base = anchor) (k' : Coercion)
    (calls calls' : List (HookCall × Bool)) :
    ∃ ρ' τ', ({ p.answer key a (Hook.exec (a.hooks p.environment) p.store) with
        calls := calls }.take e key.name
          (contain (Hook.exec (a.hooks p.environment) p.store).1)).Copies base anchor m ρ' τ'
      ({ q.answer key k' (Hook.exec (a.hooks p.environment) q.store) with calls := calls' }.take e
        key.name (contain (Hook.exec (a.hooks p.environment) q.store).1)) := by
  rcases Reading.hooks_cases p.environment hkind with ⟨ending, hends, hgives⟩ |
    ⟨maker, -, hoffers, hasks⟩
  · -- nothing is made
    rw [hends, hends]
    have hleft : ({ p.answer key a (ending, p.store) with calls := calls }).Copies base anchor m ρ τ q :=
      h.settle_given hbase hends hgives calls
    exact ⟨ρ, τ, (hleft.answer_given key k' hgives calls').take (ho.congr rfl) hnone hgives⟩
  · -- the batch is the same in both stores, but stands at different places
    obtain ⟨b, hb⟩ := h.steady maker hoffers
    have hleft : ({ p.answer key a ((p.environment.calls.run maker p.store).1.mapError Stop.panic,
        (p.environment.calls.run maker p.store).2) with calls := calls }).Copies base anchor m ρ
          (relabel τ b m p.store.size key) q := h.settle_made hbase hasks hb h.stores.size_le calls
    rw [hasks, hasks, hb.outcome h.stores.size, hb.outcome h.stores.size_le]
    exact ⟨_, _, hleft.copy (ho.congr rfl) h.stores.size_le (fun j _ => relabel_add _ _ _ _ _ j) hb hnone
      hdata k' calls'⟩

/-! ### Elements -/

/-- An element gets its value in both passes, if the records go along. -/
theorem conclude_of (h : p.Copies base anchor m ρ τ q) {r : Rule} {e : Element} {k : Construction}
    (ho : p.Opens r e k) (hspelled : k.Spelled r e) {ρ' : RecordId → RecordId}
    (hsame : ∀ b < q.store.size, ρ' b = ρ b)
    (hstores : Store.Copies m ρ' τ (p.makes r e).2 (q.makes r e).2)
    (hvalue : (p.makes r e).1 = (q.makes r e).1.rename ρ')
    (hrecords : ∀ i ∈ (q.makes r e).1.records, i < (q.makes r e).2.size)
    (hsize : q.store.size ≤ (q.makes r e).2.size)
    (hnew : ∀ b < (q.makes r e).2.size, q.store.size ≤ b → τ (ρ' b) = none) :
    (p.conclude r e).Copies base anchor m ρ' τ (q.conclude r e) := by
  obtain ⟨k', ho', rfl⟩ := h.renames.opens ho
  have hspelled' := hspelled.of_rename
  refine ⟨?renames, hstores, h.base, h.provides, h.steady, fun i ⟨v, hv, hi⟩ => ?refers, h.bases,
    h.answered, fun a label hτ => ?labelled, fun b hb label hτ => ?copied, fun i hi => ?bears⟩
  case renames =>
    have hrenames := (h.renames.congr fun i hi => (hsame i (h.refers i hi)).symm).frame
      (p.makes r e).2 (q.makes r e).2 p.calls q.calls p.coercions q.coercions
    rw [Pass.conclude, Pass.conclude, hvalue]
    exact hrenames.settle e.id (.ok (q.makes r e).1)
  case refers =>
    rcases Pass.knows_of_settle hv with rfl | hv
    · exact hrecords i hi
    · exact Nat.lt_of_lt_of_le (h.refers i ⟨v, hv, hi⟩) hsize
  case labelled =>
    exact (h.labelled a label hτ).conclude ho hspelled (h.stores.labels a _ hτ)
  -- old copies stay what they are, and no new one has a label
  case copied =>
    -- a record that the element has just got was not made for an attribute
    by_cases hold : b < q.store.size
    · rw [hsame b hold] at hτ
      obtain ⟨made, hmade, hrecords, hdressed, hclaimed⟩ := h.copied b hold label hτ
      refine ⟨made, hmade.trans ?_, fun i hi => Nat.lt_of_lt_of_le (hrecords i hi) hsize,
        hdressed.conclude ho' hspelled' hold, fun hlabel => (hclaimed hlabel).conclude ho'⟩
      exact Record.rename_congr fun i hi => (hsame i (hrecords i hi)).symm
    · rw [hnew b hb (Nat.le_of_not_lt hold)] at hτ
      cases hτ
  case bears =>
    have hi := Pass.bears_of_conclude ho' hi
    rw [hsame i (h.refers i hi.refers)]
    exact h.bears i hi

/-- **An element gets its value** in both passes. -/
theorem conclude (h : p.Copies base anchor m ρ τ q) {r : Rule} {e : Element} {k : Construction}
    (ho : p.Opens r e k) (hspelled : k.Spelled r e) :
    ∃ ρ', (p.conclude r e).Copies base anchor m ρ' τ (q.conclude r e) := by
  have hnone : ∀ b < q.store.size, q.store.size ≤ b → τ (ρ b) = none :=
    fun b hb hle => absurd hb (Nat.not_lt_of_le hle)
  cases h.renames.makesAlike r e with
  | @written i hr hv hq hp =>
    -- the scalar writes into its record, and in the second pass into the copy that it has
    subst hr
    obtain ⟨k', ho', rfl⟩ := h.renames.opens ho
    have hvalues : q.values e.id = k'.values := Pass.values_eq ho'.get
    have hi : i < q.store.size :=
      h.refers i ⟨_, Pass.knows_of_values (OrderedMap.mem_entries_of_get? hv),
        List.mem_singleton_self i⟩
    refine ⟨ρ, h.conclude_of ho hspelled (fun _ _ => rfl) ?_ ?_ ?_ ?_ ?_⟩
    · rw [hp, hq]
      refine h.stores.modify hi (fun record => ?_) fun record b hb => ?_
      · rw [h.renames.values]
        exact Record.rename_scalar ρ _ record
      · rw [hvalues] at hv hb
        exact mem_records_scalar hspelled.of_rename hv hb
    · rw [hp, hq]
      rfl
    · rw [hq, Store.size_modify]
      exact fun j hj => List.mem_singleton.mp hj ▸ hi
    · exact Nat.le_of_eq (by rw [hq, Store.size_modify])
    · rw [hq, Store.size_modify]
      exact hnone
  -- the scalar has a value that is no record, or none, and keeps it
  | kept _ _ hrecords hq hp =>
    refine ⟨ρ, h.conclude_of ho hspelled (fun _ _ => rfl) ?_ ?_ ?_ ?_ ?_⟩
    · rw [hp, hq]
      exact h.stores
    · rw [hp, hq]
    · rw [hq]
      exact fun i hi => h.refers i (hrecords i hi)
    · exact Nat.le_of_eq (by rw [hq])
    · rw [hq]
      exact hnone
  | @made record _ hrecords hq hp =>
    -- any other element makes a record, which is copied as it is
    have hself : extend ρ q.store.size p.store.size q.store.size = p.store.size :=
      extend_add ρ q.store.size p.store.size 0
    -- the new record was not made for an attribute, and so it has this one copy
    have hτ : τ p.store.size = none := h.stores.label_size
    refine ⟨extend ρ q.store.size p.store.size, h.conclude_of ho hspelled
      (fun b hb => extend_of_lt hb) ?_ ?_ ?_ ?_ ?_⟩
    · rw [hp, hq]
      exact h.stores.make fun b hb => h.refers b (hrecords b hb)
    · rw [hp, hq, Value.rename, hself]
    · rw [hq, Store.size_make]
      exact fun i hi => List.mem_singleton.mp hi ▸ Nat.lt_succ_self _
    · rw [hq, Store.size_make]
      exact Nat.le_succ _
    · rw [hq, Store.size_make]
      intro b hb hle
      rw [Nat.le_antisymm (Nat.le_of_lt_succ hb) hle, hself]
      exact hτ

/-! ### Attributes of an element -/

theorem exec_compileUncached (q : Pass) (c : Construction) (name raw : String) :
    Hook.exec (compileUncached c name raw) q
      = Hook.exec (ObjectMarkup.compileAttribute c name raw) { q with coercions := .empty } := by
  rw [compileUncached, Hook.exec_bind_ok (Hook.exec_modify _ q)]

/-- The hooks of a coercion are those of a new one for the same attribute. -/
theorem hooks_eq_new (h : p.Copies base anchor m ρ τ q) (hb : p.Builtin) {key : AttributeKey}
    {r : Reading} (hr : Reading.ofType? key.type = some r) {own : Option Locator}
    (hown : base.or own = anchor) :
    (p.coercionFor key own r).base = anchor ∧
      (p.coercionFor key own r).hooks p.environment
        = (⟨key, q.base.or own, r.kind, none⟩ : Coercion).hooks p.environment := by
  have hsound := Pass.sound_coercionFor hb.catalog hb.sound.coercions hr own
  have hkind := Pass.kind_coercionFor hb.catalog hb.sound.coercions hr own
  -- a coercion that is there has the base of the pass or that of its first request, and both are
  -- `anchor`
  have hanchor : (p.coercionFor key own r).base = anchor := by
    unfold Pass.coercionFor
    cases hk : p.coercions.get? key with
    | none => exact h.base.symm ▸ hown
    | some k => exact h.bases key k hk
  have hbase : q.base.or own = anchor := by rw [h.renames.base, h.base, hown]
  refine ⟨hanchor, ?_⟩
  rw [Coercion.hooks, Coercion.hooks, Coercion.view, Coercion.view, hsound.key, hkind, hanchor, hbase]

/-- Of the attributes called `value` only those of scalars are not strings. -/
theorem eq_data_of_typeOf {r : Rule} {e : Element} (h : (r.schema e).typeOf "value" ≠ "string") :
    r = .data := by
  -- the display kinds declare no attribute with this name
  have hdisplay : Schema.typeOf Kind.displaySchema "value" = "string" ∧
      Schema.typeOf (Schema.define Kind.displaySchema "src" "image") "value" = "string" := by
    decide +kernel
  cases r with
  | data => rfl
  | object => exact absurd rfl h
  | container => exact absurd hdisplay.1 h
  | shape => exact absurd hdisplay.1 h
  | bitmap => exact absurd hdisplay.2 h

/-- **An attribute** is compiled in both passes, and in the second one anew. -/
theorem compileAttribute (h : p.Copies base anchor m ρ τ q) {r : Rule} {e : Element}
    {k : Construction} (hw : p.WorksOn r e k) (hown : base.or e.base = anchor) {name : String}
    (hnone : k.values.get? name = none) (raw : String) :
    (Hook.exec (compileUncached (r.start e) name raw) q).1 = .ok () ∧ ∃ ρ' τ',
      (Hook.exec (ObjectMarkup.compileAttribute (r.start e) name raw) p).2.Copies base anchor m ρ' τ'
        (Hook.exec (compileUncached (r.start e) name raw) q).2 := by
  have hcat : q.environment.catalog = .builtin :=
    (congrArg Environment.catalog h.renames.environment).trans hw.builtin.catalog
  obtain ⟨calls, hp⟩ :=
    exec_compileAttribute_builtin hw.builtin.catalog hw.builtin.sound.coercions (r.start e) name raw
  obtain ⟨calls', hq⟩ := exec_compileAttribute_builtin (p := { q with coercions := .empty }) hcat
    (fun _ _ hk => by cases hk) (r.start e) name raw
  rw [exec_compileUncached, hp, hq]
  refine ⟨rfl, ?_⟩
  -- the second pass knows of no attribute, so its hooks are run whatever the first one knows
  have h := h.forget
  by_cases hstring : (r.start e).schema.typeOf name = "string"
  · -- a string is taken as it is written
    rw [if_pos hstring, if_pos hstring]
    exact ⟨ρ, τ, h.setValue hw.toOpens hnone (v := .string raw) fun _ hi => absurd hi List.not_mem_nil⟩
  · rw [if_neg hstring, if_neg hstring]
    have hname : (AttributeKey.ofType name ((r.start e).schema.typeOf name) raw).name = name := rfl
    generalize AttributeKey.ofType name ((r.start e).schema.typeOf name) raw = key at hname
    subst hname
    -- only a scalar can claim a record, since only its `value` is compiled
    have hdata : key.name = "value" → r = .data := fun hvalue =>
      eq_data_of_typeOf (e := e) (hvalue ▸ hstring)
    simp only
    cases hr : Reading.ofType? key.type with
    -- nobody knows the type, and both passes report it
    | none => exact ⟨ρ, τ, h.report _⟩
    | some reading =>
      have hkind := Pass.kind_coercionFor hw.builtin.catalog hw.builtin.sound.coercions hr e.base
      obtain ⟨hanchor, hhooks⟩ := h.hooks_eq_new hw.builtin hr hown
      have hnew : Pass.coercionFor { q with coercions := .empty } key e.base reading
          = ⟨key, q.base.or e.base, reading.kind, none⟩ := rfl
      have hstart : (r.start e).node = e := rfl
      -- both passes run the same hooks, each on its own store
      have hright : ∀ s, Hook.exec ((⟨key, q.base.or e.base, reading.kind, none⟩ :
          Coercion).hooks q.environment) s
          = Hook.exec ((p.coercionFor key e.base reading).hooks p.environment) s := fun s => by
        rw [hhooks, h.renames.environment]
      simp only [hstart, hnew, hright]
      cases ho : (p.coercionFor key e.base reading).outcome? with
      -- known in the first pass: only the second one runs the hooks
      | some o =>
        have hk := Pass.get?_of_coercionFor ho
        obtain ⟨ρ', h'⟩ := h.take_again hw.toOpens hnone hdata hk ho
          ⟨key, q.base.or e.base, reading.kind, none⟩ calls'
        exact ⟨ρ', τ, h'⟩
      | none => exact h.take_first hw.toOpens hnone hdata hkind hanchor _ calls calls'

/-- **Each small step** adds copies at most. -/
theorem lockstep (base anchor : Option Locator) (m : Nat) :
    Lockstep compileUncached (fun e => base.or e.base = anchor)
      fun p q => ∃ ρ τ, p.Copies base anchor m ρ τ q where
  environment := fun ⟨_, _, h⟩ => h.renames.environment
  released := fun ⟨_, _, h⟩ => h.renames.released
  absent := fun ⟨_, _, h⟩ => h.renames.absent
  begun := fun ⟨_, _, h⟩ _ hc => h.renames.begun hc
  handDown := fun ⟨_, _, h⟩ hb parent child => h.renames.handDown hb parent child
  remember := fun ⟨ρ, τ, h⟩ call noted => ⟨ρ, τ, h.remember call noted⟩
  report := fun ⟨ρ, τ, h⟩ d => ⟨ρ, τ, h.report d⟩
  adopt := fun ⟨ρ, τ, h⟩ parent child => ⟨ρ, τ, h.adopt parent child⟩
  start := fun ⟨ρ, τ, h⟩ hnone => ⟨ρ, τ, h.start hnone⟩
  attributeStep := fun ⟨_, _, h⟩ hw hown _ hnone => h.compileAttribute hw hown hnone _
  conclude := fun ⟨_, τ, h⟩ hw _ hspelled =>
    let ⟨ρ', h'⟩ := h.conclude hw.toOpens hspelled
    ⟨ρ', τ, h'⟩

/-! ### When all elements have their values -/

theorem not_disputed (h : p.Copies base anchor m ρ τ q) {b : RecordId}
    (hnd : ¬ p.Disputed (ρ b)) : ¬ q.Disputed b :=
  fun hd => hnd (hd.mono fun _ hn => h.renames.stands.mpr ⟨b, hn, rfl⟩)

/-- **A record is a copy,** and be it of what a constructor has made, unless this is in dispute. -/
theorem get_eq (h : p.Copies base anchor m ρ τ q)
    (hsettled : ∀ id c, q.constructions.get? id = some c → c.outcome? ≠ none) {b : RecordId}
    (hb : b < q.store.size) (hnd : m ≤ ρ b → ¬ p.Disputed (ρ b)) :
    p.store.get (ρ b) = (q.store.get b).rename ρ := by
  cases hτ : τ (ρ b) with
  | none => exact h.stores.plain b hb hτ
  | some label =>
    have hnd := hnd (h.stores.le_of_isSome (hτ ▸ rfl))
    have hleft := h.labelled _ label hτ
    obtain ⟨made, hmade, -, hright, hclaimed⟩ := h.copied b hb label hτ
    by_cases hclaim : label.claimed = true
    · -- the scalar that has asked for the instance has written into it in both passes
      obtain ⟨id, d, hd, hclaims⟩ := hclaimed hclaim
      obtain ⟨o, ho⟩ := Option.ne_none_iff_exists'.mp (hsettled id d hd)
      have hn : q.Stands d.node b := ⟨id, d, hd, rfl, hclaims.kind, hclaims.outcome o ho ▸ ho⟩
      have hn' : p.Stands d.node (ρ b) := h.renames.stands.mpr ⟨b, hn, rfl⟩
      rw [hleft.written hnd _ hn', hright.written (h.not_disputed hnd) _ hn, Record.rename_stamp,
        hmade]
    · -- no scalar has asked for it, so it is as it was made
      have hno : ∀ n, ¬ p.Stands n (ρ b) := by
        intro n hn
        obtain ⟨b', hb', heq⟩ := h.renames.stands.mp hn
        rcases h.bears b' hb'.bears with hold | ⟨label', hτ', hclaim'⟩
        · rw [h.stores.old b' hold] at heq
          rw [← heq, h.stores.bare b' hold] at hτ
          cases hτ
        · rw [heq, hτ] at hτ'
          cases hτ'
          exact hclaim hclaim'
      have hno' : ∀ n, ¬ q.Stands n b := fun n hn => hno n (h.renames.stands.mpr ⟨b, hn, rfl⟩)
      rw [hleft.blank hno, hright.blank hno', hmade]

/-- **A value shows the same,** if it leads to no instance in dispute. -/
theorem tree_eq (h : p.Copies base anchor m ρ τ q)
    (hsettled : ∀ id c, q.constructions.get? id = some c → c.outcome? ≠ none) {w : Value}
    (hw : ∀ r ∈ w.records, r < q.store.size)
    (hnd : ∀ r ∈ (w.rename ρ).records, ∀ i, ReflTransGen p.store.Contains r i → m ≤ i →
      ¬ p.Disputed i) : p.store.tree (w.rename ρ) = q.store.tree w := by
  have hfree : ∀ r ∈ w.records, ∀ i, ReflTransGen p.store.Contains (ρ r) i → m ≤ i →
      ¬ p.Disputed i := by
    intro r hr
    refine hnd (ρ r) ?_
    rw [Value.records_rename]
    exact List.mem_map_of_mem hr
  -- `ρ` mirrors the part of the store that the value leads to, and nothing in it is disputed
  have hmirrors : Store.Mirrors ρ (fun b => b < q.store.size ∧
      ∃ r ∈ w.records, ReflTransGen p.store.Contains (ρ r) (ρ b)) p.store q.store := by
    have hget : ∀ b, (b < q.store.size ∧
        ∃ r ∈ w.records, ReflTransGen p.store.Contains (ρ r) (ρ b)) →
        p.store.get (ρ b) = (q.store.get b).rename ρ :=
      fun b ⟨hb, r, hr, hrb⟩ => h.get_eq hsettled hb (hfree r hr (ρ b) hrb)
    refine ⟨fun b hb => ⟨hb.1, h.stores.bounds b hb.1⟩, fun a b ha hab => ?_, hget,
      fun a b ⟨ha, r, hr, hra⟩ hab heq => ?_⟩
    · -- the part is closed: what it leads to is reached from the value as well
      obtain ⟨r, hr, hra⟩ := ha.2
      refine ⟨h.stores.closed a b hab, r, hr, hra.tail ?_⟩
      rw [Store.Contains, hget a ha]
      exact Record.mem_records_rename hab
    · -- what was made in one call was copied as a whole
      have hb : b < q.store.size := h.stores.closed.lt_of_reaches ha hab.to_reflTransGen
      rcases h.stores.apart a ha b hb heq with rfl | hlabel
      · rfl
      · exact h.stores.eq_of_inside hlabel hab heq
  exact hmirrors.tree_rename fun r hr => ⟨hw r hr, r, hr, .refl⟩

end Pass.Copies

/-! ### Documents -/

namespace Compilation

end Compilation

end ObjectMarkup
