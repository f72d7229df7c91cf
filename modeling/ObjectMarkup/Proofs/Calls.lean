import ObjectMarkup.Proofs.Renaming
import ObjectMarkup.Proofs.Scalars

/-!
# What constructors may do

A constructor may do anything when it is called, and something else each time. Two conditions on
constructors are stated here, for results that do not hold of all of them.

A constructor is *acyclic* (`Calls.Acyclic`) if its calls bring no record inside itself. It may change
records, keep what it likes for later calls, and panic whenever it likes. The plain way to be acyclic
is to add records that are not inside themselves and to leave all others alone
(`Calls.acyclic_of_adds`).

A constructor is *steady* (`Calls.Steady`) if it does the same whenever it is called. It ends the same
way and adds the same records, which have other numbers each time, but refer to each other alike. So
all its calls are one call with other numbers (`Batch`), which is written down as it would be in a
store without any records but the first ones.
-/

namespace ObjectMarkup

open Relation (TransGen ReflTransGen)

/-! ### Records that are added -/

/-- A store with these records added behind all others. What constructors keep is not compared. -/
structure Store.Adds (s : Store) (rs : List Record) (t : Store) : Prop where
  size : t.size = s.size + rs.length
  old : ∀ i < s.size, t.get i = s.get i
  new : ∀ (j : Nat) (hj : j < rs.length), t.get (s.size + j) = rs[j]

namespace Store.Adds

variable {s t u : Store} {rs rs' : List Record}

theorem refl (s : Store) : s.Adds [] s :=
  ⟨rfl, fun _ _ => rfl, fun _ hj => absurd hj (Nat.not_lt_zero _)⟩

theorem make (s : Store) (r : Record) : s.Adds [r] (s.make r).2 where
  size := Store.size_make s r
  old i hi := Store.get_make_of_lt hi r
  new j hj := by
    obtain rfl : j = 0 := Nat.lt_one_iff.mp hj
    exact Store.get_make_self s r

theorem trans (h : s.Adds rs t) (h' : t.Adds rs' u) : s.Adds (rs ++ rs') u where
  size := by rw [h'.size, h.size, List.length_append, Nat.add_assoc]
  old i hi := by
    rw [h'.old i (h.size ▸ Nat.lt_add_right _ hi)]
    exact h.old i hi
  new j hj := by
    rw [List.length_append] at hj
    rw [List.getElem_append]
    split
    · -- a record of the first call is an old one for the second
      next hlt =>
      rw [h'.old _ (h.size ▸ Nat.add_lt_add_left hlt _)]
      exact h.new j hlt
    · next hle =>
      have hle := Nat.le_of_not_lt hle
      have hindex : s.size + j = t.size + (j - rs.length) := by rw [h.size]; omega
      rw [hindex]
      exact h'.new _ (by omega)

theorem size_le (h : s.Adds rs t) : s.size ≤ t.size :=
  h.size ▸ Nat.le_add_right _ _

/-- A record is one that was there, or one of those that were added. -/
theorem cases (h : s.Adds rs t) {i : RecordId} (hi : i < t.size) :
    i < s.size ∨ ∃ j, ∃ _ : j < rs.length, i = s.size + j := by
  by_cases hlt : i < s.size
  · exact Or.inl hlt
  · have hle := Nat.le_of_not_lt hlt
    have hlt : i < s.size + rs.length := h.size ▸ hi
    exact Or.inr ⟨i - s.size, Nat.sub_lt_left_of_lt_add hle hlt, (Nat.add_sub_cancel' hle).symm⟩

/-- An old record leads where it led, and a new one to what is there by now. -/
theorem closed (h : s.Adds rs t) (hs : s.Closed)
    (hrs : ∀ r ∈ rs, ∀ i ∈ r.records, i < t.size) : t.Closed := by
  intro a b hab
  rcases h.cases (lt_size_of_contains hab) with ha | ⟨j, hj, rfl⟩
  · rw [Contains, h.old a ha] at hab
    exact Nat.lt_of_lt_of_le (hs a b hab) h.size_le
  · rw [Contains, h.new j hj] at hab
    exact hrs _ (List.getElem_mem hj) b hab

end Store.Adds

/-! ### Room for other records -/

/-- Leaves room for `k` other records after the first `m`. -/
def shift (m k b : Nat) : Nat :=
  if b < m then b else b + k

theorem shift_of_lt {m k b : Nat} (h : b < m) : shift m k b = b :=
  if_pos h

theorem shift_of_le {m k b : Nat} (h : m ≤ b) : shift m k b = b + k :=
  if_neg (Nat.not_lt.mpr h)

theorem shift_injective {m k a b : Nat} (h : shift m k a = shift m k b) : a = b := by
  unfold shift at h
  split at h <;> split at h <;> omega

theorem shift_shift (m j k b : Nat) : shift m k (shift m j b) = shift m (j + k) b := by
  by_cases h : b < m
  · rw [shift_of_lt h, shift_of_lt h, shift_of_lt h]
  · have h := Nat.le_of_not_lt h
    rw [shift_of_le h, shift_of_le h, shift_of_le (Nat.le_add_right_of_le h), Nat.add_assoc]

/-- What is behind the first `m` is behind the first `n` when there is room for all between them. -/
theorem shift_cases {m n l b : Nat} (hmn : m ≤ n) (hb : b < m + l) :
    shift m (n - m) b < m ∨ n ≤ shift m (n - m) b ∧ shift m (n - m) b < n + l := by
  by_cases h : b < m
  · rw [shift_of_lt h]
    exact Or.inl h
  · rw [shift_of_le (Nat.le_of_not_lt h)]
    omega

/-- The records of one store are those of another one with room for `k` records after the first `m`,
apart from some that may be different. -/
structure Store.Shifts (m k : Nat) (T : RecordId → Prop) (s t : Store) : Prop where
  size : s.size = t.size + k
  old : m ≤ t.size
  get : ∀ b < t.size, ¬ T b → s.get (shift m k b) = (t.get b).rename (shift m k)

namespace Store.Shifts

variable {m k : Nat} {T : RecordId → Prop} {s t : Store}

theorem shift_lt (h : Shifts m k T s t) {b : Nat} (hb : b < t.size) : shift m k b < s.size := by
  have hsize := h.size
  unfold shift
  split <;> omega

theorem shift_size (h : Shifts m k T s t) : shift m k t.size = s.size :=
  (shift_of_le h.old).trans h.size.symm

theorem make (h : Shifts m k T s t) (r : Record) :
    Shifts m k T (s.make (r.rename (shift m k))).2 (t.make r).2 where
  size := by
    rw [Store.size_make, Store.size_make, h.size]
    omega
  old := by
    rw [Store.size_make]
    exact Nat.le_succ_of_le h.old
  get b hb hT := by
    rw [Store.size_make] at hb
    -- the new record is the last one on both sides, and `shift` takes one to the other
    rcases Nat.lt_succ_iff_lt_or_eq.mp hb with hlt | rfl
    · rw [Store.get_make_of_lt (h.shift_lt hlt), Store.get_make_of_lt hlt]
      exact h.get b hlt hT
    · rw [h.shift_size]
      exact (Store.get_make_self s _).trans
        (congrArg (Record.rename (shift m k)) (Store.get_make_self t r).symm)

theorem modify (h : Shifts m k T s t) (i : RecordId) {f g : Record → Record}
    (hfg : ∀ r : Record, (f r).rename (shift m k) = g (r.rename (shift m k))) :
    Shifts m k T (s.modify (shift m k i) g) (t.modify i f) where
  size := by
    rw [Store.size_modify, Store.size_modify]
    exact h.size
  old := by
    rw [Store.size_modify]
    exact h.old
  get b hb hT := by
    rw [Store.size_modify] at hb
    -- `shift` is injective, so no other record is written to on the left
    by_cases heq : b = i
    · subst heq
      rw [Store.get_modify_self (h.shift_lt hb), Store.get_modify_self hb, h.get b hb hT, hfg]
    · rw [Store.get_modify_of_ne s fun hsame => heq (shift_injective hsame),
        Store.get_modify_of_ne t heq]
      exact h.get b hb hT

/-- The same records are added to both. -/
theorem adds (h : Shifts m k T s t) {s' t' : Store} {rs : List Record}
    (hs : s.Adds (rs.map (Record.rename (shift m k))) s') (ht : t.Adds rs t') :
    Shifts m k T s' t' where
  size := by
    rw [hs.size, ht.size, List.length_map, h.size]
    omega
  old := Nat.le_trans h.old ht.size_le
  get b hb hT := by
    -- the added records come in the same order at the end of both stores
    rcases ht.cases hb with hlt | ⟨j, hj, rfl⟩
    · rw [hs.old _ (h.shift_lt hlt), ht.old b hlt]
      exact h.get b hlt hT
    · have hindex : shift m k (t.size + j) = s.size + j := by
        rw [shift_of_le (Nat.le_add_right_of_le h.old), h.size]
        omega
      rw [hindex, hs.new j (by rwa [List.length_map]), ht.new j hj, List.getElem_map]

end Store.Shifts

/-! ### Steady constructors -/

/-- What one call comes to: how it ends, and the records that it adds. The first `m` records are those
that were there in the beginning, and the new ones are numbered as if there were no others. -/
structure Batch where
  ending : Except Panic Value
  records : List Record

/-- Whatever the call refers to was there in the beginning, or is one of the new records. -/
structure Batch.Bounded (b : Batch) (m : Nat) : Prop where
  ending : ∀ v, b.ending = .ok v → ∀ i ∈ v.records, i < m + b.records.length
  records : ∀ r ∈ b.records, ∀ i ∈ r.records, i < m + b.records.length

/-- The records that the call adds behind the first `n`. -/
def Batch.recordsAt (b : Batch) (m n : Nat) : List Record :=
  b.records.map (Record.rename (shift m (n - m)))

/-- What an attribute comes to with the call, if the records are added behind the first `n`. -/
def Batch.outcomeAt (b : Batch) (m n : Nat) : Outcome Value :=
  Outcome.rename (shift m (n - m)) (contain (b.ending.mapError Stop.panic))

/-- **All calls are one call** with other numbers for the new records. -/
structure Batch.Describes (b : Batch) (m : Nat) (call : Store → Except Panic Value × Store) :
    Prop where
  bounded : b.Bounded m
  ending : ∀ s : Store, m ≤ s.size →
    (call s).1 = b.ending.map (Value.rename (shift m (s.size - m)))
  adds : ∀ s : Store, m ≤ s.size → s.Adds (b.recordsAt m s.size) (call s).2

/-- A constructor that does the same whenever it is called, and knows no records but the first `m`. -/
def Calls.Steady (calls : Calls) (m : Nat) (maker : Maker Value) : Prop :=
  ∃ b : Batch, b.Describes m (calls.run maker)

namespace Batch

variable {b : Batch} {m n : Nat}

theorem length_recordsAt (b : Batch) (m n : Nat) : (b.recordsAt m n).length = b.records.length :=
  List.length_map _

theorem getElem_recordsAt {j : Nat} (hj : j < (b.recordsAt m n).length) :
    (b.recordsAt m n)[j] =
      (b.records.get ⟨j, b.length_recordsAt m n ▸ hj⟩).rename (shift m (n - m)) :=
  List.getElem_map _

/-- What a new record contains was there in the beginning, or is a new record. -/
theorem Bounded.of_recordsAt (h : b.Bounded m) (hmn : m ≤ n) {r : Record} (hr : r ∈ b.recordsAt m n)
    {i : RecordId} (hi : i ∈ r.records) : i < m ∨ n ≤ i ∧ i < n + b.records.length := by
  obtain ⟨r', hr', rfl⟩ := List.mem_map.mp hr
  obtain ⟨i', hi', rfl⟩ := Record.mem_of_records_rename hi
  exact shift_cases hmn (h.records r' hr' i' hi')

/-- So is what the attribute comes to. -/
theorem Bounded.of_outcomeAt (h : b.Bounded m) (hmn : m ≤ n) {v : Value}
    (hv : b.outcomeAt m n = .ok v) {i : RecordId} (hi : i ∈ v.records) :
    i < m ∨ n ≤ i ∧ i < n + b.records.length := by
  rw [outcomeAt] at hv
  cases hending : b.ending with
  | error p =>
    rw [hending] at hv
    cases hv
  | ok w =>
    rw [hending] at hv
    cases hv
    rw [Value.records_rename] at hi
    obtain ⟨i', hi', rfl⟩ := List.mem_map.mp hi
    -- what a batch returns are old records or its own, which stand at `n` now
    exact shift_cases hmn (h.ending w hending i' hi')

/-- What was there in the beginning, and the new records, are in the store after the call. -/
theorem Describes.lt_size {call : Store → Except Panic Value × Store} (h : b.Describes m call)
    {s : Store} (hs : m ≤ s.size) {i : Nat}
    (hi : i < m ∨ s.size ≤ i ∧ i < s.size + b.records.length) : i < (call s).2.size := by
  rw [(h.adds s hs).size, b.length_recordsAt]
  rcases hi with hold | ⟨-, hi⟩
  · exact Nat.lt_add_right _ (Nat.lt_of_lt_of_le hold hs)
  · exact hi

/-- How an attribute ends that asks for the call. -/
theorem Describes.outcome {call : Store → Except Panic Value × Store} (h : b.Describes m call)
    {s : Store} (hs : m ≤ s.size) :
    contain ((call s).1.mapError Stop.panic) = b.outcomeAt m s.size := by
  rw [h.ending s hs, outcomeAt]
  cases b.ending <;> rfl

/-- In other places the same records are added with other numbers. -/
theorem recordsAt_add (b : Batch) (hmn : m ≤ n) (k : Nat) :
    b.recordsAt m (n + k) = (b.recordsAt m n).map (Record.rename (shift m k)) := by
  rw [recordsAt, recordsAt, List.map_map]
  refine List.map_congr_left fun r _ => ?_
  rw [Function.comp, Record.rename_rename]
  refine Record.rename_congr fun i _ => ?_
  rw [shift_shift, Nat.sub_add_comm hmn]

theorem outcomeAt_add (b : Batch) (hmn : m ≤ n) (k : Nat) :
    b.outcomeAt m (n + k) = Outcome.rename (shift m k) (b.outcomeAt m n) := by
  rw [outcomeAt, outcomeAt]
  cases contain (b.ending.mapError Stop.panic) with
  | error e => rfl
  | ok v =>
    refine congrArg Except.ok ?_
    rw [Value.rename_rename]
    refine Value.rename_congr fun i _ => ?_
    rw [shift_shift, Nat.sub_add_comm hmn]

end Batch

/-! ### Acyclic constructors -/

/-- **Records that contain themselves only where they are said to.** The records `H` lead to no
others. One of them is inside itself only if it is one of the records `L`, and these have themselves
for their property `value`. -/
structure Store.LoopsAt (s : Store) (H L : RecordId → Prop) : Prop where
  below : ∀ i, H i → i < s.size
  closed : ∀ a b, H a → s.Contains a b → H b
  inside : ∀ i, H i → TransGen s.Contains i i → L i
  known : ∀ i, L i → H i
  loop : ∀ i, L i → s.property? i "value" = some (.record i)

namespace Store.LoopsAt

variable {s : Store} {H L : RecordId → Prop}

theorem of_reaches (h : s.LoopsAt H L) {a b : RecordId} (ha : H a)
    (hab : ReflTransGen s.Contains a b) : H b := by
  induction hab with
  | refl => exact ha
  | tail _ hbc ih => exact h.closed _ _ ih hbc

/-- The records that are inside themselves are those that are said to be. -/
theorem inside_itself_iff (h : s.LoopsAt H L) {i : RecordId} (hi : H i) :
    TransGen s.Contains i i ↔ L i := by
  refine ⟨h.inside i hi, fun hL => ?_⟩
  have hvalue := OrderedMap.mem_entries_of_get? (h.loop i hL)
  exact .single (Record.mem_records.mpr (Or.inl ⟨_, hvalue, List.mem_singleton_self i⟩))

/-- A chain that begins with an old record is a chain of old records, if these are as they were. -/
theorem of_chain (h : s.LoopsAt H L) {t : Store} (hold : ∀ a, H a → t.get a = s.get a)
    {a b : RecordId} (ha : H a) (hab : TransGen t.Contains a b) : H b ∧ TransGen s.Contains a b := by
  induction hab with
  | single hab =>
    rw [Contains, hold a ha] at hab
    exact ⟨h.closed a _ ha hab, .single hab⟩
  | tail _ hbc ih =>
    rw [Contains, hold _ ih.1] at hbc
    exact ⟨h.closed _ _ ih.1 hbc, ih.2.tail hbc⟩

end Store.LoopsAt

/-- All values refer to such records only. -/
def AllIn (H : RecordId → Prop) (values : List Value) : Prop :=
  ∀ v ∈ values, ∀ i ∈ v.records, H i

/-- **A constructor whose calls bring no record inside itself,** as far as it knows what it does:
among the records that it has captured or keeps, among others that these lead to, and among new ones.
What it hands out and what it keeps are such records. -/
def Calls.Acyclic (calls : Calls) (maker : Maker Value) : Prop :=
  ∀ (s : Store) (H L : RecordId → Prop), s.LoopsAt H L → AllIn H maker.captured →
    AllIn H s.memory →
    ∃ H' : RecordId → Prop, (∀ i, H i → H' i) ∧ (calls.run maker s).2.LoopsAt H' L ∧
      AllIn H' (calls.run maker s).2.memory ∧
      ∀ v, (calls.run maker s).1 = .ok v → ∀ i ∈ v.records, H' i

/-- What a call comes to that only adds records. -/
structure Store.AddsAcyclic (s : Store) (known : RecordId → Prop) (t : Store) : Prop where
  old : ∀ i < s.size, t.get i = s.get i
  /-- No new record is inside itself by way of new ones. -/
  inside : ∀ a, s.size ≤ a → ¬ TransGen (fun a b => t.Contains a b ∧ s.size ≤ b) a a
  /-- What new records contain is known or new. -/
  contents : ∀ a b, s.size ≤ a → t.Contains a b → known b ∨ s.size ≤ b ∧ b < t.size

/-- **New records join the region** if none of them is inside itself by way of new ones. -/
theorem Store.LoopsAt.grow {s t : Store} {H L : RecordId → Prop} (h : s.LoopsAt H L)
    (hsize : s.size ≤ t.size) (hadds : s.AddsAcyclic H t) :
    t.LoopsAt (fun i => H i ∨ s.size ≤ i ∧ i < t.size) L := by
  have hold : ∀ a, H a → t.get a = s.get a := fun a ha => hadds.old a (h.below a ha)
  refine ⟨?below, ?closed, ?inside, fun i hi => Or.inl (h.known i hi), ?loop⟩
  case below =>
    rintro i (hi | ⟨-, hi⟩)
    · exact Nat.lt_of_lt_of_le (h.below i hi) hsize
    · exact hi
  case closed =>
    rintro a b (ha | ⟨ha, -⟩) hab
    · rw [Store.Contains, hold a ha] at hab
      exact Or.inl (h.closed a b ha hab)
    · exact hadds.contents a b ha hab
  case inside =>
    rintro i (hi | ⟨hi, -⟩) hii
    · exact h.inside i hi (h.of_chain hold hi hii).2
    · -- the way back from a new record is by new records, or it would end among old ones
      have hnew : ∀ b, TransGen t.Contains i b →
          H b ∨ s.size ≤ b ∧ TransGen (fun a b => t.Contains a b ∧ s.size ≤ b) i b := by
        intro b hib
        induction hib with
        | single hib =>
          exact (hadds.contents i _ hi hib).imp_right fun hb => ⟨hb.1, .single ⟨hib, hb.1⟩⟩
        | tail _ hbc ih =>
          rcases ih with hb | ⟨hb, hib⟩
          · exact Or.inl (h.of_chain hold hb (.single hbc)).1
          · exact (hadds.contents _ _ hb hbc).imp_right fun hc => ⟨hc.1, hib.tail ⟨hbc, hc.1⟩⟩
      rcases hnew i hii with hH | ⟨-, hloop⟩
      · exact absurd (h.below i hH) (Nat.not_lt_of_le hi)
      · exact absurd hloop (hadds.inside i hi)
  case loop =>
    intro i hi
    rw [Store.property?, hold i (h.known i hi)]
    exact h.loop i hi

/-- **Adding records that are not inside themselves** is one way to be acyclic. The new records
contain, and the constructor hands out and keeps, what it has captured, what it has kept before, and
new records. -/
theorem Calls.acyclic_of_adds {calls : Calls} {maker : Maker Value}
    (h : ∀ s : Store, ∀ known : RecordId → Prop, (∀ i, known i → i < s.size) →
      AllIn known maker.captured → AllIn known s.memory →
      s.AddsAcyclic known (calls.run maker s).2 ∧
        AllIn (fun i => known i ∨ s.size ≤ i ∧ i < (calls.run maker s).2.size)
          (calls.run maker s).2.memory ∧
        ∀ v, (calls.run maker s).1 = .ok v → ∀ i ∈ v.records,
          known i ∨ s.size ≤ i ∧ i < (calls.run maker s).2.size) :
    calls.Acyclic maker := by
  intro s H L hloops hcaptured hmemory
  obtain ⟨hadds, hkept, hvalue⟩ := h s H hloops.below hcaptured hmemory
  exact ⟨_, fun _ => Or.inl, hloops.grow (calls.size_le maker s) hadds, hkept, hvalue⟩

end ObjectMarkup
