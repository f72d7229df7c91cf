import Mathlib.Data.Finset.Dedup
import Mathlib.Data.Finset.Card
import ObjectMarkup.OrderedMap

/-!
# Look-ups that make what they miss

A map can be used to make a value for every key once: who looks a key up gets the value that is
under it, and where there is none a new one is put in. `Find` is one such look-up, and `Chain` a
history of them, in which nothing else puts a key in; what happens in between may change values, but
only within a relation `R`.

As keys are only ever put in at the end, the place of a key is a name for the value that was made
for it. The facts about chains say what such names are worth: `Chain.place_eq_iff`, that two
look-ups come to one place just if they have one key; `Chain.stays`, that what was found stays in
its place; `Chain.of_first`, that it is what the first look-up of the key has made; and
`Chain.size_eq`, that there are as many values as keys were looked up.
-/

namespace ObjectMarkup

universe u v

variable {κ : Type u} {α : Type v} [DecidableEq κ]

/-- A look-up in a map that puts a new value in where it finds none. -/
structure Find (κ : Type u) (α : Type v) [DecidableEq κ] where
  key : κ
  before : OrderedMap κ α
  value : α
  after : OrderedMap κ α
  finds : (before.get? key = some value ∧ after = before) ∨
    (before.get? key = none ∧ after = before.insert key value)

namespace OrderedMap

variable {m n o : OrderedMap κ α} {key : κ}

/-- The place of a key: the number of keys that came before it. -/
def place (m : OrderedMap κ α) (key : κ) : Nat :=
  m.keys.idxOf key

theorem entries_place {value : α} (h : m.get? key = some value) :
    m.entries[m.place key]? = some (key, value) := by
  have hmem : (key, value) ∈ m.entries := mem_entries_of_get? h
  obtain ⟨i, hi, hentry⟩ := List.getElem_of_mem hmem
  -- no key stands in two places, so the first place of the key is that of the entry
  have hplace : m.place key = i := by
    have hkeys : i < m.keys.length := by rwa [keys, List.length_map]
    have hkey : m.keys[i] = key := by simp [keys, hentry]
    rw [place, ← hkey]
    exact m.nodup.idxOf_getElem i hkeys
  rw [hplace, List.getElem?_eq_getElem hi, hentry]

theorem place_eq_iff {key' : κ} (h : key ∈ m.keys) : m.place key = m.place key' ↔ key = key' :=
  List.idxOf_inj h

/-! ### Change without new keys, and with new keys at the end -/

/-- Values may change within a relation, and no key comes or goes. -/
structure Keeps (R : α → α → Prop) (m n : OrderedMap κ α) : Prop where
  keys : n.keys = m.keys
  values : ∀ key value, m.get? key = some value → ∃ value', n.get? key = some value' ∧ R value value'

/-- Values may change within a relation, and keys come at the end at most. -/
structure Grows (R : α → α → Prop) (m n : OrderedMap κ α) : Prop where
  keys : m.keys <+: n.keys
  values : ∀ key value, m.get? key = some value → ∃ value', n.get? key = some value' ∧ R value value'

theorem Keeps.grows {R : α → α → Prop} (h : m.Keeps R n) : m.Grows R n :=
  ⟨h.keys ▸ List.prefix_refl _, h.values⟩

theorem Grows.mem_keys {R : α → α → Prop} (h : m.Grows R n) (hkey : key ∈ m.keys) : key ∈ n.keys :=
  h.keys.subset hkey

/-- What is there keeps its place. -/
theorem Grows.place_eq {R : α → α → Prop} (h : m.Grows R n) (hkey : key ∈ m.keys) :
    n.place key = m.place key := by
  obtain ⟨rest, hrest⟩ := h.keys
  rw [place, ← hrest, List.idxOf_append_of_mem hkey, place]

variable {R : α → α → Prop} [IsPreorder α R]

theorem Keeps.of_eq (h : n = m) : m.Keeps R n := by
  subst h
  exact ⟨rfl, fun _ value hvalue => ⟨value, hvalue, refl_of R value⟩⟩

theorem Keeps.trans (h : m.Keeps R n) (h' : n.Keeps R o) : m.Keeps R o := by
  refine ⟨h'.keys.trans h.keys, fun key value hvalue => ?_⟩
  obtain ⟨value', hvalue', hR⟩ := h.values key value hvalue
  obtain ⟨value'', hvalue'', hR'⟩ := h'.values key value' hvalue'
  exact ⟨value'', hvalue'', trans_of R hR hR'⟩

theorem Keeps.modify {f : α → α} (hf : ∀ a, R a (f a)) (m : OrderedMap κ α) (key : κ) :
    m.Keeps R (m.modify key f) := by
  refine ⟨keys_modify m key f, fun key' value hvalue => ?_⟩
  rw [get?_modify]
  split
  · next heq => exact ⟨f value, by rw [← heq, hvalue, Option.map_some], hf value⟩
  · exact ⟨value, hvalue, refl_of R value⟩

theorem Grows.trans (h : m.Grows R n) (h' : n.Grows R o) : m.Grows R o := by
  refine ⟨h.keys.trans h'.keys, fun key value hvalue => ?_⟩
  obtain ⟨value', hvalue', hR⟩ := h.values key value hvalue
  obtain ⟨value'', hvalue'', hR'⟩ := h'.values key value' hvalue'
  exact ⟨value'', hvalue'', trans_of R hR hR'⟩

end OrderedMap

namespace Find

variable (f : Find κ α)

theorem get?_after : f.after.get? f.key = some f.value := by
  obtain ⟨hfound, hafter⟩ | ⟨-, hafter⟩ := f.finds
  · rw [hafter, hfound]
  · rw [hafter, OrderedMap.get?_insert_self]

theorem mem_keys_after : f.key ∈ f.after.keys :=
  (OrderedMap.mem_keys_iff _ _).mpr (by rw [f.get?_after]; rfl)

/-- The key is put in at the end, if it is not there. -/
theorem keys_after :
    f.after.keys = if f.key ∈ f.before.keys then f.before.keys else f.before.keys ++ [f.key] := by
  obtain ⟨hfound, hafter⟩ | ⟨-, hafter⟩ := f.finds
  · rw [if_pos ((OrderedMap.mem_keys_iff _ _).mpr (by rw [hfound]; rfl)), hafter]
  · rw [hafter, OrderedMap.keys_insert]

theorem mem_keys_after_iff (key : κ) : key ∈ f.after.keys ↔ key ∈ f.before.keys ∨ f.key = key := by
  rw [f.keys_after]
  by_cases hmem : f.key ∈ f.before.keys
  · rw [if_pos hmem]
    exact ⟨.inl, fun h => h.elim id fun heq => heq ▸ hmem⟩
  · rw [if_neg hmem, List.mem_append, List.mem_singleton, eq_comm]

theorem grows {R : α → α → Prop} [IsPreorder α R] : f.before.Grows R f.after := by
  refine ⟨?_, fun key value hvalue => ⟨value, ?_, refl_of R value⟩⟩
  · rw [f.keys_after]
    split
    · exact List.prefix_refl _
    · exact List.prefix_append _ _
  · obtain ⟨-, hafter⟩ | ⟨hnone, hafter⟩ := f.finds
    · rw [hafter, hvalue]
    · -- the key that is put in was free
      have hne : key ≠ f.key := fun heq => by rw [heq, hnone] at hvalue; cases hvalue
      rw [hafter, OrderedMap.get?_insert_of_ne _ hne, hvalue]

end Find

/-- **A history of look-ups.** From one to the next the keys stay, and values change within a
relation at most. -/
inductive Chain (R : α → α → Prop) : OrderedMap κ α → List (Find κ α) → OrderedMap κ α → Prop where
  | done {m n : OrderedMap κ α} (keeps : m.Keeps R n) : Chain R m [] n
  | find {m n : OrderedMap κ α} {f : Find κ α} {rest : List (Find κ α)} (keeps : m.Keeps R f.before)
      (chain : Chain R f.after rest n) : Chain R m (f :: rest) n

namespace Chain

variable {R : α → α → Prop} {m n o : OrderedMap κ α} {f g : Find κ α} {fs gs : List (Find κ α)}

/-- A history is what leads to one of its look-ups, and what follows it. -/
theorem split (h : Chain R m (fs ++ f :: gs) n) : Chain R m fs f.before ∧ Chain R f.after gs n := by
  -- the history is taken apart from the front, up to the look-up
  induction fs generalizing m with
  | nil =>
    cases h with
    | find keeps chain => exact ⟨.done keeps, chain⟩
  | cons g rest ih =>
    cases h with
    | find keeps chain =>
      obtain ⟨hbefore, hafter⟩ := ih chain
      exact ⟨.find keeps hbefore, hafter⟩

/-- The keys are those that there were and those that were looked up. -/
theorem mem_keys_iff (h : Chain R m fs n) (key : κ) :
    key ∈ n.keys ↔ key ∈ m.keys ∨ ∃ f ∈ fs, f.key = key := by
  induction h with
  | done keeps => simp [keeps.keys]
  | @find m n f rest keeps _ ih =>
    rw [ih, f.mem_keys_after_iff, keeps.keys, List.exists_mem_cons_iff, or_assoc]

/-- **There are as many values as keys were looked up.** -/
theorem size_eq (h : Chain R .empty fs n) : n.size = (fs.map Find.key).toFinset.card := by
  have hkeys : n.keys.toFinset = (fs.map Find.key).toFinset := by
    ext key
    rw [List.mem_toFinset, List.mem_toFinset, h.mem_keys_iff, List.mem_map]
    simp
  calc n.size = n.keys.length := by rw [OrderedMap.size, OrderedMap.keys, List.length_map]
    _ = n.keys.toFinset.card := (List.toFinset_card_of_nodup n.nodup).symm
    _ = (fs.map Find.key).toFinset.card := by rw [hkeys]

variable [IsPreorder α R]

theorem single (f : Find κ α) : Chain R f.before [f] f.after :=
  .find (.of_eq rfl) (.done (.of_eq rfl))

theorem append (h : Chain R m fs n) (h' : Chain R n gs o) : Chain R m (fs ++ gs) o := by
  induction h with
  | done keeps =>
    cases h' with
    | done keeps' => exact .done (keeps.trans keeps')
    | find keeps' chain => exact .find (keeps.trans keeps') chain
  | find keeps _ ih => exact .find keeps (ih h')

theorem grows (h : Chain R m fs n) : m.Grows R n := by
  induction h with
  | done keeps => exact keeps.grows
  | @find m n f rest keeps _ ih => exact (keeps.grows.trans f.grows).trans ih

theorem grows_of_mem (h : Chain R m fs n) (hf : f ∈ fs) : f.after.Grows R n := by
  obtain ⟨before, after, rfl⟩ := List.append_of_mem hf
  exact h.split.2.grows

theorem grows_to_mem (h : Chain R m fs n) (hf : f ∈ fs) : m.Grows R f.after := by
  obtain ⟨before, after, rfl⟩ := List.append_of_mem hf
  exact h.split.1.grows.trans f.grows

/-- **Two look-ups come to one place just if they have one key.** -/
theorem place_eq_iff (h : Chain R m fs n) (hf : f ∈ fs) (hg : g ∈ fs) :
    f.after.place f.key = g.after.place g.key ↔ f.key = g.key := by
  have hgrows := h.grows_of_mem hf
  rw [← hgrows.place_eq f.mem_keys_after, ← (h.grows_of_mem hg).place_eq g.mem_keys_after]
  exact OrderedMap.place_eq_iff (hgrows.mem_keys f.mem_keys_after)

/-- What was found stays in its place. -/
theorem stays (h : Chain R m fs n) (hf : f ∈ fs) :
    ∃ value, n.entries[f.after.place f.key]? = some (f.key, value) ∧ R f.value value := by
  have hgrows := h.grows_of_mem hf
  obtain ⟨value, hvalue, hR⟩ := hgrows.values _ _ f.get?_after
  refine ⟨value, ?_, hR⟩
  rw [← hgrows.place_eq f.mem_keys_after, OrderedMap.entries_place hvalue]

/-- **The first look-up of a key finds none,** and what others of the key find goes back to what it
has made. -/
theorem of_first (h : Chain R m (fs ++ f :: gs) n) (hm : f.key ∉ m.keys)
    (hfirst : ∀ e ∈ fs, e.key ≠ f.key) :
    f.before.get? f.key = none ∧ ∀ g ∈ fs ++ f :: gs, g.key = f.key → R f.value g.value := by
  obtain ⟨hbefore, hafter⟩ := h.split
  refine ⟨?_, fun g hg hkey => ?_⟩
  · -- nothing before has put the key in
    have hnot : f.key ∉ f.before.keys := by
      rw [hbefore.mem_keys_iff, not_or]
      exact ⟨hm, fun ⟨e, he, heq⟩ => hfirst e he heq⟩
    rw [OrderedMap.mem_keys_iff] at hnot
    exact Option.not_isSome_iff_eq_none.mp hnot
  · rcases List.mem_append.mp hg with hg | hg
    · exact absurd hkey (hfirst g hg)
    rcases List.mem_cons.mp hg with rfl | hg
    · exact refl_of R _
    · -- what was made has stayed up to the other look-up, which has found it
      obtain ⟨value, hvalue, hR⟩ := (hafter.grows_to_mem hg).values _ _ f.get?_after
      rw [← hkey, g.get?_after] at hvalue
      cases hvalue
      exact hR

/-- The same of look-ups that are recorded in some other form. -/
theorem of_first_map {γ : Type*} {find : γ → Find κ α} {l earlier later : List γ} {first : γ}
    (h : Chain R m (l.map find) n) (heq : l = earlier ++ first :: later)
    (hm : (find first).key ∉ m.keys) (hfirst : ∀ a ∈ earlier, (find a).key ≠ (find first).key) :
    (find first).before.get? (find first).key = none ∧
      ∀ a ∈ l, (find a).key = (find first).key → R (find first).value (find a).value := by
  have hmap : l.map find = earlier.map find ++ find first :: later.map find := by
    rw [heq, List.map_append, List.map_cons]
  obtain ⟨hnone, hothers⟩ := of_first (hmap ▸ h) hm (List.forall_mem_map.mpr hfirst)
  exact ⟨hnone, fun a ha => hothers _ (hmap ▸ List.mem_map_of_mem ha)⟩

end Chain

end ObjectMarkup
