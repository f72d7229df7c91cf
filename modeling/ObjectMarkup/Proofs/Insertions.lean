import Mathlib.Data.List.Induction
import ObjectMarkup.OrderedMap

/-!
# Inserting a list into a map

Entries that are inserted one after the other: the keys come in the order of their first appearance
(`keys_insertAll`), and under each is the last value (`get?_insertAll`).
-/

namespace ObjectMarkup

namespace OrderedMap

variable {κ α : Type} [DecidableEq κ]

/-- Inserts entries one after the other. -/
def insertAll (m : OrderedMap κ α) (l : List (κ × α)) : OrderedMap κ α :=
  l.foldl (fun m e => m.insert e.1 e.2) m

theorem insertAll_append (m : OrderedMap κ α) (l l' : List (κ × α)) :
    m.insertAll (l ++ l') = (m.insertAll l).insertAll l' :=
  List.foldl_append

theorem eraseDups_eq_self {l : List κ} (h : l.Nodup) : l.eraseDups = l := by
  induction l with
  | nil => rfl
  | cons a rest ih =>
    obtain ⟨ha, hrest⟩ := List.nodup_cons.mp h
    have hfilter : (rest.filter fun b => !b == a) = rest :=
      List.filter_eq_self.mpr fun b hb => by simpa using fun heq : b = a => ha (heq ▸ hb)
    rw [List.eraseDups_cons, hfilter, ih hrest]

theorem eraseDups_concat (l : List κ) (a : κ) :
    (l ++ [a]).eraseDups = if a ∈ l then l.eraseDups else l.eraseDups ++ [a] := by
  have hlast : [a].removeAll l = if a ∈ l then [] else [a] := by
    simp only [List.removeAll, List.filter_cons, List.filter_nil, List.elem_eq_mem,
      Bool.not_eq_true', decide_eq_false_iff_not, ite_not]
  rw [List.eraseDups_append, hlast]
  split
  · exact List.append_nil _
  · rfl

/-- The keys come in the order of their first appearance. -/
theorem keys_insertAll (m : OrderedMap κ α) (l : List (κ × α)) :
    (m.insertAll l).keys = (m.keys ++ l.map Prod.fst).eraseDups := by
  induction l using List.reverseRecOn with
  | nil =>
    rw [List.map_nil, List.append_nil]
    exact (eraseDups_eq_self m.nodup).symm
  | append_singleton l e ih =>
    have hlast : (m.insertAll (l ++ [e])).keys = ((m.insertAll l).insert e.1 e.2).keys :=
      congrArg keys (insertAll_append m l [e])
    rw [hlast, keys_insert, List.map_append, ← List.append_assoc, List.map_singleton,
      eraseDups_concat, ih]
    simp only [List.mem_eraseDups]

/-- Under every key is the last value that was inserted. -/
theorem get?_insertAll (m : OrderedMap κ α) (l : List (κ × α)) (key : κ) :
    (m.insertAll l).get? key = (l.reverse.lookup key).or (m.get? key) := by
  induction l using List.reverseRecOn with
  | nil => rfl
  | append_singleton l e ih =>
    rw [insertAll_append, List.reverse_concat, List.lookup_cons]
    show ((m.insertAll l).insert e.1 e.2).get? key = _
    rw [get?_insert, ih]
    by_cases h : key = e.1
    · simp [h]
    · simp [h, beq_eq_false_iff_ne.mpr h]

end OrderedMap

end ObjectMarkup
