import ObjectMarkup.Value.Basic

/-!
# Comparing values

Two values are equal when they have the same shape and equal parts. Records are equal when they are
the same record, or have the same class, the same properties in any order and the same children in
order.

While the contents of two different records are compared both are **held**, and a record that is
held cannot be held again. A comparison that comes upon a held record is stuck. The comparison
follows the order of evaluation, because a difference found early keeps it from getting stuck.
-/

namespace ObjectMarkup

/-- The end of a comparison: an answer, or nothing if the comparison is stuck. -/
abbrev Comparison := Option Bool

/-- Goes on to the next part only if the parts so far are equal. -/
def Comparison.andThen (a : Comparison) (next : Unit → Comparison) : Comparison :=
  match a with
  | some true => next ()
  | other => other

/-- Whether every comparison in a list holds; the first one that does not ends it. -/
def Comparison.all {α : Type} (compare : α → Comparison) : List α → Comparison
  | [] => some true
  | a :: rest => Comparison.andThen (compare a) fun _ => Comparison.all compare rest

namespace Value

mutual

/-- Compares two values, given how to compare records. -/
def compare (records : RecordId → RecordId → Comparison) : Value → Value → Comparison
  | .null, .null => some true
  | .bool a, .bool b => some (a == b)
  | .int a, .int b => some (a == b)
  | .float a, .float b => some (a.same b)
  | .string a, .string b => some (a == b)
  | .list a, .list b => compareAll records a b
  | .record a, .record b => records a b
  | .constructor a _, .constructor b _ => some (a == b)
  | .resource a, .resource b => some (a == b)
  | _, _ => some false

/-- Compares two lists: their lengths first, then item by item. -/
def compareAll (records : RecordId → RecordId → Comparison) :
    List Value → List Value → Comparison
  | as, bs => if as.length = bs.length then compareItems records as bs else some false

/-- Compares two lists of one length item by item. -/
def compareItems (records : RecordId → RecordId → Comparison) :
    List Value → List Value → Comparison
  | a :: as, b :: bs =>
    Comparison.andThen (compare records a b) fun _ => compareItems records as bs
  | _, _ => some true

end

end Value

/-- Compares two maps: the number of entries first, then each entry of the first with what the
second has under its name. -/
def OrderedMap.compareWith {α : Type} (values : α → α → Comparison)
    (a b : OrderedMap String α) : Comparison :=
  if a.size = b.size then
    Comparison.all (fun (name, v) => match b.get? name with
      | some w => values v w
      | none => some false) a.entries
  else some false

namespace Store

/-- Compares two records while the records in `held` are held; `depth` bounds how many more are. -/
def compareRecords (s : Store) : (depth : Nat) → (held : List RecordId) →
    RecordId → RecordId → Comparison
  | 0, _, _, _ => none
  | depth + 1, held, a, b =>
    if a = b then some true
    -- Being the same record is asked before being held, so a record always equals itself.
    else if a ∈ held ∨ b ∈ held then none
    else
      let inside := Value.compare (s.compareRecords depth (a :: b :: held))
      let ra := s.get a
      let rb := s.get b
      if ra.className = rb.className then
        Comparison.andThen (ra.properties.compareWith inside rb.properties) fun _ =>
          Value.compareAll (s.compareRecords depth (a :: b :: held)) ra.children rb.children
      else some false

/-- **Compares two values.** Each step holds two more records, so the number of records bounds the
steps. -/
def compare (s : Store) (a b : Value) : Comparison :=
  a.compare (s.compareRecords (s.size + 1) []) b

end Store

end ObjectMarkup
