import ObjectMarkup.Value.Basic

/-!
# Written values

A `Literal` describes a value together with the records it needs. Building it makes those records;
a reference names a value that was built before, and shares its record. There are three constructors
that can be written down. More is possible in a table of literals (`Literal.calls`), which has one for
each code: such a constructor builds its literal anew for each call.
-/

namespace ObjectMarkup

open Decimal (Binary64)

/-- A value as it is written down. -/
inductive Literal where
  | null
  | bool (b : Bool)
  | int (i : Int64)
  | float (x : Binary64)
  | string (s : String)
  | list (items : List Literal)
  /-- A new record. -/
  | record (className : String) (properties : List (String × Literal)) (children : List Literal)
  /-- A constructor that makes a new record of the class for each call. -/
  | fresh (path className : String)
  /-- A constructor that gives the same value for each call. -/
  | fixed (path : String) (value : Literal)
  | panics (path message : String)
  | resource (r : Resource)
  /-- The value at a place of the list of known values; null if there is none. -/
  | reference (place : Nat)
  deriving Inhabited, Repr

namespace Maker

/-- Makes a new empty record of the class for each call. -/
def fresh (className : String) : Maker Value :=
  ⟨"fresh", [.string className]⟩

/-- Gives the same value for each call. -/
def fixed (value : Value) : Maker Value :=
  ⟨"fixed", [value]⟩

/-- Panics in each call. -/
def panics (message : String) : Maker Value :=
  ⟨"panics", [.string message]⟩

/-- What these do when they are called. Other code gives nothing. -/
def call (s : Store) : Maker Value → Except Panic Value × Store
  | ⟨"fresh", [.string className]⟩ =>
    let (id, s) := s.make { className := className }
    (.ok (.record id), s)
  | ⟨"fixed", [value]⟩ => (.ok value, s)
  | ⟨"panics", [.string message]⟩ => (.error (.text message), s)
  | _ => (.ok .null, s)

theorem size_le_call (s : Store) (maker : Maker Value) : s.size ≤ (maker.call s).2.size := by
  unfold call
  split
  · exact (Store.size_make _ _).symm ▸ Nat.le_succ _
  all_goals exact Nat.le_refl _

end Maker

namespace Literal

mutual

/-- Builds the value and its records. -/
def build (known : List Value) (s : Store) : Literal → Value × Store
  | .null => (.null, s)
  | .bool b => (.bool b, s)
  | .int i => (.int i, s)
  | .float x => (.float x, s)
  | .string t => (.string t, s)
  | .list items =>
    let (items, s) := buildAll known s items
    (.list items, s)
  | .record className properties children =>
    let (properties, s) := buildEntries known s properties
    let (children, s) := buildAll known s children
    let (id, s) := s.make ⟨className, .ofList properties, children⟩
    (.record id, s)
  | .fresh path className => (.constructor path (.fresh className), s)
  | .fixed path value =>
    let (value, s) := build known s value
    (.constructor path (.fixed value), s)
  | .panics path message => (.constructor path (.panics message), s)
  | .resource r => (.resource r, s)
  | .reference place => (known[place]?.getD .null, s)

def buildAll (known : List Value) (s : Store) : List Literal → List Value × Store
  | [] => ([], s)
  | l :: rest =>
    let (v, s) := build known s l
    let (others, s) := buildAll known s rest
    (v :: others, s)

def buildEntries (known : List Value) (s : Store) :
    List (String × Literal) → List (String × Value) × Store
  | [] => ([], s)
  | (name, l) :: rest =>
    let (v, s) := build known s l
    let (others, s) := buildEntries known s rest
    ((name, v) :: others, s)

end

mutual

/-- Building only adds records. -/
theorem size_le_build (known : List Value) : ∀ (l : Literal) (s : Store),
    s.size ≤ (l.build known s).2.size
  | .null, _ | .bool _, _ | .int _, _ | .float _, _ | .string _, _ | .fresh _ _, _ | .panics _ _, _
  | .resource _, _ | .reference _, _ => Nat.le_refl _
  | .list items, s => size_le_buildAll known items s
  | .fixed _ value, s => size_le_build known value s
  | .record className properties children, s => by
    have hproperties := size_le_buildEntries known properties s
    have hchildren := size_le_buildAll known children (buildEntries known s properties).2
    rw [build, Store.size_make]
    exact Nat.le_succ_of_le (Nat.le_trans hproperties hchildren)

theorem size_le_buildAll (known : List Value) : ∀ (items : List Literal) (s : Store),
    s.size ≤ (buildAll known s items).2.size
  | [], _ => Nat.le_refl _
  | l :: rest, s => Nat.le_trans (size_le_build known l s) (size_le_buildAll known rest _)

theorem size_le_buildEntries (known : List Value) : ∀ (entries : List (String × Literal)) (s : Store),
    s.size ≤ (buildEntries known s entries).2.size
  | [], _ => Nat.le_refl _
  | (_, l) :: rest, s => Nat.le_trans (size_le_build known l s) (size_le_buildEntries known rest _)

end

/-- What constructors do that build their literals anew for each call. The code is the name of the
literal, and what it has captured are the values that the literal can refer to. -/
def call (literals : List (String × Literal)) (maker : Maker Value) (s : Store) :
    Except Panic Value × Store :=
  match literals.lookup maker.code with
  | some l =>
    let (value, s) := l.build maker.captured s
    (.ok value, s)
  | none => maker.call s

/-- The constructors of a table of literals, together with those that can be written down. -/
def calls (literals : List (String × Literal)) : Calls where
  run := call literals
  size_le maker s := by
    unfold call
    split
    · next l _ => exact size_le_build maker.captured l s
    · exact maker.size_le_call s

end Literal

end ObjectMarkup
