import ObjectMarkup.OrderedMap
import ObjectMarkup.Panic
import ObjectMarkup.Decimal.Binary64
import ObjectMarkup.Locator.Basic

/-!
# Values and records

A value is what compiling an attribute or an element gives. Most values are plain data. A **record**
is not: it has a class, properties and children that can be changed after it was made, and any
number of values may stand for one record. So a value only holds the number of its record, and the
records themselves live in a `Store`.

A **constructor** is a value that makes values when it is called. What it does then is code, and code
is no value. So a value only holds the name of the code, together with the values that the code has
captured. What the code does is said elsewhere (`Calls`): it may do anything to the store, hand out
any value, and panic. What it keeps from one call to the next lies in the store as well.
-/

namespace ObjectMarkup

open Decimal (Binary64)

/-- The number of a record in a store. -/
abbrev RecordId := Nat

/-- What a constructor is made of. -/
structure Maker (α : Type) where
  /-- The name of its code. -/
  code : String
  /-- The values that the code has captured. -/
  captured : List α := []
  deriving Repr

/-- Bytes that were loaded, with the place they came from. -/
structure Resource where
  /-- Where the bytes came from. -/
  url : Locator
  bytes : List UInt8
  deriving DecidableEq, Repr

/-- The result of compiling an attribute or an element. -/
inductive Value where
  | null
  | bool (b : Bool)
  /-- An integer of 64 bits. -/
  | int (i : Int64)
  | float (x : Binary64)
  | string (s : String)
  | list (items : List Value)
  | record (id : RecordId)
  /-- A constructor under the path it is named by. -/
  | constructor (path : String) (maker : Maker Value)
  | resource (r : Resource)
  deriving Inhabited, Repr

namespace Value

def typeName : Value → String
  | .null => "null"
  | .bool _ => "bool"
  | .int _ => "int"
  | .float _ => "float"
  | .string _ => "string"
  | .list _ => "list"
  | .record _ => "object"
  | .constructor _ _ => "constructor"
  | .resource _ => "resource"

def isNull : Value → Bool
  | .null => true
  | _ => false

def bool? : Value → Option Bool
  | .bool b => some b
  | _ => none

def int? : Value → Option Int64
  | .int i => some i
  | _ => none

/-- The number: a floating point number as it is, an integer as the nearest one. -/
def float? : Value → Option Binary64
  | .float x => some x
  | .int i => some (Binary64.ofInt i.toInt)
  | _ => none

def string? : Value → Option String
  | .string s => some s
  | _ => none

def record? : Value → Option RecordId
  | .record id => some id
  | _ => none

def isRecord (v : Value) : Bool :=
  v.record?.isSome

def resource? : Value → Option Resource
  | .resource r => some r
  | _ => none

end Value

/-- A record: a class, properties and children. -/
structure Record where
  className : String
  /-- The properties in the order in which they were first set. -/
  properties : OrderedMap String Value := .empty
  children : List Value := []
  deriving Inhabited

namespace Record

def set (r : Record) (name : String) (value : Value) : Record :=
  { r with properties := r.properties.insert name value }

def push (r : Record) (child : Value) : Record :=
  { r with children := r.children ++ [child] }

end Record

/-- All records that were ever made, each under its number. -/
structure Store where
  /-- The records, by number. -/
  records : Array Record
  /-- What constructors keep from one call to the next. Nothing else looks at it. -/
  memory : List Value := []

namespace Store

def empty : Store :=
  { records := #[] }

instance : Inhabited Store := ⟨empty⟩

def size (s : Store) : Nat :=
  s.records.size

/-- The record under a number; a number that was never given out stands for an empty record. -/
def get (s : Store) (id : RecordId) : Record :=
  s.records[id]?.getD { className := "" }

def make (s : Store) (r : Record) : RecordId × Store :=
  (s.size, { s with records := s.records.push r })

def modify (s : Store) (id : RecordId) (f : Record → Record) : Store :=
  { s with records := s.records.modify id f }

def set (s : Store) (id : RecordId) (name : String) (value : Value) : Store :=
  s.modify id (·.set name value)

def push (s : Store) (id : RecordId) (child : Value) : Store :=
  s.modify id (·.push child)

def property? (s : Store) (id : RecordId) (name : String) : Option Value :=
  (s.get id).properties.get? name

@[simp] theorem size_modify (s : Store) (id : RecordId) (f : Record → Record) :
    (s.modify id f).size = s.size := by
  simp [modify, size]

@[simp] theorem size_make (s : Store) (r : Record) : (s.make r).2.size = s.size + 1 := by
  simp [make, size]

@[simp] theorem get_make_self (s : Store) (r : Record) : (s.make r).2.get (s.make r).1 = r := by
  simp [make, get, size]

theorem get_make_of_lt {s : Store} {id : RecordId} (h : id < s.size) (r : Record) :
    (s.make r).2.get id = s.get id := by
  simp [make, get, Array.getElem?_push, Nat.ne_of_lt (show id < s.records.size from h)]

theorem get_modify_of_ne (s : Store) {id other : RecordId} (h : other ≠ id)
    (f : Record → Record) : (s.modify id f).get other = s.get other := by
  simp [modify, get, Array.getElem?_modify, Ne.symm h]

theorem get_modify_self {s : Store} {id : RecordId} (h : id < s.size) (f : Record → Record) :
    (s.modify id f).get id = f (s.get id) := by
  have h' : id < s.records.size := h
  simp [modify, get, h', Array.getElem_modify]

end Store

/-- What constructors do when they are called. They may do anything to the store, but that no record
is ever taken away. -/
structure Calls where
  run : Maker Value → Store → Except Panic Value × Store
  size_le : ∀ maker s, s.size ≤ (run maker s).2.size

/-- Constructors that give nothing. -/
def Calls.null : Calls :=
  ⟨fun _ s => (.ok .null, s), fun _ _ => Nat.le_refl _⟩

end ObjectMarkup
