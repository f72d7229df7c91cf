/-!
# Percent encoding

A character that may not stand in a part of a locator is written as the bytes of its UTF-8 form,
each as a `%` and two capital hexadecimal digits. Which characters those are depends on the part:
control characters and everything outside ASCII always, and beyond that the set of the part.
-/

namespace ObjectMarkup.Locator

def hexDigit (n : Nat) : Char :=
  if n < 10 then Char.ofNat ('0'.toNat + n) else Char.ofNat ('A'.toNat + (n - 10))

/-- A byte as a percent sign and two digits. -/
def percentByte (b : UInt8) : List Char :=
  ['%', hexDigit (b.toNat / 16), hexDigit (b.toNat % 16)]

/-- A set of characters of ASCII that a part of a locator does not admit. -/
abbrev EncodeSet := List Char

/-- Whether a character has to be encoded. -/
def EncodeSet.covers (set : EncodeSet) (c : Char) : Bool :=
  decide (c.toNat < 0x20) || decide (0x7E < c.toNat) || set.contains c

/-- Encodes the characters that the set does not admit. -/
def percentEncode (set : EncodeSet) (s : List Char) : List Char :=
  s.flatMap fun c => if set.covers c then (String.utf8EncodeChar c).flatMap percentByte else [c]

/-- Encodes the bytes that the set does not admit. -/
def percentEncodeBytes (set : EncodeSet) (bytes : List UInt8) : List Char :=
  bytes.flatMap fun b =>
    let c := Char.ofNat b.toNat
    if set.covers c then percentByte b else [c]

/-- The set of opaque paths and hosts: controls only. -/
def controlSet : EncodeSet := []

def fragmentSet : EncodeSet := [' ', '"', '<', '>', '`']

def querySet : EncodeSet := [' ', '"', '#', '<', '>']

def specialQuerySet : EncodeSet := '\'' :: querySet

def pathSet : EncodeSet := fragmentSet ++ ['#', '?', '\x7b', '\x7d']

def userinfoSet : EncodeSet := pathSet ++ ['/', ':', ';', '=', '@', '[', '\\', ']', '^', '|']

/-- The set of one segment made from a file name: a separator or a percent sign in the name must
not be read as one. -/
def fileNameSet : EncodeSet := pathSet ++ ['/', '%', '\\']

def hexDigitValue? (c : UInt8) : Option UInt8 :=
  if 0x30 ≤ c && c ≤ 0x39 then some (c - 0x30)
  else if 0x41 ≤ c && c ≤ 0x46 then some (c - 0x41 + 10)
  else if 0x61 ≤ c && c ≤ 0x66 then some (c - 0x61 + 10)
  else none

/-- Replaces every percent sign with two digits by the byte it stands for. -/
def percentDecode : List UInt8 → List UInt8
  | [] => []
  | [a] => [a]
  | [a, b] => [a, b]
  | a :: b :: c :: rest =>
    if a = 0x25 then
      match hexDigitValue? b, hexDigitValue? c with
      | some x, some y => (x * 16 + y) :: percentDecode rest
      | _, _ => a :: percentDecode (b :: c :: rest)
    else a :: percentDecode (b :: c :: rest)

def utf8Bytes (s : List Char) : List UInt8 :=
  s.flatMap String.utf8EncodeChar

end ObjectMarkup.Locator
