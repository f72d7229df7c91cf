import ObjectMarkup.Locator.Percent
import ObjectMarkup.Decimal.Layout
import ObjectMarkup.Text.Digit
import ObjectMarkup.Text.Split

/-!
# Hosts

The host of a locator with a special scheme is a name, an IPv4 address or an IPv6 address in
brackets. Names are percent-decoded and brought into ASCII (`Domains`). A name whose last part is a
number is an IPv4 address, or wrong. Under other schemes a host is kept as it is written.
-/

namespace ObjectMarkup.Locator

open Text (radixValue? splitAtFirst?)

/-- Why a text is no locator. -/
inductive ParseError where
  /-- A host is needed and none is given. -/
  | emptyHost
  /-- What is no domain name. -/
  | invalidDomain
  /-- A port that is no number, or too large. -/
  | invalidPort
  /-- A host that ends in a number but is no IPv4 address. -/
  | invalidIpv4
  /-- Something else than an IPv6 address in brackets. -/
  | invalidIpv6
  /-- A character that no host has. -/
  | invalidHostCharacter
  /-- A relative reference, and nothing to resolve it against. -/
  | relativeWithoutBase
  /-- A relative reference against a base that has no hierarchical path. -/
  | relativeToFlatBase
  deriving DecidableEq, Repr

def ParseError.message : ParseError → String
  | .emptyHost => "empty host"
  | .invalidDomain => "invalid international domain name"
  | .invalidPort => "invalid port number"
  | .invalidIpv4 => "invalid IPv4 address"
  | .invalidIpv6 => "invalid IPv6 address"
  | .invalidHostCharacter => "invalid domain character"
  | .relativeWithoutBase => "relative URL without a base"
  | .relativeToFlatBase => "relative URL with a cannot-be-a-base base"

inductive Host where
  /-- A name, as it is written in the locator. -/
  | name (text : List Char)
  | ipv4 (address : Nat)
  /-- An IPv6 address, as eight groups of sixteen bits. -/
  | ipv6 (groups : List Nat)
  deriving DecidableEq, Repr

def Host.isEmpty : Host → Bool
  | .name [] => true
  | _ => false

/-! ### IPv4 -/

/-- Reads a part of an IPv4 address: hexadecimal behind `0x`, octal behind another zero, else
decimal. Nothing after the mark of the base is zero. -/
def ipv4Number? (s : List Char) : Option Nat :=
  match s with
  | [] => none
  | '0' :: 'x' :: digits | '0' :: 'X' :: digits => radixValue? 16 digits
  -- A zero alone is decimal, with more digits behind it it marks the base.
  | '0' :: d :: digits => radixValue? 8 (d :: digits)
  | digits => radixValue? 10 digits

/-- The parts between points. -/
def dotParts (s : List Char) : List (List Char) :=
  s.splitOn '.'

/-- The parts without an empty last one. -/
def addressParts (s : List Char) : List (List Char) :=
  let parts := dotParts s
  if parts.getLast? = some [] then parts.dropLast else parts

/-- Whether a name has to be an IPv4 address. -/
def endsInNumber (s : List Char) : Bool :=
  match (addressParts s).getLast? with
  | some last => (!last.isEmpty && last.all Char.isDigit) || (ipv4Number? last).isSome
  | none => false

/-- Reads an IPv4 address of at most four parts, of which the last one fills the remaining
bytes. -/
def ipv4? (s : List Char) : Option Nat := do
  let parts := addressParts s
  if 4 < parts.length then none
  let numbers ← parts.mapM ipv4Number?
  let last ← numbers.getLast?
  let front := numbers.dropLast
  if front.any (255 < ·) || Nat.pow 256 (4 - front.length) ≤ last then none
  some (front.zipIdx.foldl (fun sum (n, i) => sum + n * Nat.pow 256 (3 - i)) last)

/-- An IPv4 address as four numbers with points between. -/
def ipv4Text (address : Nat) : List Char :=
  ['.'].intercalate ([3, 2, 1, 0].map fun i => Decimal.natText (address / Nat.pow 256 i % 256))

/-! ### IPv6 -/

/-- Reads a group of up to four hexadecimal digits. -/
def ipv6Group? (s : List Char) : Option Nat :=
  if s.isEmpty || 4 < s.length then none else radixValue? 16 s

/-- Reads the number in a dotted tail: no leading zeros, and at most 255. -/
def dottedNumber? (s : List Char) : Option Nat := do
  if s.isEmpty || 3 < s.length || (s.head? = some '0' && 1 < s.length) then none
  let n ← radixValue? 10 s
  if 255 < n then none
  some n

/-- Reads the groups between colons. The last one may be four numbers with points, which make two
groups, where `dotted` allows it. -/
def ipv6Groups? (dotted : Bool) (s : List Char) : Option (List Nat) :=
  if s.isEmpty then some []
  else
    let parts := s.splitOn ':'
    match parts.getLast? with
    | none => none
    | some last =>
      if dotted && last.contains '.' then do
        let front ← parts.dropLast.mapM ipv6Group?
        match ← (dotParts last).mapM dottedNumber? with
        | [a, b, c, d] => some (front ++ [a * 256 + b, c * 256 + d])
        | _ => none
      else parts.mapM ipv6Group?

/-- Reads an IPv6 address. A double colon, at most one, stands for one zero group or more. -/
def ipv6? (s : List Char) : Option (List Nat) :=
  match splitAtFirst? [':', ':'] s with
  | none => do
    let groups ← ipv6Groups? true s
    if groups.length = 8 then some groups else none
  | some (before, after) => do
    let front ← ipv6Groups? false before
    let back ← ipv6Groups? true after
    -- The double colon stands for one group at least.
    if 7 < front.length + back.length then none
    some (front ++ List.replicate (8 - front.length - back.length) 0 ++ back)

/-- The length of the run of zeros at the front. -/
def zeroRun (groups : List Nat) : Nat :=
  (groups.takeWhile (· == 0)).length

/-- The place and length of the first longest run of zeros, among those from the `i`-th place on. -/
def longestZeroRun : (i : Nat) → List Nat → Nat × Nat
  | i, [] => (i, 0)
  | i, g :: rest =>
    let here := zeroRun (g :: rest)
    -- Of two runs of one length the first one is taken.
    let later := longestZeroRun (i + 1) rest
    if later.2 ≤ here then (i, here) else later

def ipv6GroupText (n : Nat) : List Char :=
  Nat.toDigits 16 n

/-- An IPv6 address with its first longest run of two or more zero groups left out. -/
def ipv6Text (groups : List Nat) : List Char :=
  let join := fun gs => [':'].intercalate (gs.map ipv6GroupText)
  let (place, length) := longestZeroRun 0 groups
  if length < 2 then join groups
  else join (groups.take place) ++ [':', ':'] ++ join (groups.drop (place + length))

def Host.text : Host → List Char
  | .name text => text
  | .ipv4 address => ipv4Text address
  | .ipv6 groups => '[' :: ipv6Text groups ++ [']']

/-! ### Names -/

/-- The characters of ASCII that no host has. -/
def forbiddenInHost : List Char :=
  ['\x00', '\t', '\n', '\r', ' ', '#', '/', ':', '<', '>', '?', '@', '[', '\\', ']', '^', '|']

/-- Whether a byte of a decoded name is outside ASCII, a control or a character no domain has. -/
def forbiddenInDomain (b : UInt8) : Bool :=
  b ≤ 0x20 || 0x7F ≤ b || b == 0x25 || forbiddenInHost.contains (Char.ofNat b.toNat)

/-- The name that ASCII bytes spell, if they are those of a name. -/
def asciiName? (bytes : List UInt8) : Option (List Char) :=
  if bytes.any forbiddenInDomain then none
  else some (bytes.map fun b => (Char.ofNat b.toNat).toLower)

/-- Whether a label stands for characters outside ASCII: it begins with `xn--`. -/
def isEncodedLabel (label : List UInt8) : Bool :=
  (label.take 4).map (fun b => (Char.ofNat b.toNat).toLower) == ['x', 'n', '-', '-']

/-- Whether a name has to be mapped or checked by the tables for international names. -/
def isInternational (bytes : List UInt8) : Bool :=
  bytes.any (0x80 ≤ ·) || (bytes.splitOn 0x2E).any isEncodedLabel

/-- How international names are brought into ASCII. The tables that this takes are not part of this
library, so nothing is known of the name that comes out. -/
structure Domains where
  /-- The ASCII form of a name in its bytes; there is none if it is no name. -/
  toAscii : List UInt8 → Option (List Char)

namespace Domains

/-- The name that bytes spell. Only international names depend on the tables. -/
def name? (domains : Domains) (bytes : List UInt8) : Option (List Char) :=
  if isInternational bytes then domains.toAscii bytes else asciiName? bytes

/-- Domains without tables: names outside ASCII are refused, and labels are not decoded. -/
def unmapped : Domains :=
  ⟨asciiName?⟩

end Domains

/-! ### Reading hosts -/

/-- Takes the brackets off an IPv6 address. -/
def bracketed (s : List Char) : Option (List Char) :=
  match s with
  | '[' :: rest => if rest.getLast? = some ']' then some rest.dropLast else none
  | _ => none

def ipv6Host (s : List Char) : Except ParseError Host :=
  match (bracketed s).bind ipv6? with
  | some groups => .ok (.ipv6 groups)
  | none => .error .invalidIpv6

/-- Reads a host under a special scheme. -/
def Host.read (domains : Domains) (s : List Char) : Except ParseError Host :=
  if s.head? = some '[' then ipv6Host s
  else
    -- The name is decoded first, so that no forbidden character can be hidden in it.
    match domains.name? (percentDecode (utf8Bytes s)) with
    | none => .error .invalidDomain
    | some domain =>
      if domain.isEmpty then .error .emptyHost
      -- A name that ends in a number is never looked up as a name.
      else if endsInNumber domain then
        match ipv4? domain with
        | some address => .ok (.ipv4 address)
        | none => .error .invalidIpv4
      else .ok (.name domain)

/-- Reads a host under any other scheme. -/
def Host.readVerbatim (s : List Char) : Except ParseError Host :=
  if s.head? = some '[' then ipv6Host s
  else if s.any forbiddenInHost.contains then .error .invalidHostCharacter
  else .ok (.name (percentEncode controlSet s))

example : ipv4? "0x7f.1".toList = some 0x7F000001 := by decide +kernel
example : (ipv6? "1::2".toList).map ipv6Text = some "1::2".toList := by decide +kernel

end ObjectMarkup.Locator
