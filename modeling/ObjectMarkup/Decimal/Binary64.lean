/-!
# Binary floating point numbers of 64 bits

A number is its bit pattern: a sign bit, eleven bits of exponent and fifty-two of fraction. All
questions about it are answered by integer arithmetic on those fields, so nothing here depends on
the arithmetic of a machine.

Two operations connect the patterns with exact numbers:

* `Binary64.scaled?` reads a finite pattern as `m * 2 ^ q`;
* `Binary64.nearest` writes the pattern nearest to a fraction, a tie going to the even pattern. The
  encoding is monotone: counting upwards through the patterns of one sign counts through the
  numbers, so rounding up past the last fraction lands on the next exponent by itself.
-/

namespace ObjectMarkup.Decimal

/-- A floating point number of 64 bits. -/
structure Binary64 where
  /-- The pattern: sign, exponent, fraction. -/
  bits : UInt64
  deriving DecidableEq, Repr, Inhabited

namespace Binary64

def signBit : Nat :=
  0x8000000000000000

/-- The number of fractions that share an exponent. -/
def fractionCount : Nat :=
  0x10000000000000

def negative (x : Binary64) : Bool :=
  decide (signBit ≤ x.bits.toNat)

/-- The pattern without its sign bit. -/
def magnitude (x : Binary64) : Nat :=
  x.bits.toNat % signBit

/-- The pattern of infinity without its sign: every larger magnitude is not a number. -/
def infinityMagnitude : Nat :=
  2047 * fractionCount

def ofMagnitude (negative : Bool) (magnitude : Nat) : Binary64 :=
  ⟨UInt64.ofNat ((if negative then signBit else 0) + magnitude)⟩

/-- Whether the pattern stands for no number at all. -/
def isNaN (x : Binary64) : Bool :=
  decide (infinityMagnitude < x.magnitude)

/-- Whether the pattern is one of the two infinities. -/
def isInfinite (x : Binary64) : Bool :=
  x.magnitude == infinityMagnitude

/-- Whether the pattern stands for a number other than the infinities. -/
def isFinite (x : Binary64) : Bool :=
  decide (x.magnitude < infinityMagnitude)

/-- Whether the pattern is one of the two zeros. -/
def isZero (x : Binary64) : Bool :=
  x.magnitude == 0

def infinity (negative : Bool) : Binary64 :=
  ofMagnitude negative infinityMagnitude

def zero (negative : Bool) : Binary64 :=
  ofMagnitude negative 0

/-- The pattern used for what is no number. -/
def nan : Binary64 :=
  ofMagnitude false (infinityMagnitude + fractionCount / 2)

/-- **Numeric equality.** What is no number equals nothing, the two zeros are equal, and all other
patterns are equal to themselves only. -/
def same (x y : Binary64) : Bool :=
  !x.isNaN && !y.isNaN && (x.bits == y.bits || (x.isZero && y.isZero))

/-- A finite number without its sign, as a significand and a power of two. -/
structure Scaled where
  significand : Nat
  power : Int
  deriving DecidableEq, Repr

/-- Reads a finite number without its sign. Numbers with exponent field zero have no leading bit
and share the power of the smallest exponent. -/
def scaled? (x : Binary64) : Option Scaled :=
  if x.isFinite then
    -- The magnitude is the exponent field followed by the fraction field.
    let exponent : Nat := x.magnitude / fractionCount
    let fraction : Nat := x.magnitude % fractionCount
    some (if exponent = 0 then ⟨fraction, -1074⟩
      else ⟨fractionCount + fraction, (exponent : Int) - 1075⟩)
  else none

/-- The quotient rounded to the nearest integer, a tie to the even one. -/
def roundQuotient (num den : Nat) : Nat :=
  let q := num / den
  let twice := 2 * (num % den)
  -- A quotient in the middle is made even.
  if twice < den then q else if den < twice then q + 1 else q + q % 2

/-- The greatest `k` with `2 ^ k ≤ num / den`, for positive `num` and `den`. -/
def binaryExponent (num den : Nat) : Int :=
  let k : Int := (num.log2 : Int) - (den.log2 : Int)
  -- The difference of the two lengths is right or one too large.
  let reached := if 0 ≤ k then den * Nat.pow 2 k.toNat ≤ num
    else den ≤ num * Nat.pow 2 (-k).toNat
  if reached then k else k - 1

/-- The fraction divided by a power of two, as a fraction. -/
def divideByPower (num den : Nat) (power : Int) : Nat × Nat :=
  if 0 ≤ power then (num, den * Nat.pow 2 power.toNat) else (num * Nat.pow 2 (-power).toNat, den)

/-- The magnitude of the number with a significand below or at `2 ^ 53` and a power that is at
least -1074; what is too large is infinite. -/
def encode (significand : Nat) (power : Int) : Nat :=
  min infinityMagnitude
    (if significand < fractionCount then significand
      else (power + 1075).toNat * fractionCount + (significand - fractionCount))

/-- The magnitude nearest to the fraction `num / den`. -/
def nearestMagnitude (num den : Nat) : Nat :=
  if num = 0 then 0
  else
    -- The significand gets 53 bits, or fewer where the power would fall below the least one.
    let power := max (binaryExponent num den - 52) (-1074)
    let (n, d) := divideByPower num den power
    encode (roundQuotient n d) power

/-- **The nearest number** to the fraction `num / den` with the sign, a tie to the even pattern. -/
def nearest (negative : Bool) (num den : Nat) : Binary64 :=
  ofMagnitude negative (nearestMagnitude num den)

/-- The number nearest to an integer. -/
def ofInt (i : Int) : Binary64 :=
  nearest (decide (i < 0)) i.natAbs 1

/-- The number nearest to `significand * 10 ^ exponent` with the sign.

Exponents that are far out are settled without the power of ten, because `8 ^ n ≤ 10 ^ n` shows
already that the number is beyond the last finite one, or below half of the first one. -/
def ofDecimal (negative : Bool) (significand : Nat) (exponent : Int) : Binary64 :=
  if significand = 0 then zero negative
  else if 1024 ≤ (significand.log2 : Int) + 3 * exponent ∧ 0 ≤ exponent then infinity negative
  else if (significand.log2 : Int) + 1 + 3 * exponent ≤ -1075 then zero negative
  else if 0 ≤ exponent then nearest negative (significand * Nat.pow 10 exponent.toNat) 1
  else nearest negative significand (Nat.pow 10 (-exponent).toNat)

example : (ofInt 1).bits = 0x3ff0000000000000 := by decide
example : (ofDecimal false 1 (-1)).bits = 0x3fb999999999999a := by decide +kernel
example : (ofInt 9007199254740993).bits = (ofInt 9007199254740992).bits := by decide +kernel

end Binary64

end ObjectMarkup.Decimal
