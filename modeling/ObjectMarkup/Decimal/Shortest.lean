import ObjectMarkup.Decimal.Binary64

/-!
# The fewest decimal digits that read back

The reals that round to a finite number form an interval around it, whose ends belong to it exactly
when the significand is even. Among the decimal numbers in that interval the shortest are those on
the coarsest grid `s * 10 ^ k` that has a point inside, and of these the nearest to the number is
wanted. If a grid has a point inside the interval then one of the two grid points next to the
number is inside, so two candidates for each grid are enough; seventeen digits always suffice.

Where the two candidates are equally near, the caller says which one is wanted.
-/

namespace ObjectMarkup.Decimal

/-- A positive decimal number: `digits` is read as an integer and multiplied by `10 ^ power`. -/
structure Digits where
  /-- The significant digits, without leading or trailing zeros. -/
  digits : List Char
  /-- The power of ten of the first digit. -/
  exponent : Int
  deriving DecidableEq, Repr

/-- What becomes of a number halfway between its two shortest candidates. -/
inductive Tie where
  /-- The candidate with an even last digit. -/
  | toEven
  | up
  deriving DecidableEq, Repr

/-- An exact positive number `num / den`. -/
structure Fraction where
  num : Nat
  den : Nat
  deriving DecidableEq, Repr

def Fraction.ofScaled (n : Nat) (power : Int) : Fraction :=
  if 0 ≤ power then ⟨n * Nat.pow 2 power.toNat, 1⟩ else ⟨n, Nat.pow 2 (-power).toNat⟩

def Fraction.ofGrid (n : Nat) (power : Int) : Fraction :=
  if 0 ≤ power then ⟨n * Nat.pow 10 power.toNat, 1⟩ else ⟨n, Nat.pow 10 (-power).toNat⟩

def Fraction.below (a b : Fraction) : Bool :=
  decide (a.num * b.den < b.num * a.den)

/-- The reals that round to one positive finite number. -/
structure Basin where
  low : Fraction
  centre : Fraction
  high : Fraction
  /-- Whether the ends round to the number too. -/
  closed : Bool
  deriving Repr

/-- The reals that round to `significand * 2 ^ power`. Below a power of two the numbers lie twice
as dense, so there the lower end is half as far away; all is counted in quarters of a step. -/
def Basin.ofScaled (x : Binary64.Scaled) : Basin :=
  let quarters := 4 * x.significand
  let gap := if x.significand = Binary64.fractionCount ∧ -1074 < x.power then 1 else 2
  { low := Fraction.ofScaled (quarters - gap) (x.power - 2)
    centre := Fraction.ofScaled quarters (x.power - 2)
    high := Fraction.ofScaled (quarters + 2) (x.power - 2)
    closed := x.significand % 2 == 0 }

def Basin.holds (b : Basin) (x : Fraction) : Bool :=
  if b.closed then !x.below b.low && !b.high.below x else b.low.below x && x.below b.high

/-- The power of ten of the first digit of a positive number below one, found by multiplying with
ten until it is reached; `fuel` bounds the search. -/
def decimalExponentBelowOne (den : Nat) : Nat → Nat → Int
  | 0, _ => 0
  | fuel + 1, num => if den ≤ num then 0 else decimalExponentBelowOne den fuel (num * 10) - 1

/-- The greatest `e` with `10 ^ e ≤ x`, for a positive number not below `10 ^ -400`. -/
def Fraction.decimalExponent (x : Fraction) : Int :=
  if x.den ≤ x.num then ((Nat.toDigits 10 (x.num / x.den)).length : Int) - 1
  else decimalExponentBelowOne x.den 400 x.num

/-- The greatest grid point `n * 10 ^ power` not above the fraction, as `n`. -/
def Fraction.gridFloor (x : Fraction) (power : Int) : Nat :=
  if 0 ≤ power then x.num / (x.den * Nat.pow 10 power.toNat)
  else x.num * Nat.pow 10 (-power).toNat / x.den

/-- Which of the neighbours `n` and `n + 1` on the grid is nearer to the centre. -/
def Basin.nearer (b : Basin) (tie : Tie) (n : Nat) (power : Int) : Nat :=
  let middle := Fraction.ofGrid (2 * n + 1) power
  let doubled : Fraction := ⟨2 * b.centre.num, b.centre.den⟩
  if doubled.below middle then n
  else if middle.below doubled then n + 1
  else match tie with
    | .toEven => n + n % 2
    | .up => n + 1

/-- The grid point of one grid that is wanted: a neighbour of the centre inside the basin, and the
nearer of them when both are inside. -/
def Basin.gridPoint? (b : Basin) (tie : Tie) (power : Int) : Option Nat :=
  let n := b.centre.gridFloor power
  -- Zero reads back as zero only, even where it lies at the end of the basin.
  let lower := b.holds (Fraction.ofGrid n power) && decide (0 < n)
  let upper := b.holds (Fraction.ofGrid (n + 1) power)
  match lower, upper with
  | true, true => some (b.nearer tie n power)
  | true, false => some n
  | false, true => some (n + 1)
  | false, false => none

/-- The decimal number `n * 10 ^ power`, without its trailing zeros. -/
def Digits.ofGrid (n : Nat) (power : Int) : Digits :=
  let written := Nat.toDigits 10 n
  { digits := (written.reverse.dropWhile (· == '0')).reverse
    exponent := power + ((written.length : Int) - 1) }

/-- Tries grids from coarse to fine. -/
def Basin.shortest (b : Basin) (tie : Tie) : Nat → Int → Digits
  | 0, power => Digits.ofGrid (b.centre.gridFloor power) power
  | tries + 1, power =>
    match b.gridPoint? tie power with
    | some n => Digits.ofGrid n power
    | none => b.shortest tie tries (power - 1)

/-- **The shortest decimal number** that rounds to a positive finite number. -/
def shortest (tie : Tie) (x : Binary64.Scaled) : Digits :=
  let b := Basin.ofScaled x
  b.shortest tie 17 b.centre.decimalExponent

example : shortest .toEven ⟨1, -1074⟩ = ⟨['5'], -324⟩ := by decide +kernel
example : (Binary64.ofDecimal false 1 23).scaled?.map (shortest .toEven) = some ⟨['1'], 23⟩ := by
  decide +kernel

end ObjectMarkup.Decimal
