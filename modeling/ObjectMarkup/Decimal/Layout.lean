import ObjectMarkup.Decimal.Shortest

/-!
# Writing floating point numbers

The shortest digits of a number are laid out by a `Layout`, a record of the decisions a format
makes: up to which powers of ten digits are written in place, what an integer gets appended, how
ties between shortest candidates go, and the words for what has no digits. The formats themselves
are values of this type and stand beside the text they belong to.
-/

namespace ObjectMarkup.Decimal

/-- The decisions of a format for floating point numbers. -/
structure Layout where
  /-- Whether a number with this power of ten for its first digit is written in place, rather than
  with an exponent. -/
  inPlace : Int → Bool
  /-- What follows a number in place that has no digit after the point. -/
  integerTail : List Char
  /-- Which of two equally near shortest candidates is written. -/
  tie : Tie
  /-- The word for what is no number. -/
  nan : List Char
  /-- The word for infinity, without its sign. -/
  infinity : List Char
  /-- Whether the sign of an infinity is written. -/
  infinitySign : Bool

/-- The decimal digits of a natural number. -/
def natText (n : Nat) : List Char :=
  Nat.toDigits 10 n

/-- The decimal text of an integer, with a sign when it is negative. -/
def intText (i : Int) : List Char :=
  if i < 0 then '-' :: natText i.natAbs else natText i.natAbs

/-- The digits in place: zeros fill up to the point on either side. -/
def Digits.positional (tail : List Char) (d : Digits) : List Char :=
  if d.exponent < 0 then
    '0' :: '.' :: (List.replicate (-d.exponent - 1).toNat '0' ++ d.digits)
  else
    let places := d.exponent.toNat + 1
    if d.digits.length ≤ places then
      d.digits ++ List.replicate (places - d.digits.length) '0' ++ tail
    else d.digits.take places ++ '.' :: d.digits.drop places

/-- The digits with a point after the first one and a signed exponent. -/
def Digits.scientific (d : Digits) : List Char :=
  let fraction := match d.digits.drop 1 with
    | [] => []
    | rest => '.' :: rest
  d.digits.take 1 ++ fraction ++ 'e' :: (if d.exponent < 0 then '-' else '+')
    :: natText d.exponent.natAbs

/-- The text of a finite number without its sign. -/
def Layout.finite (style : Layout) (x : Binary64.Scaled) : List Char :=
  if x.significand = 0 then '0' :: style.integerTail
  else
    let d := shortest style.tie x
    if style.inPlace d.exponent then d.positional style.integerTail else d.scientific

/-- The text of a number in the layout. -/
def Layout.text (style : Layout) (x : Binary64) : List Char :=
  let sign := if x.negative then ['-'] else []
  match x.scaled? with
  | some m => sign ++ style.finite m
  | none =>
    if x.isNaN then style.nan
    else if style.infinitySign then sign ++ style.infinity else style.infinity

end ObjectMarkup.Decimal
