import ObjectMarkup.Decimal.Binary64

/-!
# Reading decimal numerals

The unsigned numerals are `digits`, `digits.`, `digits.digits` and `.digits`, each optionally
followed by `e` or `E`, an optional sign and digits. `Numeral.scan` takes the longest one off the
front of a text; an `e` that no digit follows is left in the rest.

A whole text is a number when it is an optional sign followed by such a numeral and nothing else,
or by one of the words `inf`, `infinity` and `nan` in any letter case (`readNumber`).
-/

namespace ObjectMarkup.Decimal

/-- The value of a list of decimal digits, most significant first. -/
def digitsValue (digits : List Char) : Nat :=
  digits.foldl (fun n c => 10 * n + (c.toNat - '0'.toNat)) 0

/-- An unsigned decimal numeral. -/
structure Numeral where
  /-- The digits before the point. -/
  whole : List Char
  /-- The digits after the point. -/
  fraction : List Char
  /-- The exponent of ten that is written. -/
  exponent : Int
  deriving DecidableEq, Repr

/-- **The value of a numeral** under a sign: the number nearest to what is written. -/
def Numeral.value (negative : Bool) (n : Numeral) : Binary64 :=
  Binary64.ofDecimal negative (digitsValue (n.whole ++ n.fraction))
    (n.exponent - n.fraction.length)

/-- Takes an optional sign off the front: whether it is a minus, and the rest. -/
def splitSign : List Char → Bool × List Char
  | '-' :: rest => (true, rest)
  | '+' :: rest => (false, rest)
  | s => (false, s)

/-- Takes an exponent off the front. Without one the exponent is zero and nothing is taken. -/
def scanExponent (s : List Char) : Int × List Char :=
  match s with
  | c :: rest =>
    if c = 'e' ∨ c = 'E' then
      let (negative, body) := splitSign rest
      match body.takeWhile Char.isDigit with
      -- Without a digit the letter is not an exponent, so it is given back.
      | [] => (0, s)
      | digits =>
        let n : Int := digitsValue digits
        (if negative then -n else n, body.dropWhile Char.isDigit)
    else (0, s)
  | [] => (0, s)

/-- Takes a point and the digits after it off the front. -/
def scanFraction : List Char → List Char × List Char
  | '.' :: rest => (rest.takeWhile Char.isDigit, rest.dropWhile Char.isDigit)
  | s => ([], s)

/-- Takes the longest unsigned numeral off the front. -/
def Numeral.scan (s : List Char) : Option (Numeral × List Char) :=
  let whole := s.takeWhile Char.isDigit
  let (fraction, rest) := scanFraction (s.dropWhile Char.isDigit)
  if whole.isEmpty && fraction.isEmpty then none
  else
    let (exponent, rest) := scanExponent rest
    some (⟨whole, fraction, exponent⟩, rest)

/-- The words for numbers without digits, in lower case. -/
def specialNumber (negative : Bool) (word : List Char) : Option Binary64 :=
  if word = ['i', 'n', 'f'] ∨ word = ['i', 'n', 'f', 'i', 'n', 'i', 't', 'y'] then
    some (.infinity negative)
  else if word = ['n', 'a', 'n'] then some .nan
  else none

/-- Reads a whole text as a number. -/
def readNumber (s : List Char) : Option Binary64 :=
  let (negative, body) := splitSign s
  match Numeral.scan body with
  -- Anything behind the numeral means that the text as a whole is none.
  | some (n, []) => some (n.value negative)
  | _ => specialNumber negative (body.map Char.toLower)

end ObjectMarkup.Decimal
