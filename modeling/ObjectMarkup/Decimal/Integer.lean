import ObjectMarkup.Decimal.Numeral
import ObjectMarkup.Text.Blank
import ObjectMarkup.Text.Digit

/-!
# Reading numbers off the front of a text

`readIntegerPrefix` reads an integer of 64 bits and `readNumberPrefix` a floating point number. Both
pass over blanks in front and do not look at what follows the number.
-/

namespace ObjectMarkup.Decimal

def fits (i : Int) : Bool :=
  decide (-0x8000000000000000 ≤ i) && decide (i ≤ 0x7fffffffffffffff)

/-- An integer, if it has 64 bits. -/
def fitting? (i : Int) : Option Int :=
  if fits i then some i else none

/-- Puts a digit behind an integer. A negative integer grows downwards, so that the least integer is
reached too. -/
def appendDigit? (negative : Bool) (radix : Nat) (value : Int) (digit : Nat) : Option Int := do
  -- Both steps are checked: the shifted value has to fit before the digit is put behind it.
  let shifted ← fitting? (value * radix)
  fitting? (if negative then shifted - digit else shifted + digit)

/-- The digits in front of a text. -/
def leadingDigits (radix : Nat) : List Char → List Nat
  | [] => []
  | c :: rest =>
    match Text.digitValue? radix c with
    | some d => d :: leadingDigits radix rest
    | none => []

/-- The base that a text is written in, and the text behind the mark of the base. -/
def splitRadix : List Char → Nat × List Char
  | '0' :: 'x' :: rest => (16, rest)
  | '0' :: 'X' :: rest => (16, rest)
  | s => (10, s)

/-- **The integer in front of a text:** an optional sign, `0x` for base sixteen, and digits. There
is none without a digit or if it has more than 64 bits. -/
def readIntegerPrefix (s : List Char) : Option Int64 :=
  let (negative, body) := splitSign (Text.trimStart s)
  let (radix, body) := splitRadix body
  match leadingDigits radix body with
  | [] => none
  | digits => (digits.foldlM (appendDigit? negative radix) 0).map Int64.ofInt

/-- The word for what is larger than all numbers. -/
def infinityWord : List Char :=
  ['I', 'n', 'f', 'i', 'n', 'i', 't', 'y']

/-- **The number in front of a text:** an optional sign and the longest numeral, or the word
`Infinity`. -/
def readNumberPrefix (s : List Char) : Option Binary64 :=
  let (negative, body) := splitSign (Text.trimStart s)
  if infinityWord.isPrefixOf body then some (.infinity negative)
  else (Numeral.scan body).map fun (n, _) => n.value negative

end ObjectMarkup.Decimal
