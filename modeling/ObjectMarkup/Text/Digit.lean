/-!
# Digits

The values of digits in bases up to sixteen, and of numbers written with them.
-/

namespace ObjectMarkup.Text

/-- The value of a hexadecimal digit in either case. -/
def hexValue? (c : Char) : Option Nat :=
  let n := c.toNat
  if '0'.toNat ≤ n && n ≤ '9'.toNat then some (n - '0'.toNat)
  else if 'a'.toNat ≤ n && n ≤ 'f'.toNat then some (n - 'a'.toNat + 10)
  else if 'A'.toNat ≤ n && n ≤ 'F'.toNat then some (n - 'A'.toNat + 10)
  else none

/-- The value of a digit in a base up to sixteen. -/
def digitValue? (radix : Nat) (c : Char) : Option Nat :=
  (hexValue? c).filter (· < radix)

/-- The value of a text of digits in a base up to sixteen; `none` if one is no digit of it. The
empty text is zero. -/
def radixValue? (radix : Nat) (digits : List Char) : Option Nat :=
  digits.foldlM (fun n c => (digitValue? radix c).map (n * radix + ·)) 0

@[simp] theorem radixValue?_nil (radix : Nat) : radixValue? radix [] = some 0 := rfl

end ObjectMarkup.Text
