/-!
# Prefixes and splitting

Taking a known text off the front of another, and cutting a text where another one stands.
-/

namespace ObjectMarkup.Text

/-- Removes the front part from a text that starts with it. -/
def dropPrefix? : (front : List Char) → List Char → Option (List Char)
  | [], s => some s
  | _ :: _, [] => none
  | p :: front, c :: s => if p = c then dropPrefix? front s else none

/-- Splits a text at the first place where `close` stands. -/
def splitAtFirst? (close : List Char) : List Char → Option (List Char × List Char)
  | [] => if close.isEmpty then some ([], []) else none
  | c :: rest =>
    match dropPrefix? close (c :: rest) with
    | some after => some ([], after)
    | none => (splitAtFirst? close rest).map fun (body, after) => (c :: body, after)

end ObjectMarkup.Text
