import ObjectMarkup.Text.Blank
import ObjectMarkup.Text.CaseTable

/-!
# Lower-casing

A text is lower-cased character by character. Two characters need more than a look into the table:

* **U+0130**, the capital I with a dot, becomes an `i` followed by a combining dot;
* **the capital sigma** becomes `ς` at the end of a word and `σ` elsewhere. It ends a word when,
  passing over case-ignorable characters, a cased character comes before it and none comes after.
-/

namespace ObjectMarkup.Text

/-- Whether the run covers the code point. -/
def CaseRun.covers (r : CaseRun) (code : Nat) : Bool :=
  decide (r.first ≤ code) && decide (code ≤ r.last) && (code - r.first) % r.step == 0

/-- The lower-case form of a single code point in the table, else the code point itself. -/
def lowerCode (code : Nat) : Nat :=
  match lowerRuns.find? (·.covers code) with
  | some r => r.target + (code - r.first)
  | none => code

/-- The lower-case form of a character on its own. -/
def lowerChar (c : Char) : List Char :=
  if c.toNat = 0x130 then ['i', Char.ofNat 0x307] else [Char.ofNat (lowerCode c.toNat)]

def capitalSigma : Char := Char.ofNat 0x3A3

/-- The small sigma inside a word. -/
def smallSigma : Char := Char.ofNat 0x3C3

/-- The small sigma at the end of a word. -/
def finalSigma : Char := Char.ofNat 0x3C2

/-- Whether the first character that is not case-ignorable is cased. -/
def meetsCased (s : List Char) : Bool :=
  match s.dropWhile fun c => inRanges caseIgnorableRanges c.toNat with
  | c :: _ => inRanges casedRanges c.toNat
  | [] => false

/-- The form of a capital sigma between the reversed text `before` and the text `after`. -/
def lowerSigma (before after : List Char) : Char :=
  if meetsCased before && !meetsCased after then finalSigma else smallSigma

/-- Lower-cases a text that follows the reversed text `before`. -/
def lowerAfter (before : List Char) : List Char → List Char
  | [] => []
  | c :: rest =>
    (if c = capitalSigma then [lowerSigma before rest] else lowerChar c)
      ++ lowerAfter (c :: before) rest

def lower (s : List Char) : List Char :=
  lowerAfter [] s

def lowercase (s : String) : String :=
  String.ofList (lower s.toList)

/-- **The key of a name.** Names of tags and types are compared by their trimmed and lower-cased
form, so spelling in another letter case or with blanks around it names the same thing. -/
def nameKey (s : String) : String :=
  lowercase (trimmed s)

@[simp] theorem lower_nil : lower [] = [] := rfl

@[simp] theorem toList_lowercase (s : String) : (lowercase s).toList = lower s.toList := by
  simp [lowercase]

@[simp] theorem toList_nameKey (s : String) : (nameKey s).toList = lower (trim s.toList) := by
  simp [nameKey]

/-- Lower-casing letters of ASCII alone, the way tags are compared in queries. -/
def asciiLower (s : String) : String :=
  String.ofList (s.toList.map Char.toLower)

/-- Whether two texts differ at most in the case of ASCII letters. -/
def sameIgnoringAsciiCase (a b : String) : Bool :=
  asciiLower a == asciiLower b

end ObjectMarkup.Text
