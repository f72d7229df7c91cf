/-!
# Blank characters and trimming

A character is **blank** when Unicode gives it the property `White_Space`. Trimming drops the blank
characters at the ends of a text and nothing else: the zero-width space, the byte order mark and
the separators below U+0020 other than U+0009 to U+000D are not blank and stay.

Everything here works on lists of characters, and `trimmed` is the same operation on strings.
-/

namespace ObjectMarkup.Text

/-- The ranges of code points with the property `White_Space`, both ends included. -/
def blankRanges : List (Nat × Nat) :=
  [(0x09, 0x0D), (0x20, 0x20), (0x85, 0x85), (0xA0, 0xA0), (0x1680, 0x1680), (0x2000, 0x200A),
    (0x2028, 0x2029), (0x202F, 0x202F), (0x205F, 0x205F), (0x3000, 0x3000)]

/-- Whether a code point lies in one of the ranges. -/
def inRanges (ranges : List (Nat × Nat)) (code : Nat) : Bool :=
  ranges.any fun r => decide (r.1 ≤ code) && decide (code ≤ r.2)

def isBlank (c : Char) : Bool :=
  inRanges blankRanges c.toNat

def trimStart (s : List Char) : List Char :=
  s.dropWhile isBlank

def trimEnd (s : List Char) : List Char :=
  (s.reverse.dropWhile isBlank).reverse

def trim (s : List Char) : List Char :=
  trimEnd (trimStart s)

def trimmed (s : String) : String :=
  String.ofList (trim s.toList)

@[simp] theorem trimStart_nil : trimStart [] = [] := rfl

@[simp] theorem trimEnd_nil : trimEnd [] = [] := rfl

@[simp] theorem trim_nil : trim [] = [] := rfl

/-- What is left begins with a character that is not blank. -/
theorem not_isBlank_of_trimStart {c : Char} {s rest : List Char}
    (h : trimStart s = c :: rest) : isBlank c = false := by
  induction s with
  | nil => simp at h
  | cons d s ih =>
    rw [trimStart, List.dropWhile_cons] at h
    split at h
    · exact ih h
    · next hd => cases h; simpa using hd

/-- A text without blanks in front stays as it is. -/
theorem trimStart_of_not_isBlank {c : Char} {rest : List Char} (h : isBlank c = false) :
    trimStart (c :: rest) = c :: rest := by
  simp [trimStart, h]

@[simp] theorem toList_trimmed (s : String) : (trimmed s).toList = trim s.toList := by
  simp [trimmed]

end ObjectMarkup.Text
