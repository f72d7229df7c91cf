import ObjectMarkup.Kdl.Quoted
import ObjectMarkup.Kdl.Value
import ObjectMarkup.Decimal.Numeral

/-!
# KDL tokens

A document is first cut into tokens. Blanks, block comments and escaped line ends are `space`; the
ends of lines, with the comment before them, are `newline`. A maximal run of identifier characters
is one token, a number if it starts like one and a name otherwise, so `1a` and `true` are no tokens
at all. Names and strings are the same token, because both may stand wherever a string may.
-/

namespace ObjectMarkup.Kdl

open Decimal (Binary64 Numeral splitSign)
open Text (digitValue? radixValue? splitAtFirst?)

inductive Token where
  /-- Blanks within a line, a block comment, or a line end that is escaped. -/
  | space
  | newline
  | semicolon
  | openBrace
  | closeBrace
  | openParen
  | closeParen
  | equals
  /-- A slashdash, which removes what follows. -/
  | slashdash
  /-- A name or a string. -/
  | text (s : String)
  /-- A number, a truth value or null. -/
  | value (v : Value)
  deriving DecidableEq, Repr

/-! ### Numbers -/

/-- The largest magnitude of an integer. -/
def integerLimit : Nat :=
  0x7fffffffffffffffffffffffffffffff

/-- Takes a digit and the digits and underscores after it off the front, and drops the
underscores. -/
def scanDigits? (isDigit : Char → Bool) (s : List Char) : Option (List Char × List Char) :=
  match s with
  | c :: _ =>
    let inside := fun d => isDigit d || d == '_'
    if isDigit c then some ((s.takeWhile inside).filter isDigit, s.dropWhile inside) else none
  | [] => none

/-- The integer with the sign and the magnitude, within the limit. -/
def boundedInteger? (negative : Bool) (magnitude : Nat) : Option Value :=
  if magnitude ≤ integerLimit then
    some (.integer (if negative then -(magnitude : Int) else magnitude))
  else none

/-- An integer in a base other than ten. -/
def radixInteger? (negative : Bool) (radix : Nat) (s : List Char) : Option Value := do
  let (digits, rest) ← scanDigits? (fun c => (digitValue? radix c).isSome) s
  if !rest.isEmpty then none
  boundedInteger? negative (← radixValue? radix digits)

/-- The written exponent at the end of a number, zero if there is none. -/
def exponentPart? (s : List Char) : Option Int :=
  match s with
  | [] => some 0
  | c :: rest => do
    if c != 'e' && c != 'E' then none
    let (negative, body) := splitSign rest
    let (digits, rest) ← scanDigits? Char.isDigit body
    if !rest.isEmpty then none
    let n : Int := Decimal.digitsValue digits
    some (if negative then -n else n)

/-- A decimal number: an integer unless it has a fraction or an exponent. -/
def decimalNumber? (negative : Bool) (s : List Char) : Option Value := do
  let (whole, rest) ← scanDigits? Char.isDigit s
  match rest with
  | [] => boundedInteger? negative (Decimal.digitsValue whole)
  | '.' :: rest =>
    let (fraction, rest) ← scanDigits? Char.isDigit rest
    let exponent ← exponentPart? rest
    some (.float (Numeral.value negative ⟨whole, fraction, exponent⟩))
  | rest =>
    let exponent ← exponentPart? rest
    some (.float (Numeral.value negative ⟨whole, [], exponent⟩))

/-- Reads a run of identifier characters as a number. -/
def number? (word : List Char) : Option Value :=
  let (negative, body) := splitSign word
  match body with
  | '0' :: 'x' :: digits => radixInteger? negative 16 digits
  | '0' :: 'o' :: digits => radixInteger? negative 8 digits
  | '0' :: 'b' :: digits => radixInteger? negative 2 digits
  | _ => decimalNumber? negative body

/-! ### Words -/

def startsWithDigit : List Char → Bool
  | c :: _ => c.isDigit
  | [] => false

/-- The words that are no names, because they look like values. -/
def reservedWords : List String :=
  ["true", "false", "null", "inf", "-inf", "nan"]

/-- The token of a maximal run of identifier characters. After an optional sign a digit makes it a
number, and a point followed by a digit makes it nothing. -/
def wordToken? (word : List Char) : Option Token :=
  let (_, body) := splitSign word
  if startsWithDigit body then (number? word).map .value
  else match body with
    | '.' :: rest =>
      if startsWithDigit rest then none else some (.text (String.ofList word))
    | _ =>
      if reservedWords.contains (String.ofList word) then none
      else some (.text (String.ofList word))

/-- The value of a word behind a `#`. -/
def keyword? (word : List Char) : Option Value :=
  match String.ofList word with
  | "true" => some (.bool true)
  | "false" => some (.bool false)
  | "null" => some .null
  | "inf" => some (.float (.infinity false))
  | "-inf" => some (.float (.infinity true))
  | "nan" => some (.float .nan)
  | _ => none

/-! ### Blanks and comments -/

/-- The rest after a block comment whose opening was read, with `depth` further comments open
around it. -/
def afterBlockComment? (depth : Nat) : List Char → Option (List Char)
  | '*' :: '/' :: rest =>
    match depth with
    | 0 => some rest
    | depth + 1 => afterBlockComment? depth rest
  | '/' :: '*' :: rest => afterBlockComment? (depth + 1) rest
  | _ :: rest => afterBlockComment? depth rest
  | [] => none

/-- The rest after a line comment and the end of its line. -/
def afterLineComment (s : List Char) : List Char :=
  match s.dropWhile fun c => !isNewline c with
  | [] => []
  | rest => (dropNewline? rest).getD []

/-- Drops blanks and block comments; `fuel` bounds their number. -/
def dropInline? : (fuel : Nat) → List Char → Option (List Char)
  | 0, s => some s
  | fuel + 1, s =>
    match s.dropWhile isSpace with
    | '/' :: '*' :: rest => do dropInline? fuel (← afterBlockComment? 0 rest)
    | rest => some rest

/-- The rest after a line end that a backslash escapes: blanks and a line comment may stand
between the two. -/
def afterEscapedLine? (s : List Char) : Option (List Char) := do
  match ← dropInline? (s.length + 1) s with
  | [] => some []
  | '/' :: '/' :: rest => some (afterLineComment rest)
  | rest => dropNewline? rest

/-! ### Tokens -/

/-- Reads a quoted string, whose text begins behind the opening quote. -/
def quotedToken? (s : List Char) : Option (Token × List Char) :=
  match s with
  -- Two more quotes begin a string of several lines.
  | '"' :: '"' :: rest => do
    let (body, rest) ← splitAtUnescaped? ['"', '"', '"'] rest
    some (.text (String.ofList (← quotedLines? body)), rest)
  | _ => do
    let (body, rest) ← splitAtUnescaped? ['"'] s
    some (.text (String.ofList (← quotedLine? body)), rest)

/-- Reads a raw string, whose text begins behind the hashes. -/
def rawToken? (hashes : Nat) (s : List Char) : Option (Token × List Char) :=
  let fence := List.replicate hashes '#'
  match s with
  | '"' :: '"' :: '"' :: rest => do
    -- Nothing is an escape here, so the first fence of this length closes the string.
    let (body, rest) ← splitAtFirst? ('"' :: '"' :: '"' :: fence) rest
    some (.text (String.ofList (← rawLines? body)), rest)
  | '"' :: rest => do
    let (body, rest) ← splitAtFirst? ('"' :: fence) rest
    some (.text (String.ofList (← rawLine? body)), rest)
  | _ => none

/-- Reads what begins with a `#`: a keyword or a raw string. -/
def hashToken? (s : List Char) : Option (Token × List Char) :=
  match s with
  -- A quote or a second hash cannot begin a keyword.
  | '#' :: '"' :: _ | '#' :: '#' :: _ =>
    rawToken? (s.takeWhile (· == '#')).length (s.dropWhile (· == '#'))
  | '#' :: rest => do
    let v ← keyword? (rest.takeWhile isIdentifierChar)
    some (.value v, rest.dropWhile isIdentifierChar)
  | _ => none

/-- Reads one token off the front. -/
def Token.scan? (s : List Char) : Option (Token × List Char) :=
  match s with
  | [] => none
  | ';' :: rest => some (.semicolon, rest)
  | '\x7b' :: rest => some (.openBrace, rest)
  | '\x7d' :: rest => some (.closeBrace, rest)
  | '(' :: rest => some (.openParen, rest)
  | ')' :: rest => some (.closeParen, rest)
  | '=' :: rest => some (.equals, rest)
  | '/' :: '-' :: rest => some (.slashdash, rest)
  -- A line comment takes the end of its line with it, so it counts as that end.
  | '/' :: '/' :: rest => some (.newline, afterLineComment rest)
  | '/' :: '*' :: rest => (afterBlockComment? 0 rest).map fun rest => (.space, rest)
  | '\\' :: rest => (afterEscapedLine? rest).map fun rest => (.space, rest)
  | '"' :: rest => quotedToken? rest
  | '#' :: _ => hashToken? s
  | c :: _ =>
    if isSpace c then some (.space, s.dropWhile isSpace)
    else if isNewline c then (dropNewline? s).map fun rest => (.newline, rest)
    else if isIdentifierChar c then do
      let token ← wordToken? (s.takeWhile isIdentifierChar)
      some (token, s.dropWhile isIdentifierChar)
    else none

/-- Cuts a text into tokens; `fuel` bounds their number. -/
def Token.scanAll? : (fuel : Nat) → List Char → Option (List Token)
  | _, [] => some []
  | 0, _ => none
  | fuel + 1, s => do
    let (token, rest) ← Token.scan? s
    (Token.scanAll? fuel rest).map (token :: ·)

/-- **The tokens of a document.** A byte order mark in front is passed over. -/
def tokens? (s : List Char) : Option (List Token) :=
  let body := match s with
    | c :: rest => if c.toNat = 0xFEFF then rest else s
    | [] => []
  Token.scanAll? body.length body

end ObjectMarkup.Kdl
