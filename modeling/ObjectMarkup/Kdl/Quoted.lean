import ObjectMarkup.Text.Digit
import ObjectMarkup.Text.Split

/-!
# KDL characters and quoted strings

The classes of characters of KDL 2.0, and the meaning of what stands between quotes.

A quoted string is read in three steps. First a backslash followed by blanks or newlines is removed
together with them (`dropEscapedBlanks`). Then, in a string over several lines, the indentation is
removed (`dedent`): the last line consists of blanks only, every other line either consists of
blanks and becomes empty, or starts with the last line and loses it. Last, the remaining escapes
are replaced (`resolveEscapes`). A raw string takes only the second step.
-/

namespace ObjectMarkup.Kdl

open Text (hexValue? radixValue? dropPrefix?)

/-- The characters that end a line. A carriage return directly before a line feed is one end of
line with it. -/
def isNewline (c : Char) : Bool :=
  [0x0A, 0x0D, 0x85, 0x0B, 0x0C, 0x2028, 0x2029].contains c.toNat

/-- The blank characters that do not end a line. -/
def isSpace (c : Char) : Bool :=
  let n := c.toNat
  [0x09, 0x20, 0xA0, 0x1680, 0x202F, 0x205F, 0x3000].contains n || (0x2000 ≤ n && n ≤ 0x200A)

/-- The characters that may not stand in a document as themselves. -/
def isForbidden (c : Char) : Bool :=
  let n := c.toNat
  n ≤ 0x08 || (0x0E ≤ n && n ≤ 0x1F) || n == 0x7F || n == 0x200E || n == 0x200F
    || (0x202A ≤ n && n ≤ 0x202E) || (0x2066 ≤ n && n ≤ 0x2069) || n == 0xFEFF

/-- The characters of unquoted names and of numbers. -/
def isIdentifierChar (c : Char) : Bool :=
  !(isSpace c || isNewline c || isForbidden c
    || ['\\', '/', '(', ')', '\x7b', '\x7d', ';', '[', ']', '"', '#', '='].contains c)

/-- Whether a character is blank, line ends included. -/
def isBlankOrNewline (c : Char) : Bool :=
  isSpace c || isNewline c

/-- The character with a code point, unless there is none. -/
def charOf? (code : Nat) : Option Char :=
  if code < 0xD800 ∨ (0xDFFF < code ∧ code < 0x110000) then some (Char.ofNat code) else none

/-! ### Escapes -/

/-- Removes every backslash that blanks follow, together with them. The flags say whether a
backslash was just read, and whether the blanks after one are being dropped. -/
def dropEscapedBlanks : (afterBackslash : Bool) → (dropping : Bool) → List Char → List Char
  | pending, _, [] => if pending then ['\\'] else []
  | true, _, c :: rest =>
    if isBlankOrNewline c then dropEscapedBlanks false true rest
    else '\\' :: c :: dropEscapedBlanks false false rest
  | false, dropping, c :: rest =>
    if dropping && isBlankOrNewline c then dropEscapedBlanks false true rest
    else if c = '\\' then dropEscapedBlanks true false rest
    else c :: dropEscapedBlanks false false rest

/-- The character of a one-letter escape. -/
def simpleEscape? : Char → Option Char
  | 'n' => some '\n'
  | 'r' => some '\r'
  | 't' => some '\t'
  | 'b' => some (Char.ofNat 8)
  | 'f' => some (Char.ofNat 12)
  | 's' => some ' '
  | '"' => some '"'
  | '\\' => some '\\'
  | _ => none

/-- The state of `resolveEscapes` between two characters. -/
inductive EscapeState where
  /-- No escape has begun. -/
  | plain
  /-- Directly after a backslash. -/
  | started
  /-- After a backslash and a `u`. -/
  | opened
  /-- Inside the braces of a code point, with the digits so far. -/
  | digits (soFar : List Char)
  deriving DecidableEq, Repr

/-- Replaces the escapes by the characters they stand for. -/
def resolveEscapes : EscapeState → List Char → Option (List Char)
  | .plain, [] => some []
  | _, [] => none
  | .plain, c :: rest =>
    if c = '\\' then resolveEscapes .started rest
    else (resolveEscapes .plain rest).map (c :: ·)
  | .started, c :: rest =>
    if c = 'u' then resolveEscapes .opened rest
    else do
      let d ← simpleEscape? c
      (resolveEscapes .plain rest).map (d :: ·)
  | .opened, c :: rest => if c = '\x7b' then resolveEscapes (.digits []) rest else none
  | .digits soFar, c :: rest =>
    if c = '\x7d' then do
      if soFar.isEmpty || 6 < soFar.length then none
      let code ← radixValue? 16 soFar.reverse
      let d ← charOf? code
      (resolveEscapes .plain rest).map (d :: ·)
    else if (hexValue? c).isSome then resolveEscapes (.digits (c :: soFar)) rest
    else none

/-! ### Lines and indentation -/

/-- The lines of a text, without what ends them. -/
def lines : List Char → List (List Char)
  | [] => [[]]
  | '\r' :: '\n' :: rest => [] :: lines rest
  | c :: rest =>
    if isNewline c then [] :: lines rest
    else match lines rest with
      | [] => [[c]]
      | first :: others => (c :: first) :: others

/-- Removes the indentation, which is the last line, and joins the other lines. -/
def dedent (body : List Char) : Option (List Char) := do
  let all := lines body
  let indentation ← all.getLast?
  if !indentation.all isSpace then none
  let stripped ← all.dropLast.mapM fun line =>
    if line.all isSpace then some [] else dropPrefix? indentation line
  some (['\n'].intercalate stripped)

/-- Takes the end of a line off the front. -/
def dropNewline? : List Char → Option (List Char)
  | '\r' :: '\n' :: rest => some rest
  | c :: rest => if isNewline c then some rest else none
  | [] => none

/-- The meaning of the text between single quotes. -/
def quotedLine? (body : List Char) : Option (List Char) :=
  let kept := dropEscapedBlanks false false body
  if body.any isForbidden || kept.any isNewline then none else resolveEscapes .plain kept

/-- The meaning of the text between triple quotes, which starts with the end of a line. -/
def quotedLines? (body : List Char) : Option (List Char) := do
  let inner ← dropNewline? body
  if inner.any isForbidden then none
  let stripped ← dedent (dropEscapedBlanks false false inner)
  resolveEscapes .plain stripped

/-- The meaning of the text between the single quotes of a raw string. -/
def rawLine? (body : List Char) : Option (List Char) :=
  if body.any isForbidden || body.any isNewline then none else some body

/-- The meaning of the text between the triple quotes of a raw string. -/
def rawLines? (body : List Char) : Option (List Char) := do
  let inner ← dropNewline? body
  if inner.any isForbidden then none
  dedent inner

/-! ### Finding the closing quotes -/

/-- Splits a text at the first place where `close` stands, passing over the character that follows
a backslash. -/
def splitAtUnescaped? (close : List Char) : List Char → Option (List Char × List Char)
  | [] => none
  | '\\' :: c :: rest =>
    (splitAtUnescaped? close rest).map fun (body, after) => ('\\' :: c :: body, after)
  | c :: rest =>
    match dropPrefix? close (c :: rest) with
    | some after => some ([], after)
    | none => (splitAtUnescaped? close rest).map fun (body, after) => (c :: body, after)

example : (dedent "  a\n\n    b\n  ".toList).map String.ofList = some "a\n\n  b" := by
  decide +kernel

end ObjectMarkup.Kdl
