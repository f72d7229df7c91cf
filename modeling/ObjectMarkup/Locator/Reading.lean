import ObjectMarkup.Locator.Basic

/-!
# Reading locators

A reference is read on its own or against a base. Blanks and controls around it are dropped, and so
are tabs and line ends inside it. What follows depends on how it starts:

* **with a scheme,** it is absolute, except that a special scheme equal to that of the base and not
  followed by two slashes is passed over, and the rest is relative;
* **with two slashes,** it takes only the scheme of the base;
* **with one slash,** it takes scheme and authority;
* otherwise it is resolved beside the last segment of the base.

Paths are read segment by segment (`addSegment`): `.` stays in place and `..` drops the segment
before, except one that looks like the letter of a drive.
-/

namespace ObjectMarkup.Locator

/-! ### Characters and prefixes -/

def isLetter (c : Char) : Bool :=
  c.isAlpha

/-- Whether a character separates segments under the class of schemes. -/
def SchemeClass.isSeparator (k : SchemeClass) (c : Char) : Bool :=
  c == '/' || (k.isSpecial && c == '\\')

/-- Whether a character is a slash of either kind. -/
def isSlash (c : Char) : Bool :=
  c == '/' || c == '\\'

def endsPath (c : Char) : Bool :=
  c == '?' || c == '#'

/-- Drops what never counts: controls and blanks at the ends, tabs and line ends everywhere. -/
def cleaned (s : List Char) : List Char :=
  let low := fun c : Char => decide (c.toNat ≤ 0x20)
  ((s.dropWhile low).reverse.dropWhile low).reverse.filter
    fun c => !(c == '\t' || c == '\n' || c == '\r')

/-- Takes a scheme and its colon off the front. -/
def scanScheme? (s : List Char) : Option (List Char × List Char) :=
  let inside := fun c : Char => c.isAlphanum || c == '+' || c == '-' || c == '.'
  match s with
  | c :: _ =>
    if isLetter c then
      match s.dropWhile inside with
      | ':' :: rest => some ((s.takeWhile inside).map Char.toLower, rest)
      | _ => none
    else none
  | [] => none

/-! ### Segments -/

/-- Whether two characters look like the letter of a drive. -/
def isDriveLetter (s : List Char) : Bool :=
  match s with
  | [a, b] => isLetter a && (b == ':' || b == '|')
  | _ => false

/-- Whether two characters are the letter of a drive in its usual spelling. -/
def isPlainDriveLetter (s : List Char) : Bool :=
  isDriveLetter s && s.getLast? == some ':'

/-- Whether a path starts with the letter of a drive. -/
def startsWithDriveLetter (s : List Char) : Bool :=
  isDriveLetter (s.take 2) &&
    match s.drop 2 with
    | [] => true
    | c :: _ => isSlash c || endsPath c

/-- A text with its encoded points decoded. -/
def plainDots : List Char → List Char
  | '%' :: '2' :: 'e' :: rest | '%' :: '2' :: 'E' :: rest => '.' :: plainDots rest
  | c :: rest => c :: plainDots rest
  | [] => []

/-- The segments without the last one, unless that looks like the letter of a drive. -/
def parent (segments : List (List Char)) : List (List Char) :=
  match segments.getLast? with
  | some last => if isDriveLetter last then segments else segments.dropLast
  | none => []

/-- Adds a segment as it is written; `final` says that no slash follows it. -/
def addSegment (k : SchemeClass) (final : Bool) (segments : List (List Char))
    (written : List Char) : List (List Char) :=
  -- After a dot segment at the end the path still ends in a slash.
  let closing := if final then [[]] else []
  if plainDots written = ['.', '.'] then parent segments ++ closing
  else if plainDots written = ['.'] then segments ++ closing
  else if k = .file && segments.isEmpty && isDriveLetter written then
    segments ++ [written.take 1 ++ [':']]
  else segments ++ [percentEncode pathSet written]

/-- Adds the segments of a path in order. -/
def addSegments (k : SchemeClass) (segments : List (List Char)) :
    List (List Char) → List (List Char)
  | [] => segments
  | [written] => addSegment k true segments written
  | written :: rest => addSegments k (addSegment k false segments written) rest

/-- Splits a path at its separators. -/
def splitPath (k : SchemeClass) (s : List Char) : List (List Char) :=
  s.splitOnP k.isSeparator

/-- A file path does not begin with an empty segment, unless it has no other. -/
def normalizeSegments (k : SchemeClass) (segments : List (List Char)) : List (List Char) :=
  if k = .file then
    match segments.dropWhile List.isEmpty with
    | [] => [[]]
    | rest => rest
  else segments

/-- The segments of a path up to the query or fragment, behind those that it is relative to. -/
def followPath (k : SchemeClass) (segments : List (List Char)) (s : List Char) :
    List (List Char) :=
  addSegments k segments (splitPath k (s.takeWhile fun c => !endsPath c))

/-- Reads a path up to the query or fragment, from the segments it is relative to. -/
def readPath (k : SchemeClass) (segments : List (List Char)) (s : List Char) : Path :=
  .segments (normalizeSegments k (followPath k segments s))

/-! ### Query and fragment -/

/-- Reads the query and the fragment, whose text begins with `?`, with `#` or not at all. -/
def readTail (k : SchemeClass) (s : List Char) : Option (List Char) × Option (List Char) :=
  let fragmentOf := fun t : List Char => match t with
    | '#' :: f => some (percentEncode fragmentSet f)
    | _ => none
  match s with
  | '?' :: rest =>
    let set := if k.isSpecial then specialQuerySet else querySet
    (some (percentEncode set (rest.takeWhile (· != '#'))),
      fragmentOf (rest.dropWhile (· != '#')))
  | _ => (none, fragmentOf s)

/-- The locator with query and fragment as they stand at the end of the text. -/
def finish (scheme : List Char) (authority : Option Authority) (path : Path) (s : List Char) :
    Locator :=
  let (query, fragment) := readTail (schemeClass scheme) (s.dropWhile fun c => !endsPath c)
  ⟨scheme, authority, path, query, fragment⟩

/-- The base with another fragment, which starts behind its `#`. -/
def withFragment (base : Locator) (s : List Char) : Locator :=
  { base with fragment := some (percentEncode fragmentSet s) }

/-! ### Authorities -/

/-- Splits user name and password off the front of an authority: they end at the last `@` before
the path. -/
def splitUserinfo (k : SchemeClass) (s : List Char) : Option (List Char) × List Char :=
  let inside := fun c : Char => !(k.isSeparator c || endsPath c)
  let authority := s.takeWhile inside
  if authority.contains '@' then
    -- Any `@` but the last one belongs to the user name or the password.
    let host := (authority.reverse.takeWhile (· != '@')).reverse
    let userinfo := authority.take (authority.length - host.length - 1)
    (some userinfo, host ++ s.dropWhile inside)
  else (none, s)

/-- User name and password, the latter from the first colon on. -/
def readUserinfo (s : List Char) : List Char × List Char :=
  let encode := percentEncode userinfoSet
  (encode (s.takeWhile (· != ':')), encode ((s.dropWhile (· != ':')).drop 1))

/-- Splits the host off the front: it ends at a colon outside brackets or at the path. -/
def splitHost (k : SchemeClass) : (inBrackets : Bool) → List Char → List Char × List Char
  | _, [] => ([], [])
  | inBrackets, c :: rest =>
    if (c == ':' && !inBrackets) || k.isSeparator c || endsPath c then ([], c :: rest)
    else
      let (host, rest) := splitHost k (c == '[' || (inBrackets && c != ']')) rest
      (c :: host, rest)

/-- Reads a port up to the path. No digits mean no port, and so does the port of the scheme. -/
def readPort (k : SchemeClass) (s : List Char) : Except ParseError (Option Nat × List Char) :=
  let digits := s.takeWhile Char.isDigit
  let rest := s.dropWhile Char.isDigit
  let port := digits.foldl (fun n c => 10 * n + (c.toNat - '0'.toNat)) 0
  if 65535 < port then .error .invalidPort
  else if (rest.head?.map fun c => isSlash c || endsPath c) = some false then
    .error .invalidPort
  else if digits.isEmpty || k = .special port then .ok (none, rest)
  else .ok (some port, rest)

section

variable (domains : Domains)

/-- Reads a host for the class of schemes. -/
def readHost (k : SchemeClass) (s : List Char) : Except ParseError Host :=
  if k.isSpecial then
    if s.isEmpty then .error .emptyHost else Host.read domains s
  else Host.readVerbatim s

/-- Reads what follows the two slashes before an authority. -/
def readAuthority (scheme : List Char) (s : List Char) : Except ParseError Locator := do
  let k := schemeClass scheme
  let (userinfo, rest) := splitUserinfo k s
  let (username, password) := readUserinfo (userinfo.getD [])
  let (hostText, rest) := splitHost k false rest
  if userinfo = some [] && hostText.isEmpty && !rest.isEmpty && rest.head? ≠ some ':' then
    throw .emptyHost
  let host ← readHost domains k hostText
  -- Without a host there is nothing that a port or a user could belong to.
  if host.isEmpty && rest.head? = some ':' then throw .emptyHost
  let (port, rest) ← match rest with
    | ':' :: rest => readPort k rest
    | _ => pure (none, rest)
  if host.isEmpty && !(username.isEmpty && password.isEmpty) then throw .emptyHost
  let pathText := match rest with
    | c :: inner => if k.isSeparator c then inner else rest
    | [] => []
  -- Only under a special scheme is there always a path.
  let path :=
    if !k.isSpecial && (rest.isEmpty || (rest.head?.map endsPath) = some true) then
      .segments []
    else readPath k [] pathText
  return finish scheme (some ⟨username, password, host, port⟩) path rest

/-! ### Files -/

def fileScheme : List Char :=
  ['f', 'i', 'l', 'e']

/-- A file locator with a host and a path that starts from the segments. -/
def fileLocator (host : Host) (segments : List (List Char)) (s : List Char) : Locator :=
  finish fileScheme (some (Authority.ofHost host)) (readPath .file segments s) s

/-- Reads the host of a file locator; this machine has no name. -/
def readFileHost (s : List Char) : Except ParseError Host :=
  if s.isEmpty then .ok (.name [])
  else do
    let host ← Host.read domains s
    return if host = .name "localhost".toList then .name [] else host

/-- Whether a path leads to a drive, once `.` and `..` are followed. -/
def leadsToDrive (s : List Char) : Bool :=
  ((followPath .file [] s).head?.map isPlainDriveLetter) == some true

/-- Reads what follows the two slashes of a file locator. The letter of a drive is no host, and a
path that leads to a drive has no host. -/
def readFileAuthority (s : List Char) : Except ParseError Locator := do
  let inside := fun c => !(isSlash c || endsPath c)
  let hostText := s.takeWhile inside
  -- Where a host would stand, the letter of a drive begins the path already.
  if isDriveLetter hostText then return fileLocator (.name []) [] s
  let host ← readFileHost domains hostText
  let rest := s.dropWhile inside
  let pathText := match rest with
    | c :: inner => if isSlash c then inner else rest
    | [] => []
  return fileLocator (if leadsToDrive pathText then .name [] else host) [] pathText

def hostOf (base : Locator) : Host :=
  match base.authority with
  | some a => a.host
  | none => .name []

/-- Reads what follows the scheme of a file locator, or a reference against one. -/
def readFile (base : Option Locator) (s : List Char) : Except ParseError Locator :=
  match s, base with
  | c :: rest, _ =>
    if isSlash c then
      match rest with
      | d :: inner =>
        if isSlash d then readFileAuthority domains inner else .ok (rooted rest)
      | [] => .ok (rooted rest)
    else match base with
      | none => .ok (fileLocator (.name []) [] s)
      | some b =>
        if c = '?' then .ok (finish b.scheme b.authority b.path s)
        else if c = '#' then .ok (withFragment b rest)
        else if startsWithDriveLetter s then .ok (fileLocator (.name []) [] s)
        else
          -- The last segment of the base gives way to the reference, unless it is a drive.
          let segments := b.segmentList
          let kept := match segments.getLast? with
            | some last => if isPlainDriveLetter last then segments else segments.dropLast
            | none => []
          .ok (fileLocator (hostOf b) kept s)
  -- An empty reference is the base itself, which leaves its fragment behind.
  | [], some b => .ok { b with fragment := none }
  | [], none => .ok (fileLocator (.name []) [] s)
where
  /-- A path behind one slash keeps the drive or the host of the base. -/
  rooted (rest : List Char) : Locator :=
    match base with
    | some b =>
      if startsWithDriveLetter rest then fileLocator (.name []) [] rest
      else match b.segmentList.head? with
        | some first =>
          if isPlainDriveLetter first then fileLocator (.name []) [first] rest
          else fileLocator (hostOf b) [] rest
        | none => fileLocator (hostOf b) [] rest
    | none => fileLocator (.name []) [] rest

/-! ### References -/

/-- Reads a relative reference against a hierarchical base. -/
def readRelative (base : Locator) (s : List Char) : Except ParseError Locator :=
  let k := schemeClass base.scheme
  match s with
  | [] => .ok { base with fragment := none }
  | '?' :: _ => .ok (finish base.scheme base.authority base.path s)
  | '#' :: rest => .ok (withFragment base rest)
  | '/' :: '/' :: rest => readAuthority domains base.scheme rest
  | c :: rest =>
    if isSlash c then
      -- Two slashes of either kind lead to another authority.
      if (rest.head?.map isSlash) = some true then
        readAuthority domains base.scheme (s.dropWhile isSlash)
      else .ok (finish base.scheme base.authority (readPath k [] rest) rest)
    else .ok (finish base.scheme base.authority (readPath k base.segmentList.dropLast s) s)

/-- Reads what follows a scheme. -/
def readAbsolute (base : Option Locator) (scheme : List Char) (s : List Char) :
    Except ParseError Locator :=
  match schemeClass scheme with
  | .file => readFile domains (base.filter fun b => b.scheme == fileScheme) s
  | .special _ =>
    match base with
    | some b =>
      -- The scheme of the base, with fewer than two slashes behind it, says nothing new.
      if b.scheme = scheme && (s.takeWhile isSlash).length < 2 then readRelative domains b s
      else readAuthority domains scheme (s.dropWhile isSlash)
    | none => readAuthority domains scheme (s.dropWhile isSlash)
  | .other =>
    match s with
    | '/' :: '/' :: rest => readAuthority domains scheme rest
    | '/' :: rest => .ok (finish scheme none (readPath .other [] rest) rest)
    | _ =>
      -- Without a slash in front the path has no segments.
      let path := percentEncode controlSet (s.takeWhile fun c => !endsPath c)
      .ok (finish scheme none (.flat path) s)

/-- **Resolves a reference,** against the base if there is one. -/
def resolve (base : Option Locator) (reference : String) : Except ParseError Locator :=
  let s := cleaned reference.toList
  match scanScheme? s with
  | some (scheme, rest) => readAbsolute domains base scheme rest
  | none =>
    match base with
    | none => .error .relativeWithoutBase
    | some b =>
      match s with
      | '#' :: rest => .ok (withFragment b rest)
      | _ =>
        -- A flat path has no segments that a reference could stand beside.
        if b.isFlat then .error .relativeToFlatBase
        else if schemeClass b.scheme = .file then readFile domains base s
        else readRelative domains b s

/-- Reads an absolute locator. -/
def parse (text : String) : Except ParseError Locator :=
  resolve domains none text

end

end ObjectMarkup.Locator
