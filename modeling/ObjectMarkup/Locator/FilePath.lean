import ObjectMarkup.Locator.Basic

/-!
# Locators and file paths

A path of a file system is a list of bytes. The locator of a file names the path that its decoded
segments make, each behind a slash, provided it names no other machine. In the other direction the
names of the directories on the way become encoded segments, and an empty last segment marks a
directory.
-/

namespace ObjectMarkup.Locator

/-- Whether a path ends in what looks like the letter of a drive. -/
def endsInDriveLetter (path : List UInt8) : Bool :=
  match path.reverse with
  | b :: a :: _ :: _ => (Char.ofNat a.toNat).isAlpha && (b == 0x3A || b == 0x7C)
  | _ => false

/-- Whether a locator names no other machine. -/
def isLocal (l : Locator) : Bool :=
  match l.authority with
  | some a => a.host.isEmpty || a.host == .name "localhost".toList
  | none => true

/-- The path that a locator of a file names. The letter of a drive is always followed by a
slash. -/
def filePath? (l : Locator) : Option (List UInt8) :=
  match l.path with
  | .segments list =>
    if l.isLocal then
      let path := list.flatMap fun s => 0x2F :: percentDecode (utf8Bytes s)
      some (if endsInDriveLetter path then path ++ [0x2F] else path)
    else none
  | .flat _ => none

/-- The locator of a directory, given by the names on the way to it. -/
def ofDirectory (names : List (List UInt8)) : Locator :=
  { scheme := ['f', 'i', 'l', 'e']
    authority := some (Authority.ofHost (.name []))
    path := .segments (names.map (percentEncodeBytes fileNameSet) ++ [[]])
    query := none
    fragment := none }

end ObjectMarkup.Locator
