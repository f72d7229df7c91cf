import ObjectMarkup.Fetch.Basic
import ObjectMarkup.Locator.FilePath

/-!
# Files

A disk says what reading the file under a path gives, where a path is a list of bytes. It makes a
fetcher of the locators of files.
-/

namespace ObjectMarkup

/-- Why a file was not read. -/
inductive ReadError where
  /-- There is none. -/
  | missing
  /-- There is something that cannot be read. -/
  | failed (reason : String)
  deriving DecidableEq, Repr

/-- What reading the file under a path gives. -/
abbrev Disk := List UInt8 → Except ReadError (List UInt8)

namespace Disk

/-- Fetches from files. Other schemes are not supported, and a locator that names no path names
nothing that could be found. -/
def fetcher (disk : Disk) : Fetcher := fun url =>
  match Locator.schemeClass url.scheme with
  | .file =>
    match url.filePath? with
    | none => .error (.notFound url)
    | some path =>
      match disk path with
      | .ok bytes => .ok ⟨url, bytes⟩
      | .error .missing => .error (.notFound url)
      | .error (.failed reason) => .error (.unreadable url reason)
  | _ => .error (.unsupportedScheme url)

def empty : Disk := fun _ => .error .missing

/-- The text of a file, if it can be read and is UTF-8. -/
def text? (disk : Disk) (path : List UInt8) : Option String :=
  match disk path with
  | .ok bytes => String.fromUTF8? ⟨bytes.toArray⟩
  | .error _ => none

end Disk

/-- Files as a program sees them. -/
structure FileSystem where
  /-- Reads the file under an absolute path or one that starts in the working directory. -/
  disk : Disk
  /-- The names on the way from the root to what a path leads to, if it leads anywhere. -/
  canonical? : List UInt8 → Option (List (List UInt8))

namespace FileSystem

/-- The absolute path through the names. -/
def absolute (names : List (List UInt8)) : List UInt8 :=
  match names with
  | [] => [0x2F]
  | _ => names.flatMap fun name => 0x2F :: name

end FileSystem

end ObjectMarkup
