import ObjectMarkup.Fetch.Disk

/-!
# Trees of files

A file system that is written down: its files with their bytes, and directories. Every directory on
the way to a file exists too. A path is walked name by name, so what it passes through has to be a
directory.
-/

namespace ObjectMarkup

abbrev FileName := List UInt8

structure FileTree where
  /-- The files, each with the names on the way to it. -/
  files : List (List FileName × List UInt8)
  /-- Directories, each with the names on the way to it. -/
  directories : List (List FileName)

namespace FileTree

def isDirectory (t : FileTree) (names : List FileName) : Bool :=
  names.isEmpty || t.directories.any names.isPrefixOf
    || t.files.any fun f => names.isPrefixOf f.1 && names != f.1

/-- Whether the names lead to a file or a directory. -/
def present (t : FileTree) (names : List FileName) : Bool :=
  (t.files.lookup names).isSome || t.isDirectory names

/-- What a system says of a name behind a file. -/
def notADirectory : ReadError :=
  .failed "Not a directory (os error 20)"

/-- What a system says when a directory is read. -/
def isADirectory : ReadError :=
  .failed "Is a directory (os error 21)"

/-- Walks on from a place along the names of a path. -/
def walk (t : FileTree) (here : List FileName) : List FileName → Except ReadError (List FileName)
  | [] => .ok here
  | name :: rest =>
    if !t.isDirectory here then .error notADirectory
    else if name = [] ∨ name = [0x2E] then t.walk here rest
    else if name = [0x2E, 0x2E] then t.walk here.dropLast rest
    else if t.present (here ++ [name]) then t.walk (here ++ [name]) rest
    else .error .missing

/-- The names of a path, between the slashes. -/
def namesOf (path : List UInt8) : List FileName :=
  path.splitOn 0x2F

/-- Walks along a path, from the root if it begins with a slash and else from the working
directory. The empty path leads nowhere, and no name has a zero byte. -/
def follow (t : FileTree) (workingDirectory : List FileName) (path : List UInt8) :
    Except ReadError (List FileName) :=
  if path.contains 0 then
    .error (.failed "file name contained an unexpected NUL byte")
  else match path with
  | [] => .error .missing
  | b :: _ => t.walk (if b = 0x2F then [] else workingDirectory) (namesOf path)

def fileSystem (t : FileTree) (workingDirectory : List FileName) : FileSystem where
  disk path :=
    match t.follow workingDirectory path with
    | .error e => .error e
    | .ok names =>
      match t.files.lookup names with
      | some bytes => .ok bytes
      | none => .error isADirectory
  canonical? path := (t.follow workingDirectory path).toOption

end FileTree

end ObjectMarkup
