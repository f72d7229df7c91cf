import ObjectMarkup.CommandLine.Run

/-!
# The program

Reads what a run needs from the system and writes the report. The images that markup refers to are
only known once it is compiled: a first compile without files names them, and the second one has
them at hand.
-/

namespace ObjectMarkup.CommandLine

/-- A path as the system takes it. -/
def pathText (path : List UInt8) : String :=
  (String.fromUTF8? ⟨path.toArray⟩).getD ""

def readFile (path : List UInt8) : IO (Except ReadError (List UInt8)) := do
  try
    return .ok (← IO.FS.readBinFile (pathText path)).toList
  catch e =>
    match e with
    | .noFileOrDirectory .. => return .error .missing
    | e => return .error (.failed e.toString)

def readFiles (paths : List (List UInt8)) :
    IO (List (List UInt8 × Except ReadError (List UInt8))) :=
  paths.eraseDups.mapM fun path => do return (path, ← readFile path)

/-- The disk of the files that were read. -/
def diskOf (files : List (List UInt8 × Except ReadError (List UInt8))) : Disk := fun path =>
  (files.lookup path).getD (.error .missing)

/-- The names on the way to what a path leads to. -/
def canonical? (path : String) : IO (Option (List (List UInt8))) := do
  try
    let text := (← IO.FS.realPath path).toString
    let names := (text.toList.splitOn '/').filter (!·.isEmpty)
    return some (names.map Locator.utf8Bytes)
  catch _ => return none

/-- The files that a run needs. -/
def gather (domains : Locator.Domains) (args : Arguments) : IO FileSystem := do
  let names ← canonical? args.path
  let paths := (args.config.map fun path => Locator.utf8Bytes path.toList).toList
    ++ (names.map FileSystem.absolute).toList
  let first ← readFiles paths
  let files : FileSystem := ⟨diskOf first, fun _ => names⟩
  match readSources? domains args files with
  | none => return files
  | some s =>
    let wanted := missingFiles (compile domains args s.config s.directory s.draft .empty).2
    let others ← readFiles wanted
    return ⟨diskOf (first ++ others), fun _ => names⟩

end ObjectMarkup.CommandLine

open ObjectMarkup CommandLine in
def main (args : List String) : IO UInt32 := do
  -- Without tables only names in ASCII can be read.
  let domains := Locator.Domains.unmapped
  let files ← match Arguments.read domains args with
    | .ok args => gather domains args
    | .error _ => pure ⟨.empty, fun _ => none⟩
  let report := run domains files args
  for warning in report.warnings do
    IO.eprintln warning
  IO.print report.output
  return report.exit.toUInt32
