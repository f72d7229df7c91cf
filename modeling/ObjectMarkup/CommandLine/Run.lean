import ObjectMarkup.CommandLine.Arguments
import ObjectMarkup.Compile.Compilation
import ObjectMarkup.Config
import ObjectMarkup.Fetch.Disk
import ObjectMarkup.Markup.Load
import ObjectMarkup.Value.Json

/-!
# The command

One run of the command compiles one file and writes the JSON of its value, with a warning for every
failure that did not spread. If there is no value nothing is written and the exit code says so.
-/

namespace ObjectMarkup.CommandLine

open Markup (Document Draft)

structure Report where
  exit : Nat
  /-- What is written as the result. -/
  output : String
  warnings : List String

/-- A run without a result. -/
def Report.failure (exit : Nat) : Report :=
  ⟨exit, "", []⟩

/-- What is written for a failure that did not spread. -/
def warningText (d : Diagnostic) : String :=
  let place := match d.attributeName with
    | some name => "[" ++ name ++ "] "
    | none => ""
  "warning: <" ++ d.tag ++ "> " ++ place ++ d.error.text

section

variable (domains : Locator.Domains)

/-- The world under a configuration, with files as the source of bytes. No value of a configuration
is a constructor, so there is nothing to be called. -/
def world (config : Config) (disk : Disk) : World :=
  { World.empty with
    symbols := config.apply .empty
    fetch := disk.fetcher
    domains := domains }

def environment (config : Config) (disk : Disk) : Environment :=
  .builtin (world domains config disk)

/-- Compiles markup from a directory. -/
def compile (args : Arguments) (config : Config) (directory : List (List UInt8)) (draft : Draft)
    (disk : Disk) : Outcome Value × Compilation :=
  let here := Locator.ofDirectory directory
  let document := (Document.ofDraft draft (some here) 0).1
  (Compilation.begin (environment domains config disk) document (args.base.or config.base) (some here)
    .empty).process

def report (args : Arguments) : Outcome Value × Compilation → Report
  | (.error _, _) => .failure 1
  | (.ok value, c) =>
    match c.pass.store.json? value with
    | none => .failure 1
    | some json =>
      ⟨0, (if args.compact then json.compactText else json.prettyText) ++ "\n",
        c.pass.diagnostics.map warningText⟩

/-- What a run reads before it compiles. -/
structure Sources where
  config : Config
  /-- The directory of the markup. -/
  directory : List (List UInt8)
  draft : Draft

/-- Reads the configuration; without one it is empty. -/
def readConfig? (args : Arguments) (disk : Disk) : Option Config :=
  match args.config with
  | none => some .empty
  | some path => do (Config.read domains (← disk.text? (Locator.utf8Bytes path.toList))).toOption

/-- Reads configuration and markup. -/
def readSources? (args : Arguments) (files : FileSystem) : Option Sources := do
  let config ← readConfig? domains args files.disk
  let names ← files.canonical? (Locator.utf8Bytes args.path.toList)
  let text ← files.disk.text? (FileSystem.absolute names)
  let draft ← (Draft.read text).toOption
  return ⟨config, names.dropLast, draft⟩

/-- **A run of the command.** Wrong arguments exit with 2, any other failure with 1. -/
def run (files : FileSystem) (args : List String) : Report :=
  match Arguments.read domains args with
  | .error .help => ⟨0, helpText, []⟩
  | .error .usage => .failure 2
  | .ok args =>
    match readSources? domains args files with
    | none => .failure 1
    | some s => report args (compile domains args s.config s.directory s.draft files.disk)

end

/-- The paths of files that a compile has looked for in vain. -/
def missingFiles (c : Compilation) : List (List UInt8) :=
  c.pass.diagnostics.filterMap fun d =>
    match d.error with
    | .fetch (.notFound url) => url.filePath?
    | _ => none

end ObjectMarkup.CommandLine
