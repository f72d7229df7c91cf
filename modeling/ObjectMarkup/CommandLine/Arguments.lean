import ObjectMarkup.Locator.Reading

/-!
# Arguments

The command line names one markup file and may set a base, a configuration, and how the result is
written. Arguments are taken from left to right, and the first one that is wrong, or that asks for
help, decides.
-/

namespace ObjectMarkup.CommandLine

/-- What the command line asks for. -/
structure Arguments where
  /-- The markup file. -/
  path : String
  base : Option Locator
  config : Option String
  /-- Whether more is logged. -/
  verbose : Bool
  /-- Whether the result is written on one line. -/
  compact : Bool

/-- Why nothing is compiled. -/
inductive Refusal where
  /-- Help was asked for. -/
  | help
  /-- The arguments are wrong. -/
  | usage
  deriving DecidableEq, Repr

inductive Switch where
  /-- More is logged. -/
  | verbose
  /-- The result is written on one line. -/
  | compact
  /-- Help is asked for. -/
  | help

/-- Options with a value. -/
inductive Setting where
  | base
  | config

/-- What was taken from the arguments so far. -/
structure Taken where
  /-- The markup file. -/
  path : Option String
  base : Option Locator
  config : Option String
  /-- Whether more is logged. -/
  verbose : Bool
  /-- Whether the result is written on one line. -/
  compact : Bool

namespace Taken

def nothing : Taken :=
  ⟨none, none, none, false, false⟩

/-- Turns a switch on. It cannot be turned on twice. -/
def turnOn (t : Taken) : Switch → Except Refusal Taken
  | .verbose => if t.verbose then .error .usage else .ok { t with verbose := true }
  | .compact => if t.compact then .error .usage else .ok { t with compact := true }
  | .help => .error .help

/-- Takes the value of a setting. It cannot be given twice. -/
def assign (domains : Locator.Domains) (t : Taken) (value : String) : Setting → Except Refusal Taken
  | .base =>
    match t.base, Locator.parse domains value with
    | none, .ok l => .ok { t with base := some l }
    | _, _ => .error .usage
  | .config =>
    match t.config with
    | none => if value = "" then .error .usage else .ok { t with config := some value }
    | some _ => .error .usage

/-- Takes the markup file. There is only one. -/
def takePath (t : Taken) (value : String) : Except Refusal Taken :=
  match t.path with
  | none => if value = "" then .error .usage else .ok { t with path := some value }
  | some _ => .error .usage

/-- All that was asked for, if the markup file is named. -/
def finish (t : Taken) : Except Refusal Arguments :=
  match t.path with
  | some path => .ok ⟨path, t.base, t.config, t.verbose, t.compact⟩
  | none => .error .usage

end Taken

def longOption? (name : List Char) : Option (Switch ⊕ Setting) :=
  match String.ofList name with
  | "base" => some (.inr .base)
  | "config" => some (.inr .config)
  | "verbose" => some (.inl .verbose)
  | "compact" => some (.inl .compact)
  | "help" => some (.inl .help)
  | _ => none

def shortOption? : Char → Option (Switch ⊕ Setting)
  | 'b' => some (.inr .base)
  | 'c' => some (.inr .config)
  | 'v' => some (.inl .verbose)
  | 'h' => some (.inl .help)
  | _ => none

section

variable (domains : Locator.Domains)

/-- Takes the option with a long name, with the value behind an equals sign if there is one. A
setting without a value waits for the next argument. -/
def takeLong (t : Taken) (body : List Char) : Except Refusal (Taken × Option Setting) :=
  let name := body.takeWhile (· != '=')
  match longOption? name, body.drop name.length with
  | some (.inl switch), [] => do return (← t.turnOn switch, none)
  | some (.inr setting), [] => .ok (t, some setting)
  | some (.inr setting), _ :: value => do return (← t.assign domains (String.ofList value) setting, none)
  | _, _ => .error .usage

/-- Takes options with letters, one after the other. What follows the letter of a setting is its
value, with or without an equals sign. -/
def takeShort (t : Taken) : List Char → Except Refusal (Taken × Option Setting)
  | [] => .ok (t, none)
  | c :: rest =>
    match shortOption? c with
    | some (.inl switch) => do takeShort (← t.turnOn switch) rest
    | some (.inr setting) =>
      match rest with
      | [] => .ok (t, some setting)
      | '=' :: value => do return (← t.assign domains (String.ofList value) setting, none)
      | value => do return (← t.assign domains (String.ofList value) setting, none)
    | none => .error .usage

/-- Takes the arguments after a double dash, all of which are paths. -/
def takePaths (t : Taken) : List String → Except Refusal Taken
  | [] => .ok t
  | a :: rest => do takePaths (← t.takePath a) rest

/-- Whether an argument is read as options. A single dash is not. -/
def isOption (a : List Char) : Bool :=
  match a with
  | '-' :: _ :: _ => true
  | _ => false

/-- Takes arguments, where a setting may be waiting for its value. -/
def takeAll (waiting : Option Setting) (t : Taken) : List String → Except Refusal Taken
  | [] => if waiting.isSome then .error .usage else .ok t
  | a :: rest =>
    match waiting with
    | some setting =>
      -- A value that looks like an option has to be joined to its setting.
      if isOption a.toList then .error .usage
      else do takeAll none (← t.assign domains a setting) rest
    | none =>
      match a.toList with
      | ['-', '-'] => takePaths t rest
      | '-' :: '-' :: body => do
        let (t, waiting) ← takeLong domains t body
        takeAll waiting t rest
      | '-' :: c :: body => do
        let (t, waiting) ← takeShort domains t (c :: body)
        takeAll waiting t rest
      | _ => do takeAll none (← t.takePath a) rest

/-- **Reads the arguments.** -/
def Arguments.read (args : List String) : Except Refusal Arguments := do
  (← takeAll domains none .nothing args).finish

end

def helpText : String :=
  "Compile KDL markup into a JSON object graph\n\n" ++
  "Usage: trellis [OPTIONS] <PATH>\n\n" ++
  "Arguments:\n" ++
  "  <PATH>  Markup file to compile\n\n" ++
  "Options:\n" ++
  "  -b, --base <URL>     Base locator for relative references (defaults to the markup's " ++
  "directory)\n" ++
  "  -c, --config <PATH>  KDL config file with `base` and `symbols`\n" ++
  "  -v, --verbose        Verbose logging\n" ++
  "      --compact        Print JSON on a single line\n" ++
  "  -h, --help           Print help\n"

end ObjectMarkup.CommandLine
