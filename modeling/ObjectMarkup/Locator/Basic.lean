import ObjectMarkup.Locator.Host

/-!
# Locators

A locator is a URL as a record of its parts. Its path is either *flat*, one text without structure
as in `mailto:a@b`, or a list of segments each written behind a slash.
-/

namespace ObjectMarkup

namespace Locator

/-- Who serves what the path names. -/
structure Authority where
  /-- The user name, empty if none is given. -/
  username : List Char
  /-- The password, empty if none is given. -/
  password : List Char
  /-- The host; it may be the empty name. -/
  host : Host
  /-- The port, unless it is the one that the scheme implies. -/
  port : Option Nat
  deriving DecidableEq, Repr

/-- An authority that is a host only. -/
def Authority.ofHost (host : Host) : Authority :=
  ⟨[], [], host, none⟩

inductive Path where
  /-- One text without structure. -/
  | flat (text : List Char)
  /-- Segments, each of them behind a slash. -/
  | segments (list : List (List Char))
  deriving DecidableEq, Repr

end Locator

open Locator in
/-- A URL in its parts, all of them percent-encoded. -/
structure Locator where
  /-- The scheme in lower case. -/
  scheme : List Char
  /-- The authority; a locator without `//` has none. -/
  authority : Option Authority
  path : Path
  /-- The query behind `?`. -/
  query : Option (List Char)
  /-- The fragment behind `#`. -/
  fragment : Option (List Char)
  deriving DecidableEq, Repr

namespace Locator

/-- What a scheme means for the syntax of its locators. -/
inductive SchemeClass where
  | file
  /-- A scheme with a host and a hierarchical path, and this port unless another one is given. -/
  | special (port : Nat)
  | other
  deriving DecidableEq, Repr

def schemeClass (scheme : List Char) : SchemeClass :=
  match String.ofList scheme with
  | "file" => .file
  | "http" | "ws" => .special 80
  | "https" | "wss" => .special 443
  | "ftp" => .special 21
  | _ => .other

/-- Whether backslashes separate like slashes, and a path is never empty. -/
def SchemeClass.isSpecial : SchemeClass → Bool
  | .other => false
  | _ => true

/-- The text of an authority behind the two slashes. -/
def Authority.text (a : Authority) : List Char :=
  let password := if a.password.isEmpty then [] else ':' :: a.password
  let userinfo := if a.username.isEmpty && a.password.isEmpty then []
    else a.username ++ password ++ ['@']
  let port := match a.port with
    | some p => ':' :: Decimal.natText p
    | none => []
  userinfo ++ a.host.text ++ port

def Path.text : Path → List Char
  | .flat text => text
  | .segments list => list.flatMap ('/' :: ·)

/-- A path that would begin with two slashes must not be taken for an authority. -/
def Path.shield : Path → List Char
  | .segments ([] :: _ :: _) => ['/', '.']
  | _ => []

/-- **The text of a locator.** -/
def chars (l : Locator) : List Char :=
  let authority := match l.authority with
    | some a => '/' :: '/' :: a.text
    | none => l.path.shield
  let query := match l.query with
    | some q => '?' :: q
    | none => []
  let fragment := match l.fragment with
    | some f => '#' :: f
    | none => []
  l.scheme ++ ':' :: authority ++ l.path.text ++ query ++ fragment

def text (l : Locator) : String :=
  String.ofList l.chars

/-- Whether relative references cannot be resolved against the locator. -/
def isFlat (l : Locator) : Bool :=
  match l.path with
  | .flat _ => true
  | .segments _ => false

def schemeText (l : Locator) : String :=
  String.ofList l.scheme

/-- The segments of the path; a flat path has none. -/
def segmentList (l : Locator) : List (List Char) :=
  match l.path with
  | .segments list => list
  | .flat _ => []

end Locator

end ObjectMarkup
