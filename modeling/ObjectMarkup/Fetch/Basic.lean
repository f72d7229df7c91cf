import ObjectMarkup.Value.Basic

/-!
# Fetching

A fetcher answers a locator with the bytes that it names. It is a function, so asking twice gives
the same answer twice. `Shelf` is the fetcher that has everything in memory, in a table that is
filled by hand.
-/

namespace ObjectMarkup

/-- Why nothing was fetched. -/
inductive FetchError where
  /-- The fetcher does not know the scheme. -/
  | unsupportedScheme (url : Locator)
  /-- There is nothing at the place. -/
  | notFound (url : Locator)
  /-- There is something at the place, but it cannot be read. -/
  | unreadable (url : Locator) (reason : String)
  deriving DecidableEq, Repr

def FetchError.message : FetchError → String
  | .unsupportedScheme url => "unsupported scheme '" ++ url.schemeText ++ "' in " ++ url.text
  | .notFound url => "resource not found: " ++ url.text
  | .unreadable url reason => "failed to read " ++ url.text ++ ": " ++ reason

/-- What fetching gives for each locator. -/
abbrev Fetcher := Locator → Except FetchError Resource

/-- Resources in memory: bytes by the place they are found at. -/
abbrev Shelf := OrderedMap Locator (List UInt8)

def Shelf.fetcher (shelf : Shelf) : Fetcher := fun url =>
  match shelf.get? url with
  | some bytes => .ok ⟨url, bytes⟩
  | none => .error (.notFound url)

end ObjectMarkup
