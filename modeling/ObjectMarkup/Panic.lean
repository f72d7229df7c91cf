/-!
# Panics

A step may break off instead of ending: it panics, with a text that says why or with something that
is not a text. A panic is contained where the step was started and reported there as one text.
-/

namespace ObjectMarkup

/-- What a step breaks off with. -/
inductive Panic where
  | text (message : String)
  | other
  deriving DecidableEq, Repr

/-- The text that reports a panic. -/
def Panic.message : Panic → String
  | .text message => message
  | .other => "non-string panic payload"

end ObjectMarkup
