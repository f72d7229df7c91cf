import ObjectMarkup.Proofs.IntegerPrefix

/-!
# The number in front of a text

Numbers are written as `NumberText.Valid` says: digits with or without a point, and an exponent or
none. Several of them may stand in front of one text: `2`, `2.`, `2.5` and `2.5e-1` all begin
`2.5e-1x`. It is the longest one that is read.

The scan never looks back, so why is nothing longer missed? Each of its stages leaves a part of what
any number there would leave behind that stage. Behind a point nothing but digits is passed over, and
an exponent begins with a letter that no stage before it takes (`scanMantissa_text`), so what is left in
the end is left behind every number in that place (`NumberText.suffix_of_scan`). And what has been
passed over is a number itself, for a letter or a point that leads nowhere is given back
(`NumberText.exists_of_scan`).

What is passed over is cut out of the text and read as a number of its own. This is done by byte
positions, and the reading could be refused. Neither goes wrong: each stage passes over the same
characters in bytes (`fractionEnd?_append`, `exponentEnd?_append`), and what is cut out is a number as a
whole (`NumberText.readNumber_text`), with the value that is nearest to what is written
(`NumberText.isValue_numeral`).
-/

namespace ObjectMarkup.Decimal

open Locator (utf8Bytes)

/-! ### How numbers are written -/

/-- An exponent: the letter, a sign and digits. -/
structure ExponentText where
  letter : Char
  sign : Sign
  digits : List Char

namespace ExponentText

def text (e : ExponentText) : List Char :=
  e.letter :: (e.sign.text ++ e.digits)

def value (e : ExponentText) : Int :=
  signedInt e.sign.negative (digitsValue e.digits)

structure Valid (e : ExponentText) : Prop where
  letter : e.letter = 'e' ∨ e.letter = 'E'
  digits : AllDigits e.digits
  ne_nil : e.digits ≠ []

end ExponentText

/-- A number in its parts: a sign, digits, and optionally a point with digits and an exponent. -/
structure NumberText where
  sign : Sign
  whole : List Char
  fraction : Option (List Char)
  exponent : Option ExponentText

namespace NumberText

def fractionText (n : NumberText) : List Char :=
  n.fraction.elim [] ('.' :: ·)

def exponentText (n : NumberText) : List Char :=
  n.exponent.elim [] ExponentText.text

/-- The number behind its sign. -/
def body (n : NumberText) : List Char :=
  n.whole ++ (n.fractionText ++ n.exponentText)

def text (n : NumberText) : List Char :=
  n.sign.text ++ n.body

/-- **The grammar of numbers:** `D+ ('.' D*)?` or `'.' D+`, with `[eE] sign? D+` behind it or not. -/
structure Valid (n : NumberText) : Prop where
  whole : AllDigits n.whole
  fraction : ∀ f ∈ n.fraction, AllDigits f
  mantissa : n.whole ≠ [] ∨ n.fraction.getD [] ≠ []
  exponent : ∀ e ∈ n.exponent, e.Valid

def numeral (n : NumberText) : Numeral :=
  ⟨n.whole, n.fraction.getD [], n.exponent.elim 0 ExponentText.value⟩

end NumberText

/-! ### Taking an exponent -/

/-- Behind the letter and a sign the digits are taken, if there are any. -/
theorem scanExponent_signed {letter : Char} (hletter : letter = 'e' ∨ letter = 'E') {sign : Sign}
    {body : List Char} (hsplit : splitSign (sign.text ++ body) = (sign.negative, body)) :
    scanExponent (letter :: (sign.text ++ body)) =
      if body.takeWhile Char.isDigit = [] then (0, letter :: (sign.text ++ body))
      else (signedInt sign.negative (digitsValue (body.takeWhile Char.isDigit)),
        body.dropWhile Char.isDigit) := by
  unfold scanExponent
  simp only [if_pos hletter, hsplit]
  split
  · next hnil => rw [if_pos hnil]
  · next hne => rw [if_neg hne]; rfl

/-- Behind an exponent nothing is taken but more digits. -/
theorem scanExponent_text {e : ExponentText} (h : e.Valid) (rest : List Char) :
    scanExponent (e.text ++ rest)
      = (signedInt e.sign.negative (digitsValue (e.digits ++ rest.takeWhile Char.isDigit)),
        rest.dropWhile Char.isDigit) := by
  obtain ⟨letter, sign, digits⟩ := e
  obtain ⟨hletter, hdigits, hne⟩ := h
  -- a digit follows the sign, so no second sign is taken for it
  have hsplit : splitSign (sign.text ++ (digits ++ rest)) = (sign.negative, digits ++ rest) := by
    refine splitSign_text sign fun _ c hc => ?_
    obtain ⟨d, digits, rfl⟩ := List.exists_cons_of_ne_nil hne
    obtain rfl : d = c := Option.some.inj hc
    have hd := hdigits d List.mem_cons_self
    constructor <;> rintro rfl <;> cases hd
  have htake : (digits ++ rest).takeWhile Char.isDigit ≠ [] := by
    rw [List.takeWhile_append_of_pos hdigits]
    exact List.append_ne_nil_of_left_ne_nil hne _
  rw [ExponentText.text, List.cons_append, List.append_assoc, scanExponent_signed hletter hsplit,
    if_neg htake, List.takeWhile_append_of_pos hdigits, List.dropWhile_append_of_pos hdigits]

/-- An exponent in front of a text, or none, and what has been taken of the text: the value and the
rest. -/
structure TakesExponent (s : List Char) (taken : Int × List Char) (e : Option ExponentText) :
    Prop where
  valid : ∀ e' ∈ e, e'.Valid
  text : s = e.elim [] ExponentText.text ++ taken.2
  value : taken.1 = e.elim 0 ExponentText.value

theorem takesExponent_none (s : List Char) : TakesExponent s (0, s) none :=
  ⟨nofun, rfl, rfl⟩

/-- **What is taken is an exponent,** or nothing. -/
theorem exists_scanExponent (s : List Char) : ∃ e, TakesExponent s (scanExponent s) e := by
  cases s with
  | nil => exact ⟨none, takesExponent_none []⟩
  | cons letter rest =>
    by_cases hletter : letter = 'e' ∨ letter = 'E'
    -- no letter, no exponent
    case neg =>
      rw [scanExponent, if_neg hletter]
      exact ⟨none, takesExponent_none _⟩
    obtain ⟨sign, body, rfl, hsplit, -⟩ := exists_splitSign rest
    rw [scanExponent_signed hletter hsplit]
    by_cases hdigits : body.takeWhile Char.isDigit = []
    · -- the letter is given back
      rw [if_pos hdigits]
      exact ⟨none, takesExponent_none _⟩
    · -- all digits are taken, and at least one is there
      refine ⟨some ⟨letter, sign, body.takeWhile Char.isDigit⟩, fun e he => ?_, ?_, ?_⟩
      · rw [← Option.some.inj he]
        exact ⟨hletter, allDigits_takeWhile body, hdigits⟩
      · rw [if_neg hdigits, Option.elim_some, ExponentText.text, List.cons_append, List.append_assoc,
          List.takeWhile_append_dropWhile]
      · rw [if_neg hdigits]
        rfl

theorem scanExponent_suffix (s : List Char) : (scanExponent s).2 <:+ s := by
  obtain ⟨e, he⟩ := exists_scanExponent s
  exact ⟨_, he.text.symm⟩

/-! ### Taking a point and digits -/

theorem scanFraction_of_head {s : List Char} (h : ∀ c ∈ s.head?, c ≠ '.') :
    scanFraction s = ([], s) := by
  unfold scanFraction
  split
  · exact absurd rfl (h '.' rfl)
  · rfl

/-- What is taken is a point with digits, or nothing. -/
theorem exists_scanFraction (s : List Char) :
    ∃ f : Option (List Char), (∀ f' ∈ f, AllDigits f') ∧
      s = f.elim [] ('.' :: ·) ++ (scanFraction s).2 ∧ (scanFraction s).1 = f.getD [] := by
  unfold scanFraction
  split
  · next rest =>
    refine ⟨some (rest.takeWhile Char.isDigit), fun f' h => ?_, ?_, rfl⟩
    · rw [← Option.some.inj h]
      exact allDigits_takeWhile rest
    · exact congrArg ('.' :: ·) List.takeWhile_append_dropWhile.symm
  · exact ⟨none, nofun, rfl, rfl⟩

theorem scanFraction_suffix (s : List Char) : (scanFraction s).2 <:+ s := by
  obtain ⟨f, -, hs, -⟩ := exists_scanFraction s
  exact ⟨_, hs.symm⟩

/-! ### Where a number begins -/

/-- **What a number begins with:** a digit, or a point directly before a digit. -/
inductive BeginsNumber : List Char → Prop where
  | digit {c : Char} (hc : c.isDigit = true) (rest : List Char) : BeginsNumber (c :: rest)
  | point {c : Char} (hc : c.isDigit = true) (rest : List Char) : BeginsNumber ('.' :: c :: rest)

/-- Neither a sign nor a word stands where a number begins. -/
theorem BeginsNumber.head_ne {s : List Char} (h : BeginsNumber s) {d : Char}
    (hd : d.isDigit = false) (hpoint : d ≠ '.') : ∀ c ∈ s.head?, c ≠ d := by
  rintro c hc rfl
  rcases h with ⟨hdigit, rest⟩ | ⟨-, rest⟩
  · obtain rfl := Option.some.inj hc
    rw [hdigit] at hd
    cases hd
  · exact hpoint (Option.some.inj hc).symm

theorem scan_eq (s : List Char) :
    Numeral.scan s =
      let whole := s.takeWhile Char.isDigit
      let fraction := scanFraction (s.dropWhile Char.isDigit)
      let exponent := scanExponent fraction.2
      if whole = [] ∧ fraction.1 = [] then none
      else some (⟨whole, fraction.1, exponent.1⟩, exponent.2) := by
  unfold Numeral.scan
  simp only [Bool.and_eq_true, List.isEmpty_iff]

/-- **A numeral is found exactly where a number begins.** -/
theorem scan_eq_none_iff {s : List Char} : Numeral.scan s = none ↔ ¬ BeginsNumber s := by
  -- the scan fails only for want of a digit on either side of the point
  have hnone : Numeral.scan s = none ↔
      s.takeWhile Char.isDigit = [] ∧ (scanFraction (s.dropWhile Char.isDigit)).1 = [] := by
    rw [scan_eq]
    dsimp only
    split
    · next h => exact iff_of_true rfl h
    · next h => exact iff_of_false nofun h
  rw [hnone]
  constructor
  · rintro ⟨hwhole, hfraction⟩ (⟨hc, rest⟩ | ⟨hc, rest⟩)
    · rw [List.takeWhile_cons_of_pos hc] at hwhole
      cases hwhole
    · have hpoint : ¬ ('.' : Char).isDigit = true := by decide
      rw [List.dropWhile_cons_of_neg hpoint, scanFraction, List.takeWhile_cons_of_pos hc] at hfraction
      cases hfraction
  · intro h
    cases s with
    | nil => exact ⟨rfl, rfl⟩
    | cons c rest =>
      have hc : ¬ c.isDigit = true := fun hc => h (.digit hc rest)
      rw [List.takeWhile_cons_of_neg hc, List.dropWhile_cons_of_neg hc]
      refine ⟨rfl, ?_⟩
      -- without a digit in front there has to be a point with a digit behind it
      by_cases hpoint : c = '.'
      · subst hpoint
        cases rest with
        | nil => rfl
        | cons d rest => exact List.takeWhile_cons_of_neg fun hd => h (.point hd rest)
      · rw [scanFraction_of_head]
        intro d hd
        rwa [← Option.some.inj hd]

theorem NumberText.Valid.beginsNumber {n : NumberText} (h : n.Valid) (rest : List Char) :
    BeginsNumber (n.body ++ rest) := by
  obtain ⟨sign, whole, fraction, exponent⟩ := n
  obtain ⟨hwhole, hfraction, hne, -⟩ := h
  cases whole with
  | cons c whole => exact .digit (hwhole c List.mem_cons_self) _
  | nil =>
    -- without digits in front of the point there are digits behind it
    cases fraction with
    | none => exact absurd rfl (hne.resolve_left fun h => h rfl)
    | some f =>
      cases f with
      | nil => exact absurd rfl (hne.resolve_left fun h => h rfl)
      | cons c f => exact .point (hfraction _ rfl c List.mem_cons_self) _

/-! ### The longest number -/

namespace NumberText

variable {n : NumberText}

/-- **What is taken is a number.** -/
theorem exists_of_scan {s rest : List Char} {m : Numeral} (h : Numeral.scan s = some (m, rest))
    (sign : Sign) : ∃ n : NumberText, n.Valid ∧ n.sign = sign ∧ n.body ++ rest = s ∧ n.numeral = m := by
  rw [scan_eq] at h
  dsimp only at h
  split at h
  · cases h
  · next hne =>
    obtain ⟨f, hf, hftext, hfraction⟩ := exists_scanFraction (s.dropWhile Char.isDigit)
    obtain ⟨⟨fraction, behind⟩, hbehind⟩ : ∃ p, scanFraction (s.dropWhile Char.isDigit) = p :=
      ⟨_, rfl⟩
    obtain ⟨e, he⟩ := exists_scanExponent behind
    rw [hbehind] at hne hftext hfraction h
    obtain rfl : fraction = f.getD [] := hfraction
    obtain ⟨rfl, rfl⟩ := Prod.mk.inj (Option.some.inj h)
    have hmantissa := Decidable.not_and_iff_not_or_not.mp hne
    -- the parts that were scanned, one behind the other, are the text
    refine ⟨⟨sign, s.takeWhile Char.isDigit, f, e⟩, ⟨allDigits_takeWhile s, hf, hmantissa, he.valid⟩, rfl,
      ?_, ?_⟩
    · rw [body, List.append_assoc, List.append_assoc]
      change _ ++ (f.elim [] ('.' :: ·) ++ (e.elim [] ExponentText.text ++ _)) = s
      rw [← he.text, ← hftext, List.takeWhile_append_dropWhile]
    · rw [he.value]
      rfl

/-- In front of the exponent digits are taken and nothing behind them, if neither a digit nor a point
follows. -/
theorem scanMantissa_text (h : n.Valid) {rest : List Char}
    (hrest : ∀ c ∈ rest.head?, c.isDigit = false ∧ c ≠ '.') :
    (n.whole ++ (n.fractionText ++ rest)).takeWhile Char.isDigit = n.whole ∧
      scanFraction ((n.whole ++ (n.fractionText ++ rest)).dropWhile Char.isDigit)
        = (n.fraction.getD [], rest) := by
  have hdigit : ∀ c ∈ rest.head?, c.isDigit = false := fun c hc => (hrest c hc).1
  -- the whole part ends at the point, or else at what follows the number
  have hstop : ∀ c ∈ (n.fractionText ++ rest).head?, c.isDigit = false := by
    unfold fractionText
    cases n.fraction with
    | none => exact hdigit
    | some f =>
      intro c hc
      rw [← Option.some.inj hc]
      rfl
  rw [Text.takeWhile_append_stop h.whole hstop, Text.dropWhile_append_stop h.whole hstop]
  refine ⟨rfl, ?_⟩
  obtain ⟨sign, whole, fraction, exponent⟩ := n
  cases fraction with
  | none => exact scanFraction_of_head fun c hc => (hrest c hc).2
  | some f =>
    change ((f ++ rest).takeWhile Char.isDigit, (f ++ rest).dropWhile Char.isDigit) = (f, rest)
    rw [Text.takeWhile_append_stop (h.fraction f rfl) hdigit,
      Text.dropWhile_append_stop (h.fraction f rfl) hdigit]

/-- Whatever follows, nothing in front of it is left. -/
theorem scanMantissa_suffix (h : n.Valid) (rest : List Char) :
    (scanFraction ((n.whole ++ (n.fractionText ++ rest)).dropWhile Char.isDigit)).2 <:+ rest := by
  rw [List.dropWhile_append_of_pos h.whole]
  obtain ⟨sign, whole, fraction, exponent⟩ := n
  cases fraction with
  | none => exact (scanFraction_suffix _).trans (List.dropWhile_suffix _)
  | some f =>
    change (f ++ rest).dropWhile Char.isDigit <:+ rest
    rw [List.dropWhile_append_of_pos (h.fraction f rfl)]
    exact List.dropWhile_suffix _

theorem scanExponent_head {e : ExponentText} (h : e.Valid) (rest : List Char) :
    ∀ c ∈ (e.text ++ rest).head?, c.isDigit = false ∧ c ≠ '.' := by
  intro c hc
  obtain rfl := Option.some.inj hc
  rcases h.letter with hletter | hletter <;> rw [hletter] <;> decide

/-- A number alone is taken as a whole. -/
theorem scan_body (h : n.Valid) : Numeral.scan n.body = some (n.numeral, []) := by
  -- nothing is left behind the exponent, and it does not begin with what continues a mantissa
  have hexponent : scanExponent n.exponentText = (n.exponent.elim 0 ExponentText.value, []) ∧
      ∀ c ∈ n.exponentText.head?, c.isDigit = false ∧ c ≠ '.' := by
    obtain ⟨sign, whole, fraction, exponent⟩ := n
    cases exponent with
    | none => exact ⟨rfl, nofun⟩
    | some e =>
      have hscan := scanExponent_text (h.exponent e rfl) []
      have hhead := scanExponent_head (h.exponent e rfl) []
      rw [List.append_nil] at hscan hhead
      rw [List.takeWhile_nil, List.append_nil, List.dropWhile_nil] at hscan
      exact ⟨hscan, hhead⟩
  obtain ⟨hwhole, hfraction⟩ := scanMantissa_text h hexponent.2
  rw [scan_eq, body, hwhole, hfraction]
  dsimp only
  rw [hexponent.1, if_neg (Decidable.not_and_iff_not_or_not.mpr h.mantissa)]
  rfl

/-- **A number goes on as far as it can:** what is left behind it is left behind any other number in
the same place. -/
theorem suffix_of_scan (h : n.Valid) {rest left : List Char} {m : Numeral}
    (hscan : Numeral.scan (n.body ++ rest) = some (m, left)) : left <:+ rest := by
  have hbody : n.body ++ rest = n.whole ++ (n.fractionText ++ (n.exponentText ++ rest)) := by
    rw [body, List.append_assoc, List.append_assoc]
  rw [scan_eq, hbody] at hscan
  dsimp only at hscan
  split at hscan
  · cases hscan
  -- the scan goes on at least to where the number ends
  rw [← (Prod.mk.inj (Option.some.inj hscan)).2]
  obtain ⟨sign, whole, fraction, exponent⟩ := n
  cases exponent with
  | none => exact (scanExponent_suffix _).trans (scanMantissa_suffix h rest)
  | some e =>
    have hexponent := h.exponent e rfl
    have hmantissa := (scanMantissa_text h (scanExponent_head hexponent rest)).2
    change (scanExponent (scanFraction
      ((whole ++ (fractionText ⟨sign, whole, fraction, some e⟩ ++ (e.text ++ rest))).dropWhile
        Char.isDigit)).2).2 <:+ rest
    rw [hmantissa, scanExponent_text hexponent]
    exact List.dropWhile_suffix _

theorem Valid.head_ne_sign (h : n.Valid) (rest : List Char) :
    ∀ c ∈ (n.body ++ rest).head?, c ≠ '+' ∧ c ≠ '-' := by
  intro c hc
  have hbegins := h.beginsNumber rest
  exact ⟨hbegins.head_ne rfl (by decide) c hc, hbegins.head_ne rfl (by decide) c hc⟩

/-- **The text of a number is a number as a whole,** and says its numeral. -/
theorem readNumber_text (h : n.Valid) :
    readNumber n.text = some (n.numeral.value n.sign.negative) := by
  have hsign := h.head_ne_sign []
  rw [List.append_nil] at hsign
  rw [readNumber, text, splitSign_text n.sign fun _ => hsign]
  dsimp only
  rw [scan_body h]

/-- A number in front of a text has the sign that stands there. -/
theorem Valid.divides (h : n.Valid) {rest : List Char} {s : List Char} {front : SignedText}
    (hfront : front.Divides s) (htext : n.text ++ rest = front.sign.text ++ front.body) :
    n.sign.text = front.sign.text ∧ n.body ++ rest = front.body := by
  have hsplit := splitSign_text n.sign fun _ => h.head_ne_sign rest
  rw [← List.append_assoc] at hsplit
  rw [text] at htext
  rw [htext, hfront.splitSign_eq] at hsplit
  have hbody := (Prod.mk.inj hsplit).2
  refine ⟨?_, hbody.symm⟩
  rw [List.append_assoc, hbody] at htext
  exact List.append_cancel_right htext

end NumberText

/-! ### The value of a number -/

open Binary64 (Rounds IsNearest ofMagnitude infinityMagnitude)

namespace NumberText

variable {n : NumberText}

/-- The size of the number that is written. -/
def size (n : NumberText) : ℚ :=
  digitsValue (n.whole ++ n.fraction.getD [])
    * 10 ^ (n.numeral.exponent - (n.fraction.getD []).length)

/-- The number that is written. -/
def written (n : NumberText) : ℚ :=
  if n.sign.negative then -n.size else n.size

/-- **The floating point number for what is written:** the magnitude that the size rounds to, or
infinity if this is beyond all finite numbers; and if it is finite no number is nearer. -/
structure IsValue (n : NumberText) (x : Binary64) : Prop where
  rounds : ∃ k, Rounds k n.size ∧ x = ofMagnitude n.sign.negative (min infinityMagnitude k)
  nearest : x.isFinite = true → IsNearest x n.written

theorem isValue_numeral (n : NumberText) : n.IsValue (n.numeral.value n.sign.negative) := by
  have hsize : 0 ≤ n.size := mul_nonneg (Nat.cast_nonneg _) (zpow_nonneg (by norm_num) _)
  obtain ⟨k, hk⟩ := Binary64.exists_rounds_of_nonneg hsize
  have hvalue : n.numeral.value n.sign.negative
      = ofMagnitude n.sign.negative (min infinityMagnitude k) :=
    Binary64.ofDecimal_eq hk n.sign.negative
  refine ⟨⟨k, hk, hvalue⟩, fun hfinite => Binary64.isNearest_ofDecimal hk ?_ n.sign.negative⟩
  have hlimit : min infinityMagnitude k < Binary64.signBit :=
    (Nat.min_le_left _ _).trans_lt Binary64.infinityMagnitude_lt_signBit
  rw [hvalue, Binary64.isFinite, Binary64.magnitude_ofMagnitude hlimit, decide_eq_true_eq] at hfinite
  omega

end NumberText

/-! ### Reading by byte positions -/

/-- Passes over a point and digits: how many digits there are, and the position behind them. -/
def fractionEnd? (bytes : List UInt8) (position : Nat) : Option (Nat × Nat) :=
  if Text.byteIs bytes position '.' then
    (digitsAt? bytes (position + 1)).map fun count => (count, position + 1 + count)
  else some (0, position)

/-- Passes over an exponent, if it has digits. -/
def exponentEnd? (bytes : List UInt8) (position : Nat) : Option Nat :=
  if Text.byteIs bytes position 'e' || Text.byteIs bytes position 'E' then
    let start :=
      if Text.byteIs bytes (position + 1) '+' || Text.byteIs bytes (position + 1) '-' then position + 2
      else position + 1
    (digitsAt? bytes start).map fun count => if 0 < count then start + count else position
  else some position

/-- The position behind the numeral in front of a text, if there is one. -/
def numeralEnd? (bytes : List UInt8) : Option (Option Nat) := do
  let whole ← digitsAt? bytes 0
  let (fraction, position) ← fractionEnd? bytes whole
  if whole + fraction = 0 then return none
  else (exponentEnd? bytes position).map some

/-- **Cuts the number out of a text,** its sign included, at the position behind the numeral. -/
def cutNumber? (s : List Char) : Option (Option (List Char)) := do
  let trimmed := Text.trimStart s
  let (_, body) ← splitSignAt? trimmed
  match ← numeralEnd? (utf8Bytes body) with
  | none => return none
  | some position =>
    let signLength := (utf8Bytes trimmed).length - (utf8Bytes body).length
    (Text.splitAtByte? trimmed (signLength + position)).map fun (number, _) => some number

/-- Reads the number in front of a text by byte positions: what is cut out has to be a number as a
whole. -/
def readNumberAt? (s : List Char) : Option (Option Binary64) := do
  let (negative, body) ← splitSignAt? (Text.trimStart s)
  if infinityWord.isPrefixOf body then return some (.infinity negative)
  else return (← cutNumber? s).bind readNumber

theorem AllDigits.ascii {s : List Char} (h : AllDigits s) : ∀ c ∈ s, Text.IsAscii c :=
  fun c hc => isAscii_of_isDigit (h c hc)

/-- **A point and digits are passed over** as they are taken. -/
theorem fractionEnd?_append (p q : List Char) :
    ∃ t, q = t ++ (scanFraction q).2 ∧ fractionEnd? (utf8Bytes (p ++ q)) (utf8Bytes p).length
      = some ((scanFraction q).1.length, (utf8Bytes (p ++ t)).length) := by
  rw [fractionEnd?, Text.byteIs_append p (by decide)]
  by_cases hpoint : q.head? = some '.'
  · obtain ⟨rest, rfl⟩ := List.head?_eq_some_iff.mp hpoint
    have hpointAscii : ∀ c ∈ ['.'], Text.IsAscii c := List.forall_mem_singleton.mpr (by decide)
    have hascii : ∀ c ∈ '.' :: rest.takeWhile Char.isDigit, Text.IsAscii c :=
      List.forall_mem_append.mpr ⟨hpointAscii, (allDigits_takeWhile rest).ascii⟩
    have hcount := digitsAt?_append_ascii p hpointAscii rest
    refine ⟨'.' :: rest.takeWhile Char.isDigit,
      congrArg ('.' :: ·) List.takeWhile_append_dropWhile.symm, ?_⟩
    rw [if_pos (beq_iff_eq.mpr hpoint), Text.length_utf8Bytes_append_ascii p hascii, List.length_cons]
    refine (congrArg (Option.map _) hcount).trans (congrArg some (Prod.ext rfl ?_))
    change (utf8Bytes p).length + 1 + _ = _
    omega
  · -- no point, no fraction, and the place is where it was
    have hscan := scanFraction_of_head (s := q) fun c hc heq => hpoint (heq ▸ hc)
    refine ⟨[], by rw [hscan]; rfl, ?_⟩
    rw [if_neg fun h => hpoint (beq_iff_eq.mp h), hscan, List.append_nil]
    rfl

/-- Whether a sign stands behind a beginning of the text. -/
theorem signAt_append (p : List Char) (sign : Sign) {body : List Char}
    (hbody : sign = .absent → ∀ c ∈ body.head?, c ≠ '+' ∧ c ≠ '-') :
    (Text.byteIs (utf8Bytes (p ++ (sign.text ++ body))) (utf8Bytes p).length '+'
      || Text.byteIs (utf8Bytes (p ++ (sign.text ++ body))) (utf8Bytes p).length '-')
      = decide (sign ≠ .absent) := by
  rw [Text.byteIs_append p (by decide), Text.byteIs_append p (by decide)]
  cases sign with
  | plus | minus => rfl
  -- the byte behind is the first of the body, which is no sign
  | absent =>
    have hhead := hbody rfl
    have hne : ∀ d : Char, d = '+' ∨ d = '-' → (body.head? == some d) = false := by
      rintro d hd
      refine beq_eq_false_iff_ne.mpr fun h => ?_
      have hc := hhead d h
      exact hd.elim hc.1 hc.2
    change (body.head? == some '+' || body.head? == some '-') = false
    rw [hne '+' (Or.inl rfl), hne '-' (Or.inr rfl)]
    rfl

/-- Whether the letter of an exponent stands behind a beginning of the text. -/
theorem letterAt_append (p : List Char) (letter : Char) (rest : List Char) :
    (Text.byteIs (utf8Bytes (p ++ letter :: rest)) (utf8Bytes p).length 'e'
      || Text.byteIs (utf8Bytes (p ++ letter :: rest)) (utf8Bytes p).length 'E') = true
      ↔ letter = 'e' ∨ letter = 'E' := by
  rw [Text.byteIs_append p (by decide), Text.byteIs_append p (by decide)]
  simp only [List.head?_cons, Bool.or_eq_true, beq_iff_eq, Option.some_inj]

/-- Behind the letter and a sign the digits are passed over, if there are any. -/
theorem exponentEnd?_signed (p : List Char) {letter : Char} (hletter : letter = 'e' ∨ letter = 'E')
    {sign : Sign} {body : List Char} (hbody : sign = .absent → ∀ c ∈ body.head?, c ≠ '+' ∧ c ≠ '-') :
    exponentEnd? (utf8Bytes (p ++ letter :: (sign.text ++ body))) (utf8Bytes p).length =
      some (if body.takeWhile Char.isDigit = [] then (utf8Bytes p).length
        else (utf8Bytes (p ++ letter :: (sign.text ++ body.takeWhile Char.isDigit))).length) := by
  have hsign : ∀ c ∈ letter :: sign.text, Text.IsAscii c :=
    List.forall_mem_cons.mpr ⟨by rcases hletter with rfl | rfl <;> decide, sign.ascii⟩
  have hone : (utf8Bytes (p ++ [letter])).length = (utf8Bytes p).length + 1 :=
    Text.length_utf8Bytes_append_ascii p
      (List.forall_mem_singleton.mpr (hsign letter List.mem_cons_self))
  -- the digits are counted from behind the sign
  have hbehind := signAt_append (p ++ [letter]) sign hbody
  rw [hone, List.append_assoc, List.singleton_append] at hbehind
  have hstart : (if decide (sign ≠ .absent) = true then (utf8Bytes p).length + 2
      else (utf8Bytes p).length + 1) = (utf8Bytes p).length + (letter :: sign.text).length := by
    cases sign <;> rfl
  have hcount := digitsAt?_append_ascii p hsign body
  rw [exponentEnd?, if_pos ((letterAt_append p letter _).mpr hletter)]
  dsimp only
  rw [hbehind, hstart]
  refine (congrArg (Option.map _) hcount).trans (congrArg some ?_)
  dsimp only
  by_cases hnil : body.takeWhile Char.isDigit = []
  · rw [if_pos hnil, hnil]
    rfl
  · have hascii : ∀ c ∈ (letter :: sign.text) ++ body.takeWhile Char.isDigit, Text.IsAscii c :=
      List.forall_mem_append.mpr ⟨hsign, (allDigits_takeWhile body).ascii⟩
    rw [if_neg hnil, if_pos (List.length_pos_iff.mpr hnil), ← List.cons_append,
      Text.length_utf8Bytes_append_ascii p hascii, List.length_append, Nat.add_assoc]

/-- **An exponent is passed over** as it is taken. -/
theorem exponentEnd?_append (p q : List Char) :
    ∃ t, q = t ++ (scanExponent q).2 ∧ exponentEnd? (utf8Bytes (p ++ q)) (utf8Bytes p).length
      = some (utf8Bytes (p ++ t)).length := by
  cases q with
  | nil =>
    refine ⟨[], rfl, ?_⟩
    rw [exponentEnd?, Text.byteIs_append p (by decide), Text.byteIs_append p (by decide),
      List.append_nil]
    rfl
  | cons letter rest =>
    by_cases hletter : letter = 'e' ∨ letter = 'E'
    -- without the letter the place is where it was
    case neg =>
      refine ⟨[], (congrArg Prod.snd (if_neg hletter : scanExponent (letter :: rest) = _)).symm, ?_⟩
      rw [exponentEnd?, if_neg fun h => hletter ((letterAt_append p letter rest).mp h),
        List.append_nil]
    obtain ⟨sign, body, rfl, hsplit, habsent⟩ := exists_splitSign rest
    rw [scanExponent_signed hletter hsplit, exponentEnd?_signed p hletter habsent]
    by_cases hnil : body.takeWhile Char.isDigit = []
    · -- the letter is given back
      rw [if_pos hnil, if_pos hnil]
      exact ⟨[], rfl, by rw [List.append_nil]⟩
    · -- letter, sign and digits are passed over
      rw [if_neg hnil, if_neg hnil]
      refine ⟨letter :: (sign.text ++ body.takeWhile Char.isDigit), ?_, rfl⟩
      rw [List.cons_append, List.append_assoc, List.takeWhile_append_dropWhile]

/-- **A numeral is passed over** as it is taken. -/
theorem numeralEnd?_eq (s : List Char) :
    (Numeral.scan s = none → numeralEnd? (utf8Bytes s) = some none) ∧
      ∀ m rest, Numeral.scan s = some (m, rest) →
        ∃ t, s = t ++ rest ∧ numeralEnd? (utf8Bytes s) = some (some (utf8Bytes t).length) := by
  have hwhole := allDigits_takeWhile s
  have hdigits : digitsAt? (utf8Bytes s) 0 = some (utf8Bytes (s.takeWhile Char.isDigit)).length :=
    (digitsAt?_append [] s).trans (congrArg some (Text.length_utf8Bytes_ascii hwhole.ascii).symm)
  have hs : s.takeWhile Char.isDigit ++ s.dropWhile Char.isDigit = s := List.takeWhile_append_dropWhile
  obtain ⟨t, ht, hfraction⟩ :=
    fractionEnd?_append (s.takeWhile Char.isDigit) (s.dropWhile Char.isDigit)
  obtain ⟨u, hu, hexponent⟩ := exponentEnd?_append (s.takeWhile Char.isDigit ++ t)
    (scanFraction (s.dropWhile Char.isDigit)).2
  rw [hs] at hfraction
  rw [List.append_assoc, ← ht, hs] at hexponent
  -- no digit was counted just if none was scanned
  have hempty : (utf8Bytes (s.takeWhile Char.isDigit)).length
      + (scanFraction (s.dropWhile Char.isDigit)).1.length = 0
        ↔ s.takeWhile Char.isDigit = [] ∧ (scanFraction (s.dropWhile Char.isDigit)).1 = [] := by
    rw [Text.length_utf8Bytes_ascii hwhole.ascii, Nat.add_eq_zero_iff, List.length_eq_zero_iff,
      List.length_eq_zero_iff]
  have hend : numeralEnd? (utf8Bytes s) =
      if s.takeWhile Char.isDigit = [] ∧ (scanFraction (s.dropWhile Char.isDigit)).1 = [] then some none
      else some (some (utf8Bytes (s.takeWhile Char.isDigit ++ t ++ u)).length) := by
    unfold numeralEnd?
    rw [hdigits, Option.bind_eq_bind, Option.bind_some, hfraction, Option.bind_eq_bind,
      Option.bind_some]
    dsimp only
    rw [hexponent]
    simp only [hempty]
    rfl
  rw [scan_eq, hend]
  dsimp only
  split
  · exact ⟨fun _ => rfl, nofun⟩
  · refine ⟨nofun, fun m rest h => ?_⟩
    rw [← (Prod.mk.inj (Option.some.inj h)).2]
    exact ⟨_, by rw [List.append_assoc, List.append_assoc, ← hu, ← ht, hs], rfl⟩

section Read

variable {s : List Char} {front : SignedText}

/-- **What is cut out is a number,** with the sign in front of it. -/
theorem cutNumber?_eq (hfront : front.Divides s) {n : NumberText} {rest : List Char} {m : Numeral}
    (hscan : Numeral.scan front.body = some (m, rest)) (hbody : n.body ++ rest = front.body)
    (hsign : n.sign = front.sign) : cutNumber? s = some (some n.text) := by
  obtain ⟨t, ht, hend⟩ := (numeralEnd?_eq front.body).2 m rest hscan
  obtain rfl : n.body = t := List.append_cancel_right (hbody.trans ht)
  -- the place in the body, moved on by what stands before the body
  have hposition : (utf8Bytes (front.sign.text ++ front.body)).length - (utf8Bytes front.body).length
      + (utf8Bytes n.body).length = (utf8Bytes n.text).length := by
    rw [NumberText.text, hsign, Text.utf8Bytes_append, Text.utf8Bytes_append, List.length_append,
      List.length_append, Nat.add_sub_cancel]
  have hsplit := Text.splitAtByte?_append n.text rest
  rw [NumberText.text, List.append_assoc, hbody, hsign] at hsplit
  unfold cutNumber?
  simp only [hfront.trimStart_eq, splitSignAt?_eq, hfront.splitSign_eq, Option.bind_eq_bind,
    Option.bind_some, hend, hposition]
  rw [NumberText.text, hsign, hsplit]
  rfl

/-- An exponent without digits is given back, its sign included. -/
example : cutNumber? [' ', '-', '2', '.', '5', 'e', '+', 'x'] = some (some ['-', '2', '.', '5']) := by
  decide

theorem cutNumber?_eq_none (hfront : front.Divides s) (hscan : Numeral.scan front.body = none) :
    cutNumber? s = some none := by
  unfold cutNumber?
  simp only [hfront.trimStart_eq, splitSignAt?_eq, hfront.splitSign_eq, Option.bind_eq_bind,
    Option.bind_some, (numeralEnd?_eq front.body).1 hscan]
  rfl

/-- The word for infinity is looked for behind the sign, and a numeral then. -/
theorem readNumberPrefix_eq (hfront : front.Divides s) :
    readNumberPrefix s =
      if infinityWord <+: front.body then some (.infinity front.sign.negative)
      else (Numeral.scan front.body).map fun (m, _) => m.value front.sign.negative := by
  unfold readNumberPrefix
  rw [hfront.trimStart_eq, hfront.splitSign_eq]
  simp only [List.isPrefixOf_iff_prefix]

theorem readNumberAt?_eq (hfront : front.Divides s) : readNumberAt? s = some (readNumberPrefix s) := by
  unfold readNumberAt?
  rw [readNumberPrefix_eq hfront, hfront.trimStart_eq, splitSignAt?_eq, hfront.splitSign_eq,
    Option.bind_eq_bind, Option.bind_some]
  simp only [List.isPrefixOf_iff_prefix]
  split
  · rfl
  · cases hscan : Numeral.scan front.body with
    | none => rw [cutNumber?_eq_none hfront hscan]; rfl
    | some p =>
      obtain ⟨m, rest⟩ := p
      obtain ⟨n, hvalid, hsign, hbody, rfl⟩ := NumberText.exists_of_scan hscan front.sign
      rw [cutNumber?_eq hfront hscan hbody hsign, ← hsign]
      exact congrArg some (NumberText.readNumber_text hvalid)

end Read

/-! ### What is read -/

/-- **The longest number** in front of a text, as it is cut out and read. -/
structure TakesNumber (s : List Char) (front : SignedText) (n : NumberText) (x : Binary64) : Prop where
  valid : n.Valid
  within : n.text <+: front.sign.text ++ front.body
  /-- All other numbers in front of the text are in front of this one. -/
  longest : ∀ n' : NumberText, n'.Valid → n'.text <+: front.sign.text ++ front.body →
    n'.text <+: n.text
  cut : cutNumber? s = some (some n.text)
  /-- The number is read as a whole. -/
  accepted : readNumber n.text = some x
  value : n.IsValue x
  read : readNumberPrefix s = some x

/-- What is read in front of a text that is divided in this way. -/
structure ReadsNumber (s : List Char) (front : SignedText) : Prop where
  /-- There is one way to take blanks and a sign off the text. -/
  front_iff : ∀ q : SignedText, q.Divides s ↔ q = front
  infinity : infinityWord <+: front.body →
    readNumberPrefix s = some (.infinity front.sign.negative)
  none_iff : ¬ infinityWord <+: front.body →
    (readNumberPrefix s = none ↔ ¬ BeginsNumber front.body)
  longest : ¬ infinityWord <+: front.body → BeginsNumber front.body →
    ∃ n x, TakesNumber s front n x
  /-- Byte positions lead to the same, and are all right. -/
  positions : readNumberAt? s = some (readNumberPrefix s)

theorem exists_takesNumber {s : List Char} {front : SignedText} (hfront : front.Divides s)
    (hword : ¬ infinityWord <+: front.body) (hbegins : BeginsNumber front.body) :
    ∃ n x, TakesNumber s front n x := by
  cases hscan : Numeral.scan front.body with
  -- the scan cannot fail, as a number begins here
  | none => exact absurd hbegins (scan_eq_none_iff.mp hscan)
  | some p =>
    obtain ⟨m, rest⟩ := p
    obtain ⟨n, hvalid, hsign, hbody, rfl⟩ := NumberText.exists_of_scan hscan front.sign
    have htext : n.text ++ rest = front.sign.text ++ front.body := by
      rw [NumberText.text, hsign, List.append_assoc, hbody]
    refine ⟨n, n.numeral.value n.sign.negative, hvalid, ⟨rest, htext⟩, ?_,
      cutNumber?_eq hfront hscan hbody hsign, NumberText.readNumber_text hvalid,
      NumberText.isValue_numeral n, ?_⟩
    · -- what is left behind the number is left behind the other one too
      rintro n' hvalid' ⟨rest', htext'⟩
      obtain ⟨-, hbody'⟩ := hvalid'.divides hfront htext'
      rw [← hbody'] at hscan
      obtain ⟨more, hmore⟩ := NumberText.suffix_of_scan hvalid' hscan
      have hlonger : n'.text ++ more ++ rest = n.text ++ rest := by
        rw [List.append_assoc, hmore, htext', htext]
      exact ⟨more, List.append_cancel_right hlonger⟩
    · rw [readNumberPrefix_eq hfront, if_neg hword, hscan, hsign]
      rfl

/-- **The number in front of a text is the longest one.** A text has a number in front of it exactly if
it begins with a digit behind blanks and a sign, or with a point and a digit there. What is read then
is the value of the longest number that stands there, if it is not the word for infinity. -/
theorem readNumberPrefix_longest (s : List Char) : ∃ front, ReadsNumber s front := by
  have hfront := SignedText.divides_of s
  refine ⟨SignedText.of s, fun q => SignedText.divides_iff, fun hword => ?_, fun hword => ?_,
    fun hword hbegins => exists_takesNumber hfront hword hbegins, readNumberAt?_eq hfront⟩
  · rw [readNumberPrefix_eq hfront, if_pos hword]
  · rw [readNumberPrefix_eq hfront, if_neg hword, Option.map_eq_none_iff, scan_eq_none_iff]

end ObjectMarkup.Decimal
