import Mathlib.Data.Nat.Digits.Defs
import ObjectMarkup.Kdl.Value
import ObjectMarkup.Proofs.Builtin
import ObjectMarkup.Proofs.BytePositions
import ObjectMarkup.Proofs.HookRun
import ObjectMarkup.Proofs.NumberText

/-!
# The integer in front of a text

An integer is read digit by digit, and each step is checked to have 64 bits. Two things could go wrong
with this. The digits could be refused though the integer has 64 bits, for the steps before the last
are checked too, and each of them twice; or the integer could be out of reach because its size is not,
as the least integer is larger than all others in size.

Neither happens. The sign is there from the beginning (`signedInt`), so the size is checked against the
limit for this sign. Then the second check of a step is never stricter than the first
(`appendDigit?_signedInt`), and the size only grows (`foldlM_appendDigit?`): a step that is refused
means that the whole is too large, whatever the digits are that follow. Zeros in front do not count.

`readIntegerPrefix_exact` joins this with the ways to divide a text, of which there is one only, with
the byte positions in them, and with the text of an integer of a document, which is read as that
integer again (`readIntegerPrefix_intText`).
-/

namespace ObjectMarkup

open Locator (utf8Bytes)

namespace Decimal

/-! ### Putting digits behind an integer -/

/-- The integer with a magnitude. -/
def signedInt (negative : Bool) (n : Nat) : Int :=
  if negative then -n else n

/-- The largest magnitude of an integer of 64 bits. -/
def magnitudeLimit (negative : Bool) : Nat :=
  if negative then 0x8000000000000000 else 0x7fffffffffffffff

theorem fitting?_signedInt (negative : Bool) (n : Nat) :
    fitting? (signedInt negative n)
      = if n ≤ magnitudeLimit negative then some (signedInt negative n) else none := by
  have hfits : fits (signedInt negative n) = decide (n ≤ magnitudeLimit negative) := by
    cases negative <;> simp [fits, signedInt, magnitudeLimit]
  simp only [fitting?, hfits, decide_eq_true_eq]

/-- A digit is put behind the magnitude, whatever the sign is. That the shifted integer has to fit
too makes no difference: it is not the larger one. -/
theorem appendDigit?_signedInt (negative : Bool) (radix n d : Nat) :
    appendDigit? negative radix (signedInt negative n) d
      = fitting? (signedInt negative (n * radix + d)) := by
  have hshift : signedInt negative n * radix = signedInt negative (n * radix) := by
    cases negative <;> simp [signedInt]
  have hdigit : (if negative then signedInt negative (n * radix) - d
      else signedInt negative (n * radix) + d) = signedInt negative (n * radix + d) := by
    cases negative with
    | true => simp only [signedInt, if_true]; omega
    | false => rfl
  -- both checks come to one: the shifted number fits whenever it still fits with its digit
  rw [appendDigit?, hshift, fitting?_signedInt negative (n * radix)]
  split
  · exact congrArg fitting? hdigit
  · next hlarge => rw [fitting?_signedInt, if_neg (by omega)]; rfl

/-- The number that the digits are written for, most significant first, behind another number. -/
def appendDigits (radix : Nat) (digits : List Nat) (n : Nat) : Nat :=
  digits.foldl (fun m d => m * radix + d) n

theorem appendDigits_eq_ofDigits (radix : Nat) (digits : List Nat) :
    appendDigits radix digits 0 = Nat.ofDigits radix digits.reverse := by
  rw [appendDigits, Nat.ofDigits_eq_foldr, List.foldr_reverse]
  simp only [Nat.cast_id, Nat.mul_comm, Nat.add_comm]

theorem le_appendDigits {radix : Nat} (hradix : 0 < radix) (digits : List Nat) (n : Nat) :
    n ≤ appendDigits radix digits n := by
  induction digits generalizing n with
  | nil => exact Nat.le_refl n
  | cons d rest ih =>
    calc n ≤ n * radix := Nat.le_mul_of_pos_right n hradix
      _ ≤ n * radix + d := Nat.le_add_right _ d
      _ ≤ appendDigits radix rest (n * radix + d) := ih _

/-- **The digits are all put behind if the result fits:** no step before is refused. -/
theorem foldlM_appendDigit? (negative : Bool) {radix : Nat} (hradix : 0 < radix) (digits : List Nat)
    {n : Nat} (hn : n ≤ magnitudeLimit negative) :
    digits.foldlM (appendDigit? negative radix) (signedInt negative n)
      = fitting? (signedInt negative (appendDigits radix digits n)) := by
  induction digits generalizing n with
  | nil =>
    rw [appendDigits, List.foldl_nil, fitting?_signedInt, if_pos hn]
    rfl
  | cons d rest ih =>
    rw [List.foldlM_cons, appendDigit?_signedInt, fitting?_signedInt]
    split
    · next hfit => exact ih hfit
    · next hlarge =>
      -- the number only grows behind the digit that was refused
      have hle := le_appendDigits hradix rest (n * radix + d)
      have hcons : appendDigits radix (d :: rest) n = appendDigits radix rest (n * radix + d) := rfl
      rw [fitting?_signedInt, hcons, if_neg (by omega)]
      rfl

/-! ### The parts of an integer -/

/-- What stands in front of the digits to say their base. -/
inductive RadixMark where
  | absent
  | lower
  | upper
  deriving DecidableEq, Repr

namespace RadixMark

def text : RadixMark → List Char
  | .absent => []
  | .lower => ['0', 'x']
  | .upper => ['0', 'X']

def radix : RadixMark → Nat
  | .absent => 10
  | .lower | .upper => 16

def covers (mark : RadixMark) (c : Char) : Bool :=
  (Text.digitValue? mark.radix c).isSome

end RadixMark

/-- A text behind a sign, divided into a mark of the base, digits and the rest. -/
structure IntegerText where
  mark : RadixMark
  digits : List Char
  rest : List Char

namespace IntegerText

/-- **How a text is divided:** a mark that stands there is taken, and the digits go on until
something else follows. -/
structure Divides (p : IntegerText) (body : List Char) : Prop where
  text : p.mark.text ++ (p.digits ++ p.rest) = body
  mark : p.mark = .absent → ¬ ['0', 'x'] <+: body ∧ ¬ ['0', 'X'] <+: body
  digits : ∀ c ∈ p.digits, p.mark.covers c = true
  rest : ∀ c ∈ p.rest.head?, p.mark.covers c = false

/-- The number that the digits are written for. -/
def magnitude (p : IntegerText) : Nat :=
  Nat.ofDigits p.mark.radix (p.digits.filterMap (Text.digitValue? p.mark.radix)).reverse

def ofMarked (mark : RadixMark) (behind : List Char) : IntegerText :=
  ⟨mark, behind.takeWhile mark.covers, behind.dropWhile mark.covers⟩

/-- The one way to divide a text. -/
def of : List Char → IntegerText
  | '0' :: 'x' :: behind => ofMarked .lower behind
  | '0' :: 'X' :: behind => ofMarked .upper behind
  | behind => ofMarked .absent behind

variable {p : IntegerText} {body : List Char}

theorem divides_of (body : List Char) : (of body).Divides body := by
  have hdigits : ∀ (mark : RadixMark) (behind : List Char), ∀ c ∈ behind.takeWhile mark.covers,
      mark.covers c = true := fun _ _ => List.all_eq_true.mp List.all_takeWhile
  have htext : ∀ (mark : RadixMark) (behind : List Char),
      behind.takeWhile mark.covers ++ behind.dropWhile mark.covers = behind :=
    fun _ _ => List.takeWhile_append_dropWhile
  unfold of
  split
  · next behind =>
    exact ⟨congrArg (['0', 'x'] ++ ·) (htext _ _), nofun, hdigits _ _, Text.head?_dropWhile _⟩
  · next behind =>
    exact ⟨congrArg (['0', 'X'] ++ ·) (htext _ _), nofun, hdigits _ _, Text.head?_dropWhile _⟩
  · -- neither mark matched, so the body starts with none
    next hlower hupper =>
    refine ⟨htext _ _, fun _ => ⟨?_, ?_⟩, hdigits _ _, Text.head?_dropWhile _⟩
    · rintro ⟨behind, hbehind⟩
      exact hlower behind hbehind.symm
    · rintro ⟨behind, hbehind⟩
      exact hupper behind hbehind.symm

/-- A mark that is there is what the text begins with. -/
theorem Divides.splitRadix_eq (h : p.Divides body) :
    splitRadix body = (p.mark.radix, p.digits ++ p.rest) := by
  obtain ⟨mark, digits, rest⟩ := p
  obtain ⟨rfl, hmark, -, -⟩ := h
  cases mark with
  | lower | upper => rfl
  -- the match could still find a mark in the digits: `Divides` excludes it
  | absent =>
    obtain ⟨hlower, hupper⟩ := hmark rfl
    change splitRadix (digits ++ rest) = (10, digits ++ rest)
    unfold splitRadix
    split
    · next behind heq => exact absurd ⟨behind, heq.symm⟩ hlower
    · next behind heq => exact absurd ⟨behind, heq.symm⟩ hupper
    · rfl

theorem Divides.eq_of (h : p.Divides body) : p = of body := by
  obtain ⟨mark, digits, rest⟩ := p
  obtain ⟨rfl, hmark, hdigits, hrest⟩ := h
  -- behind its mark a body has one way to be divided
  have hmarked : ofMarked mark (digits ++ rest) = ⟨mark, digits, rest⟩ := by
    rw [ofMarked, Text.takeWhile_append_stop hdigits hrest,
      Text.dropWhile_append_stop hdigits hrest]
  change _ = of (mark.text ++ (digits ++ rest))
  refine hmarked.symm.trans ?_
  cases mark with
  | lower | upper => rfl
  | absent =>
    obtain ⟨hlower, hupper⟩ := hmark rfl
    change ofMarked .absent (digits ++ rest) = of (digits ++ rest)
    unfold of
    split
    · next behind heq => exact absurd ⟨behind, heq.symm⟩ hlower
    · next behind heq => exact absurd ⟨behind, heq.symm⟩ hupper
    · rfl

/-- **There is one way to divide a text.** -/
theorem divides_iff : p.Divides body ↔ p = of body :=
  ⟨Divides.eq_of, fun h => h ▸ divides_of body⟩

end IntegerText

theorem leadingDigits_append {radix : Nat} {digits rest : List Char}
    (hdigits : ∀ c ∈ digits, (Text.digitValue? radix c).isSome = true)
    (hrest : ∀ c ∈ rest.head?, (Text.digitValue? radix c).isSome = false) :
    leadingDigits radix (digits ++ rest) = digits.filterMap (Text.digitValue? radix) := by
  induction digits with
  | nil =>
    -- the rest stops the digits, by its end or by its first character
    cases rest with
    | nil => rfl
    | cons c rest =>
      have hc : Text.digitValue? radix c = none := by simpa using hrest c rfl
      rw [List.nil_append, leadingDigits, hc]
      rfl
  | cons c digits ih =>
    obtain ⟨hc, hdigits⟩ := List.forall_mem_cons.mp hdigits
    obtain ⟨d, hd⟩ := Option.isSome_iff_exists.mp hc
    rw [List.cons_append, leadingDigits, hd, List.filterMap_cons_some hd, ih hdigits]

/-- The integer that is written in front of a text. -/
def writtenInteger (front : SignedText) (p : IntegerText) : Int :=
  signedInt front.sign.negative p.magnitude

/-- **What is read** is what is written, if it has digits and fits. -/
theorem readIntegerPrefix_eq {s : List Char} {front : SignedText} {p : IntegerText}
    (hfront : front.Divides s) (hp : p.Divides front.body) :
    readIntegerPrefix s
      = if p.digits = [] then none else (fitting? (writtenInteger front p)).map Int64.ofInt := by
  have hdigits : leadingDigits p.mark.radix (p.digits ++ p.rest)
      = p.digits.filterMap (Text.digitValue? p.mark.radix) :=
    leadingDigits_append hp.digits hp.rest
  have hradix : 0 < p.mark.radix := by cases p.mark <;> decide
  -- every digit has a value, so none is lost when they are read
  have hempty : p.digits.filterMap (Text.digitValue? p.mark.radix) = [] ↔ p.digits = [] := by
    rw [List.filterMap_eq_nil_iff, List.eq_nil_iff_forall_not_mem]
    refine forall₂_congr fun c hc => iff_of_false (fun hnone => ?_) id
    have hcovers : (Text.digitValue? p.mark.radix c).isSome = true := hp.digits c hc
    rw [hnone] at hcovers
    cases hcovers
  unfold readIntegerPrefix
  rw [hfront.trimStart_eq, hfront.splitSign_eq]
  simp only [hp.splitRadix_eq, hdigits]
  split
  · next hnil => rw [if_pos (hempty.mp hnil)]
  · next hne =>
    rw [if_neg (fun h => hne (hempty.mpr h))]
    -- the fold starts at zero, whatever the sign is
    have hzero : signedInt front.sign.negative 0 = 0 := by
      cases front.sign.negative <;> rfl
    rw [← hzero, foldlM_appendDigit? _ hradix _ (Nat.zero_le _), appendDigits_eq_ofDigits]
    rfl

/-- The least integer has no positive counterpart. -/
example : readIntegerPrefix "-9223372036854775808".toList = some Int64.minValue := by decide

/-- Whether an integer has 64 bits. -/
theorem fits_iff (i : Int) : fits i = true ↔ -2 ^ 63 ≤ i ∧ i ≤ 2 ^ 63 - 1 := by
  simp only [fits, Bool.and_eq_true, decide_eq_true_eq]
  norm_num

/-- An integer of 64 bits is the one that fits. -/
theorem fitting?_map_eq_some_iff {i : Int} {n : Int64} :
    (fitting? i).map Int64.ofInt = some n ↔ n.toInt = i := by
  unfold fitting?
  by_cases hfits : fits i = true
  · obtain ⟨hlow, hhigh⟩ := (fits_iff i).mp hfits
    have hi : (Int64.ofInt i).toInt = i := Int64.toInt_ofInt_of_le hlow (by omega)
    rw [if_pos hfits, Option.map_some, Option.some_inj, ← Int64.toInt_inj, hi]
    exact eq_comm
  · rw [if_neg hfits]
    -- a number that does not fit is not the value of any `Int64`
    refine iff_of_false nofun fun hn => hfits ((fits_iff i).mpr ?_)
    rw [← hn]
    exact ⟨n.le_toInt, by have := n.toInt_lt; omega⟩

theorem fitting?_map_eq_none_iff {i : Int} :
    (fitting? i).map Int64.ofInt = none ↔ ¬ (-2 ^ 63 ≤ i ∧ i ≤ 2 ^ 63 - 1) := by
  unfold fitting?
  rw [← fits_iff, Option.map_eq_none_iff]
  split <;> simp_all

/-! ### Reading by byte positions -/

/-- Takes the mark of a base off by its two bytes. There need not be a position behind them. -/
def splitRadixAt? (s : List Char) : Option (Nat × List Char) :=
  let front := (Text.splitAtByte? s 2).map Prod.fst
  if front = some ['0', 'x'] ∨ front = some ['0', 'X'] then
    (Text.splitAtByte? s 2).map fun (_, rest) => (16, rest)
  else some (10, s)

/-- Reads the integer in front of a text by byte positions. -/
def readIntegerAt? (s : List Char) : Option (Option Int64) := do
  let (negative, body) ← splitSignAt? (Text.trimStart s)
  let (radix, body) ← splitRadixAt? body
  return match leadingDigits radix body with
    | [] => none
    | digits => (digits.foldlM (appendDigit? negative radix) 0).map Int64.ofInt

/-- A mark of a base has two bytes. -/
theorem splitAtByte?_mark {x : Char} (hx : Text.IsAscii x) (rest : List Char) :
    Text.splitAtByte? ('0' :: x :: rest) 2 = some (['0', x], rest) := by
  have hascii : ∀ c ∈ ['0', x], Text.IsAscii c :=
    List.forall_mem_cons.mpr ⟨by decide, List.forall_mem_singleton.mpr hx⟩
  have hsplit := Text.splitAtByte?_append ['0', x] rest
  rwa [Text.length_utf8Bytes_ascii hascii] at hsplit

theorem splitRadixAt?_eq (s : List Char) : splitRadixAt? s = some (splitRadix s) := by
  unfold splitRadix
  split
  · next rest => rw [splitRadixAt?, splitAtByte?_mark (by decide)]; rfl
  · next rest => rw [splitRadixAt?, splitAtByte?_mark (by decide)]; rfl
  · next hlower hupper =>
    -- what is cut off is no mark, or nothing can be cut off
    refine if_neg fun hfront => ?_
    cases hsplit : Text.splitAtByte? s 2 with
    | none => rw [hsplit] at hfront; exact hfront.elim nofun nofun
    | some parts =>
      obtain ⟨front, rest⟩ := parts
      obtain ⟨rfl, -⟩ := Text.eq_append_of_splitAtByte? hsplit
      rw [hsplit] at hfront
      rcases hfront with hfront | hfront
      · obtain rfl : front = ['0', 'x'] := Option.some.inj hfront
        exact hlower rest rfl
      · obtain rfl : front = ['0', 'X'] := Option.some.inj hfront
        exact hupper rest rfl

/-- **All positions are right,** and the same integer is read. -/
theorem readIntegerAt?_eq (s : List Char) : readIntegerAt? s = some (readIntegerPrefix s) := by
  unfold readIntegerAt? readIntegerPrefix
  obtain ⟨⟨negative, body⟩, hsign⟩ : ∃ p, splitSign (Text.trimStart s) = p := ⟨_, rfl⟩
  rw [splitSignAt?_eq, hsign, Option.bind_eq_bind, Option.bind_some]
  dsimp only
  rw [splitRadixAt?_eq]
  rfl

/-! ### Reading back the text of an integer -/

theorem digitValue?_of_isDigit {c : Char} (hc : c.isDigit = true) :
    Text.digitValue? 10 c = some (c.toNat - '0'.toNat) := by
  obtain ⟨hlow, hhigh⟩ := digit_bounds hc
  have hzero : '0'.toNat = 48 := rfl
  have hnine : '9'.toNat = 57 := rfl
  have hvalue : Text.hexValue? c = some (c.toNat - '0'.toNat) := by
    unfold Text.hexValue?
    rw [if_pos (by simp only [hzero, hnine, Bool.and_eq_true, decide_eq_true_eq]; omega)]
  rw [Text.digitValue?, hvalue, Option.filter_some, if_pos (by rw [decide_eq_true_eq, hzero]; omega)]

/-- Decimal digits say the same number to either reader. -/
theorem appendDigits_filterMap {s : List Char} (hs : AllDigits s) :
    appendDigits 10 (s.filterMap (Text.digitValue? 10)) 0 = digitsValue s := by
  have hmap : s.filterMap (Text.digitValue? 10) = s.map fun c => c.toNat - '0'.toNat := by
    rw [← List.filterMap_eq_map]
    exact List.filterMap_congr fun c hc => digitValue?_of_isDigit (hs c hc)
  rw [hmap, appendDigits, List.foldl_map, digitsValue]
  simp only [Nat.mul_comm]

theorem ne_of_mem_toDigits {n : Nat} {c d : Char} (hc : c ∈ Nat.toDigits 10 n)
    (hd : d.isDigit = false) : c ≠ d := by
  rintro rfl
  rw [allDigits_toDigits n c hc] at hd
  cases hd

/-- The text of an integer in its parts. -/
def SignedText.ofInt (i : Int) : SignedText :=
  ⟨[], if i < 0 then .minus else .absent, Nat.toDigits 10 i.natAbs⟩

/-- Decimal digits alone. -/
def IntegerText.ofNat (n : Nat) : IntegerText :=
  ⟨.absent, Nat.toDigits 10 n, []⟩

theorem SignedText.divides_intText (i : Int) : (ofInt i).Divides (intText i) := by
  have htext : intText i = (ofInt i).sign.text ++ (ofInt i).body := by
    unfold intText ofInt
    by_cases hi : i < 0 <;> simp only [hi, if_true, if_false] <;> rfl
  refine ⟨htext.symm, fun _ h => absurd h List.not_mem_nil, fun c hc => ?_, fun _ c hc => ?_⟩
  · -- the first character is the minus or a digit, and no blank either way
    by_cases hi : i < 0
    · simp only [ofInt, if_pos hi] at hc
      obtain rfl : '-' = c := Option.some.inj hc
      decide
    · simp only [ofInt, if_neg hi] at hc
      exact not_isBlank_of_isDigit (allDigits_toDigits _ c (List.mem_of_head? hc))
  · have hmem : c ∈ Nat.toDigits 10 i.natAbs := List.mem_of_head? hc
    exact ⟨ne_of_mem_toDigits hmem rfl, ne_of_mem_toDigits hmem rfl⟩

/-- Decimal digits have no mark of a base in front. -/
theorem IntegerText.divides_toDigits (n : Nat) : (ofNat n).Divides (Nat.toDigits 10 n) := by
  refine ⟨List.append_nil _, fun _ => ⟨fun hmark => ?_, fun hmark => ?_⟩, fun c hc => ?_, nofun⟩
  · exact ne_of_mem_toDigits (hmark.subset (by simp)) (d := 'x') rfl rfl
  · exact ne_of_mem_toDigits (hmark.subset (by simp)) (d := 'X') rfl rfl
  · exact Option.isSome_iff_exists.mpr ⟨_, digitValue?_of_isDigit (allDigits_toDigits n c hc)⟩

theorem writtenInteger_ofInt (i : Int) :
    writtenInteger (SignedText.ofInt i) (IntegerText.ofNat i.natAbs) = i := by
  have hmagnitude : (IntegerText.ofNat i.natAbs).magnitude = i.natAbs := by
    rw [IntegerText.magnitude, ← appendDigits_eq_ofDigits]
    exact (appendDigits_filterMap (allDigits_toDigits _)).trans (digitsValue_toDigits _)
  rw [writtenInteger, hmagnitude, SignedText.ofInt, signedInt]
  -- the sign is written for negative numbers and missing for the others
  by_cases hi : i < 0
  · simp only [if_pos hi, Sign.negative, beq_self_eq_true, if_true]
    omega
  · simp only [if_neg hi, Sign.negative]
    change (i.natAbs : Int) = i
    omega

/-- **The text of an integer is read as the integer,** if that fits. -/
theorem readIntegerPrefix_intText (i : Int) :
    readIntegerPrefix (intText i) = (fitting? i).map Int64.ofInt := by
  rw [readIntegerPrefix_eq (SignedText.divides_intText i) (IntegerText.divides_toDigits i.natAbs),
    writtenInteger_ofInt]
  exact if_neg Nat.toDigits_ne_nil

end Decimal

/-! ### What is read -/

open Decimal

/-- **The outcome of an attribute of the number kind for an integer of a KDL document:** the integer
itself if it has 64 bits, else a mismatch. -/
def IntegerArrives (type : String) (i : Int) : Prop :=
  ∀ (name : String) (base : Option Locator) (world : World) (s : Store),
    let view : AttributeView := ⟨world, ⟨name, type, (Kdl.Value.integer i).text⟩, base⟩
    Hook.exec (Kind.number.construct view) s =
      if -2 ^ 63 ≤ i ∧ i ≤ 2 ^ 63 - 1 then (.ok (.int (Int64.ofInt i)), s)
      else (.error (.error view.mismatch), s)

theorem arrives_integer {type : String} (htype : type = "int" ∨ type = "integer") (i : Int) :
    IntegerArrives type i := by
  intro name base world s
  dsimp only
  rw [Kind.construct_number, Kind.readNumberAs, if_pos htype, Kdl.Value.text, String.toList_ofList,
    readIntegerPrefix_intText]
  simp only [← fits_iff]
  unfold fitting?
  split <;> rfl

/-- What is read in front of a text that is divided in this way. -/
structure ReadsInteger (s : List Char) (front : SignedText) (p : IntegerText) : Prop where
  /-- There is one way to take blanks and a sign off the text. -/
  front_iff : ∀ q : SignedText, q.Divides s ↔ q = front
  /-- There is one way to take a mark of the base and digits off the rest. -/
  parts_iff : ∀ q : IntegerText, q.Divides front.body ↔ q = p
  /-- An integer is read exactly if there are digits and it is what they are written for. -/
  some_iff : ∀ n : Int64,
    readIntegerPrefix s = some n ↔ p.digits ≠ [] ∧ n.toInt = writtenInteger front p
  /-- None is read exactly if there are no digits or what they are written for has more bits. -/
  none_iff : readIntegerPrefix s = none ↔
    p.digits = [] ∨ ¬ (-2 ^ 63 ≤ writtenInteger front p ∧ writtenInteger front p ≤ 2 ^ 63 - 1)
  /-- Byte positions lead to the same, and are all right. -/
  positions : readIntegerAt? s = some (readIntegerPrefix s)

/-- **The integer in front of a text is exact.** A text has an integer in front of it if it has digits
there, of a number of 64 bits; then this is what is read. So the text of each integer of 64 bits is
read as this integer, and an attribute keeps the integers of a document that have 64 bits. -/
theorem readIntegerPrefix_exact (s : List Char) (n : Int64) (i : Int) :
    (∃ front p, ReadsInteger s front p) ∧ readIntegerPrefix (intText n.toInt) = some n ∧
      IntegerArrives "int" i ∧ IntegerArrives "integer" i := by
  refine ⟨⟨SignedText.of s, IntegerText.of (SignedText.of s).body, ?_⟩, ?_,
    arrives_integer (Or.inl rfl) i, arrives_integer (Or.inr rfl) i⟩
  · have hread := readIntegerPrefix_eq (SignedText.divides_of s)
      (IntegerText.divides_of (SignedText.of s).body)
    refine ⟨fun q => SignedText.divides_iff, fun q => IntegerText.divides_iff, fun n => ?_, ?_,
      readIntegerAt?_eq s⟩
    · rw [hread]
      split
      · next hnil => exact iff_of_false nofun fun h => h.1 hnil
      · next hne => rw [fitting?_map_eq_some_iff, and_iff_right hne]
    · rw [hread]
      split
      · next hnil => exact iff_of_true rfl (Or.inl hnil)
      · next hne => rw [fitting?_map_eq_none_iff, or_iff_right hne]
  · -- the round trip reads the text of a number that fits by its type
    rw [readIntegerPrefix_intText, fitting?_map_eq_some_iff]

end ObjectMarkup
