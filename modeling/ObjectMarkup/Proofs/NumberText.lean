import Mathlib.Data.List.TakeWhile
import ObjectMarkup.Decimal.Integer
import ObjectMarkup.Kdl.Value
import ObjectMarkup.Proofs.ShortestDigits

/-!
# Reading back the text of a number

A number of a KDL document becomes text, and an attribute of a number type reads it again. The digits
of a finite number stand in place, so the text is a numeral without an exponent and nothing is left
behind it (`Digits.scan_positional`), and what it says is the value of the digits. With
`rounds_shortest` the number that is read is then the one that was written (`readNumberPrefix_floatText`):
the text of a finite number comes back as that number.

An infinity does not come back. Its text is `inf`, and the only word that is read is `Infinity`.
-/

namespace ObjectMarkup.Decimal

open Binary64 (Rounds ofDecimal ofMagnitude infinityMagnitude)

/-! ### The value of digits -/

/-- Every character is a digit. -/
def AllDigits (s : List Char) : Prop :=
  ∀ c ∈ s, c.isDigit = true

theorem AllDigits.append {s t : List Char} (hs : AllDigits s) (ht : AllDigits t) :
    AllDigits (s ++ t) :=
  fun c hc => (List.mem_append.mp hc).elim (hs c) (ht c)

theorem allDigits_takeWhile (s : List Char) : AllDigits (s.takeWhile Char.isDigit) :=
  List.all_eq_true.mp List.all_takeWhile

theorem allDigits_replicate_zero (n : Nat) : AllDigits (List.replicate n '0') := by
  intro c hc
  rw [List.eq_of_mem_replicate hc]
  rfl

theorem allDigits_toDigits (n : Nat) : AllDigits (Nat.toDigits 10 n) :=
  fun _ hc => Nat.isDigit_of_mem_toDigits (by decide) (by decide) hc

theorem digitsValue_eq (s : List Char) : digitsValue s = Nat.ofDigitChars 10 s 0 := rfl

theorem digitsValue_toDigits (n : Nat) : digitsValue (Nat.toDigits 10 n) = n :=
  Nat.ofDigitChars_ten_toDigits

/-- Zeros behind multiply by ten. -/
theorem digitsValue_append_zeros (s : List Char) (n : Nat) :
    digitsValue (s ++ List.replicate n '0') = digitsValue s * 10 ^ n := by
  rw [digitsValue_eq, Nat.ofDigitChars_append, Nat.ofDigitChars_replicate_zero, Nat.mul_comm]
  rfl

/-- Zeros in front change nothing. -/
theorem digitsValue_zeros_append (s : List Char) (n : Nat) :
    digitsValue (List.replicate n '0' ++ s) = digitsValue s := by
  rw [digitsValue_eq, Nat.ofDigitChars_append, Nat.ofDigitChars_replicate_zero, Nat.mul_zero]
  rfl

namespace Digits

/-- The number that is written with its first digit at a power of ten. -/
def value (d : Digits) : ℚ :=
  digitsValue d.digits * 10 ^ (d.exponent + 1 - d.digits.length)

/-- Only zeros are dropped from the digits of a grid point. -/
theorem digits_ofGrid (n : Nat) (power : Int) :
    ∃ zeros, Nat.toDigits 10 n = (ofGrid n power).digits ++ List.replicate zeros '0' := by
  obtain ⟨s, hs⟩ : ∃ s, (Nat.toDigits 10 n).reverse = s := ⟨_, rfl⟩
  have hzeros : s.takeWhile (· == '0') = List.replicate (s.takeWhile (· == '0')).length '0' :=
    List.eq_replicate_of_mem fun c hc => beq_iff_eq.mp (List.all_eq_true.mp List.all_takeWhile c hc)
  refine ⟨(s.takeWhile (· == '0')).length, ?_⟩
  change _ = ((Nat.toDigits 10 n).reverse.dropWhile (· == '0')).reverse ++ _
  rw [hs, ← List.reverse_replicate, ← hzeros, ← List.reverse_append, List.takeWhile_append_dropWhile,
    ← hs, List.reverse_reverse]

/-- **The digits of a grid point say its number.** They are digits, and there is at least one. -/
theorem value_ofGrid {n : Nat} (hn : 0 < n) (power : Int) :
    (ofGrid n power).value = n * 10 ^ power ∧ AllDigits (ofGrid n power).digits ∧
      (ofGrid n power).digits ≠ [] := by
  obtain ⟨zeros, hzeros⟩ := digits_ofGrid n power
  obtain ⟨d, hd⟩ : ∃ d, ofGrid n power = d := ⟨_, rfl⟩
  rw [hd] at hzeros ⊢
  -- the exponent counts from the first digit, the power from the last one written
  have hexponent : d.exponent + 1 - d.digits.length = power + zeros := by
    have hlength := congrArg List.length hzeros
    rw [List.length_append, List.length_replicate] at hlength
    have he : d.exponent = power + (((Nat.toDigits 10 n).length : Int) - 1) := by
      rw [← hd]
      rfl
    omega
  have hvalue : digitsValue d.digits * 10 ^ zeros = n := by
    rw [← digitsValue_append_zeros, ← hzeros, digitsValue_toDigits]
  refine ⟨?_, fun c hc => ?_, fun hnil => ?_⟩
  · rw [value, hexponent, zpow_add₀ (by norm_num), zpow_natCast, ← hvalue]
    push_cast
    ring
  · exact allDigits_toDigits n c (hzeros ▸ List.mem_append_left _ hc)
  · -- without digits the number would be zero
    rw [hnil] at hvalue
    have hzero : digitsValue [] = 0 := rfl
    rw [hzero, Nat.zero_mul] at hvalue
    omega

end Digits

/-! ### Scanning -/

/-- Digits are taken as they are, and the scan goes on behind them. -/
theorem scan_digits {whole : List Char} (hwhole : AllDigits whole) (hne : whole ≠ []) :
    Numeral.scan whole = some (⟨whole, [], 0⟩, []) := by
  have htake : whole.takeWhile Char.isDigit = whole := List.takeWhile_eq_self_iff.mpr hwhole
  have hdrop : whole.dropWhile Char.isDigit = [] := List.dropWhile_eq_nil_iff.mpr hwhole
  unfold Numeral.scan
  rw [htake, hdrop]
  have hempty : whole.isEmpty = false := List.isEmpty_eq_false_iff.mpr hne
  simp only [scanFraction, scanExponent, hempty, Bool.false_and, Bool.false_eq_true, if_false]

theorem scan_digits_point {whole fraction : List Char} (hwhole : AllDigits whole)
    (hne : whole ≠ []) (hfraction : AllDigits fraction) :
    Numeral.scan (whole ++ '.' :: fraction) = some (⟨whole, fraction, 0⟩, []) := by
  have hpoint : ('.' : Char).isDigit = false := rfl
  -- the point is no digit, so the digits before it end there
  have htake : (whole ++ '.' :: fraction).takeWhile Char.isDigit = whole := by
    rw [List.takeWhile_append_of_pos hwhole, List.takeWhile_cons, hpoint]
    exact List.append_nil whole
  have hdrop : (whole ++ '.' :: fraction).dropWhile Char.isDigit = '.' :: fraction := by
    rw [List.dropWhile_append_of_pos hwhole, List.dropWhile_cons, hpoint]
    rfl
  have htake' : fraction.takeWhile Char.isDigit = fraction :=
    List.takeWhile_eq_self_iff.mpr hfraction
  have hdrop' : fraction.dropWhile Char.isDigit = [] := List.dropWhile_eq_nil_iff.mpr hfraction
  unfold Numeral.scan
  rw [htake, hdrop]
  have hempty : whole.isEmpty = false := List.isEmpty_eq_false_iff.mpr hne
  simp only [scanFraction, htake', hdrop', scanExponent, hempty, Bool.false_and, Bool.false_eq_true,
    if_false]

/-- **Digits in place are one numeral without an exponent,** which says their value. -/
theorem Digits.scan_positional {d : Digits} (hd : AllDigits d.digits) (hne : d.digits ≠ []) :
    ∃ whole fraction, Numeral.scan (d.positional []) = some (⟨whole, fraction, 0⟩, []) ∧
      whole ≠ [] ∧
      (digitsValue (whole ++ fraction) : ℚ) * 10 ^ (0 - (fraction.length : Int)) = d.value := by
  have hlength : 0 < d.digits.length := List.length_pos_iff.mpr hne
  unfold Digits.positional Digits.value
  split
  · next hneg =>
    -- the digits stand behind the point, with zeros before them
    have hfraction := (allDigits_replicate_zero (-d.exponent - 1).toNat).append hd
    refine ⟨['0'], List.replicate (-d.exponent - 1).toNat '0' ++ d.digits, ?_,
      List.cons_ne_nil _ _, ?_⟩
    · exact scan_digits_point (allDigits_replicate_zero 1) (List.cons_ne_nil _ _) hfraction
    · have hvalue : digitsValue (['0'] ++ (List.replicate (-d.exponent - 1).toNat '0' ++ d.digits))
          = digitsValue d.digits := by
        rw [← digitsValue_zeros_append d.digits, ← digitsValue_zeros_append _ 1]
        rfl
      -- zeros in front add to the number of places and not to the value
      rw [hvalue, List.length_append, List.length_replicate]
      congr 2
      omega
  dsimp only
  split
  · next hnonneg hplaces =>
    -- the point would stand behind the last digit
    rw [List.append_nil]
    have hwhole := List.append_ne_nil_of_left_ne_nil hne
      (List.replicate (d.exponent.toNat + 1 - d.digits.length) '0')
    refine ⟨_, [], scan_digits (hd.append (allDigits_replicate_zero _)) hwhole, hwhole, ?_⟩
    rw [List.append_nil, digitsValue_append_zeros, List.length_nil, Nat.cast_zero, sub_zero, zpow_zero,
      mul_one, Nat.cast_mul, Nat.cast_pow, ← zpow_natCast, Nat.cast_ofNat]
    congr 2
    omega
  · next hnonneg hplaces =>
    -- the point stands between two digits
    have hwhole : d.digits.take (d.exponent.toNat + 1) ≠ [] := by
      rw [Ne, List.take_eq_nil_iff]
      exact fun h => h.elim (fun h => absurd h (Nat.succ_ne_zero _)) hne
    refine ⟨d.digits.take (d.exponent.toNat + 1), d.digits.drop (d.exponent.toNat + 1),
      scan_digits_point (fun c hc => hd c (List.mem_of_mem_take hc)) hwhole
        (fun c hc => hd c (List.mem_of_mem_drop hc)), hwhole, ?_⟩
    rw [List.take_append_drop, List.length_drop]
    congr 2
    omega

/-! ### Reading -/

/-- A digit is none of the characters that reading looks for before the digits. -/
theorem digit_bounds {c : Char} (hc : c.isDigit = true) : 48 ≤ c.toNat ∧ c.toNat ≤ 57 := by
  simp only [Char.isDigit, Bool.and_eq_true, decide_eq_true_eq] at hc
  exact hc

theorem not_isBlank_of_isDigit {c : Char} (hc : c.isDigit = true) : Text.isBlank c = false := by
  obtain ⟨hlow, hhigh⟩ := digit_bounds hc
  simp only [Text.isBlank, Text.inRanges, Text.blankRanges, List.any_cons, List.any_nil,
    Bool.or_eq_false_iff, Bool.and_eq_false_iff, decide_eq_false_iff_not, and_true]
  omega

/-- A numeral with digits before the point begins with one. -/
theorem head_isDigit_of_scan {s rest : List Char} {n : Numeral}
    (h : Numeral.scan s = some (n, rest)) (hwhole : n.whole ≠ []) :
    ∃ c t, s = c :: t ∧ c.isDigit = true := by
  have htake : n.whole = s.takeWhile Char.isDigit := by
    unfold Numeral.scan at h
    dsimp only at h
    split at h
    · cases h
    · cases h
      rfl
  cases s with
  | nil => exact absurd htake hwhole
  | cons c t =>
    refine ⟨c, t, rfl, ?_⟩
    by_contra hc
    rw [List.takeWhile_cons, if_neg hc] at htake
    exact hwhole htake

/-- **Reading begins behind the sign,** if a digit stands there. -/
theorem readNumberPrefix_signed {s rest : List Char} {n : Numeral}
    (h : Numeral.scan s = some (n, rest)) (hwhole : n.whole ≠ []) (negative : Bool) :
    readNumberPrefix ((if negative then ['-'] else []) ++ s) = some (n.value negative) := by
  obtain ⟨c, rest, rfl, hc⟩ := head_isDigit_of_scan h hwhole
  have hne : ∀ d : Char, d.isDigit = false → c ≠ d := fun d hd heq => by
    rw [heq, hd] at hc
    cases hc
  have hminus : Text.isBlank '-' = false := by decide
  -- a digit is neither blank nor a sign, so what was put in front is what is split off
  have hsplit : splitSign (Text.trimStart ((if negative then ['-'] else []) ++ c :: rest))
      = (negative, c :: rest) := by
    cases negative with
    | true =>
      rw [if_pos rfl, List.cons_append, Text.trimStart_of_not_isBlank hminus]
      rfl
    | false =>
      rw [if_neg Bool.false_ne_true, List.nil_append,
        Text.trimStart_of_not_isBlank (not_isBlank_of_isDigit hc)]
      unfold splitSign
      split
      · next h => exact absurd (List.cons.inj h).1 (hne '-' rfl)
      · next h => exact absurd (List.cons.inj h).1 (hne '+' rfl)
      · rfl
  -- nor does the text begin with the word for the infinite number
  have hword : infinityWord.isPrefixOf (c :: rest) = false := by
    rw [infinityWord, List.isPrefixOf_cons_cons, Bool.and_eq_false_iff]
    exact Or.inl (beq_eq_false_iff_ne.mpr (hne 'I' rfl).symm)
  unfold readNumberPrefix
  rw [hsplit]
  simp only [hword, Bool.false_eq_true, if_false, h, Option.map_some]

/-- **Digits in place are read as the magnitude that their value rounds to.** -/
theorem readNumberPrefix_positional {d : Digits} (hd : AllDigits d.digits) (hne : d.digits ≠ [])
    {k : Nat} (hk : Rounds k d.value) (negative : Bool) :
    readNumberPrefix ((if negative then ['-'] else []) ++ d.positional [])
      = some (ofMagnitude negative (min infinityMagnitude k)) := by
  obtain ⟨whole, fraction, hscan, hwhole, hvalue⟩ := Digits.scan_positional hd hne
  rw [readNumberPrefix_signed hscan hwhole]
  rw [← hvalue] at hk
  exact congrArg some (Binary64.ofDecimal_eq hk negative)

/-- **The text of a finite number is read as that number.** -/
theorem readNumberPrefix_floatText {x : Binary64} (hx : x.isFinite = true) :
    readNumberPrefix (Kdl.floatText.text x) = some x := by
  obtain ⟨k, hk⟩ : ∃ k, x.magnitude = k := ⟨_, rfl⟩
  have hlimit : k < infinityMagnitude := by
    rw [← hk]
    exact of_decide_eq_true hx
  have hx' : ofMagnitude x.negative (min infinityMagnitude k) = x := by
    rw [min_eq_right hlimit.le, ← hk, Binary64.ofMagnitude_magnitude]
  have htext : Kdl.floatText.text x
      = (if x.negative then ['-'] else []) ++ Kdl.floatText.finite (scaledOf k) := by
    rw [Layout.text, Binary64.scaled_eq hx, hk]
    rfl
  rw [htext, Layout.finite]
  rcases Nat.eq_zero_or_pos k with rfl | hpos
  · -- zero has no shortest digits and is written as one
    have hzero : (scaledOf 0).significand = 0 := rfl
    rw [if_pos hzero]
    exact (readNumberPrefix_signed (n := ⟨['0'], [], 0⟩) rfl (List.cons_ne_nil _ _) x.negative).trans
      (congrArg some hx')
  · have hsig : (scaledOf k).significand ≠ 0 := (significandOf_pos hpos).ne'
    -- the shortest digits round back to the number they were made from
    obtain ⟨n, power, hshortest, hn, hrounds⟩ := rounds_shortest hpos Kdl.floatText.tie
    obtain ⟨hvalue, hdigits, hne⟩ := Digits.value_ofGrid hn power
    rw [← hvalue] at hrounds
    rw [if_neg hsig, hshortest]
    exact (readNumberPrefix_positional hdigits hne hrounds x.negative).trans (congrArg some hx')

/-- **The text of an infinity, or of what is no number, is not read.** -/
theorem readNumberPrefix_floatText_eq_none {x : Binary64} (hx : x.isFinite = false) :
    readNumberPrefix (Kdl.floatText.text x) = none := by
  have hscaled : x.scaled? = none := by
    unfold Binary64.scaled?
    rw [hx, if_neg Bool.false_ne_true]
  unfold Layout.text
  rw [hscaled]
  dsimp only
  split
  · decide
  · cases x.negative <;> decide

/-- **The text of an integer is read as the number nearest to it.** -/
theorem readNumberPrefix_intText (i : Int) :
    readNumberPrefix (intText i) = some (ofDecimal (decide (i < 0)) i.natAbs 0) := by
  have hscan := scan_digits (allDigits_toDigits i.natAbs) Nat.toDigits_ne_nil
  have htext : intText i = (if decide (i < 0) then ['-'] else []) ++ Nat.toDigits 10 i.natAbs := by
    unfold intText natText
    by_cases hi : i < 0 <;> simp only [hi, if_true, if_false, decide_true, decide_false,
      List.cons_append, List.nil_append, Bool.false_eq_true]
  rw [htext, readNumberPrefix_signed hscan Nat.toDigits_ne_nil, Numeral.value, List.append_nil,
    digitsValue_toDigits]
  rfl

end ObjectMarkup.Decimal
