import ObjectMarkup.Decimal.Shortest
import ObjectMarkup.Proofs.NearestFloat

/-!
# Shortest digits read back

The digits that are written for a positive number lie in the interval that rounds to the number, so
reading them gives the number again (`rounds_shortest`).

What has to be shown of the search is that it ends with a grid point inside. Its first grid has the
power of ten of the first digit, so that after sixteen further ones the distance of two grid points
is at most the number divided by `10 ^ 16` (`gap_lt_step`), which is less than the step from one
magnitude to the next, since a significand has no more than 53 bits. Of the two grid points around
the number one is then nearer than half a step. Below a power of two the steps have half the size and
the interval does not reach as far down; there the distance of grid points is less than half a step
upwards already, and the upper one is inside.
-/

namespace ObjectMarkup.Decimal

open Binary64 (Scaled Rounds magnitudeValue significandOf stepPower two_zpow_pos)

/-! ### Fractions -/

namespace Fraction

def value (f : Fraction) : ℚ :=
  f.num / f.den

theorem below_iff {a b : Fraction} (ha : 0 < a.den) (hb : 0 < b.den) :
    a.below b = true ↔ a.value < b.value := by
  have ha' : (0 : ℚ) < a.den := Nat.cast_pos.mpr ha
  have hb' : (0 : ℚ) < b.den := Nat.cast_pos.mpr hb
  rw [below, decide_eq_true_eq, value, value, div_lt_div_iff₀ ha' hb', ← Nat.cast_mul,
    ← Nat.cast_mul, Nat.cast_lt]

theorem not_below_iff {a b : Fraction} (ha : 0 < a.den) (hb : 0 < b.den) :
    a.below b = false ↔ b.value ≤ a.value := by
  rw [← Bool.not_eq_true, below_iff ha hb, not_lt]

/-- A multiple of a power with an integer for its exponent, as a fraction. -/
theorem value_of_power {base n : Nat} (hbase : 0 < base) (power : Int) (f : Fraction)
    (hf : f = if 0 ≤ power then ⟨n * Nat.pow base power.toNat, 1⟩
      else ⟨n, Nat.pow base (-power).toNat⟩) :
    0 < f.den ∧ f.value = n * (base : ℚ) ^ power := by
  have hcast : ∀ m : Nat, ((Nat.pow base m : Nat) : ℚ) = (base : ℚ) ^ m := fun m => Nat.cast_pow base m
  rw [hf]
  split
  · next hp =>
    refine ⟨one_pos, ?_⟩
    rw [value, Nat.cast_mul, hcast, ← zpow_natCast, Int.toNat_of_nonneg hp, Nat.cast_one, div_one]
  · next hp =>
    refine ⟨Nat.pow_pos hbase, ?_⟩
    rw [value, hcast, ← zpow_natCast, Int.toNat_of_nonneg (by omega), zpow_neg, div_inv_eq_mul]

theorem den_ofScaled (n : Nat) (power : Int) : 0 < (ofScaled n power).den :=
  (value_of_power two_pos power (ofScaled n power) rfl).1

theorem value_ofScaled (n : Nat) (power : Int) : (ofScaled n power).value = n * 2 ^ power :=
  (value_of_power two_pos power (ofScaled n power) rfl).2

theorem den_ofGrid (n : Nat) (power : Int) : 0 < (ofGrid n power).den :=
  (value_of_power (by norm_num) power (ofGrid n power) rfl).1

theorem value_ofGrid (n : Nat) (power : Int) : (ofGrid n power).value = n * 10 ^ power :=
  (value_of_power (by norm_num) power (ofGrid n power) rfl).2

end Fraction

/-! ### Powers of ten -/

theorem ten_zpow_pos (p : Int) : (0 : ℚ) < 10 ^ p :=
  zpow_pos (by norm_num) p

/-- The search below one ends with a power of ten that is not above the number. -/
theorem ten_zpow_decimalExponentBelowOne (den : Nat) :
    ∀ (fuel num : Nat), den ≤ num * 10 ^ fuel →
      (10 : ℚ) ^ decimalExponentBelowOne den fuel num * den ≤ num
  | 0, num, h => by
    rw [decimalExponentBelowOne, zpow_zero, one_mul]
    exact_mod_cast (by omega : den ≤ num)
  | fuel + 1, num, h => by
    rw [decimalExponentBelowOne]
    -- each round multiplies by ten and counts one down, until one is reached
    split
    · next hle =>
      rw [zpow_zero, one_mul]
      exact_mod_cast hle
    · have ih := ten_zpow_decimalExponentBelowOne den fuel (num * 10) (by rw [pow_succ] at h; lia)
      rw [zpow_sub_one₀ (by norm_num)]
      rw [Nat.cast_mul] at ih
      push_cast at ih
      linarith

/-- The power of ten of the first digit is not above the number. -/
theorem Fraction.ten_zpow_decimalExponent {x : Fraction} (hden : 0 < x.den)
    (hlarge : x.den ≤ x.num * 10 ^ 400) : (10 : ℚ) ^ x.decimalExponent ≤ x.value := by
  have hden' : (0 : ℚ) < x.den := Nat.cast_pos.mpr hden
  rw [value, le_div_iff₀ hden', decimalExponent]
  split
  · next hone =>
    -- the digits of the integer part
    obtain ⟨n, hn⟩ : ∃ n, x.num / x.den = n := ⟨_, rfl⟩
    obtain ⟨l, hl⟩ : ∃ l, (Nat.toDigits 10 n).length = l + 1 :=
      ⟨(Nat.toDigits 10 n).length - 1, by have := Nat.length_toDigits_pos (b := 10) (n := n); omega⟩
    -- a number of `l + 1` digits is at least ten to the `l`
    have hpow : 10 ^ l ≤ n := by
      rcases Nat.eq_zero_or_pos l with rfl | hpos
      · rw [← hn]
        exact Nat.div_pos hone hden
      · exact not_lt.mp fun hlt =>
          absurd ((Nat.length_toDigits_le_iff (by norm_num) hpos).mpr hlt) (by omega)
    have hnum : 10 ^ l * x.den ≤ x.num :=
      le_trans (Nat.mul_le_mul_right _ hpow) (hn ▸ Nat.div_mul_le_self x.num x.den)
    rw [hn, hl]
    push_cast
    rw [add_sub_cancel_right, zpow_natCast]
    exact_mod_cast hnum
  · exact ten_zpow_decimalExponentBelowOne x.den 400 x.num hlarge

/-! ### Grids -/

/-- The grid point that is not above a number and the next one lie around it. -/
theorem Fraction.gridFloor_bounds {x : Fraction} (hden : 0 < x.den) (power : Int) :
    (x.gridFloor power : ℚ) * 10 ^ power ≤ x.value ∧
      x.value < ((x.gridFloor power + 1 : Nat) : ℚ) * 10 ^ power := by
  have hpos := ten_zpow_pos power
  -- the floor of a quotient, and what is to be shown is one
  have hfloor : ∀ a b : Nat, 0 < b → (x.num : ℚ) / x.den / 10 ^ power = a / b →
      ((a / b : Nat) : ℚ) * 10 ^ power ≤ x.value ∧
        x.value < ((a / b + 1 : Nat) : ℚ) * 10 ^ power := by
    intro a b hb heq
    have hb' : (0 : ℚ) < b := Nat.cast_pos.mpr hb
    have hlow : ((a / b : Nat) : ℚ) * b ≤ a := by exact_mod_cast Nat.div_mul_le_self a b
    have hhigh : (a : ℚ) < ((a / b + 1 : Nat) : ℚ) * b := by
      exact_mod_cast (Nat.div_lt_iff_lt_mul hb).mp (Nat.lt_succ_self (a / b))
    rw [← le_div_iff₀ hpos, ← div_lt_iff₀ hpos, value, heq, le_div_iff₀ hb', div_lt_iff₀ hb']
    exact ⟨hlow, hhigh⟩
  have hcast : ∀ m : Nat, ((Nat.pow 10 m : Nat) : ℚ) = 10 ^ m := fun m => Nat.cast_pow 10 m
  unfold gridFloor
  -- the power is on the side of the denominator or of the numerator, by its sign
  split
  · next hp =>
    refine hfloor _ _ (Nat.mul_pos hden (Nat.pow_pos (by norm_num))) ?_
    rw [Nat.cast_mul, hcast, ← zpow_natCast, Int.toNat_of_nonneg hp, div_div]
  · next hp =>
    refine hfloor _ _ hden ?_
    rw [Nat.cast_mul, hcast, ← zpow_natCast, Int.toNat_of_nonneg (by omega), zpow_neg,
      ← div_eq_mul_inv, div_right_comm]

namespace Basin

variable {b : Basin} {tie : Tie} {n : Nat} {power : Int}

/-- The nearer neighbour is one of the two. -/
theorem nearer_cases (b : Basin) (tie : Tie) (n : Nat) (power : Int) :
    b.nearer tie n power = n ∨ b.nearer tie n power = n + 1 := by
  have hmod := Nat.mod_two_eq_zero_or_one n
  unfold nearer
  dsimp only
  split
  · exact Or.inl rfl
  split
  · exact Or.inr rfl
  cases tie with
  | toEven => simp only; omega
  | up => exact Or.inr rfl

/-- A grid point that is found is inside, and not zero. -/
theorem holds_of_gridPoint (h : b.gridPoint? tie power = some n) :
    b.holds (Fraction.ofGrid n power) = true ∧ 0 < n := by
  unfold gridPoint? at h
  dsimp only at h
  -- four cases by which of the two neighbours lie in the basin
  split at h
  · next hlower hupper =>
    rw [Bool.and_eq_true, decide_eq_true_eq] at hlower
    cases h
    rcases b.nearer_cases tie (b.centre.gridFloor power) power with heq | heq <;> rw [heq]
    · exact hlower
    · exact ⟨hupper, Nat.succ_pos _⟩
  · next hlower _ =>
    rw [Bool.and_eq_true, decide_eq_true_eq] at hlower
    cases h
    exact hlower
  · next _ hupper =>
    cases h
    exact ⟨hupper, Nat.succ_pos _⟩
  · cases h

/-- A grid has a point if one of the two around the centre is inside. -/
theorem gridPoint_isSome (hpos : 0 < b.centre.gridFloor power)
    (h : b.holds (Fraction.ofGrid (b.centre.gridFloor power) power) = true ∨
      b.holds (Fraction.ofGrid (b.centre.gridFloor power + 1) power) = true) :
    ∃ n, b.gridPoint? tie power = some n := by
  unfold gridPoint?
  dsimp only
  rcases h with h | h
  · rw [h, Bool.true_and, decide_eq_true hpos]
    cases b.holds (Fraction.ofGrid (b.centre.gridFloor power + 1) power) <;> exact ⟨_, rfl⟩
  · rw [h]
    cases b.holds (Fraction.ofGrid (b.centre.gridFloor power) power) &&
      decide (0 < b.centre.gridFloor power) <;> exact ⟨_, rfl⟩

/-- **The search ends with a grid point inside,** if one of the grids it tries has one. -/
theorem exists_shortest (b : Basin) (tie : Tie) :
    ∀ (tries : Nat) (power : Int) (i : Nat), i < tries →
      (∃ n, b.gridPoint? tie (power - i) = some n) →
      ∃ n p, b.shortest tie tries power = Digits.ofGrid n p ∧
        b.holds (Fraction.ofGrid n p) = true ∧ 0 < n
  | 0, _, _, hi, _ => absurd hi (Nat.not_lt_zero _)
  | tries + 1, power, i, hi, hsome => by
    rw [shortest]
    cases hgrid : b.gridPoint? tie power with
    | some n => exact ⟨n, power, rfl, holds_of_gridPoint hgrid⟩
    | none =>
      -- this grid has none, so the one in question is a later one
      cases i with
      | zero =>
        obtain ⟨n, hn⟩ := hsome
        rw [Nat.cast_zero, sub_zero, hgrid] at hn
        cases hn
      | succ i =>
        refine exists_shortest b tie tries (power - 1) i (Nat.lt_of_succ_lt_succ hi) ?_
        rwa [sub_sub, add_comm, ← Nat.cast_succ]

end Basin

/-! ### The interval around a magnitude -/

/-- A magnitude, read as significand and power. -/
def scaledOf (k : Nat) : Scaled :=
  ⟨significandOf k, stepPower k⟩

/-- The interval is counted in quarters of a step. -/
theorem value_quarters (n k : Nat) :
    (Fraction.ofScaled n (stepPower k - 2)).value = n / 4 * 2 ^ stepPower k := by
  rw [Fraction.value_ofScaled, zpow_sub₀ two_ne_zero]
  ring

theorem value_centre (k : Nat) :
    (Basin.ofScaled (scaledOf k)).centre.value = magnitudeValue k := by
  change (Fraction.ofScaled (4 * significandOf k) (stepPower k - 2)).value = _
  rw [value_quarters, magnitudeValue]
  push_cast
  ring

/-- The upper end lies half the way to the next magnitude. -/
theorem two_mul_value_high (k : Nat) :
    2 * (Basin.ofScaled (scaledOf k)).high.value = magnitudeValue k + magnitudeValue (k + 1) := by
  change 2 * (Fraction.ofScaled (4 * significandOf k + 2) (stepPower k - 2)).value = _
  rw [value_quarters, Binary64.magnitudeValue_succ, magnitudeValue]
  push_cast
  ring

/-- The ends belong to the interval if the magnitude is even. -/
theorem closed_iff (k : Nat) : (Basin.ofScaled (scaledOf k)).closed = true ↔ Even k := by
  have hcases := Binary64.significandOf_cases k
  change (significandOf k % 2 == 0) = true ↔ _
  rw [beq_iff_eq, Nat.even_iff]
  simp only [Binary64.fractionCount] at hcases
  omega

theorem significandOf_pos {k : Nat} (hk : 0 < k) : 0 < significandOf k := by
  have h := Binary64.significandOf_cases k
  simp only [Binary64.fractionCount] at h
  omega

/-- **The lower end lies half the way to the magnitude before.** Its distance is a quarter of a step
where the step below has half the size. -/
theorem two_mul_value_low (j : Nat) :
    2 * (Basin.ofScaled (scaledOf (j + 1))).low.value
        = magnitudeValue j + magnitudeValue (j + 1) ∧
      ((Basin.ofScaled (scaledOf (j + 1))).low.value
          = magnitudeValue (j + 1) - 2 ^ stepPower (j + 1) / 2 ∨
        significandOf (j + 1) = Binary64.fractionCount) := by
  obtain ⟨k, hk⟩ : ∃ k, j + 1 = k := ⟨_, rfl⟩
  have hsig := significandOf_pos (hk ▸ Nat.succ_pos j : 0 < k)
  have hcases := Binary64.significandOf_cases k
  have hjcases := Binary64.significandOf_cases j
  have hlow : (Basin.ofScaled (scaledOf k)).low.value
      = (4 * significandOf k - (if significandOf k = Binary64.fractionCount ∧ -1074 < stepPower k
        then 1 else 2) : Nat) / 4 * 2 ^ stepPower k := value_quarters _ k
  rw [hk, hlow, magnitudeValue, magnitudeValue]
  split
  · next hpower =>
    -- the magnitude before is the last one with steps of half the size
    have hjsig : significandOf j + 1 = 2 * significandOf k := by
      simp only [stepPower, Binary64.fractionCount] at *
      omega
    have hjpower : stepPower k = stepPower j + 1 := by
      simp only [stepPower, Binary64.fractionCount] at *
      omega
    have hjsig : (significandOf j : ℚ) = 2 * significandOf k - 1 := by
      rw [eq_sub_iff_add_eq]
      exact_mod_cast hjsig
    refine ⟨?_, Or.inr hpower.1⟩
    rw [Nat.cast_sub (by omega), hjpower, zpow_add_one₀ two_ne_zero, hjsig]
    push_cast
    ring
  · -- elsewhere the step before has the same size
    next hpower =>
    have hjsig : significandOf j + 1 = significandOf k := by
      simp only [stepPower, Binary64.fractionCount] at *
      omega
    have hjpower : stepPower k = stepPower j := by
      simp only [stepPower, Binary64.fractionCount] at *
      omega
    refine ⟨?_, Or.inl ?_⟩
    · rw [Nat.cast_sub (by omega), hjpower, ← hjsig]
      push_cast
      ring
    · rw [Nat.cast_sub (by omega)]
      push_cast
      ring

/-- **What lies in the interval rounds to the magnitude.** -/
theorem rounds_of_holds {k : Nat} (hk : 0 < k) {f : Fraction} (hf : 0 < f.den)
    (h : (Basin.ofScaled (scaledOf k)).holds f = true) : Rounds k f.value := by
  obtain ⟨j, rfl⟩ : ∃ j, k = j + 1 := ⟨k - 1, by omega⟩
  have hlow := (two_mul_value_low j).1
  have hhigh := two_mul_value_high (j + 1)
  have hclosed := closed_iff (j + 1)
  have hlowden : 0 < (Basin.ofScaled (scaledOf (j + 1))).low.den := Fraction.den_ofScaled _ _
  have hhighden : 0 < (Basin.ofScaled (scaledOf (j + 1))).high.den := Fraction.den_ofScaled _ _
  obtain ⟨b, hb⟩ : ∃ b, Basin.ofScaled (scaledOf (j + 1)) = b := ⟨_, rfl⟩
  rw [hb] at h hlow hhigh hclosed hlowden hhighden
  rw [Basin.holds] at h
  split at h
  · next heven =>
    -- the ends belong to it, and the magnitude is even
    have heven := hclosed.mp heven
    simp only [Bool.and_eq_true, Bool.not_eq_true', Fraction.not_below_iff hf hlowden,
      Fraction.not_below_iff hhighden hf] at h
    refine ⟨fun i hi => ?_, by linarith, fun _ _ _ => heven, fun _ => heven⟩
    obtain rfl : j = i := Nat.succ.inj hi
    linarith
  · -- the ends do not belong to it, so no tie comes up
    simp only [Bool.and_eq_true, Fraction.below_iff hlowden hf, Fraction.below_iff hf hhighden] at h
    refine ⟨fun i hi => ?_, by linarith, fun i hi htie => ?_, fun htie => ?_⟩
    · obtain rfl : j = i := Nat.succ.inj hi
      linarith
    · obtain rfl : j = i := Nat.succ.inj hi
      linarith
    · linarith

/-- What lies between the ends is in the interval. -/
theorem holds_of_between {b : Basin} {f : Fraction} (hlowden : 0 < b.low.den)
    (hhighden : 0 < b.high.den) (hf : 0 < f.den) (hlow : b.low.value < f.value)
    (hhigh : f.value < b.high.value) : b.holds f = true := by
  rw [Basin.holds]
  split
  · rw [Bool.and_eq_true, Bool.not_eq_true', Bool.not_eq_true', Fraction.not_below_iff hf hlowden,
      Fraction.not_below_iff hhighden hf]
    exact ⟨hlow.le, hhigh.le⟩
  · rw [Bool.and_eq_true, Fraction.below_iff hlowden hf, Fraction.below_iff hf hhighden]
    exact ⟨hlow, hhigh⟩

/-! ### The finest grid -/

/-- **The search begins not above the number.** Even the least one is within reach of it. -/
theorem ten_zpow_decimalExponent_centre {k : Nat} (hk : 0 < k) :
    (10 : ℚ) ^ (Basin.ofScaled (scaledOf k)).centre.decimalExponent ≤ magnitudeValue k := by
  rw [← value_centre]
  refine Fraction.ten_zpow_decimalExponent (Fraction.den_ofScaled _ _) ?_
  have hsig := significandOf_pos hk
  change (Fraction.ofScaled (4 * significandOf k) (stepPower k - 2)).den
    ≤ (Fraction.ofScaled (4 * significandOf k) (stepPower k - 2)).num * 10 ^ 400
  have hten : ∀ fuel : Nat, 0 < 10 ^ fuel := fun _ => Nat.pow_pos (by norm_num)
  -- ten to the `fuel` outgrows any power of two that a subnormal number is divided by
  have hreach : ∀ fuel : Nat, (-(stepPower k - 2)).toNat ≤ 3 * fuel →
      Nat.pow 2 (-(stepPower k - 2)).toNat ≤ 4 * significandOf k * 10 ^ fuel := fun fuel hpower =>
    calc Nat.pow 2 (-(stepPower k - 2)).toNat ≤ 2 ^ (3 * fuel) := Nat.pow_le_pow_right two_pos hpower
      _ = (2 ^ 3) ^ fuel := Nat.pow_mul 2 3 fuel
      _ ≤ 10 ^ fuel := Nat.pow_le_pow_left (by norm_num) fuel
      _ ≤ 4 * significandOf k * 10 ^ fuel := Nat.le_mul_of_pos_left _ (by omega)
  unfold Fraction.ofScaled
  split
  · have hpos : 0 < 4 * significandOf k * Nat.pow 2 (stepPower k - 2).toNat :=
      Nat.mul_pos (by omega) (Nat.pow_pos two_pos)
    exact Nat.mul_pos hpos (hten 400)
  · refine hreach 400 ?_
    unfold stepPower
    omega

/-- The finest grid is finer than a step, and than half a step at the least significand of an
exponent. -/
theorem gap_lt_step {k : Nat} {e : Int} (he : (10 : ℚ) ^ e ≤ magnitudeValue k) :
    (10 : ℚ) ^ (e - 16) < 2 ^ stepPower k ∧
      (significandOf k = Binary64.fractionCount → (10 : ℚ) ^ (e - 16) < 2 ^ stepPower k / 2) := by
  have hstep := two_zpow_pos (stepPower k)
  have hgap : (10 : ℚ) ^ (e - 16) = 10 ^ e / 10 ^ 16 := by
    rw [zpow_sub₀ (by norm_num)]
    norm_num
  -- seventeen digits tell apart what 53 bits can
  have hF : (Binary64.fractionCount : ℚ) < 10 ^ 16 / 2 := by norm_num [Binary64.fractionCount]
  rw [hgap, div_lt_iff₀ (by norm_num), div_lt_iff₀ (by norm_num)]
  rw [magnitudeValue] at he
  constructor
  · have hsig : significandOf k < 2 * Binary64.fractionCount := by
      have hcases := Binary64.significandOf_cases k
      simp only [Binary64.fractionCount] at *
      omega
    have hsig : (significandOf k : ℚ) < 2 * Binary64.fractionCount := by exact_mod_cast hsig
    calc (10 : ℚ) ^ e ≤ significandOf k * 2 ^ stepPower k := he
      _ < 10 ^ 16 * 2 ^ stepPower k := mul_lt_mul_of_pos_right (by linarith) hstep
      _ = 2 ^ stepPower k * 10 ^ 16 := mul_comm _ _
  · intro hsig
    rw [hsig] at he
    calc (10 : ℚ) ^ e ≤ Binary64.fractionCount * 2 ^ stepPower k := he
      _ < 10 ^ 16 / 2 * 2 ^ stepPower k := mul_lt_mul_of_pos_right hF hstep
      _ = 2 ^ stepPower k / 2 * 10 ^ 16 := by ring

/-- **The finest grid has a point in the interval.** -/
theorem exists_gridPoint {k : Nat} (hk : 0 < k) (tie : Tie) {e : Int}
    (he : (10 : ℚ) ^ e ≤ magnitudeValue k) :
    ∃ n, (Basin.ofScaled (scaledOf k)).gridPoint? tie (e - (16 : Nat)) = some n := by
  obtain ⟨j, rfl⟩ : ∃ j, k = j + 1 := ⟨k - 1, by omega⟩
  obtain ⟨hstep, hhalf⟩ := gap_lt_step he
  obtain ⟨htwice, hlow⟩ := two_mul_value_low j
  have hhigh := two_mul_value_high (j + 1)
  have hcentre := value_centre (j + 1)
  have hdens : 0 < (Basin.ofScaled (scaledOf (j + 1))).low.den ∧
      0 < (Basin.ofScaled (scaledOf (j + 1))).centre.den ∧
      0 < (Basin.ofScaled (scaledOf (j + 1))).high.den :=
    ⟨Fraction.den_ofScaled _ _, Fraction.den_ofScaled _ _, Fraction.den_ofScaled _ _⟩
  obtain ⟨b, hb⟩ : ∃ b, Basin.ofScaled (scaledOf (j + 1)) = b := ⟨_, rfl⟩
  rw [hb] at htwice hlow hhigh hcentre hdens ⊢
  have hp : (e : Int) - (16 : Nat) = e - 16 := rfl
  rw [hp]
  -- the two grid points around the number
  obtain ⟨hbelow, habove⟩ := Fraction.gridFloor_bounds hdens.2.1 (e - 16)
  obtain ⟨n, hn⟩ : ∃ n, b.centre.gridFloor (e - 16) = n := ⟨_, rfl⟩
  obtain ⟨g, hg⟩ : ∃ g : ℚ, (10 : ℚ) ^ (e - 16) = g := ⟨_, rfl⟩
  rw [hcentre, hn, hg] at hbelow habove
  rw [hg] at hstep hhalf
  have hnext : ((n + 1 : Nat) : ℚ) * g = n * g + g := by
    push_cast
    ring
  rw [hnext] at habove
  have hmore := Binary64.magnitudeValue_succ (j + 1)
  have hless : magnitudeValue j < magnitudeValue (j + 1) :=
    Binary64.magnitudeValue_strictMono (Nat.lt_succ_self j)
  have hhigh : b.high.value = magnitudeValue (j + 1) + 2 ^ stepPower (j + 1) / 2 := by
    rw [hmore, magnitudeValue] at hhigh
    rw [magnitudeValue]
    linarith
  -- being strictly between the ends is enough, whether or not these belong to it
  have hinside : ∀ m : Nat, b.low.value < m * g → (m : ℚ) * g < b.high.value →
      b.holds (Fraction.ofGrid m (e - 16)) = true := fun m hm hm' => by
    have hvalue := Fraction.value_ofGrid m (e - 16)
    rw [hg] at hvalue
    exact holds_of_between hdens.1 hdens.2.2 (Fraction.den_ofGrid _ _) (hvalue ▸ hm) (hvalue ▸ hm')
  refine Basin.gridPoint_isSome ?_ ?_
  · -- the number is far from zero on this grid
    rw [hn]
    by_contra hzero
    obtain rfl : n = 0 := by omega
    have hg' : g ≤ 10 ^ e := hg ▸ zpow_le_zpow_right₀ (by norm_num) (by omega)
    rw [Nat.cast_zero, zero_mul, zero_add] at habove
    linarith
  · rw [hn]
    by_cases hupper : n * g + g < b.high.value
    · -- the upper one is nearer than half a step
      exact Or.inr (hinside (n + 1) (by rw [hnext]; linarith) (by rw [hnext]; exact hupper))
    · rcases hlow with hlow | hsig
      · exact Or.inl (hinside n (by linarith) (by linarith))
      · exact absurd (hhalf hsig) (by linarith)

/-- **What is written reads back:** the shortest digits come from a grid point that rounds to the
magnitude. -/
theorem rounds_shortest {k : Nat} (hk : 0 < k) (tie : Tie) :
    ∃ n power, shortest tie (scaledOf k) = Digits.ofGrid n power ∧ 0 < n ∧
      Rounds k (n * 10 ^ power) := by
  obtain ⟨e, he⟩ : ∃ e, (Basin.ofScaled (scaledOf k)).centre.decimalExponent = e := ⟨_, rfl⟩
  have hle : (10 : ℚ) ^ e ≤ magnitudeValue k := he ▸ ten_zpow_decimalExponent_centre hk
  obtain ⟨n, power, hshortest, hholds, hn⟩ :=
    Basin.exists_shortest (Basin.ofScaled (scaledOf k)) tie 17 e 16 (by norm_num)
      (exists_gridPoint hk tie hle)
  refine ⟨n, power, ?_, hn, ?_⟩
  · rw [← hshortest, ← he]
    rfl
  · rw [← Fraction.value_ofGrid]
    exact rounds_of_holds hk (Fraction.den_ofGrid _ _) hholds

end ObjectMarkup.Decimal
