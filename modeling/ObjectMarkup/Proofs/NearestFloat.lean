import ObjectMarkup.Proofs.Rounding

/-!
# The nearest floating point number

What `Proofs/Rounding.lean` says of magnitudes is said here of the floating point numbers with their
signs. `IsNearest x v` is the specification of correct rounding: `x` is finite, no finite number is
nearer to `v`, and one that is as near is the same number or leaves `x` with an even pattern.

* `ofDecimal_eq`: a decimal significand with a power of ten gets the magnitude that it rounds to,
  whatever its size. The two shortcuts for powers that are far out agree with this, since `8 ^ n` is
  at most `10 ^ n`.
* `isNearest_ofDecimal`: so the number that is read is nearest to what is written as long as this
  rounds to a finite one.
-/

namespace ObjectMarkup.Decimal.Binary64

/-! ### Signs and magnitudes -/

theorem infinityMagnitude_lt_signBit : infinityMagnitude < signBit := by decide

theorem magnitude_lt_signBit (x : Binary64) : x.magnitude < signBit :=
  Nat.mod_lt _ (by decide)

theorem toNat_bits_ofMagnitude {m : Nat} (hm : m < signBit) (negative : Bool) :
    (ofMagnitude negative m).bits.toNat = (if negative then signBit else 0) + m := by
  have hlt : (if negative then signBit else 0) + m < 2 ^ 64 := by
    unfold signBit at *
    split <;> omega
  exact UInt64.toNat_ofNat_of_lt' hlt

theorem magnitude_ofMagnitude {m : Nat} (hm : m < signBit) (negative : Bool) :
    (ofMagnitude negative m).magnitude = m := by
  rw [magnitude, toNat_bits_ofMagnitude hm]
  unfold signBit at *
  split <;> omega

theorem negative_ofMagnitude {m : Nat} (hm : m < signBit) (negative : Bool) :
    (ofMagnitude negative m).negative = negative := by
  rw [Binary64.negative, toNat_bits_ofMagnitude hm]
  unfold signBit at *
  cases negative <;> simp; omega

/-- A pattern consists of its sign and its magnitude. -/
theorem ofMagnitude_magnitude (x : Binary64) : ofMagnitude x.negative x.magnitude = x := by
  have hbits : x.bits.toNat < 2 ^ 64 := x.bits.toNat_lt
  have hnat : (ofMagnitude x.negative x.magnitude).bits.toNat = x.bits.toNat := by
    rw [toNat_bits_ofMagnitude (magnitude_lt_signBit x), Binary64.negative, magnitude]
    unfold signBit
    by_cases h : 0x8000000000000000 ≤ x.bits.toNat <;> simp [h] <;> omega
  have hpattern := UInt64.toNat_inj.mp hnat
  cases x
  exact congrArg Binary64.mk hpattern

/-! ### What a floating point number stands for -/

def Scaled.value (m : Scaled) : ℚ :=
  m.significand * 2 ^ m.power

/-- **The number that a finite pattern stands for.** -/
def toRat (x : Binary64) : ℚ :=
  match x.scaled? with
  | some m => if x.negative then -m.value else m.value
  | none => 0

/-- A finite number is read as what its magnitude counts. -/
theorem scaled_eq {x : Binary64} (hx : x.isFinite) :
    x.scaled? = some ⟨significandOf x.magnitude, stepPower x.magnitude⟩ := by
  have hcases := significandOf_cases x.magnitude
  unfold scaled?
  rw [if_pos hx]
  dsimp only
  split
  · next hzero =>
    have hsig : x.magnitude % fractionCount = significandOf x.magnitude := by
      simp only [fractionCount] at *
      omega
    have hpower : (-1074 : Int) = stepPower x.magnitude := by
      rw [stepPower, hzero]
      rfl
    rw [hsig, hpower]
  · next hpos =>
    have hsig : fractionCount + x.magnitude % fractionCount = significandOf x.magnitude := by
      simp only [fractionCount] at *
      omega
    have hpower : ((x.magnitude / fractionCount : Nat) : Int) - 1075 = stepPower x.magnitude := by
      rw [stepPower, Nat.max_eq_left (Nat.one_le_iff_ne_zero.mpr hpos)]
    rw [hsig, hpower]

theorem toRat_eq {x : Binary64} (hx : x.isFinite) :
    x.toRat = if x.negative then -magnitudeValue x.magnitude else magnitudeValue x.magnitude := by
  rw [toRat, scaled_eq hx]
  rfl

theorem abs_toRat {x : Binary64} (hx : x.isFinite) : |x.toRat| = magnitudeValue x.magnitude := by
  rw [toRat_eq hx]
  split
  · rw [abs_neg, abs_of_nonneg (magnitudeValue_nonneg _)]
  · rw [abs_of_nonneg (magnitudeValue_nonneg _)]

/-- **Correct rounding:** a finite number than which none is nearer, with an even pattern if another
one is as near. -/
structure IsNearest (x : Binary64) (v : ℚ) : Prop where
  finite : x.isFinite = true
  nearest : ∀ y : Binary64, y.isFinite = true → |x.toRat - v| ≤ |y.toRat - v|
  even : ∀ y : Binary64, y.isFinite = true → |y.toRat - v| = |x.toRat - v| →
    y.toRat = x.toRat ∨ Even x.magnitude

/-- A magnitude rounded to, with the sign of the number, is the nearest floating point number. -/
theorem isNearest_of_rounds {k : Nat} {v : ℚ} (hk : k < infinityMagnitude) (h : Rounds k |v|)
    (negative : Bool) (hsign : if negative then v ≤ 0 else 0 ≤ v) :
    IsNearest (ofMagnitude negative k) v := by
  obtain ⟨x, hx⟩ : ∃ x, ofMagnitude negative k = x := ⟨_, rfl⟩
  have hksign : k < signBit := hk.trans infinityMagnitude_lt_signBit
  have hmag : x.magnitude = k := hx ▸ magnitude_ofMagnitude hksign negative
  have hneg : x.negative = negative := hx ▸ negative_ofMagnitude hksign negative
  have hfinite : x.isFinite := by
    rw [isFinite, hmag, decide_eq_true_eq]
    exact hk
  -- both lie on one side of zero, so their distance is that of their sizes
  have hdist : |x.toRat - v| = |magnitudeValue k - (|v|)| := by
    rw [toRat_eq hfinite, hmag, hneg]
    cases negative with
    | true =>
      rw [if_pos rfl, abs_of_nonpos hsign, ← abs_neg]
      congr 1
      ring
    | false => rw [if_neg Bool.false_ne_true, abs_of_nonneg hsign]
  -- and the distance of any other number is at least that
  have hfar : ∀ y : Binary64, y.isFinite → |magnitudeValue y.magnitude - (|v|)| ≤ |y.toRat - v| :=
    fun y hy => abs_toRat hy ▸ abs_abs_sub_abs_le y.toRat v
  rw [hx]
  refine ⟨hfinite, fun y hy => ?_, fun y hy htie => ?_⟩
  · rw [hdist]
    exact (h.nearest y.magnitude).1.trans (hfar y hy)
  · rw [hmag]
    have hle := hfar y hy
    rw [htie, hdist] at hle
    rcases (h.nearest y.magnitude).2 (le_antisymm hle (h.nearest y.magnitude).1) with heq | heven
    · -- the same size, so the sign could be the other one only of zero
      left
      have hsize : |y.toRat| = |x.toRat| := by rw [abs_toRat hy, abs_toRat hfinite, heq, hmag]
      rcases abs_eq_abs.mp hsize with hsame | hopposite
      · exact hsame
      · have hzero : x.toRat = 0 := by
          rw [hopposite] at htie
          rcases abs_eq_abs.mp htie with hsame | hother
          · linarith
          · have hv : v = 0 := by linarith
            have hnear := (h.nearest 0).1
            rw [hv, abs_zero, sub_zero, sub_zero, magnitudeValue_zero, abs_zero,
              abs_of_nonneg (magnitudeValue_nonneg k), ← hmag, ← abs_toRat hfinite] at hnear
            exact abs_nonpos_iff.mp hnear
        rw [hopposite, hzero, neg_zero]
    · exact Or.inr heven

/-! ### Decimal significands -/

/-- **What a fraction rounds to is its nearest magnitude,** or infinity if no finite number is. -/
theorem nearestMagnitude_eq {num den k : Nat} (hden : 0 < den) (h : Rounds k ((num : ℚ) / den)) :
    nearestMagnitude num den = min infinityMagnitude k := by
  rcases Nat.eq_zero_or_pos num with rfl | hnum
  · rw [Nat.cast_zero, zero_div] at h
    rw [h.unique rounds_zero]
    rfl
  · obtain ⟨j, hj, heq⟩ := rounds_nearestMagnitude hnum hden
    rw [heq, h.unique hj]

/-- Powers of ten are at least powers of eight. -/
theorem two_zpow_le_ten_zpow {e : Int} (he : 0 ≤ e) : (2 : ℚ) ^ (3 * e) ≤ 10 ^ e := by
  rw [zpow_mul]
  exact zpow_le_zpow_left₀ he (by norm_num) (by norm_num)

theorem magnitudeValue_infinity : magnitudeValue infinityMagnitude = 2 ^ (1024 : Int) := by
  have hsig : significandOf infinityMagnitude = fractionCount := by decide
  have hpower : stepPower infinityMagnitude = 1024 - 52 := by decide
  have hF : (fractionCount : ℚ) = 2 ^ (52 : Int) := by norm_num [fractionCount]
  rw [magnitudeValue, hsig, hpower, hF, ← zpow_add₀ two_ne_zero]
  norm_num

section Decimal

variable {significand : Nat} {e : Int} {k : Nat} (h : Rounds k ((significand : ℚ) * 10 ^ e))
include h

/-- A power that is too large for the finite numbers is recognized by the length of the significand. -/
theorem infinityMagnitude_le_of_large (hsig : 0 < significand) (he : 0 ≤ e)
    (hlarge : 1024 ≤ (significand.log2 : Int) + 3 * e) : infinityMagnitude ≤ k := by
  have hlog : (2 : ℚ) ^ (significand.log2 : Int) ≤ significand := by
    rw [zpow_natCast]
    exact_mod_cast Nat.log2_self_le hsig.ne'
  have hv : (2 : ℚ) ^ (1024 : Int) ≤ significand * 10 ^ e :=
    calc (2 : ℚ) ^ (1024 : Int) ≤ 2 ^ ((significand.log2 : Int) + 3 * e) :=
          zpow_le_zpow_right₀ one_le_two hlarge
      _ = 2 ^ (significand.log2 : Int) * 2 ^ (3 * e) := zpow_add₀ two_ne_zero _ _
      _ ≤ significand * 10 ^ e :=
        mul_le_mul hlog (two_zpow_le_ten_zpow he) (two_zpow_pos _).le (Nat.cast_nonneg _)
  by_contra hlt
  have hk : magnitudeValue (k + 1) ≤ magnitudeValue infinityMagnitude :=
    magnitudeValue_strictMono.monotone (by omega)
  have hstep : magnitudeValue k < magnitudeValue (k + 1) := magnitudeValue_strictMono (by omega)
  have hhigh := h.high
  rw [magnitudeValue_infinity] at hk
  linarith

/-- What is below half of the least number rounds to zero. -/
theorem eq_zero_of_small (hsmall : (significand.log2 : Int) + 1 + 3 * e ≤ -1075) : k = 0 := by
  have hlog : (significand : ℚ) ≤ 2 ^ ((significand.log2 : Int) + 1) := by
    rw [← Int.natCast_succ, zpow_natCast]
    exact_mod_cast Nat.lt_log2_self.le
  have hpow : (10 : ℚ) ^ e ≤ 2 ^ (3 * e) := by
    have hneg := two_zpow_le_ten_zpow (e := -e) (by omega)
    rw [mul_neg, zpow_neg, zpow_neg] at hneg
    exact (inv_le_inv₀ (two_zpow_pos _) (zpow_pos (by norm_num) _)).mp hneg
  have hv : (significand : ℚ) * 10 ^ e ≤ 2 ^ (-1075 : Int) :=
    calc (significand : ℚ) * 10 ^ e ≤ 2 ^ ((significand.log2 : Int) + 1) * 2 ^ (3 * e) :=
          mul_le_mul hlog hpow (zpow_pos (by norm_num) _).le (two_zpow_pos _).le
      _ = 2 ^ ((significand.log2 : Int) + 1 + 3 * e) := (zpow_add₀ two_ne_zero _ _).symm
      _ ≤ 2 ^ (-1075 : Int) := zpow_le_zpow_right₀ one_le_two hsmall
  have hone : magnitudeValue 1 = 2 * 2 ^ (-1075 : Int) := by
    have hpower : stepPower 1 = 1 + -1075 := by decide
    have hsig : significandOf 1 = 1 := by decide
    rw [magnitudeValue, hpower, hsig, zpow_add₀ two_ne_zero, zpow_one, Nat.cast_one, one_mul]
  refine h.unique ⟨fun j hj => absurd hj (by omega), ?_, fun j hj => absurd hj (by omega),
    fun _ => Even.zero⟩
  rw [magnitudeValue_zero, zero_add, hone]
  linarith

/-- **A decimal significand with a power of ten is rounded correctly,** whatever its size. -/
theorem ofDecimal_eq (negative : Bool) :
    ofDecimal negative significand e = ofMagnitude negative (min infinityMagnitude k) := by
  have hten : ∀ n : Nat, ((Nat.pow 10 n : Nat) : ℚ) = 10 ^ n := fun n => Nat.cast_pow 10 n
  unfold ofDecimal
  by_cases hzero : significand = 0
  · have h0 : Rounds k (((0 : Nat) : ℚ) / (1 : Nat)) := by
      rw [hzero, Nat.cast_zero, zero_mul] at h
      rwa [Nat.cast_zero, zero_div]
    rw [if_pos hzero, ← nearestMagnitude_eq one_pos h0]
    rfl
  rw [if_neg hzero]
  split
  · next hlarge =>
    rw [min_eq_left (infinityMagnitude_le_of_large h (Nat.pos_of_ne_zero hzero) hlarge.2 hlarge.1)]
    rfl
  split
  · next hsmall =>
    rw [eq_zero_of_small h hsmall]
    rfl
  split
  · next he =>
    have hfrac : (significand : ℚ) * 10 ^ e
        = ((significand * Nat.pow 10 e.toNat : Nat) : ℚ) / (1 : Nat) := by
      rw [Nat.cast_mul, hten, ← zpow_natCast, Int.toNat_of_nonneg he, Nat.cast_one, div_one]
    rw [nearest, nearestMagnitude_eq one_pos (hfrac ▸ h)]
  · next he =>
    have hfrac : (significand : ℚ) * 10 ^ e
        = (significand : ℚ) / ((Nat.pow 10 (-e).toNat : Nat) : ℚ) := by
      rw [hten, ← zpow_natCast, Int.toNat_of_nonneg (by omega), zpow_neg, div_inv_eq_mul]
    have hden : 0 < Nat.pow 10 (-e).toNat := Nat.pow_pos (by norm_num)
    rw [nearest, nearestMagnitude_eq hden (hfrac ▸ h)]

/-- **What is read is nearest to what is written,** if this rounds to a finite number. -/
theorem isNearest_ofDecimal (hk : k < infinityMagnitude) (negative : Bool) :
    IsNearest (ofDecimal negative significand e)
      (if negative then -(significand * 10 ^ e) else significand * 10 ^ e) := by
  have hv : (0 : ℚ) ≤ significand * 10 ^ e :=
    mul_nonneg (Nat.cast_nonneg _) (zpow_pos (by norm_num) _).le
  rw [ofDecimal_eq h, min_eq_right hk.le]
  refine isNearest_of_rounds hk ?_ negative ?_
  · split
    · rwa [abs_neg, abs_of_nonneg hv]
    · rwa [abs_of_nonneg hv]
  · cases negative with
    | true => exact neg_nonpos.mpr hv
    | false => exact hv

end Decimal

/-- Infinity begins beyond the power of two that ends the finite numbers. -/
theorem lt_infinityMagnitude {k : Nat} {v : ℚ} (h : Rounds k v) (hv : v ≤ 2 ^ (1023 : Int)) :
    k < infinityMagnitude := by
  by_contra hge
  obtain ⟨j, rfl⟩ : ∃ j, k = j + 1 := ⟨k - 1, by unfold infinityMagnitude fractionCount at *; omega⟩
  have hinf : magnitudeValue infinityMagnitude ≤ magnitudeValue (j + 1) :=
    magnitudeValue_strictMono.monotone (by omega)
  have hj : magnitudeValue 0 < magnitudeValue j :=
    magnitudeValue_strictMono (by unfold infinityMagnitude fractionCount at *; omega)
  have hlow := h.low j rfl
  have hpow : (2 : ℚ) ^ (1024 : Int) = 2 * 2 ^ (1023 : Int) := by
    rw [← zpow_one_add₀ two_ne_zero]
    norm_num
  rw [magnitudeValue_infinity, hpow] at hinf
  rw [magnitudeValue_zero] at hj
  linarith

/-- An integer of up to 128 bits is read as the number nearest to it, with its sign. -/
theorem isNearest_ofInt {i : Int} (hi : i.natAbs ≤ 2 ^ 127) :
    IsNearest (ofDecimal (decide (i < 0)) i.natAbs 0) i ∧
      (ofDecimal (decide (i < 0)) i.natAbs 0).negative = decide (i < 0) := by
  obtain ⟨k, hk⟩ := exists_rounds i.natAbs one_pos
  rw [Nat.cast_one, div_one] at hk
  have hlimit : k < infinityMagnitude := by
    refine lt_infinityMagnitude hk ?_
    calc (i.natAbs : ℚ) ≤ 2 ^ (127 : Int) := by exact_mod_cast hi
      _ ≤ 2 ^ (1023 : Int) := zpow_le_zpow_right₀ one_le_two (by norm_num)
  have hk : Rounds k ((i.natAbs : ℚ) * 10 ^ (0 : Int)) := by rwa [zpow_zero, mul_one]
  constructor
  · have hnear := isNearest_ofDecimal hk hlimit (decide (i < 0))
    have hvalue : (if decide (i < 0) = true then -((i.natAbs : ℚ) * 10 ^ (0 : Int))
        else (i.natAbs : ℚ) * 10 ^ (0 : Int)) = i := by
      rw [zpow_zero, mul_one, Nat.cast_natAbs]
      by_cases hneg : i < 0
      · rw [if_pos (decide_eq_true hneg), abs_of_neg hneg, Int.cast_neg, neg_neg]
      · rw [if_neg (by simpa using hneg), abs_of_nonneg (not_lt.mp hneg)]
    rwa [hvalue] at hnear
  · rw [ofDecimal_eq hk, min_eq_right hlimit.le]
    exact negative_ofMagnitude (hlimit.trans infinityMagnitude_lt_signBit) _

end ObjectMarkup.Decimal.Binary64
