import Mathlib.Algebra.Order.Field.Power
import Mathlib.Tactic.FieldSimp
import Mathlib.Tactic.Linarith
import Mathlib.Tactic.Ring
import ObjectMarkup.Decimal.Binary64

/-!
# Rounding a fraction

A magnitude is a pattern without its sign, and `magnitudeValue` is the number it stands for. Counting
upwards through the magnitudes counts upwards through these numbers, in steps that double from one
exponent to the next (`magnitudeValue_succ`), so nothing is lost by looking at neighbours only:

* `Rounds k v` says that `v` lies no farther from the magnitude `k` than half the way to the next one
  on either side, and half the way only if `k` is even. At most one magnitude has that
  (`Rounds.unique`), and none is nearer (`Rounds.nearest`).
* `nearestMagnitude` finds it for every fraction (`rounds_nearestMagnitude`).

The second is where the work lies. The power is chosen so that the quotient has 53 bits, which makes
the distance of the neighbours known before the quotient is rounded, and the rounded quotient is put
in its place as it is (`rounds_place`). Two things could go wrong there. Rounding up can give one bit
too many: then the place is that of the next exponent, and the magnitude is right all the same.
And below a power of two the neighbours lie twice as dense, so that an integer next to the quotient
need not be the nearest number: but the quotient is never below that power of two.
-/

namespace ObjectMarkup.Decimal.Binary64

/-! ### What magnitudes stand for -/

/-- The power of two that a magnitude counts. -/
def stepPower (k : Nat) : Int :=
  ((max (k / fractionCount) 1 : Nat) : Int) - 1075

/-- How many of its power of two a magnitude counts. -/
def significandOf (k : Nat) : Nat :=
  if k < fractionCount then k else fractionCount + k % fractionCount

/-- The number that a magnitude stands for. Infinity goes on where the numbers end, which gives the
last of them a neighbour. -/
def magnitudeValue (k : Nat) : ℚ :=
  significandOf k * 2 ^ stepPower k

/-- Magnitudes below the least leading bit are their own significands. -/
theorem significandOf_cases (k : Nat) :
    k < fractionCount ∧ significandOf k = k ∨
      fractionCount ≤ k ∧ significandOf k = fractionCount + k % fractionCount := by
  unfold significandOf
  split
  · next h => exact Or.inl ⟨h, rfl⟩
  · next h => exact Or.inr ⟨Nat.le_of_not_lt h, rfl⟩

theorem two_zpow_pos (p : Int) : (0 : ℚ) < 2 ^ p :=
  zpow_pos two_pos p

/-- **The next magnitude stands for one step more.** -/
theorem magnitudeValue_succ (k : Nat) :
    magnitudeValue (k + 1) = (significandOf k + 1) * 2 ^ stepPower k := by
  have hk := significandOf_cases k
  have hnext := significandOf_cases (k + 1)
  by_cases hcarry : (k + 1) % fractionCount = 0
  · by_cases hzero : k / fractionCount = 0
    · -- the least number with a leading bit
      have hsig : significandOf (k + 1) = significandOf k + 1 := by
        simp only [fractionCount] at *
        omega
      have hpower : stepPower (k + 1) = stepPower k := by
        simp only [stepPower, fractionCount] at *
        omega
      rw [magnitudeValue, hsig, hpower]
      push_cast
      ring
    · -- the next exponent has steps of twice the size
      have hsig : 2 * significandOf (k + 1) = significandOf k + 1 := by
        simp only [fractionCount] at *
        omega
      have hpower : stepPower (k + 1) = stepPower k + 1 := by
        simp only [stepPower, fractionCount] at *
        omega
      have hsig : 2 * (significandOf (k + 1) : ℚ) = significandOf k + 1 := by exact_mod_cast hsig
      rw [magnitudeValue, hpower, zpow_add_one₀ two_ne_zero, ← hsig]
      ring
  · have hsig : significandOf (k + 1) = significandOf k + 1 := by
      simp only [fractionCount] at *
      omega
    have hpower : stepPower (k + 1) = stepPower k := by
      simp only [stepPower, fractionCount] at *
      omega
    rw [magnitudeValue, hsig, hpower]
    push_cast
    ring

theorem magnitudeValue_strictMono : StrictMono magnitudeValue := by
  refine strictMono_nat_of_lt_succ fun k => ?_
  rw [magnitudeValue_succ, magnitudeValue]
  exact mul_lt_mul_of_pos_right (lt_add_one _) (two_zpow_pos _)

theorem magnitudeValue_zero : magnitudeValue 0 = 0 := by
  have hzero : significandOf 0 = 0 := rfl
  rw [magnitudeValue, hzero, Nat.cast_zero, zero_mul]

theorem magnitudeValue_nonneg (k : Nat) : 0 ≤ magnitudeValue k :=
  mul_nonneg (Nat.cast_nonneg _) (two_zpow_pos _).le

/-! ### What rounds to a magnitude -/

/-- **A number rounds to a magnitude:** it is not farther away than half the way to the next one on
either side, and half the way only if the magnitude is even. -/
structure Rounds (k : Nat) (v : ℚ) : Prop where
  low : ∀ j, k = j + 1 → magnitudeValue j + magnitudeValue k ≤ 2 * v
  high : 2 * v ≤ magnitudeValue k + magnitudeValue (k + 1)
  low_even : ∀ j, k = j + 1 → 2 * v = magnitudeValue j + magnitudeValue k → Even k
  high_even : 2 * v = magnitudeValue k + magnitudeValue (k + 1) → Even k

namespace Rounds

variable {j k : Nat} {v : ℚ}

/-- A number that rounds to two magnitudes would lie half the way between neighbours, and one of
these is odd. -/
theorem not_lt (h : Rounds k v) (h' : Rounds j v) : ¬ k < j := by
  intro hlt
  obtain ⟨i, rfl⟩ : ∃ i, j = i + 1 := ⟨j - 1, by omega⟩
  have hki : magnitudeValue k ≤ magnitudeValue i := magnitudeValue_strictMono.monotone (by omega)
  have hnext : magnitudeValue (k + 1) ≤ magnitudeValue (i + 1) :=
    magnitudeValue_strictMono.monotone (by omega)
  have hlow := h'.low i rfl
  have hhigh := h.high
  have heq : magnitudeValue k = magnitudeValue i := by linarith
  obtain rfl : k = i := magnitudeValue_strictMono.injective heq
  have hmiddle : 2 * v = magnitudeValue k + magnitudeValue (k + 1) := by linarith
  have hk := h.high_even hmiddle
  have hk' := h'.low_even k rfl hmiddle
  exact (Nat.even_add_one.mp hk') hk

/-- **A number rounds to one magnitude at most.** -/
theorem unique (h : Rounds k v) (h' : Rounds j v) : k = j :=
  Nat.le_antisymm (Nat.le_of_not_lt (h'.not_lt h)) (Nat.le_of_not_lt (h.not_lt h'))

/-- **No magnitude is nearer than the one that a number rounds to,** and if another one is as near
then this one is even. -/
theorem nearest (h : Rounds k v) (j : Nat) :
    |magnitudeValue k - v| ≤ |magnitudeValue j - v| ∧
      (|magnitudeValue j - v| = |magnitudeValue k - v| → j = k ∨ Even k) := by
  rcases Nat.lt_trichotomy j k with hlt | rfl | hlt
  · obtain ⟨i, rfl⟩ : ∃ i, k = i + 1 := ⟨k - 1, by omega⟩
    have hlow := h.low i rfl
    have hji : magnitudeValue j ≤ magnitudeValue i := magnitudeValue_strictMono.monotone (by omega)
    have hstep : magnitudeValue i < magnitudeValue (i + 1) := magnitudeValue_strictMono (by omega)
    have hfar : |magnitudeValue j - v| = v - magnitudeValue j := by
      rw [abs_sub_comm, abs_of_nonneg (by linarith)]
    rw [hfar]
    refine ⟨abs_le.mpr ⟨by linarith, by linarith⟩, fun heq => Or.inr (h.low_even i rfl ?_)⟩
    rcases abs_cases (magnitudeValue (i + 1) - v) with ⟨habs, -⟩ | ⟨habs, -⟩ <;> linarith
  · exact ⟨le_rfl, fun _ => Or.inl rfl⟩
  · have hhigh := h.high
    have hkj : magnitudeValue (k + 1) ≤ magnitudeValue j :=
      magnitudeValue_strictMono.monotone (by omega)
    have hstep : magnitudeValue k < magnitudeValue (k + 1) := magnitudeValue_strictMono (by omega)
    have hfar : |magnitudeValue j - v| = magnitudeValue j - v := abs_of_nonneg (by linarith)
    rw [hfar]
    refine ⟨abs_le.mpr ⟨by linarith, by linarith⟩, fun heq => Or.inr (h.high_even ?_)⟩
    rcases abs_cases (magnitudeValue k - v) with ⟨habs, -⟩ | ⟨habs, -⟩ <;> linarith

end Rounds

theorem rounds_zero : Rounds 0 0 := by
  have hnext := magnitudeValue_nonneg 1
  refine ⟨fun _ hj => absurd hj (by omega), ?_, fun _ hj => absurd hj (by omega), fun _ => Even.zero⟩
  rw [magnitudeValue_zero]
  linarith

/-! ### The parts of rounding -/

/-- **An integer next to a number:** it is not farther away than one half, and one half only if it is
even. -/
structure NextTo (s : Nat) (w : ℚ) : Prop where
  high : 2 * w ≤ 2 * s + 1
  low : 2 * (s : ℚ) ≤ 2 * w + 1
  high_even : 2 * w = 2 * s + 1 → Even s
  low_even : 2 * (s : ℚ) = 2 * w + 1 → Even s

/-- Comparing with a quotient is comparing with its numerator. -/
theorem nextTo_div {s num den : Nat} (hden : 0 < den) (hhigh : 2 * num ≤ (2 * s + 1) * den)
    (hlow : 2 * s * den ≤ 2 * num + den) (hhighEven : 2 * num = (2 * s + 1) * den → Even s)
    (hlowEven : 2 * s * den = 2 * num + den → Even s) : NextTo s ((num : ℚ) / den) := by
  have hdenq : (0 : ℚ) < den := Nat.cast_pos.mpr hden
  obtain ⟨w, hw⟩ : ∃ w : ℚ, (num : ℚ) / den = w := ⟨_, rfl⟩
  have hnum : (num : ℚ) = w * den := by rw [← hw, div_mul_cancel₀ _ hdenq.ne']
  have hlowSide : 2 * (num : ℚ) + den = (2 * w + 1) * den := by rw [hnum]; ring
  rw [hw]
  refine ⟨?_, ?_, fun h => hhighEven ?_, fun h => hlowEven ?_⟩
  · have h : (2 : ℚ) * num ≤ (2 * s + 1) * den := by exact_mod_cast hhigh
    rw [hnum, ← mul_assoc] at h
    exact le_of_mul_le_mul_right h hdenq
  · have h : 2 * (s : ℚ) * den ≤ 2 * num + den := by exact_mod_cast hlow
    rw [hlowSide] at h
    exact le_of_mul_le_mul_right h hdenq
  · have : (2 : ℚ) * num = (2 * s + 1) * den := by rw [hnum, ← h]; ring
    exact_mod_cast this
  · have : 2 * (s : ℚ) * den = 2 * num + den := by rw [hlowSide, h]
    exact_mod_cast this

/-- **The quotient is rounded to an integer next to it.** -/
theorem nextTo_roundQuotient (num : Nat) {den : Nat} (hden : 0 < den) :
    NextTo (roundQuotient num den) ((num : ℚ) / den) := by
  obtain ⟨q, hq⟩ : ∃ q, num / den = q := ⟨_, rfl⟩
  obtain ⟨r, hr⟩ : ∃ r, num % den = r := ⟨_, rfl⟩
  obtain ⟨a, ha⟩ : ∃ a, q * den = a := ⟨_, rfl⟩
  have hlt : r < den := hr ▸ Nat.mod_lt num hden
  have hnum : num = a + r := by
    rw [← ha, ← hq, ← hr, Nat.div_add_mod' num den]
  -- it is the floor or the integer after it
  have hfloor : (2 * q + 1) * den = 2 * a + den := by rw [← ha]; ring
  have hfloor' : 2 * q * den = 2 * a := by rw [← ha]; ring
  have hnext : (2 * (q + 1) + 1) * den = 2 * a + 3 * den := by rw [← ha]; ring
  have hnext' : 2 * (q + 1) * den = 2 * a + 2 * den := by rw [← ha]; ring
  unfold roundQuotient
  simp only [hq, hr]
  split
  · refine nextTo_div hden ?_ ?_ (fun h => ?_) (fun h => ?_) <;> omega
  split
  · refine nextTo_div hden ?_ ?_ (fun h => ?_) (fun h => ?_) <;> omega
  · -- in the middle, where the even one of the two is taken
    rcases Nat.mod_two_eq_zero_or_one q with heven | hodd
    · rw [heven, Nat.add_zero q]
      have hq : Even q := Nat.even_iff.mpr heven
      exact nextTo_div hden (by omega) (by omega) (fun _ => hq) fun _ => hq
    · rw [hodd]
      have hq : Even (q + 1) := Nat.even_iff.mpr (by omega)
      exact nextTo_div hden (by omega) (by omega) (fun _ => hq) fun _ => hq

/-- A power of two with a natural number for its exponent, as one with an integer. -/
theorem cast_two_pow_toNat {p : Int} (hp : 0 ≤ p) : ((Nat.pow 2 p.toNat : Nat) : ℚ) = 2 ^ p := by
  have hcast : ((Nat.pow 2 p.toNat : Nat) : ℚ) = 2 ^ p.toNat := Nat.cast_pow 2 p.toNat
  rw [hcast, ← zpow_natCast, Int.toNat_of_nonneg hp]

section Quotient

variable {num den : Nat} (hnum : 0 < num) (hden : 0 < den)
include hnum hden

/-- The exponent that is found is the one between whose powers of two the quotient lies. -/
theorem binaryExponent_bounds :
    (2 : ℚ) ^ binaryExponent num den ≤ num / den ∧
      (num : ℚ) / den < 2 ^ (binaryExponent num den + 1) := by
  have hnum' : (0 : ℚ) < num := Nat.cast_pos.mpr hnum
  have hden' : (0 : ℚ) < den := Nat.cast_pos.mpr hden
  -- both numbers lie between powers of two by their lengths
  have hn : (2 : ℚ) ^ (num.log2 : Int) ≤ num ∧ (num : ℚ) < 2 ^ ((num.log2 : Int) + 1) := by
    rw [zpow_natCast, ← Int.natCast_succ, zpow_natCast]
    exact ⟨by exact_mod_cast Nat.log2_self_le hnum.ne', by exact_mod_cast Nat.lt_log2_self⟩
  have hd : (2 : ℚ) ^ (den.log2 : Int) ≤ den ∧ (den : ℚ) < 2 ^ ((den.log2 : Int) + 1) := by
    rw [zpow_natCast, ← Int.natCast_succ, zpow_natCast]
    exact ⟨by exact_mod_cast Nat.log2_self_le hden.ne', by exact_mod_cast Nat.lt_log2_self⟩
  obtain ⟨k, hk⟩ : ∃ k : Int, (num.log2 : Int) - (den.log2 : Int) = k := ⟨_, rfl⟩
  -- so the difference of the lengths is right or one too large
  have hupper : (num : ℚ) / den < 2 ^ (k + 1) := by
    rw [div_lt_iff₀ hden']
    calc (num : ℚ) < 2 ^ ((num.log2 : Int) + 1) := hn.2
      _ = 2 ^ (k + 1) * 2 ^ (den.log2 : Int) := by
        rw [← zpow_add₀ two_ne_zero]
        congr 1
        omega
      _ ≤ 2 ^ (k + 1) * den := mul_le_mul_of_nonneg_left hd.1 (two_zpow_pos _).le
  have hlower : (2 : ℚ) ^ (k - 1) ≤ num / den := by
    rw [le_div_iff₀ hden']
    calc (2 : ℚ) ^ (k - 1) * den ≤ 2 ^ (k - 1) * 2 ^ ((den.log2 : Int) + 1) :=
          mul_le_mul_of_nonneg_left hd.2.le (two_zpow_pos _).le
      _ = 2 ^ (num.log2 : Int) := by
        rw [← zpow_add₀ two_ne_zero]
        congr 1
        omega
      _ ≤ num := hn.1
  -- which of the two it is was asked in integers
  have hreached : (if 0 ≤ k then den * Nat.pow 2 k.toNat ≤ num
      else den ≤ num * Nat.pow 2 (-k).toNat) ↔ (2 : ℚ) ^ k ≤ num / den := by
    rw [le_div_iff₀ hden']
    split
    · next hk0 =>
      rw [← Nat.cast_le (α := ℚ), Nat.cast_mul, cast_two_pow_toNat hk0, mul_comm]
    · next hk0 =>
      rw [← Nat.cast_le (α := ℚ), Nat.cast_mul, cast_two_pow_toNat (by omega), zpow_neg,
        ← div_eq_mul_inv, le_div_iff₀ (two_zpow_pos k), mul_comm]
  have hresult : binaryExponent num den = if (2 : ℚ) ^ k ≤ num / den then k else k - 1 := by
    unfold binaryExponent
    simp only [hk]
    exact if_congr hreached rfl rfl
  rw [hresult]
  split
  · next h => exact ⟨h, hupper⟩
  · next h => exact ⟨hlower, by rw [sub_add_cancel]; exact not_le.mp h⟩

omit hnum in
variable (num) in
/-- Dividing by a power of two divides by it. -/
theorem divideByPower_eq (power : Int) :
    0 < (divideByPower num den power).2 ∧
      ((divideByPower num den power).1 : ℚ) / (divideByPower num den power).2 * 2 ^ power
        = num / den := by
  have hden' : (den : ℚ) ≠ 0 := Nat.cast_ne_zero.mpr hden.ne'
  have hpower := (two_zpow_pos power).ne'
  unfold divideByPower
  split
  · next hp =>
    refine ⟨Nat.mul_pos hden (Nat.pow_pos two_pos), ?_⟩
    rw [Nat.cast_mul, cast_two_pow_toNat hp]
    field_simp
  · next hp =>
    refine ⟨hden, ?_⟩
    rw [Nat.cast_mul, cast_two_pow_toNat (by omega), zpow_neg]
    field_simp

end Quotient

/-- The magnitude of a significand and a power, without a limit. -/
def place (significand : Nat) (power : Int) : Nat :=
  if significand < fractionCount then significand
  else (power + 1075).toNat * fractionCount + (significand - fractionCount)

theorem encode_eq (significand : Nat) (power : Int) :
    encode significand power = min infinityMagnitude (place significand power) := rfl

/-- A small significand is its own magnitude, and any other one stands in a field behind the
exponent. -/
theorem place_cases (s : Nat) (p : Int) :
    s < fractionCount ∧ place s p = s ∨
      fractionCount ≤ s ∧
        place s p = (p + 1075).toNat * fractionCount + (s - fractionCount) := by
  unfold place
  split
  · next h => exact Or.inl ⟨h, rfl⟩
  · next h => exact Or.inr ⟨Nat.le_of_not_lt h, rfl⟩

section Place

variable {s : Nat} {p : Int} (hp : -1074 ≤ p) (hfull : -1074 < p → fractionCount ≤ s)
  (hs : s ≤ 2 * fractionCount)
include hp hfull hs

/-- **What is encoded is what the magnitude stands for,** also if the significand has one bit too
many. Counting goes on in steps that are not smaller. -/
theorem magnitudeValue_place :
    magnitudeValue (place s p) = s * 2 ^ p ∧ p ≤ stepPower (place s p) ∧
      (Even (place s p) ↔ Even s) := by
  have hplace := place_cases s p
  have hcases := significandOf_cases (place s p)
  simp only [Nat.even_iff]
  by_cases htop : s = 2 * fractionCount
  · -- one bit too many: the least significand of the next exponent
    have hsig : significandOf (place s p) = fractionCount := by
      simp only [fractionCount] at *
      omega
    have hpower : stepPower (place s p) = p + 1 := by
      simp only [stepPower, fractionCount] at *
      omega
    refine ⟨?_, by omega, ?_⟩
    · rw [magnitudeValue, hsig, hpower, zpow_add_one₀ two_ne_zero, htop]
      push_cast
      ring
    · simp only [fractionCount] at *
      omega
  · have hsig : significandOf (place s p) = s := by
      simp only [fractionCount] at *
      omega
    have hpower : stepPower (place s p) = p := by
      simp only [stepPower, fractionCount] at *
      omega
    refine ⟨by rw [magnitudeValue, hsig, hpower], hpower.ge, ?_⟩
    simp only [fractionCount] at *
    omega

/-- Below it the steps have the same size, or half of it below a power of two. -/
theorem stepPower_below {j : Nat} (hj : place s p = j + 1) :
    stepPower j = p ∨ stepPower j = p - 1 ∧ s = fractionCount ∧ -1074 < p := by
  have hplace := place_cases s p
  simp only [stepPower, fractionCount] at *
  omega

/-- **Encoding an integer next to a multiple of the power rounds that multiple.** Below a power of two
the numbers lie twice as dense, so nothing below it may round to it there. -/
theorem rounds_place {w : ℚ} (hw : NextTo s w)
    (hleast : s = fractionCount → -1074 < p → (s : ℚ) ≤ w) : Rounds (place s p) (w * 2 ^ p) := by
  obtain ⟨hvalue, hstep, heven⟩ := magnitudeValue_place hp hfull hs
  have hpos : (0 : ℚ) < 2 ^ p := two_zpow_pos p
  have hstep : (2 : ℚ) ^ p ≤ 2 ^ stepPower (place s p) :=
    zpow_le_zpow_right₀ one_le_two hstep
  have hnext : magnitudeValue (place s p + 1)
      = magnitudeValue (place s p) + 2 ^ stepPower (place s p) := by
    rw [magnitudeValue_succ, magnitudeValue]
    ring
  have hhigh := mul_le_mul_of_nonneg_right hw.high hpos.le
  have hlow := mul_le_mul_of_nonneg_right hw.low hpos.le
  -- the magnitude before, and why it is not too near
  have hbelow : ∀ j, place s p = j + 1 → magnitudeValue j = (s - 1) * 2 ^ p ∨
      magnitudeValue j = (s - 1 / 2) * 2 ^ p ∧ (s : ℚ) * 2 ^ p ≤ w * 2 ^ p := by
    intro j hj
    have hsucc : magnitudeValue j + 2 ^ stepPower j = s * 2 ^ p := by
      rw [← hvalue, hj, magnitudeValue_succ, magnitudeValue]
      ring
    rcases stepPower_below hp hfull hs hj with hsame | ⟨hhalf, hF, hp'⟩
    · rw [hsame] at hsucc
      exact Or.inl (by linarith)
    · rw [hhalf, zpow_sub_one₀ two_ne_zero] at hsucc
      exact Or.inr ⟨by linarith, mul_le_mul_of_nonneg_right (hleast hF hp') hpos.le⟩
  refine ⟨fun j hj => ?_, ?_, fun j hj htie => heven.mpr ?_, fun htie => heven.mpr ?_⟩
  · rcases hbelow j hj with hj | ⟨hj, hle⟩ <;> rw [hj, hvalue] <;> linarith
  · rw [hnext, hvalue]
    linarith
  · refine hw.low_even (mul_right_cancel₀ hpos.ne' ?_)
    rcases hbelow j hj with hj | ⟨hj, hle⟩ <;> rw [hj, hvalue] at htie <;> linarith
  · refine hw.high_even (mul_right_cancel₀ hpos.ne' ?_)
    rw [hnext, hvalue] at htie
    linarith

end Place

/-! ### Rounding -/

section Nearest

variable {num den : Nat} (hnum : 0 < num) (hden : 0 < den)
include hnum hden

/-- **Rounding to the nearest.** Some magnitude is what the quotient rounds to, and the one that is
found is this one, or infinity if there are no numbers there any more. -/
theorem rounds_nearestMagnitude :
    ∃ k, Rounds k ((num : ℚ) / den) ∧ nearestMagnitude num den = min infinityMagnitude k := by
  obtain ⟨hreached, hbelow⟩ := binaryExponent_bounds hnum hden
  obtain ⟨e, he⟩ : ∃ e, binaryExponent num den = e := ⟨_, rfl⟩
  obtain ⟨p, hp⟩ : ∃ p, max (e - 52) (-1074) = p := ⟨_, rfl⟩
  obtain ⟨hd, hquotient⟩ := divideByPower_eq num hden p
  have hnext := nextTo_roundQuotient (divideByPower num den p).1 hd
  obtain ⟨w, hw⟩ : ∃ w : ℚ, ((divideByPower num den p).1 : ℚ) / (divideByPower num den p).2 = w :=
    ⟨_, rfl⟩
  obtain ⟨s, hs⟩ : ∃ s, roundQuotient (divideByPower num den p).1 (divideByPower num den p).2 = s :=
    ⟨_, rfl⟩
  rw [hw] at hquotient hnext
  rw [hs] at hnext
  rw [he, ← hquotient] at hreached hbelow
  have hpos : (0 : ℚ) < 2 ^ p := two_zpow_pos p
  have hF : (fractionCount : ℚ) = 2 ^ (52 : Int) := by norm_num [fractionCount]
  -- the power is chosen so that the quotient has no more than 53 bits
  have hw53 : w < 2 * fractionCount := by
    refine lt_of_mul_lt_mul_right (hbelow.trans_le ?_) hpos.le
    rw [hF, ← zpow_one_add₀ two_ne_zero, ← zpow_add₀ two_ne_zero]
    exact zpow_le_zpow_right₀ one_le_two (by omega)
  -- and no fewer, unless the power is the least one
  have hw52 : -1074 < p → (fractionCount : ℚ) ≤ w := fun hp' => by
    refine le_of_mul_le_mul_right (le_trans ?_ hreached) hpos
    rw [hF, ← zpow_add₀ two_ne_zero]
    exact zpow_le_zpow_right₀ one_le_two (by omega)
  have hs53 : s ≤ 2 * fractionCount := by
    have h : 2 * (s : ℚ) < 2 * (2 * fractionCount) + 1 := lt_of_le_of_lt hnext.low (by linarith)
    have h : 2 * s < 2 * (2 * fractionCount) + 1 := by exact_mod_cast h
    omega
  have hs52 : -1074 < p → fractionCount ≤ s := fun hp' => by
    have h : 2 * (fractionCount : ℚ) ≤ 2 * s + 1 := le_trans (by linarith [hw52 hp']) hnext.high
    have h : 2 * fractionCount ≤ 2 * s + 1 := by exact_mod_cast h
    omega
  refine ⟨place s p, ?_, ?_⟩
  · rw [← hquotient]
    refine rounds_place (by omega) hs52 hs53 hnext fun hsF hp' => ?_
    rw [hsF]
    exact hw52 hp'
  · unfold nearestMagnitude
    rw [if_neg hnum.ne', he, hp]
    simp only [encode_eq, hs]

end Nearest

/-- Every fraction rounds to a magnitude. -/
theorem exists_rounds (num : Nat) {den : Nat} (hden : 0 < den) :
    ∃ k, Rounds k ((num : ℚ) / den) := by
  rcases Nat.eq_zero_or_pos num with rfl | hnum
  · exact ⟨0, Nat.cast_zero (R := ℚ) ▸ (zero_div (den : ℚ)).symm ▸ rounds_zero⟩
  · obtain ⟨k, hk, -⟩ := rounds_nearestMagnitude hnum hden
    exact ⟨k, hk⟩

/-- **Every number rounds to a magnitude,** if it is not negative. -/
theorem exists_rounds_of_nonneg {v : ℚ} (hv : 0 ≤ v) : ∃ k, Rounds k v := by
  have hnum : ((v.num.toNat : Nat) : ℚ) = v.num := by
    rw [← Int.cast_natCast, Int.toNat_of_nonneg (Rat.num_nonneg.mpr hv)]
  obtain ⟨k, hk⟩ := exists_rounds v.num.toNat v.den_pos
  rw [hnum, Rat.num_div_den] at hk
  exact ⟨k, hk⟩

end ObjectMarkup.Decimal.Binary64
