import Mathlib.Tactic.Linarith
import QuantAttention.Proofs.Binary32.Order

/-! How far rounding moves a ratio. The code of a rounded ratio stands for its significand times a
power of two; numbers round to themselves, and a significand of 24 bits is off by at most one part in
`2 ^ 24`. All magnitudes count least positive numbers, so the bounds are between integers. -/

namespace QuantAttention

namespace Binary32

variable {x y : Binary32} {num den c : Nat}

/-- The code of a significand with its exponent stands for their product. -/
theorem magnitudeOfCode_shift {shift significand : Nat} (hHigh : significand ≤ 16777216)
    (hLow : shift = 0 ∨ 8388608 ≤ significand) :
    magnitudeOfCode (shift * 8388608 + significand) = significand * 2 ^ shift := by
  rcases Nat.lt_or_ge significand 8388608 with hSmall | hLarge
  · obtain rfl : shift = 0 := by omega
    rw [magnitudeOfCode, if_pos (by omega)]
    simp
  · rw [magnitudeOfCode, if_neg (by omega)]
    rcases Nat.lt_or_eq_of_le hHigh with hBelow | rfl
    · have hExponent : (shift * 8388608 + significand) / 8388608 - 1 = shift := by omega
      have hFraction : 8388608 + (shift * 8388608 + significand) % 8388608 = significand := by omega
      rw [hExponent, hFraction]
      rfl
    · -- The carry of a significand that was rounded up fell into the exponent.
      have hExponent : (shift * 8388608 + 16777216) / 8388608 - 1 = shift + 1 := by omega
      have hFraction : 8388608 + (shift * 8388608 + 16777216) % 8388608 = 8388608 := by omega
      rw [hExponent, hFraction]
      show 8388608 * 2 ^ (shift + 1) = 16777216 * 2 ^ shift
      rw [Nat.pow_succ]
      omega

def significand (num den : Nat) : Nat := nearestEven num (den * 2 ^ roundShift num den)

/-- The code that rounding forms from a significand and its shift stands for what it was formed
from. This holds also where the significand has carried into the exponent. -/
theorem magnitudeOfCode_significand (num den : Nat) :
    magnitudeOfCode (roundShift num den * 8388608 + significand num den) =
      significand num den * 2 ^ roundShift num den := by
  refine magnitudeOfCode_shift (nearestEven_roundShift_le num den) ?_
  rcases Nat.eq_zero_or_pos (roundShift num den) with hZero | hPos
  · exact Or.inl hZero
  · exact Or.inr (le_nearestEven_roundShift num den hPos)

/-- A rounded ratio is at most its significand at the place of its shift, less if the greatest codes
are cut off. -/
theorem magnitude_roundCode_le (num den : Nat) :
    magnitudeOfCode (roundCode num den) ≤ significand num den * 2 ^ roundShift num den := by
  rw [← magnitudeOfCode_significand]
  exact magnitudeOfCode_mono (Nat.min_le_left ..)

/-- Below infinity nothing is cut off, so a rounded ratio is its significand at the place of its
shift. -/
theorem magnitude_roundCode (h : roundCode num den < infinityCode) :
    magnitudeOfCode (roundCode num den) = significand num den * 2 ^ roundShift num den := by
  rw [← magnitudeOfCode_significand]
  rw [roundCode_eq] at h ⊢
  rw [Nat.min_eq_left (by omega)]
  rfl

/-- The nearest integer is off by at most one half, from above and from below. The errors of all
operations come from this. -/
theorem nearestEven_error (num den : Nat) (hDen : 0 < den) :
    2 * (den * nearestEven num den) ≤ 2 * num + den ∧
      2 * num ≤ 2 * (den * nearestEven num den) + den := by
  have hSplit := Nat.div_add_mod num den
  have hRest := Nat.mod_lt num hDen
  rcases nearestEven_cases num den with ⟨h, hValue⟩ | ⟨h, hValue⟩ | ⟨h, hValue⟩
  · rw [hValue]
    omega
  · rcases Nat.mod_two_eq_zero_or_one (num / den) with hEven | hOdd
    · rw [hValue, hEven, Nat.add_zero]
      omega
    · rw [hValue, hOdd, Nat.mul_succ]
      omega
  · rw [hValue, Nat.mul_succ]
    omega

/-- Every number rounds to itself, be it normal or subnormal. -/
theorem roundCode_magnitudeOfCode (h : c ≤ infinityCode) : roundCode (magnitudeOfCode c) 1 = c := by
  rcases Nat.lt_or_ge c 8388608 with hSmall | hLarge
  · have hMagnitude : magnitudeOfCode c = c := by rw [magnitudeOfCode, if_pos hSmall]
    have hShift : roundShift c 1 = 0 := by
      have hLog : c.log2 < 24 := by
        rcases Nat.eq_zero_or_pos c with rfl | hPos
        · decide
        · exact (Nat.log2_lt (by omega)).2 (by omega)
      rw [roundShift, Nat.div_one]
      omega
    have hNearest : nearestEven c 1 = c := by
      rcases nearestEven_cases c 1 with h | h | h <;> omega
    rw [hMagnitude, roundCode_eq, hShift, Nat.pow_zero, Nat.mul_one, hNearest]
    omega
  · generalize hShift : c / 8388608 - 1 = shift
    generalize hSignificand : 8388608 + c % 8388608 = m
    have hMagnitude : magnitudeOfCode c = m * 2 ^ shift := by
      rw [magnitudeOfCode, if_neg (by omega), hShift, hSignificand]
      rfl
    have hPow := Nat.two_pow_pos shift
    have hRound : roundShift (m * 2 ^ shift) 1 = shift := by
      have hLog : (m * 2 ^ shift).log2 = shift + 23 := by
        rw [Nat.log2_eq_iff (by have := Nat.mul_pos (by omega : 0 < m) hPow; omega)]
        rw [Nat.pow_add, Nat.pow_add (m := shift + 23), Nat.pow_add, Nat.mul_comm m]
        constructor
        · exact Nat.mul_le_mul_left _ (by omega)
        · rw [Nat.mul_assoc]
          exact Nat.mul_lt_mul_of_pos_left (by omega) hPow
      rw [roundShift, Nat.div_one, hLog]
      omega
    have hNearest : nearestEven (m * 2 ^ shift) (1 * 2 ^ shift) = m := by
      have hQuotient : m * 2 ^ shift / (1 * 2 ^ shift) = m := by
        rw [Nat.one_mul, Nat.mul_div_cancel _ hPow]
      have hRest : m * 2 ^ shift % (1 * 2 ^ shift) = 0 := by rw [Nat.one_mul, Nat.mul_mod_left]
      rw [nearestEven, hQuotient, hRest, if_pos (by omega)]
    have hCode : shift * 8388608 + m = c := by omega
    rw [hMagnitude, roundCode_eq, hRound, hNearest, hCode, Nat.min_eq_left h]

/-- A finite number is its own rounding, so an operation whose exact result is a number returns it.
-/
theorem roundCode_magnitude (h : x.isFinite = true) : roundCode x.magnitude 1 = x.code :=
  roundCode_magnitudeOfCode (Nat.le_of_lt (of_decide_eq_true h))

/-- A rounded ratio with 24 bits is above the ratio by at most one part in `2 ^ 24`. -/
theorem magnitude_roundCode_mul_le (hDen : 0 < den)
    (hNormal : 8388608 ≤ magnitudeOfCode (roundCode num den)) :
    magnitudeOfCode (roundCode num den) * den * 16777215 ≤ num * 16777216 := by
  have hValue := magnitude_roundCode_le num den
  have hError := (nearestEven_error num _ (Nat.mul_pos hDen (Nat.two_pow_pos
    (roundShift num den)))).1
  have hBits : 8388608 ≤ significand num den := by
    rcases Nat.eq_zero_or_pos (roundShift num den) with hZero | hPos
    · rw [hZero, Nat.pow_zero, Nat.mul_one] at hValue
      exact Nat.le_trans hNormal hValue
    · exact le_nearestEven_roundShift num den hPos
  have hStep := Nat.mul_le_mul_left (den * 2 ^ roundShift num den) hBits
  have hScaled := Nat.mul_le_mul_right den hValue
  have hOrder : significand num den * 2 ^ roundShift num den * den =
      den * 2 ^ roundShift num den * significand num den := by
    rw [Nat.mul_assoc, Nat.mul_comm, Nat.mul_comm den]
  rw [← significand] at hError
  rw [hOrder] at hScaled
  linarith

/-- A rounded ratio of fewer bits is above the ratio by at most one half. -/
theorem magnitude_roundCode_mul_le_add (hDen : 0 < den)
    (hSubnormal : magnitudeOfCode (roundCode num den) < 8388608) :
    2 * (magnitudeOfCode (roundCode num den) * den) ≤ 2 * num + den := by
  have hZero : roundShift num den = 0 := by
    refine Nat.eq_zero_of_not_pos fun hPos => Nat.not_le.2 hSubnormal ?_
    have hBits := le_nearestEven_roundShift num den hPos
    have hCode : 8388608 ≤ roundCode num den := by
      rw [roundCode_eq, infinityCode]
      omega
    exact magnitudeOfCode_mono hCode
  have hValue := Nat.mul_le_mul_right den (magnitude_roundCode_le num den)
  have hError := (nearestEven_error num den hDen).1
  rw [significand, hZero, Nat.pow_zero, Nat.mul_one, Nat.mul_one,
    Nat.mul_comm (nearestEven num den)] at hValue
  omega

/-- A rounded integer is above the integer by at most one part in `2 ^ 24`. -/
theorem magnitude_roundCode_one_mul_le (num : Nat) :
    magnitudeOfCode (roundCode num 1) * 16777215 ≤ num * 16777216 := by
  rcases Nat.lt_or_ge (magnitudeOfCode (roundCode num 1)) 8388608 with hSmall | hNormal
  · have hHalf := magnitude_roundCode_mul_le_add Nat.one_pos hSmall
    omega
  · simpa only [Nat.mul_one] using magnitude_roundCode_mul_le Nat.one_pos hNormal

/-- A rounded ratio is below the ratio by at most one part in `2 ^ 24` where the ratio is an integer
or has 24 bits. -/
theorem le_magnitude_roundCode_mul (hDen : 0 < den) (h : roundCode num den < infinityCode)
    (hNormal : den = 1 ∨ 8388608 * den ≤ num) :
    num * 16777216 ≤ magnitudeOfCode (roundCode num den) * den * 16777217 := by
  have hError := (nearestEven_error num _ (Nat.mul_pos hDen (Nat.two_pow_pos
    (roundShift num den)))).2
  have hOrder : significand num den * 2 ^ roundShift num den * den =
      den * 2 ^ roundShift num den * significand num den := by
    rw [Nat.mul_assoc, Nat.mul_comm, Nat.mul_comm den]
  rw [magnitude_roundCode h, hOrder]
  rw [← significand] at hError
  have hBits (hLow : 8388608 ≤ significand num den) :
      num * 16777216 ≤ den * 2 ^ roundShift num den * significand num den * 16777217 := by
    have hStep := Nat.mul_le_mul_left (den * 2 ^ roundShift num den) hLow
    linarith
  rcases Nat.eq_zero_or_pos (roundShift num den) with hZero | hPos
  · rcases hNormal with rfl | hLarge
    · rw [hZero, Nat.pow_zero, Nat.one_mul] at hError ⊢
      omega
    · refine hBits (Nat.le_trans ((Nat.le_div_iff_mul_le hDen).2 hLarge) ?_)
      rw [significand, hZero, Nat.pow_zero, Nat.mul_one]
      exact (nearestEven_bounds num den).1
  · exact hBits (le_nearestEven_roundShift num den hPos)

/-- A rounded integer is below the integer by at most one part in `2 ^ 24`. -/
theorem le_magnitude_roundCode (h : roundCode num 1 < infinityCode) :
    num * 16777216 ≤ magnitudeOfCode (roundCode num 1) * 16777217 := by
  simpa only [Nat.mul_one] using le_magnitude_roundCode_mul Nat.one_pos h (.inl rfl)

theorem isFinite_ofCode {negative : Bool} (h : c < infinityCode) :
    (ofCode negative c).isFinite = true := by
  rw [isFinite, code_ofCode (Nat.le_of_lt h)]
  exact decide_eq_true h

/-- A sum of numbers without a sign is the rounded sum of their magnitudes, or is not finite. It is
not finite only if a term is not or if the rounded sum has no code. -/
theorem add_cases (hx : x.negative = false) (hy : y.negative = false) :
    (x.isFinite = true ∧ y.isFinite = true ∧
        x + y = ofCode false (roundCode (x.magnitude + y.magnitude) 1)) ∨
      (x + y).negative = false ∧ infinityCode ≤ (x + y).code := by
  cases hNaN : x.isNaN || y.isNaN with
  | true =>
      have hSum : x + y = nan := by
        change Binary32.add x y = nan
        rw [Binary32.add, hNaN, if_pos rfl]
      rw [hSum]
      exact .inr ⟨rfl, by decide⟩
  | false =>
      rw [Bool.or_eq_false_iff] at hNaN
      rw [add_eq hx hy hNaN.1 hNaN.2]
      cases hInfinite : x.isInfinite || y.isInfinite with
      | true =>
          rw [if_pos rfl, code_ofCode (Nat.le_refl _)]
          exact .inr ⟨negative_ofCode (Nat.le_refl _), Nat.le_refl _⟩
      | false =>
          rw [if_neg Bool.false_ne_true]
          rw [Bool.or_eq_false_iff] at hInfinite
          exact .inl ⟨isFinite_eq.2 ⟨hNaN.1, hInfinite.1⟩, isFinite_eq.2 ⟨hNaN.2, hInfinite.2⟩, rfl⟩

/-- A product of numbers without a sign is the rounded product of their magnitudes, or is not
finite. -/
theorem mul_cases (hx : x.negative = false) (hy : y.negative = false) :
    (x.isFinite = true ∧ y.isFinite = true ∧
        x * y = ofCode false (roundCode (x.magnitude * y.magnitude) one)) ∨
      (x * y).negative = false ∧ infinityCode ≤ (x * y).code := by
  by_cases hFinite : x.isFinite = true ∧ y.isFinite = true
  · refine Or.inl ⟨hFinite.1, hFinite.2, ?_⟩
    rw [mul_eq_ofRatio hFinite.1 hFinite.2, hx, hy]
    rfl
  · right
    change (Binary32.mul x y).negative = false ∧ infinityCode ≤ (Binary32.mul x y).code
    simp only [Binary32.mul, hx, hy, bne_self_eq_false]
    split
    · exact ⟨rfl, by decide⟩
    · next hNumbers =>
      rw [Bool.or_eq_true, not_or, Bool.not_eq_true, Bool.not_eq_true] at hNumbers
      rw [if_pos]
      · split
        · exact ⟨rfl, by decide⟩
        · exact ⟨rfl, by decide⟩
      · rw [isFinite_eq, isFinite_eq] at hFinite
        rw [Bool.or_eq_true, ← Bool.not_eq_false, ← Bool.not_eq_false]
        tauto

/-- A product of finite numbers under a finite bound is finite, and above the exact product by at
most one part in `2 ^ 24` where it is normal. -/
theorem mul_spec (hx : x.negative = false) (hy : y.negative = false) (hxFinite : x.isFinite = true)
    (hyFinite : y.isFinite = true) {limit : Nat} (hLimit : x.magnitude * y.magnitude ≤ limit * one)
    (hNumber : roundCode limit 1 < infinityCode) :
    (x * y).negative = false ∧ (x * y).isFinite = true ∧
      (x * y).magnitude ≤ magnitudeOfCode (roundCode limit 1) ∧
      (8388608 ≤ (x * y).magnitude →
        (x * y).magnitude * one * 16777215 ≤ x.magnitude * y.magnitude * 16777216) := by
  have hRound : roundCode (x.magnitude * y.magnitude) one ≤ roundCode limit 1 :=
    roundCode_mono one_pos Nat.one_pos (by rwa [Nat.mul_one])
  rw [mul_eq_ofRatio hxFinite hyFinite, hx, hy, bne_self_eq_false, ofRatio,
    magnitude_ofCode (roundCode_le ..)]
  exact ⟨negative_ofCode (roundCode_le ..), isFinite_ofCode (Nat.lt_of_le_of_lt hRound hNumber),
    magnitudeOfCode_mono hRound, magnitude_roundCode_mul_le one_pos⟩

/-- A product that is finite is below the exact one by at most one part in `2 ^ 24` where that has
24 bits. -/
theorem mul_le_magnitude_mul (hx : x.negative = false) (hy : y.negative = false)
    (hxFinite : x.isFinite = true) (hyFinite : y.isFinite = true)
    (hFinite : (x * y).isFinite = true) (hNormal : 8388608 * one ≤ x.magnitude * y.magnitude) :
    x.magnitude * y.magnitude * 16777216 ≤ (x * y).magnitude * one * 16777217 := by
  rw [mul_eq_ofRatio hxFinite hyFinite, hx, hy, bne_self_eq_false, ofRatio] at hFinite ⊢
  rw [isFinite, code_ofCode (roundCode_le ..), decide_eq_true_eq] at hFinite
  rw [magnitude_ofCode (roundCode_le ..)]
  exact le_magnitude_roundCode_mul one_pos hFinite (.inr hNormal)

/-- Numbers without a sign have a sum without one, and what is not a number has none either. -/
theorem negative_add (hx : x.negative = false) (hy : y.negative = false) :
    (x + y).negative = false := by
  rcases add_cases hx hy with ⟨-, -, hSum⟩ | ⟨hSign, -⟩
  · exact hSum ▸ negative_ofCode (roundCode_le ..)
  · exact hSign

/-- So it is with products. -/
theorem negative_mul (hx : x.negative = false) (hy : y.negative = false) :
    (x * y).negative = false := by
  rcases mul_cases hx hy with ⟨-, -, hProduct⟩ | ⟨hSign, -⟩
  · exact hProduct ▸ negative_ofCode (roundCode_le ..)
  · exact hSign

/-- Only finite numbers have a finite sum, so a sum that is finite in the end was so at every step.
-/
theorem isFinite_of_add (hx : x.negative = false) (hy : y.negative = false)
    (h : (x + y).isFinite = true) : x.isFinite = true ∧ y.isFinite = true := by
  rcases add_cases hx hy with ⟨hxFinite, hyFinite, -⟩ | ⟨-, hGreat⟩
  · exact ⟨hxFinite, hyFinite⟩
  · exact absurd (of_decide_eq_true h) (Nat.not_lt.2 hGreat)

/-- A sum of numbers without a sign is not below its terms. Rounding cannot change this, as the
terms are numbers themselves. -/
theorem le_code_add (hx : x.negative = false) (hy : y.negative = false)
    (hc : c ≤ x.code ∨ c ≤ y.code) (hNumber : c ≤ infinityCode) : c ≤ (x + y).code := by
  rcases add_cases hx hy with ⟨hxFinite, hyFinite, hSum⟩ | ⟨-, hGreat⟩
  · have hTerm {z : Binary32} (hz : z.isFinite = true)
        (hLe : z.magnitude ≤ x.magnitude + y.magnitude) :
        z.code ≤ roundCode (x.magnitude + y.magnitude) 1 := by
      rw [← roundCode_magnitude hz]
      exact roundCode_mono Nat.one_pos Nat.one_pos (Nat.mul_le_mul_right _ hLe)
    rw [hSum, code_ofCode (roundCode_le ..)]
    rcases hc with hc | hc
    · exact Nat.le_trans hc (hTerm hxFinite (Nat.le_add_right ..))
    · exact Nat.le_trans hc (hTerm hyFinite (Nat.le_add_left ..))
  · exact Nat.le_trans hNumber hGreat

/-- A finite sum is below the exact one by at most one part in `2 ^ 24`. -/
theorem add_magnitude_mul_le (hx : x.negative = false) (hy : y.negative = false)
    (hFinite : (x + y).isFinite = true) :
    (x.magnitude + y.magnitude) * 16777216 ≤ (x + y).magnitude * 16777217 := by
  rcases add_cases hx hy with ⟨-, -, hSum⟩ | ⟨-, hGreat⟩
  · rw [hSum] at hFinite ⊢
    rw [isFinite, code_ofCode (roundCode_le ..), decide_eq_true_eq] at hFinite
    rw [magnitude_ofCode (roundCode_le ..)]
    exact le_magnitude_roundCode hFinite
  · exact absurd (of_decide_eq_true hFinite) (Nat.not_lt.2 hGreat)

/-- Integers of 24 bits are numbers. -/
theorem exists_code_of_le {n : Nat} (h : n ≤ 16777216) :
    ∃ c < infinityCode, magnitudeOfCode c = n * one := by
  rcases Nat.eq_zero_or_pos n with rfl | hPos
  · exact ⟨0, by decide, by simp [magnitudeOfCode]⟩
  · -- The significand has 24 bits after a shift that the exponent takes back.
    have hLog := Nat.log2_self_le (n := n) (by omega)
    have hNext := Nat.lt_log2_self (n := n)
    have hBits : 8388608 ≤ n * 2 ^ (23 - n.log2) ∧ n * 2 ^ (23 - n.log2) ≤ 16777216 := by
      rcases Nat.lt_or_ge n.log2 24 with hFew | hMany
      · have hLow : 2 ^ n.log2 * 2 ^ (23 - n.log2) = 8388608 := by
          rw [← Nat.pow_add, show n.log2 + (23 - n.log2) = 23 by omega]
        have hHigh : 2 ^ (n.log2 + 1) * 2 ^ (23 - n.log2) = 16777216 := by
          rw [← Nat.pow_add, show n.log2 + 1 + (23 - n.log2) = 24 by omega]
        have hScaled := Nat.mul_le_mul_right (2 ^ (23 - n.log2)) hLog
        have hScaledNext := Nat.mul_le_mul_right (2 ^ (23 - n.log2)) (Nat.le_of_lt hNext)
        omega
      · have hGreat : 16777216 ≤ n :=
          Nat.le_trans (Nat.pow_le_pow_right (by decide : 0 < 2) hMany) hLog
        rw [show 23 - n.log2 = 0 by omega, Nat.pow_zero, Nat.mul_one]
        omega
    refine ⟨(149 - (23 - n.log2)) * 8388608 + n * 2 ^ (23 - n.log2), ?_, ?_⟩
    · rw [infinityCode]
      omega
    · rw [magnitudeOfCode_shift hBits.2 (Or.inr hBits.1), Nat.mul_assoc, ← Nat.pow_add,
        show 23 - n.log2 + (149 - (23 - n.log2)) = 149 by omega]
      rfl

/-- The number of an integer of 24 bits is that integer, without rounding. -/
theorem ofUnits_mul_one {negative : Bool} {n : Int} (h : n.natAbs ≤ 16777216) :
    (ofUnits negative (n * one)).isFinite = true ∧ (ofUnits negative (n * one)).units = n * one := by
  obtain ⟨c, hFinite, hMagnitude⟩ := exists_code_of_le h
  have hCode := Nat.le_of_lt hFinite
  have hNatAbs : (n * one).natAbs = magnitudeOfCode c := by
    rw [hMagnitude, Int.natAbs_mul, Int.natAbs_natCast]
  have hOne := one_pos
  rw [ofUnits]
  split
  · next hZero =>
    refine ⟨isFinite_ofCode (by decide), ?_⟩
    rw [hZero, units, magnitude_ofCode (by decide)]
    cases negative <;> decide
  · rw [ofRatio, hNatAbs, roundCode_magnitudeOfCode hCode]
    refine ⟨isFinite_ofCode hFinite, ?_⟩
    rw [units, negative_ofCode hCode, magnitude_ofCode hCode, ← hNatAbs]
    simp only [decide_eq_true_eq]
    split <;> omega

end Binary32

end QuantAttention
