import Mathlib.Tactic.Ring
import QuantAttention.Proofs.Quantization

/-! How far a quantized number is from the number it stands for. The inverse of the scale and the
product with it are rounded each; the greatest magnitude nevertheless comes to 127, and all other
numbers stay within one step, as long as the inverse is finite. -/

namespace QuantAttention

open Binary32

theorem magnitude_activationMax : activationMax.magnitude = 127 * one := by decide

/-! ### What is stored of a product -/

/-- What is stored of a number without a sign: its integer part, and 127 at most. -/
theorem toInt_toInt8_clamp {z : Binary32} (hSign : z.negative = false) (hNumber : z.isNaN = false) :
    ((z.clamp (-activationMax) activationMax).toInt8.toInt) =
      (magnitudeOfCode (min z.code activationMax.code) / one : Nat) := by
  have hClamp : z.clamp (-activationMax) activationMax =
      ofCode false (min z.code activationMax.code) := by
    rw [clamp_neg_eq positive_activationMax hNumber, rank_eq hSign, if_neg (by omega)]
    split
    · next hAbove =>
      rw [Nat.min_eq_right (by omega), ofCode_code positive_activationMax.sign]
    · next hBelow =>
      rw [Nat.min_eq_left (by omega), ofCode_code hSign]
  have hCode : min z.code activationMax.code ≤ infinityCode :=
    Nat.le_trans (Nat.min_le_right ..) (by decide)
  obtain ⟨hStored, hSmall⟩ := toInt8_clamp hNumber
  have hUnits : (z.clamp (-activationMax) activationMax).units =
      magnitudeOfCode (min z.code activationMax.code) := by
    rw [hClamp, units_eq (negative_ofCode hCode), magnitude_ofCode hCode]
  rw [hUnits, ← Int.ofNat_tdiv, Int.natAbs_natCast] at hSmall
  rw [hStored, hUnits, ← Int.ofNat_tdiv]
  generalize magnitudeOfCode (min z.code activationMax.code) / one = n at hSmall
  exact Int8.toInt_ofInt_of_le (by omega) (by omega)

/-- Numbers of 127 and more, infinity among them, are stored as 127. There is no wrapping around to
negative entries. -/
theorem toInt_toInt8_clamp_of_le {z : Binary32} (hSign : z.negative = false)
    (hNumber : z.isNaN = false) (hGreat : activationMax.code ≤ z.code) :
    (z.clamp (-activationMax) activationMax).toInt8.toInt = 127 := by
  rw [toInt_toInt8_clamp hSign hNumber, Nat.min_eq_right hGreat]
  decide

/-- The product with the inverse is rounded to the nearest integer, and clamped. -/
theorem toInt_quantizeActivation {x w : Binary32} (hSign : (x * w).negative = false)
    (hFinite : (x * w).isFinite = true) :
    (quantizeActivation x w).toInt = (min 127 (((x * w).magnitude + one / 2) / one) : Nat) := by
  obtain ⟨hNaN, hInfinite⟩ := isFinite_eq.1 hFinite
  rw [quantizeActivation, roundHalfAway_eq hSign hNaN, hInfinite, if_neg Bool.false_ne_true]
  generalize ((x * w).magnitude + one / 2) / one = n
  have hCode := roundCode_le (n * one) 1
  have hRoundedSign : (ofCode false (roundCode (n * one) 1)).negative = false :=
    negative_ofCode hCode
  have hRounded : (ofCode false (roundCode (n * one) 1)).isNaN = false := by
    rw [isNaN, code_ofCode hCode]
    exact decide_eq_false (Nat.not_lt.2 hCode)
  rcases Nat.lt_or_ge n 127 with hSmall | hGreat
  · obtain ⟨c, hFewer, hMagnitude⟩ := exists_code_of_le (n := n) (by omega)
    rw [toInt_toInt8_clamp hRoundedSign hRounded, code_ofCode hCode, ← hMagnitude,
      roundCode_magnitudeOfCode (Nat.le_of_lt hFewer)]
    have hBelow : c ≤ activationMax.code := by
      refine Nat.not_lt.1 fun hAbove => ?_
      have hLarger := magnitudeOfCode_mono (Nat.le_of_lt hAbove)
      rw [hMagnitude, ← magnitude, magnitude_activationMax] at hLarger
      have := Nat.le_of_mul_le_mul_right hLarger Binary32.one_pos
      omega
    rw [Nat.min_eq_left hBelow, hMagnitude, Nat.mul_div_cancel _ Binary32.one_pos,
      Nat.min_eq_right (by omega)]
  · rw [toInt_toInt8_clamp_of_le hRoundedSign hRounded, Nat.min_eq_left hGreat]
    · rfl
    · rw [code_ofCode hCode, ← roundCode_magnitude (by decide : activationMax.isFinite = true),
        magnitude_activationMax]
      exact roundCode_mono Nat.one_pos Nat.one_pos
        (Nat.mul_le_mul_right _ (Nat.mul_le_mul_right _ hGreat))

/-! ### Errors -/

section

variable {greatest inverse part product unit k : Nat}

/-- The errors of an inverse and of a product, taken together: far from the subnormal numbers the
product is hardly below `127 * part / greatest`, and near to them that is less than one. -/
theorem le_product_of_errors (hUnit : 16777216 ≤ unit)
    (hInverse : 127 * unit * unit * 16777216 ≤ inverse * greatest * 16777217)
    (hProduct : 8388608 * unit ≤ part * inverse →
      part * inverse * 16777216 ≤ product * unit * 16777217) :
    127 * part ≤ greatest ∨
      127 * part * unit * (16777216 * 16777216) ≤ product * greatest * (16777217 * 16777217) := by
  have hPos : 0 < unit := by omega
  rcases Nat.lt_or_ge (part * inverse) (8388608 * unit) with hSmall | hNormal
  · left
    have hAll : 127 * part * (8388608 * 16777217) * unit ≤
        greatest * (8388608 * 16777217) * unit := by
      calc 127 * part * (8388608 * 16777217) * unit
          ≤ 127 * part * (unit * 16777216) * unit := by
            refine Nat.mul_le_mul_right _ (Nat.mul_le_mul_left _ ?_)
            linarith
        _ = part * (127 * unit * unit * 16777216) := by ring
        _ ≤ part * (inverse * greatest * 16777217) := Nat.mul_le_mul_left _ hInverse
        _ = part * inverse * (greatest * 16777217) := by ring
        _ ≤ 8388608 * unit * (greatest * 16777217) :=
          Nat.mul_le_mul_right _ (Nat.le_of_lt hSmall)
        _ = greatest * (8388608 * 16777217) * unit := by ring
    have hCancelled := Nat.le_of_mul_le_mul_right hAll hPos
    omega
  · right
    refine Nat.le_of_mul_le_mul_right (c := unit) ?_ hPos
    calc 127 * part * unit * (16777216 * 16777216) * unit
        = part * (127 * unit * unit * 16777216) * 16777216 := by ring
      _ ≤ part * (inverse * greatest * 16777217) * 16777216 :=
        Nat.mul_le_mul_right _ (Nat.mul_le_mul_left _ hInverse)
      _ = part * inverse * 16777216 * (greatest * 16777217) := by ring
      _ ≤ product * unit * 16777217 * (greatest * 16777217) :=
        Nat.mul_le_mul_right _ (hProduct hNormal)
      _ = product * greatest * (16777217 * 16777217) * unit := by ring

/-- The product is hardly above `127 * part / greatest`. -/
theorem product_of_errors_le (hPos : 0 < unit)
    (hInverse : inverse * greatest * 16777215 ≤ 127 * unit * unit * 16777216)
    (hProduct : product * unit * 16777215 ≤ part * inverse * 16777216) :
    product * greatest * (16777215 * 16777215) ≤ 127 * part * unit * (16777216 * 16777216) := by
  refine Nat.le_of_mul_le_mul_right (c := unit) ?_ hPos
  calc product * greatest * (16777215 * 16777215) * unit
      = product * unit * 16777215 * (greatest * 16777215) := by ring
    _ ≤ part * inverse * 16777216 * (greatest * 16777215) := Nat.mul_le_mul_right _ hProduct
    _ = part * (inverse * greatest * 16777215) * 16777216 := by ring
    _ ≤ part * (127 * unit * unit * 16777216) * 16777216 :=
      Nat.mul_le_mul_right _ (Nat.mul_le_mul_left _ hInverse)
    _ = 127 * part * unit * (16777216 * 16777216) * unit := by ring

/-- The nearest integer to the product is not a whole step below. -/
theorem le_step (hPos : 0 < unit) (hSmall : k ≤ 127) (hNearest : 2 * product ≤ (2 * k + 1) * unit)
    (hProduct : 127 * part * unit * (16777216 * 16777216) ≤
      product * greatest * (16777217 * 16777217)) : 127 * part ≤ (k + 1) * greatest := by
  have hAll : 254 * part * (16777216 * 16777216) * unit ≤
      (2 * k + 1) * (16777217 * 16777217) * greatest * unit := by
    calc 254 * part * (16777216 * 16777216) * unit
        = 2 * (127 * part * unit * (16777216 * 16777216)) := by ring
      _ ≤ 2 * (product * greatest * (16777217 * 16777217)) := Nat.mul_le_mul_left _ hProduct
      _ = 2 * product * (greatest * (16777217 * 16777217)) := by ring
      _ ≤ (2 * k + 1) * unit * (greatest * (16777217 * 16777217)) :=
        Nat.mul_le_mul_right _ hNearest
      _ = (2 * k + 1) * (16777217 * 16777217) * greatest * unit := by ring
  have hCancelled := Nat.le_of_mul_le_mul_right hAll hPos
  have hRoom : (2 * k + 1) * (16777217 * 16777217) ≤ 2 * (k + 1) * (16777216 * 16777216) := by linarith
  have hScaled := Nat.mul_le_mul_right greatest hRoom
  linarith

/-- Nor is it a whole step above. -/
theorem step_le (hPos : 0 < unit) (hLe : part ≤ greatest)
    (hNearest : 2 * (k * unit) ≤ 2 * product + unit)
    (hProduct : product * greatest * (16777215 * 16777215) ≤
      127 * part * unit * (16777216 * 16777216)) : k * greatest ≤ 127 * part + greatest := by
  have hAll : 2 * (k * greatest) * (16777215 * 16777215) * unit ≤
      (254 * part * (16777216 * 16777216) + greatest * (16777215 * 16777215)) * unit := by
    calc 2 * (k * greatest) * (16777215 * 16777215) * unit
        = 2 * (k * unit) * (greatest * (16777215 * 16777215)) := by ring
      _ ≤ (2 * product + unit) * (greatest * (16777215 * 16777215)) :=
        Nat.mul_le_mul_right _ hNearest
      _ = 2 * (product * greatest * (16777215 * 16777215)) +
          unit * greatest * (16777215 * 16777215) := by ring
      _ ≤ 2 * (127 * part * unit * (16777216 * 16777216)) +
          unit * greatest * (16777215 * 16777215) :=
        Nat.add_le_add_right (Nat.mul_le_mul_left _ hProduct) _
      _ = (254 * part * (16777216 * 16777216) + greatest * (16777215 * 16777215)) * unit := by ring
  have hCancelled := Nat.le_of_mul_le_mul_right hAll hPos
  omega

/-- The greatest magnitude comes to 127 at least, so with the clamp it comes to 127 exactly. No
entry of the range is left unused. -/
theorem le_of_greatest (hPos : 0 < unit) (hGreatest : 0 < greatest)
    (hNearest : 2 * product ≤ (2 * k + 1) * unit)
    (hProduct : 127 * greatest * unit * (16777216 * 16777216) ≤
      product * greatest * (16777217 * 16777217)) : 127 ≤ k := by
  have hCancelled : 127 * unit * (16777216 * 16777216) ≤ product * (16777217 * 16777217) := by
    refine Nat.le_of_mul_le_mul_right (c := greatest) ?_ hGreatest
    linarith
  have hAll : 254 * (16777216 * 16777216) * unit ≤ (2 * k + 1) * (16777217 * 16777217) * unit := by
    have hScaled := Nat.mul_le_mul_right (16777217 * 16777217) hNearest
    linarith
  have hSteps := Nat.le_of_mul_le_mul_right hAll hPos
  refine Nat.lt_of_not_le fun hSmall => ?_
  linarith

end

/-! ### The inverse of the scale -/

variable {a x : Binary32}

/-- Both parts of a scale are quotients of the greatest magnitude and 127, each rounded for itself.
They need not be inverse to each other. -/
theorem ofAbsMax_of_positive (ha : a.Positive) :
    Scale.ofAbsMax a = ⟨a / activationMax, activationMax / a⟩ := by
  rw [Scale.ofAbsMax, zero_lt_iff.2 ⟨ha.sign, ha.code_pos, Nat.le_of_lt ha.finite⟩, if_pos rfl]

theorem Binary32.Positive.isFinite (ha : a.Positive) : a.isFinite = true := decide_eq_true ha.finite

/-- The greatest magnitude whose inverse is not finite, `127 / 2 ^ 128`. -/
def inverseLimit : Nat := 127 * 2097152

/-- The inverse of a scale is the rounded quotient, which is infinite if it exceeds the greatest
finite number. -/
theorem inverse_eq (ha : a.Positive) :
    activationMax / a = ofCode false (roundCode (127 * one * one) a.magnitude) := by
  rw [div_eq ha.sign ha.isNaN ha.code_pos positive_activationMax, ha.isInfinite,
    if_neg Bool.false_ne_true, magnitude_activationMax]

/-- Up to a limit among the subnormal numbers the inverse is infinite. -/
theorem inverse_of_le (ha : a.Positive) (hTiny : a.magnitude ≤ inverseLimit) :
    activationMax / a = infinity false := by
  have hLimit : roundCode (127 * one * one) inverseLimit = infinityCode := by decide
  have hGreat : infinityCode ≤ roundCode (127 * one * one) a.magnitude := by
    rw [← hLimit]
    exact roundCode_mono (by decide) (magnitudeOfCode_pos ha.code_pos) (Nat.mul_le_mul_left _ hTiny)
  rw [inverse_eq ha, Nat.le_antisymm (roundCode_le ..) hGreat, infinity]

/-- A finite inverse is off by at most one part in `2 ^ 24`. -/
structure InverseOf (a w : Binary32) : Prop where
  sign : w.negative = false
  finite : w.isFinite = true
  lower : 127 * one * one * 16777216 ≤ w.magnitude * a.magnitude * 16777217
  upper : w.magnitude * a.magnitude * 16777215 ≤ 127 * one * one * 16777216

/-- Above that limit the inverse is finite and close to the exact quotient. -/
theorem inverseOf (ha : a.Positive) (hLimit : inverseLimit < a.magnitude) :
    InverseOf a (activationMax / a) := by
  have hPos := magnitudeOfCode_pos ha.code_pos
  have hNext : inverseLimit + 16 ≤ a.magnitude := by
    have hCode : 50200577 ≤ a.code := by
      refine Nat.lt_of_not_le fun hLe => Nat.not_le.2 hLimit ?_
      rw [show inverseLimit = magnitudeOfCode 50200576 by decide]
      exact magnitudeOfCode_mono hLe
    rw [show inverseLimit + 16 = magnitudeOfCode 50200577 by decide]
    exact magnitudeOfCode_mono hCode
  have hCode : roundCode (127 * one * one) a.magnitude < infinityCode :=
    Nat.lt_of_le_of_lt (roundCode_mono hPos (by decide : 0 < inverseLimit + 16)
      (Nat.mul_le_mul_left _ hNext)) (by decide)
  have hLarge : 8388608 * a.magnitude ≤ 127 * one * one := by
    have hLe : a.magnitude ≤ magnitudeOfCode infinityCode :=
      magnitudeOfCode_mono (Nat.le_of_lt ha.finite)
    have hRoom : 8388608 * magnitudeOfCode infinityCode ≤ 127 * one * one := by decide
    omega
  have hNormal : 8388608 ≤ magnitudeOfCode (roundCode (127 * one * one) a.magnitude) := by
    rw [show 8388608 = magnitudeOfCode (roundCode 8388608 1) by decide]
    exact magnitudeOfCode_mono (roundCode_mono Nat.one_pos hPos (by rwa [Nat.mul_one]))
  rw [inverse_eq ha]
  have hMagnitude := @magnitude_ofCode _ false (roundCode_le (127 * one * one) a.magnitude)
  refine ⟨negative_ofCode (roundCode_le ..), isFinite_ofCode hCode, ?_, ?_⟩
  · rw [hMagnitude]
    exact le_magnitude_roundCode_mul hPos hCode (.inr hLarge)
  · rw [hMagnitude]
    exact magnitude_roundCode_mul_le hPos hNormal

/-! ### Steps -/

/-- The product with a finite inverse does not overflow, and carries the errors of both roundings. -/
structure ProductOf (a x z : Binary32) : Prop where
  sign : z.negative = false
  finite : z.isFinite = true
  lower : 127 * x.magnitude ≤ a.magnitude ∨
    127 * x.magnitude * one * (16777216 * 16777216) ≤
      z.magnitude * a.magnitude * (16777217 * 16777217)
  upper : 8388608 ≤ z.magnitude → z.magnitude * a.magnitude * (16777215 * 16777215) ≤
    127 * x.magnitude * one * (16777216 * 16777216)

/-- So is what a number is multiplied with it to: it is finite, and off by the errors of two
roundings. -/
theorem productOf (ha : a.Positive) (hLimit : inverseLimit < a.magnitude)
    (hSign : x.negative = false) (hLe : x.code ≤ a.code) : ProductOf a x (x * (activationMax / a)) := by
  obtain ⟨hInverseSign, hInverseFinite, hLower, hUpper⟩ := inverseOf ha hLimit
  generalize activationMax / a = w at *
  have hx : x.isFinite = true := decide_eq_true (Nat.lt_of_le_of_lt hLe ha.finite)
  have hMagnitude : x.magnitude ≤ a.magnitude := magnitudeOfCode_mono hLe
  have hProductLimit : x.magnitude * w.magnitude ≤ 128 * one * one := by
    have hStep := Nat.mul_le_mul_left w.magnitude hMagnitude
    linarith [Nat.zero_le (one * one)]
  obtain ⟨hProductSign, hProductFinite, -, hProductUpper⟩ :=
    mul_spec hSign hInverseSign hx hInverseFinite hProductLimit (by decide)
  have hProductLower := mul_le_magnitude_mul hSign hInverseSign hx hInverseFinite hProductFinite
  exact ⟨hProductSign, hProductFinite, le_product_of_errors (by decide) hLower hProductLower,
    fun hNormal => product_of_errors_le Binary32.one_pos hUpper (hProductUpper hNormal)⟩

/-- The nearest integer is at most half above. -/
theorem two_mul_nearest_le (product : Nat) :
    2 * ((product + one / 2) / one * one) ≤ 2 * product + one := by
  have hFloor := Nat.div_mul_le_self (product + one / 2) one
  omega

/-- It is at most half below. -/
theorem two_mul_le_nearest (product : Nat) :
    2 * product ≤ (2 * ((product + one / 2) / one) + 1) * one := by
  have hHalf : 2 * (one / 2) = one := by decide
  have hNext := Nat.lt_mul_div_succ (product + one / 2) Binary32.one_pos
  linarith

/-- What is stored of a number without a sign is within one step, and the greatest magnitude comes
to 127. -/
theorem exists_step (ha : a.Positive) (hLimit : inverseLimit < a.magnitude)
    (hSign : x.negative = false) (hLe : x.code ≤ a.code) :
    ∃ q ≤ 127, (quantizeActivation x (activationMax / a)).toInt = (q : Nat) ∧
      q * a.magnitude ≤ 127 * x.magnitude + a.magnitude ∧
      127 * x.magnitude ≤ (q + 1) * a.magnitude ∧ (x.magnitude = a.magnitude → q = 127) := by
  obtain ⟨hProductSign, hProductFinite, hLower, hUpper⟩ := productOf ha hLimit hSign hLe
  rw [toInt_quantizeActivation hProductSign hProductFinite]
  generalize (x * (activationMax / a)).magnitude = product at *
  have hBelow := two_mul_nearest_le product
  have hAbove := two_mul_le_nearest product
  generalize (product + one / 2) / one = n at *
  have hPos := Binary32.one_pos
  have hMagnitude : x.magnitude ≤ a.magnitude := magnitudeOfCode_mono hLe
  have hGreatest : 0 < a.magnitude := magnitudeOfCode_pos ha.code_pos
  refine ⟨min 127 n, Nat.min_le_left .., rfl, ?_, ?_, ?_⟩
  · refine Nat.le_trans (Nat.mul_le_mul_right _ (Nat.min_le_right ..)) ?_
    rcases Nat.lt_or_ge product 8388608 with hTiny | hNormal
    · have hZero : n = 0 := by
        have hOne : 2 * 8388608 < one := by decide
        refine Nat.eq_zero_of_not_pos fun hSome => ?_
        have := Nat.mul_le_mul_right one hSome
        omega
      rw [hZero, Nat.zero_mul]
      exact Nat.zero_le _
    · exact step_le hPos hMagnitude hBelow (hUpper hNormal)
  · rcases hLower with hSmall | hLower
    · exact Nat.le_trans hSmall (Nat.le_mul_of_pos_left _ (Nat.succ_pos _))
    · rcases Nat.le_total n 127 with hFew | hMany
      · rw [Nat.min_eq_right hFew]
        exact le_step hPos hFew hAbove hLower
      · rw [Nat.min_eq_left hMany]
        omega
  · intro hSame
    rw [hSame] at hLower
    rcases hLower with hSmall | hLower
    · omega
    · exact Nat.min_eq_left (le_of_greatest hPos hGreatest hAbove hLower)

/-- The product with an infinite inverse is infinite, or has no value. So a number is stored as one
of 127, zero and -127 then. -/
theorem toInt_quantizeActivation_infinity (hSign : x.negative = false) (hFinite : x.isFinite = true) :
    (quantizeActivation x (infinity false)).toInt = if x.code = 0 then 0 else 127 := by
  obtain ⟨hNaN, hInfinite⟩ := isFinite_eq.1 hFinite
  have hProduct : x * infinity false = if x.code = 0 then nan else infinity false := by
    change Binary32.mul x (infinity false) = _
    simp [Binary32.mul, hNaN, hInfinite, hSign, show (infinity false).isNaN = false by decide,
      show (infinity false).isInfinite = true by decide, show (infinity false).code ≠ 0 by decide,
      show (infinity false).negative = false by decide, isZero]
  rw [quantizeActivation, hProduct]
  split
  · decide
  · decide

theorem units_of_negative (hSign : x.negative = true) : x.units = -(x.magnitude : Int) := by
  rw [units, hSign, if_pos rfl]

/-- A number below zero is stored as the opposite of what its magnitude is stored as. -/
theorem toInt_quantizeActivation_of_negative (hSign : x.negative = true) (hNumber : x.isNaN = false)
    (w : Binary32) : (quantizeActivation x w).toInt = -(quantizeActivation x.abs w).toInt := by
  have hCode : x.code ≤ infinityCode := Nat.not_lt.1 (of_decide_eq_false hNumber)
  have hMirrored : Mirrored x.abs x :=
    ⟨(code_abs x).symm, .inr (.inr (by rw [hSign, Binary32.abs, negative_ofCode hCode]; rfl))⟩
  have hSmall := natAbs_quantizeActivation_le x.abs w
  rw [hMirrored.quantizeActivation, Int8.toInt_neg, Int.bmod_eq_of_le (by omega) (by omega)]

/-- The error does not depend on the sign, so it is enough to look at numbers without one. -/
theorem natAbs_error (hNumber : x.isNaN = false) (ha : a.negative = false) (w : Binary32) :
    (127 * x.units - (quantizeActivation x w).toInt * a.units).natAbs =
      (127 * (x.magnitude : Int) - (quantizeActivation x.abs w).toInt * a.magnitude).natAbs := by
  rw [units_eq ha]
  cases hSign : x.negative with
  | false => rw [units_eq hSign, Binary32.abs, ofCode_code hSign]
  | true =>
      rw [units_of_negative hSign, toInt_quantizeActivation_of_negative hSign hNumber, ← Int.natAbs_neg]
      congr 1
      ring

/-- Quantization stays within one step of `x` exactly if the inverse of the scale is finite, or `x`
is zero or next to the greatest magnitude. -/
theorem within_step_iff (ha : a.Positive) (hx : x.abs.le a = true) :
    (127 * x.units - (quantizeActivation x (Scale.ofAbsMax a).inverse).toInt * a.units).natAbs ≤
        a.magnitude ↔
      inverseLimit < a.magnitude ∨ x.magnitude = 0 ∨ 126 * a.magnitude ≤ 127 * x.magnitude := by
  have hCode : x.code ≤ a.code := (abs_le_iff ha).1 hx
  have hNumber : x.code ≤ infinityCode := Nat.le_trans hCode (Nat.le_of_lt ha.finite)
  have hSign : x.abs.negative = false := negative_ofCode hNumber
  have hAbsCode : x.abs.code ≤ a.code := by rwa [code_abs]
  have hMagnitude : x.abs.magnitude = x.magnitude := by rw [magnitude, code_abs, magnitude]
  have hLe : x.magnitude ≤ a.magnitude := magnitudeOfCode_mono hCode
  rw [ofAbsMax_of_positive ha, natAbs_error (decide_eq_false (Nat.not_lt.2 hNumber)) ha.sign]
  rcases Nat.lt_or_ge inverseLimit a.magnitude with hFinite | hTiny
  · obtain ⟨q, -, hStored, hAbove, hBelow, -⟩ := exists_step ha hFinite hSign hAbsCode
    rw [hMagnitude] at hAbove hBelow
    rw [hStored]
    refine iff_of_true ?_ (.inl hFinite)
    rw [Nat.add_one_mul q] at hBelow
    rw [← Int.natCast_mul]
    omega
  · have hAbsFinite : x.abs.isFinite = true :=
      decide_eq_true (Nat.lt_of_le_of_lt hAbsCode ha.finite)
    rw [inverse_of_le ha hTiny, toInt_quantizeActivation_infinity hSign hAbsFinite, code_abs]
    split
    · next hZero =>
      have hNone : x.magnitude = 0 := by rw [magnitude, hZero]; rfl
      rw [hNone]
      omega
    · next hNonzero =>
      have hPos := magnitudeOfCode_pos (Nat.pos_of_ne_zero hNonzero)
      rw [← magnitude] at hPos
      omega

/-- The least magnitude with a finite inverse, and a number of about half of it below zero. Both are
within one step. -/
theorem within_step_least : (⟨50200577⟩ : Binary32).Positive ∧
    (⟨2189295649⟩ : Binary32).abs.le ⟨50200577⟩ = true ∧
    inverseLimit < magnitude ⟨50200577⟩ ∧
    (127 * units ⟨2189295649⟩ - (quantizeActivation ⟨2189295649⟩
      (Scale.ofAbsMax ⟨50200577⟩).inverse).toInt * units ⟨50200577⟩).natAbs ≤
        magnitude ⟨50200577⟩ := by
  have ha : (⟨50200577⟩ : Binary32).Positive := by decide
  have hx : (⟨2189295649⟩ : Binary32).abs.le ⟨50200577⟩ = true := by decide
  have hLimit : inverseLimit < magnitude ⟨50200577⟩ := by decide
  exact ⟨ha, hx, hLimit, (within_step_iff ha hx).2 (.inl hLimit)⟩

/-- Among magnitudes of which the greatest is 127 times the least positive number, that number is
stored as 127 too, where one is meant. -/
theorem not_within_step_tiny : (⟨127⟩ : Binary32).Positive ∧ (⟨1⟩ : Binary32).abs.le ⟨127⟩ = true ∧
    ¬(127 * units ⟨1⟩ - (quantizeActivation ⟨1⟩ (Scale.ofAbsMax ⟨127⟩).inverse).toInt *
      units ⟨127⟩).natAbs ≤ magnitude ⟨127⟩ := by
  decide +kernel

end QuantAttention
