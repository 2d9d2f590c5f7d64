import QuantAttention.Proofs.Binary32.Rounding
import QuantAttention.Quantize

/-! Operations on numbers without a sign keep their order, and so does the quantization of
probabilities. -/

namespace QuantAttention

namespace Binary32

variable {x y w : Binary32} {c : Nat}

/-- A number that is put together from a sign and a code has that code, infinity being the greatest.
-/
theorem code_ofCode {negative : Bool} (h : c ≤ infinityCode) : (ofCode negative c).code = c := by
  rw [infinityCode] at h
  simp only [code, ofCode, UInt32.toNat_ofNat']
  split <;> omega

theorem negative_ofCode {negative : Bool} (h : c ≤ infinityCode) :
    (ofCode negative c).negative = negative := by
  rw [infinityCode] at h
  cases negative <;>
    simp only [Binary32.negative, ofCode, Bool.false_eq_true, if_false, if_true,
      UInt32.toNat_ofNat', decide_eq_false_iff_not, decide_eq_true_eq] <;>
    omega

theorem magnitude_ofCode {negative : Bool} (h : c ≤ infinityCode) :
    (ofCode negative c).magnitude = magnitudeOfCode c := by
  rw [magnitude, code_ofCode h]

/-- A number without a sign is its code. -/
theorem ofCode_code (h : x.negative = false) : ofCode false x.code = x := by
  obtain ⟨bits⟩ := x
  simp only [negative, decide_eq_false_iff_not] at h
  simp only [code, ofCode, Bool.false_eq_true, if_false, mk.injEq, ← UInt32.toNat_inj,
    UInt32.toNat_ofNat']
  omega

theorem rank_zero : (0 : Binary32).rank = 0 := rfl

/-- The positive numbers are those without a sign whose code lies between zero and that of infinity.
A comparison with zero excludes what is not a number. -/
theorem zero_lt_iff :
    lt 0 x = true ↔ x.negative = false ∧ 0 < x.code ∧ x.code ≤ infinityCode := by
  have hZero : (0 : Binary32).isNaN = false := rfl
  rw [lt, hZero, rank_zero]
  cases hSign : x.negative with
  | false =>
      simp [rank, hSign, isNaN]
      omega
  | true => simp [rank, hSign]

/-- Multiplication does not depend on the order of its factors, not even where it is not a number:
such products are all the same value. -/
theorem mul_comm (x y : Binary32) : x * y = y * x := by
  have hSign : (x.negative != y.negative) = (y.negative != x.negative) := bne_comm
  change Binary32.mul x y = Binary32.mul y x
  rw [Binary32.mul, Binary32.mul, Bool.or_comm x.isNaN, Bool.or_comm x.isInfinite,
    Bool.or_comm x.isZero, Nat.mul_comm x.magnitude, hSign]

/-- The finite values are the numbers but for the infinite ones. -/
theorem isFinite_eq : x.isFinite = true ↔ x.isNaN = false ∧ x.isInfinite = false := by
  simp only [isFinite, isNaN, isInfinite, decide_eq_true_eq, decide_eq_false_iff_not]
  omega

theorem units_eq (hSign : x.negative = false) : x.units = x.magnitude := by
  rw [units, hSign, if_neg Bool.false_ne_true]

/-- The product of finite numbers is the rounded product of their magnitudes, with the sign by the
rule of signs. -/
theorem mul_eq_ofRatio (hx : x.isFinite = true) (hy : y.isFinite = true) :
    x * y = ofRatio (x.negative != y.negative) (x.magnitude * y.magnitude) one := by
  obtain ⟨hxNaN, hxInfinite⟩ := isFinite_eq.1 hx
  obtain ⟨hyNaN, hyInfinite⟩ := isFinite_eq.1 hy
  change Binary32.mul x y = _
  simp only [Binary32.mul, hxNaN, hyNaN, hxInfinite, hyInfinite, Bool.or_self, Bool.false_eq_true,
    if_false]

/-- Zero times a finite number is zero with the sign of that number. -/
theorem mul_zero_of_isFinite (h : x.isFinite = true) : x * 0 = ofCode x.negative 0 := by
  rw [mul_eq_ofRatio h (by decide), show (0 : Binary32).magnitude = 0 by decide, Nat.mul_zero,
    ofRatio, roundCode_zero, show (0 : Binary32).negative = false from rfl, Bool.bne_false]

/-- Zero times infinity is not a number, and this is how a row without a finite scale spoils its
scores. -/
theorem mul_zero_of_not_isFinite (h : x.isFinite = false) : x * 0 = nan := by
  change Binary32.mul x 0 = nan
  rw [Binary32.mul]
  cases hNaN : x.isNaN with
  | true => rfl
  | false =>
      have hInfinite : x.isInfinite = true := by
        rw [← Bool.not_eq_false]
        intro hNot
        rw [isFinite_eq.2 ⟨hNaN, hNot⟩] at h
        cases h
      rw [hInfinite]
      simp [show (0 : Binary32).isZero = true from rfl, show (0 : Binary32).isNaN = false from rfl]

/-- The sum of two numbers without a sign. It is infinite if one of them is, and else the rounded
sum of their magnitudes. -/
theorem add_eq (hx : x.negative = false) (hy : y.negative = false) (hxNumber : x.isNaN = false)
    (hyNumber : y.isNaN = false) :
    x + y = ofCode false (if x.isInfinite || y.isInfinite then infinityCode
      else roundCode (x.magnitude + y.magnitude) 1) := by
  have hInfinite {z : Binary32} (hz : z.negative = false) (hCode : z.isInfinite = true) :
      z = ofCode false infinityCode := by
    rw [isInfinite, decide_eq_true_eq] at hCode
    rw [← hCode, ofCode_code hz]
  change Binary32.add x y = _
  rw [Binary32.add, hx, hy, hxNumber, hyNumber, bne_self_eq_false, Bool.and_false]
  cases hxInfinite : x.isInfinite with
  | true => exact hInfinite hx hxInfinite
  | false =>
      cases hyInfinite : y.isInfinite with
      | true => exact hInfinite hy hyInfinite
      | false =>
          simp only [Bool.or_self, Bool.and_self, Bool.false_eq_true, if_false, units_eq hx,
            units_eq hy, ofUnits]
          split
          · next hZero =>
            rw [show x.magnitude + y.magnitude = 0 by omega, roundCode_zero]
          · rw [ofRatio, decide_eq_false (by omega)]
            congr 1

/-- Both are numbers without a sign, and the first is not above the second. -/
structure Ordered (x y : Binary32) : Prop where
  left : x.negative = false
  right : y.negative = false
  code_le : x.code ≤ y.code
  number : y.code ≤ infinityCode

/-- A finite number above zero. -/
structure Positive (w : Binary32) : Prop where
  sign : w.negative = false
  finite : w.code < infinityCode
  code_pos : 0 < w.code

instance (w : Binary32) : Decidable w.Positive :=
  decidable_of_iff (w.negative = false ∧ w.code < infinityCode ∧ 0 < w.code)
    ⟨fun ⟨hSign, hFinite, hPos⟩ => ⟨hSign, hFinite, hPos⟩, fun h => ⟨h.sign, h.finite, h.code_pos⟩⟩

/-- Codes up to that of infinity are ordered as the numbers that they stand for. -/
theorem ordered_ofCode {c₁ c₂ : Nat} (h : c₁ ≤ c₂) (hNumber : c₂ ≤ infinityCode) :
    Ordered (ofCode false c₁) (ofCode false c₂) where
  left := negative_ofCode (Nat.le_trans h hNumber)
  right := negative_ofCode hNumber
  code_le := by rwa [code_ofCode hNumber, code_ofCode (Nat.le_trans h hNumber)]
  number := by rwa [code_ofCode hNumber]

/-- Rounded ratios are ordered as the ratios are, though different ratios may round to one number.
-/
theorem ordered_ofRatio {num₁ den₁ num₂ den₂ : Nat} (hDen₁ : 0 < den₁) (hDen₂ : 0 < den₂)
    (h : num₁ * den₂ ≤ num₂ * den₁) : Ordered (ofRatio false num₁ den₁) (ofRatio false num₂ den₂) :=
  ordered_ofCode (roundCode_mono hDen₁ hDen₂ h) (roundCode_le ..)

theorem one_pos : 0 < one := Nat.two_pow_pos 149

namespace Positive

theorem isNaN (h : w.Positive) : w.isNaN = false := by
  have hFinite := h.finite
  simp only [Binary32.isNaN, decide_eq_false_iff_not]
  omega

theorem isInfinite (h : w.Positive) : w.isInfinite = false := by
  have hFinite := h.finite
  simp only [Binary32.isInfinite, decide_eq_false_iff_not]
  omega

theorem isZero (h : w.Positive) : w.isZero = false := by
  have hPos := h.code_pos
  simp only [Binary32.isZero, decide_eq_false_iff_not]
  omega

/-- Positive numbers are compared by their codes. -/
theorem le_iff (h : w.Positive) (hx : lt 0 x = true) : le x w = true ↔ x.code ≤ w.code := by
  obtain ⟨hSign, -, hNumber⟩ := zero_lt_iff.1 hx
  have hNaN : x.isNaN = false := by
    simp only [Binary32.isNaN, decide_eq_false_iff_not]
    omega
  simp [le, rank, hSign, h.sign, h.isNaN, hNaN]

end Positive

/-- The product of a number without a sign with a positive one. Zero and infinity are the cases in
which nothing is rounded. -/
theorem mul_eq (hSign : x.negative = false) (hNumber : x.isNaN = false) (hw : w.Positive) :
    x * w = ofCode false (if x.isInfinite then infinityCode
      else roundCode (x.magnitude * w.magnitude) one) := by
  change Binary32.mul x w = _
  simp only [Binary32.mul, hSign, hw.sign, hNumber, hw.isNaN, hw.isInfinite, hw.isZero,
    Bool.or_false, bne_self_eq_false, Bool.false_eq_true, if_false]
  split
  · next hInfinite =>
    have hZero : x.isZero = false := by
      simp only [isInfinite, isZero, decide_eq_true_eq, decide_eq_false_iff_not] at hInfinite ⊢
      rw [hInfinite, infinityCode]
      omega
    simp only [hZero, Bool.false_eq_true, if_false, infinity]
  · rw [ofRatio]

/-- The quotient of two positive numbers, of which only the divisor may be infinite. -/
theorem div_eq (hSign : x.negative = false) (hNumber : x.isNaN = false) (hPos : 0 < x.code)
    (hw : w.Positive) :
    w / x = ofCode false (if x.isInfinite then 0 else roundCode (w.magnitude * one) x.magnitude) := by
  have hZero : x.isZero = false := by
    simp only [isZero, decide_eq_false_iff_not]
    omega
  change Binary32.div w x = _
  simp only [Binary32.div, hSign, hw.sign, hNumber, hw.isNaN, hw.isInfinite, hZero, Bool.or_self,
    bne_self_eq_false, Bool.false_eq_true, if_false]
  split
  · rfl
  · rw [ofRatio]

/-- Rounding to an integer, for a number without a sign: one half is added and the fraction dropped.
-/
theorem roundHalfAway_eq (hSign : x.negative = false) (hNumber : x.isNaN = false) :
    x.roundHalfAway = ofCode false (if x.isInfinite then infinityCode
      else roundCode ((x.magnitude + one / 2) / one * one) 1) := by
  simp only [Binary32.roundHalfAway, hSign, hNumber, Bool.false_eq_true, if_false]
  split
  · next hInfinite =>
    rw [isInfinite, decide_eq_true_eq] at hInfinite
    rw [← hInfinite, ofCode_code hSign]
  · rw [ofRatio]

theorem lt_zero (hSign : x.negative = false) : x.lt 0 = false := by
  have hRank : ¬x.rank < (0 : Binary32).rank := by
    rw [rank, hSign, rank_zero, if_neg Bool.false_ne_true]
    omega
  simp [Binary32.lt, hRank]

/-- The byte of a number without a sign is its integer part, and 255 for everything that is greater.
-/
theorem toNat_toUInt8 (hSign : x.negative = false) (hNumber : x.isNaN = false) :
    x.toUInt8.toNat = if x.isInfinite then 255 else min 255 (x.magnitude / one) := by
  simp only [Binary32.toUInt8, toIntWithin, hNumber, hSign, Bool.false_eq_true, if_false, units]
  split
  · rfl
  · rw [← Int.ofNat_tdiv, UInt8.toNat_ofNat']
    generalize x.magnitude / one = n
    omega

namespace Ordered

theorem isNaN_right (h : Ordered x y) : y.isNaN = false := by
  have hNumber := h.number
  simp only [Binary32.isNaN, decide_eq_false_iff_not]
  omega

theorem isNaN_left (h : Ordered x y) : x.isNaN = false := by
  have hNumber := h.number
  have hLe := h.code_le
  simp only [Binary32.isNaN, decide_eq_false_iff_not]
  omega

/-- Only the greater of two finite numbers may be infinite. -/
theorem isInfinite_left (h : Ordered x y) (hFinite : y.isInfinite = false) :
    x.isInfinite = false := by
  have hNumber := h.number
  have hLe := h.code_le
  simp only [Binary32.isInfinite, decide_eq_false_iff_not] at hFinite ⊢
  omega

theorem magnitude_le (h : Ordered x y) : x.magnitude ≤ y.magnitude := magnitudeOfCode_mono h.code_le

/-- A positive factor keeps the order of numbers without a sign, rounding and infinity included. -/
theorem mul (h : Ordered x y) (hw : w.Positive) : Ordered (x * w) (y * w) := by
  rw [mul_eq h.left h.isNaN_left hw, mul_eq h.right h.isNaN_right hw]
  cases hInfinite : y.isInfinite with
  | true =>
      refine ordered_ofCode ?_ (Nat.le_refl _)
      rw [if_pos rfl]
      split
      · exact Nat.le_refl _
      · exact roundCode_le ..
  | false =>
      rw [h.isInfinite_left hInfinite]
      simp only [Bool.false_eq_true, if_false]
      exact ordered_ofRatio one_pos one_pos
        (Nat.mul_le_mul_right _ (Nat.mul_le_mul_right _ h.magnitude_le))

/-- Products of finite numbers are ordered if both of their factors are. -/
theorem mul_mul {u v : Binary32} (h : Ordered x y) (k : Ordered u v) (hy : y.isFinite = true)
    (hv : v.isFinite = true) : Ordered (x * u) (y * v) := by
  have hx : x.isFinite = true :=
    decide_eq_true (Nat.lt_of_le_of_lt h.code_le (of_decide_eq_true hy))
  have hu : u.isFinite = true :=
    decide_eq_true (Nat.lt_of_le_of_lt k.code_le (of_decide_eq_true hv))
  rw [mul_eq_ofRatio hx hu, mul_eq_ofRatio hy hv, h.left, h.right, k.left, k.right,
    bne_self_eq_false]
  exact ordered_ofRatio one_pos one_pos
    (Nat.mul_le_mul_right _ (Nat.mul_le_mul h.magnitude_le k.magnitude_le))

/-- Sums are ordered if their terms are. -/
theorem add {u v : Binary32} (h : Ordered x y) (k : Ordered u v) : Ordered (x + u) (y + v) := by
  rw [add_eq h.left k.left h.isNaN_left k.isNaN_left,
    add_eq h.right k.right h.isNaN_right k.isNaN_right]
  cases hInfinite : y.isInfinite || v.isInfinite with
  | true =>
      refine ordered_ofCode ?_ (Nat.le_refl _)
      rw [if_pos rfl]
      split
      · exact Nat.le_refl _
      · exact roundCode_le ..
  | false =>
      rw [Bool.or_eq_false_iff] at hInfinite
      simp only [h.isInfinite_left hInfinite.1, k.isInfinite_left hInfinite.2, Bool.or_self,
        Bool.false_eq_true, if_false]
      exact ordered_ofRatio Nat.one_pos Nat.one_pos
        (Nat.mul_le_mul_right _ (Nat.add_le_add h.magnitude_le k.magnitude_le))

/-- Division by a greater number gives no greater quotient. -/
theorem div (h : Ordered x y) (hPos : 0 < x.code) (hw : w.Positive) : Ordered (w / y) (w / x) := by
  have hPos' : 0 < y.code := Nat.lt_of_lt_of_le hPos h.code_le
  rw [div_eq h.left h.isNaN_left hPos hw, div_eq h.right h.isNaN_right hPos' hw]
  cases hInfinite : y.isInfinite with
  | true =>
      apply ordered_ofCode (Nat.zero_le _)
      split
      · exact Nat.zero_le _
      · exact roundCode_le ..
  | false =>
      rw [h.isInfinite_left hInfinite]
      simp only [Bool.false_eq_true, if_false]
      exact ordered_ofRatio (magnitudeOfCode_pos hPos') (magnitudeOfCode_pos hPos)
        (Nat.mul_le_mul_left _ h.magnitude_le)

/-- Rounding to integers keeps the order. -/
theorem roundHalfAway (h : Ordered x y) : Ordered x.roundHalfAway y.roundHalfAway := by
  rw [roundHalfAway_eq h.left h.isNaN_left, roundHalfAway_eq h.right h.isNaN_right]
  cases hInfinite : y.isInfinite with
  | true =>
      refine ordered_ofCode ?_ (Nat.le_refl _)
      rw [if_pos rfl]
      split
      · exact Nat.le_refl _
      · exact roundCode_le ..
  | false =>
      rw [h.isInfinite_left hInfinite]
      simp only [Bool.false_eq_true, if_false]
      exact ordered_ofRatio Nat.one_pos Nat.one_pos (Nat.mul_le_mul_right _ (Nat.mul_le_mul_right _
        (Nat.div_le_div_right (Nat.add_le_add_right h.magnitude_le _))))

theorem lt_eq (h : Ordered x y) (hw : w.Positive) :
    w.lt x = decide (w.code < x.code) ∧ w.lt y = decide (w.code < y.code) := by
  simp [Binary32.lt, rank, h.left, h.right, hw.sign, hw.isNaN, h.isNaN_left, h.isNaN_right]

/-- So does a clamp, which compares both numbers with one bound. -/
theorem clamp (h : Ordered x y) (hw : w.Positive) : Ordered (x.clamp 0 w) (y.clamp 0 w) := by
  have hNumber : w.code ≤ infinityCode := Nat.le_of_lt hw.finite
  have hLe := h.code_le
  obtain ⟨hLeft, hRight⟩ := lt_eq h hw
  simp only [Binary32.clamp, lt_zero h.left, lt_zero h.right, Bool.false_eq_true, if_false, hLeft,
    hRight, decide_eq_true_eq]
  split
  · rw [if_pos (by omega)]
    exact ⟨hw.sign, hw.sign, Nat.le_refl _, hNumber⟩
  · next hBelow =>
    split
    · exact ⟨h.left, hw.sign, by omega, hNumber⟩
    · exact h

/-- A greater number is stored as no smaller byte. -/
theorem toUInt8 (h : Ordered x y) : x.toUInt8 ≤ y.toUInt8 := by
  rw [UInt8.le_iff_toNat_le, toNat_toUInt8 h.left h.isNaN_left, toNat_toUInt8 h.right h.isNaN_right]
  cases hInfinite : y.isInfinite with
  | true =>
      rw [if_pos rfl]
      split
      · exact Nat.le_refl _
      · exact Nat.min_le_left ..
  | false =>
      have hQuotient := Nat.div_le_div_right (c := one) h.magnitude_le
      rw [h.isInfinite_left hInfinite, if_neg Bool.false_ne_true, if_neg Bool.false_ne_true]
      omega

end Ordered

end Binary32

theorem positive_probabilityMax : probabilityMax.Positive := by decide

theorem positive_one : (Binary32.ofInt 1).Positive := by decide

/-- A greater probability is stored as no smaller byte: every step on the way from the one to the
other keeps the order. -/
theorem quantizeProbability_mono {x y : Binary32} (h : x.Ordered y) :
    quantizeProbability x ≤ quantizeProbability y :=
  ((h.mul positive_probabilityMax).roundHalfAway.clamp positive_probabilityMax).toUInt8

end QuantAttention
