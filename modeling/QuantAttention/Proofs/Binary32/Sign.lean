import QuantAttention.Proofs.Exponential

/-! Numbers that differ in nothing but their sign. Products, quotients, rounding and a clamp between
opposite bounds carry them to such numbers again, infinities and what is not a number included. -/

namespace QuantAttention

namespace Binary32

variable {x y w : Binary32} {c : Nat}

/-- Two numbers of one magnitude and of opposite signs. A zero, and what is not a number, may have
either sign. -/
structure Mirrored (x y : Binary32) : Prop where
  code_eq : y.code = x.code
  sign : x.code = 0 ∨ infinityCode < x.code ∨ y.negative = !x.negative

/-- Two numbers of one code are mirrored if their signs differ, or if they are zero. -/
theorem mirrored_ofCode {left right : Bool} (hCode : c ≤ infinityCode)
    (hSign : c = 0 ∨ right = !left) : Mirrored (ofCode left c) (ofCode right c) where
  code_eq := by rw [code_ofCode hCode, code_ofCode hCode]
  sign := by
    rw [code_ofCode hCode, negative_ofCode hCode, negative_ofCode hCode]
    exact hSign.imp_right .inr

theorem mirrored_nan : Mirrored nan nan := ⟨rfl, .inr (.inl (by decide))⟩

theorem magnitude_of_isZero (hZero : x.isZero = true) : x.magnitude = 0 := by
  have hCode : x.code = 0 := of_decide_eq_true hZero
  rw [magnitude, hCode]
  rfl

theorem isNaN_neg (hx : x.isNaN = false) : (-x).isNaN = false := by
  have hCode : x.code ≤ infinityCode := Nat.not_lt.1 (of_decide_eq_false hx)
  show decide (infinityCode < (neg x).code) = false
  rw [neg, code_ofCode hCode]
  exact hx

/-- The opposite of a number has the opposite rank. Both zeros have the rank zero. -/
theorem rank_neg (hx : x.isNaN = false) : (-x).rank = -x.rank := by
  have hCode : x.code ≤ infinityCode := Nat.not_lt.1 (of_decide_eq_false hx)
  show (neg x).rank = _
  rw [neg, rank, rank, negative_ofCode hCode, code_ofCode hCode]
  cases x.negative <;> simp

theorem rank_eq (hSign : x.negative = false) : x.rank = x.code := by
  rw [rank, hSign, if_neg Bool.false_ne_true]

/-- Dropping the sign leaves the code. -/
theorem code_abs (x : Binary32) : x.abs.code = x.code := by
  simp only [Binary32.abs, ofCode, code, Bool.false_eq_true, if_false, UInt32.toNat_ofNat']
  omega

/-- The magnitudes below a bound, those of numbers alone. -/
theorem abs_le_iff (hw : w.Positive) : x.abs.le w = true ↔ x.code ≤ w.code := by
  have hFinite := hw.finite
  rw [le, hw.isNaN, rank_eq hw.sign, isNaN, code_abs]
  rcases Nat.lt_or_ge infinityCode x.code with hNaN | hNumber
  · rw [decide_eq_true hNaN]
    refine iff_of_false (by simp) ?_
    omega
  · rw [rank_eq (x := x.abs) (negative_ofCode hNumber), code_abs]
    simp [Nat.not_lt.2 hNumber]

/-- A clamp between opposite bounds, as a comparison of ranks. What is not a number passes it
unchanged. -/
theorem clamp_neg_eq (hw : w.Positive) (hx : x.isNaN = false) :
    x.clamp (-w) w = if x.rank < -(w.code : Int) then -w
      else if (w.code : Int) < x.rank then w else x := by
  have hPos := hw.code_pos
  have hRank := rank_eq hw.sign
  have hNegRank := rank_neg hw.isNaN
  have hBetween : w.lt (-w) = false := by
    rw [lt, hNegRank, hRank, decide_eq_false (by omega), Bool.and_false]
  have hBelow : x.lt (-w) = decide (x.rank < -(w.code : Int)) := by
    rw [lt, hx, isNaN_neg hw.isNaN, hNegRank, hRank]
    rfl
  have hAbove : w.lt x = decide ((w.code : Int) < x.rank) := by
    rw [lt, hx, hw.isNaN, hRank]
    rfl
  simp only [clamp, hBelow, decide_eq_true_eq]
  split
  · rw [hBetween, if_neg Bool.false_ne_true]
  · rw [hAbove]
    simp only [decide_eq_true_eq]

/-- Between opposite bounds lie only finite numbers that are no greater than the bounds. -/
theorem code_clamp_neg_le (hw : w.Positive) (hx : x.isNaN = false) :
    (x.clamp (-w) w).code ≤ w.code := by
  have hCode := Nat.le_of_lt hw.finite
  rw [clamp_neg_eq hw hx]
  split
  · show (neg w).code ≤ _
    rw [neg, code_ofCode hCode]
  · split
    · exact Nat.le_refl _
    · next hLow hHigh =>
      rw [rank] at hLow hHigh
      split at hLow
      · omega
      · next hSign =>
        rw [if_neg hSign] at hHigh
        omega

namespace Mirrored

variable (h : Mirrored x y)
include h

theorem isNaN_eq : y.isNaN = x.isNaN := by rw [isNaN, isNaN, h.code_eq]

theorem isInfinite_eq : y.isInfinite = x.isInfinite := by rw [isInfinite, isInfinite, h.code_eq]

theorem isZero_eq : y.isZero = x.isZero := by rw [isZero, isZero, h.code_eq]

theorem magnitude_eq : y.magnitude = x.magnitude := by rw [magnitude, magnitude, h.code_eq]

theorem abs_eq : y.abs = x.abs := by rw [Binary32.abs, Binary32.abs, h.code_eq]

theorem symm : Mirrored y x where
  code_eq := h.code_eq.symm
  sign := by
    rw [h.code_eq]
    refine h.sign.imp_right (Or.imp_right fun hSign => ?_)
    rw [hSign, Bool.not_not]

/-- The signs differ where they mean something, that is for every number other than zero. -/
theorem negative_eq (hx : x.isNaN = false) (hZero : x.isZero = false) :
    y.negative = !x.negative := by
  rcases h.sign with hCode | hCode | hSign
  · simp [isZero, hCode] at hZero
  · simp [isNaN, hCode] at hx
  · exact hSign

theorem rank_eq (hx : x.isNaN = false) : y.rank = -x.rank := by
  cases hZero : x.isZero with
  | true =>
      have hCode : x.code = 0 := of_decide_eq_true hZero
      simp [rank, h.code_eq, hCode]
  | false =>
      rw [rank, rank, h.code_eq, h.negative_eq hx hZero]
      cases x.negative <;> simp

theorem units_eq (hx : x.isNaN = false) : y.units = -x.units := by
  cases hZero : x.isZero with
  | true =>
      have hCode : x.code = 0 := of_decide_eq_true hZero
      simp [units, magnitude, h.code_eq, hCode, magnitudeOfCode]
  | false =>
      rw [units, units, h.magnitude_eq, h.negative_eq hx hZero]
      cases x.negative <;> simp

/-- Rounded ratios with the signs of mirrored numbers. What belongs to a zero is zero. -/
theorem ofRatio (num den : Nat) (p : Bool) (hx : x.isNaN = false)
    (hZero : x.isZero = true → roundCode num den = 0) :
    Mirrored (ofRatio (x.negative != p) num den) (ofRatio (y.negative != p) num den) := by
  refine mirrored_ofCode (roundCode_le ..) ?_
  cases hIsZero : x.isZero with
  | true => exact .inl (hZero hIsZero)
  | false =>
      rw [h.negative_eq hx hIsZero]
      exact .inr (by cases x.negative <;> cases p <;> rfl)

theorem infinity (p : Bool) (hx : x.isNaN = false) (hZero : x.isZero = false) :
    Mirrored (infinity (x.negative != p)) (Binary32.infinity (y.negative != p)) := by
  refine mirrored_ofCode (Nat.le_refl _) (.inr ?_)
  rw [h.negative_eq hx hZero]
  cases x.negative <;> cases p <;> rfl

/-- Mirrored numbers have mirrored products with any number, also where these are infinite or no
numbers. -/
theorem mul (w : Binary32) : Mirrored (x * w) (y * w) := by
  change Mirrored (Binary32.mul x w) (Binary32.mul y w)
  simp only [Binary32.mul, h.isNaN_eq, h.isInfinite_eq, h.isZero_eq, h.magnitude_eq]
  split
  · exact mirrored_nan
  · next hNumbers =>
    rw [Bool.or_eq_true, not_or, Bool.not_eq_true, Bool.not_eq_true] at hNumbers
    split
    · split
      · exact mirrored_nan
      · next hZeros =>
        rw [Bool.or_eq_true, not_or, Bool.not_eq_true, Bool.not_eq_true] at hZeros
        exact h.infinity w.negative hNumbers.1 hZeros.1
    · refine h.ofRatio _ _ w.negative hNumbers.1 fun hZero => ?_
      rw [magnitude_of_isZero hZero, Nat.zero_mul, roundCode_zero]

/-- They have mirrored quotients as well. -/
theorem div (w : Binary32) : Mirrored (x / w) (y / w) := by
  change Mirrored (Binary32.div x w) (Binary32.div y w)
  simp only [Binary32.div, h.isNaN_eq, h.isInfinite_eq, h.isZero_eq, h.magnitude_eq]
  split
  · exact mirrored_nan
  · next hNumbers =>
    rw [Bool.or_eq_true, not_or, Bool.not_eq_true, Bool.not_eq_true] at hNumbers
    split
    · next hInfinite =>
      split
      · exact mirrored_nan
      · refine h.infinity w.negative hNumbers.1 ?_
        have hCode : x.code = infinityCode := of_decide_eq_true hInfinite
        simp [isZero, hCode, infinityCode]
    · split
      · exact mirrored_ofCode (Nat.zero_le _) (.inl rfl)
      · split
        · split
          · exact mirrored_nan
          · next hZero => exact h.infinity w.negative hNumbers.1 (Bool.eq_false_iff.2 hZero)
        · refine h.ofRatio _ _ w.negative hNumbers.1 fun hZero => ?_
          rw [magnitude_of_isZero hZero, Nat.zero_mul, roundCode_zero]

/-- Rounding goes away from zero on both sides, so it keeps numbers mirrored. Rounding half up would
not. -/
theorem roundHalfAway : Mirrored x.roundHalfAway y.roundHalfAway := by
  simp only [Binary32.roundHalfAway, h.isNaN_eq, h.isInfinite_eq, h.magnitude_eq]
  split
  · exact mirrored_nan
  · next hNumber =>
    split
    · exact h
    · have hRatio := h.ofRatio ((x.magnitude + one / 2) / one * one) 1 false
        (Bool.eq_false_iff.2 hNumber) fun hZero => by
          rw [magnitude_of_isZero hZero, Nat.zero_add,
            Nat.div_eq_of_lt (Nat.div_lt_self one_pos (by decide)), Nat.zero_mul, roundCode_zero]
      rwa [Bool.bne_false, Bool.bne_false] at hRatio

/-- A clamp between opposite bounds keeps numbers mirrored. -/
theorem clamp (hw : w.Positive) : Mirrored (x.clamp (-w) w) (y.clamp (-w) w) := by
  cases hx : x.isNaN with
  | true => rwa [clamp_of_isNaN hx, clamp_of_isNaN (h.isNaN_eq.trans hx)]
  | false =>
      have hBounds : Mirrored (-w) w := by
        have hCode := Nat.le_of_lt hw.finite
        refine ⟨(code_ofCode hCode).symm, .inr (.inr ?_)⟩
        show w.negative = !(neg w).negative
        rw [neg, negative_ofCode hCode, Bool.not_not]
      have hPos := hw.code_pos
      rw [clamp_neg_eq hw hx, clamp_neg_eq hw (h.isNaN_eq.trans hx), h.rank_eq hx]
      by_cases hLow : x.rank < -(w.code : Int)
      · rw [if_pos hLow, if_neg (by omega), if_pos (by omega)]
        exact hBounds
      · by_cases hHigh : (w.code : Int) < x.rank
        · rw [if_neg hLow, if_pos hHigh, if_pos (by omega)]
          exact hBounds.symm
        · rw [if_neg hLow, if_neg hHigh, if_neg (by omega), if_neg (by omega)]
          exact h

end Mirrored

/-- The numbers of an integer and of its opposite, which are rounded alike. -/
theorem mirrored_ofInt (n : Int) : Mirrored (ofInt n) (ofInt (-n)) := by
  have hOne := one_pos
  rw [ofInt, ofInt, Int.neg_mul, ofUnits, ofUnits]
  by_cases hZero : n * one = 0
  · rw [if_pos hZero, if_pos (by omega)]
    exact mirrored_ofCode (Nat.zero_le _) (.inl rfl)
  · rw [if_neg hZero, if_neg (by omega), Int.natAbs_neg]
    refine mirrored_ofCode (roundCode_le ..) (.inr ?_)
    rw [← decide_not, decide_eq_decide]
    omega

end Binary32

end QuantAttention
