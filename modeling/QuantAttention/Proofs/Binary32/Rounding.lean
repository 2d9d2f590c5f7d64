import Mathlib.Algebra.Ring.Nat
import QuantAttention.Binary32.Arithmetic

/-! Rounding keeps order. Codes and the magnitudes they stand for are ordered alike, and a greater
ratio never rounds to a smaller code. -/

namespace QuantAttention

namespace Binary32

variable {num₁ den₁ num₂ den₂ : Nat}

/-- The nearest integer by cases: the remainder is less than half of the divisor, or one half
exactly, where the even neighbour is taken, or more. -/
theorem nearestEven_cases (num den : Nat) :
    2 * (num % den) < den ∧ nearestEven num den = num / den ∨
      2 * (num % den) = den ∧ nearestEven num den = num / den + num / den % 2 ∨
      den < 2 * (num % den) ∧ nearestEven num den = num / den + 1 := by
  simp only [nearestEven]
  split
  · next hBelow => exact Or.inl ⟨hBelow, rfl⟩
  · split
    · next hAbove => exact Or.inr (Or.inr ⟨hAbove, rfl⟩)
    · exact Or.inr (Or.inl ⟨by omega, rfl⟩)

/-- The nearest integer is the quotient or the integer that follows it. -/
theorem nearestEven_bounds (num den : Nat) :
    num / den ≤ nearestEven num den ∧ nearestEven num den ≤ num / den + 1 := by
  rcases nearestEven_cases num den with h | h | h <;> omega

theorem div_le_div_of_mul_le (hDen₁ : 0 < den₁) (hDen₂ : 0 < den₂)
    (h : num₁ * den₂ ≤ num₂ * den₁) : num₁ / den₁ ≤ num₂ / den₂ := by
  rw [Nat.le_div_iff_mul_le hDen₂]
  refine Nat.le_of_mul_le_mul_right ?_ hDen₁
  calc num₁ / den₁ * den₂ * den₁ = num₁ / den₁ * den₁ * den₂ := Nat.mul_right_comm ..
    _ ≤ num₁ * den₂ := Nat.mul_le_mul_right _ (Nat.div_mul_le_self ..)
    _ ≤ num₂ * den₁ := h

/-- A greater ratio has no smaller nearest integer. Where both quotients are the same, the
remainders decide, and a tie is broken in the same way for both. -/
theorem nearestEven_mono (hDen₁ : 0 < den₁) (hDen₂ : 0 < den₂)
    (h : num₁ * den₂ ≤ num₂ * den₁) : nearestEven num₁ den₁ ≤ nearestEven num₂ den₂ := by
  have hLow := nearestEven_bounds num₂ den₂
  have hHigh := nearestEven_bounds num₁ den₁
  rcases Nat.lt_or_eq_of_le (div_le_div_of_mul_le hDen₁ hDen₂ h) with hLt | hSame
  · omega
  · -- With equal quotients the remainders are ordered as the ratios are.
    have hRest : num₁ % den₁ * den₂ ≤ num₂ % den₂ * den₁ := by
      have hSplit₁ := Nat.div_add_mod num₁ den₁
      have hSplit₂ := Nat.div_add_mod num₂ den₂
      rw [← hSplit₁, ← hSplit₂, hSame, Nat.add_mul, Nat.add_mul,
        Nat.mul_right_comm den₁, Nat.mul_right_comm den₂, Nat.mul_comm den₁ den₂] at h
      omega
    have hBelow (hRest₂ : 2 * (num₂ % den₂) < den₂) : 2 * (num₁ % den₁) < den₁ := by
      apply Nat.lt_of_mul_lt_mul_right (a := den₂)
      have hScaled := Nat.mul_lt_mul_of_pos_right hRest₂ hDen₁
      rw [Nat.mul_assoc] at hScaled ⊢
      rw [Nat.mul_comm den₁]
      omega
    have hHalf (hRest₂ : 2 * (num₂ % den₂) ≤ den₂) : 2 * (num₁ % den₁) ≤ den₁ := by
      refine Nat.le_of_mul_le_mul_right ?_ hDen₂
      have hScaled := Nat.mul_le_mul_right den₁ hRest₂
      rw [Nat.mul_assoc] at hScaled ⊢
      rw [Nat.mul_comm den₁]
      omega
    rcases nearestEven_cases num₂ den₂ with ⟨hRest₂, hValue₂⟩ | ⟨hRest₂, hValue₂⟩ | ⟨-, hValue₂⟩
    · have hRest₁ := hBelow hRest₂
      rcases nearestEven_cases num₁ den₁ with h₁ | h₁ | h₁ <;> omega
    · have hRest₁ := hHalf (Nat.le_of_eq hRest₂)
      rcases nearestEven_cases num₁ den₁ with h₁ | h₁ | h₁ <;> omega
    · omega

/-- How many bits of the quotient are rounded away. -/
def roundShift (num den : Nat) : Nat := (num / den).log2 - 23

theorem roundCode_eq (num den : Nat) :
    roundCode num den = min (roundShift num den * 8388608 +
      nearestEven num (den * 2 ^ roundShift num den)) infinityCode := rfl

/-- A greater ratio loses no fewer bits when it is rounded. -/
theorem roundShift_mono (hDen₁ : 0 < den₁) (hDen₂ : 0 < den₂) (h : num₁ * den₂ ≤ num₂ * den₁) :
    roundShift num₁ den₁ ≤ roundShift num₂ den₂ := by
  have hQuotient := div_le_div_of_mul_le hDen₁ hDen₂ h
  rcases Nat.eq_zero_or_pos (num₁ / den₁) with hZero | hPos
  · simp [roundShift, hZero]
  · have hLog : (num₁ / den₁).log2 ≤ (num₂ / den₂).log2 := by
      rw [Nat.le_log2 (by omega)]
      exact Nat.le_trans (Nat.log2_self_le (by omega)) hQuotient
    simp only [roundShift]
    omega

/-- The significand has at most 24 bits or is `2 ^ 24`. -/
theorem nearestEven_roundShift_le (num den : Nat) :
    nearestEven num (den * 2 ^ roundShift num den) ≤ 16777216 := by
  have hQuotient : num / den / 2 ^ roundShift num den < 16777216 := by
    rw [Nat.div_lt_iff_lt_mul (Nat.two_pow_pos _)]
    apply Nat.lt_of_lt_of_le Nat.lt_log2_self
    rw [show (16777216 : Nat) = 2 ^ 24 from rfl, ← Nat.pow_add]
    apply Nat.pow_le_pow_right (by decide)
    simp only [roundShift]
    omega
  have hHigh := (nearestEven_bounds num (den * 2 ^ roundShift num den)).2
  rw [← Nat.div_div_eq_div_mul] at hHigh
  omega

/-- A significand from which bits were rounded away has all 24 bits. -/
theorem le_nearestEven_roundShift (num den : Nat) (hShift : 0 < roundShift num den) :
    8388608 ≤ nearestEven num (den * 2 ^ roundShift num den) := by
  have hLog : (num / den).log2 = roundShift num den + 23 := by
    simp only [roundShift] at hShift ⊢
    omega
  have hPos : num / den ≠ 0 := by
    intro hZero
    rw [hZero, Nat.log2_zero] at hLog
    omega
  have hQuotient : 8388608 ≤ num / den / 2 ^ roundShift num den := by
    rw [Nat.le_div_iff_mul_le (Nat.two_pow_pos _)]
    refine Nat.le_trans (Nat.le_of_eq ?_) (Nat.log2_self_le hPos)
    rw [hLog, Nat.add_comm, Nat.pow_add]
  have hLow := (nearestEven_bounds num (den * 2 ^ roundShift num den)).1
  rw [← Nat.div_div_eq_div_mul] at hLow
  omega

/-- A greater ratio does not round to a smaller code. With an equal shift the significands decide,
and with a greater one the bounds on significands do. -/
theorem roundCode_mono (hDen₁ : 0 < den₁) (hDen₂ : 0 < den₂) (h : num₁ * den₂ ≤ num₂ * den₁) :
    roundCode num₁ den₁ ≤ roundCode num₂ den₂ := by
  rw [roundCode_eq, roundCode_eq]
  refine Nat.le_min.2 ⟨Nat.le_trans (Nat.min_le_left ..) ?_, Nat.min_le_right ..⟩
  rcases Nat.lt_or_eq_of_le (roundShift_mono hDen₁ hDen₂ h) with hLt | hSame
  · have hHigh := nearestEven_roundShift_le num₁ den₁
    have hLow := le_nearestEven_roundShift num₂ den₂ (by omega)
    omega
  · have hNearest : nearestEven num₁ (den₁ * 2 ^ roundShift num₁ den₁) ≤
        nearestEven num₂ (den₂ * 2 ^ roundShift num₂ den₂) := by
      rw [hSame]
      refine nearestEven_mono (Nat.mul_pos hDen₁ (Nat.two_pow_pos _))
        (Nat.mul_pos hDen₂ (Nat.two_pow_pos _)) ?_
      rw [← Nat.mul_assoc, ← Nat.mul_assoc]
      exact Nat.mul_le_mul_right _ h
    omega

theorem roundCode_zero (den : Nat) : roundCode 0 den = 0 := by
  simp [roundCode_eq, roundShift, nearestEven]

theorem roundCode_le (num den : Nat) : roundCode num den ≤ infinityCode := Nat.min_le_right ..

/-- Greater codes stand for greater magnitudes, since the exponent stands above the significand in a
code. -/
theorem magnitudeOfCode_mono {c₁ c₂ : Nat} (h : c₁ ≤ c₂) :
    magnitudeOfCode c₁ ≤ magnitudeOfCode c₂ := by
  have hMod₁ := Nat.mod_lt c₁ (by decide : 0 < 8388608)
  simp only [magnitudeOfCode]
  split
  · next hSmall =>
    split
    · exact h
    · have hPow := Nat.two_pow_pos (c₂ / 8388608 - 1)
      exact Nat.le_trans (by omega) (Nat.le_mul_of_pos_right _ hPow)
  · next hNormal =>
    rw [if_neg (by omega)]
    rcases Nat.lt_or_eq_of_le (Nat.div_le_div_right (c := 8388608) h) with hLt | hSame
    · -- The next exponent doubles even the greatest significand's power.
      have hStep : c₁ / 8388608 - 1 + 1 ≤ c₂ / 8388608 - 1 := by omega
      calc (8388608 + c₁ % 8388608) * 2 ^ (c₁ / 8388608 - 1)
          ≤ (8388608 * 2) * 2 ^ (c₁ / 8388608 - 1) := Nat.mul_le_mul_right _ (by omega)
        _ = 8388608 * 2 ^ (c₁ / 8388608 - 1 + 1) := by rw [Nat.mul_assoc, Nat.pow_succ, Nat.mul_comm 2]
        _ ≤ 8388608 * 2 ^ (c₂ / 8388608 - 1) :=
          Nat.mul_le_mul_left _ (Nat.pow_le_pow_right (by decide) hStep)
        _ ≤ (8388608 + c₂ % 8388608) * 2 ^ (c₂ / 8388608 - 1) :=
          Nat.mul_le_mul_right _ (by omega)
    · rw [hSame]
      exact Nat.mul_le_mul_right _ (by omega)

theorem magnitudeOfCode_pos {c : Nat} (h : 0 < c) : 0 < magnitudeOfCode c := by
  simp only [magnitudeOfCode]
  split
  · exact h
  · exact Nat.mul_pos (by omega) (Nat.two_pow_pos _)

end Binary32

end QuantAttention
