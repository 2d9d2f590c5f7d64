import QuantAttention.Proofs.Binary32.Sign

/-! The approximate exponential keeps the order of numbers. Within one binade the polynomial does, and
the polynomial is below two, so no value of a binade is above the power of two at which the next one
begins. -/

namespace QuantAttention

namespace Binary32

variable {x y w low high : Binary32}

/-- Values compare if both are numbers, and then their ranks decide. -/
theorem le_eq_true :
    x.le y = true ↔ (x.isNaN = false ∧ y.isNaN = false) ∧ x.rank ≤ y.rank := by
  simp [Binary32.le]

/-- A clamp in terms of ranks: the rank is clamped between those of the bounds. -/
theorem rank_clamp (hx : x.isNaN = false) (hLow : low.isNaN = false) (hHigh : high.isNaN = false) :
    (x.clamp low high).rank = min high.rank (max low.rank x.rank) := by
  have hRaised : (if x.lt low = true then low else x).isNaN = false ∧
      (if x.lt low = true then low else x).rank = max low.rank x.rank := by
    simp only [lt, hx, hLow, Bool.not_false, Bool.true_and, decide_eq_true_eq]
    split
    · exact ⟨hLow, by omega⟩
    · exact ⟨hx, by omega⟩
  rw [clamp]
  generalize (if x.lt low = true then low else x) = y at hRaised
  obtain ⟨hNaN, hRank⟩ := hRaised
  simp only [lt, hHigh, hNaN, Bool.not_false, Bool.true_and, decide_eq_true_eq]
  split <;> omega

/-- The rank of a number is its code with the sign. -/
theorem rank_ofCode {negative : Bool} {c : Nat} (h : c ≤ infinityCode) :
    (ofCode negative c).rank = if negative then -(c : Int) else c := by
  rw [rank, negative_ofCode h, code_ofCode h]

/-- What grows with the code of a number, from zero on, keeps the order of numbers if it takes over
their signs. -/
theorem signed_le_signed {f : Nat → Nat} (hMono : ∀ c d, c ≤ d → f c ≤ f d) (hZero : f 0 = 0)
    (h : x.rank ≤ y.rank) : (if x.negative then -(f x.code : Int) else f x.code) ≤
      if y.negative then -(f y.code : Int) else f y.code := by
  rw [rank, rank] at h
  cases hxSign : x.negative with
  | true =>
      cases hySign : y.negative with
      | true =>
          simp only [hxSign, hySign, if_true] at h ⊢
          have hLe := hMono y.code x.code (by omega)
          omega
      | false =>
          simp only [if_true, Bool.false_eq_true, if_false]
          omega
  | false =>
      cases hySign : y.negative with
      | true =>
          -- Only zeros are ordered like this.
          simp only [hxSign, hySign, if_true, Bool.false_eq_true, if_false] at h ⊢
          rw [show x.code = 0 by omega, show y.code = 0 by omega, hZero]
          omega
      | false =>
          simp only [hxSign, hySign, Bool.false_eq_true, if_false] at h ⊢
          have hLe := hMono x.code y.code (by omega)
          omega

/-- The values of numbers are ordered as their ranks are. -/
theorem units_le_units (h : x.rank ≤ y.rank) : x.units ≤ y.units :=
  signed_le_signed (fun _ _ => magnitudeOfCode_mono) rfl h

/-- A positive factor keeps the order of finite numbers. -/
theorem rank_mul_le (hx : x.isFinite = true) (hy : y.isFinite = true) (hw : w.Positive)
    (h : x.rank ≤ y.rank) : (x * w).rank ≤ (y * w).rank := by
  have hwFinite : w.isFinite = true := decide_eq_true hw.finite
  have hRound (c d : Nat) (hCode : c ≤ d) :
      roundCode (magnitudeOfCode c * w.magnitude) one ≤
        roundCode (magnitudeOfCode d * w.magnitude) one :=
    roundCode_mono one_pos one_pos
      (Nat.mul_le_mul_right _ (Nat.mul_le_mul_right _ (magnitudeOfCode_mono hCode)))
  have hZero : roundCode (magnitudeOfCode 0 * w.magnitude) one = 0 := by
    rw [show magnitudeOfCode 0 = 0 from rfl, Nat.zero_mul, roundCode_zero]
  rw [mul_eq_ofRatio hx hwFinite, mul_eq_ofRatio hy hwFinite, hw.sign, ofRatio, ofRatio,
    rank_ofCode (roundCode_le ..), rank_ofCode (roundCode_le ..), Bool.bne_false, Bool.bne_false]
  exact signed_le_signed (f := fun c => roundCode (magnitudeOfCode c * w.magnitude) one) hRound hZero h

theorem Ordered.le (h : x.Ordered y) : x.le y = true := by
  have hCode := h.code_le
  rw [Binary32.le, h.isNaN_left, h.isNaN_right, rank_eq h.left, rank_eq h.right]
  simpa using hCode

theorem Ordered.trans {z : Binary32} (h : x.Ordered y) (k : y.Ordered z) : x.Ordered z :=
  ⟨h.left, k.right, Nat.le_trans h.code_le k.code_le, k.number⟩

end Binary32

open Binary32

namespace Exponential

/-- The binary exponent of an argument. -/
def exponent (x : Binary32) : Binary32 := x.clamp low high * log2e

/-- The whole part of the exponent as it is put into the bits of a number. -/
def shiftedExponent (x : Binary32) : Int := (exponent x).floor.toInt32 + 127

/-- The magnitude of a power of two, counted in the least positive number. -/
theorem magnitude_wholePower {n : Int} (hLow : -126 ≤ n) (hHigh : n ≤ 127) :
    (wholePower n).magnitude = 8388608 * 2 ^ (n + 126).toNat := by
  obtain ⟨-, hCode⟩ := wholePower_code hLow hHigh
  have hShift : (n + 127).toNat = (n + 126).toNat + 1 := by omega
  rw [magnitude, hCode, hShift, magnitudeOfCode, if_neg (by omega), Nat.mul_mod_left, Nat.add_zero,
    Nat.mul_div_cancel _ (by decide), Nat.add_sub_cancel]
  rfl

/-- A factor that is not above the polynomial's value at one is finite. -/
theorem isFinite_of_fractionPower {p : Binary32} (h : p.Ordered (fractionPower (.ofInt 1))) :
    p.isFinite = true :=
  decide_eq_true (Nat.lt_of_le_of_lt h.code_le (by decide +kernel))

/-- The polynomial is below two, so a binade ends before the next one begins. -/
theorem wholePower_mul_le_succ {n : Int} {p : Binary32} (hLow : -126 ≤ n) (hHigh : n ≤ 126)
    (hPower : p.Ordered (fractionPower (.ofInt 1))) :
    (wholePower n * p).Ordered (wholePower (n + 1)) := by
  obtain ⟨hSign, -, hFinite⟩ := wholePower_normal hLow (by omega)
  obtain ⟨hNextSign, -, hNextFinite⟩ := wholePower_normal (by omega : -126 ≤ n + 1) (by omega)
  have hBelowTwo : p.magnitude ≤ 2 * one :=
    Nat.le_trans hPower.magnitude_le (by decide +kernel)
  have hProduct : (wholePower n).magnitude * p.magnitude ≤ (wholePower (n + 1)).magnitude * one := by
    rw [magnitude_wholePower hLow (by omega), magnitude_wholePower (by omega) (by omega),
      show (n + 1 + 126).toNat = (n + 126).toNat + 1 by omega, Nat.pow_succ]
    calc 8388608 * 2 ^ (n + 126).toNat * p.magnitude
        ≤ 8388608 * 2 ^ (n + 126).toNat * (2 * one) := Nat.mul_le_mul_left _ hBelowTwo
      _ = 8388608 * (2 ^ (n + 126).toNat * 2) * one := by
        rw [← Nat.mul_assoc, Nat.mul_assoc 8388608]
  rw [mul_eq_ofRatio hFinite (isFinite_of_fractionPower hPower), hSign, hPower.left, bne_self_eq_false,
    ← ofCode_code hNextSign, ← roundCode_magnitude hNextFinite]
  exact ordered_ofRatio one_pos Nat.one_pos (by rwa [Nat.mul_one])

/-- An argument, split into the whole part `n` of its exponent and what is left of it. -/
structure Split (x : Binary32) (n : Int) (rest : Nat) : Prop where
  whole_low : -126 ≤ n
  whole_high : n ≤ 126
  rest_lt : rest < one
  units_eq : (exponent x).units = n * one + rest
  shiftedExponent_eq : shiftedExponent x = n + 127
  approxExp_eq : approxExp x = wholePower n * fractionPower (ofRatio false rest 1)

variable {x y : Binary32} {n m : Int} {rest other : Nat}

/-- Every number has an exponent that is split into an integer and a rest between zero and one, and
its exponential is put together from the two. -/
theorem exists_split (hx : x.isNaN = false) : ∃ n rest, Split x n rest := by
  obtain ⟨-, hLow, hHigh⟩ := clamp_bounds low high hx (by decide) (by decide)
    (by decide)
  obtain ⟨hFinite, hAbove, hBelow⟩ : (exponent x).isFinite = true ∧
      -(126 * one : Int) ≤ (exponent x).units ∧ (exponent x).units < 127 * one :=
    exponent_bounds hLow hHigh
  have hOne : (0 : Int) < one := Int.natCast_pos.2 Binary32.one_pos
  have hFdiv := Int.fdiv_eq_ediv_of_nonneg (exponent x).units (Int.le_of_lt hOne)
  have hWholeLow : -126 ≤ (exponent x).units / one := by
    rw [Int.le_ediv_iff_mul_le hOne]
    omega
  have hWholeHigh : (exponent x).units / one < 127 := Int.ediv_lt_of_lt_mul hOne hBelow
  obtain ⟨hFloor, hUnits⟩ : (exponent x).floor.isFinite = true ∧
      (exponent x).floor.units = (exponent x).units.fdiv one * one :=
    floor_spec hFinite (by omega)
  have hWhole : (exponent x).floor.toInt32 = (exponent x).units / one := by
    rw [← hFdiv]
    exact toInt32_eq hFloor hUnits (by omega) (by omega)
  have hNonneg := Int.emod_nonneg (exponent x).units (Int.ne_of_gt hOne)
  have hLess := Int.emod_lt_of_pos (exponent x).units hOne
  refine ⟨(exponent x).units / one, ((exponent x).units % one).toNat, hWholeLow, by omega, by omega,
    ?_, ?_, ?_⟩
  · rw [Int.toNat_of_nonneg hNonneg]
    exact (Int.ediv_mul_add_emod ..).symm
  · rw [shiftedExponent, hWhole]
  · rw [← fractionPower_sub_floor hFinite hFloor hUnits, ← hWhole]
    rfl

namespace Split

/-- The polynomial in the rest is at least one, and not above its value at one. -/
theorem ordered_fractionPower (h : Split x n rest) :
    (fractionPower (ofRatio false rest 1)).Ordered (fractionPower (.ofInt 1)) ∧
      (Binary32.ofInt 1).code ≤ (fractionPower (ofRatio false rest 1)).code := by
  have hRest : ((rest : Int) % one).toNat = rest := by
    rw [Int.emod_eq_of_lt (Int.natCast_nonneg _) (Int.ofNat_lt.2 h.rest_lt), Int.toNat_natCast]
  obtain ⟨hLow, hHigh⟩ := fractionPower_rest rest
  rw [hRest] at hLow hHigh
  exact ⟨hHigh, hLow⟩

/-- An exponential lies between the powers of two next to it. It may reach the upper one, but not
exceed it. -/
theorem between (h : Split x n rest) :
    (wholePower n).Ordered (approxExp x) ∧ (approxExp x).Ordered (wholePower (n + 1)) := by
  have hLow := h.whole_low
  have hHigh := h.whole_high
  obtain ⟨hPower, hOne⟩ := h.ordered_fractionPower
  obtain ⟨hSign, -, hFinite⟩ := wholePower_normal hLow (by omega)
  have hNext := wholePower_mul_le_succ hLow hHigh hPower
  rw [h.approxExp_eq]
  refine ⟨⟨hSign, hNext.left, le_code_mul hSign hPower.left hFinite hOne, ?_⟩, hNext⟩
  exact Nat.le_trans hNext.code_le hNext.number

/-- A smaller exponent has a smaller exponential: in the same binade by the polynomial, else because
the next binade has begun. -/
theorem ordered (h : Split x n rest) (k : Split y m other)
    (hUnits : (exponent x).units ≤ (exponent y).units) : (approxExp x).Ordered (approxExp y) := by
  have hOne : (0 : Int) < one := Int.natCast_pos.2 Binary32.one_pos
  have hRest := h.rest_lt
  have hOther := k.rest_lt
  rw [h.units_eq, k.units_eq] at hUnits
  have hWhole : n ≤ m := by
    by_contra hAbove
    have hGap : (m + 1) * (one : Int) ≤ n * one :=
      Int.mul_le_mul_of_nonneg_right (by omega) (Int.le_of_lt hOne)
    rw [Int.add_mul, Int.one_mul] at hGap
    omega
  rcases Int.lt_or_eq_of_le hWhole with hNext | rfl
  · have hBinades : (wholePower (n + 1)).Ordered (wholePower m) :=
      wholePower_mono (by have := h.whole_low; omega) (by omega) (by have := k.whole_high; omega)
    exact h.between.2.trans (hBinades.trans k.between.1)
  · obtain ⟨hPower, -⟩ := k.ordered_fractionPower
    have hFraction : (fractionPower (ofRatio false rest 1)).Ordered
        (fractionPower (ofRatio false other 1)) := by
      apply fractionPower_mono
      · exact ordered_ofRatio Nat.one_pos Nat.one_pos (Nat.mul_le_mul_right _ (by omega))
      · have hRatio : Binary32.ofInt 1 = ofRatio false one 1 := by decide
        rw [hRatio]
        exact ordered_ofRatio Nat.one_pos Nat.one_pos (Nat.mul_le_mul_right _ (Nat.le_of_lt hOther))
    obtain ⟨hSign, -, hFinite⟩ := wholePower_normal h.whole_low (by have := h.whole_high; omega)
    have hSame : (wholePower n).Ordered (wholePower n) :=
      ⟨hSign, hSign, Nat.le_refl _, Nat.le_of_lt (of_decide_eq_true hFinite)⟩
    rw [h.approxExp_eq, k.approxExp_eq]
    exact hSame.mul_mul hFraction hFinite (isFinite_of_fractionPower hPower)

end Split

/-- The exponents of numbers are ordered as the numbers are. Clamp and rounded product both keep the
order. -/
theorem exponent_units_mono (h : x.le y = true) : (exponent x).units ≤ (exponent y).units := by
  obtain ⟨⟨hx, hy⟩, hRank⟩ := le_eq_true.1 h
  have hLow : low.isNaN = false := by decide
  have hHigh : high.isNaN = false := by decide
  have hBounds : low.rank = -(low.code : Int) ∧ high.rank = high.code ∧ low.code < infinityCode ∧
      high.code < infinityCode := by decide
  have hFinite {z : Binary32} (hz : z.isNaN = false) : (z.clamp low high).isFinite = true := by
    have hClamp := rank_clamp hz hLow hHigh
    rw [isFinite, decide_eq_true_eq]
    rw [rank] at hClamp
    split at hClamp <;> omega
  have hClamps : (x.clamp low high).rank ≤ (y.clamp low high).rank := by
    rw [rank_clamp hx hLow hHigh, rank_clamp hy hLow hHigh]
    omega
  exact units_le_units (rank_mul_le (hFinite hx) (hFinite hy) (by decide) hClamps)

/-- The exponent that is put into the bits is that of a normal number, whatever the argument is. -/
theorem shiftedExponent_bounds (x : Binary32) : 1 ≤ shiftedExponent x ∧ shiftedExponent x ≤ 254 := by
  cases hNaN : x.isNaN with
  | true =>
      have hExponent : exponent x = nan := by
        rw [exponent, clamp_of_isNaN hNaN]
        change Binary32.mul x log2e = _
        rw [Binary32.mul, hNaN]
        rfl
      rw [shiftedExponent, hExponent]
      decide
  | false =>
      obtain ⟨n, rest, h⟩ := exists_split hNaN
      have hLow := h.whole_low
      have hHigh := h.whole_high
      rw [h.shiftedExponent_eq]
      omega

end Exponential

open Exponential

/-- The exponential of a greater number is not smaller. It may be the same, since it is rounded and
its argument clamped. -/
theorem approxExp_mono {x y : Binary32} (h : x.le y = true) : (approxExp x).Ordered (approxExp y) := by
  obtain ⟨⟨hxNumber, hyNumber⟩, -⟩ := le_eq_true.1 h
  obtain ⟨n, rest, hx⟩ := exists_split hxNumber
  obtain ⟨m, other, hy⟩ := exists_split hyNumber
  exact hx.ordered hy (exponent_units_mono h)

/-- The exponential of a number is finite, at least `2 ^ (-126)` and below `2 ^ 127`. -/
theorem approxExp_range {x : Binary32} (hx : x.isNaN = false) :
    (approxExp x).isFinite = true ∧ one ≤ 2 ^ 126 * (approxExp x).units ∧
      (approxExp x).units < 2 ^ 127 * one := by
  obtain ⟨n, rest, h⟩ := exists_split hx
  have hLow := h.whole_low
  have hHigh := h.whole_high
  obtain ⟨hPower, -⟩ := h.ordered_fractionPower
  have hAbove : 8388608 ≤ (approxExp x).magnitude := by
    refine Nat.le_trans ?_ h.between.1.magnitude_le
    rw [magnitude_wholePower hLow (by omega)]
    exact Nat.le_mul_of_pos_right _ (Nat.two_pow_pos _)
  have hGreatest : (approxExp x).Ordered (wholePower 126 * fractionPower (.ofInt 1)) := by
    rw [h.approxExp_eq]
    exact (wholePower_mono hLow hHigh (by decide)).mul_mul hPower (by decide)
      (by decide +kernel)
  have hBelow : (approxExp x).magnitude < 2 ^ 127 * one :=
    Nat.lt_of_le_of_lt hGreatest.magnitude_le (by decide +kernel)
  have hOne : one = 2 ^ 126 * 8388608 := by decide
  rw [units_eq hGreatest.left]
  refine ⟨(approxExp_of_number hx).2, ?_, ?_⟩
  · rw [hOne]
    exact_mod_cast Nat.mul_le_mul_left (2 ^ 126) hAbove
  · exact_mod_cast hBelow

end QuantAttention
