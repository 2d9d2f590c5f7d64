import QuantAttention.Proofs.Binary32.Error

/-! The approximate exponential is never small. The clamp keeps the whole exponent in the range of
normal numbers and the polynomial is at least one, so every exponential, of infinities and of what is
not a number too, is without a sign and at least the smallest normal number. -/

namespace QuantAttention

namespace Binary32

variable {x y : Binary32} {c : Nat}

/-- Numbers of which one is not below the other are ordered by their ranks. -/
theorem rank_le_of_lt (h : lt x y = false) (hx : x.isNaN = false) (hy : y.isNaN = false) :
    y.rank ≤ x.rank := by
  rw [lt, hx, hy] at h
  simpa using h

/-- The clamp of a number lies between the bounds. -/
theorem clamp_bounds (low high : Binary32) (hx : x.isNaN = false) (hLow : low.isNaN = false)
    (hHigh : high.isNaN = false) (hOrder : low.rank ≤ high.rank) :
    (x.clamp low high).isNaN = false ∧ low.rank ≤ (x.clamp low high).rank ∧
      (x.clamp low high).rank ≤ high.rank := by
  have hRaised : (if x.lt low = true then low else x).isNaN = false ∧
      low.rank ≤ (if x.lt low = true then low else x).rank := by
    split
    · exact ⟨hLow, Int.le_refl _⟩
    · next hAbove => exact ⟨hx, rank_le_of_lt (Bool.eq_false_iff.2 hAbove) hx hLow⟩
  rw [clamp]
  generalize (if x.lt low = true then low else x) = y at hRaised
  split
  · exact ⟨hHigh, hOrder, Int.le_refl _⟩
  · next hBelow =>
    exact ⟨hRaised.1, hRaised.2, rank_le_of_lt (Bool.eq_false_iff.2 hBelow) hHigh hRaised.1⟩

/-- A number between the bounds stays as it is. -/
theorem clamp_of_between {low high : Binary32} (hLow : low.rank ≤ x.rank)
    (hHigh : x.rank ≤ high.rank) : x.clamp low high = x := by
  have hRaised : x.lt low = false := by
    rw [lt, decide_eq_false (by omega), Bool.and_false]
  have hLowered : high.lt x = false := by
    rw [lt, decide_eq_false (by omega), Bool.and_false]
  rw [clamp, hRaised, if_neg Bool.false_ne_true, hLowered, if_neg Bool.false_ne_true]

/-- What is not a number passes a clamp: it is neither below a bound nor above one. -/
theorem clamp_of_isNaN {low high : Binary32} (hx : x.isNaN = true) : x.clamp low high = x := by
  simp [clamp, lt, hx]

theorem neg_isFinite (h : x.isFinite = true) : (neg x).isFinite = true :=
  isFinite_ofCode (of_decide_eq_true h)

theorem units_neg (h : x.isFinite = true) : (neg x).units = -x.units := by
  have hCode := Nat.le_of_lt (of_decide_eq_true h)
  rw [neg, units, negative_ofCode hCode, magnitude_ofCode hCode, units, magnitude]
  cases x.negative <;> simp

/-- The difference of finite numbers is the rounded difference of their values. Only the sign of a
zero depends on more than these. -/
theorem sub_eq (hx : x.isFinite = true) (hy : y.isFinite = true) :
    ∃ zeroNegative, x - y = ofUnits zeroNegative (x.units - y.units) := by
  obtain ⟨hxNaN, hxInfinite⟩ := isFinite_eq.1 hx
  obtain ⟨hyNaN, -⟩ := isFinite_eq.1 hy
  obtain ⟨hNegNaN, hNegInfinite⟩ := isFinite_eq.1 (neg_isFinite hy)
  refine ⟨x.negative && (neg y).negative, ?_⟩
  change Binary32.sub x y = _
  simp only [Binary32.sub, Binary32.add, hxNaN, hxInfinite, hyNaN, hNegNaN, hNegInfinite,
    Bool.or_self, Bool.false_eq_true, if_false, units_neg hy, Int.sub_eq_add_neg]

/-- The greatest integer below a number of moderate size is a number, so nothing is rounded here. -/
theorem floor_spec (h : x.isFinite = true) (hSmall : (x.units.fdiv one).natAbs ≤ 16777216) :
    x.floor.isFinite = true ∧ x.floor.units = x.units.fdiv one * one := by
  obtain ⟨hNaN, hInfinite⟩ := isFinite_eq.1 h
  rw [floor, hNaN, hInfinite, if_neg Bool.false_ne_true, if_neg Bool.false_ne_true]
  exact ofUnits_mul_one hSmall

/-- A number that is an integer in range is converted to that integer. -/
theorem toInt32_eq {n : Int} (h : x.isFinite = true) (hUnits : x.units = n * one)
    (hLow : -2147483648 ≤ n) (hHigh : n ≤ 2147483647) : x.toInt32 = n := by
  obtain ⟨hNaN, hInfinite⟩ := isFinite_eq.1 h
  have hOne : (one : Int) ≠ 0 := Int.natCast_ne_zero.2 (Nat.ne_of_gt one_pos)
  rw [toInt32, toIntWithin, hNaN, hInfinite, if_neg Bool.false_ne_true, if_neg Bool.false_ne_true,
    hUnits, Int.mul_tdiv_cancel _ hOne]
  omega

/-- A product with a number of at least one is not below the other factor. -/
theorem le_code_mul (hx : x.negative = false) (hy : y.negative = false) (hFinite : x.isFinite = true)
    (hOne : (ofInt 1).code ≤ y.code) : x.code ≤ (x * y).code := by
  have hFiniteCode := Nat.le_of_lt (of_decide_eq_true hFinite)
  rcases mul_cases hx hy with ⟨-, -, hProduct⟩ | ⟨-, hGreat⟩
  · have hMagnitude : one ≤ y.magnitude := by
      have hLe := magnitudeOfCode_mono hOne
      rwa [show magnitudeOfCode (ofInt 1).code = one by decide] at hLe
    rw [hProduct, code_ofCode (roundCode_le ..), ← roundCode_magnitude hFinite, Nat.mul_comm]
    refine roundCode_mono Nat.one_pos one_pos ?_
    rw [Nat.mul_one, Nat.mul_comm]
    exact Nat.mul_le_mul_right _ hMagnitude
  · exact Nat.le_trans hFiniteCode hGreat

end Binary32

open Binary32

namespace Exponential

/-- The polynomial is at least one, whatever rounding does to its terms, since it begins with a one
to which terms without a sign are added. -/
theorem fractionPower_bounds {f : Binary32} (h : f.negative = false) :
    (fractionPower f).negative = false ∧ (Binary32.ofInt 1).code ≤ (fractionPower f).code := by
  have hTail : (f * (coefficient1 + f * (coefficient2 + f * (coefficient3 + f *
      (coefficient4 + f * coefficient5))))).negative = false := by
    refine negative_mul h (negative_add rfl (negative_mul h (negative_add rfl (negative_mul h ?_))))
    exact negative_add rfl (negative_mul h (negative_add rfl (negative_mul h rfl)))
  have hOne : (Binary32.ofInt 1).negative = false := by decide
  exact ⟨negative_add hOne hTail, le_code_add hOne hTail (Or.inl (Nat.le_refl _)) (by decide)⟩

/-- The polynomial grows from zero to one, where none of its terms is infinite. -/
theorem fractionPower_mono {f g : Binary32} (h : f.Ordered g) (hOne : g.Ordered (.ofInt 1)) :
    (fractionPower f).Ordered (fractionPower g) := by
  -- A term is finite at `g` because it is finite at one, so it is compared with both.
  have hStep {c p q r : Binary32} (hc : c.Positive) (hp : p.Ordered q ∧ q.Ordered r)
      (hr : r.isFinite = true) :
      (c + f * p).Ordered (c + g * q) ∧ (c + g * q).Ordered (c + .ofInt 1 * r) := by
    have hFinite {x y : Binary32} (hLe : x.Ordered y) (hy : y.isFinite = true) : x.isFinite = true :=
      decide_eq_true (Nat.lt_of_le_of_lt hLe.code_le (of_decide_eq_true hy))
    have hConstant : c.Ordered c := ⟨hc.sign, hc.sign, Nat.le_refl _, Nat.le_of_lt hc.finite⟩
    constructor
    · exact hConstant.add (h.mul_mul hp.1 (hFinite hOne (by decide)) (hFinite hp.2 hr))
    · exact hConstant.add (hOne.mul_mul hp.2 (by decide) hr)
  have hLast : coefficient5.Ordered coefficient5 := ⟨rfl, rfl, Nat.le_refl _, by decide⟩
  have hFourth := hStep (c := coefficient4) (by decide) ⟨hLast, hLast⟩ (by decide)
  have hThird := hStep (c := coefficient3) (by decide) hFourth (by decide)
  have hSecond := hStep (c := coefficient2) (by decide) hThird (by decide)
  have hFirst := hStep (c := coefficient1) (by decide) hSecond (by decide)
  exact (hStep positive_one hFirst (by decide)).1

/-- The code of a power of two holds its exponent, which `126` makes positive. -/
theorem wholePower_code {n : Int} (hLow : -126 ≤ n) (hHigh : n ≤ 127) :
    (wholePower n).negative = false ∧ (wholePower n).code = (n + 127).toNat * 8388608 := by
  obtain ⟨k, hk⟩ : ∃ k : Nat, n + 127 = k := ⟨(n + 127).toNat, by omega⟩
  have hBits : (wholePower n).bits.toNat = k * 8388608 := by
    have hMod : ((n + 127) % 4294967296).toNat = k := by omega
    simp only [wholePower, hMod, UInt32.toNat_shiftLeft, UInt32.toNat_ofNat', Nat.shiftLeft_eq]
    have hSmall : k % 2 ^ 32 = k := by omega
    rw [hSmall]
    show k * 8388608 % 4294967296 = _
    omega
  simp only [negative, code, hBits, decide_eq_false_iff_not]
  omega

/-- For the exponents of normal numbers the bits that are put together are a normal number without a
sign. -/
theorem wholePower_normal {n : Int} (hLow : -126 ≤ n) (hHigh : n ≤ 127) :
    (wholePower n).negative = false ∧ 8388608 ≤ (wholePower n).code ∧
      (wholePower n).isFinite = true := by
  obtain ⟨hSign, hCode⟩ := wholePower_code hLow hHigh
  rw [isFinite, hCode, infinityCode, decide_eq_true_eq]
  exact ⟨hSign, by omega, by omega⟩

/-- A greater exponent makes a greater power. -/
theorem wholePower_mono {n m : Int} (hLow : -126 ≤ n) (h : n ≤ m) (hHigh : m ≤ 127) :
    (wholePower n).Ordered (wholePower m) := by
  obtain ⟨hSign, hCode⟩ := wholePower_code hLow (by omega)
  obtain ⟨hSign', hCode'⟩ := wholePower_code (by omega : -126 ≤ m) hHigh
  refine ⟨hSign, hSign', ?_, ?_⟩
  · rw [hCode, hCode']
    omega
  · rw [hCode', infinityCode]
    omega

/-- The binary exponent of a number whose magnitude is bounded. -/
theorem magnitude_mul_log2e_le {y : Binary32} (bound limit : Nat) (hCode : y.code ≤ bound)
    (hBound : bound < infinityCode)
    (hNumber : roundCode (magnitudeOfCode bound * log2e.magnitude) one < infinityCode)
    (hLimit : magnitudeOfCode (roundCode (magnitudeOfCode bound * log2e.magnitude) one) ≤ limit) :
    (y * log2e).isFinite = true ∧ (y * log2e).negative = y.negative ∧
      (y * log2e).magnitude ≤ limit := by
  have hFinite : y.isFinite = true := decide_eq_true (Nat.lt_of_le_of_lt hCode hBound)
  have hRound := roundCode_mono Binary32.one_pos Binary32.one_pos (Nat.mul_le_mul_right one
    (Nat.mul_le_mul_right log2e.magnitude (magnitudeOfCode_mono hCode)))
  rw [mul_eq_ofRatio hFinite (by decide), show log2e.negative = false by decide, Bool.bne_false,
    ofRatio, magnitude_ofCode (roundCode_le ..)]
  exact ⟨isFinite_ofCode (Nat.lt_of_le_of_lt hRound hNumber), negative_ofCode (roundCode_le ..),
    Nat.le_trans (magnitudeOfCode_mono hRound) hLimit⟩

/-- The binary exponent of a clamped argument lies between those of the bounds. This is what keeps
it in the field that it is put into. -/
theorem exponent_bounds {y : Binary32} (hLow : low.rank ≤ y.rank) (hHigh : y.rank ≤ high.rank) :
    (y * log2e).isFinite = true ∧ -(126 * one : Int) ≤ (y * log2e).units ∧
      (y * log2e).units < 127 * one := by
  have hLowRank : low.rank = -(low.code : Int) := by decide
  have hHighRank : high.rank = high.code := by decide
  have hOne := Binary32.one_pos
  rw [hLowRank, rank] at hLow
  rw [hHighRank, rank] at hHigh
  cases hSign : y.negative with
  | true =>
      rw [hSign, if_pos rfl] at hLow
      obtain ⟨hFinite, hNegative, hLimit⟩ := magnitude_mul_log2e_le (y := y) low.code (126 * one)
        (by omega) (by decide) (by decide) (by decide)
      refine ⟨hFinite, ?_⟩
      rw [units, hNegative, hSign, if_pos rfl]
      omega
  | false =>
      rw [hSign, if_neg Bool.false_ne_true] at hHigh
      obtain ⟨hFinite, hNegative, hLimit⟩ := magnitude_mul_log2e_le (y := y) high.code (127 * one - 1)
        (by omega) (by decide) (by decide) (by decide)
      refine ⟨hFinite, ?_⟩
      rw [units, hNegative, hSign, if_neg Bool.false_ne_true]
      omega

/-- What is left of an exponent lies between zero and one. -/
theorem ordered_rest (units : Int) :
    (ofRatio false (units % one).toNat 1).Ordered (.ofInt 1) := by
  have hOne : (0 : Int) < one := Int.natCast_pos.2 Binary32.one_pos
  have hRest := Int.emod_lt_of_pos units hOne
  have hRatio : Binary32.ofInt 1 = ofRatio false one 1 := by decide
  rw [hRatio]
  refine ordered_ofRatio Nat.one_pos Nat.one_pos (Nat.mul_le_mul_right _ ?_)
  omega

/-- The polynomial does not see the sign of what is left of the exponent where that is zero. -/
theorem fractionPower_sub_floor {t : Binary32} (hFinite : t.isFinite = true)
    (hFloor : t.floor.isFinite = true) (hUnits : t.floor.units = t.units.fdiv one * one) :
    fractionPower (t - t.floor) = fractionPower (ofRatio false (t.units % one).toNat 1) := by
  have hOne : (0 : Int) < one := Int.natCast_pos.2 Binary32.one_pos
  have hRest : t.units - t.floor.units = t.units % one := by
    rw [hUnits, Int.fdiv_eq_ediv_of_nonneg _ (Int.le_of_lt hOne), Int.emod_def, Int.mul_comm]
  have hNonneg := Int.emod_nonneg t.units (Int.ne_of_gt hOne)
  obtain ⟨zeroNegative, hDifference⟩ := sub_eq hFinite hFloor
  rw [hDifference, hRest, ofUnits]
  split
  · next hZero =>
    rw [hZero]
    cases zeroNegative <;> decide +kernel
  · rw [decide_eq_false (Int.not_lt.2 hNonneg), ← Int.toNat_of_nonneg hNonneg, Int.natAbs_natCast,
      Int.toNat_natCast]

/-- The polynomial in what is left of an exponent. -/
theorem fractionPower_rest (units : Int) :
    (Binary32.ofInt 1).code ≤ (fractionPower (ofRatio false (units % one).toNat 1)).code ∧
      (fractionPower (ofRatio false (units % one).toNat 1)).Ordered (fractionPower (.ofInt 1)) := by
  have hRest := ordered_rest units
  have hOne : (Binary32.ofInt 1).Ordered (.ofInt 1) :=
    ⟨positive_one.sign, positive_one.sign, Nat.le_refl _, Nat.le_of_lt positive_one.finite⟩
  exact ⟨(fractionPower_bounds hRest.left).2, fractionPower_mono hRest hOne⟩

end Exponential

/-- The exponential of a number whose binary exponent is bounded. -/
theorem approxExp_bounds {x : Binary32} (first last : Int) (hFirst : -126 ≤ first)
    (hLast : last ≤ 127)
    (hFinite : (x.clamp Exponential.low Exponential.high * Exponential.log2e).isFinite = true)
    (hLow : first * one ≤ (x.clamp Exponential.low Exponential.high * Exponential.log2e).units)
    (hHigh : (x.clamp Exponential.low Exponential.high * Exponential.log2e).units ≤ last * one) :
    (Exponential.wholePower first).Ordered (approxExp x) ∧
      (approxExp x).Ordered
        (Exponential.wholePower last * Exponential.fractionPower (.ofInt 1)) := by
  rw [approxExp]
  generalize x.clamp Exponential.low Exponential.high * Exponential.log2e = t at *
  have hOne : (0 : Int) < one := Int.natCast_pos.2 Binary32.one_pos
  have hFdiv := Int.fdiv_eq_ediv_of_nonneg t.units (Int.le_of_lt hOne)
  have hFloorLow : first ≤ t.units.fdiv one := by
    rw [hFdiv, Int.le_ediv_iff_mul_le hOne]
    exact hLow
  have hFloorHigh : t.units.fdiv one ≤ last := by
    rw [hFdiv]
    exact Int.ediv_le_of_le_mul hOne hHigh
  obtain ⟨hFloor, hUnits⟩ := floor_spec hFinite (by omega)
  rw [toInt32_eq hFloor hUnits (by omega) (by omega),
    Exponential.fractionPower_sub_floor hFinite hFloor hUnits]
  obtain ⟨hPower, hPowerLe⟩ := Exponential.fractionPower_rest t.units
  have hWhole := Exponential.wholePower_mono hFirst hFloorLow (by omega)
  obtain ⟨hSign, -, hWholeFinite⟩ :=
    Exponential.wholePower_normal (by omega : -126 ≤ t.units.fdiv one) (by omega)
  have hUpper := (Exponential.wholePower_mono (by omega) hFloorHigh hLast).mul_mul hPowerLe
    (Exponential.wholePower_normal (by omega) hLast).2.2 (by decide +kernel)
  refine ⟨⟨hWhole.left, hUpper.left, ?_, ?_⟩, hUpper⟩
  · exact Nat.le_trans hWhole.code_le (le_code_mul hSign hPowerLe.left hWholeFinite hPower)
  · exact Nat.le_trans hUpper.code_le hUpper.number

/-- The exponential of a number, infinities included, is finite. The clamp comes first, so infinity
is treated as the bound. -/
theorem approxExp_of_number {x : Binary32} (hx : x.isNaN = false) :
    (Exponential.wholePower (-126)).Ordered (approxExp x) ∧ (approxExp x).isFinite = true := by
  obtain ⟨-, hLow, hHigh⟩ := clamp_bounds Exponential.low Exponential.high hx
    (by decide) (by decide) (by decide)
  obtain ⟨hFinite, hAbove, hBelow⟩ := Exponential.exponent_bounds hLow hHigh
  obtain ⟨hLeast, hGreatest⟩ :=
    approxExp_bounds (-126) 127 (by omega) (by omega) hFinite (by omega)
      (Int.le_of_lt hBelow)
  exact ⟨hLeast, decide_eq_true (Nat.lt_of_le_of_lt hGreatest.code_le (by decide +kernel))⟩

/-- Every exponential is without a sign and not below the smallest normal number. This holds even of
what is not a number, whose exponential is not one either. -/
theorem approxExp_normal (x : Binary32) :
    (approxExp x).negative = false ∧ 8388608 ≤ (approxExp x).code := by
  cases hNaN : x.isNaN with
  | true =>
      have hExponent : x.clamp Exponential.low Exponential.high * Exponential.log2e = nan := by
        rw [clamp_of_isNaN hNaN]
        change Binary32.mul x Exponential.log2e = _
        rw [Binary32.mul, hNaN]
        rfl
      rw [approxExp, hExponent]
      obtain ⟨hSign, hNormal, hFinite⟩ :=
        Exponential.wholePower_normal (n := (floor nan).toInt32) (by decide) (by decide)
      obtain ⟨hPowerSign, hPower⟩ := Exponential.fractionPower_bounds
        (f := nan - floor nan) (by decide)
      exact ⟨negative_mul hSign hPowerSign,
        Nat.le_trans hNormal (le_code_mul hSign hPowerSign hFinite hPower)⟩
  | false =>
      obtain ⟨hLeast, -⟩ := approxExp_of_number hNaN
      exact ⟨hLeast.right, Nat.le_trans (by decide) hLeast.code_le⟩

end QuantAttention
