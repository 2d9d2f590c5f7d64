import Mathlib.Algebra.BigOperators.Fin
import Mathlib.Algebra.Order.BigOperators.Group.Finset
import Mathlib.Data.Finset.Max
import QuantAttention.Mask
import QuantAttention.Proofs.Binary32.Sign
import QuantAttention.Proofs.Softmax

/-! Whether anything is left of a row. Every share is rounded on its own, so the greatest weight of
a row keeps a byte exactly if it is more than about one part in 510 of the sum. Rows of up to 509
keys have such a weight if their scores are moderate; of 510 equal scores nothing need be left. -/

namespace QuantAttention

open Binary32

/-- A number that is one half or more, once it is multiplied by 255, is stored as a byte other than
zero. -/
theorem quantizeProbability_ne_zero {p : Binary32} (hSign : (p * probabilityMax).negative = false)
    (hFinite : (p * probabilityMax).isFinite = true)
    (hHalf : one ≤ 2 * (p * probabilityMax).magnitude) : quantizeProbability p ≠ 0 := by
  have hLow : one / 2 ≤ (p * probabilityMax).magnitude := by omega
  have hCode : roundCode (one / 2) 1 ≤ (p * probabilityMax).code := by
    rw [← roundCode_magnitude hFinite]
    exact roundCode_mono Nat.one_pos Nat.one_pos (Nat.mul_le_mul_right _ hLow)
  have hOrdered : (ofCode false (roundCode (one / 2) 1)).Ordered (p * probabilityMax) :=
    ⟨by decide, hSign, by rwa [code_ofCode (roundCode_le ..)],
      Nat.le_of_lt (of_decide_eq_true hFinite)⟩
  have hByte := (hOrdered.roundHalfAway.clamp positive_probabilityMax).toUInt8
  rw [show ((ofCode false (roundCode (one / 2) 1)).roundHalfAway.clamp 0 probabilityMax).toUInt8 = 1
    by decide] at hByte
  intro hZero
  rw [quantizeProbability] at hZero
  rw [hZero] at hByte
  exact absurd hByte (by decide)

/-- The errors of a quotient, a product and a multiple of 255 leave one half of such a weight. -/
theorem half_le_of_errors {sum weight inverse part scaled unit : Nat} (hUnit : 0 < unit)
    (hWeight : 10 * sum ≤ 5099 * weight)
    (hInverse : unit * unit * 16777216 ≤ inverse * sum * 16777217)
    (hPart : weight * inverse * 16777216 ≤ part * unit * 16777217)
    (hScaled : part * 255 * 16777216 ≤ scaled * 16777217) : unit ≤ 2 * scaled := by
  have hAll : unit * (2550 * (16777216 * 16777216 * 16777216)) * unit ≤
      scaled * (5099 * (16777217 * 16777217 * 16777217)) * unit := by
    calc unit * (2550 * (16777216 * 16777216 * 16777216)) * unit
        = 2550 * 16777216 * 16777216 * (unit * unit * 16777216) := by ring
      _ ≤ 2550 * 16777216 * 16777216 * (inverse * sum * 16777217) := by gcongr
      _ = 255 * 16777216 * 16777216 * 16777217 * inverse * (10 * sum) := by ring
      _ ≤ 255 * 16777216 * 16777216 * 16777217 * inverse * (5099 * weight) := by gcongr
      _ = 5099 * 255 * 16777216 * 16777217 * (weight * inverse * 16777216) := by ring
      _ ≤ 5099 * 255 * 16777216 * 16777217 * (part * unit * 16777217) := by gcongr
      _ = 5099 * 16777217 * 16777217 * unit * (part * 255 * 16777216) := by ring
      _ ≤ 5099 * 16777217 * 16777217 * unit * (scaled * 16777217) := by gcongr
      _ = scaled * (5099 * (16777217 * 16777217 * 16777217)) * unit := by ring
  have hCancelled := Nat.le_of_mul_le_mul_right hAll hUnit
  omega

/-- The same where the product and the multiple have their errors only far from the subnormal
numbers: the exact part is about one in 510, and so is the rounded one. -/
theorem half_le_of_steps {sum weight inverse part scaled unit : Nat}
    (hUnit : 510 * 8388608 ≤ unit) (hWeight : 10 * sum ≤ 5099 * weight)
    (hInverse : unit * unit * 16777216 ≤ inverse * sum * 16777217)
    (hPart : 8388608 * unit ≤ weight * inverse →
      weight * inverse * 16777216 ≤ part * unit * 16777217)
    (hScaled : 8388608 * unit ≤ part * (255 * unit) →
      part * (255 * unit) * 16777216 ≤ scaled * unit * 16777217) : unit ≤ 2 * scaled := by
  have hPos : 0 < unit := by omega
  have hExact : unit * unit ≤ 510 * (weight * inverse) := by
    have hStep := Nat.mul_le_mul_left inverse hWeight
    linarith [Nat.zero_le (weight * inverse)]
  have hPartNormal : 8388608 * unit ≤ weight * inverse := by
    have hStep := Nat.mul_le_mul_right unit hUnit
    linarith
  have hRounded : unit * 16777216 ≤ 510 * 16777217 * part := by
    have hError := hPart hPartNormal
    refine Nat.le_of_mul_le_mul_right ?_ hPos
    linarith
  have hScaledNormal : 8388608 * unit ≤ part * (255 * unit) := by
    rw [← Nat.mul_assoc]
    exact Nat.mul_le_mul_right unit (by omega)
  refine half_le_of_errors hPos hWeight hInverse (hPart hPartNormal) ?_
  have hError := hScaled hScaledNormal
  refine Nat.le_of_mul_le_mul_right ?_ hPos
  linarith

/-- The inverse of a sum that is not too great is below the exact one by at most one part in
`2 ^ 24`. -/
theorem le_inverse_mul {total : Binary32} (hSign : total.negative = false)
    (hPositive : 0 < total.code) (hFinite : total.isFinite = true)
    (hInverse : (Binary32.ofInt 1 / total).isFinite = true)
    (hModerate : 8388608 * total.magnitude ≤ one * one) :
    one * one * 16777216 ≤
      (Binary32.ofInt 1 / total).magnitude * total.magnitude * 16777217 := by
  obtain ⟨hNaN, hInfinite⟩ := isFinite_eq.1 hFinite
  rw [div_eq hSign hNaN hPositive positive_one, hInfinite, if_neg Bool.false_ne_true,
    show (Binary32.ofInt 1).magnitude = one by decide] at hInverse ⊢
  rw [isFinite, code_ofCode (roundCode_le ..), decide_eq_true_eq] at hInverse
  rw [magnitude_ofCode (roundCode_le ..)]
  exact le_magnitude_roundCode_mul (magnitudeOfCode_pos hPositive) hInverse (.inr hModerate)

/-- Weights up to `2 ^ 60` are far from the greatest numbers, and so are sums of 510 of them. -/
def weightLimit : Nat := 2 ^ 60 * one

/-- A weight of more than about one part in 510 of the sum keeps a byte. The bound has room for the
errors of three roundings. -/
theorem share_ne_zero {w total : Binary32} (hw : w.negative = false) (hNormal : 8388608 ≤ w.code)
    (hLimit : w.magnitude ≤ weightLimit) (hTotal : total.negative = false)
    (hLe : w.code ≤ total.code) (hWeight : 10 * total.magnitude ≤ 5099 * w.magnitude) :
    share w total ≠ 0 := by
  have hSmall : 8388608 * total.magnitude ≤ one * one := by
    have hRoom : 8388608 * (5099 * weightLimit) ≤ 10 * (one * one) := by decide
    omega
  have hFinite : total.isFinite = true := by
    refine decide_eq_true (Nat.lt_of_not_le fun hGreat => ?_)
    have hMagnitude : magnitudeOfCode infinityCode ≤ total.magnitude := magnitudeOfCode_mono hGreat
    have hRoom : one * one < 8388608 * magnitudeOfCode infinityCode := by decide
    omega
  have hwFinite : w.isFinite = true :=
    decide_eq_true (Nat.lt_of_le_of_lt hLe (of_decide_eq_true hFinite))
  have hSteps := shareSteps hw hTotal hNormal hLe hFinite
  have hInverse := le_inverse_mul hTotal (by omega) hFinite hSteps.inverse_finite hSmall
  have hPart := mul_le_magnitude_mul hw hSteps.inverse_sign hwFinite hSteps.inverse_finite
    hSteps.part_finite
  have hScaled := mul_le_magnitude_mul hSteps.part_sign positive_probabilityMax.sign
    hSteps.part_finite (by decide) hSteps.scaled_finite
  rw [magnitude_probabilityMax] at hScaled
  rw [share_of_pos (zero_lt_iff.2 ⟨hTotal, by omega, Nat.le_of_lt (of_decide_eq_true hFinite)⟩)]
  exact quantizeProbability_ne_zero hSteps.scaled_sign hSteps.scaled_finite
    (half_le_of_steps (by decide) hWeight hInverse hPart hScaled)

/-- A weight of less than about one part in 510 of the sum is lost. Between the two bounds the
roundings decide. -/
theorem share_eq_zero {w total : Binary32} (hw : w.negative = false) (hNormal : 8388608 ≤ w.code)
    (hLe : (0 : Binary32).Ordered total) (hCode : w.code ≤ total.code)
    (hWeight : 5101 * w.magnitude < 10 * total.magnitude) : share w total = 0 := by
  have hPositive : Binary32.lt 0 total = true :=
    zero_lt_iff.2 ⟨hLe.right, by omega, hLe.number⟩
  rw [share_of_pos hPositive]
  cases hInfinite : total.isInfinite with
  | true =>
      -- The inverse of infinity is zero.
      rw [div_eq hLe.right hLe.isNaN_right (by omega) positive_one, hInfinite, if_pos rfl]
      exact quantizeProbability_mul_zero hw
  | false =>
      have hByte := share_le hw hLe.right hNormal hCode (isFinite_eq.2 ⟨hLe.isNaN_right, hInfinite⟩)
      rcases Nat.eq_zero_or_pos
        (quantizeProbability (w * (.ofInt 1 / total))).toNat with hZero | hPos
      · exact UInt8.toNat_inj.1 hZero
      · have hStep := Nat.mul_le_mul_right total.magnitude hPos
        omega

namespace Binary32

/-- A sum is not below what it began with, nor below its terms. -/
theorem Ordered.foldl_add {x y : Binary32} {weights : List Binary32} (h : x.Ordered y)
    (hWeights : ∀ w ∈ weights, w.Ordered w) :
    x.Ordered (weights.foldl (· + ·) y) ∧
      ∀ w ∈ weights, w.Ordered (weights.foldl (· + ·) y) := by
  induction weights generalizing x y with
  | nil => exact ⟨h, by simp⟩
  | cons w rest ih =>
      have hw := hWeights w List.mem_cons_self
      have hRest := fun v hv => hWeights v (List.mem_cons_of_mem _ hv)
      have hSum : (y + w).Ordered (y + w) :=
        Ordered.add ⟨h.right, h.right, Nat.le_refl _, h.number⟩ hw
      have hStart : x.Ordered (y + w) := ⟨h.left, hSum.right, le_code_add h.right hw.left
        (.inl h.code_le) (Nat.le_trans h.code_le h.number), hSum.number⟩
      have hTerm : w.Ordered (y + w) := ⟨hw.left, hSum.right, le_code_add h.right hw.left
        (.inr (Nat.le_refl _)) hw.number, hSum.number⟩
      refine ⟨(ih hStart hRest).1, fun v hv => ?_⟩
      rcases List.mem_cons.1 hv with rfl | hv
      · exact (ih hTerm hRest).1
      · exact (ih hStart hRest).2 v hv

/-- A sum below 1023 times a number that is not too great is above the exact one by at most one part
in `2 ^ 14` of that number. -/
theorem add_magnitude_le {x y : Binary32} {greatest : Nat} (hx : x.negative = false)
    (hy : y.negative = false) (hxFinite : x.isFinite = true) (hyFinite : y.isFinite = true)
    (hLimit : greatest ≤ weightLimit) (hRoom : x.magnitude + y.magnitude ≤ 1023 * greatest) :
    (x + y).isFinite = true ∧
      (x + y).magnitude * 16384 ≤ (x.magnitude + y.magnitude) * 16384 + greatest := by
  obtain ⟨hxNaN, hxInfinite⟩ := isFinite_eq.1 hxFinite
  obtain ⟨hyNaN, hyInfinite⟩ := isFinite_eq.1 hyFinite
  rw [add_eq hx hy hxNaN hyNaN, hxInfinite, hyInfinite, Bool.or_self, if_neg Bool.false_ne_true,
    magnitude_ofCode (roundCode_le ..)]
  have hFinite : roundCode (x.magnitude + y.magnitude) 1 < infinityCode := by
    have hLe : x.magnitude + y.magnitude ≤ 1023 * weightLimit :=
      Nat.le_trans hRoom (Nat.mul_le_mul_left _ hLimit)
    exact Nat.lt_of_le_of_lt (roundCode_mono Nat.one_pos Nat.one_pos (Nat.mul_le_mul_right _ hLe))
      (by decide)
  have hError := magnitude_roundCode_one_mul_le (x.magnitude + y.magnitude)
  refine ⟨isFinite_ofCode hFinite, ?_⟩
  clear hFinite
  generalize magnitudeOfCode (roundCode (x.magnitude + y.magnitude) 1) = sum at *
  generalize x.magnitude + y.magnitude = exact at *
  linarith

/-- The errors of a sum of weights add up. There are few enough terms for their sum to stay far from
overflow. -/
theorem foldl_add_magnitude_le {weights : List Binary32} {sum : Binary32} {greatest : Nat}
    (hWeights : ∀ w ∈ weights, w.negative = false ∧ w.isFinite = true)
    (hSum : sum.negative = false) (hFinite : sum.isFinite = true) (hLimit : greatest ≤ weightLimit)
    (hRoom : (sum.magnitude + (weights.map magnitude).sum) * 16384 + weights.length * greatest ≤
      1023 * greatest * 16384) :
    (weights.foldl (· + ·) sum).magnitude * 16384 ≤
      (sum.magnitude + (weights.map magnitude).sum) * 16384 + weights.length * greatest := by
  induction weights generalizing sum with
  | nil => simp
  | cons w rest ih =>
      obtain ⟨hw, hwFinite⟩ := hWeights w List.mem_cons_self
      rw [List.map_cons, List.sum_cons, List.length_cons, Nat.succ_mul] at hRoom ⊢
      have hSlack := Nat.zero_le (rest.length * greatest)
      have hTerms := Nat.zero_le (rest.map magnitude).sum
      obtain ⟨hNext, hStep⟩ := add_magnitude_le hSum hw hFinite hwFinite hLimit (by linarith)
      have hRest := ih (fun v hv => hWeights v (List.mem_cons_of_mem _ hv)) (negative_add hSum hw)
        hNext (by linarith)
      rw [List.foldl_cons]
      linarith

end Binary32

/-- The least and the greatest exponential of a score of at most forty in magnitude. No clamp and no
subnormal number is near. -/
theorem approxExp_moderate {x : Binary32} (h : x.abs.le (.ofInt 40) = true) :
    (Exponential.wholePower (-58)).Ordered (approxExp x) ∧
      (approxExp x).magnitude ≤ weightLimit := by
  have hCode := (abs_le_iff (w := .ofInt 40) (by decide)).1 h
  have hRank : -((ofInt 40).code : Int) ≤ x.rank ∧ x.rank ≤ (ofInt 40).code := by
    rw [rank]
    split <;> omega
  have hLow : Exponential.low.rank ≤ -((ofInt 40).code : Int) := by decide
  have hHigh : ((ofInt 40).code : Int) ≤ Exponential.high.rank := by decide
  have hClamp : x.clamp Exponential.low Exponential.high = x :=
    clamp_of_between (by omega) (by omega)
  obtain ⟨hFinite, -, hLimit⟩ := Exponential.magnitude_mul_log2e_le (y := x) (ofInt 40).code
    (58 * one) hCode (by decide) (by decide) (by decide)
  have hUnits : -58 * (one : Int) ≤ (x * Exponential.log2e).units ∧
      (x * Exponential.log2e).units ≤ 58 * (one : Int) := by
    rw [units]
    generalize one = unit at *
    split <;> omega
  obtain ⟨hLeast, hGreatest⟩ := approxExp_bounds (x := x) (-58) 58 (by decide) (by decide)
    (by rwa [hClamp]) (by rw [hClamp]; exact hUnits.1) (by rw [hClamp]; exact hUnits.2)
  exact ⟨hLeast, Nat.le_trans hGreatest.magnitude_le (by decide +kernel)⟩

/-- The weights of scores that are numbers are numbers themselves, without a sign. -/
theorem weights_ordered {scores : List Binary32} (hNumbers : ∀ x ∈ scores, x.isNaN = false) :
    ∀ w ∈ scores.map approxExp, w.Ordered w := by
  intro w hw
  obtain ⟨x, hx, rfl⟩ := List.mem_map.1 hw
  obtain ⟨hLeast, -⟩ := approxExp_of_number (hNumbers x hx)
  exact ⟨hLeast.right, hLeast.right, Nat.le_refl _, hLeast.number⟩

/-- A sum of weights is a number without a sign, and not below any of them. It may be infinite, but
it is a number. -/
theorem weightSum_ordered {scores : List Binary32} (hNumbers : ∀ x ∈ scores, x.isNaN = false) :
    (0 : Binary32).Ordered (weightSum scores) ∧
      ∀ x ∈ scores, (approxExp x).Ordered (weightSum scores) := by
  have hStart : (0 : Binary32).Ordered 0 := ⟨rfl, rfl, Nat.le_refl _, by decide⟩
  obtain ⟨hZero, hTerms⟩ := hStart.foldl_add (weights_ordered hNumbers)
  exact ⟨hZero, fun x hx => hTerms _ (List.mem_map_of_mem hx)⟩

/-- The scores of a row: those of its keys are moderate, and behind them are columns without a key.
-/
structure ModerateScores (keys padding : List Binary32) : Prop where
  moderate : ∀ x ∈ keys, x.abs.le (.ofInt 40) = true
  barred : ∀ x ∈ padding, x = maskPadding
  short : padding.length < 16

namespace ModerateScores

variable {keys padding : List Binary32}

/-- All scores of such a row are numbers. -/
theorem isNaN_eq_false (h : ModerateScores keys padding) :
    ∀ x ∈ keys ++ padding, x.isNaN = false := by
  intro x hx
  rcases List.mem_append.1 hx with hKey | hPadding
  · have hCode := (abs_le_iff (w := .ofInt 40) (by decide)).1 (h.moderate x hKey)
    exact decide_eq_false (Nat.not_lt.2 (Nat.le_trans hCode (by decide)))
  · rw [h.barred x hPadding]
    decide

/-- The exact sum of the weights, where none exceeds `greatest`, columns without a key counted as
one part in 1024 of it. -/
theorem sum_magnitude_le (h : ModerateScores keys padding) {greatest : Nat}
    (hKeys : ∀ x ∈ keys, (approxExp x).magnitude ≤ greatest)
    (hPadding : 1024 * (approxExp maskPadding).magnitude ≤ greatest) :
    1024 * (((keys ++ padding).map approxExp).map magnitude).sum ≤
      (1024 * keys.length + padding.length) * greatest := by
  have hSum {xs : List Binary32} {bound : Nat} (hxs : ∀ x ∈ xs, (approxExp x).magnitude ≤ bound) :
      ((xs.map approxExp).map magnitude).sum ≤ xs.length * bound := by
    have hBound := List.sum_le_card_nsmul ((xs.map approxExp).map magnitude) bound fun m hm => by
      obtain ⟨w, hw, rfl⟩ := List.mem_map.1 hm
      obtain ⟨x, hx, rfl⟩ := List.mem_map.1 hw
      exact hxs x hx
    rwa [List.length_map, List.length_map, smul_eq_mul] at hBound
  have hPaddingSum := hSum fun x hx => Nat.le_of_eq (congrArg (approxExp · |>.magnitude)
    (h.barred x hx))
  have hScaled := Nat.mul_le_mul_left padding.length hPadding
  rw [List.map_append, List.map_append, List.sum_append]
  have hKeySum := hSum hKeys
  generalize (approxExp maskPadding).magnitude = least at *
  linarith

/-- In a short row the greatest weight is more than about one part in 510 of the sum, whatever the
other weights are. -/
theorem weightSum_le (h : ModerateScores keys padding) (hCount : keys.length ≤ 509) {w : Binary32}
    (hKeys : ∀ x ∈ keys, (approxExp x).magnitude ≤ w.magnitude) (hLimit : w.magnitude ≤ weightLimit)
    (hLeast : (Exponential.wholePower (-58)).magnitude ≤ w.magnitude) :
    10 * (weightSum (keys ++ padding)).magnitude ≤ 5099 * w.magnitude := by
  have hPadding : 1024 * (approxExp maskPadding).magnitude ≤ w.magnitude :=
    Nat.le_trans (by decide +kernel) hLeast
  have hShort := h.short
  have hExact := Nat.le_trans (h.sum_magnitude_le hKeys hPadding)
    (Nat.mul_le_mul_right _ (by omega : 1024 * keys.length + padding.length ≤ 1024 * 509 + 15))
  have hLength : ((keys ++ padding).map approxExp).length * w.magnitude ≤ 524 * w.magnitude := by
    rw [List.length_map, List.length_append]
    exact Nat.mul_le_mul_right _ (by omega)
  have hNumbers : ∀ v ∈ (keys ++ padding).map approxExp,
      v.negative = false ∧ v.isFinite = true := by
    intro v hv
    obtain ⟨x, hx, rfl⟩ := List.mem_map.1 hv
    exact ⟨(approxExp_normal x).1, (approxExp_of_number (h.isNaN_eq_false x hx)).2⟩
  have hZero : (0 : Binary32).magnitude = 0 := by decide
  have hRounded := @foldl_add_magnitude_le _ 0 w.magnitude hNumbers rfl rfl hLimit (by
    rw [hZero]
    linarith)
  rw [hZero] at hRounded
  rw [weightSum]
  generalize (((keys ++ padding).map approxExp).foldl (· + ·) 0).magnitude = total at *
  linarith

/-- A row of at most 509 keys keeps the byte of its greatest weight, for this weight cannot be less
than an equal part of the sum. -/
theorem exists_share_ne_zero (h : ModerateScores keys padding) (hKeys : keys ≠ [])
    (hCount : keys.length ≤ 509) :
    ∃ x ∈ keys, share (approxExp x) (weightSum (keys ++ padding)) ≠ 0 := by
  obtain ⟨x, hx, hGreatest⟩ := keys.toFinset.exists_max_image (fun x => (approxExp x).magnitude)
    (List.toFinset_nonempty_iff _ |>.2 hKeys)
  simp only [List.mem_toFinset] at hx hGreatest
  obtain ⟨hLeast, hLimit⟩ := approxExp_moderate (h.moderate x hx)
  obtain ⟨hSum, hTerms⟩ := weightSum_ordered h.isNaN_eq_false
  refine ⟨x, hx, share_ne_zero hLeast.right (approxExp_normal x).2 hLimit hSum.right
    (hTerms x (List.mem_append_left _ hx)).code_le ?_⟩
  exact h.weightSum_le hCount hGreatest hLimit hLeast.magnitude_le

/-- In a row of any length, what happens to a weight that is not near one part in 510 of the sum:
above that it is kept, below it is lost. -/
theorem share_spec (h : ModerateScores keys padding) {x : Binary32} (hx : x ∈ keys) :
    (10 * (weightSum (keys ++ padding)).magnitude ≤ 5099 * (approxExp x).magnitude →
        share (approxExp x) (weightSum (keys ++ padding)) ≠ 0) ∧
      (5101 * (approxExp x).magnitude < 10 * (weightSum (keys ++ padding)).magnitude →
        share (approxExp x) (weightSum (keys ++ padding)) = 0) := by
  obtain ⟨hLeast, hLimit⟩ := approxExp_moderate (h.moderate x hx)
  obtain ⟨hSum, hTerms⟩ := weightSum_ordered h.isNaN_eq_false
  have hLe := (hTerms x (List.mem_append_left _ hx)).code_le
  exact ⟨share_ne_zero hLeast.right (approxExp_normal x).2 hLimit hSum.right hLe,
    share_eq_zero hLeast.right (approxExp_normal x).2 hSum hLe⟩

end ModerateScores

/-- The sum of 510 exponentials of three, summed up in five steps. Each of them is small enough to
be computed. -/
theorem weightSum_replicate_510 :
    weightSum (List.replicate 510 (.ofInt 3)) = ⟨1176505999⟩ := by
  have hFirst : (List.replicate 102 (approxExp (.ofInt 3))).foldl (· + ·) 0 =
      ⟨1157630877⟩ := by decide +kernel
  have hSecond : (List.replicate 102 (approxExp (.ofInt 3))).foldl (· + ·) ⟨1157630877⟩ =
      ⟨1166019465⟩ := by decide +kernel
  have hThird : (List.replicate 102 (approxExp (.ofInt 3))).foldl (· + ·) ⟨1166019465⟩ =
      ⟨1170215235⟩ := by decide +kernel
  have hFourth : (List.replicate 102 (approxExp (.ofInt 3))).foldl (· + ·) ⟨1170215235⟩ =
      ⟨1174408063⟩ := by decide +kernel
  have hFifth : (List.replicate 102 (approxExp (.ofInt 3))).foldl (· + ·) ⟨1174408063⟩ =
      ⟨1176505999⟩ := by decide +kernel
  rw [weightSum, List.map_replicate, show 510 = 102 + 102 + 102 + 102 + 102 from rfl]
  simp only [List.replicate_add, List.foldl_append, hFirst, hSecond, hThird, hFourth, hFifth]

/-- Of 510 equal weights each has less than one half of a byte, and a greater sum leaves no more to
it. -/
theorem share_replicate_eq_zero {count : Nat} (hCount : 510 ≤ count) {rest : List Binary32}
    (hRest : ∀ x ∈ rest, x.isNaN = false) :
    share (approxExp (.ofInt 3)) (weightSum (List.replicate count (.ofInt 3) ++ rest)) = 0 := by
  obtain ⟨more, rfl⟩ := Nat.exists_eq_add_of_le hCount
  have hNumbers : ∀ x ∈ List.replicate more (.ofInt 3) ++ rest, x.isNaN = false := by
    intro x hx
    rcases List.mem_append.1 hx with hMore | hLast
    · rw [(List.mem_replicate.1 hMore).2]
      decide
    · exact hRest x hLast
  have hFirst : (⟨1176505999⟩ : Binary32).Positive := by decide
  have hGreater := (⟨hFirst.sign, hFirst.sign, Nat.le_refl _, Nat.le_of_lt hFirst.finite⟩ :
    Ordered ⟨1176505999⟩ ⟨1176505999⟩).foldl_add (weights_ordered hNumbers)
  have hShare := share_antitone (w := approxExp (.ofInt 3)) (by decide +kernel) hGreater.1
    hFirst.code_pos
  rw [show share (approxExp (.ofInt 3)) ⟨1176505999⟩ = 0 by decide +kernel,
    ← weightSum_replicate_510, weightSum, ← List.foldl_append, ← List.map_append,
    ← List.append_assoc, ← List.replicate_add] at hShare
  exact UInt8.le_antisymm hShare UInt8.zero_le

end QuantAttention
