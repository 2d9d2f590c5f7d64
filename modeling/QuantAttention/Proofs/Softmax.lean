import Mathlib.Tactic.GCongr
import Mathlib.Tactic.Ring
import QuantAttention.Kernel.Probabilities
import QuantAttention.Proofs.Exponential
import QuantAttention.Proofs.Positions

/-! The bytes of a row of probabilities. A column whose byte is not zero has a weight of at least
about one part in 510 of the sum, and whatever rounding does to the sum, it grows by almost as much
when that weight is added. So the bytes sum to at most 510, however long the row is. -/

namespace QuantAttention

open Binary32

/-- The sum of the weights of a row, from left to right. -/
def weightSum (scores : List Binary32) : Binary32 := (scores.map approxExp).foldl (· + ·) 0

/-- The byte of a weight in a row with the given sum. -/
def share (w total : Binary32) : UInt8 := quantizeProbability (w * sumInverse total)

/-- Every column of a row gets its share of one sum, which is formed over the whole row before any
byte is. -/
theorem getD_softmax_ofFn {count c : Nat} (score : Nat → Binary32) (hc : c < count) :
    (softmax (Array.ofFn fun i : Fin count => score i)).getD c 0 =
      share (approxExp (score c)) (weightSum ((List.range count).map score)) := by
  have hSum : ((Array.ofFn fun i : Fin count => score i).map approxExp).foldl (· + ·) 0 =
      weightSum ((List.range count).map score) := by
    rw [← Array.foldl_toList, Array.toList_map, toList_ofFn score, weightSum]
  rw [softmax, hSum, Array.getD_eq_getD_getElem?, Array.getElem?_map, Array.getElem?_map,
    Array.getElem?_ofFn, dif_pos hc]
  rfl

/-- Nothing is divided by a sum that is not finite: it is either no number or infinite, and the
inverse of infinity is zero. -/
theorem sumInverse_of_not_isFinite {total : Binary32} (h : total.isFinite = false) :
    sumInverse total = 0 := by
  rw [sumInverse]
  split
  · next hPositive =>
    obtain ⟨hSign, hCode, hNumber⟩ := zero_lt_iff.1 hPositive
    have hNaN : total.isNaN = false := decide_eq_false (Nat.not_lt.2 hNumber)
    have hInfinite : total.isInfinite = true := by
      cases hInfinite : total.isInfinite with
      | true => rfl
      | false =>
          rw [isFinite_eq.2 ⟨hNaN, hInfinite⟩] at h
          cases h
    rw [div_eq hSign hNaN hCode positive_one, hInfinite, if_pos rfl]
    rfl
  · rfl

theorem share_of_pos {w total : Binary32} (h : Binary32.lt 0 total = true) :
    share w total = quantizeProbability (w * (.ofInt 1 / total)) := by
  rw [share, sumInverse, if_pos h]

/-- A greater sum leaves no greater share. -/
theorem share_antitone {w s t : Binary32} (hw : w.Positive) (h : s.Ordered t) (hPos : 0 < s.code) :
    share w t ≤ share w s := by
  have hCode := Nat.le_trans h.code_le h.number
  rw [share_of_pos (zero_lt_iff.2 ⟨h.left, hPos, hCode⟩), share_of_pos
    (zero_lt_iff.2 ⟨h.right, Nat.lt_of_lt_of_le hPos h.code_le, h.number⟩), Binary32.mul_comm w,
    Binary32.mul_comm w]
  exact quantizeProbability_mono ((h.div hPos positive_one).mul hw)

def byteSum (bytes : Array UInt8) : Nat := (bytes.toList.map UInt8.toNat).sum

/-- The sum of the first `count` bytes of a row, zero where the row has ended. -/
def prefixSum (bytes : Array UInt8) (count : Nat) : Nat :=
  byteSum (Array.ofFn fun i : Fin count => bytes.getD i 0)

theorem prefixSum_succ (bytes : Array UInt8) (count : Nat) :
    prefixSum bytes (count + 1) = prefixSum bytes count + (bytes.getD count 0).toNat := by
  simp [prefixSum, byteSum, Array.ofFn_succ]

/-- Behind the end of a row nothing is added, so the sum of more bytes than there are is the sum of
all. -/
theorem prefixSum_eq (bytes : Array UInt8) (count : Nat) :
    prefixSum bytes count = ((bytes.toList.take count).map UInt8.toNat).sum := by
  induction count with
  | zero => simp [prefixSum, byteSum]
  | succ n ih =>
      rw [prefixSum_succ, ih, List.take_add_one, List.map_append, List.sum_append,
        Array.getElem?_toList, Array.getD_eq_getD_getElem?]
      cases bytes[n]? <;> simp

theorem prefixSum_le (bytes : Array UInt8) (count : Nat) : prefixSum bytes count ≤ byteSum bytes := by
  rw [prefixSum_eq, byteSum, ← List.take_append_drop count bytes.toList, List.map_append,
    List.sum_append, List.take_append_drop]
  exact Nat.le_add_right _ _

/-- A byte stands for at most the number that it was rounded from and one half. The clamp at 255 can
only make it less. -/
theorem quantizeProbability_mul_one_le {p : Binary32} (hSign : (p * probabilityMax).negative = false)
    (hFinite : (p * probabilityMax).isFinite = true) :
    (quantizeProbability p).toNat * one ≤ (p * probabilityMax).magnitude + one / 2 := by
  obtain ⟨hNaN, hInfinite⟩ := isFinite_eq.1 hFinite
  generalize hNearest : ((p * probabilityMax).magnitude + one / 2) / one = n
  have hLe : n * one ≤ (p * probabilityMax).magnitude + one / 2 := hNearest ▸ Nat.div_mul_le_self ..
  refine Nat.le_trans (Nat.mul_le_mul_right _ ?_) hLe
  rcases Nat.lt_or_ge n 255 with hSmall | hGreat
  · obtain ⟨c, hCode, hMagnitude⟩ := exists_code_of_le (n := n) (by omega)
    have hRounded : (p * probabilityMax).roundHalfAway = ofCode false c := by
      rw [roundHalfAway_eq hSign hNaN, hInfinite, if_neg Bool.false_ne_true, hNearest,
        ← hMagnitude, roundCode_magnitudeOfCode (Nat.le_of_lt hCode)]
    have hRoundedSign : (ofCode false c).negative = false := negative_ofCode (Nat.le_of_lt hCode)
    have hRoundedCode : (ofCode false c).code = c := code_ofCode (Nat.le_of_lt hCode)
    have hRoundedFinite := isFinite_eq.1 (@isFinite_ofCode c false hCode)
    -- Below 255 the clamp changes nothing.
    have hBelow : probabilityMax.lt (ofCode false c) = false := by
      refine Bool.eq_false_iff.2 fun hLt => ?_
      have hAbove : probabilityMax.code < c := by
        have hRank := (Bool.and_eq_true_iff.1 hLt).2
        rw [rank, rank, hRoundedSign, hRoundedCode, positive_probabilityMax.sign,
          if_neg Bool.false_ne_true, if_neg Bool.false_ne_true, decide_eq_true_eq] at hRank
        omega
      have hLarger := magnitudeOfCode_mono (Nat.le_of_lt hAbove)
      rw [hMagnitude, show magnitudeOfCode probabilityMax.code = 255 * one by decide] at hLarger
      have hNotBelow := Nat.le_of_mul_le_mul_right hLarger Binary32.one_pos
      omega
    rw [quantizeProbability, hRounded, clamp, lt_zero hRoundedSign, if_neg Bool.false_ne_true,
      hBelow, if_neg Bool.false_ne_true, toNat_toUInt8 hRoundedSign hRoundedFinite.1,
      hRoundedFinite.2, if_neg Bool.false_ne_true, magnitude_ofCode (Nat.le_of_lt hCode), hMagnitude,
      Nat.mul_div_cancel _ Binary32.one_pos]
    exact Nat.min_le_right ..
  · have hByte := (quantizeProbability p).toNat_lt
    omega

/-- The errors of a quotient, a product and a multiple of 255, taken together. -/
theorem share_of_errors {byte sum weight inverse share scaled unit : Nat} (hUnit : 0 < unit)
    (hByte : byte * unit ≤ 2 * scaled) (hScaled : scaled * 16777215 ≤ 255 * 16777216 * share)
    (hShare : share * unit * 16777215 ≤ weight * inverse * 16777216)
    (hInverse : inverse * sum * 4194304 ≤ unit * unit * 4194305) :
    10000 * (byte * sum) ≤ 5100100 * weight := by
  have hAll : (byte * sum) * (16777215 * 16777215 * 4194304) * (unit * unit) ≤
      510 * (16777216 * 16777216 * 4194305) * weight * (unit * unit) := by
    calc (byte * sum) * (16777215 * 16777215 * 4194304) * (unit * unit)
        = byte * unit * 16777215 * (16777215 * unit * (sum * 4194304)) := by ring
      _ ≤ 2 * scaled * 16777215 * (16777215 * unit * (sum * 4194304)) := by gcongr
      _ = 2 * (scaled * 16777215) * (16777215 * unit * (sum * 4194304)) := by ring
      _ ≤ 2 * (255 * 16777216 * share) * (16777215 * unit * (sum * 4194304)) := by gcongr
      _ = 510 * 16777216 * (share * unit * 16777215) * (sum * 4194304) := by ring
      _ ≤ 510 * 16777216 * (weight * inverse * 16777216) * (sum * 4194304) := by gcongr
      _ = 510 * 16777216 * 16777216 * weight * (inverse * sum * 4194304) := by ring
      _ ≤ 510 * 16777216 * 16777216 * weight * (unit * unit * 4194305) := by gcongr
      _ = 510 * (16777216 * 16777216 * 4194305) * weight * (unit * unit) := by ring
  have hCancelled := Nat.le_of_mul_le_mul_right hAll (Nat.mul_pos hUnit hUnit)
  omega

/-- The inverse of a sum, which is subnormal for the greatest sums. Its error is then one half of
the least number and not a part of the inverse, and still small. -/
theorem inverse_mul_le {sum : Nat} (hLow : 8388608 ≤ sum)
    (hHigh : sum ≤ magnitudeOfCode infinityCode) :
    magnitudeOfCode (roundCode (one * one) sum) * sum * 4194304 ≤ one * one * 4194305 := by
  have hPos : 0 < sum := by omega
  rcases Nat.lt_or_ge (magnitudeOfCode (roundCode (one * one) sum)) 8388608 with hSmall | hNormal
  · have hError := magnitude_roundCode_mul_le_add hPos hSmall
    have hHalf : 4194304 * magnitudeOfCode infinityCode = 2 * (one * one) := by decide
    linarith
  · have hError := magnitude_roundCode_mul_le hPos hNormal
    linarith [Nat.zero_le (one * one)]

/-- The inverse of a sum that is finite and normal is finite, has no sign and is close to the exact
one. -/
theorem inverse_spec {total : Binary32} (hSign : total.negative = false)
    (hNormal : 8388608 ≤ total.code) (hFinite : total.isFinite = true) :
    (Binary32.ofInt 1 / total).negative = false ∧ (Binary32.ofInt 1 / total).isFinite = true ∧
      (Binary32.ofInt 1 / total).magnitude * total.magnitude * 4194304 ≤ one * one * 4194305 := by
  obtain ⟨hNaN, hInfinite⟩ := isFinite_eq.1 hFinite
  have hLow : 8388608 ≤ total.magnitude := magnitudeOfCode_mono hNormal
  have hCode : roundCode (one * one) total.magnitude < infinityCode :=
    Nat.lt_of_le_of_lt (roundCode_mono (by omega) (by decide : 0 < 8388608)
      (Nat.mul_le_mul_left _ hLow)) (by decide)
  rw [div_eq hSign hNaN (by omega) positive_one, hInfinite, if_neg Bool.false_ne_true,
    show (Binary32.ofInt 1).magnitude = one by decide, magnitude_ofCode (roundCode_le ..)]
  exact ⟨negative_ofCode (roundCode_le ..), isFinite_ofCode hCode,
    inverse_mul_le hLow (magnitudeOfCode_mono (Nat.le_of_lt (of_decide_eq_true hFinite)))⟩

/-- The numbers between a weight and its byte have no sign and are finite, and each is above the
exact one by little: the inverse of the sum, the part of the weight in the sum, and 255 times that. -/
structure ShareSteps (w total : Binary32) : Prop where
  inverse_sign : (Binary32.ofInt 1 / total).negative = false
  inverse_finite : (Binary32.ofInt 1 / total).isFinite = true
  inverse_le : (Binary32.ofInt 1 / total).magnitude * total.magnitude * 4194304 ≤ one * one * 4194305
  part_sign : (w * (.ofInt 1 / total)).negative = false
  part_finite : (w * (.ofInt 1 / total)).isFinite = true
  part_le : 8388608 ≤ (w * (.ofInt 1 / total)).magnitude →
    (w * (.ofInt 1 / total)).magnitude * one * 16777215 ≤
      w.magnitude * (Binary32.ofInt 1 / total).magnitude * 16777216
  scaled_sign : (w * (.ofInt 1 / total) * probabilityMax).negative = false
  scaled_finite : (w * (.ofInt 1 / total) * probabilityMax).isFinite = true
  scaled_le : 8388608 ≤ (w * (.ofInt 1 / total) * probabilityMax).magnitude →
    (w * (.ofInt 1 / total) * probabilityMax).magnitude * one * 16777215 ≤
      (w * (.ofInt 1 / total)).magnitude * probabilityMax.magnitude * 16777216

theorem magnitude_probabilityMax : probabilityMax.magnitude = 255 * one := by decide

/-- For a weight that went into the sum, no step on the way to its byte overflows, and each is off
by one rounding. -/
theorem shareSteps {w total : Binary32} (hSign : w.negative = false) (hTotal : total.negative = false)
    (hNormal : 8388608 ≤ w.code) (hLe : w.code ≤ total.code) (hFinite : total.isFinite = true) :
    ShareSteps w total := by
  have hwFinite : w.isFinite = true :=
    decide_eq_true (Nat.lt_of_le_of_lt hLe (of_decide_eq_true hFinite))
  obtain ⟨hInverseSign, hInverseFinite, hInverse⟩ :=
    inverse_spec hTotal (Nat.le_trans hNormal hLe) hFinite
  have hPartLimit : w.magnitude * (Binary32.ofInt 1 / total).magnitude ≤ 2 * one * one := by
    have hStep := Nat.mul_le_mul_right (Binary32.ofInt 1 / total).magnitude (magnitudeOfCode_mono hLe)
    simp only [magnitude] at hStep hInverse ⊢
    linarith [Nat.zero_le (one * one)]
  obtain ⟨hPartSign, hPartFinite, hPartLe, hPart⟩ :=
    mul_spec hSign hInverseSign hwFinite hInverseFinite hPartLimit (by decide)
  rw [show magnitudeOfCode (roundCode (2 * one) 1) = 2 * one by decide] at hPartLe
  have hScaledLimit : (w * (.ofInt 1 / total)).magnitude * probabilityMax.magnitude ≤
      510 * one * one := by
    have hStep := Nat.mul_le_mul_right (255 * one) hPartLe
    rw [magnitude_probabilityMax]
    linarith
  obtain ⟨hScaledSign, hScaledFinite, -, hScaled⟩ := mul_spec hPartSign positive_probabilityMax.sign
    hPartFinite (by decide) hScaledLimit (by decide)
  exact ⟨hInverseSign, hInverseFinite, hInverse, hPartSign, hPartFinite, hPart, hScaledSign,
    hScaledFinite, hScaled⟩

/-- The byte of a weight is at most about 510 times its part of the sum. Rounding to a byte at most
doubles it, as a byte other than zero comes from one half at least. -/
theorem share_le {w total : Binary32} (hSign : w.negative = false) (hTotal : total.negative = false)
    (hNormal : 8388608 ≤ w.code) (hLe : w.code ≤ total.code) (hFinite : total.isFinite = true) :
    10000 * ((quantizeProbability (w * (.ofInt 1 / total))).toNat * total.magnitude) ≤
      5100100 * w.magnitude := by
  have hSteps := shareSteps hSign hTotal hNormal hLe hFinite
  have hByte := quantizeProbability_mul_one_le hSteps.scaled_sign hSteps.scaled_finite
  have hInverse := hSteps.inverse_le
  have hPart := hSteps.part_le
  have hScaled := hSteps.scaled_le
  rw [magnitude_probabilityMax] at hScaled
  generalize w * (.ofInt 1 / total) = part at *
  generalize part * probabilityMax = scaled at *
  rcases Nat.eq_zero_or_pos (quantizeProbability part).toNat with hZero | hPositive
  · rw [hZero]
    omega
  -- A byte that is not zero is far above the subnormal numbers, and so is what it came from.
  have hOne := Nat.mul_le_mul_right one hPositive
  generalize (quantizeProbability part).toNat = byte at *
  have hHalf : 2 * (one / 2) = one := by decide
  have hUnit : 16777216 * 16777216 ≤ one := by decide
  have hScaledError : scaled.magnitude * 16777215 ≤ 255 * 16777216 * part.magnitude := by
    have hError := hScaled (by omega)
    refine Nat.le_of_mul_le_mul_right ?_ Binary32.one_pos
    linarith
  exact share_of_errors Binary32.one_pos (by omega) hScaledError (hPart (by omega)) hInverse

/-- A weight that a row can have. -/
def IsWeight (w : Binary32) : Prop := w.negative = false ∧ 8388608 ≤ w.code

/-- Adding a weight to a sum on its way to `total` makes up for the byte of the weight. This is the
step of the induction over the row. -/
theorem share_add_le {w sum total : Binary32} (hWeight : IsWeight w) (hSum : sum.negative = false)
    (hTotal : total.negative = false) (hFinite : total.isFinite = true)
    (hLe : (sum + w).code ≤ total.code) :
    sum.code ≤ (sum + w).code ∧
      10 * ((quantizeProbability (w * (.ofInt 1 / total))).toNat * total.magnitude) +
        5101 * sum.magnitude ≤ 5101 * (sum + w).magnitude := by
  have hNumber : (sum + w).code < infinityCode :=
    Nat.lt_of_le_of_lt hLe (of_decide_eq_true hFinite)
  obtain ⟨hSumFinite, hwFinite⟩ := isFinite_of_add hSum hWeight.1 (decide_eq_true hNumber)
  have hSumLe : sum.code ≤ (sum + w).code := le_code_add hSum hWeight.1 (Or.inl (Nat.le_refl _))
    (Nat.le_of_lt (of_decide_eq_true hSumFinite))
  have hwLe : w.code ≤ (sum + w).code := le_code_add hSum hWeight.1 (Or.inr (Nat.le_refl _))
    (Nat.le_of_lt (of_decide_eq_true hwFinite))
  have hShare := share_le hWeight.1 hTotal hWeight.2 (Nat.le_trans hwLe hLe) hFinite
  have hError := add_magnitude_mul_le hSum hWeight.1 (decide_eq_true hNumber)
  have hSumMagnitude : sum.magnitude ≤ (sum + w).magnitude := magnitudeOfCode_mono hSumLe
  have hTotalMagnitude : (sum + w).magnitude ≤ total.magnitude := magnitudeOfCode_mono hLe
  refine ⟨hSumLe, ?_⟩
  rcases Nat.eq_zero_or_pos (quantizeProbability (w * (.ofInt 1 / total))).toNat with hZero | hPos
  · rw [hZero]
    omega
  · have hStep := Nat.mul_le_mul_right total.magnitude hPos
    omega

/-- The shares of weights of which `total` is the sum. The induction is on the weights, with the sum
so far in place of zero. -/
theorem sum_shares_le {weights : List Binary32} {sum total : Binary32}
    (hWeights : ∀ w ∈ weights, IsWeight w) (hSum : sum.negative = false)
    (hFold : weights.foldl (· + ·) sum = total) (hFinite : total.isFinite = true) :
    total.negative = false ∧ sum.code ≤ total.code ∧
      10 * ((weights.map fun w => (quantizeProbability (w * (.ofInt 1 / total))).toNat).sum *
        total.magnitude) + 5101 * sum.magnitude ≤ 5101 * total.magnitude := by
  induction weights generalizing sum with
  | nil =>
      obtain rfl : sum = total := hFold
      exact ⟨hSum, Nat.le_refl _, by simp⟩
  | cons w rest ih =>
      have hWeight := hWeights w List.mem_cons_self
      obtain ⟨hTotal, hLe, hRest⟩ := ih (fun v hv => hWeights v (List.mem_cons_of_mem _ hv))
        (negative_add hSum hWeight.1) hFold
      obtain ⟨hSumLe, hStep⟩ := share_add_le hWeight hSum hTotal hFinite hLe
      refine ⟨hTotal, Nat.le_trans hSumLe hLe, ?_⟩
      rw [List.map_cons, List.sum_cons, Nat.add_mul]
      omega

/-- With the inverse zero nothing is stored, not even of an infinite weight, whose product with zero
is no number. -/
theorem quantizeProbability_mul_zero {w : Binary32} (hSign : w.negative = false) :
    quantizeProbability (w * 0) = 0 := by
  cases hFinite : w.isFinite with
  | true =>
      rw [mul_zero_of_isFinite hFinite, hSign]
      decide
  | false =>
      rw [mul_zero_of_not_isFinite hFinite]
      decide

/-- Nothing is stored of a row whose inverse is zero. -/
theorem sum_map_eq_zero {weights : List Binary32} (hWeights : ∀ w ∈ weights, IsWeight w) :
    (weights.map fun w => (quantizeProbability (w * 0)).toNat).sum = 0 := by
  induction weights with
  | nil => rfl
  | cons w rest ih =>
      rw [List.map_cons, List.sum_cons, ih fun v hv => hWeights v (List.mem_cons_of_mem _ hv),
        quantizeProbability_mul_zero (hWeights w List.mem_cons_self).1]
      rfl

/-- However many scores there are, and whatever they are, their shares sum to at most 510. A row
whose sum has overflown stores nothing, so only finite sums are left to look at. -/
theorem byteSum_softmax_le (scores : Array Binary32) : byteSum (softmax scores) ≤ 510 := by
  have hWeights : ∀ w ∈ (scores.map approxExp).toList, IsWeight w := by
    intro w hw
    obtain ⟨x, -, rfl⟩ := List.mem_map.1 (Array.toList_map ▸ hw)
    exact approxExp_normal x
  generalize hWeightList : (scores.map approxExp).toList = weights at hWeights
  have hBytes (inverse : Binary32) :
      byteSum ((scores.map approxExp).map fun w => quantizeProbability (w * inverse)) =
        (weights.map fun w => (quantizeProbability (w * inverse)).toNat).sum := by
    rw [byteSum, Array.toList_map, hWeightList, List.map_map]
    rfl
  rw [softmax, hBytes, ← Array.foldl_toList, hWeightList, sumInverse]
  generalize hTotal : weights.foldl (· + ·) 0 = total
  have hNothing : (weights.map fun w => (quantizeProbability (w * 0)).toNat).sum ≤ 510 := by
    rw [sum_map_eq_zero hWeights]
    exact Nat.zero_le _
  split
  · next hPositive =>
    obtain ⟨hSign, hCode, hNumber⟩ := zero_lt_iff.1 hPositive
    rcases Nat.lt_or_eq_of_le hNumber with hFinite | hInfinite
    · obtain ⟨-, -, hSum⟩ := sum_shares_le hWeights (by decide : (0 : Binary32).negative = false)
        hTotal (decide_eq_true hFinite)
      have hMagnitude : 0 < total.magnitude := magnitudeOfCode_pos hCode
      refine Nat.le_of_not_lt fun hMore => ?_
      have hStep := Nat.mul_le_mul_right total.magnitude (Nat.succ_le_of_lt hMore)
      omega
    · -- The inverse of infinity is zero.
      have hNaN : total.isNaN = false := by
        rw [isNaN, hInfinite]
        rfl
      have hIsInfinite : total.isInfinite = true := decide_eq_true hInfinite
      rw [div_eq hSign hNaN hCode positive_one, hIsInfinite, if_pos rfl]
      exact hNothing
  · exact hNothing

end QuantAttention
