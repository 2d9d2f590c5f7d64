import QuantAttention.Proofs.Quantization
import QuantAttention.Proofs.Softmax

/-! Sums of values weighed by the bytes of a row. The bytes sum to at most 510 and a quantized value
is at most 127 in magnitude, so a sum over any number of columns fits an accumulator with room to
spare. -/

namespace QuantAttention

open Binary32

/-- A weighed sum is bounded by the weights that went into it: it is at most their sum times the
greatest of the other factors. -/
theorem natAbs_sumTo_le {bytes : Array UInt8} {value : Nat → Int} {bound : Nat}
    (hValue : ∀ i, (value i).natAbs ≤ bound) (count : Nat) :
    (sumTo count fun i => ((bytes.getD i 0).toNat : Int) * value i).natAbs ≤
      prefixSum bytes count * bound := by
  induction count with
  | zero => simp [sumTo]
  | succ n ih =>
      have hTerm : (((bytes.getD n 0).toNat : Int) * value n).natAbs ≤
          (bytes.getD n 0).toNat * bound := by
        rw [Int.natAbs_mul, Int.natAbs_natCast]
        exact Nat.mul_le_mul_left _ (hValue n)
      rw [sumTo, prefixSum_succ, Nat.add_mul]
      omega

/-- A sum weighed by the shares of a row, over any number of columns. It is at most 510 times the
greatest entry, far inside the range of an accumulator. -/
theorem natAbs_weighedSum_le (scores : Array Binary32) {value : Nat → Int}
    (hValue : ∀ i, (value i).natAbs ≤ 127) (count : Nat) :
    (sumTo count fun i => (((softmax scores).getD i 0).toNat : Int) * value i).natAbs ≤ 510 * 127 :=
  Nat.le_trans (natAbs_sumTo_le hValue count) (Nat.mul_le_mul_right 127
    (Nat.le_trans (prefixSum_le _ count) (byteSum_softmax_le scores)))

end QuantAttention
