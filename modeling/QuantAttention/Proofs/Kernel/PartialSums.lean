import QuantAttention.Proofs.Kernel.Outputs
import QuantAttention.Proofs.Kernel.Probabilities

/-! Sums that the kernels form in an accumulator. Such a sum is either that of its terms or the fault
of a partial sum that does not fit, and nothing but the terms decides which. The terms of a product
and of a weighed sum come from the cells of one lane. -/

namespace QuantAttention

/-- No partial sum of the first `count` terms leaves the range of the accumulator. -/
def FittingSum (count : Nat) (term : Nat → Int) : Prop :=
  ∀ depth ≤ count, FitsAccumulator (sumTo depth term)

/-- `x` is the sum of `count` terms as an accumulator forms it: the sum itself, unless one of its
partial sums does not fit. -/
structure Accumulates (count : Nat) (term : Nat → Int) (x : Checked Int) : Prop where
  sum : FittingSum count term → x = .ok (sumTo count term)
  overflow : ¬FittingSum count term → x = .error .accumulatorOverflow

namespace Accumulates

variable {count total : Nat} {term term' : Nat → Int} {x : Checked Int}

theorem congr (h : Accumulates count term x) (hTerm : ∀ i < count, term i = term' i) :
    Accumulates count term' x := by
  have hSum (depth : Nat) (hDepth : depth ≤ count) : sumTo depth term = sumTo depth term' :=
    sumTo_congr fun i hi => hTerm i (Nat.lt_of_lt_of_le hi hDepth)
  have hFits : FittingSum count term ↔ FittingSum count term' :=
    forall₂_congr fun depth hDepth => by rw [hSum depth hDepth]
  constructor
  · intro hNew
    rw [h.sum (hFits.2 hNew), hSum count (Nat.le_refl _)]
  · intro hNot
    exact h.overflow (mt hFits.1 hNot)

/-- Terms that are zero do not count. -/
theorem of_zero (h : Accumulates total term x) (hCount : count ≤ total)
    (hZero : ∀ i, count ≤ i → i < total → term i = 0) : Accumulates count term x := by
  have hRest (depth : Nat) (hFirst : count ≤ depth) (hLast : depth ≤ total) :
      sumTo depth term = sumTo count term :=
    sumTo_of_zero hFirst fun i hi hLt => hZero i hi (Nat.lt_of_lt_of_le hLt hLast)
  have hFits (hAll : FittingSum count term) : FittingSum total term := by
    intro depth hDepth
    rcases Nat.le_total depth count with hBefore | hAfter
    · exact hAll depth hBefore
    · rw [hRest depth hAfter hDepth]
      exact hAll count (Nat.le_refl _)
  constructor
  · intro hAll
    rw [h.sum (hFits hAll), hRest total hCount (Nat.le_refl _)]
  · intro hNot
    exact h.overflow fun hAll => hNot fun depth hDepth => hAll depth (Nat.le_trans hDepth hCount)

/-- What comes before a sum and does not fault has no part in whether the sum fits. -/
theorem bind_ok {α : Type} {first : Checked α} {rest : α → Checked Int} {a : α}
    (hFirst : first = .ok a) (h : Accumulates count term (rest a)) :
    Accumulates count term (first >>= rest) := by
  rw [hFirst]
  exact h

/-- A contraction over entries that can be read sums the products in their order, so it fits or
overflows with their partial sums. -/
theorem contractLane {lane : Nat} {left : Nat → Checked Int} {block : View Int8}
    (value : Nat → Int) (hLeft : ∀ i < count, left i = .ok (value i))
    (hBlock : ∀ i < count, cell lane i < block.size ∧ cell lane i < Size.limit) :
    Accumulates count (fun i => value i * (block.getD (cell lane i) 0).toInt)
      (QuantAttention.contractLane count left block lane) := by
  have hValue (i : Nat) (hi : i < count) (y : Int) (hy : left i = .ok y) : y = value i :=
    Except.ok.inj (hy.symm.trans (hLeft i hi))
  have hSafe (allowed : Fault → Prop) (i : Nat) (hi : i < count) : FaultsOnly allowed (left i) :=
    hLeft i hi ▸ .ok _
  constructor
  · intro hFits
    have hNone : FaultsOnly (fun _ => False) (QuantAttention.contractLane count left block lane) :=
      .contractLane value (hSafe _) hValue hBlock (.inr hFits)
    obtain ⟨sum, hSum⟩ := hNone.exists_value
    rw [hSum, eq_sumTo_of_contractLane value hValue hSum]
  · intro hNot
    have hOnly : FaultsOnly (fun fault => fault = .accumulatorOverflow)
        (QuantAttention.contractLane count left block lane) :=
      .contractLane value (hSafe _) hValue hBlock (.inl rfl)
    cases hRun : QuantAttention.contractLane count left block lane with
    | ok sum => exact absurd (fun depth => fits_of_contractLane value hValue hRun) hNot
    | error fault => rw [hOnly fault hRun]

end Accumulates

namespace View

variable {α : Type}

theorem get_of_lt {v : View α} {i : Nat} (hi : i < v.size) (fallback : α) :
    v.get i = .ok (v.getD i fallback) := by
  rw [get, getD, dif_pos hi, dif_pos hi]

theorem exists_drop {v : View α} {count : Nat} (h : count ≤ v.size) :
    ∃ w, v.drop count = .ok w := ⟨_, dif_pos h⟩

theorem exists_take {v : View α} {count : Nat} (h : count ≤ v.size) :
    ∃ w, v.take count = .ok w := ⟨_, dif_pos ⟨Nat.zero_le count, h⟩⟩

end View

namespace Probabilities

/-- A product of operands that are long enough is the sum of its terms if all partial sums fit, and
overflows otherwise. -/
theorem accumulates_dotKey {query keys : View Int8} {blockStride c : Nat}
    (hStart : Within keys.size (c / 16 * blockStride))
    (hKeys : ∀ i < query.size, Within keys.size (c / 16 * blockStride + (cell (c % 16) i + 1))) :
    Accumulates query.size (fun i => (query.getD i 0).toInt *
      (keys.getD (c / 16 * blockStride + cell (c % 16) i) 0).toInt)
      (dotKey query keys blockStride c) := by
  obtain ⟨block, hBlock⟩ := View.exists_drop hStart.1
  rw [dotKey, Size.ofNat_mul hStart.2]
  apply Accumulates.bind_ok rfl
  apply Accumulates.bind_ok hBlock
  refine (Accumulates.contractLane (fun i => (query.getD i 0).toInt) ?_ ?_).congr ?_
  · intro i hi
    rw [View.get_of_lt hi 0]
    rfl
  · intro i hi
    have hCell := (hKeys i hi).drop
    rw [← (View.size_drop hBlock).2] at hCell
    exact ⟨hCell.1, Nat.lt_of_succ_lt hCell.2⟩
  · intro i _
    rw [View.getD_drop hBlock]

end Probabilities

namespace OutputTask

theorem natAbs_weight_le (task : OutputTask) (r h k : Nat) : (task.weight r h k).natAbs ≤ 255 := by
  rw [weight, Int.natAbs_natCast]
  exact Nat.le_of_lt_succ (UInt8.toNat_lt _)

end OutputTask

namespace Outputs

/-- A sum over operands that are long enough behaves in the same way, padding included. -/
theorem accumulates_columnSum {task : OutputTask} {depth r h c : Nat}
    (hWeights : Within task.probabilities.size
      (h * task.probabilityStep + r * task.probabilityStride + depth))
    (hBlock : Within task.values.size (h * task.valueStep + c / 16 * task.valueBlockStride))
    (hValues : ∀ k < depth, Within task.values.size
      (h * task.valueStep + c / 16 * task.valueBlockStride + (cell (c % 16) k + 1))) :
    Accumulates depth (task.product r h c)
      (columnSum task depth r h c) := by
  have hStart := hWeights.mono (Nat.le_add_right _ _)
  obtain ⟨rest, hRest⟩ := View.exists_drop hStart.1
  have hDepth := hWeights.drop.1
  rw [← (View.size_drop hRest).2] at hDepth
  obtain ⟨weights, hTake⟩ := View.exists_take hDepth
  have hSize := (View.size_slice hTake).2.2
  rw [Nat.sub_zero] at hSize
  obtain ⟨block, hDrop⟩ := View.exists_drop hBlock.1
  rw [columnSum, Size.ofNat_mul (hStart.mono (Nat.le_add_right _ _)).2,
    Size.ofNat_mul (hStart.mono (Nat.le_add_left _ _)).2,
    Size.ofNat_mul (hBlock.mono (Nat.le_add_right _ _)).2,
    Size.ofNat_mul (hBlock.mono (Nat.le_add_left _ _)).2]
  apply Accumulates.bind_ok (Size.eval_add_of_lt hStart.2)
  apply Accumulates.bind_ok hRest
  apply Accumulates.bind_ok hTake
  apply Accumulates.bind_ok (Size.eval_add_of_lt hBlock.2)
  apply Accumulates.bind_ok hDrop
  rw [hSize]
  refine (Accumulates.contractLane (fun k => ((weights.getD k 0).toNat : Int)) ?_ ?_).congr ?_
  · intro k hk
    rw [View.get_of_lt (hSize ▸ hk) 0]
    rfl
  · intro k hk
    have hCell := (hValues k hk).drop
    rw [← (View.size_drop hDrop).2] at hCell
    exact ⟨hCell.1, Nat.lt_of_succ_lt hCell.2⟩
  · intro k hk
    rw [View.getD_slice hTake (by omega), Nat.zero_add, View.getD_drop hRest,
      View.getD_drop hDrop]
    rfl

end Outputs

end QuantAttention
