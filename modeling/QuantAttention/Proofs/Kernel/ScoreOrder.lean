import QuantAttention.Proofs.ExponentialOrder
import QuantAttention.Proofs.Kernel.ModerateRows

/-! Probabilities keep the order of scores. All weights of a row are multiplied with one number, which
is zero if the sum of the row has overflown or is not a number, so the order of two columns survives
whatever the other columns hold. -/

namespace QuantAttention

open Binary32

/-- Multiplied with one number, be it zero or infinite, positive numbers keep their order. They may
become equal, but not change places. -/
theorem Binary32.ordered_mul_left {x w v : Binary32} (hSign : x.negative = false)
    (hNumber : x.isNaN = false) (hw : w.Positive) (hv : v.Positive) (h : w.code ≤ v.code) :
    (x * w).Ordered (x * v) := by
  rw [mul_eq hSign hNumber hw, mul_eq hSign hNumber hv]
  cases x.isInfinite with
  | true =>
      rw [if_pos rfl, if_pos rfl]
      exact ordered_ofCode (Nat.le_refl infinityCode) (Nat.le_refl _)
  | false =>
      simp only [Bool.false_eq_true, if_false]
      exact ordered_ofRatio one_pos one_pos
        (Nat.mul_le_mul_right _ (Nat.mul_le_mul_left _ (magnitudeOfCode_mono h)))

/-- A greater weight has no smaller share, whatever the sum is. The sum need not be that of the
weights. -/
theorem share_mono {w v : Binary32} (hw : w.Positive) (hv : v.Positive) (h : w.code ≤ v.code)
    (total : Binary32) : share w total ≤ share v total := by
  have hInverse : (sumInverse total).negative = false ∧ (sumInverse total).isNaN = false := by
    rw [sumInverse]
    split
    · next hTotal =>
      obtain ⟨hSign, hCode, hNumber⟩ := zero_lt_iff.1 hTotal
      have hOrdered : total.Ordered total := ⟨hSign, hSign, Nat.le_refl _, hNumber⟩
      have hQuotient := hOrdered.div hCode positive_one
      exact ⟨hQuotient.left, hQuotient.isNaN_left⟩
    · exact ⟨rfl, rfl⟩
  rw [share, share, mul_comm w, mul_comm v]
  exact quantizeProbability_mono (ordered_mul_left hInverse.1 hInverse.2 hw hv h)

/-- The weight of a score is positive and finite. -/
theorem positive_approxExp {x : Binary32} (hx : x.isNaN = false) : (approxExp x).Positive := by
  obtain ⟨hSign, hCode⟩ := approxExp_normal x
  obtain ⟨-, hFinite⟩ := approxExp_of_number hx
  exact ⟨hSign, of_decide_eq_true hFinite, Nat.lt_of_lt_of_le (by decide) hCode⟩

namespace ProbabilityTask

variable {task : ProbabilityTask} {h r c₁ c₂ : Nat}

/-- In row `r` of head `h`, a column with a greater score has no smaller byte. -/
def InOrder (task : ProbabilityTask) (h r : Nat) (out : Array UInt8) : Prop :=
  ∀ c₁ < pad task.keyCount 16, ∀ c₂ < pad task.keyCount 16,
    (task.score h r c₁).le (task.score h r c₂) = true →
      ∃ byte₁ byte₂, out[h * task.outStep + (r * task.outStride + c₁)]? = some byte₁ ∧
        out[h * task.outStep + (r * task.outStride + c₂)]? = some byte₂ ∧ byte₁ ≤ byte₂

/-- A greater score has no smaller byte in its row: its weight is no smaller, and both are shares of
one sum. -/
theorem stored_mono (hr : r < task.rows) (hc₁ : c₁ < pad task.keyCount 16)
    (hc₂ : c₂ < pad task.keyCount 16)
    (hScores : (task.score h r c₁).le (task.score h r c₂) = true) :
    task.stored h r c₁ ≤ task.stored h r c₂ := by
  obtain ⟨⟨hFirst, hSecond⟩, -⟩ := le_eq_true.1 hScores
  rw [stored_eq_share hr hc₁, stored_eq_share hr hc₂]
  exact share_mono (positive_approxExp hFirst) (positive_approxExp hSecond)
    (approxExp_mono hScores).code_le _

/-- A buffer that holds a row in its place keeps the order of the scores of that row. -/
theorem inOrder_of_getElem? {out : Array UInt8} (hr : r < task.rows)
    (hWidth : pad task.keyCount 16 ≤ task.outStride)
    (hOut : ∀ c < task.outStride,
      out[h * task.outStep + (r * task.outStride + c)]? = some (task.stored h r c)) :
    task.InOrder h r out := by
  intro c₁ hc₁ c₂ hc₂ hScores
  exact ⟨_, _, hOut c₁ (Nat.lt_of_lt_of_le hc₁ hWidth), hOut c₂ (Nat.lt_of_lt_of_le hc₂ hWidth),
    stored_mono hr hc₁ hc₂ hScores⟩

end ProbabilityTask

namespace Probabilities

open Exponential

/-- The approximate exponential keeps the order of all numbers, has its values in one range of normal
numbers, and never leaves the range of exponents. So every row keeps the order of its scores: as soon
as the head of the row is written, and in the end where heads do not overlap. -/
theorem inOrder_run :
    (∀ x y : Binary32, x.le y = true → (approxExp x).le (approxExp y) = true) ∧
    (∀ x : Binary32, x.isNaN = false → (approxExp x).isFinite = true ∧
      one ≤ 2 ^ 126 * (approxExp x).units ∧ (approxExp x).units < 2 ^ 127 * one) ∧
    (∀ x : Binary32, 1 ≤ shiftedExponent x ∧ shiftedExponent x ≤ 254) ∧
    ∀ (task : ProbabilityTask) (h r : Nat), r < task.rows →
      (∀ before after, task.rows ≤ 16 → pad task.keyCount 16 ≤ task.outStride →
        writeHead task (pad task.keyCount 16) h before = .ok after → task.InOrder h r after) ∧
      ∀ tilesLoaded target out, run tilesLoaded task target = .ok out → h < task.heads →
        16 * task.outStride ≤ task.outStep → task.InOrder h r out := by
  refine ⟨?_, ?_, ?_, ?_⟩
  · intro x y hLe
    exact (approxExp_mono hLe).le
  · intro x hx
    exact approxExp_range hx
  · exact shiftedExponent_bounds
  · intro task h r hr
    constructor
    · intro before after hRows hWidth hWrite
      apply ProbabilityTask.inOrder_of_getElem? hr hWidth
      intro c hc
      exact getElem?_writeHead hWrite (Nat.lt_of_lt_of_le hr hRows) hc
    · intro tilesLoaded target out hRun hHead hDisjoint
      obtain ⟨⟨-, hRows, hWidth⟩, -⟩ := run_requires hRun
      apply ProbabilityTask.inOrder_of_getElem? hr hWidth
      intro c hc
      exact getElem?_run hDisjoint hRun hHead (Nat.lt_of_lt_of_le hr hRows) hc

/-- Three keys with the scores three, infinity and nothing that is a number, and behind them the
lowest scores there are. -/
def spoiledTask : ProbabilityTask :=
  { uniformTask 3 with
    bias := .ofArray (#[.ofInt 3, infinity false, nan] ++ Array.replicate 13 (infinity true)) }

/-- The kernel returns for the spoiled task. The keys that have a score stay in order, and so do the
columns behind them. -/
theorem inOrder_run_spoiled :
    (infinity true).le (.ofInt 3) = true ∧
      (approxExp (infinity true)).le (approxExp (.ofInt 3)) = true ∧
      (approxExp (infinity false)).units < 2 ^ 127 * one ∧
      (spoiledTask.score 0 0 2).isNaN = true ∧
      (spoiledTask.score 0 0 15).le (spoiledTask.score 0 0 0) = true ∧
      (spoiledTask.score 0 0 0).le (spoiledTask.score 0 0 1) = true ∧
      ∃ after out, writeHead spoiledTask 16 0 (Array.replicate 256 255) = .ok after ∧
        spoiledTask.InOrder 0 0 after ∧
        run true spoiledTask (Array.replicate 256 255) = .ok out ∧ spoiledTask.InOrder 0 0 out := by
  obtain ⟨after, hWrite⟩ : ∃ after, writeHead spoiledTask 16 0 (Array.replicate 256 255) =
      .ok after := Checked.exists_of_isOk (by decide +kernel)
  obtain ⟨out, hRun⟩ : ∃ out, run true spoiledTask (Array.replicate 256 255) = .ok out :=
    Checked.exists_of_isOk (by decide +kernel)
  obtain ⟨hMono, hRange, -, hRows⟩ := inOrder_run
  obtain ⟨hHead, hEnd⟩ := hRows spoiledTask 0 0 (by decide)
  have hLe : (infinity true).le (.ofInt 3) = true := by decide
  refine ⟨hLe, hMono _ _ hLe, (hRange (infinity false) (by decide)).2.2, by decide,
    by decide, by decide, after, out, hWrite, ?_, hRun, ?_⟩
  · exact hHead _ after (by decide) (by decide) hWrite
  · exact hEnd true _ out hRun (by decide) (by decide)

end Probabilities

end QuantAttention
