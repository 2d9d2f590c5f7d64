import QuantAttention.Proofs.Kernel.Probabilities
import QuantAttention.Proofs.Softmax

/-! Every cell that the probability kernel writes. A column of a query holds its share of the sum of
the row, which is formed from left to right over all padded columns; the rest of the sixteen rows of a
head is zero, and so is a whole row whose sum is not finite. -/

namespace QuantAttention

open Binary32

namespace ProbabilityTask

variable {task : ProbabilityTask} {h r c : Nat}

def weight (task : ProbabilityTask) (h r c : Nat) : Binary32 := approxExp (task.score h r c)

/-- The scores of query `r` in head `h`, columns without a key included. -/
def rowScores (task : ProbabilityTask) (h r : Nat) : List Binary32 :=
  (List.range (pad task.keyCount 16)).map (task.score h r)

/-- The sum of the weights of all padded columns. -/
def rowSum (task : ProbabilityTask) (h r : Nat) : Binary32 := weightSum (task.rowScores h r)

def rowInverse (task : ProbabilityTask) (h r : Nat) : Binary32 := sumInverse (task.rowSum h r)

def cellAt (task : ProbabilityTask) (h r c : Nat) : Nat :=
  h * task.outStep + (r * task.outStride + c)

/-- The byte of a column is the share of its weight. The other columns have a part in it through the
sum of the row only. -/
theorem stored_eq_share (hr : r < task.rows) (hc : c < pad task.keyCount 16) :
    task.stored h r c = share (task.weight h r c) (task.rowSum h r) := by
  rw [stored, if_pos hr, probabilities, getD_softmax_ofFn (task.score h r) hc]
  rfl

/-- A weight is stored as its share of the sum. -/
theorem stored_eq (hr : r < task.rows) (hc : c < pad task.keyCount 16) :
    task.stored h r c = quantizeProbability (task.weight h r c * task.rowInverse h r) := by
  rw [stored_eq_share hr hc, share, rowInverse]

/-- Rows without a query and columns behind the padded keys hold zero. -/
theorem stored_eq_zero (hRest : task.rows ≤ r ∨ pad task.keyCount 16 ≤ c) :
    task.stored h r c = 0 := by
  rw [stored]
  split
  · next hr =>
    have hSize : (task.probabilities h r).size = pad task.keyCount 16 := by
      simp [probabilities, softmax]
    rw [Array.getD_eq_getD_getElem?, Array.getElem?_eq_none (by omega)]
    rfl
  · rfl

/-- Of a row whose sum is not finite nothing is stored, whatever the single weights are: its inverse
is zero. -/
theorem stored_spoiled (hSum : (task.rowSum h r).isFinite = false) : task.stored h r c = 0 := by
  by_cases hLive : r < task.rows ∧ c < pad task.keyCount 16
  · rw [stored_eq hLive.1 hLive.2, rowInverse, sumInverse_of_not_isFinite hSum]
    exact quantizeProbability_mul_zero (approxExp_normal _).1
  · exact stored_eq_zero (by omega)

/-- `out` is `target` with the probabilities of every head. -/
structure Filled (task : ProbabilityTask) (target out : Array UInt8) : Prop where
  size_eq : out.size = target.size
  inside : ∀ h < task.heads, h * task.outStep + 16 * task.outStride ≤ target.size
  live : ∀ h < task.heads, ∀ r < task.rows, ∀ c < pad task.keyCount 16,
    out[task.cellAt h r c]? =
      some (quantizeProbability (task.weight h r c * task.rowInverse h r))
  cleared : ∀ h < task.heads, ∀ r < 16, ∀ c < task.outStride,
    task.rows ≤ r ∨ pad task.keyCount 16 ≤ c → out[task.cellAt h r c]? = some 0
  spoiled : ∀ h < task.heads, ∀ r < task.rows,
    (task.rowSum h r).isNaN = true ∨ (task.rowSum h r).isInfinite = true →
      ∀ c < task.outStride, out[task.cellAt h r c]? = some 0
  kept : ∀ p, (∀ h < task.heads, p < h * task.outStep ∨ h * task.outStep + 16 * task.outStride ≤ p) →
    out[p]? = target[p]?

end ProbabilityTask

namespace Probabilities

variable {task : ProbabilityTask} {tilesLoaded : Bool} {target out : Array UInt8}

/-- What a run leaves in the target, cell by cell. No cell depends on what the target held before
it. -/
theorem filled_run (hDisjoint : 16 * task.outStride ≤ task.outStep)
    (hRun : run tilesLoaded task target = .ok out) : task.Filled target out := by
  obtain ⟨⟨-, hRows, hWidth⟩, -⟩ := run_requires hRun
  have hCell (h : Nat) (hh : h < task.heads) (r : Nat) (hr : r < 16) (c : Nat)
      (hc : c < task.outStride) : out[task.cellAt h r c]? = some (task.stored h r c) :=
    getElem?_run hDisjoint hRun hh hr hc
  refine ⟨size_run hRun, fun h => run_fits hRun, ?_, ?_, ?_, ?_⟩
  · intro h hh r hr c hc
    rw [hCell h hh r (Nat.lt_of_lt_of_le hr hRows) c (Nat.lt_of_lt_of_le hc hWidth),
      ProbabilityTask.stored_eq hr hc]
  · intro h hh r hr c hc hRest
    rw [hCell h hh r hr c hc, ProbabilityTask.stored_eq_zero hRest]
  · intro h hh r hr hSum c hc
    rw [hCell h hh r (Nat.lt_of_lt_of_le hr hRows) c hc, ProbabilityTask.stored_spoiled]
    refine Bool.eq_false_iff.2 fun hFinite => ?_
    obtain ⟨hNaN, hInfinite⟩ := isFinite_eq.1 hFinite
    simp [hNaN, hInfinite] at hSum
  · intro p hOutside
    apply (run_rewritten hDisjoint hRun).kept
    rintro ⟨h, hh, hFirst, hLast⟩
    have hApart := hOutside h hh
    omega

/-- Where heads do not overlap, the kernel writes the probabilities of every head, clears the rest of
its sixteen rows, and leaves everything else alone. -/
theorem run_fills (hDisjoint : 16 * task.outStride ≤ task.outStep)
    (hRun : run tilesLoaded task target = .ok out) :
    (tilesLoaded = true ∧ task.rows ≤ 16 ∧ pad task.keyCount 16 ≤ task.outStride) ∧
      (∀ h < task.heads, ∀ r < task.rows, ∀ c < pad task.keyCount 16, ∃ operands query,
        head task h = .ok operands ∧
          operands.queries.slice (r * task.queryStride) (r * task.queryStride + task.depth) =
            .ok query ∧
          score task operands query r c = .ok (task.score h r c)) ∧
      task.Filled target out :=
  ⟨(run_requires hRun).1, fun _ hh _ hr _ hc => scores_of_run hRun hh hr hc,
    filled_run hDisjoint hRun⟩

/-- Two queries and three keys for each of two heads, with room behind the rows and the heads. The
second query has scores in the thousands in the first head, and none that is a number in the second.
-/
def spoiledHeads : ProbabilityTask where
  queries := .ofArray #[1, 2, 3, 0]
  keys := .ofArray (interleave 64 #[#[1], #[2], #[3]] ++ interleave 64 #[#[0], #[1], #[-1]])
  queryScale := .ofArray #[.ofInt 1, .ofInt 1000, .ofInt 1, .nan]
  keyScale := .ofArray (Array.replicate 3 (.ofInt 1))
  bias := .ofArray (Array.replicate 3 0 ++ Array.replicate 13 (.ofInt (-1000)))
  depth := 1
  keyCount := 3
  rows := 2
  queryStride := 2
  keyBlockStride := 64
  outStride := 20
  heads := 2
  queryStep := 1
  queryScaleStep := 2
  keyStep := 64
  keyScaleStep := 0
  outStep := 325

/-- The first query has its probabilities, the second one has none: its sum is infinite in one head
and no number in the other. Cells between the heads and behind them are kept. -/
theorem run_fills_spoiled :
    16 * spoiledHeads.outStride ≤ spoiledHeads.outStep ∧
      ∃ out, run true spoiledHeads (Array.replicate 650 9) = .ok out ∧
        spoiledHeads.score 1 0 1 = .ofInt 2 ∧
        (∃ byte, byte ≠ 0 ∧ out[spoiledHeads.cellAt 1 0 1]? = some byte) ∧
        (spoiledHeads.rowSum 0 1).isInfinite = true ∧ (spoiledHeads.rowSum 1 1).isNaN = true ∧
        (∀ h < 2, ∀ c < 20, out[spoiledHeads.cellAt h 1 c]? = some 0) ∧
        out[spoiledHeads.cellAt 1 0 16]? = some 0 ∧ out[spoiledHeads.cellAt 1 15 0]? = some 0 ∧
        out[320]? = some 9 ∧ out[649]? = some 9 := by
  have hDisjoint : 16 * spoiledHeads.outStride ≤ spoiledHeads.outStep := by decide
  have hTask : spoiledHeads.InBounds 650 := by
    constructor
    all_goals decide +kernel
  have hSums : spoiledHeads.FittingSums := fun h _ r _ c _ depth hDepth =>
    fits_sumTo_mul (Nat.lt_of_le_of_lt hDepth (by decide)) _ _
  obtain ⟨out, hRun⟩ : ∃ out, run true spoiledHeads (Array.replicate 650 9) = .ok out :=
    (run_faultsOnly (by rwa [Array.size_replicate]) (.inr hSums)).exists_value
  obtain ⟨-, -, hFilled⟩ := run_fills hDisjoint hRun
  have hInfinite : (spoiledHeads.rowSum 0 1).isInfinite = true := by decide +kernel
  have hNaN : (spoiledHeads.rowSum 1 1).isNaN = true := by decide +kernel
  refine ⟨hDisjoint, out, hRun, by decide +kernel,
    ⟨_, ?_, hFilled.live 1 (by decide) 0 (by decide) 1 (by decide)⟩, hInfinite, hNaN, ?_,
    hFilled.cleared 1 (by decide) 0 (by decide) 16 (by decide) (by decide),
    hFilled.cleared 1 (by decide) 15 (by decide) 0 (by decide) (by decide), ?_, ?_⟩
  · decide +kernel
  · intro h hh c hc
    refine hFilled.spoiled h hh 1 (by decide) ?_ c hc
    match h, hh with
    | 0, _ => exact .inr hInfinite
    | 1, _ => exact .inl hNaN
  · rw [hFilled.kept 320 (by decide), Array.getElem?_replicate, if_pos (by decide)]
  · rw [hFilled.kept 649 (by decide), Array.getElem?_replicate, if_pos (by decide)]

end Probabilities

end QuantAttention
