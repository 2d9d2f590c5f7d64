import Mathlib.Tactic.Ring
import QuantAttention.Attention.Attending
import QuantAttention.Proofs.Attention.Packing
import QuantAttention.Proofs.Kernel.Outputs
import QuantAttention.Proofs.Kernel.Probabilities
import QuantAttention.Proofs.Mask
import QuantAttention.Proofs.WeighedSum

/-! The second phase of a call, in any order of its tasks. A task reads packed operands, the prepared
mask and the scratch that it has just filled, and of none of them more than the first phase, the
preparation and the task itself have written. -/

namespace QuantAttention

namespace RowMajor

/-- No sum over a query and a key leaves the range of an accumulator, not even before its end. -/
def FittingSums (d : Dims) (call : Call) : Prop :=
  ∀ batch < d.batchSize, ∀ m < d.seqQ, ∀ h < d.headNum, ∀ j < d.seqK, ∀ depth ≤ d.headSize,
    FitsAccumulator (dotTo d call depth batch m h j)

/-- The sums of heads with fewer than `2 ^ 17` columns fit whatever the entries are, as no product
of two entries exceeds `2 ^ 14`. -/
theorem fittingSums_of_lt {d : Dims} (call : Call) (h : d.headSize < 131072) :
    FittingSums d call := by
  intro batch _ m _ head _ j _ depth hDepth
  exact Probabilities.fits_sumTo_mul (Nat.lt_of_le_of_lt hDepth h)
    (fun c => entry d call.queries d.seqQ batch m head c)
    (fun c => entry d call.keys d.seqK batch j head c)

end RowMajor

namespace Attending

variable {d : Dims} {call : Call} {maskRows : Array Binary32} {operands : PackedOperands}
  {task : RowTask} {h r c : Nat}

/-- The rows of the mask are those of the call, padded. -/
def MaskFor (d : Dims) (call : Call) (maskRows : Array Binary32) : Prop :=
  ∀ batch c, batch < d.batchSize → c < pad d.seqK 16 →
    maskRows.getD (batch * (Strides.ofDims d).mask + c) 0 =
      PreparedMask.paddedEntry call.mask d.seqK batch c

/-- What a probability task for rows of a batch reads, and where. -/
structure ProbabilityTaskFor (d : Dims) (call : Call) (maskRows : Array Binary32)
    (operands : PackedOperands) (task : RowTask) (t : ProbabilityTask) : Prop where
  queries : ∀ i, t.queries.getD i 0 = call.queries.getD
    ((task.batch * d.seqQ + task.block * blockRows) * (d.headNum * d.headSize) + i) 0
  keys : ∀ i, t.keys.getD i 0 =
    operands.keys.getD (task.batch * d.headNum * (Strides.ofDims d).headKeys + i) 0
  queryScale : ∀ i, t.queryScale.getD i 0 =
    call.queryScale.getD (task.batch * d.seqQ + task.block * blockRows + i) 0
  keyScale : ∀ i, t.keyScale.getD i 0 = call.keyScale.getD (task.batch * d.seqK + i) 0
  bias : ∀ i, t.bias.getD i 0 = maskRows.getD (task.batch * (Strides.ofDims d).mask + i) 0
  depth : t.depth = d.headSize
  keyCount : t.keyCount = d.seqK
  rows : t.rows = rowCount d task
  queryStride : t.queryStride = d.headNum * d.headSize
  keyBlockStride : t.keyBlockStride = 16 * (Strides.ofDims d).keyDepth
  outStride : t.outStride = (Strides.ofDims d).rowLength
  heads : t.heads = d.headNum
  queryStep : t.queryStep = d.headSize
  queryScaleStep : t.queryScaleStep = 0
  keyStep : t.keyStep = (Strides.ofDims d).headKeys
  keyScaleStep : t.keyScaleStep = 0
  outStep : t.outStep = 16 * (Strides.ofDims d).rowLength
  queries_size : t.queries.size = call.queries.size -
    (task.batch * d.seqQ + task.block * blockRows) * (d.headNum * d.headSize)
  keys_size : t.keys.size =
    operands.keys.size - task.batch * d.headNum * (Strides.ofDims d).headKeys
  queryScale_size : t.queryScale.size =
    call.queryScale.size - (task.batch * d.seqQ + task.block * blockRows)
  keyScale_size : t.keyScale.size = call.keyScale.size - task.batch * d.seqK
  bias_size : t.bias.size = maskRows.size - task.batch * (Strides.ofDims d).mask

theorem firstRow_eq {row : Nat} (hRow : firstRow d task = .ok row) :
    row = task.batch * d.seqQ + task.block * blockRows := by
  simp only [firstRow, Size.eval_add_eq_ok, Size.eval_mul_eq_ok, Size.eval_ofNat, Except.ok.injEq,
    exists_and_left, exists_eq_left', exists_eq_left, and_assoc] at hRow
  obtain ⟨-, -, -, rfl⟩ := hRow
  rfl

/-- A task that can be formed at all has the operands of its batch, at the strides of the
dimensions. Nothing of it depends on the worker that runs it. -/
theorem probabilityTaskFor {t : ProbabilityTask}
    (ht : probabilityTask d (.ofDims d) call maskRows operands task = .ok t) :
    ProbabilityTaskFor d call maskRows operands task t := by
  simp only [probabilityTask, Checked.bind_eq_ok, Checked.pure_eq_ok, Size.eval_mul_eq_ok,
    Size.eval_ofNat, Size.eval_literal, Except.ok.injEq, exists_and_left, exists_eq_left',
    exists_eq_left, and_assoc] at ht
  obtain ⟨row, hRow, -, queries, hQueries, -, -, keys, hKeys, queryScale, hQueryScale, -, keyScale,
    hKeyScale, -, bias, hBias, -, -, rfl⟩ := ht
  obtain rfl := firstRow_eq hRow
  exact {
    queries := fun i => by rw [View.getD_drop hQueries, View.getD_ofArray]; rfl
    keys := fun i => by rw [View.getD_drop hKeys, View.getD_ofArray]
    queryScale := fun i => by rw [View.getD_drop hQueryScale, View.getD_ofArray]
    keyScale := fun i => by rw [View.getD_drop hKeyScale, View.getD_ofArray]
    bias := fun i => by rw [View.getD_drop hBias, View.getD_ofArray]
    depth := rfl, keyCount := rfl, rows := rfl, queryStride := rfl, keyBlockStride := rfl
    outStride := rfl, heads := rfl, queryStep := rfl, queryScaleStep := rfl, keyStep := rfl
    keyScaleStep := rfl, outStep := rfl
    queries_size := (View.size_drop hQueries).2
    keys_size := (View.size_drop hKeys).2
    queryScale_size := (View.size_drop hQueryScale).2
    keyScale_size := (View.size_drop hKeyScale).2
    bias_size := (View.size_drop hBias).2 }

/-- Where an entry of a query stands, counted from its task and from the start of the tensor. Both
ways of counting come to one position. -/
theorem query_position (d : Dims) (task : RowTask) (h r i : Nat) :
    (task.batch * d.seqQ + task.block * blockRows) * (d.headNum * d.headSize) +
        (h * d.headSize + (r * (d.headNum * d.headSize) + i)) =
      ((task.batch * d.seqQ + (task.block * blockRows + r)) * d.headNum + h) * d.headSize + i := by
  ring

/-- What a task sums for a query and a column, up to any depth. A column without a key adds
nothing. -/
theorem dotTo_eq {t : ProbabilityTask} (ht : ProbabilityTaskFor d call maskRows operands task t)
    (hPacked : PackedFor d call operands) (hBatch : task.batch < d.batchSize) (hh : h < d.headNum)
    (hc : c < pad d.seqK 16) {depth : Nat} (hDepth : depth ≤ d.headSize) :
    t.dotTo depth h r c =
      if c < d.seqK then RowMajor.dotTo d call depth task.batch (task.block * blockRows + r) h c
      else 0 := by
  have hKey (i : Nat) (hi : i < depth) :
      t.keys.getD (h * t.keyStep + (c / 16 * t.keyBlockStride + cell (c % 16) i)) 0 =
        if c < d.seqK then RowMajor.entry d call.keys d.seqK task.batch c h i else 0 := by
    rw [ht.keys, ht.keyStep, ht.keyBlockStride,
      ← hPacked.keys task.batch h c i hBatch hh hc (Nat.lt_of_lt_of_le hi hDepth)]
    congr 1
    ring
  have hQuery (i : Nat) :
      t.queries.getD (h * t.queryStep + (r * t.queryStride + i)) 0 =
        RowMajor.entry d call.queries d.seqQ task.batch (task.block * blockRows + r) h i := by
    rw [ht.queries, ht.queryStep, ht.queryStride, query_position, RowMajor.entry]
  rw [ProbabilityTask.dotTo]
  split
  · next hReal =>
    refine sumTo_congr fun i hi => ?_
    rw [hKey i hi, if_pos hReal, hQuery]
  · next hReal =>
    have hZero (i : Nat) (_ : 0 ≤ i) (hi : i < depth) :
        (t.queries.getD (h * t.queryStep + (r * t.queryStride + i)) 0).toInt *
          (t.keys.getD (h * t.keyStep + (c / 16 * t.keyBlockStride + cell (c % 16) i)) 0).toInt =
            0 := by
      rw [hKey i hi, if_neg hReal]
      exact Int.mul_zero _
    exact sumTo_of_zero (Nat.zero_le _) hZero

/-- At full depth the sum is the product of the query with the key. Behind the last key the packed
lanes are zero, and so is every product with them. -/
theorem dot_eq {t : ProbabilityTask} (ht : ProbabilityTaskFor d call maskRows operands task t)
    (hPacked : PackedFor d call operands) (hBatch : task.batch < d.batchSize) (hh : h < d.headNum)
    (hc : c < pad d.seqK 16) :
    t.dot h r c =
      if c < d.seqK then RowMajor.dot d call task.batch (task.block * blockRows + r) h c else 0 := by
  rw [ProbabilityTask.dot, ht.depth, dotTo_eq ht hPacked hBatch hh hc (Nat.le_refl _), RowMajor.dot]

/-- The scores of a task are those of the row-major tensors, columns behind the last key
included. -/
theorem score_eq {t : ProbabilityTask} (ht : ProbabilityTaskFor d call maskRows operands task t)
    (hPacked : PackedFor d call operands) (hMask : MaskFor d call maskRows)
    (hBatch : task.batch < d.batchSize) (hh : h < d.headNum) (hc : c < pad d.seqK 16) :
    t.score h r c = RowMajor.score d call task.batch (task.block * blockRows + r) h c := by
  rw [ProbabilityTask.score, dot_eq ht hPacked hBatch hh hc, ht.queryScaleStep, ht.keyScaleStep,
    ht.queryScale, ht.bias, ht.keyCount, hMask _ _ hBatch hc, Nat.mul_zero, Nat.zero_add,
    Nat.zero_add, RowMajor.score, PreparedMask.paddedEntry, ← Nat.add_assoc]
  split
  · rw [ht.keyScale]
  · rfl

/-- The probabilities of a task are those of the row-major tensors: blocks of rows, packed keys and
padded masks leave no trace in them. -/
theorem probabilities_eq {t : ProbabilityTask}
    (ht : ProbabilityTaskFor d call maskRows operands task t) (hPacked : PackedFor d call operands)
    (hMask : MaskFor d call maskRows) (hBatch : task.batch < d.batchSize) (hh : h < d.headNum) :
    t.probabilities h r =
      RowMajor.probabilities d call task.batch (task.block * blockRows + r) h := by
  rw [ProbabilityTask.probabilities, RowMajor.probabilities, ht.keyCount]
  congr 2
  funext c
  exact score_eq ht hPacked hMask hBatch hh c.isLt

/-- The scratch holds the probabilities of the task's rows, zero behind the last of them. -/
def ScratchFor (d : Dims) (call : Call) (task : RowTask) (scratch : Array UInt8) : Prop :=
  ∀ h r c, h < d.headNum → r < rowCount d task → c < (Strides.ofDims d).rowLength →
    scratch[h * (16 * (Strides.ofDims d).rowLength) + (r * (Strides.ofDims d).rowLength + c)]? =
      some ((RowMajor.probabilities d call task.batch (task.block * blockRows + r) h).getD c 0)

theorem rowCount_le (d : Dims) (task : RowTask) : rowCount d task ≤ 16 := Nat.min_le_right ..

/-- After the probability kernel it does not matter what an earlier task left in the scratch. The
kernel writes all sixteen rows of every head, up to the end of their stride. -/
theorem scratchFor_run {t : ProbabilityTask}
    (ht : ProbabilityTaskFor d call maskRows operands task t) (hPacked : PackedFor d call operands)
    (hMask : MaskFor d call maskRows) (hBatch : task.batch < d.batchSize) {tilesLoaded : Bool}
    {before after : Array UInt8} (hRun : Probabilities.run tilesLoaded t before = .ok after) :
    ScratchFor d call task after := by
  intro h r c hh hr hc
  have hRows := rowCount_le d task
  have hDisjoint : 16 * t.outStride ≤ t.outStep := by rw [ht.outStride, ht.outStep]
  have hEntry := Probabilities.getElem?_run hDisjoint hRun (h := h) (r := r) (c := c)
    (by rwa [ht.heads]) (by omega) (by rwa [ht.outStride])
  rw [ht.outStep, ht.outStride] at hEntry
  rw [hEntry, ProbabilityTask.stored, ht.rows, if_pos hr,
    probabilities_eq ht hPacked hMask hBatch hh]

structure OutputTaskFor (d : Dims) (operands : PackedOperands) (scratch : Array UInt8)
    (task : RowTask) (t : OutputTask) : Prop where
  probabilities : ∀ i, t.probabilities.getD i 0 = scratch.getD i 0
  values : ∀ i, t.values.getD i 0 =
    operands.values.getD (task.batch * d.headNum * (Strides.ofDims d).headValues + i) 0
  valueScale : ∀ i, t.valueScale.getD i 0 =
    operands.valueScale.getD (task.batch * d.headNum * (Strides.ofDims d).headScales + i) 0
  keyCount : t.keyCount = d.seqK
  cols : t.cols = d.headSize
  rows : t.rows = rowCount d task
  probabilityStride : t.probabilityStride = (Strides.ofDims d).rowLength
  valueBlockStride : t.valueBlockStride = 16 * (Strides.ofDims d).rowLength
  outStride : t.outStride = d.headNum * d.headSize
  heads : t.heads = d.headNum
  probabilityStep : t.probabilityStep = 16 * (Strides.ofDims d).rowLength
  valueStep : t.valueStep = (Strides.ofDims d).headValues
  valueScaleStep : t.valueScaleStep = (Strides.ofDims d).headScales
  outStep : t.outStep = d.headSize
  probabilities_size : t.probabilities.size = scratch.size
  values_size : t.values.size =
    operands.values.size - task.batch * d.headNum * (Strides.ofDims d).headValues
  valueScale_size : t.valueScale.size =
    operands.valueScale.size - task.batch * d.headNum * (Strides.ofDims d).headScales

/-- The output task reads the scratch of its worker and the packed values of its batch, again at the
strides of the dimensions. -/
theorem outputTaskFor {scratch : Array UInt8} {t : OutputTask}
    (ht : outputTask d (.ofDims d) operands scratch task = .ok t) :
    OutputTaskFor d operands scratch task t := by
  simp only [outputTask, Checked.bind_eq_ok, Checked.pure_eq_ok, Size.eval_mul_eq_ok,
    Size.eval_ofNat, Size.eval_literal, Except.ok.injEq, exists_and_left, exists_eq_left',
    exists_eq_left, and_assoc] at ht
  obtain ⟨-, -, values, hValues, -, -, valueScale, hValueScale, -, -, rfl⟩ := ht
  exact {
    probabilities := fun i => View.getD_ofArray ..
    values := fun i => by rw [View.getD_drop hValues, View.getD_ofArray]
    valueScale := fun i => by rw [View.getD_drop hValueScale, View.getD_ofArray]
    keyCount := rfl, cols := rfl, rows := rfl, probabilityStride := rfl, valueBlockStride := rfl
    outStride := rfl, heads := rfl, probabilityStep := rfl, valueStep := rfl
    valueScaleStep := rfl, outStep := rfl, probabilities_size := rfl
    values_size := (View.size_drop hValues).2
    valueScale_size := (View.size_drop hValueScale).2 }

variable {scratch : Array UInt8} {t : OutputTask}

/-- The packed values that a task weighs are the entries of the requantized columns, zero behind the
last key. -/
theorem value_eq (ht : OutputTaskFor d operands scratch task t) (hPacked : PackedFor d call operands)
    (hBatch : task.batch < d.batchSize) (hh : h < d.headNum) (hc : c < d.headSize) {k : Nat}
    (hk : k < pad d.seqK 64) :
    t.values.getD (h * t.valueStep + c / 16 * t.valueBlockStride + cell (c % 16) k) 0 =
      (RowMajor.column d call task.batch h c).2.getD k 0 := by
  rw [ht.values, ht.valueStep, ht.valueBlockStride,
    ← hPacked.values task.batch h c k hBatch hh hc hk]
  congr 1
  simp only [Strides.ofDims]
  ring

/-- The sum over the first `depth` keys, padding included. The bytes come from the scratch and the
values from the packed blocks, but both are known entry by entry. -/
theorem total_eq_sumTo (ht : OutputTaskFor d operands scratch task t)
    (hPacked : PackedFor d call operands) (hScratch : ScratchFor d call task scratch)
    (hBatch : task.batch < d.batchSize) (hr : r < rowCount d task) (hh : h < d.headNum)
    (hc : c < d.headSize) {depth : Nat} (hDepth : depth ≤ pad d.seqK 64) :
    t.total depth r h c = sumTo depth fun k =>
      (((RowMajor.probabilities d call task.batch (task.block * blockRows + r) h).getD k 0).toNat :
        Int) * ((RowMajor.column d call task.batch h c).2.getD k 0).toInt := by
  refine sumTo_congr fun k hk => ?_
  have hWeight : t.probabilities.getD (t.probabilityPosition r h k) 0 =
      (RowMajor.probabilities d call task.batch (task.block * blockRows + r) h).getD k 0 := by
    rw [OutputTask.probabilityPosition, ht.probabilities, ht.probabilityStep, ht.probabilityStride, Nat.add_assoc,
      Array.getD_eq_getD_getElem?, hScratch h r k hh hr (Nat.lt_of_lt_of_le hk hDepth),
      Option.getD_some]
  rw [OutputTask.product, OutputTask.weight, hWeight, OutputTask.valuePosition, value_eq ht hPacked hBatch hh hc (Nat.lt_of_lt_of_le hk hDepth)]

/-- The kernel counts keys up to a multiple of 64. Those behind the last have the value zero, so
their sum is that over the keys alone. -/
theorem total_eq (ht : OutputTaskFor d operands scratch task t) (hPacked : PackedFor d call operands)
    (hScratch : ScratchFor d call task scratch) (hBatch : task.batch < d.batchSize)
    (hr : r < rowCount d task) (hh : h < d.headNum) (hc : c < d.headSize) :
    t.total (pad d.seqK 64) r h c = sumTo d.seqK fun k =>
      (((RowMajor.probabilities d call task.batch (task.block * blockRows + r) h).getD k 0).toNat :
        Int) * ((RowMajor.column d call task.batch h c).2.getD k 0).toInt := by
  rw [total_eq_sumTo ht hPacked hScratch hBatch hr hh hc (Nat.le_refl _)]
  refine sumTo_of_zero (le_pad (by decide)) fun k hk _ => ?_
  rw [Packing.getD_column_of_le _ _ _ hk]
  exact Int.mul_zero _

/-- No partial sum of a task is great, however many keys there are, since the bytes of a row sum to
at most 510 and no value exceeds 127. -/
theorem natAbs_total_le (ht : OutputTaskFor d operands scratch task t)
    (hPacked : PackedFor d call operands) (hScratch : ScratchFor d call task scratch)
    (hBatch : task.batch < d.batchSize) (hr : r < rowCount d task) (hh : h < d.headNum)
    (hc : c < d.headSize) {depth : Nat} (hDepth : depth ≤ pad d.seqK 64) :
    (t.total depth r h c).natAbs ≤ 510 * 127 := by
  rw [total_eq_sumTo ht hPacked hScratch hBatch hr hh hc hDepth]
  exact natAbs_weighedSum_le _ (natAbs_quantizeDynamic_le _) depth

/-- An entry of the output before it is quantized. It is the same number in both, not only a close
one: sums of integers are exact, and what is rounded is rounded in the same order. -/
theorem weighed_eq (ht : OutputTaskFor d operands scratch task t)
    (hPacked : PackedFor d call operands) (hScratch : ScratchFor d call task scratch)
    (hBatch : task.batch < d.batchSize) (hr : r < rowCount d task) (hh : h < d.headNum)
    (hc : c < d.headSize) :
    t.weighed (pad d.seqK 64) r h c =
      RowMajor.weighed d call task.batch (task.block * blockRows + r) h c := by
  rw [OutputTask.weighed, total_eq ht hPacked hScratch hBatch hr hh hc, ht.valueScale,
    ht.valueScaleStep, ← Nat.add_assoc, ← Nat.add_mul, hPacked.valueScale _ _ _ hBatch hh hc]
  rfl

/-- One row of the output, over all its heads. The heads stand side by side in it, as they do in the
row-major row. -/
theorem row_eq (ht : OutputTaskFor d operands scratch task t) (hPacked : PackedFor d call operands)
    (hScratch : ScratchFor d call task scratch) (hBatch : task.batch < d.batchSize)
    (hr : r < rowCount d task) :
    (Array.ofFn fun p : Fin (t.heads * t.cols) =>
        t.weighed (pad d.seqK 64) r (p / t.cols) (p % t.cols)) =
      Array.ofFn fun p : Fin (d.headNum * d.headSize) =>
        RowMajor.weighed d call task.batch (task.block * blockRows + r) (p / d.headSize)
          (p % d.headSize) := by
  rw [ht.heads, ht.cols]
  congr 1
  funext p
  have hCols : 0 < d.headSize := Nat.pos_of_ne_zero fun hZero => by
    have hLt := p.isLt
    simp [hZero] at hLt
  exact weighed_eq ht hPacked hScratch hBatch hr (div_lt_of_lt_mul p.isLt) (Nat.mod_lt _ hCols)

/-- The scale of an output row is found over all its heads, so the maximum is taken over the same
numbers in the same order as in the row-major row. -/
theorem rowScale_eq (ht : OutputTaskFor d operands scratch task t)
    (hPacked : PackedFor d call operands) (hScratch : ScratchFor d call task scratch)
    (hBatch : task.batch < d.batchSize) (hr : r < rowCount d task) :
    (t.rowScale (pad d.seqK 64) r).scale =
      (RowMajor.row d call task.batch (task.block * blockRows + r)).1 := by
  rw [OutputTask.rowScale, OutputTask.rowMax, row_eq ht hPacked hScratch hBatch hr]
  rfl

/-- A stored entry of the output, where the columns of all heads stand one after the other in the
row. -/
theorem quantized_eq (ht : OutputTaskFor d operands scratch task t)
    (hPacked : PackedFor d call operands) (hScratch : ScratchFor d call task scratch)
    (hBatch : task.batch < d.batchSize) (hr : r < rowCount d task) (hh : h < d.headNum)
    (hc : c < d.headSize) :
    t.quantized (pad d.seqK 64) r h c =
      (RowMajor.row d call task.batch (task.block * blockRows + r)).2.getD
        (h * d.headSize + c) 0 := by
  have hPosition := mul_add_lt_mul hh hc
  rw [OutputTask.quantized, OutputTask.rowScale, OutputTask.rowMax, row_eq ht hPacked hScratch hBatch hr,
    weighed_eq ht hPacked hScratch hBatch hr hh hc, RowMajor.row, quantizeDynamic,
    Array.getD_eq_getD_getElem?, Array.getElem?_map, Array.getElem?_ofFn, dif_pos hPosition]
  simp only [Option.map_some, Option.getD_some, mul_add_div_self h hc, mul_add_mod_self h hc]

/-- What belongs to a position of the output. -/
def outputAt (d : Dims) (call : Call) (p : Nat) : Int8 :=
  let token := (Strides.ofDims d).token
  (RowMajor.row d call (p / token / d.seqQ) (p / token % d.seqQ)).2.getD (p % token) 0

def outputScaleAt (d : Dims) (call : Call) (p : Nat) : Binary32 :=
  (RowMajor.row d call (p / d.seqQ) (p % d.seqQ)).1

/-- The first row of a task and the row behind its last, counted over all batches. -/
def taskRows (d : Dims) (task : RowTask) : Nat × Nat :=
  let first := task.batch * d.seqQ + task.block * blockRows
  (first, first + rowCount d task)

theorem row_lt_of_lt_rowCount (hr : r < rowCount d task) :
    task.block * blockRows + r < d.seqQ := by
  simp only [rowCount, blockRows] at hr ⊢
  omega

/-- The sums of a task fit if all sums of the call do. -/
theorem fittingSums_of_rowMajor {t : ProbabilityTask}
    (ht : ProbabilityTaskFor d call maskRows operands task t) (hPacked : PackedFor d call operands)
    (hBatch : task.batch < d.batchSize) (hFits : RowMajor.FittingSums d call) : t.FittingSums := by
  intro h hh r hr c hc depth hDepth
  rw [ht.heads] at hh
  rw [ht.rows] at hr
  rw [ht.keyCount] at hc
  rw [ht.depth] at hDepth
  rw [dotTo_eq ht hPacked hBatch hh hc hDepth]
  split
  · next hReal => exact hFits _ hBatch _ (row_lt_of_lt_rowCount hr) _ hh _ hReal _ hDepth
  · exact .of_natAbs_lt (by decide)

/-- Where an entry of a block stands in the part of the output that its task writes. -/
theorem position_eq (ht : OutputTaskFor d operands scratch task t) :
    t.position r h c = r * (Strides.ofDims d).token + (h * d.headSize + c) := by
  rw [OutputTask.position, ht.outStride, ht.outStep, Nat.add_assoc]
  rfl

/-- A task writes back the entries of its rows, and each of them is the entry of the row-major
output in its place. What it read from the output before does not matter. -/
theorem entries_rewritten (ht : OutputTaskFor d operands scratch task t)
    (hPacked : PackedFor d call operands) (hScratch : ScratchFor d call task scratch)
    (hBatch : task.batch < d.batchSize) {tilesLoaded : Bool} {output : Array Int8}
    {scales : Array Binary32} {block : OutputBlock} {first stop : Nat}
    (hRows : taskRows d task = (first, stop))
    (hRun : Outputs.run tilesLoaded t
      { entries := output.extract (first * (Strides.ofDims d).token)
          (stop * (Strides.ofDims d).token), scales } = .ok block) :
    Rewritten
      (fun p => first * (Strides.ofDims d).token ≤ p ∧ p < stop * (Strides.ofDims d).token)
      (fun p x => x = outputAt d call p) output
      (splice output (first * (Strides.ofDims d).token) block.entries) := by
  obtain ⟨rfl, rfl⟩ := Prod.mk.inj hRows
  have hEntries := Outputs.run_entries hRun
  rw [ht.rows, ht.heads, ht.cols, ht.keyCount] at hEntries
  refine (hEntries.window ?_).congr ?_
  · rintro i x - - ⟨r, hr, h, hh, c, hc, rfl, rfl⟩
    rw [ht.heads] at hh
    rw [ht.cols] at hc
    have hInRow : h * d.headSize + c < (Strides.ofDims d).token := mul_add_lt_mul hh hc
    have hRow := row_lt_of_lt_rowCount hr
    rw [quantized_eq ht hPacked hScratch hBatch hr hh hc, outputAt, position_eq ht, ← Nat.add_assoc,
      ← Nat.add_mul]
    simp only [mul_add_div_self _ hInRow, mul_add_mod_self _ hInRow]
    rw [Nat.add_assoc, mul_add_div_self _ hRow, mul_add_mod_self _ hRow]
  · intro p _
    constructor
    · rintro ⟨hFirst, hStop, -⟩
      exact ⟨hFirst, hStop⟩
    · rintro ⟨hFirst, hStop⟩
      refine ⟨hFirst, hStop, ?_⟩
      obtain ⟨i, rfl⟩ := Nat.exists_eq_add_of_le hFirst
      rw [Nat.add_mul _ (rowCount d task)] at hStop
      have hi : i < rowCount d task * (Strides.ofDims d).token := by omega
      have hInRow : i % (Strides.ofDims d).token < d.headNum * d.headSize :=
        Nat.mod_lt _ (Nat.pos_of_ne_zero fun hZero => by simp [hZero] at hi)
      have hCols : 0 < d.headSize := Nat.pos_of_ne_zero fun hZero => by simp [hZero] at hInRow
      refine ⟨i / (Strides.ofDims d).token, div_lt_of_lt_mul hi,
        i % (Strides.ofDims d).token / d.headSize, div_lt_of_lt_mul hInRow,
        i % (Strides.ofDims d).token % d.headSize, Nat.mod_lt _ hCols, ?_⟩
      rw [position_eq ht, Nat.div_add_mod', Nat.div_add_mod', Nat.add_sub_cancel_left]

/-- The scales that a task writes back, one for each of its rows. -/
theorem scales_rewritten (ht : OutputTaskFor d operands scratch task t)
    (hPacked : PackedFor d call operands) (hScratch : ScratchFor d call task scratch)
    (hBatch : task.batch < d.batchSize) {tilesLoaded : Bool} {entries : Array Int8}
    {outputScale : Array Binary32} {block : OutputBlock} {first stop : Nat}
    (hRows : taskRows d task = (first, stop))
    (hRun : Outputs.run tilesLoaded t { entries, scales := outputScale.extract first stop } =
      .ok block) :
    Rewritten (fun p => first ≤ p ∧ p < stop) (fun p x => x = outputScaleAt d call p) outputScale
      (splice outputScale first block.scales) := by
  obtain ⟨rfl, rfl⟩ := Prod.mk.inj hRows
  have hScales := Outputs.run_scales hRun
  rw [ht.rows, ht.keyCount] at hScales
  refine (hScales.window ?_).congr ?_
  · rintro r x - hr rfl
    have hRow := row_lt_of_lt_rowCount hr
    rw [rowScale_eq ht hPacked hScratch hBatch hr, outputScaleAt, Nat.add_assoc,
      mul_add_div_self _ hRow, mul_add_mod_self _ hRow]
  · intro p _
    constructor
    · rintro ⟨hFirst, hStop, -⟩
      exact ⟨hFirst, hStop⟩
    · rintro ⟨hFirst, hStop⟩
      exact ⟨hFirst, hStop, by omega⟩

/-- What the output kernel gets, whatever was in the scratch of the worker. -/
structure StageFor (d : Dims) (call : Call) (operands : PackedOperands) (run : AttendingRun)
    (task : RowTask) (st : Stage) : Prop where
  scratch : ScratchFor d call task st.scratch
  outputs : OutputTaskFor d operands st.scratch task st.outputs
  row : st.row = task.batch * d.seqQ + task.block * blockRows
  target : st.target =
    { entries := run.output.extract (st.row * (Strides.ofDims d).token)
        ((st.row + rowCount d task) * (Strides.ofDims d).token)
      scales := run.outputScale.extract st.row (st.row + rowCount d task) }

/-- Coming to a task writes nothing: the registers of the worker may change, but neither the output
nor its scales do. -/
theorem arrive_kept {run asked : AttendingRun} {worker : Nat} (h : arrive run worker = .ok asked) :
    asked.output = run.output ∧ asked.outputScale = run.outputScale := by
  simp only [arrive, Checked.bind_eq_ok, Checked.pure_eq_ok] at h
  obtain ⟨ready, -, pool, -, rfl⟩ := h
  exact ⟨rfl, rfl⟩

/-- A task that has come to its output kernel has the operands of its batch, and in the scratch of
its worker the probabilities of its rows. -/
theorem stageFor_stage {run : AttendingRun} {assigned : Assigned RowTask} {st : Stage}
    (hPacked : PackedFor d call operands) (hMask : MaskFor d call maskRows)
    (hBatch : assigned.task.batch < d.batchSize)
    (h : stage d (.ofDims d) call maskRows operands run assigned = .ok st) :
    StageFor d call operands run assigned.task st := by
  obtain ⟨worker, task⟩ := assigned
  simp only [stage, Checked.bind_eq_ok, Checked.pure_eq_ok] at h
  obtain ⟨asked, hAsked, before, -, probabilities, hProbabilities, scratch, hScratchRun, outputs,
    hOutputs, row, hRow, rfl⟩ := h
  obtain ⟨hOutput, hScale⟩ := arrive_kept hAsked
  exact {
    scratch := scratchFor_run (probabilityTaskFor hProbabilities) hPacked hMask hBatch hScratchRun
    outputs := outputTaskFor hOutputs
    row := firstRow_eq hRow
    target := by rw [hOutput, hScale] }

/-- What one task leaves behind, whatever was in the scratch of its worker: its rows of the output
with their scales, and its probabilities in the scratch. -/
theorem attendBlock_rewritten {run run' : AttendingRun} {assigned : Assigned RowTask}
    (hPacked : PackedFor d call operands) (hMask : MaskFor d call maskRows)
    (hBatch : assigned.task.batch < d.batchSize)
    (h : attendBlock d (.ofDims d) call maskRows operands run assigned = .ok run') :
    (∃ scratch, run'.pool.sessions.scratch (.worker assigned.worker) = .ok scratch ∧
        ScratchFor d call assigned.task scratch) ∧
      Rewritten
        (fun p => (taskRows d assigned.task).1 * (Strides.ofDims d).token ≤ p ∧
          p < (taskRows d assigned.task).2 * (Strides.ofDims d).token)
        (fun p x => x = outputAt d call p) run.output run'.output ∧
      Rewritten (fun p => (taskRows d assigned.task).1 ≤ p ∧ p < (taskRows d assigned.task).2)
        (fun p x => x = outputScaleAt d call p) run.outputScale run'.outputScale := by
  simp only [attendBlock, Checked.bind_eq_ok, Checked.pure_eq_ok] at h
  obtain ⟨st, hStage, block, hBlock, sessions, hSessions, rfl⟩ := h
  have hFor := stageFor_stage hPacked hMask hBatch hStage
  rw [hFor.target] at hBlock
  have hRows : taskRows d assigned.task = (st.row, st.row + rowCount d assigned.task) := by
    rw [hFor.row, taskRows]
  rw [hRows]
  exact ⟨⟨st.scratch, Sessions.scratch_setScratch hSessions, hFor.scratch⟩,
    entries_rewritten hFor.outputs hPacked hFor.scratch hBatch hRows hBlock,
    scales_rewritten hFor.outputs hPacked hFor.scratch hBatch hRows hBlock⟩

/-- The rows of all tasks are all rows, since the blocks of a batch divide its queries and the last
of them may be short. -/
theorem exists_rows_iff {tasks : List (Assigned RowTask)}
    (hTasks : (tasks.map (·.task)).Perm (Schedule.rowTasks d)) {p n : Nat} (hn : 0 < n) :
    (∃ assigned ∈ tasks, (taskRows d assigned.task).1 * n ≤ p ∧
        p < (taskRows d assigned.task).2 * n) ↔ p < d.batchSize * d.seqQ * n := by
  constructor
  · rintro ⟨assigned, hMem, -, hStop⟩
    obtain ⟨hBatch, hBlock⟩ :=
      Schedule.mem_rowTasks.1 (hTasks.mem_iff.1 (List.mem_map_of_mem hMem))
    refine Nat.lt_of_lt_of_le hStop (Nat.mul_le_mul_right n ?_)
    have hLe := Nat.mul_le_mul_right d.seqQ hBatch
    simp only [taskRows, rowCount, Schedule.blockCount, blockRows, Nat.succ_mul] at hBlock hLe ⊢
    omega
  · intro hp
    have hRow : p / n < d.batchSize * d.seqQ := div_lt_of_lt_mul hp
    have hQueries : 0 < d.seqQ := Nat.pos_of_ne_zero fun hZero => by simp [hZero] at hRow
    have hIn := Nat.mod_lt (p / n) hQueries
    have hListed : ⟨p / n / d.seqQ, p / n % d.seqQ / blockRows⟩ ∈ Schedule.rowTasks d :=
      Schedule.mem_rowTasks.2 ⟨div_lt_of_lt_mul hRow, by
        simp only [Schedule.blockCount, blockRows]
        omega⟩
    obtain ⟨assigned, hMem, hTask⟩ := List.mem_map.1 (hTasks.mem_iff.2 hListed)
    have hSplit := Nat.div_add_mod' (p / n) d.seqQ
    refine ⟨assigned, hMem, ?_, ?_⟩
    · refine Nat.le_trans (Nat.mul_le_mul_right n ?_) (Nat.div_mul_le_self p n)
      simp only [hTask, taskRows, blockRows]
      omega
    · apply (Nat.div_lt_iff_lt_mul hn).1
      simp only [hTask, taskRows, rowCount, blockRows]
      omega

/-- The second phase runs its tasks one after the other, in the order of the schedule, and the rows
of its output are not empty. -/
theorem foldlM_of_attend {s : Strides} {run run' : AttendingRun} {tasks : List (Assigned RowTask)}
    (h : attend d s call maskRows operands tasks run = .ok run') :
    0 < d.seqQ * s.token ∧
      tasks.foldlM (attendBlock d s call maskRows operands) run = .ok run' := by
  simp only [attend, Checked.bind_eq_ok, require_eq_ok, Size.eval_mul_eq_ok, Size.eval_ofNat,
    Except.ok.injEq, exists_and_left, exists_eq_left', exists_eq_left, exists_const, and_assoc] at h
  obtain ⟨-, -, -, -, -, -, -, hBatch, -, -, hFold⟩ := h
  exact ⟨hBatch, hFold⟩

/-- What the second phase leaves in the output, whatever the order of its tasks. Their rows are
apart, so what one task wrote is still there at the end. -/
theorem attend_rewritten {run run' : AttendingRun} {tasks : List (Assigned RowTask)}
    (hPacked : PackedFor d call operands) (hMask : MaskFor d call maskRows)
    (hTasks : (tasks.map (·.task)).Perm (Schedule.rowTasks d))
    (h : attend d (.ofDims d) call maskRows operands tasks run = .ok run') :
    Rewritten (fun p => p < d.batchSize * d.seqQ * (Strides.ofDims d).token)
        (fun p x => x = outputAt d call p) run.output run'.output ∧
      Rewritten (fun p => p < d.batchSize * d.seqQ)
        (fun p x => x = outputScaleAt d call p) run.outputScale run'.outputScale := by
  obtain ⟨hToken, hFold⟩ := foldlM_of_attend h
  have hStep (assigned : Assigned RowTask) (hMem : assigned ∈ tasks) (s t : AttendingRun)
      (hRun : attendBlock d (.ofDims d) call maskRows operands s assigned = .ok t) :=
    attendBlock_rewritten hPacked hMask
      (Schedule.mem_rowTasks.1 (hTasks.mem_iff.1 (List.mem_map_of_mem hMem))).1 hRun
  constructor
  · refine (Rewritten.foldlM AttendingRun.output
      (fun assigned hMem s t hRun => (hStep assigned hMem s t hRun).2.1) hFold).congr fun p _ => ?_
    exact exists_rows_iff hTasks (Nat.pos_of_mul_pos_left hToken)
  · refine (Rewritten.foldlM AttendingRun.outputScale
      (fun assigned hMem s t hRun => (hStep assigned hMem s t hRun).2.2) hFold).congr fun p _ => ?_
    have hRows := exists_rows_iff hTasks (p := p) Nat.one_pos
    simpa only [Nat.mul_one] using hRows

end Attending

end QuantAttention
