import Mathlib.Tactic.Ring
import QuantAttention.Proofs.Attention.Attending
import QuantAttention.Proofs.Attention.Progress.Packing
import QuantAttention.Proofs.Session

/-! The second phase of a call whose check has passed. A task finds its worker's session and scratch
as the task before it left them, and can fault in its products of queries and keys only. -/

namespace QuantAttention

variable {allowed : Fault → Prop} {d : Dims} {threads : Nat} {call : Call} {memory : Memory}

namespace Attending

variable {maskRows : Array Binary32} {operands : PackedOperands} {task : RowTask}
  {scratch : Array UInt8}

def Listed (d : Dims) (task : RowTask) : Prop :=
  task.batch < d.batchSize ∧ task.block < Schedule.blockCount d

def workerBytes (d : Dims) : Nat := d.headNum * (16 * pad d.seqK 64)

theorem workerBytes_lt (h : InRange d threads) : workerBytes d < Size.limit := by
  rw [workerBytes, Nat.mul_left_comm]
  exact h.worker_lt

theorem firstRow_lt (hTask : Listed d task) : task.block * blockRows < d.seqQ := by
  have hBlock := hTask.2
  simp only [Schedule.blockCount, blockRows] at hBlock ⊢
  omega

theorem rowCount_pos (hTask : Listed d task) : 0 < rowCount d task := by
  have hFirst := firstRow_lt hTask
  simp only [rowCount, blockRows] at hFirst ⊢
  omega

/-- The rows of a task lie among all rows, though the last block of a batch may be short and the
next rows are those of another batch. -/
theorem taskRows_le (hTask : Listed d task) :
    task.batch * d.seqQ + task.block * blockRows + rowCount d task ≤ d.batchSize * d.seqQ := by
  have hRows : task.block * blockRows + rowCount d task ≤ d.seqQ := by
    have hFirst := firstRow_lt hTask
    simp only [rowCount, blockRows] at hFirst ⊢
    omega
  rw [Nat.add_assoc]
  exact mul_add_le_mul hTask.1 hRows

/-- Row `r` of a head's queries, counted from where the task starts. The last row of a short block
ends where the queries of its batch end. -/
theorem within_queries (h : InRange d threads) (hFits : Attention.Fits d call memory)
    (hTask : Listed d task) {t : ProbabilityTask}
    (ht : ProbabilityTaskFor d call maskRows operands task t) {head r : Nat} (hHead : head < d.headNum)
    (hr : r < rowCount d task) :
    Within t.queries.size (head * d.headSize + (r * (d.headNum * d.headSize) + d.headSize)) := by
  have hEnd := within_entry h.queries hFits.queries hTask.1 (row_lt_of_lt_rowCount hr) hHead
  rw [ht.queries_size]
  refine Within.drop (hEnd.mono ?_)
  rw [← Nat.add_assoc (task.batch * d.seqQ), Nat.add_mul _ r]
  omega

/-- The first `n` bytes of a head's packed keys can be reached, as the parts of all heads lie in
their region. -/
theorem within_keys (h : InRange d threads) (hOperands : Packing.Allotted d operands)
    (hTask : Listed d task) {t : ProbabilityTask}
    (ht : ProbabilityTaskFor d call maskRows operands task t) {head n : Nat} (hHead : head < d.headNum)
    (hn : n ≤ (Strides.ofDims d).headKeys) :
    Within t.keys.size (head * (Strides.ofDims d).headKeys + n) := by
  have hPacked := h.packedBytes_lt
  have hRegion := (packed_le d).1
  have hSize := hOperands.keys
  have hEnd := mul_add_le_mul (mul_add_lt_mul hTask.1 hHead) hn
  rw [ht.keys_size]
  refine Within.drop ⟨?_, ?_⟩ <;> rw [Nat.add_mul] at hEnd <;> omega

/-- The block of column `c` lies within the keys of its head. Columns are counted up to the padded
number of keys. -/
theorem keyBlock_le {c n : Nat} (hc : c < pad d.seqK 16) (hn : n ≤ 16 * (Strides.ofDims d).keyDepth) :
    c / 16 * (16 * (Strides.ofDims d).keyDepth) + n ≤ (Strides.ofDims d).headKeys := by
  rw [Strides.headKeys_eq_blocks]
  exact mul_add_le_mul (Packing.keyBlock_lt hc) hn

/-- For dimensions in range the operands of a task reach as far as the probability kernel reads, and
the scratch of its worker as far as it writes. This is its condition for not faulting. -/
theorem inBounds_probabilityTask (h : InRange d threads) (hFits : Attention.Fits d call memory)
    (hOperands : Packing.Allotted d operands) (hMask : maskRows.size = d.batchSize * pad d.seqK 16)
    (hTask : Listed d task) {t : ProbabilityTask}
    (ht : ProbabilityTaskFor d call maskRows operands task t) : t.InBounds (workerBytes d) := by
  have hRowRange := h.rows_lt
  have hRows := taskRows_le hTask
  have hKeyRange := h.keyRows_lt
  have hBatchRows := mul_add_le_mul hTask.1 (Nat.le_refl d.seqK)
  constructor
  · exact ht.rows ▸ rowCount_le d task
  · have hSeqK := h.seqK_padded
    rw [ht.keyCount]
    omega
  · rw [ht.keyCount, ht.outStride]
    exact (pad_le_pad_64 d.seqK).2
  · intro head hHead
    rw [ht.heads] at hHead
    have hEnd := mul_add_le_mul hHead (Nat.le_refl (16 * pad d.seqK 64))
    rw [ht.outStep, ht.outStride]
    exact ⟨hEnd, Nat.lt_of_le_of_lt hEnd (workerBytes_lt h)⟩
  · intro head hHead
    rw [ht.heads] at hHead
    rw [ht.queryStep]
    exact (within_queries h hFits hTask ht hHead (rowCount_pos hTask)).mono (Nat.le_add_right _ _)
  · intro head hHead r hr
    rw [ht.heads] at hHead
    rw [ht.rows] at hr
    rw [ht.queryStep, ht.queryStride, ht.depth]
    exact within_queries h hFits hTask ht hHead hr
  · intro head hHead
    rw [ht.heads] at hHead
    rw [ht.keyStep]
    exact (within_keys h hOperands hTask ht hHead (Nat.zero_le _)).mono (Nat.le_add_right _ _)
  · intro head hHead c hc
    rw [ht.heads] at hHead
    rw [ht.keyCount] at hc
    rw [ht.keyStep, ht.keyBlockStride]
    exact within_keys h hOperands hTask ht hHead (keyBlock_le hc (Nat.zero_le _))
  · intro head hHead c hc i hi
    rw [ht.heads] at hHead
    rw [ht.keyCount] at hc
    rw [ht.depth] at hi
    rw [ht.keyStep, ht.keyBlockStride]
    exact within_keys h hOperands hTask ht hHead (keyBlock_le hc (Packing.keyCell_lt c hi))
  · intro head hHead
    have hScale := hFits.queryScale
    rw [ht.queryScaleStep, ht.rows, Nat.mul_zero, Nat.zero_add, ht.queryScale_size]
    exact ⟨by omega, by omega⟩
  · intro head hHead
    have hScale := hFits.keyScale
    rw [ht.keyScaleStep, ht.keyCount, Nat.mul_zero, Nat.zero_add, ht.keyScale_size]
    exact ⟨by omega, by omega⟩
  · have hRow := mul_add_le_mul hTask.1 (Nat.le_refl (pad d.seqK 16))
    rw [ht.keyCount, ht.bias_size, hMask]
    show pad d.seqK 16 ≤ d.batchSize * pad d.seqK 16 - task.batch * pad d.seqK 16
    omega

/-- The first `n` bytes of the block of column `c` of a head's packed values. -/
theorem within_values (h : InRange d threads) (hOperands : Packing.Allotted d operands)
    (hTask : Listed d task) {t : OutputTask} (ht : OutputTaskFor d operands scratch task t)
    {head c n : Nat} (hHead : head < d.headNum) (hc : c < d.headSize)
    (hn : n ≤ (Strides.ofDims d).valueBlock) : Within t.values.size
      (head * (Strides.ofDims d).headValues + c / 16 * (Strides.ofDims d).valueBlock + n) := by
  have hPacked := h.packedBytes_lt
  have hRegion := (packed_le d).2.1
  have hSize := hOperands.values
  have hBlock : c / 16 * (Strides.ofDims d).valueBlock + n ≤ (Strides.ofDims d).headValues := by
    rw [Strides.headValues_eq_blocks]
    exact mul_add_le_mul (by omega) hn
  have hEnd := mul_add_le_mul (mul_add_lt_mul hTask.1 hHead) hBlock
  rw [ht.values_size]
  refine Within.drop ⟨?_, ?_⟩ <;> rw [Nat.add_mul] at hEnd <;> omega

/-- The scale of column `c` of a head's packed values can be reached, also that of a column in the
padding. -/
theorem within_valueScale (h : InRange d threads) (hOperands : Packing.Allotted d operands)
    (hTask : Listed d task) {t : OutputTask} (ht : OutputTaskFor d operands scratch task t)
    {head c : Nat} (hHead : head < d.headNum) (hc : c < d.headSize) :
    Within t.valueScale.size (head * (Strides.ofDims d).headScales + (c + 1)) := by
  have hScales := h.scales_lt
  have hRegion := (packed_le d).2.2
  have hSize := hOperands.valueScale
  have hInside : c + 1 ≤ (Strides.ofDims d).headScales := Nat.le_trans hc (le_pad (by decide))
  have hEnd := mul_add_le_mul (mul_add_lt_mul hTask.1 hHead) hInside
  rw [ht.valueScale_size]
  refine Within.drop ⟨?_, ?_⟩ <;> rw [Nat.add_mul] at hEnd <;> omega

/-- The same for the output kernel, whose target is the part of the output for the rows of the task.
-/
theorem inBounds_outputTask (h : InRange d threads) (hOperands : Packing.Allotted d operands)
    (hScratch : scratch.size = workerBytes d) (hTask : Listed d task) {t : OutputTask}
    (ht : OutputTaskFor d operands scratch task t) :
    t.InBounds (rowCount d task * (d.headNum * d.headSize)) (rowCount d task) := by
  constructor
  · exact ht.rows ▸ rowCount_le d task
  · exact ht.keyCount ▸ h.seqK_padded
  · rw [ht.keyCount, ht.probabilityStride]
    exact Nat.le_refl _
  · intro head hHead r hr
    rw [ht.heads] at hHead
    rw [ht.rows] at hr
    have hRow := mul_add_le_mul (Nat.lt_of_lt_of_le hr (rowCount_le d task))
      (Nat.le_refl (pad d.seqK 64))
    have hEnd := mul_add_le_mul hHead hRow
    rw [ht.probabilities_size, ht.probabilityStep, ht.probabilityStride, ht.keyCount, hScratch,
      Nat.add_assoc]
    exact ⟨hEnd, Nat.lt_of_le_of_lt hEnd (workerBytes_lt h)⟩
  · intro head hHead c hc
    rw [ht.heads] at hHead
    rw [ht.cols] at hc
    rw [ht.valueStep, ht.valueBlockStride]
    exact within_values h hOperands hTask ht hHead hc (Nat.zero_le _)
  · intro head hHead c hc k hk
    rw [ht.heads] at hHead
    rw [ht.cols] at hc
    rw [ht.keyCount] at hk
    rw [ht.valueStep, ht.valueBlockStride]
    exact within_values h hOperands hTask ht hHead hc (Packing.valueCell_lt c hk)
  · intro head hHead c hc
    rw [ht.heads] at hHead
    rw [ht.cols] at hc
    rw [ht.valueScaleStep]
    exact within_valueScale h hOperands hTask ht hHead hc
  · intro r hr head hHead
    rw [ht.heads] at hHead
    rw [ht.rows] at hr
    have hEnd := mul_add_le_mul hr (mul_add_le_mul hHead (Nat.le_refl d.headSize))
    have hRows := Nat.mul_le_mul_right (d.headNum * d.headSize)
      (Nat.le_trans (Nat.le_add_left _ _) (taskRows_le hTask))
    have hRange := h.queries
    rw [OutputTask.position, ht.outStride, ht.outStep, ht.cols]
    exact ⟨by omega, by omega⟩
  · exact Nat.le_of_eq ht.rows

theorem firstRow_ok (h : InRange d threads) (hTask : Listed d task) :
    firstRow d task = .ok (task.batch * d.seqQ + task.block * blockRows) := by
  have hRows := taskRows_le hTask
  have hRange := h.rows_lt
  rw [firstRow, Size.ofNat_mul (by omega), Size.ofNat_mul (by omega)]
  exact Size.eval_add_of_lt (by omega)

/-- The task for the probability kernel can be formed: its operands start inside their buffers, and
no position on the way there leaves the range of a size. -/
theorem probabilityTask_faultsOnly (h : InRange d threads) (hFits : Attention.Fits d call memory)
    (hOperands : Packing.Allotted d operands) (hMask : maskRows.size = d.batchSize * pad d.seqK 16)
    (hTask : Listed d task) :
    FaultsOnly allowed (probabilityTask d (.ofDims d) call maskRows operands task) := by
  have hRows := Nat.le_trans (Nat.le_add_right _ _) (taskRows_le hTask)
  have hQueries : Within call.queries.size ((task.batch * d.seqQ + task.block * blockRows) *
      (d.headNum * d.headSize)) := by
    have hLe := Nat.mul_le_mul_right (d.headNum * d.headSize) hRows
    exact ⟨Nat.le_trans hLe hFits.queries, Nat.lt_of_le_of_lt hLe h.queries⟩
  have hKeys : Within operands.keys.size
      (task.batch * d.headNum * (Strides.ofDims d).headKeys) := by
    have hLe := Nat.le_trans (Nat.mul_le_mul_right (Strides.ofDims d).headKeys
      (Nat.mul_le_mul_right d.headNum (Nat.le_of_lt hTask.1))) (packed_le d).1
    exact ⟨hOperands.keys ▸ hLe, Nat.lt_of_le_of_lt hLe h.packedBytes_lt⟩
  have hKeyRows : Within call.keyScale.size (task.batch * d.seqK) := by
    have hLe := Nat.mul_le_mul_right d.seqK (Nat.le_of_lt hTask.1)
    exact ⟨Nat.le_trans hLe hFits.keyScale, Nat.lt_of_le_of_lt hLe h.keyRows_lt⟩
  have hBias : Within maskRows.size (task.batch * pad d.seqK 16) := by
    have hLe := Nat.mul_le_mul_right (pad d.seqK 16) (Nat.le_of_lt hTask.1)
    have hRow := Nat.mul_le_mul_left d.batchSize (pad_le_pad_64 d.seqK).2
    have hBytes := h.mask_lt
    exact ⟨hMask ▸ hLe, by omega⟩
  have hHeads : task.batch * d.headNum < Size.limit := by
    refine Nat.lt_of_le_of_lt (Nat.le_mul_of_pos_right _ ?_) hKeys.2
    have hSeqK := h.seqK_pos
    have hHeadSize := h.headSize_pos
    exact Nat.mul_pos (by simp only [pad]; omega) (by simp only [pad]; omega)
  have hDepth : 16 * pad d.headSize 64 < Size.limit := by
    refine Nat.lt_of_le_of_lt (Nat.mul_le_mul_right _ ?_) h.head_lt
    have hSeqK := h.seqK_pos
    simp only [pad]
    omega
  have hLength := h.block_lt
  rw [probabilityTask, firstRow_ok h hTask]
  refine .bind_ok rfl (.bind_ok (Size.eval_mul_of_lt hQueries.2) (.bind (.drop hQueries.1) ?_))
  intro queries _
  rw [Size.ofNat_mul hHeads]
  refine .bind_ok (Size.eval_mul_of_lt hKeys.2) (.bind (.drop hKeys.1) fun keys _ => ?_)
  refine .bind (.drop (Nat.le_trans hRows hFits.queryScale)) fun queryScale _ => ?_
  refine .bind_ok (Size.eval_mul_of_lt hKeyRows.2) (.bind (.drop hKeyRows.1) fun keyScale _ => ?_)
  refine .bind_ok (Size.eval_mul_of_lt hBias.2) (.bind (.drop hBias.1) fun bias _ => ?_)
  exact .bind_ok (Size.eval_mul_of_lt hDepth) (.bind_ok (Size.eval_mul_of_lt hLength) (.pure _))

/-- The task for the output kernel can be formed, with scratch and packed operands in the place of
the call's own. -/
theorem outputTask_faultsOnly (h : InRange d threads) (hOperands : Packing.Allotted d operands)
    (hTask : Listed d task) :
    FaultsOnly allowed (outputTask d (.ofDims d) operands scratch task) := by
  have hHeadRows := Nat.mul_le_mul_right d.headNum (Nat.le_of_lt hTask.1)
  have hValues : Within operands.values.size
      (task.batch * d.headNum * (Strides.ofDims d).headValues) := by
    have hLe := Nat.le_trans (Nat.mul_le_mul_right (Strides.ofDims d).headValues hHeadRows)
      (packed_le d).2.1
    exact ⟨hOperands.values ▸ hLe, Nat.lt_of_le_of_lt hLe h.packedBytes_lt⟩
  have hScales : Within operands.valueScale.size
      (task.batch * d.headNum * (Strides.ofDims d).headScales) := by
    have hLe := Nat.le_trans (Nat.mul_le_mul_right (Strides.ofDims d).headScales hHeadRows)
      (packed_le d).2.2
    have hBytes := h.scales_lt
    exact ⟨hOperands.valueScale ▸ hLe, by omega⟩
  have hHeads : task.batch * d.headNum < Size.limit := by
    refine Nat.lt_of_le_of_lt (Nat.le_mul_of_pos_right _ ?_) hScales.2
    have hHeadSize := h.headSize_pos
    show 0 < pad d.headSize 16
    simp only [pad]
    omega
  have hLength := h.block_lt
  rw [outputTask, Size.ofNat_mul hHeads]
  refine .bind_ok (Size.eval_mul_of_lt hValues.2) (.bind (.drop hValues.1) fun values _ => ?_)
  refine .bind_ok (Size.eval_mul_of_lt hScales.2) (.bind (.drop hScales.1) fun valueScale _ => ?_)
  exact .bind_ok (Size.eval_mul_of_lt hLength) (.bind_ok (Size.eval_mul_of_lt hLength) (.pure _))

/-- The state between two tasks of the second phase. -/
structure Underway (d : Dims) (threads : Nat) (run : AttendingRun) : Prop where
  size : run.pool.size = threads
  steady : run.pool.Steady (workerBytes d)
  output : d.batchSize * d.seqQ * (d.headNum * d.headSize) ≤ run.output.size
  outputScale : d.batchSize * d.seqQ ≤ run.outputScale.size

/-- What holds of a task's session when it calls the output kernel. -/
structure Staged (d : Dims) (threads : Nat) (st : Stage) : Prop where
  size : st.pool.size = threads
  steady : st.pool.Steady (workerBytes d)
  tilesLoaded : st.tilesLoaded = true
  scratch : st.scratch.size = workerBytes d

/-- A worker that comes to a task finds the slots as they were, and has its registers. It may have
had them since an earlier task. -/
theorem steady_arrive {run asked : AttendingRun} {perWorker worker : Nat}
    (h : run.pool.Steady perWorker) (hw : worker < run.pool.size)
    (hRun : arrive run worker = .ok asked) :
    asked.pool.size = run.pool.size ∧ asked.pool.Steady perWorker ∧
      (asked.pool.registers.loaded worker).isSome = true := by
  simp only [arrive, Checked.bind_eq_ok, Checked.pure_eq_ok] at hRun
  obtain ⟨ready, -, pool, hPool, rfl⟩ := hRun
  exact Pool.steady_ensureTiles h hw hPool

/-- A worker of the pool comes to its tasks without a fault, since it has a slot of its own. -/
theorem arrive_faultsOnly {run : AttendingRun} {perWorker worker : Nat}
    (h : run.pool.Steady perWorker) (hw : worker < run.pool.size) :
    FaultsOnly allowed (arrive run worker) := by
  rw [arrive]
  refine .bind_ok (Pool.tilesReady_worker h (h.slots ▸ hw)) ?_
  exact .bind (Pool.ensureTiles_faultsOnly h hw) fun _ _ => .pure _

/-- What holds of a session between two tasks still holds when a task has come to its output kernel,
and by then the registers of its worker are loaded. -/
theorem staged_stage {assigned : Assigned RowTask} (hWorker : assigned.worker < threads)
    {run : AttendingRun} (hRun : Underway d threads run) {st : Stage}
    (hStage : stage d (.ofDims d) call maskRows operands run assigned = .ok st) :
    Staged d threads st := by
  obtain ⟨worker, task⟩ := assigned
  have hw : worker < run.pool.size := hRun.size ▸ hWorker
  simp only [stage, Checked.bind_eq_ok, Checked.pure_eq_ok] at hStage
  obtain ⟨asked, hAsked, before, hBefore, t, -, scratch, hScratchRun, u, -, row, -, rfl⟩ := hStage
  obtain ⟨hSize, hSteady, hLoaded⟩ := steady_arrive hRun.steady hw hAsked
  have hPoolSlot : worker < asked.pool.sessions.slots.size := hSteady.slots ▸ hSize ▸ hw
  rw [Pool.scratch_worker hSteady hPoolSlot] at hBefore
  cases hBefore
  exact ⟨hSize.trans hRun.size, hSteady, hLoaded, (Probabilities.size_run hScratchRun).trans
    (hSteady.scratch _ (Array.getElem_mem hPoolSlot))⟩

/-- Up to the output kernel a task faults only in the products of queries and keys. It has formed
all of them when it comes there. -/
theorem stage_faultsOnly (h : InRange d threads) (hFits : Attention.Fits d call memory)
    (hOperands : Packing.Allotted d operands) (hPacked : PackedFor d call operands)
    (hMask : maskRows.size = d.batchSize * pad d.seqK 16)
    (hSum : allowed .accumulatorOverflow ∨ RowMajor.FittingSums d call) {assigned : Assigned RowTask}
    (hTask : Listed d assigned.task) (hWorker : assigned.worker < threads) {run : AttendingRun}
    (hRun : Underway d threads run) :
    FaultsOnly allowed (stage d (.ofDims d) call maskRows operands run assigned) := by
  obtain ⟨worker, task⟩ := assigned
  replace hTask : Listed d task := hTask
  have hw : worker < run.pool.size := hRun.size ▸ hWorker
  rw [stage]
  refine .bind (arrive_faultsOnly hRun.steady hw) fun asked hAsked => ?_
  obtain ⟨hSize, hSteady, hLoaded⟩ := steady_arrive hRun.steady hw hAsked
  have hPoolSlot : worker < asked.pool.sessions.slots.size := hSteady.slots ▸ hSize ▸ hw
  have hBytes := hSteady.scratch _ (Array.getElem_mem hPoolSlot)
  refine .bind_ok (Pool.scratch_worker hSteady hPoolSlot) ?_
  refine .bind (probabilityTask_faultsOnly h hFits hOperands hMask hTask) fun t ht => ?_
  have hTaskFor := probabilityTaskFor ht
  have hProbabilities := inBounds_probabilityTask h hFits hOperands hMask hTask hTaskFor
  rw [← hBytes] at hProbabilities
  have hFilled : FaultsOnly allowed
      (Probabilities.run (asked.pool.registers.loaded worker).isSome t
        asked.pool.sessions.slots[worker].scratch) := by
    rw [hLoaded]
    exact Probabilities.run_faultsOnly hProbabilities
      (hSum.imp id (fittingSums_of_rowMajor hTaskFor hPacked hTask.1))
  refine hFilled.bind fun scratch _ => ?_
  refine .bind (outputTask_faultsOnly h hOperands hTask) fun u _ => ?_
  exact .bind_ok (firstRow_ok h hTask) (.pure _)

/-- The output kernel does not fault at all. Its sums are of bytes that were divided by their sum,
and stay in range for any number of keys. -/
theorem outputs_faultsOnly (h : InRange d threads) (hOperands : Packing.Allotted d operands)
    (hPacked : PackedFor d call operands) {task : RowTask} (hTask : Listed d task)
    {run : AttendingRun} (hRun : Underway d threads run) {st : Stage} (hStaged : Staged d threads st)
    (hFor : StageFor d call operands run task st) :
    FaultsOnly allowed (Outputs.run st.tilesLoaded st.outputs st.target) := by
  have hRow := hFor.row
  have hEntries : st.target.entries.size = rowCount d task * (d.headNum * d.headSize) := by
    have hStop : (st.row + rowCount d task) * (Strides.ofDims d).token ≤ run.output.size :=
      hRow ▸ Nat.le_trans (Nat.mul_le_mul_right _ (taskRows_le hTask)) hRun.output
    rw [hFor.target, Array.size_extract, Nat.min_eq_left hStop, ← Nat.sub_mul,
      Nat.add_sub_cancel_left]
    rfl
  have hScales : st.target.scales.size = rowCount d task := by
    have hStop : st.row + rowCount d task ≤ run.outputScale.size :=
      hRow ▸ Nat.le_trans (taskRows_le hTask) hRun.outputScale
    rw [hFor.target, Array.size_extract, Nat.min_eq_left hStop, Nat.add_sub_cancel_left]
  have hBounds := inBounds_outputTask h hOperands hStaged.scratch hTask hFor.outputs
  rw [hStaged.tilesLoaded]
  refine Outputs.run_faultsOnly (by rwa [hEntries, hScales]) (Or.inr ?_)
  intro r hr head hh c hc depth hDepth
  rw [hFor.outputs.rows] at hr
  rw [hFor.outputs.heads] at hh
  rw [hFor.outputs.cols] at hc
  rw [hFor.outputs.keyCount] at hDepth
  have hTotal := natAbs_total_le hFor.outputs hPacked hFor.scratch hTask.1 hr hh hc hDepth
  omega

/-- One task faults only in its products of queries and keys, and not even there if the sums of the
call fit. -/
theorem attendBlock_faultsOnly (h : InRange d threads) (hFits : Attention.Fits d call memory)
    (hOperands : Packing.Allotted d operands) (hPacked : PackedFor d call operands)
    (hMask : maskRows.size = d.batchSize * pad d.seqK 16) (hMaskFor : MaskFor d call maskRows)
    (hSum : allowed .accumulatorOverflow ∨ RowMajor.FittingSums d call) {assigned : Assigned RowTask}
    (hTask : Listed d assigned.task) (hWorker : assigned.worker < threads) {run : AttendingRun}
    (hRun : Underway d threads run) :
    FaultsOnly allowed (attendBlock d (.ofDims d) call maskRows operands run assigned) := by
  rw [attendBlock]
  refine .bind (stage_faultsOnly h hFits hOperands hPacked hMask hSum hTask hWorker hRun) fun st hStage => ?_
  have hStaged := staged_stage hWorker hRun hStage
  refine .bind (outputs_faultsOnly h hOperands hPacked hTask hRun hStaged
    (stageFor_stage hPacked hMaskFor hTask.1 hStage)) fun block _ => ?_
  rw [Sessions.setScratch, Pool.slotOf_worker hStaged.steady (hStaged.size ▸ hWorker)]
  exact .bind_ok rfl (.pure _)

/-- A task that returns leaves everything as long as it was, so the next task finds what it needs.
-/
theorem underway_attendBlock {assigned : Assigned RowTask} (hWorker : assigned.worker < threads)
    {run next : AttendingRun} (hRun : Underway d threads run)
    (hNext : attendBlock d (.ofDims d) call maskRows operands run assigned = .ok next) :
    Underway d threads next := by
  simp only [attendBlock, Checked.bind_eq_ok, Checked.pure_eq_ok] at hNext
  obtain ⟨st, hStage, block, -, sessions, hSessions, rfl⟩ := hNext
  have hStaged := staged_stage hWorker hRun hStage
  refine ⟨hStaged.size, Pool.steady_setScratch hStaged.steady (hStaged.size ▸ hWorker)
    hStaged.scratch hSessions, ?_, ?_⟩
  · rw [size_splice]
    exact hRun.output
  · rw [size_splice]
    exact hRun.outputScale

/-- Where the output has room for a problem in range, the second phase is its tasks and no more: the
checks before them pass. -/
theorem attend_eq_foldlM (h : InRange d threads) {tasks : List (Assigned RowTask)} {run : AttendingRun}
    (hOutput : d.batchSize * d.seqQ * (d.headNum * d.headSize) ≤ run.output.size)
    (hScale : d.batchSize * d.seqQ ≤ run.outputScale.size) :
    attend d (.ofDims d) call maskRows operands tasks run =
      tasks.foldlM (attendBlock d (.ofDims d) call maskRows operands) run := by
  have hBatch : d.seqQ * (Strides.ofDims d).token < Size.limit := by
    refine Nat.lt_of_le_of_lt ?_ h.queries
    rw [Nat.mul_assoc]
    exact Nat.le_mul_of_pos_left _ h.batchSize_pos
  have hToken : 0 < (Strides.ofDims d).token := h.token_pos
  have hPositive : 0 < d.seqQ * (Strides.ofDims d).token ∧
      0 < blockRows * (Strides.ofDims d).token ∧ 0 < d.seqQ :=
    ⟨Nat.mul_pos h.seqQ_pos hToken, Nat.mul_pos (by decide) hToken, h.seqQ_pos⟩
  have hUsed : d.batchSize * d.seqQ * (Strides.ofDims d).token < Size.limit := h.queries
  have hBlock : blockRows * (Strides.ofDims d).token < Size.limit := h.tokenBlock_lt
  have hRoom : d.batchSize * d.seqQ * (Strides.ofDims d).token ≤ run.output.size := hOutput
  rw [attend, Size.ofNat_mul h.rows_lt, Size.eval_mul_of_lt hUsed, Size.eval_mul_of_lt hBatch,
    Size.eval_mul_of_lt hBlock]
  simp only [Size.eval_ofNat, require, bind, Except.bind, if_pos hRoom, if_pos hScale, if_pos hPositive]

/-- The second phase faults only in its products of queries and keys. The induction is on the tasks,
with the state between two of them as its invariant. -/
theorem attend_faultsOnly (h : InRange d threads) (hFits : Attention.Fits d call memory)
    (hOperands : Packing.Allotted d operands) (hPacked : PackedFor d call operands)
    (hMask : maskRows.size = d.batchSize * pad d.seqK 16) (hMaskFor : MaskFor d call maskRows)
    (hSum : allowed .accumulatorOverflow ∨ RowMajor.FittingSums d call) {tasks : List (Assigned RowTask)}
    (hTasks : ∀ assigned ∈ tasks, Listed d assigned.task ∧ assigned.worker < threads)
    {run : AttendingRun} (hRun : Underway d threads run) :
    FaultsOnly allowed (attend d (.ofDims d) call maskRows operands tasks run) := by
  rw [attend_eq_foldlM h hRun.output hRun.outputScale]
  refine .foldlM (Underway d threads) hRun fun assigned hMem s hs => ?_
  obtain ⟨hTask, hWorker⟩ := hTasks assigned hMem
  exact ⟨attendBlock_faultsOnly h hFits hOperands hPacked hMask hMaskFor hSum hTask hWorker hs,
    fun t => underway_attendBlock hWorker hs⟩

/-- The same for all tasks of the second phase, one after the other. -/
theorem underway_attend {tasks : List (Assigned RowTask)}
    (hTasks : ∀ assigned ∈ tasks, assigned.worker < threads) {run next : AttendingRun}
    (hRun : Underway d threads run)
    (hNext : attend d (.ofDims d) call maskRows operands tasks run = .ok next) :
    Underway d threads next := by
  exact Checked.foldlM_induction (Underway d threads) hRun
    (fun assigned hMem s t hs => underway_attendBlock (hTasks assigned hMem) hs)
    (foldlM_of_attend hNext).2

end Attending

end QuantAttention
