import QuantAttention.Proofs.Attention.Bounds
import QuantAttention.Proofs.Attention.Padding

/-! The sums of the output kernel. Every row of probabilities that its scratch can hold sums to at
most 510, so in a call with any number of keys no sum over keys leaves the range of its accumulator,
and each of them is a number of single precision without rounding. -/

namespace QuantAttention

namespace Probabilities

variable {task : ProbabilityTask} {h r : Nat} {target out : Array UInt8}

/-- However many keys there are and whatever the scores are, the bytes of a row sum to at most 510.
-/
theorem byteSum_writeHead_le (hWrite : writeHead task (pad task.keyCount 16) h target = .ok out)
    (hRow : r < 16) :
    byteSum (out.extract (h * task.outStep + r * task.outStride)
      (h * task.outStep + (r + 1) * task.outStride)) ≤ 510 := by
  rw [Nat.succ_mul, ← Nat.add_assoc, extract_eq_ofFn (task.stored h r) fun c hc => by
    rw [Nat.add_assoc, getElem?_writeHead hWrite hRow hc]]
  by_cases hQuery : r < task.rows
  · simp only [ProbabilityTask.stored, if_pos hQuery]
    exact Nat.le_trans (prefixSum_le _ task.outStride) (byteSum_softmax_le _)
  · simp only [ProbabilityTask.stored, if_neg hQuery]
    exact Nat.le_trans (prefixSum_le #[] task.outStride) (by decide)

end Probabilities

/-- Every byte that the packing of values writes is symmetric. The least int8 is never written,
though the values of the call may hold it. -/
theorem ValuePacking.natAbs_pack_le {tile : ValueTile} {target packed : Array Int8}
    {scales packedScales : Array Binary32}
    (hPack : pack tile target scales = .ok (packed, packedScales)) {i : Nat}
    (hi : i < 16 * pad tile.rows 4) : (packed.getD i 0).toInt.natAbs ≤ 127 := by
  obtain ⟨⟨hFits, -⟩, hRewritten, -⟩ := pack_rewritten hPack
  rw [hRewritten.getD_written (by omega) hi 0]
  split
  · exact natAbs_quantizeDynamic_le _ _
  · exact Nat.zero_le _

/-- The sums of a task over any number of its keys have small terms, stay in the range of the
accumulator and are numbers of single precision. -/
structure OutputTask.ExactSums (task : OutputTask) : Prop where
  value : ∀ h < task.heads, ∀ c < task.cols, ∀ k < pad task.keyCount 64,
    (task.values.getD (h * task.valueStep + c / 16 * task.valueBlockStride + cell (c % 16) k)
      0).toInt.natAbs ≤ 127
  total : ∀ r < task.rows, ∀ h < task.heads, ∀ c < task.cols, ∀ depth ≤ pad task.keyCount 64,
    (task.total depth r h c).natAbs ≤ 510 * 127
  number : ∀ r < task.rows, ∀ h < task.heads, ∀ c < task.cols, ∀ depth ≤ pad task.keyCount 64,
    (Binary32.ofInt (task.total depth r h c)).isFinite = true ∧
      (Binary32.ofInt (task.total depth r h c)).units = task.total depth r h c * Binary32.one

namespace Attending

variable {d : Dims} {call : Call} {operands : PackedOperands} {run : AttendingRun} {task : RowTask}
  {st : Stage}

/-- A task that has come to its output kernel meets exact sums. Its probabilities are those of a row
of scores, and its values were packed by this call, so no byte of either is out of range. -/
theorem exactSums_stageFor (hFor : StageFor d call operands run task st)
    (hPacked : PackedFor d call operands) (hBatch : task.batch < d.batchSize) :
    st.outputs.ExactSums := by
  have hSmall (r : Nat) (hr : r < st.outputs.rows) (h : Nat) (hh : h < st.outputs.heads) (c : Nat)
      (hc : c < st.outputs.cols) (depth : Nat) (hDepth : depth ≤ pad st.outputs.keyCount 64) :
      (st.outputs.total depth r h c).natAbs ≤ 510 * 127 := by
    rw [hFor.outputs.rows] at hr
    rw [hFor.outputs.heads] at hh
    rw [hFor.outputs.cols] at hc
    rw [hFor.outputs.keyCount] at hDepth
    exact natAbs_total_le hFor.outputs hPacked hFor.scratch hBatch hr hh hc hDepth
  refine { value := ?_, total := hSmall, number := ?_ }
  · intro h hh c hc k hk
    rw [hFor.outputs.heads] at hh
    rw [hFor.outputs.cols] at hc
    rw [hFor.outputs.keyCount] at hk
    rw [value_eq hFor.outputs hPacked hBatch hh hc hk]
    exact natAbs_quantizeDynamic_le _ _
  · intro r hr h hh c hc depth hDepth
    exact Binary32.ofUnits_mul_one (Nat.le_trans (hSmall r hr h hh c hc depth hDepth) (by decide))

end Attending

namespace Attention

variable {a : Attention} {d : Dims} {call : Call} {memory : Memory} {registers : TileRegisters}
  {schedule : Dims → Schedule} {assigned : Assigned RowTask} {st : Attending.Stage}

/-- In the second phase of a call, the task `assigned` has come to the output kernel with `st`. -/
def HasStage (a : Attention) (schedule : Dims → Schedule) (call : Call) (memory : Memory)
    (registers : TileRegisters) (assigned : Assigned RowTask) (st : Attending.Stage) : Prop :=
  ∃ layout regions prepared done rest before,
    a.preflight call memory = .ok (.ok (layout, regions)) ∧
    layout.dims.isDegenerate = false ∧
    a.prepare (schedule layout.dims).heads call layout regions memory registers = .ok prepared ∧
    (schedule layout.dims).rows = done ++ assigned :: rest ∧
    done.foldlM (Attending.attendBlock layout.dims prepared.strides call prepared.mask.rows
      prepared.operands) prepared.run = .ok before ∧
    Attending.stage layout.dims prepared.strides call prepared.mask.rows prepared.operands before
      assigned = .ok st

/-- Every task of a call that succeeds comes to the output kernel. So what is said of the tasks that
do is said of all of them. -/
theorem exists_hasStage {o : Outcome} (hDims : a.dims.resolve call.dims = .ok d)
    (hProper : d.isDegenerate = false)
    (hRun : a.execute schedule call memory registers = .ok o) (hOk : o.result = .ok ())
    (hTask : assigned ∈ (schedule d).rows) :
    ∃ st, HasStage a schedule call memory registers assigned st := by
  obtain ⟨run, layout, regions, prepared, done, rest, before, hPreflight, hLayout, hPrepare, hSplit,
    hDone, hStep⟩ := exists_hasRun hDims hProper hRun hOk hTask
  rw [Attending.attendBlock, Checked.bind_eq_ok] at hStep
  obtain ⟨st, hStage, -⟩ := hStep
  exact ⟨st, layout, regions, prepared, done, rest, before, hPreflight, hLayout, hPrepare, hSplit,
    hDone, hStage⟩

/-- What the output kernel meets in the second phase of a call: operands in which it can sum over any
number of keys. -/
theorem outputs_hasStage (hWidth : a.keyPacking.width = 64) (hThreads : 0 < a.threads)
    (hRegisters : a.threads ≤ registers.threads.size)
    (hDims : a.dims.resolve call.dims = .ok d) (hSchedule : (schedule d).Valid d a.threads)
    (hStage : HasStage a schedule call memory registers assigned st) :
    ∃ operands run, assigned.task.batch < d.batchSize ∧ PackedFor d call operands ∧
      Attending.StageFor d call operands run assigned.task st ∧
      ∀ allowed : Fault → Prop,
        FaultsOnly allowed (Outputs.run st.tilesLoaded st.outputs st.target) := by
  obtain ⟨layout, regions, prepared, done, rest, before, hPreflight, hProper, hPrepare, hSplit, hDone,
    hStage⟩ := hStage
  have hRange := inRange_preflight hPreflight hThreads hProper
  obtain ⟨-, rfl, hFits, hRegions⟩ := preflight_accepted hPreflight
  obtain rfl := Dims.filled_of_resolve hDims
  have hHeads (assigned : Assigned HeadTask)
      (hMem : assigned ∈ (schedule (a.dims.filled call.dims)).heads) :
      Packing.Listed (a.dims.filled call.dims) assigned.task :=
    Schedule.mem_headTasks.1 (hSchedule.heads_perm.mem_iff.1 (List.mem_map_of_mem hMem))
  obtain ⟨hStrides, hOperands, -, hStart⟩ := underway_prepare hRange hFits (regionsFor_split hRegions)
    hWidth hRegisters hHeads hPrepare
  have hReady := ready_prepare hSchedule.heads_perm hFits.mask hPrepare
  have hMem (other : Assigned RowTask) (hOther : other ∈ done ++ assigned :: rest) :
      Attending.Listed (a.dims.filled call.dims) other.task ∧ other.worker < a.threads := by
    have hRow : other ∈ (schedule (a.dims.filled call.dims)).rows := by
      rwa [show (schedule (a.dims.filled call.dims)).rows = done ++ assigned :: rest from hSplit]
    exact ⟨Schedule.mem_rowTasks.1 (hSchedule.rows_perm.mem_iff.1 (List.mem_map_of_mem hRow)),
      hSchedule.rows_worker other hRow⟩
  rw [hStrides] at hDone hStage
  have hBefore := Checked.foldlM_induction (Attending.Underway (a.dims.filled call.dims) a.threads)
    hStart (fun other hOther s t hs => Attending.underway_attendBlock
      (hMem other (List.mem_append_left _ hOther)).2 hs) hDone
  obtain ⟨hListed, hWorker⟩ := hMem assigned (List.mem_append_right _ List.mem_cons_self)
  have hFor := Attending.stageFor_stage hReady.packed hReady.mask hListed.1 hStage
  exact ⟨prepared.operands, before, hListed.1, hReady.packed, hFor, fun allowed =>
    Attending.outputs_faultsOnly hRange hOperands hReady.packed hListed hBefore
      (Attending.staged_stage hWorker hBefore hStage) hFor⟩

/-- In a call with any number of keys, the bytes of a row of probabilities sum to at most 510 and
packed values are at most 127 in magnitude; so every task comes to sums that stay in the range of
their accumulator and need no rounding, and its output kernel returns. -/
theorem exactSums_execute {desc : OperatorDesc} {host : Capability} {settings : Settings}
    {hostThreads : Nat} (hBuilt : ofDescriptor desc host settings .portable hostThreads = .ok a)
    (hThreads : 0 < a.threads) (hRegisters : a.threads ≤ registers.threads.size)
    (hDims : a.dims.resolve call.dims = .ok d) (hProper : d.isDegenerate = false)
    (hSchedule : (schedule d).Valid d a.threads) :
    (∀ task h target out r,
      Probabilities.writeHead task (pad task.keyCount 16) h target = .ok out → r < 16 →
        byteSum (out.extract (h * task.outStep + r * task.outStride)
          (h * task.outStep + (r + 1) * task.outStride)) ≤ 510) ∧
    (∀ tile target scales packed packedScales,
      ValuePacking.pack tile target scales = .ok (packed, packedScales) →
        ∀ i < 16 * pad tile.rows 4, (packed.getD i 0).toInt.natAbs ≤ 127) ∧
    (∀ o, a.execute schedule call memory registers = .ok o → o.result = .ok () →
      ∀ assigned ∈ (schedule d).rows,
        ∃ st, HasStage a schedule call memory registers assigned st) ∧
    ∀ assigned st, HasStage a schedule call memory registers assigned st →
      st.outputs.ExactSums ∧
        ∃ block, Outputs.run st.tilesLoaded st.outputs st.target = .ok block := by
  refine ⟨fun task h target out r hWrite hRow => Probabilities.byteSum_writeHead_le hWrite hRow,
    fun tile target scales packed packedScales hPack i hi => ValuePacking.natAbs_pack_le hPack hi,
    fun o hRun hOk assigned hTask => exists_hasStage hDims hProper hRun hOk hTask, ?_⟩
  intro assigned st hStage
  obtain ⟨operands, run, hBatch, hPacked, hFor, hSafe⟩ :=
    outputs_hasStage (width_of_ofDescriptor hBuilt) hThreads hRegisters hDims hSchedule hStage
  exact ⟨Attending.exactSums_stageFor hFor hPacked hBatch,
    (hSafe fun _ => False).exists_value⟩

/-- The small operator runs its tasks from the last to the first, and the task of the first block is
one of the second worker. Its output kernel returns. -/
theorem exactSums_execute_small :
    ∃ st, HasStage (small 2) backwards (smallCall 0) (smallMemory 2 255) (.initial 9 1) ⟨1, ⟨0, 0⟩⟩
        st ∧
      st.outputs.ExactSums ∧ ∃ block, Outputs.run st.tilesLoaded st.outputs st.target = .ok block := by
  have hSchedule := valid_backwards ⟨1, 2, 1, 3, 2⟩ (by decide : 1 < 2)
  have hRegisters : 2 ≤ (TileRegisters.initial 9 1).threads.size := by decide
  obtain ⟨o, hRun, hOk⟩ := exists_small (by decide) (by decide) 0 255 hSchedule
  obtain ⟨-, -, hComes, hExact⟩ := exactSums_execute (d := ⟨1, 2, 1, 3, 2⟩) ofDescriptor_small
    (by decide) hRegisters rfl rfl hSchedule
  obtain ⟨st, hStage⟩ := hComes o hRun hOk ⟨1, ⟨0, 0⟩⟩ (by decide)
  exact ⟨st, hStage, hExact _ st hStage⟩

end Attention

end QuantAttention
