import QuantAttention.Attention.Packing
import QuantAttention.Session

/-!
The second phase of a call: every block of queries gets its probabilities into the scratch of the
worker that runs it, and from them its output rows. A worker loads the tile registers before its
first block.
-/

namespace QuantAttention

/-- The second phase under way. -/
structure AttendingRun where
  pool : Pool
  output : Array Int8
  outputScale : Array Binary32
  log : Array Event
  deriving DecidableEq

namespace Attending

/-- The first query of a task, counted over all batches. -/
def firstRow (d : Dims) (task : RowTask) : Checked Nat :=
  (task.batch * d.seqQ + task.block * blockRows : Size).eval

def rowCount (d : Dims) (task : RowTask) : Nat := min (d.seqQ - task.block * blockRows) blockRows

def probabilityTask (d : Dims) (s : Strides) (call : Call) (maskRows : Array Binary32)
    (operands : PackedOperands) (task : RowTask) : Checked ProbabilityTask := do
  let row ← firstRow d task
  let queries ← (View.ofArray call.queries).drop (← (row * s.token : Size).eval)
  let keys ← (View.ofArray operands.keys).drop
    (← (task.batch * d.headNum * s.headKeys : Size).eval)
  let queryScale ← (View.ofArray call.queryScale).drop row
  let keyScale ← (View.ofArray call.keyScale).drop (← (task.batch * d.seqK : Size).eval)
  let bias ← (View.ofArray maskRows).drop (← (task.batch * s.mask : Size).eval)
  return {
    queries, keys, queryScale, keyScale, bias
    depth := d.headSize
    keyCount := d.seqK
    rows := rowCount d task
    queryStride := s.token
    keyBlockStride := ← (16 * s.keyDepth : Size).eval
    outStride := s.rowLength
    heads := d.headNum
    queryStep := d.headSize
    queryScaleStep := 0
    keyStep := s.headKeys
    keyScaleStep := 0
    outStep := ← (16 * s.rowLength : Size).eval }

/-- What the output kernel computes for a task from the probabilities in the scratch. -/
def outputTask (d : Dims) (s : Strides) (operands : PackedOperands) (scratch : Array UInt8)
    (task : RowTask) : Checked OutputTask := do
  let values ← (View.ofArray operands.values).drop
    (← (task.batch * d.headNum * s.headValues : Size).eval)
  let valueScale ← (View.ofArray operands.valueScale).drop
    (← (task.batch * d.headNum * s.headScales : Size).eval)
  return {
    probabilities := .ofArray scratch
    values, valueScale
    keyCount := d.seqK
    cols := d.headSize
    rows := rowCount d task
    probabilityStride := s.rowLength
    valueBlockStride := ← (16 * s.rowLength : Size).eval
    outStride := s.token
    heads := d.headNum
    probabilityStep := ← (16 * s.rowLength : Size).eval
    valueStep := s.headValues
    valueScaleStep := s.headScales
    outStep := d.headSize }

/-- A worker comes to a task. Unless it has come to one before, it loads its registers; whatever then
becomes of the task, they stay loaded. -/
def arrive (run : AttendingRun) (worker : Nat) : Checked AttendingRun := do
  let caller := Caller.worker worker
  let ready ← run.pool.sessions.tilesReady caller
  let pool ← run.pool.ensureTiles caller .fullInt8
  return { run with pool, log := if ready then run.log else run.log.push (.configured worker) }

/-- What a task has at hand when it calls the output kernel. -/
structure Stage where
  pool : Pool
  log : Array Event
  tilesLoaded : Bool
  scratch : Array UInt8
  outputs : OutputTask
  row : Nat
  target : OutputBlock

/-- The part of a task that comes before the output kernel. -/
def stage (d : Dims) (s : Strides) (call : Call) (maskRows : Array Binary32)
    (operands : PackedOperands) (run : AttendingRun) (assigned : Assigned RowTask) :
    Checked Stage := do
  let { worker, task } := assigned
  let caller := Caller.worker worker
  let run ← arrive run worker
  let tilesLoaded := (run.pool.registers.loaded (caller.thread run.pool.size)).isSome
  let before ← run.pool.sessions.scratch caller
  let probabilities ← probabilityTask d s call maskRows operands task
  let log := run.log.push (.invoked worker
    ⟨.probabilities, Probabilities.numbers probabilities before⟩)
  let scratch ← Probabilities.run tilesLoaded probabilities before
  let outputs ← outputTask d s operands scratch task
  let row ← firstRow d task
  return {
    pool := run.pool
    log, tilesLoaded, scratch, outputs, row
    target :=
      { entries := run.output.extract (row * s.token) ((row + rowCount d task) * s.token)
        scales := run.outputScale.extract row (row + rowCount d task) } }

def attendBlock (d : Dims) (s : Strides) (call : Call) (maskRows : Array Binary32)
    (operands : PackedOperands) (run : AttendingRun) (assigned : Assigned RowTask) :
    Checked AttendingRun := do
  let st ← stage d s call maskRows operands run assigned
  let block ← Outputs.run st.tilesLoaded st.outputs st.target
  let sessions ← st.pool.sessions.setScratch (.worker assigned.worker) st.scratch
  return {
    pool := { st.pool with sessions }
    output := splice run.output (st.row * s.token) block.entries
    outputScale := splice run.outputScale st.row block.scales
    log := st.log.push
      (.invoked assigned.worker ⟨.outputs, Outputs.numbers st.outputs st.target⟩) }

def attend (d : Dims) (s : Strides) (call : Call) (maskRows : Array Binary32)
    (operands : PackedOperands) (tasks : List (Assigned RowTask)) (run : AttendingRun) :
    Checked AttendingRun := do
  let usedOutput ← (d.batchSize * d.seqQ * s.token : Size).eval
  let usedScale ← (d.batchSize * d.seqQ : Size).eval
  let batch ← (d.seqQ * s.token : Size).eval
  let block ← (blockRows * s.token : Size).eval
  require (usedOutput ≤ run.output.size) .outOfBounds
  require (usedScale ≤ run.outputScale.size) .outOfBounds
  require (0 < batch ∧ 0 < block ∧ 0 < d.seqQ) .contract
  tasks.foldlM (attendBlock d s call maskRows operands) run

end Attending

end QuantAttention
