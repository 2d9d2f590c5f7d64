import QuantAttention.Attention.Attending
import QuantAttention.Mask

/-!
Running a call. All checks come before the first write; what follows them packs keys and values,
prepares the mask and attends, and at last releases the tile registers.
-/

namespace QuantAttention

/-- How a call ended, and what it left behind. -/
structure Outcome where
  result : Except AttentionError Unit
  memory : Memory
  registers : TileRegisters
  log : Array Event

/-- What the second phase of a call reads, and the state in which it starts. -/
structure Prepared where
  strides : Strides
  operands : PackedOperands
  mask : PreparedMask
  run : AttendingRun

namespace Attention

def idle (result : Except AttentionError Unit) (memory : Memory) (registers : TileRegisters) :
    Outcome :=
  { result, memory, registers, log := #[] }

/-- Release the tile registers after a call, if the settings say so. -/
def finish (a : Attention) (pool : Pool) : Checked Pool :=
  if a.releaseTiles then do return (← pool.releaseAll).1 else .ok pool

/-- Everything before the second phase: sessions for the workers, packed operands and the mask. -/
def prepare (a : Attention) (tasks : List (Assigned HeadTask)) (call : Call) (layout : Layout)
    (regions : WorkspaceRegions) (memory : Memory) (registers : TileRegisters) :
    Checked Prepared := do
  let d := layout.dims
  let perWorker ← layout.workerScratchBytes
  let sessions ← Sessions.carve regions.scratch perWorker a.threads
  let strides ← layout.strides
  let packing ← Packing.pack a d strides call tasks
    { keys := regions.keys, values := regions.values, valueScale := regions.valueScale }
  let mask ← PreparedMask.prepare call.mask regions.mask d.batchSize d.seqK
  return {
    strides, mask
    operands := packing.operands
    run :=
      { pool := { size := a.threads, sessions, registers }
        output := memory.output
        outputScale := memory.outputScale
        log := packing.log } }

def compute (a : Attention) (schedule : Schedule) (call : Call) (layout : Layout)
    (regions : WorkspaceRegions) (memory : Memory) (registers : TileRegisters) :
    Checked Outcome := do
  let prepared ← a.prepare schedule.heads call layout regions memory registers
  let run ← Attending.attend layout.dims prepared.strides call prepared.mask.rows
    prepared.operands schedule.rows prepared.run
  let pool ← a.finish run.pool
  let bytes := WorkspaceRegions.toBytes {
    mask := prepared.mask.scratch
    keys := prepared.operands.keys
    values := prepared.operands.values
    valueScale := prepared.operands.valueScale
    scratch := pool.sessions.region
    tail := regions.tail }
  return {
    result := .ok ()
    memory :=
      { output := run.output
        outputScale := run.outputScale
        workspace := { memory.workspace with bytes } }
    registers := pool.registers
    log := run.log }

/-- Run a call. Its dimensions, once they are known, decide in which order the tasks run on which
workers. The registers are those of the pool's threads. -/
def execute (a : Attention) (schedule : Dims → Schedule) (call : Call) (memory : Memory)
    (registers : TileRegisters) : Checked Outcome := do
  match ← a.preflight call memory with
  | .error e => return idle (.error e) memory registers
  | .ok (layout, regions) =>
    if layout.dims.isDegenerate then return idle (.ok ()) memory registers
    a.compute (schedule layout.dims) call layout regions memory registers

end Attention

end QuantAttention
