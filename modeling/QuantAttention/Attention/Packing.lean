import QuantAttention.Attention.Call
import QuantAttention.Attention.Schedule

/-!
The first phase of a call: the keys and values of every batch and head are packed into the
workspace.
-/

namespace QuantAttention

structure PackedOperands where
  keys : Array Int8
  values : Array Int8
  valueScale : Array Binary32
  deriving DecidableEq

structure PackingRun where
  operands : PackedOperands
  log : Array Event
  deriving DecidableEq

namespace Packing

/-- Where the entries of a head begin in a tensor of keys or values. -/
def headStart (d : Dims) (s : Strides) (task : HeadTask) : Checked Nat :=
  (task.batch * d.seqK * s.token + task.head * d.headSize : Size).eval

def headNumber (d : Dims) (task : HeadTask) : Nat := task.batch * d.headNum + task.head

/-- Pack sixteen keys of a head, from key `16 * block` on. -/
def packKeyBlock (a : Attention) (d : Dims) (s : Strides) (call : Call) (worker : Nat)
    (task : HeadTask) (block : Nat) (run : PackingRun) : Checked PackingRun := do
  let key := 16 * block
  let start ← headStart d s task
  let source ← (View.ofArray call.keys).drop (← (start + key * s.token : Size).eval)
  let offset ← (key * s.keyDepth : Size).eval
  require (offset ≤ s.headKeys) .outOfBounds
  let first := headNumber d task * s.headKeys
  let target := run.operands.keys.extract (first + offset) (first + s.headKeys)
  let tile : KeyTile :=
    { source, stride := s.token, rows := min (d.seqK - key) 16, cols := d.headSize }
  let packed ← a.keyPacking.pack tile target
  return {
    operands := { run.operands with keys := splice run.operands.keys (first + offset) packed }
    log := run.log.push (.invoked worker ⟨.keyPacking, KeyPacking.numbers tile target⟩) }

/-- `xs` with zeros from entry `live` on. -/
def clearFrom (xs : Array Int8) (live : Nat) : Checked (Array Int8) := do
  require (live ≤ xs.size) .outOfBounds
  return xs.extract 0 live ++ Array.replicate (xs.size - live) 0

/-- Pack sixteen columns of the values of a head, from column `16 * block` on. -/
def packValueBlock (d : Dims) (s : Strides) (call : Call) (worker : Nat) (task : HeadTask)
    (block : Nat) (run : PackingRun) : Checked PackingRun := do
  let start ← headStart d s task
  let column ← (block * 16 : Size).eval
  let source ← (View.ofArray call.values).drop (← (start + column : Size).eval)
  let firstKey ← (task.batch * d.seqK : Size).eval
  let stopKey ← ((task.batch + 1) * d.seqK : Size).eval
  let rowScale ← (View.ofArray call.valueScale).slice firstKey stopKey
  let columnsLeft ← (d.headSize - column : Size).eval
  let tile : ValueTile :=
    { source, rowScale, stride := s.token, rows := d.seqK, cols := min columnsLeft 16 }
  let first := headNumber d task * s.headValues + block * s.valueBlock
  let firstScale := headNumber d task * s.headScales + block * 16
  let target := run.operands.values.extract first (first + s.valueBlock)
  let scales := run.operands.valueScale.extract firstScale (firstScale + 16)
  let (packed, packedScales) ← ValuePacking.pack tile target scales
  let packed ← clearFrom packed s.valueLive
  return {
    operands := { run.operands with
      values := splice run.operands.values first packed
      valueScale := splice run.operands.valueScale firstScale packedScales }
    log := run.log.push (.invoked worker ⟨.valuePacking, ValuePacking.numbers tile target scales⟩) }

def packHead (a : Attention) (d : Dims) (s : Strides) (call : Call) (run : PackingRun)
    (assigned : Assigned HeadTask) : Checked PackingRun := do
  let run ← Checked.iterate ((d.seqK + 15) / 16)
    (packKeyBlock a d s call assigned.worker assigned.task) run
  Checked.iterate (min (s.headValues / s.valueBlock) (s.headScales / 16))
    (packValueBlock d s call assigned.worker assigned.task) run

def pack (a : Attention) (d : Dims) (s : Strides) (call : Call) (tasks : List (Assigned HeadTask))
    (operands : PackedOperands) : Checked PackingRun := do
  let usedKeys ← (d.batchSize * d.headNum * s.headKeys : Size).eval
  let usedValues ← (d.batchSize * d.headNum * s.headValues : Size).eval
  let usedScales ← (d.batchSize * d.headNum * s.headScales : Size).eval
  require (usedKeys ≤ operands.keys.size) .outOfBounds
  require (usedValues ≤ operands.values.size) .outOfBounds
  require (usedScales ≤ operands.valueScale.size) .outOfBounds
  require (0 < s.headKeys ∧ 0 < s.headValues ∧ 0 < s.headScales ∧ 0 < s.valueBlock) .contract
  tasks.foldlM (packHead a d s call) ⟨operands, #[]⟩

end Packing

end QuantAttention
