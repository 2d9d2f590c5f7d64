import QuantAttention.Kernel.Interleave
import QuantAttention.Quantize

/-!
Attention outputs. For a block of up to sixteen rows of probabilities and every head, the packed
values are weighed by the probabilities. All heads of a row share one output scale, which is found
from the greatest magnitude of the row before anything of it is quantized.
-/

namespace QuantAttention

/-- What one run computes. Every stride and step counts entries of the operand it belongs to. -/
structure OutputTask where
  probabilities : View UInt8
  /-- Packed values, sixteen columns to a block. -/
  values : View Int8
  /-- The scale of each column of values. -/
  valueScale : View Binary32
  keyCount : Nat
  /-- Columns of a head. -/
  cols : Nat
  rows : Nat
  probabilityStride : Nat
  /-- From one block of values to the next. -/
  valueBlockStride : Nat
  /-- From one row of the output to the next. -/
  outStride : Nat
  heads : Nat
  probabilityStep : Nat
  valueStep : Nat
  valueScaleStep : Nat
  outStep : Nat

structure OutputBlock where
  entries : Array Int8
  scales : Array Binary32
  deriving DecidableEq

namespace Outputs

def name : String := "av_dynamic_quant_16x"

/-- The sum over `depth` keys from which the output of row `r`, head `h` and column `c` is formed. -/
def columnSum (task : OutputTask) (depth r h c : Nat) : Checked Int := do
  let start ← (h * task.probabilityStep + r * task.probabilityStride : Size).eval
  let weights ← (← task.probabilities.drop start).take depth
  let block ← task.values.drop
    (← (h * task.valueStep + (c / 16 : Nat) * task.valueBlockStride : Size).eval)
  contractLane weights.size (fun k => do return ((← weights.get k).toNat : Int)) block (c % 16)

/-- The output of row `r`, head `h` and column `c` before it is quantized. -/
def value (task : OutputTask) (depth r h c : Nat) : Checked Binary32 := do
  let total ← columnSum task depth r h c
  let scale ← task.valueScale.get (← (h * task.valueScaleStep + c : Size).eval)
  return .ofInt total * scale / probabilityMax

def rowValues (task : OutputTask) (depth r : Nat) : Checked (Array (Array Binary32)) :=
  Checked.tabulate task.heads fun h => Checked.tabulate task.cols (value task depth r h)

def writeHead (task : OutputTask) (r h : Nat) (entries : Array Int8) (target : Array Int8) :
    Checked (Array Int8) := do
  let start ← (r * task.outStride + h * task.outStep : Size).eval
  let _ ← (start + task.cols : Size).eval
  overwrite target start entries

def writeRow (task : OutputTask) (depth r : Nat) (target : OutputBlock) : Checked OutputBlock := do
  let values ← rowValues task depth r
  let s := Scale.ofAbsMax (absMax values.flatten)
  require (r < target.scales.size) .outOfBounds
  let entries ← Checked.iterate task.heads (fun h entries =>
    writeHead task r h ((values.getD h #[]).map fun y => quantizeActivation y s.inverse) entries)
    target.entries
  return { entries, scales := target.scales.setIfInBounds r s.scale }

/-- The contents of `target` with every row. The tile registers must be loaded on the thread that
computes them. -/
def run (tilesLoaded : Bool) (task : OutputTask) (target : OutputBlock) : Checked OutputBlock := do
  require tilesLoaded .contract
  require (task.rows ≤ 16) .contract
  let depth ← padTo task.keyCount 64
  require (depth ≤ task.probabilityStride) .contract
  Checked.iterate task.rows (writeRow task depth) target

def numbers (task : OutputTask) (target : OutputBlock) : List Nat :=
  [task.probabilities.size, task.values.size, task.valueScale.size, target.entries.size,
    target.scales.size, task.keyCount, task.cols, task.rows, task.probabilityStride,
    task.valueBlockStride, task.outStride, task.heads, task.probabilityStep, task.valueStep,
    task.valueScaleStep, task.outStep]

end Outputs

end QuantAttention
