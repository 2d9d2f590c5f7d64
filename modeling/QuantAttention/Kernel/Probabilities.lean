import QuantAttention.Kernel.Interleave
import QuantAttention.Operator.AttentionError
import QuantAttention.Quantize
import QuantAttention.Tile.Config

/-!
Attention probabilities. For a block of up to sixteen queries and every head, the scores against
packed keys are scaled and biased, go through the approximate exponential, are divided by their
sum, and are stored as bytes. No maximum is subtracted from the scores, so a sum may overflow, and
then its whole row is zero. Columns are computed up to a multiple of sixteen; it is the bias that
keeps the columns behind the last key small.
-/

namespace QuantAttention

/-- The kernels that multiply tiles are made for full int8 tiles only. -/
def checkTile (kernel : String) (tile : TileParam) : Except AttentionError Unit :=
  if tile = .fullInt8 then .ok ()
  else .error (.kernelBuild kernel
    ("only 16x16x64 int8 tiles are supported, got " ++ tile.debugText))

/-- What one run computes. Every stride and step counts entries of the operand it belongs to. -/
structure ProbabilityTask where
  queries : View Int8
  /-- Packed keys, sixteen to a block. -/
  keys : View Int8
  queryScale : View Binary32
  keyScale : View Binary32
  bias : View Binary32
  /-- Entries of a query and of a key. -/
  depth : Nat
  keyCount : Nat
  rows : Nat
  queryStride : Nat
  /-- From one block of keys to the next. -/
  keyBlockStride : Nat
  /-- From one row of probabilities to the next. -/
  outStride : Nat
  heads : Nat
  queryStep : Nat
  queryScaleStep : Nat
  keyStep : Nat
  keyScaleStep : Nat
  outStep : Nat

structure ProbabilityHead where
  queries : View Int8
  keys : View Int8
  queryScale : View Binary32
  keyScale : View Binary32

/-- What the weights of a row with the sum `total` are multiplied with. -/
def sumInverse (total : Binary32) : Binary32 :=
  if Binary32.lt 0 total then .ofInt 1 / total else 0

/-- The probabilities of a row of scores. -/
def softmax (scores : Array Binary32) : Array UInt8 :=
  let weights := scores.map approxExp
  let total := weights.foldl (· + ·) 0
  let inverse := sumInverse total
  weights.map fun w => quantizeProbability (w * inverse)

namespace Probabilities

def name : String := "qk_softmax_u8_16x"

/-- The part of each operand that belongs to head `h`. -/
def head (task : ProbabilityTask) (h : Nat) : Checked ProbabilityHead := do
  let queries ← task.queries.drop (← (h * task.queryStep : Size).eval)
  let keys ← task.keys.drop (← (h * task.keyStep : Size).eval)
  let queryScale ← task.queryScale.drop (← (h * task.queryScaleStep : Size).eval)
  let keyScale ← task.keyScale.drop (← (h * task.keyScaleStep : Size).eval)
  return { queries, keys, queryScale, keyScale }

/-- The product of a query with the packed key `c`, whose blocks are `blockStride` apart. -/
def dotKey (query keys : View Int8) (blockStride c : Nat) : Checked Int := do
  let block ← keys.drop (← ((c / 16 : Nat) * blockStride : Size).eval)
  contractLane query.size (fun d => do return (← query.get d).toInt) block (c % 16)

/-- The score of query `r` against column `c`. A column without a key has key scale zero. -/
def score (task : ProbabilityTask) (operands : ProbabilityHead) (query : View Int8) (r c : Nat) :
    Checked Binary32 := do
  let keyScale ← if c < task.keyCount then operands.keyScale.get c else .ok 0
  let dot ← dotKey query operands.keys task.keyBlockStride c
  return .ofInt dot * (← operands.queryScale.get r) * keyScale + (← task.bias.get c)

/-- The first `width` probabilities of query `r`. -/
def row (task : ProbabilityTask) (operands : ProbabilityHead) (width r : Nat) :
    Checked (Array UInt8) := do
  let first ← (r * task.queryStride : Size).eval
  let stop ← (r * task.queryStride + task.depth : Size).eval
  let query ← operands.queries.slice first stop
  return softmax (← Checked.tabulate width (score task operands query r))

/-- Sixteen rows of `stride` entries, zero behind the end of each row and for rows that are not
given. -/
def block (stride : Nat) (rows : Array (Array UInt8)) : Array UInt8 :=
  Array.ofFn fun i : Fin (16 * stride) => ((rows[i / stride]?).bind (·[i % stride]?)).getD 0

def writeHead (task : ProbabilityTask) (width h : Nat) (target : Array UInt8) :
    Checked (Array UInt8) := do
  let operands ← head task h
  let start ← (h * task.outStep : Size).eval
  require (start ≤ target.size) .outOfBounds
  let size ← (16 * task.outStride : Size).eval
  require (start + size ≤ target.size) .outOfBounds
  let rows ← Checked.tabulate task.rows (row task operands width)
  return splice target start (block task.outStride rows)

/-- The contents of `target` with the probabilities of every head. The tile registers must be loaded
on the thread that computes them. -/
def run (tilesLoaded : Bool) (task : ProbabilityTask) (target : Array UInt8) :
    Checked (Array UInt8) := do
  require tilesLoaded .contract
  require (task.rows ≤ 16) .contract
  let width ← padTo task.keyCount 16
  require (width ≤ task.outStride) .contract
  Checked.iterate task.heads (writeHead task width) target

/-- The numbers of one run: buffer lengths, then strides, counts and steps. -/
def numbers (task : ProbabilityTask) (target : Array UInt8) : List Nat :=
  [task.queries.size, task.keys.size, task.queryScale.size, task.keyScale.size, task.bias.size,
    target.size, task.depth, task.keyCount, task.rows, task.queryStride, task.keyBlockStride,
    task.outStride, task.heads, task.queryStep, task.queryScaleStep, task.keyStep,
    task.keyScaleStep, task.outStep]

end Probabilities

end QuantAttention
