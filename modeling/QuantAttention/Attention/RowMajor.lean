import QuantAttention.Attention.Call
import QuantAttention.Mask

/-!
Attention over row-major tensors, entry by entry. This is what a call computes, said without
workspace, packing, blocks or strides. Values are quantized anew per column, probabilities are
bytes, and each row of the output is quantized with one scale for all its heads.
-/

namespace QuantAttention

namespace RowMajor

/-- The entry in column `c` of head `h` at a token of a tensor whose batches have `length` tokens.
-/
def entry (d : Dims) (tensor : Array Int8) (length batch token h c : Nat) : Int8 :=
  tensor.getD (((batch * length + token) * d.headNum + h) * d.headSize + c) 0

/-- The number for which the value of key `j` in column `c` of head `h` stands. -/
def value (d : Dims) (call : Call) (batch h c j : Nat) : Binary32 :=
  .ofInt8 (entry d call.values d.seqK batch j h c) * call.valueScale.getD (batch * d.seqK + j) 0

/-- Column `c` of the values of head `h`, quantized with one scale. -/
def column (d : Dims) (call : Call) (batch h c : Nat) : Binary32 × Array Int8 :=
  quantizeDynamic (Array.ofFn fun j : Fin d.seqK => value d call batch h c j)

/-- The product of query `m` and key `j` in head `h`, summed up to column `depth`. -/
def dotTo (d : Dims) (call : Call) (depth batch m h j : Nat) : Int :=
  sumTo depth fun c =>
    (entry d call.queries d.seqQ batch m h c).toInt * (entry d call.keys d.seqK batch j h c).toInt

def dot (d : Dims) (call : Call) (batch m h j : Nat) : Int := dotTo d call d.headSize batch m h j

/-- The score of query `m` against column `j`. Behind the last key there are columns without a key,
whose product and key scale are zero. -/
def score (d : Dims) (call : Call) (batch m h j : Nat) : Binary32 :=
  let queryScale := call.queryScale.getD (batch * d.seqQ + m) 0
  if j < d.seqK then
    .ofInt (dot d call batch m h j) * queryScale * call.keyScale.getD (batch * d.seqK + j) 0 +
      call.mask.getD (batch * d.seqK + j) 0
  else .ofInt 0 * queryScale * 0 + maskPadding

/-- The probabilities of query `m` in head `h`. Columns are counted up to a multiple of sixteen. -/
def probabilities (d : Dims) (call : Call) (batch m h : Nat) : Array UInt8 :=
  softmax (Array.ofFn fun j : Fin (pad d.seqK 16) => score d call batch m h j)

/-- The output in row `m` and column `c` of head `h` before it is quantized. Only keys that exist
are counted. -/
def weighed (d : Dims) (call : Call) (batch m h c : Nat) : Binary32 :=
  let weights := probabilities d call batch m h
  let (scale, values) := column d call batch h c
  let total := sumTo d.seqK fun j =>
    ((weights.getD j 0).toNat : Int) * (values.getD j 0).toInt
  .ofInt total * scale / probabilityMax

/-- Row `m` of the output with its scale. -/
def row (d : Dims) (call : Call) (batch m : Nat) : Binary32 × Array Int8 :=
  quantizeDynamic (Array.ofFn fun i : Fin (d.headNum * d.headSize) =>
    weighed d call batch m (i / d.headSize) (i % d.headSize))

def rows (d : Dims) (call : Call) : Array (Binary32 × Array Int8) :=
  (Array.range (d.batchSize * d.seqQ)).map fun t => row d call (t / d.seqQ) (t % d.seqQ)

def output (d : Dims) (call : Call) : Array Int8 := ((rows d call).map (·.2)).flatten

def outputScale (d : Dims) (call : Call) : Array Binary32 := (rows d call).map (·.1)

end RowMajor

end QuantAttention
