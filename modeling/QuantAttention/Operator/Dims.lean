import QuantAttention.Operator.AttentionError
import QuantAttention.Operator.Descriptor

/-!
The dimensions of an attention problem. A zero leaves a dimension open until the call, which brings
its value along; `resolve` fills the zeros in.
-/

namespace QuantAttention

structure Dims where
  batchSize : Nat
  headNum : Nat
  /-- How many queries there are per batch. -/
  seqQ : Nat
  /-- How many keys and values there are per batch. -/
  seqK : Nat
  headSize : Nat
  deriving DecidableEq, Repr, Inhabited

/-- The values a call brings along for open dimensions, as 32-bit integers. -/
structure CallDims where
  batchSize : Option Int := none
  headNum : Option Int := none
  seqQ : Option Int := none
  seqK : Option Int := none
  headSize : Option Int := none
  deriving DecidableEq, Repr, Inhabited

namespace Dims

def toList (d : Dims) : List Nat := [d.batchSize, d.headNum, d.seqQ, d.seqK, d.headSize]

/-- Each dimension with the slot of the scalar that carries it when it is open. -/
def withSlots (d : Dims) : List (Nat × Slot) :=
  [(d.batchSize, .batchSize), (d.headNum, .headNum), (d.headSize, .headSize), (d.seqQ, .m),
    (d.seqK, .n)]

def isStatic (d : Dims) : Bool := d.withSlots.all fun entry => 0 < entry.1

/-- There is nothing to compute or nothing to attend to. -/
def isDegenerate (d : Dims) : Bool := d.withSlots.any fun entry => entry.1 = 0

theorem isDegenerate_eq_false {d : Dims} : d.isDegenerate = false ↔
    d.batchSize ≠ 0 ∧ d.headNum ≠ 0 ∧ d.headSize ≠ 0 ∧ d.seqQ ≠ 0 ∧ d.seqK ≠ 0 := by
  simp [isDegenerate, withSlots]

/-- The shape every data slot must have. -/
def dataShapes (d : Dims) : List (Slot × List Nat) :=
  [(.srcQ, [d.batchSize, d.seqQ, d.headNum, d.headSize]),
    (.srcK, [d.batchSize, d.seqK, d.headNum, d.headSize]),
    (.srcV, [d.batchSize, d.seqK, d.headNum, d.headSize]),
    (.dst, [d.batchSize, d.seqQ, d.headNum, d.headSize]),
    (.binaryAdd, [d.batchSize, 1, 1, d.seqK]),
    (.qScale, [d.batchSize, d.seqQ]),
    (.kScale, [d.batchSize, d.seqK]),
    (.vScale, [d.batchSize, d.seqK]),
    (.dstScale, [d.batchSize, d.seqQ])]

def debugText (d : Dims) : String :=
  "MhaDims \x7b batch_size: " ++ toString d.batchSize ++ ", head_num: " ++ toString d.headNum ++
    ", seq_q: " ++ toString d.seqQ ++ ", seq_k: " ++ toString d.seqK ++ ", head_size: " ++
    toString d.headSize ++ " \x7d"

def ofDescriptor (d : OperatorDesc) : Except AttentionError Dims :=
  match (d.shape .srcQ).dims, (d.shape .srcK).dims with
  | [batchSize, seqQ, headNum, headSize], [_, seqK, _, _] =>
    .ok { batchSize, headNum, seqQ, seqK, headSize }
  | [_, _, _, _], got => .error (.shapeMismatch .srcK [0, 0, 0, 0] got)
  | got, _ => .error (.shapeMismatch .srcQ [0, 0, 0, 0] got)

/-- A dimension that is not open, or else the value that the call brings for it. -/
def choose (fixed : Nat) (called : Option Int) (slot : Slot) : Except AttentionError Nat :=
  if 0 < fixed then .ok fixed
  else match called with
    | some value => if 0 ≤ value then .ok value.toNat else .error (.missingDim slot)
    | none => .error (.missingDim slot)

def resolve (d : Dims) (called : CallDims) : Except AttentionError Dims := do
  let batchSize ← choose d.batchSize called.batchSize .batchSize
  let headNum ← choose d.headNum called.headNum .headNum
  let seqQ ← choose d.seqQ called.seqQ .m
  let seqK ← choose d.seqK called.seqK .n
  let headSize ← choose d.headSize called.headSize .headSize
  return { batchSize, headNum, seqQ, seqK, headSize }

end Dims

end QuantAttention
