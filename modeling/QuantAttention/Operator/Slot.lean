/-!
The named tensor slots of the attention operator, in the order of their indices.
-/

namespace QuantAttention

inductive Slot where
  | srcQ | srcK | srcV | dst
  | binaryAdd
  | qScale | kScale | vScale | dstScale
  | qZeroPoint | kZeroPoint | vZeroPoint | dstZeroPoint
  /-- A fixed scale of the output, which this operator computes instead. -/
  | srcDstScale
  /-- A fixed zero point of the output. -/
  | srcDstZeroPoint
  /-- The scalars that carry dimensions known only at call time. -/
  | batchSize | headNum | headSize | m | n
  | workspace
  deriving DecidableEq, Repr, Inhabited

namespace Slot

def all : List Slot :=
  [srcQ, srcK, srcV, dst, binaryAdd, qScale, kScale, vScale, dstScale, qZeroPoint, kZeroPoint,
    vZeroPoint, dstZeroPoint, srcDstScale, srcDstZeroPoint, batchSize, headNum, headSize, m, n,
    workspace]

def index : Slot → Nat
  | srcQ => 0
  | srcK => 1
  | srcV => 2
  | dst => 3
  | binaryAdd => 4
  | qScale => 5
  | kScale => 6
  | vScale => 7
  | dstScale => 8
  | qZeroPoint => 9
  | kZeroPoint => 10
  | vZeroPoint => 11
  | dstZeroPoint => 12
  | srcDstScale => 13
  | srcDstZeroPoint => 14
  | batchSize => 15
  | headNum => 16
  | headSize => 17
  | m => 18
  | n => 19
  | workspace => 20

def count : Nat := 21

theorem index_lt (s : Slot) : s.index < count := by cases s <;> decide

theorem index_injective {s t : Slot} (h : s.index = t.index) : s = t := by
  cases s <;> cases t <;> first | rfl | exact absurd h (by decide)

theorem mem_all (s : Slot) : s ∈ all := by cases s <;> decide

def name : Slot → String
  | srcQ => "src_q"
  | srcK => "src_k"
  | srcV => "src_v"
  | dst => "dst"
  | binaryAdd => "binary_add"
  | qScale => "q_scale"
  | kScale => "k_scale"
  | vScale => "v_scale"
  | dstScale => "dst_scale"
  | qZeroPoint => "q_zp"
  | kZeroPoint => "k_zp"
  | vZeroPoint => "v_zp"
  | dstZeroPoint => "dst_zp"
  | srcDstScale => "src_dst_scale"
  | srcDstZeroPoint => "src_dst_zp"
  | batchSize => "batch_size"
  | headNum => "head_num"
  | headSize => "head_size"
  | m => "m"
  | n => "n"
  | workspace => "workspace"

end Slot

end QuantAttention
