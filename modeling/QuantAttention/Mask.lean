import QuantAttention.Binary32.Arithmetic
import QuantAttention.Size
import QuantAttention.View

/-!
The mask as the score kernel reads it: per batch one row of entries, padded to a multiple of
sixteen by a bias so low that the columns behind the last key get little weight. A mask whose rows
need no padding is used as it is.
-/

namespace QuantAttention

/-- The bias of a column that has no key. -/
def maskPadding : Binary32 := .ofInt (-1000)

structure PreparedMask where
  rows : Array Binary32
  /-- The scratch after the preparation. -/
  scratch : Array Binary32
  /-- Whether the rows are the caller's own. Buffers without entries are not told apart. -/
  isCallers : Bool
  deriving DecidableEq

namespace PreparedMask

/-- Row `i` of a mask with `seqK` entries per row, padded to `stride`. -/
def paddedRow (mask : Array Binary32) (seqK stride i : Nat) : Array Binary32 :=
  mask.extract (i * seqK) (i * seqK + seqK) ++ Array.replicate (stride - seqK) maskPadding

/-- The mask of `batch` rows with `seqK` entries each. Rows that the caller's mask does not have in
full are left as they stand in the scratch. -/
def prepare (mask scratch : Array Binary32) (batch seqK : Nat) : Checked PreparedMask := do
  let stride ← padTo seqK 16
  if stride = seqK then
    let used ← (batch * seqK : Size).eval
    require (used ≤ mask.size) .outOfBounds
    return ⟨mask.extract 0 used, scratch, true⟩
  let used ← (batch * stride : Size).eval
  require (used ≤ scratch.size) .outOfBounds
  let scratch := (List.range (min batch (mask.size / seqK))).foldl
    (fun scratch i => splice scratch (i * stride) (paddedRow mask seqK stride i)) scratch
  return ⟨scratch.extract 0 used, scratch, mask.isEmpty && scratch.isEmpty⟩

end PreparedMask

end QuantAttention
