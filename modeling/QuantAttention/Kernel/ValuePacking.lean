import QuantAttention.Kernel.Interleave
import QuantAttention.Quantize

/-!
Packing of values. Up to sixteen columns of a row-major matrix become the lanes of one block. The
rows come with a scale each; a packed column is quantized anew with one scale of its own, which is
found from its greatest magnitude.
-/

namespace QuantAttention

structure ValueTile where
  source : View Int8
  /-- The scale of each row. -/
  rowScale : View Binary32
  /-- Entries from the start of one row to that of the next. -/
  stride : Nat
  rows : Nat
  cols : Nat

namespace ValuePacking

def name : String := "transpose_requant_value_x16"

/-- The number for which the entry in row `r` and column `c` stands. -/
def entry (tile : ValueTile) (c r : Nat) : Checked Binary32 := do
  let q ← tile.source.get (← (r * tile.stride + c : Size).eval)
  return .ofInt8 q * (← tile.rowScale.get r)

/-- Column `c`, quantized anew, with its scale. -/
def column (tile : ValueTile) (c : Nat) : Checked (Binary32 × Array Int8) := do
  return quantizeDynamic (← Checked.tabulate tile.rows (entry tile c))

/-- The contents of `target` with the packed block at its start, and those of `scales` with the
sixteen column scales at its start. Columns that do not exist have scale zero. -/
def pack (tile : ValueTile) (target : Array Int8) (scales : Array Binary32) :
    Checked (Array Int8 × Array Binary32) := do
  require (tile.cols ≤ laneCount) .contract
  let depth ← padTo tile.rows 4
  let size ← (16 * depth : Size).eval
  require (size ≤ target.size) .outOfBounds
  require (laneCount ≤ scales.size) .outOfBounds
  let columns ← Checked.tabulate tile.cols (column tile)
  let columnScales := Array.ofFn fun c : Fin laneCount => (columns[c.val]?.map (·.1)).getD 0
  return (splice target 0 (interleave size (columns.map (·.2))), splice scales 0 columnScales)

def numbers (tile : ValueTile) (target : Array Int8) (scales : Array Binary32) : List Nat :=
  [tile.source.size, target.size, tile.rowScale.size, scales.size, tile.stride, tile.rows,
    tile.cols]

end ValuePacking

end QuantAttention
