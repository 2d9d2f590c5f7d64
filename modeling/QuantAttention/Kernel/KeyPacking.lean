import QuantAttention.Kernel.Interleave
import QuantAttention.Operator.AttentionError

/-!
Packing of keys. Up to sixteen rows of a row-major matrix become the lanes of one block, with
columns padded by zeros to a multiple of a width that is fixed when the kernel is built.
-/

namespace QuantAttention

/-- A kernel that packs keys. -/
structure KeyPacking where
  /-- Columns are padded to a multiple of this. -/
  width : Nat
  width_pos : 0 < width
  four_dvd_width : 4 ∣ width

structure KeyTile where
  source : View Int8
  /-- Entries from the start of one row to that of the next. -/
  stride : Nat
  rows : Nat
  cols : Nat

namespace KeyPacking

def name : String := "transpose_key_16x"

/-- The kernel for a width, which has to be a positive multiple of four. -/
def build (width : Nat) : Except AttentionError KeyPacking :=
  if h : 0 < width ∧ 4 ∣ width then .ok ⟨width, h.1, h.2⟩
  else .error (.kernelBuild name
    ("column padding must be a positive multiple of 4, got " ++ toString width))

/-- The kernel with which attention packs its keys. -/
def wide : KeyPacking := ⟨64, by decide, by decide⟩

def row (tile : KeyTile) (r : Nat) : Checked (Array Int8) := do
  let first ← (r * tile.stride : Size).eval
  let stop ← (r * tile.stride + tile.cols : Size).eval
  return (← tile.source.slice first stop).toArray

/-- The contents of `target` with the packed block at its start. -/
def pack (kernel : KeyPacking) (tile : KeyTile) (target : Array Int8) : Checked (Array Int8) := do
  require (tile.rows ≤ laneCount) .contract
  let depth ← padTo tile.cols kernel.width
  let size ← (16 * depth : Size).eval
  require (size ≤ target.size) .outOfBounds
  let lanes ← Checked.tabulate tile.rows (row tile)
  return splice target 0 (interleave size lanes)

def numbers (tile : KeyTile) (target : Array Int8) : List Nat :=
  [tile.source.size, target.size, tile.stride, tile.rows, tile.cols]

end KeyPacking

end QuantAttention
