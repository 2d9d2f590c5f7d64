import QuantAttention.Size

/-!
Tile configurations. A kernel is made for a logical tile shape; the configuration that is loaded
into the registers holds rows and row bytes of eight tiles, four for accumulators and two for each
operand, in narrow fields into which the numbers of the shape are cut down.
-/

namespace QuantAttention

/-- The logical tile shape for which a kernel is made. -/
structure TileParam where
  mTile : Nat
  nTile : Nat
  kTile : Nat
  isBf16 : Bool
  /-- How many elements of the right operand share one 32-bit lane. -/
  kPack : Nat
  deriving DecidableEq, Repr

namespace TileParam

/-- Full tiles of int8: 16 × 16 accumulators over 64 products. -/
def fullInt8 : TileParam := ⟨16, 16, 64, false, 4⟩

def elementBytes (p : TileParam) : Nat := if p.isBf16 then 2 else 1

def debugText (p : TileParam) : String :=
  "TileParam \x7b m_tile: " ++ toString p.mTile ++ ", n_tile: " ++ toString p.nTile ++
    ", k_tile: " ++ toString p.kTile ++ ", is_bf16: " ++ (if p.isBf16 then "true" else "false") ++
    ", k_pack: " ++ toString p.kPack ++ " \x7d"

end TileParam

/-- The contents of the configuration register. Rows and row bytes have sixteen entries, of which
the first eight belong to tiles. -/
structure TileConfig where
  paletteId : UInt8
  startRow : UInt8
  rowBytes : List UInt16
  rows : List UInt8
  deriving DecidableEq, Repr

namespace TileConfig

def tileCount : Nat := 8

/-- Sixteen entries: those of the four accumulators, of the two left and of the two right operands,
then unused ones. -/
def entries {α : Type} (accumulator left right unused : α) : List α :=
  List.replicate 4 accumulator ++ List.replicate 2 left ++ List.replicate 2 right ++
    List.replicate 8 unused

/-- The configuration for a tile shape. Numbers too great for their field lose their high bits. -/
def ofParam (p : TileParam) : Checked TileConfig := do
  let accumulatorBytes ← (p.nTile * 4 : Size).eval
  let leftBytes ← (p.kTile * p.elementBytes : Size).eval
  let rightRows ← (p.kTile / p.kPack : Size).eval
  let rightBytes ← (p.nTile * p.kPack * p.elementBytes : Size).eval
  return {
    paletteId := 1
    startRow := 0
    rowBytes := entries (.ofNat accumulatorBytes) (.ofNat leftBytes) (.ofNat rightBytes) 0
    rows := entries (.ofNat p.mTile) (.ofNat p.mTile) (.ofNat rightRows) 0 }

/-- Every tile has between one and sixteen rows of between one and 64 bytes. -/
def isValid (c : TileConfig) : Bool :=
  c.paletteId = 1 && (c.rows.take tileCount).all (fun r => 0 < r && r ≤ 16) &&
    (c.rowBytes.take tileCount).all (fun b => 0 < b && b ≤ 64)

def fullInt8 : TileConfig :=
  { paletteId := 1, startRow := 0, rowBytes := entries 64 64 64 0, rows := entries 16 16 16 0 }

theorem ofParam_fullInt8 : ofParam .fullInt8 = .ok fullInt8 := rfl

theorem isValid_fullInt8 : fullInt8.isValid = true := by decide

end TileConfig

end QuantAttention
