import QuantAttention.Tile.Config

/-! Which tile shapes give valid configurations. A configuration holds the rows and the row bytes of
its tiles in fields of one and two bytes, and is judged by what the fields hold. So every shape that
fits is taken, and one that does not fit is refused unless what is left of its numbers fits. -/

namespace QuantAttention

/-- Rows and row bytes of the tiles of a shape. Accumulators and left operands have the same rows.
-/
structure TileExtents where
  rows : Nat
  rightRows : Nat
  accumulatorBytes : Nat
  leftBytes : Nat
  rightBytes : Nat
  deriving DecidableEq, Repr

namespace TileExtents

/-- Every tile has between one and sixteen rows of between one and 64 bytes. -/
structure Fit (e : TileExtents) : Prop where
  rows : 1 ≤ e.rows ∧ e.rows ≤ 16
  rightRows : 1 ≤ e.rightRows ∧ e.rightRows ≤ 16
  accumulatorBytes : 1 ≤ e.accumulatorBytes ∧ e.accumulatorBytes ≤ 64
  leftBytes : 1 ≤ e.leftBytes ∧ e.leftBytes ≤ 64
  rightBytes : 1 ≤ e.rightBytes ∧ e.rightBytes ≤ 64

/-- What is left of the numbers in fields of one byte for rows and two for row bytes. -/
def narrowed (e : TileExtents) : TileExtents where
  rows := e.rows % 256
  rightRows := e.rightRows % 256
  accumulatorBytes := e.accumulatorBytes % 65536
  leftBytes := e.leftBytes % 65536
  rightBytes := e.rightBytes % 65536

def config (e : TileExtents) : TileConfig where
  paletteId := 1
  startRow := 0
  rowBytes := TileConfig.entries (.ofNat e.accumulatorBytes) (.ofNat e.leftBytes)
    (.ofNat e.rightBytes) 0
  rows := TileConfig.entries (.ofNat e.rows) (.ofNat e.rows) (.ofNat e.rightRows) 0

variable {e : TileExtents}

/-- A number of rows is judged by what a byte holds of it. -/
theorem rows_valid_iff (n : Nat) :
    (0 < UInt8.ofNat n && UInt8.ofNat n ≤ 16) = true ↔ 1 ≤ n % 256 ∧ n % 256 ≤ 16 := by
  simp [UInt8.lt_iff_toNat_lt, UInt8.le_iff_toNat_le, Nat.succ_le_iff]

/-- A number of row bytes is judged by what two bytes hold of it. -/
theorem rowBytes_valid_iff (n : Nat) :
    (0 < UInt16.ofNat n && UInt16.ofNat n ≤ 64) = true ↔ 1 ≤ n % 65536 ∧ n % 65536 ≤ 64 := by
  simp [UInt16.lt_iff_toNat_lt, UInt16.le_iff_toNat_le, Nat.succ_le_iff]

/-- The entries that belong to tiles are those of accumulators, left and right operands. -/
theorem all_entries {α : Type} (accumulator left right unused : α) (valid : α → Bool) :
    ((TileConfig.entries accumulator left right unused).take TileConfig.tileCount).all valid =
        true ↔
      valid accumulator = true ∧ valid left = true ∧ valid right = true := by
  simp [TileConfig.entries, TileConfig.tileCount, List.replicate]

/-- A configuration is judged by what its fields hold, tile by tile, and not by the shape that it
was made for. -/
theorem isValid_config : e.config.isValid = true ↔ e.narrowed.Fit := by
  rw [TileConfig.isValid, Bool.and_eq_true, Bool.and_eq_true]
  simp only [config, all_entries, rows_valid_iff, rowBytes_valid_iff, decide_true, true_and]
  constructor
  · rintro ⟨⟨hRows, -, hRight⟩, hAccumulator, hLeft, hRightBytes⟩
    exact ⟨hRows, hRight, hAccumulator, hLeft, hRightBytes⟩
  · rintro ⟨hRows, hRight, hAccumulator, hLeft, hRightBytes⟩
    exact ⟨⟨hRows, hRows, hRight⟩, hAccumulator, hLeft, hRightBytes⟩

/-- Numbers that fit lose nothing in their fields. -/
theorem Fit.narrowed_eq (h : e.Fit) : e.narrowed = e := by
  obtain ⟨hRows, hRight, hAccumulator, hLeft, hRightBytes⟩ := h
  rw [narrowed, Nat.mod_eq_of_lt (by omega), Nat.mod_eq_of_lt (by omega),
    Nat.mod_eq_of_lt (by omega), Nat.mod_eq_of_lt (by omega), Nat.mod_eq_of_lt (by omega)]

end TileExtents

namespace TileParam

variable {p : TileParam} {config : TileConfig}

/-- The tiles of a shape. A right operand has one row for every lane of packed elements. -/
def extents (p : TileParam) : TileExtents where
  rows := p.mTile
  rightRows := p.kTile / p.kPack
  accumulatorBytes := 4 * p.nTile
  leftBytes := p.kTile * p.elementBytes
  rightBytes := p.nTile * p.kPack * p.elementBytes

/-- A shape has a configuration if lanes hold elements and the row bytes are sizes. It need not be a
valid one. -/
theorem ofParam_eq_ok : TileConfig.ofParam p = .ok config ↔
    (p.kPack ≠ 0 ∧ p.nTile * 4 < Size.limit ∧ p.kTile * p.elementBytes < Size.limit ∧
      p.nTile * p.kPack < Size.limit ∧ p.nTile * p.kPack * p.elementBytes < Size.limit) ∧
    config = p.extents.config := by
  simp only [TileConfig.ofParam, Checked.bind_eq_ok, Checked.pure_eq_ok, Size.eval_mul_eq_ok,
    Size.eval_div_eq_ok, Size.eval_ofNat, Size.eval_literal, Except.ok.injEq, exists_and_left,
    exists_eq_left', exists_eq_left, and_assoc, TileExtents.config, extents, Nat.mul_comm 4]
  constructor
  · rintro ⟨hAccumulator, hLeft, hPack, hLanes, hRight, rfl⟩
    exact ⟨hPack, hAccumulator, hLeft, hLanes, hRight, rfl⟩
  · rintro ⟨hPack, hAccumulator, hLeft, hLanes, hRight, rfl⟩
    exact ⟨hAccumulator, hLeft, hPack, hLanes, hRight, rfl⟩

/-- A configuration is valid if what its fields hold of the shape fits. A shape that fits has a
valid one, and only such shapes do exactly if no other loses so much in the fields that the rest
fits. -/
theorem isValid_ofParam_iff (h : TileConfig.ofParam p = .ok config) :
    (config.isValid = true ↔ p.extents.narrowed.Fit) ∧
      (p.extents.Fit → config.isValid = true) ∧
      ((config.isValid = true ↔ p.extents.Fit) ↔
        (p.extents.narrowed.Fit → p.extents.narrowed = p.extents)) := by
  obtain ⟨-, rfl⟩ := ofParam_eq_ok.1 h
  have hValid := TileExtents.isValid_config (e := p.extents)
  have hTaken (hFit : p.extents.Fit) : p.extents.config.isValid = true :=
    hValid.2 (by rwa [hFit.narrowed_eq])
  refine ⟨hValid, hTaken, fun hSame hRest => ?_, fun hKept => ⟨fun hGood => ?_, hTaken⟩⟩
  · exact (hSame.1 (hValid.2 hRest)).narrowed_eq
  · have hRest := hValid.1 hGood
    rwa [hKept hRest] at hRest

/-- Tiles of 32 rows, which do not fit and lose nothing in their fields, have a configuration that
is not valid. -/
theorem isValid_ofParam_iff_tall :
    TileConfig.ofParam ⟨32, 16, 64, false, 4⟩ = .ok (extents ⟨32, 16, 64, false, 4⟩).config ∧
      ((extents ⟨32, 16, 64, false, 4⟩).config.isValid = true ↔
        (extents ⟨32, 16, 64, false, 4⟩).Fit) := by
  have hConfig : TileConfig.ofParam ⟨32, 16, 64, false, 4⟩ =
      .ok (extents ⟨32, 16, 64, false, 4⟩).config := rfl
  exact ⟨hConfig, (isValid_ofParam_iff hConfig).2.2.2 fun _ => rfl⟩

/-- Tiles of 272 rows are taken for tiles of sixteen, since a byte holds no more of them. -/
theorem isValid_ofParam_272 : TileConfig.ofParam ⟨272, 16, 64, false, 4⟩ = .ok .fullInt8 ∧
    ¬(TileConfig.fullInt8.isValid = true ↔ (extents ⟨272, 16, 64, false, 4⟩).Fit) := by
  refine ⟨rfl, fun hSame => ?_⟩
  have hRows := (hSame.1 TileConfig.isValid_fullInt8).rows.2
  exact absurd hRows (by decide)

end TileParam

end QuantAttention
