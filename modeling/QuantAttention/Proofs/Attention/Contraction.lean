import QuantAttention.Proofs.Attention.Packing
import QuantAttention.Proofs.Attention.Products
import QuantAttention.Proofs.Kernel.PartialSums

/-! Packed operands contract like row-major ones. A matrix of any size is packed block by block,
sixteen rows of keys or sixteen columns of values at a time and in any order. What the kernels then
read from a lane is the row or the column itself, and zero in the padding; so their sums are those
over the matrix, as long as no partial sum leaves the range of the accumulator. -/

namespace QuantAttention

namespace View

variable {α : Type}

/-- The view without its first `count` entries; empty if it has no more than these. -/
def after (v : View α) (count : Nat) : View α :=
  ⟨v.buffer, v.start + min count v.size, v.size - count, by have := v.fits; omega⟩

theorem getD_after (v : View α) (count i : Nat) (fallback : α) :
    (v.after count).getD i fallback = v.getD (count + i) fallback := by
  by_cases hi : count + i < v.size
  · simp [getD, after, hi, show i < v.size - count by omega, Nat.add_assoc,
      Nat.min_eq_left (show count ≤ v.size by omega)]
  · simp [getD, after, hi, show ¬i < v.size - count by omega]

end View

/-- When every block of a buffer has been written, in whatever order, every position of the blocks
holds what belongs there. -/
theorem Rewritten.getD_block {α : Type} {good : Nat → α → Prop} {xs ys : Array α}
    {blocks : List Nat} {count size b i : Nat}
    (h : Rewritten (fun p => ∃ b ∈ blocks, ∃ i < size, p = b * size + i) good xs ys)
    (hBlocks : ∀ b, b ∈ blocks ↔ b < count) (hFits : count * size ≤ xs.size) (hb : b < count)
    (hi : i < size) (fallback : α) : good (b * size + i) (ys.getD (b * size + i) fallback) := by
  have hInside : b * size + i < xs.size := Nat.lt_of_lt_of_le (mul_add_lt_mul hb hi) hFits
  exact h.getD_written hInside ⟨b, (hBlocks b).2 hb, i, hi, rfl⟩ fallback

namespace KeyTile

/-- Sixteen rows of the matrix, from row `16 * b` on, or as many as there are. -/
def block (m : KeyTile) (b : Nat) : KeyTile where
  source := m.source.after (16 * b * m.stride)
  stride := m.stride
  rows := min (m.rows - 16 * b) 16
  cols := m.cols

/-- What column `i` adds to the product of a query with row `c` of the matrix. -/
def product (m : KeyTile) (query : View Int8) (c i : Nat) : Int :=
  (query.getD i 0).toInt * (m.entry c i).toInt

@[simp] theorem cols_block (m : KeyTile) (b : Nat) : (m.block b).cols = m.cols := rfl

/-- A block of keys is the part of the tile that begins at its first row. -/
theorem entry_block (m : KeyTile) (b r c : Nat) :
    (m.block b).entry r c = m.entry (b * 16 + r) c := by
  simp only [entry, block, View.getD_after]
  congr 1
  ring

theorem lane_lt_rows_block (m : KeyTile) (b i : Nat) :
    laneAt i < (m.block b).rows ↔ b * 16 + laneAt i < m.rows := by
  have hLane := laneAt_lt i
  simp only [block, laneCount] at hLane ⊢
  omega

end KeyTile

namespace KeyPacking

variable {kernel : KeyPacking} {m : KeyTile} {buffer out : Array Int8} {b : Nat}

/-- Entries from one packed block of keys to the next. -/
def blockSize (kernel : KeyPacking) (cols : Nat) : Nat := 16 * pad cols kernel.width

/-- Pack block `b` of the matrix into its place among the packed blocks. -/
def packBlock (kernel : KeyPacking) (m : KeyTile) (buffer : Array Int8) (b : Nat) :
    Checked (Array Int8) := do
  let first := b * kernel.blockSize m.cols
  return splice buffer first (← kernel.pack (m.block b) (buffer.extract first buffer.size))

/-- The rows of the matrix lie in its buffer, and its packed blocks in one of `size` entries. -/
structure Fits (kernel : KeyPacking) (m : KeyTile) (size : Nat) : Prop where
  width : kernel.width < Size.limit
  rows : ∀ r < m.rows, Within m.source.size (r * m.stride + m.cols)
  blocks : Within size ((m.rows + 15) / 16 * kernel.blockSize m.cols)

/-- What belongs to a position of the packed blocks. -/
def packedEntry (kernel : KeyPacking) (m : KeyTile) (p : Nat) : Int8 :=
  let r := p / kernel.blockSize m.cols * 16 + laneAt (p % kernel.blockSize m.cols)
  let c := depthAt (p % kernel.blockSize m.cols)
  if r < m.rows ∧ c < m.cols then m.entry r c else 0

theorem packedEntry_position {i : Nat} (hi : i < kernel.blockSize m.cols) :
    kernel.packedEntry m (b * kernel.blockSize m.cols + i) =
      if b * 16 + laneAt i < m.rows ∧ depthAt i < m.cols
        then m.entry (b * 16 + laneAt i) (depthAt i) else 0 := by
  rw [packedEntry, mul_add_div_self b hi, mul_add_mod_self b hi]

/-- What packing one block does to the buffer: it writes the block, lanes behind the last row
included, and keeps everything else. -/
theorem packBlock_rewritten (h : kernel.packBlock m buffer b = .ok out) :
    Rewritten (fun p => ∃ i < kernel.blockSize m.cols, p = b * kernel.blockSize m.cols + i)
      (fun p x => x = kernel.packedEntry m p) buffer out := by
  simp only [packBlock, Checked.bind_eq_ok, Checked.pure_eq_ok] at h
  obtain ⟨packed, hPack, rfl⟩ := h
  obtain ⟨hSize, hPacked⟩ := pack_rewritten hPack
  rw [KeyTile.cols_block, ← blockSize] at hSize hPacked
  rw [Array.size_extract] at hSize
  have hFits : b * kernel.blockSize m.cols + kernel.blockSize m.cols ≤ buffer.size := by
    rcases Nat.eq_zero_or_pos (kernel.blockSize m.cols) with hEmpty | hPos
    · rw [hEmpty]
      exact Nat.zero_le _
    · omega
  apply hPacked.window_front hFits
  rintro i x hi rfl
  rw [packedEntry_position hi, KeyTile.entry_block]
  simp only [KeyTile.lane_lt_rows_block]

/-- Blocks that fit are packed without a fault. -/
theorem packBlock_faultsOnly {allowed : Fault → Prop} (hFits : kernel.Fits m buffer.size)
    (hBlock : b < (m.rows + 15) / 16) : FaultsOnly allowed (kernel.packBlock m buffer b) := by
  have hInside := hFits.blocks.mono (mul_add_le_mul hBlock (Nat.le_refl (kernel.blockSize m.cols)))
  have hRange : 16 * pad m.cols kernel.width < Size.limit :=
    (hInside.mono (Nat.le_add_left _ _)).2
  have hWidth : m.cols + kernel.width < Size.limit := by
    rcases Nat.eq_zero_or_pos m.cols with hNone | hPos
    · rw [hNone, Nat.zero_add]
      exact hFits.width
    · have hCols : m.cols ≤ pad m.cols kernel.width := le_pad kernel.width_pos
      have hPadded := Nat.le_of_dvd (Nat.lt_of_lt_of_le hPos hCols) (dvd_pad m.cols kernel.width)
      omega
  have hTarget : 16 * pad m.cols kernel.width ≤
      (buffer.extract (b * kernel.blockSize m.cols) buffer.size).size := by
    rw [Array.size_extract, Nat.min_self]
    exact hInside.drop.1
  have hSource (r : Nat) (hr : r < (m.block b).rows) :
      Within (m.block b).source.size (r * m.stride + m.cols) := by
    have hRow := hFits.rows (16 * b + r) (by simp only [KeyTile.block] at hr; omega)
    rw [Nat.add_mul, Nat.add_assoc] at hRow
    exact hRow.drop
  exact .bind (pack_faultsOnly (Nat.min_le_right _ _) hWidth hRange hTarget hSource)
    fun _ _ => .ok _

/-- The positions of the packed blocks at which the kernels read. -/
theorem cell_lt_blockSize {lane depth : Nat} (hLane : lane < laneCount) (hDepth : depth < m.cols) :
    cell lane depth < kernel.blockSize m.cols :=
  cell_lt hLane (Nat.lt_of_lt_of_le hDepth (le_pad kernel.width_pos))
    (Nat.dvd_trans kernel.four_dvd_width (dvd_pad _ _))

/-- All blocks are packed, and every lane holds its row. The order of the blocks does not matter, as
each writes to a part of the buffer of its own. -/
theorem exists_packBlocks {blocks : List Nat} (hFits : kernel.Fits m buffer.size)
    (hBlocks : ∀ b, b ∈ blocks ↔ b < (m.rows + 15) / 16) :
    ∃ packed, blocks.foldlM (kernel.packBlock m) buffer = .ok packed ∧
      packed.size = buffer.size ∧
      ∀ c < pad m.rows 16, ∀ i < m.cols,
        packed.getD (c / 16 * kernel.blockSize m.cols + cell (c % 16) i) 0 =
          if c < m.rows then m.entry c i else 0 := by
  have hSafe : FaultsOnly (fun _ => False) (blocks.foldlM (kernel.packBlock m) buffer) := by
    refine .foldlM (fun xs => xs.size = buffer.size) rfl ?_
    intro b hMem xs hSize
    refine ⟨packBlock_faultsOnly (hSize.symm ▸ hFits) ((hBlocks b).1 hMem), ?_⟩
    intro ys hStep
    exact (packBlock_rewritten hStep).size_eq.trans hSize
  obtain ⟨packed, hRun⟩ := hSafe.exists_value
  have hStep (b : Nat) (_ : b ∈ blocks) (xs ys : Array Int8)
      (h : kernel.packBlock m xs b = .ok ys) := packBlock_rewritten h
  have hPacked : Rewritten _ _ buffer packed := Rewritten.foldlM id hStep hRun
  refine ⟨packed, hRun, hPacked.size_eq, ?_⟩
  intro c hc i hi
  have hLane : c % 16 < laneCount := Nat.mod_lt _ (by decide)
  have hBlock : c / 16 < (m.rows + 15) / 16 := by
    simp only [pad] at hc
    omega
  have hCell : cell (c % 16) i < kernel.blockSize m.cols := cell_lt_blockSize hLane hi
  rw [hPacked.getD_block hBlocks hFits.blocks.1 hBlock hCell, packedEntry_position hCell,
    laneAt_cell i hLane, depthAt_cell i hLane, Nat.div_add_mod']
  simp only [hi, and_true]

/-- A query contracts with a lane of the packed blocks as with the row that was packed there, term
by term, so the partial sums agree as well as the sum. -/
theorem accumulates_dotKey {packed : Array Int8} (hFits : kernel.Fits m packed.size)
    (hPacked : ∀ c < pad m.rows 16, ∀ i < m.cols,
      packed.getD (c / 16 * kernel.blockSize m.cols + cell (c % 16) i) 0 =
        if c < m.rows then m.entry c i else 0)
    {query : View Int8} (hQuery : query.size = m.cols) {c : Nat} (hc : c < pad m.rows 16) :
    Accumulates m.cols (fun i => if c < m.rows then m.product query c i else 0)
      (Probabilities.dotKey query (.ofArray packed) (kernel.blockSize m.cols) c) := by
  have hBlock : c / 16 < (m.rows + 15) / 16 := by
    simp only [pad] at hc
    omega
  have hStart : Within (View.ofArray packed).size (c / 16 * kernel.blockSize m.cols) :=
    hFits.blocks.mono (Nat.mul_le_mul_right _ (Nat.le_of_lt hBlock))
  have hKeys (i : Nat) (hi : i < query.size) : Within (View.ofArray packed).size
      (c / 16 * kernel.blockSize m.cols + (cell (c % 16) i + 1)) :=
    hFits.blocks.mono (mul_add_le_mul hBlock
      (cell_lt_blockSize (Nat.mod_lt c (by decide)) (hQuery ▸ hi)))
  have hDot := Probabilities.accumulates_dotKey hStart hKeys
  rw [hQuery] at hDot
  apply hDot.congr
  intro i hi
  rw [View.getD_ofArray, hPacked c hc i hi]
  split
  · rfl
  · exact Int.mul_zero _

/-- Short sums fit, whatever the query and the row are: with fewer than `2 ^ 17` columns no sum of
products of int8 entries reaches the limit. -/
theorem fittingSum_product (hCols : m.cols < 131072) (query : View Int8) (c : Nat) :
    FittingSum m.cols (m.product query c) := by
  intro depth hDepth
  exact Probabilities.fits_sumTo_mul (Nat.lt_of_le_of_lt hDepth hCols) _ _

/-- A query contracts with the packed blocks as with the rows of the matrix, and to zero behind the
last row. -/
structure Contracts (kernel : KeyPacking) (m : KeyTile) (packed : Array Int8) : Prop where
  product : ∀ query : View Int8, query.size = m.cols → ∀ c < m.rows,
    Accumulates m.cols (m.product query c)
      (Probabilities.dotKey query (.ofArray packed) (kernel.blockSize m.cols) c)
  padding : ∀ query : View Int8, query.size = m.cols → ∀ c < pad m.rows 16, m.rows ≤ c →
    Probabilities.dotKey query (.ofArray packed) (kernel.blockSize m.cols) c = .ok 0

/-- Keys that are packed block by block contract like the rows of their matrix. The blocks may be
packed in any order, and the lanes behind the last row contract to zero. -/
theorem contract_packBlocks {blocks : List Nat} (hFits : kernel.Fits m buffer.size)
    (hBlocks : ∀ b, b ∈ blocks ↔ b < (m.rows + 15) / 16) :
    ∃ packed, blocks.foldlM (kernel.packBlock m) buffer = .ok packed ∧
      kernel.Contracts m packed := by
  obtain ⟨packed, hRun, hSize, hPacked⟩ := exists_packBlocks hFits hBlocks
  rw [← hSize] at hFits
  refine ⟨packed, hRun, ?_, ?_⟩
  · intro query hQuery c hc
    have hPad : c < pad m.rows 16 := Nat.lt_of_lt_of_le hc (le_pad (by decide))
    have hDot := accumulates_dotKey hFits hPacked hQuery hPad
    simpa only [hc, if_true] using hDot
  · intro query hQuery c hc hRow
    have hDot := accumulates_dotKey hFits hPacked hQuery hc
    simp only [Nat.not_lt.2 hRow, if_false] at hDot
    have hZero (depth : Nat) : (sumTo depth fun _ => 0) = 0 := by
      rw [sumTo_const, Int.mul_zero]
    rw [hDot.sum, hZero]
    intro depth _
    rw [hZero]
    exact .of_natAbs_lt (by decide)

end KeyPacking

namespace ValueTile

def block (m : ValueTile) (b : Nat) : ValueTile where
  source := m.source.after (16 * b)
  rowScale := m.rowScale
  stride := m.stride
  rows := m.rows
  cols := min (m.cols - 16 * b) 16

def product (m : ValueTile) (weight : Nat → Int) (c j : Nat) : Int :=
  weight j * ((m.requantized c).2.getD j 0).toInt

@[simp] theorem rows_block (m : ValueTile) (b : Nat) : (m.block b).rows = m.rows := rfl

/-- A column has the same scale and entries in its block as in the whole tile, for a scale belongs
to one column. -/
theorem requantized_block (m : ValueTile) (b c : Nat) :
    (m.block b).requantized c = m.requantized (b * 16 + c) := by
  have hNumber (r : Nat) : (m.block b).number c r = m.number (b * 16 + c) r := by
    simp only [number, block, View.getD_after]
    congr 3
    omega
  simp only [requantized, hNumber, rows_block]

theorem lane_lt_cols_block (m : ValueTile) (b i : Nat) :
    laneAt i < (m.block b).cols ↔ b * 16 + laneAt i < m.cols := by
  have hLane := laneAt_lt i
  simp only [block, laneCount] at hLane ⊢
  omega

end ValueTile

namespace ValuePacking

variable {m : ValueTile} {run out : Array Int8 × Array Binary32} {b : Nat}

def blockSize (rows : Nat) : Nat := 16 * pad rows 64

/-- Pack block `b` of the matrix into its place among the packed blocks, of which the scales are
kept apart, and clear what the kernel leaves of the block. -/
def packBlock (m : ValueTile) (run : Array Int8 × Array Binary32) (b : Nat) :
    Checked (Array Int8 × Array Binary32) := do
  let first := b * blockSize m.rows
  let (packed, scales) ← pack (m.block b) (run.1.extract first (first + blockSize m.rows))
    (run.2.extract (b * 16) (b * 16 + 16))
  let cleared ← Packing.clearFrom packed (16 * pad m.rows 4)
  return (splice run.1 first cleared, splice run.2 (b * 16) scales)

/-- The entries of the matrix and the scales of its rows lie in their buffers, its packed blocks in
one of `size` entries and the scales of its columns in one of `scales`. -/
structure Fits (m : ValueTile) (size scales : Nat) : Prop where
  entries : ∀ r < m.rows, ∀ c < m.cols, Within m.source.size (r * m.stride + c + 1)
  rowScale : m.rows ≤ m.rowScale.size
  blocks : Within size ((m.cols + 15) / 16 * blockSize m.rows)
  scales : (m.cols + 15) / 16 * 16 ≤ scales

def packedEntry (m : ValueTile) (p : Nat) : Int8 :=
  let c := p / blockSize m.rows * 16 + laneAt (p % blockSize m.rows)
  if c < m.cols then (m.requantized c).2.getD (depthAt (p % blockSize m.rows)) 0 else 0

theorem packedEntry_position {i : Nat} (hi : i < blockSize m.rows) :
    packedEntry m (b * blockSize m.rows + i) =
      if b * 16 + laneAt i < m.cols
        then (m.requantized (b * 16 + laneAt i)).2.getD (depthAt i) 0 else 0 := by
  rw [packedEntry, mul_add_div_self b hi, mul_add_mod_self b hi]

/-- What the kernel and the clearing behind it leave of a block. The kernel writes up to the padded
rows; what is cleared has no row either. -/
theorem cleared_rewritten {target packed cleared : Array Int8} {scales packedScales : Array Binary32}
    (hSize : target.size ≤ blockSize m.rows)
    (hPack : pack (m.block b) target scales = .ok (packed, packedScales))
    (hClear : Packing.clearFrom packed (16 * pad m.rows 4) = .ok cleared) :
    Rewritten (· < blockSize m.rows)
      (fun i x => x = if b * 16 + laneAt i < m.cols
        then (m.requantized (b * 16 + laneAt i)).2.getD (depthAt i) 0 else 0) target cleared := by
  obtain ⟨-, hPacked, -⟩ := pack_rewritten hPack
  have hZeros := Packing.clearFrom_rewritten hClear
  rw [ValueTile.rows_block] at hPacked
  refine ((hPacked.mono ?_).trans (hZeros.mono ?_)).congr ?_
  · rintro i x - - rfl
    simp only [ValueTile.lane_lt_cols_block, ValueTile.requantized_block]
  · rintro i x - hi rfl
    have hDepth : m.rows ≤ depthAt i := by
      simp only [pad, depthAt] at hi ⊢
      omega
    rw [ValueTile.getD_requantized, if_neg (Nat.not_lt.2 hDepth), ite_self]
  · intro i hi
    exact iff_of_true (Nat.lt_or_ge _ _) (Nat.lt_of_lt_of_le hi hSize)

/-- What packing one block does to the buffer of the entries. The kernel leaves the depths behind
the last row alone, and they are cleared behind it. -/
theorem packBlock_rewritten (h : packBlock m run b = .ok out) :
    Rewritten (fun p => ∃ i < blockSize m.rows, p = b * blockSize m.rows + i)
      (fun p x => x = packedEntry m p) run.1 out.1 ∧ out.2.size = run.2.size := by
  simp only [packBlock, Checked.bind_eq_ok, Checked.pure_eq_ok] at h
  obtain ⟨⟨packed, scales⟩, hPack, cleared, hClear, rfl⟩ := h
  constructor
  · have hSize : (run.1.extract (b * blockSize m.rows)
        (b * blockSize m.rows + blockSize m.rows)).size ≤ blockSize m.rows := by
      rw [Array.size_extract]
      omega
    apply (cleared_rewritten hSize hPack hClear).window_front (Nat.le_refl _)
    rintro i x hi rfl
    rw [packedEntry_position hi]
  · exact size_splice ..

/-- Blocks that fit are packed without a fault. -/
theorem packBlock_faultsOnly {allowed : Fault → Prop} (hFits : Fits m run.1.size run.2.size)
    (hBlock : b < (m.cols + 15) / 16) : FaultsOnly allowed (packBlock m run b) := by
  have hInside := hFits.blocks.mono (mul_add_le_mul hBlock (Nat.le_refl (blockSize m.rows)))
  have hBlockRange : 16 * pad m.rows 64 < Size.limit := (hInside.mono (Nat.le_add_left _ _)).2
  have hDepths : 16 * pad m.rows 4 ≤ 16 * pad m.rows 64 :=
    Nat.mul_le_mul_left 16 (pad_le_pad_64 m.rows).1
  have hRows : m.rows + 4 < Size.limit := by
    have hPadded : m.rows ≤ pad m.rows 64 := le_pad (by decide)
    have hLimit : Size.limit = 18446744073709551616 := rfl
    omega
  have hTarget : 16 * pad m.rows 4 ≤ (run.1.extract (b * blockSize m.rows)
      (b * blockSize m.rows + blockSize m.rows)).size := by
    rw [Array.size_extract, Nat.min_eq_left hInside.1, Nat.add_sub_cancel_left]
    exact hDepths
  have hScales : laneCount ≤ (run.2.extract (b * 16) (b * 16 + 16)).size := by
    have hAll := hFits.scales
    rw [Array.size_extract, laneCount]
    omega
  have hSource (r : Nat) (hr : r < m.rows) (c : Nat) (hc : c < (m.block b).cols) :
      r * m.stride + c < (m.block b).source.size ∧ r * m.stride + c < Size.limit := by
    have hEntry := hFits.entries r hr (16 * b + c) (by simp only [ValueTile.block] at hc; omega)
    have hStart : r * m.stride + (16 * b + c) + 1 = 16 * b + (r * m.stride + c + 1) := by omega
    rw [hStart] at hEntry
    exact ⟨hEntry.drop.1, Nat.lt_of_succ_lt hEntry.drop.2⟩
  apply FaultsOnly.bind
  · exact pack_faultsOnly (Nat.min_le_right _ _) hRows (Nat.lt_of_le_of_lt hDepths hBlockRange)
      hTarget hScales hFits.rowScale hSource
  · rintro ⟨packed, scales⟩ hPack
    rw [← (pack_rewritten hPack).2.1.size_eq] at hTarget
    exact .bind (.bind_require hTarget (.ok _)) fun _ _ => .ok _

/-- The positions at which the output kernel reads, up to the padded number of rows. -/
theorem cell_lt_blockSize {rows lane depth : Nat} (hLane : lane < laneCount)
    (hDepth : depth < pad rows 64) : cell lane depth < blockSize rows :=
  cell_lt hLane hDepth (Nat.dvd_trans (by decide) (dvd_pad rows 64))

/-- All blocks are packed, and every lane holds its requantized column. Depths behind the last row
are cleared, whatever the buffer held. -/
theorem exists_packBlocks {blocks : List Nat} {buffer : Array Int8} {scales : Array Binary32}
    (hFits : Fits m buffer.size scales.size) (hBlocks : ∀ b, b ∈ blocks ↔ b < (m.cols + 15) / 16) :
    ∃ packed packedScales,
      blocks.foldlM (packBlock m) (buffer, scales) = .ok (packed, packedScales) ∧
      packed.size = buffer.size ∧
      ∀ c < m.cols, ∀ j < pad m.rows 64,
        packed.getD (c / 16 * blockSize m.rows + cell (c % 16) j) 0 =
          (m.requantized c).2.getD j 0 := by
  have hSafe : FaultsOnly (fun _ => False) (blocks.foldlM (packBlock m) (buffer, scales)) := by
    refine FaultsOnly.foldlM (fun run => run.1.size = buffer.size ∧ run.2.size = scales.size) ?_ ?_
    · exact ⟨rfl, rfl⟩
    · rintro b hMem run ⟨hSize, hScales⟩
      rw [← hSize, ← hScales] at hFits
      refine ⟨packBlock_faultsOnly hFits ((hBlocks b).1 hMem), ?_⟩
      intro next hStep
      obtain ⟨hRewritten, hKept⟩ := packBlock_rewritten hStep
      exact ⟨hRewritten.size_eq.trans hSize, hKept.trans hScales⟩
  obtain ⟨⟨packed, packedScales⟩, hRun⟩ := hSafe.exists_value
  have hStep (b : Nat) (_ : b ∈ blocks) (s t : Array Int8 × Array Binary32)
      (h : packBlock m s b = .ok t) := (packBlock_rewritten h).1
  have hPacked := Rewritten.foldlM Prod.fst hStep hRun
  refine ⟨packed, packedScales, hRun, hPacked.size_eq, ?_⟩
  intro c hc j hj
  have hLane : c % 16 < laneCount := Nat.mod_lt _ (by decide)
  have hBlock : c / 16 < (m.cols + 15) / 16 := by omega
  have hCell : cell (c % 16) j < blockSize m.rows := cell_lt_blockSize hLane hj
  rw [hPacked.getD_block hBlocks hFits.blocks.1 hBlock hCell, packedEntry_position hCell,
    laneAt_cell j hLane, depthAt_cell j hLane, Nat.div_add_mod', if_pos hc]

/-- The operands of row `r` and head `h` of a task: a weight for every padded key, and the packed
blocks from the start of the head on. -/
structure Reads (task : OutputTask) (r h : Nat) (m : ValueTile) (packed : Array Int8) : Prop where
  keyCount : task.keyCount = m.rows
  blockStride : task.valueBlockStride = blockSize m.rows
  weights : Within task.probabilities.size
    (h * task.probabilityStep + r * task.probabilityStride + pad m.rows 64)
  inside : Within task.values.size (h * task.valueStep + packed.size)
  entries : ∀ i < packed.size,
    task.values.getD (h * task.valueStep + i) 0 = packed.getD i 0

/-- Whatever its weights are, also those behind the last row, a task contracts with a lane of the
packed blocks as with the column that was packed there. -/
theorem accumulates_columnSum {size scales : Nat} (hFits : Fits m size scales) {packed : Array Int8}
    (hSize : packed.size = size)
    (hPacked : ∀ c < m.cols, ∀ j < pad m.rows 64,
      packed.getD (c / 16 * blockSize m.rows + cell (c % 16) j) 0 = (m.requantized c).2.getD j 0)
    {task : OutputTask} {r h c : Nat} (hReads : Reads task r h m packed) (hc : c < m.cols) :
    Accumulates m.rows (m.product (task.weight r h) c)
      (Outputs.columnSum task (pad task.keyCount 64) r h c) := by
  have hBlock : c / 16 < (m.cols + 15) / 16 := by omega
  have hStart : c / 16 * blockSize m.rows ≤ packed.size :=
    Nat.le_trans (Nat.mul_le_mul_right _ (Nat.le_of_lt hBlock)) (hSize ▸ hFits.blocks.1)
  have hCell (j : Nat) (hj : j < pad m.rows 64) :
      c / 16 * blockSize m.rows + cell (c % 16) j < packed.size :=
    Nat.lt_of_lt_of_le (mul_add_lt_mul hBlock
      (cell_lt_blockSize (Nat.mod_lt c (by decide)) hj)) (hSize ▸ hFits.blocks.1)
  rw [hReads.keyCount]
  refine ((Outputs.accumulates_columnSum hReads.weights ?_ ?_).congr ?_).of_zero
    (le_pad (by decide)) ?_
  · rw [hReads.blockStride]
    exact hReads.inside.mono (Nat.add_le_add_left hStart _)
  · intro j hj
    rw [hReads.blockStride, Nat.add_assoc]
    exact hReads.inside.mono (Nat.add_le_add_left (hCell j hj) _)
  · intro j hj
    rw [OutputTask.product, OutputTask.valuePosition, hReads.blockStride, Nat.add_assoc,
      hReads.entries _ (hCell j hj), hPacked c hc j hj, ← ValueTile.product]
  · intro j hj _
    rw [ValueTile.product, ValueTile.getD_requantized, if_neg (Nat.not_lt.2 hj)]
    exact Int.mul_zero _

/-- Sums over few rows fit, whatever the weights and the column are: no weight exceeds 255, and no
packed value 127. -/
theorem fittingSum_product (hRows : m.rows ≤ 66311) (task : OutputTask) (r h c : Nat) :
    FittingSum m.rows (m.product (task.weight r h) c) := by
  intro depth hDepth
  have hBound : (sumTo depth (m.product (task.weight r h) c)).natAbs ≤ depth * (255 * 127) := by
    refine natAbs_sumTo_le_mul fun j _ => ?_
    rw [ValueTile.product, Int.natAbs_mul]
    exact Nat.mul_le_mul (task.natAbs_weight_le r h j) (natAbs_quantizeDynamic_le _ _)
  exact .of_natAbs_lt (by omega)

/-- A task contracts with the packed blocks as with the requantized columns of the matrix, whatever
its weights are. -/
def Contracts (m : ValueTile) (packed : Array Int8) : Prop :=
  ∀ task r h, Reads task r h m packed → ∀ c < m.cols,
    Accumulates m.rows (m.product (task.weight r h) c)
      (Outputs.columnSum task (pad task.keyCount 64) r h c)

/-- Values that are packed block by block contract like the requantized columns of their matrix, in
any order of the blocks and for any weights behind the last row. -/
theorem contract_packBlocks {blocks : List Nat} {buffer : Array Int8} {scales : Array Binary32}
    (hFits : Fits m buffer.size scales.size)
    (hBlocks : ∀ b, b ∈ blocks ↔ b < (m.cols + 15) / 16) :
    ∃ packed packedScales,
      blocks.foldlM (packBlock m) (buffer, scales) = .ok (packed, packedScales) ∧
      packed.size = buffer.size ∧ Contracts m packed := by
  obtain ⟨packed, packedScales, hRun, hSize, hPacked⟩ := exists_packBlocks hFits hBlocks
  refine ⟨packed, packedScales, hRun, hSize, ?_⟩
  intro task r h hReads c hc
  exact accumulates_columnSum hFits hSize hPacked hReads hc

end ValuePacking

/-- Packed operands contract like row-major ones, in whatever order their blocks were packed and
whatever the buffers held before. Sums are formed in an accumulator, which fails exactly if a partial
sum leaves its range; none does with fewer than `2 ^ 17` columns of keys or up to 66311 rows of
values. -/
theorem contract_packed {kernel : KeyPacking} {keys : KeyTile} {keyBuffer : Array Int8}
    {keyBlocks : List Nat} {values : ValueTile} {valueBuffer : Array Int8} {scales : Array Binary32}
    {valueBlocks : List Nat} (hKeys : kernel.Fits keys keyBuffer.size)
    (hKeyBlocks : ∀ b, b ∈ keyBlocks ↔ b < (keys.rows + 15) / 16)
    (hValues : ValuePacking.Fits values valueBuffer.size scales.size)
    (hValueBlocks : ∀ b, b ∈ valueBlocks ↔ b < (values.cols + 15) / 16) :
    ((∃ packed, keyBlocks.foldlM (kernel.packBlock keys) keyBuffer = .ok packed ∧
        kernel.Contracts keys packed) ∧
      (keys.cols < 131072 → ∀ query c, FittingSum keys.cols (keys.product query c))) ∧
    ((∃ packed packedScales,
        valueBlocks.foldlM (ValuePacking.packBlock values) (valueBuffer, scales) =
          .ok (packed, packedScales) ∧
        packed.size = valueBuffer.size ∧ ValuePacking.Contracts values packed) ∧
      (values.rows ≤ 66311 → ∀ (task : OutputTask) r h c,
        FittingSum values.rows (values.product (task.weight r h) c))) :=
  ⟨⟨KeyPacking.contract_packBlocks hKeys hKeyBlocks, KeyPacking.fittingSum_product⟩,
    ValuePacking.contract_packBlocks hValues hValueBlocks, ValuePacking.fittingSum_product⟩

/-- Two keys of three columns. -/
def smallKeys : KeyTile := ⟨.ofArray #[1, 2, 3, -4, 5, -6], 3, 2, 3⟩

/-- Two rows of two values each, with the scale one. -/
def smallValues : ValueTile :=
  ⟨.ofArray #[127, -127, 1, 2], .ofArray #[.ofInt 1, .ofInt 1], 2, 2, 2⟩

/-- A row of weights that are all 200, those behind the last key too. -/
def smallWeights (packed : Array Int8) : OutputTask where
  probabilities := .ofArray (Array.replicate 64 200)
  values := .ofArray packed
  valueScale := .ofArray #[.ofInt 1, .ofInt 1]
  keyCount := 2
  cols := 2
  rows := 1
  probabilityStride := 64
  valueBlockStride := 1024
  outStride := 2
  heads := 1
  probabilityStep := 0
  valueStep := 0
  valueScaleStep := 0
  outStep := 0

/-- The second of two keys contracts to its product and a lane behind them to zero. The weights
behind the last row of the values are not zero, yet they add nothing. -/
theorem contract_packed_small :
    (∃ packed, [0].foldlM (KeyPacking.packBlock ⟨4, by decide, by decide⟩ smallKeys)
        (Array.replicate 64 7) = .ok packed ∧
      Probabilities.dotKey (.ofArray #[7, 8, 9]) (.ofArray packed) 64 1 = .ok (-42) ∧
      Probabilities.dotKey (.ofArray #[7, 8, 9]) (.ofArray packed) 64 9 = .ok 0) ∧
    ∃ packed packedScales,
      [0].foldlM (ValuePacking.packBlock smallValues)
        (Array.replicate 1024 7, Array.replicate 16 0) = .ok (packed, packedScales) ∧
      Outputs.columnSum (smallWeights packed) 64 0 0 1 = .ok (-25000) := by
  have hKeys : KeyPacking.Fits ⟨4, by decide, by decide⟩ smallKeys
      (Array.replicate 64 (7 : Int8)).size :=
    { width := by decide
      rows := by decide
      blocks := by rw [Array.size_replicate]; decide }
  have hValues : ValuePacking.Fits smallValues (Array.replicate 1024 (7 : Int8)).size
      (Array.replicate 16 (0 : Binary32)).size :=
    { entries := by decide
      rowScale := by decide
      blocks := by rw [Array.size_replicate]; decide
      scales := by decide }
  have hOnlyBlock (b : Nat) : b ∈ [0] ↔ b < (2 + 15) / 16 := by
    simp only [List.mem_singleton]
    omega
  obtain ⟨⟨⟨packed, hPacked, hKeyProducts⟩, hShort⟩,
    ⟨packedValues, packedScales, hPackedValues, hSize, hSums⟩, hFew⟩ :=
    contract_packed hKeys hOnlyBlock hValues hOnlyBlock
  refine ⟨⟨packed, hPacked, ?_, hKeyProducts.padding _ rfl 9 (by decide) (by decide)⟩,
    packedValues, packedScales, hPackedValues, ?_⟩
  · exact (hKeyProducts.product _ rfl 1 (by decide)).sum (hShort (by decide) _ _)
  · have hReads : ValuePacking.Reads (smallWeights packedValues) 0 0 smallValues packedValues :=
      { keyCount := rfl
        blockStride := rfl
        weights := by
          simp only [smallWeights, View.ofArray, Array.size_replicate]
          decide
        inside := by
          simp only [smallWeights, View.ofArray, hSize, Array.size_replicate]
          decide
        entries := fun i _ => by
          simp only [smallWeights, Nat.zero_mul, Nat.zero_add, View.getD_ofArray] }
    have hSum := (hSums _ 0 0 hReads 1 (by decide)).sum (hFew (by decide) _ _ _ _)
    have hColumn : (smallValues.requantized 1).2 = #[-127, 2] := by decide +kernel
    have hWeight (j : Nat) (hj : j < 2) : (smallWeights packedValues).weight 0 0 j = 200 := by
      simp only [OutputTask.weight, OutputTask.probabilityPosition, smallWeights, Nat.zero_mul,
        Nat.zero_add, View.getD_ofArray]
      rw [Array.getD_eq_getD_getElem?, Array.getElem?_replicate, if_pos (by omega)]
      rfl
    have hTotal : sumTo smallValues.rows
        (smallValues.product ((smallWeights packedValues).weight 0 0) 1) = -25000 := by
      rw [sumTo_congr fun j hj => by rw [ValueTile.product, hColumn, hWeight j hj]]
      decide
    have hDepth : pad (smallWeights packedValues).keyCount 64 = 64 := by
      rw [hReads.keyCount]
      decide
    rwa [hTotal, hDepth] at hSum

/-- A row of `2 ^ 17` least entries and one more. -/
def longRow (last : Int8) : View Int8 := .ofArray (Array.replicate 131072 (-128) ++ #[last])

/-- One key of `2 ^ 17 + 1` columns. -/
def longKey : KeyTile := ⟨longRow (-1), 131073, 1, 131073⟩

theorem size_longRow (last : Int8) : (longRow last).size = 131073 := by
  simp [longRow, View.ofArray]

theorem getD_longRow (last : Int8) (i : Nat) :
    (longRow last).getD i 0 = if i < 131072 then -128 else if i = 131072 then last else 0 := by
  rw [longRow, View.getD_ofArray, Array.getD_eq_getD_getElem?]
  rcases Nat.lt_trichotomy i 131072 with hBefore | rfl | hAfter
  · rw [Array.getElem?_append_left (by rwa [Array.size_replicate]), Array.getElem?_replicate,
      if_pos hBefore, if_pos hBefore]
    rfl
  · rw [Array.getElem?_append_right (by rw [Array.size_replicate]), Array.size_replicate]
    rfl
  · rw [Array.getElem?_eq_none (by simp; omega), if_neg (by omega), if_neg (by omega)]
    rfl

/-- The product of two long rows before its last term, which is one more than an accumulator can
hold. -/
theorem sumTo_longKey : sumTo 131072 (longKey.product (longRow 1) 0) = 2147483648 := by
  rw [sumTo_congr fun i hi => show longKey.product (longRow 1) 0 i = 16384 by
    rw [KeyTile.product, KeyTile.entry, longKey, Nat.zero_mul, Nat.zero_add, getD_longRow,
      getD_longRow, if_pos hi, if_pos hi]
    decide, sumTo_const]
  rfl

/-- The product of these rows is the greatest number that an accumulator can hold, but the sum on
its way there is not: the last term would have taken one off again. -/
theorem dotKey_long :
    sumTo 131073 (longKey.product (longRow 1) 0) = 2147483647 ∧
    ∃ packed, [0].foldlM (KeyPacking.wide.packBlock longKey)
        (Array.replicate (KeyPacking.wide.blockSize 131073) 0) = .ok packed ∧
      Probabilities.dotKey (longRow 1) (.ofArray packed) (KeyPacking.wide.blockSize 131073) 0 =
        .error .accumulatorOverflow := by
  have hFits : KeyPacking.wide.Fits longKey
      (Array.replicate (KeyPacking.wide.blockSize 131073) (0 : Int8)).size :=
    { width := by decide
      rows := by
        intro r hr
        obtain rfl : r = 0 := Nat.lt_one_iff.1 hr
        rw [longKey, size_longRow]
        decide
      blocks := by
        rw [Array.size_replicate]
        decide }
  have hOnlyBlock (b : Nat) : b ∈ [0] ↔ b < (1 + 15) / 16 := by
    simp only [List.mem_singleton]
    omega
  obtain ⟨packed, hRun, hContracts⟩ := KeyPacking.contract_packBlocks hFits hOnlyBlock
  constructor
  · rw [sumTo, sumTo_longKey, KeyTile.product, KeyTile.entry, longKey, Nat.zero_mul, Nat.zero_add,
      getD_longRow, getD_longRow]
    decide
  · refine ⟨packed, hRun, (hContracts.product _ (size_longRow 1) 0 (by decide)).overflow ?_⟩
    intro hAll
    have hSum := hAll 131072 (by decide)
    rw [sumTo_longKey] at hSum
    exact absurd hSum.2 (by decide)

end QuantAttention
