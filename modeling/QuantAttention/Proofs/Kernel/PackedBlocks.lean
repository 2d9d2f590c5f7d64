import QuantAttention.Proofs.Kernel.ValuePacking
import QuantAttention.Proofs.Quantization

/-! What a packed block holds, at all of its positions. A cell belongs to one entry only, so entries
do not overwrite each other; positions of the block that are no cell are zero, and nothing behind the
block is touched. Keys can therefore be read back from their block, and a packed column of values
depends on nothing but that column and the scales of the rows. -/

namespace QuantAttention

/-- `after` is `before` with a block of `size` entries at its start. The block has an entry for every
depth of every lane, each in a cell of its own, and is zero elsewhere. -/
structure Interleaved (lanes depths size : Nat) (entry : Nat → Nat → Int8)
    (before after : Array Int8) : Prop where
  size_eq : after.size = before.size
  fits : size ≤ before.size
  inside : ∀ lane < lanes, ∀ depth < depths, cell lane depth < size
  injective : ∀ lane < lanes, ∀ depth < depths, ∀ lane' < lanes, ∀ depth' < depths,
    cell lane depth = cell lane' depth' → lane = lane' ∧ depth = depth'
  held : ∀ lane < lanes, ∀ depth < depths, after[cell lane depth]? = some (entry lane depth)
  cleared : ∀ i < size, (∀ lane < lanes, ∀ depth < depths, i ≠ cell lane depth) →
    after[i]? = some 0
  kept : ∀ i, size ≤ i → after[i]? = before[i]?

/-- No two entries of a block share a cell. -/
theorem cell_injective {lane lane' depth depth' : Nat} (hLane : lane < laneCount)
    (hLane' : lane' < laneCount) (h : cell lane depth = cell lane' depth') :
    lane = lane' ∧ depth = depth' := by
  constructor
  · rw [← laneAt_cell depth hLane, h, laneAt_cell depth' hLane']
  · rw [← depthAt_cell depth hLane, h, depthAt_cell depth' hLane']

namespace Interleaved

variable {lanes depths size n : Nat} {entry entry' : Nat → Nat → Int8}
  {before after before' after' : Array Int8}

/-- A block that was written position by position. -/
theorem of_rewritten (hLanes : lanes ≤ laneCount) (hDepths : depths ≤ n) (hFour : 4 ∣ n)
    (hFits : 16 * n ≤ before.size)
    (h : Rewritten (fun i => i < 16 * n) (fun i x => x =
      if laneAt i < lanes ∧ depthAt i < depths then entry (laneAt i) (depthAt i) else 0)
      before after) :
    Interleaved lanes depths (16 * n) entry before after := by
  have hWritten (i : Nat) (hi : i < 16 * n) : after[i]? =
      some (if laneAt i < lanes ∧ depthAt i < depths then entry (laneAt i) (depthAt i) else 0) := by
    have hInside : i < before.size := Nat.lt_of_lt_of_le hi hFits
    rw [h.getElem?_eq_getD hInside 0, h.getD_written hInside hi]
  have hLane (lane : Nat) (hl : lane < lanes) : lane < laneCount := Nat.lt_of_lt_of_le hl hLanes
  have hInside (lane : Nat) (hl : lane < lanes) (depth : Nat) (hd : depth < depths) :
      cell lane depth < 16 * n := cell_lt (hLane lane hl) (Nat.lt_of_lt_of_le hd hDepths) hFour
  refine ⟨h.size_eq, hFits, hInside, ?_, ?_, ?_, ?_⟩
  · intro lane hl depth _ lane' hl' depth' _ hSame
    exact cell_injective (hLane lane hl) (hLane lane' hl') hSame
  · intro lane hl depth hd
    rw [hWritten _ (hInside lane hl depth hd), laneAt_cell depth (hLane lane hl),
      depthAt_cell depth (hLane lane hl), if_pos ⟨hl, hd⟩]
  · intro i hi hNone
    rw [hWritten i hi, if_neg]
    rintro ⟨hl, hd⟩
    exact hNone _ hl _ hd (cell_laneAt_depthAt i).symm
  · intro i hi
    exact h.kept i (Nat.not_lt.2 hi)

theorem getElem?_extract (h : Interleaved lanes depths size entry before after) {i : Nat}
    (hi : i < size) : (after.extract 0 size)[i]? = after[i]? := by
  have hSize := h.size_eq
  have hFits := h.fits
  rw [Array.getElem?_extract, if_pos (by omega), Nat.zero_add]

/-- A lane of the block is zero behind its last entry, and so is a lane that has none. -/
theorem getElem?_lane (h : Interleaved lanes depths size entry before after)
    (hLanes : lanes ≤ laneCount) {lane depth : Nat} (hl : lane < lanes)
    (hCell : cell lane depth < size) :
    after[cell lane depth]? = some (if depth < depths then entry lane depth else 0) := by
  split
  · next hd => exact h.held lane hl depth hd
  · next hd =>
    refine h.cleared _ hCell fun lane' hl' depth' hd' hSame => hd ?_
    obtain ⟨-, rfl⟩ := cell_injective (Nat.lt_of_lt_of_le hl hLanes)
      (Nat.lt_of_lt_of_le hl' hLanes) hSame
    exact hd'

/-- Two blocks are equal exactly if their entries are. This needs the cells to be distinct and the
rest of both blocks to be zero. -/
theorem extract_eq_iff (h : Interleaved lanes depths size entry before after)
    (h' : Interleaved lanes depths size entry' before' after') :
    after.extract 0 size = after'.extract 0 size ↔
      ∀ lane < lanes, ∀ depth < depths, entry lane depth = entry' lane depth := by
  constructor
  · intro hSame lane hl depth hd
    have hCell := h.inside lane hl depth hd
    apply Option.some.inj
    rw [← h.held lane hl depth hd, ← h'.held lane hl depth hd, ← h.getElem?_extract hCell, hSame,
      h'.getElem?_extract hCell]
  · intro hSame
    have hSize : (after.extract 0 size).size = size ∧ (after'.extract 0 size).size = size := by
      have hFits := h.fits
      have hFits' := h'.fits
      rw [Array.size_extract, Array.size_extract, h.size_eq, h'.size_eq]
      omega
    apply Array.ext_getElem?
    intro i
    by_cases hi : i < size
    · rw [h.getElem?_extract hi, h'.getElem?_extract hi]
      by_cases hCell : ∃ lane < lanes, ∃ depth < depths, i = cell lane depth
      · obtain ⟨lane, hl, depth, hd, rfl⟩ := hCell
        rw [h.held lane hl depth hd, h'.held lane hl depth hd, hSame lane hl depth hd]
      · have hNone (lane : Nat) (hl : lane < lanes) (depth : Nat) (hd : depth < depths) :
            i ≠ cell lane depth := fun hEq => hCell ⟨lane, hl, depth, hd, hEq⟩
        rw [h.cleared i hi hNone, h'.cleared i hi hNone]
    · rw [Array.getElem?_eq_none (by omega), Array.getElem?_eq_none (by omega)]

end Interleaved

namespace KeyPacking

variable {kernel : KeyPacking} {tile : KeyTile} {target packed : Array Int8}

theorem width_of_build {width : Nat} (h : build width = .ok kernel) : kernel.width = width := by
  rw [build] at h
  split at h
  · cases h
    rfl
  · cases h

/-- Where keys could be packed, they are at most as many as a block has lanes, and each could be
read. -/
theorem rows_of_pack (hPack : kernel.pack tile target = .ok packed) :
    tile.rows ≤ laneCount ∧ ∀ r < tile.rows,
      row tile r = .ok (Array.ofFn fun c : Fin tile.cols => tile.entry r c) := by
  simp only [pack, Checked.bind_eq_ok, require_eq_ok] at hPack
  obtain ⟨-, hRows, -, -, -, -, -, -, lanes, hLanes, -⟩ := hPack
  refine ⟨hRows, fun r hr => ?_⟩
  obtain ⟨xs, hRow⟩ := Checked.exists_of_tabulate hLanes hr
  rw [hRow, row_eq hRow]

/-- A block of packed keys has every key in a lane of its own, zeros in the rest, and nothing
written behind it. -/
theorem interleaved_pack (hPack : kernel.pack tile target = .ok packed) :
    Interleaved tile.rows tile.cols (16 * pad tile.cols kernel.width) tile.entry target packed := by
  obtain ⟨hFits, hRewritten⟩ := pack_rewritten hPack
  exact .of_rewritten (rows_of_pack hPack).1 (le_pad kernel.width_pos)
    (Nat.dvd_trans kernel.four_dvd_width (dvd_pad _ _)) hFits hRewritten

/-- Packing of keys loses nothing. Every entry is found in its cell of the block, and two matrices
have the same block exactly if they have the same entries, wherever their rows lie. -/
theorem pack_lossless {width : Nat} (hBuild : build width = .ok kernel)
    (hPack : kernel.pack tile target = .ok packed) :
    (∀ r < tile.rows, row tile r = .ok (Array.ofFn fun c : Fin tile.cols => tile.entry r c)) ∧
      Interleaved tile.rows tile.cols (16 * pad tile.cols width) tile.entry target packed ∧
      ∀ (other : KeyTile) (target' packed' : Array Int8), other.rows = tile.rows →
        other.cols = tile.cols → kernel.pack other target' = .ok packed' →
          (packed.extract 0 (16 * pad tile.cols width) =
              packed'.extract 0 (16 * pad tile.cols width) ↔
            ∀ r < tile.rows, ∀ c < tile.cols, tile.entry r c = other.entry r c) := by
  obtain rfl := width_of_build hBuild
  have hBlock := interleaved_pack hPack
  refine ⟨(rows_of_pack hPack).2, hBlock, ?_⟩
  intro other target' packed' hRows hCols hPack'
  have hBlock' := interleaved_pack hPack'
  rw [hRows, hCols] at hBlock'
  exact hBlock.extract_eq_iff hBlock'

/-- Three keys of five columns whose rows overlap. -/
def overlappingKeys : KeyTile := ⟨.ofArray #[1, -2, 3, -4, 5, 6, -7], 1, 3, 5⟩

/-- The same keys one after the other, with an entry between them that belongs to none. -/
def separateKeys : KeyTile :=
  ⟨.ofArray #[1, -2, 3, -4, 5, 9, -2, 3, -4, 5, 6, 9, 3, -4, 5, 6, -7], 6, 3, 5⟩

def fourWide : KeyPacking := ⟨4, by decide, by decide⟩

/-- The overlapping keys are found in their block, and the separate ones have the same block. -/
theorem pack_lossless_overlapping :
    build 4 = .ok fourWide ∧ ∃ packed packed',
      fourWide.pack overlappingKeys (Array.replicate 130 9) = .ok packed ∧
      fourWide.pack separateKeys (Array.replicate 128 0) = .ok packed' ∧
      row overlappingKeys 2 = .ok #[3, -4, 5, 6, -7] ∧ packed[cell 2 4]? = some (-7) ∧
      packed[cell 3 0]? = some 0 ∧ packed[128]? = some 9 ∧
      packed.extract 0 128 = packed'.extract 0 128 := by
  have hBuild : build 4 = .ok fourWide := rfl
  obtain ⟨packed, hPack⟩ : ∃ packed, fourWide.pack overlappingKeys (Array.replicate 130 9) =
      .ok packed := Checked.exists_of_isOk (by decide +kernel)
  obtain ⟨packed', hPack'⟩ : ∃ packed, fourWide.pack separateKeys (Array.replicate 128 0) =
      .ok packed := Checked.exists_of_isOk (by decide +kernel)
  obtain ⟨hRows, hBlock, hSame⟩ := pack_lossless hBuild hPack
  refine ⟨hBuild, packed, packed', hPack, hPack', hRows 2 (by decide), ?_, ?_, ?_, ?_⟩
  · exact hBlock.held 2 (by decide) 4 (by decide)
  · exact hBlock.cleared _ (by decide) (by decide)
  · rw [hBlock.kept 128 (by decide), Array.getElem?_replicate, if_pos (by decide)]
  · exact (hSame _ _ _ rfl rfl hPack').2 (by decide)

end KeyPacking

namespace ValuePacking

variable {tile : ValueTile} {target packed : Array Int8} {scales packedScales : Array Binary32}
  {c : Nat}

def columnMax (tile : ValueTile) (c : Nat) : Binary32 :=
  absMax (Array.ofFn fun n : Fin tile.rows => tile.number c n)

/-- The scale of a column is found over the rows of that column alone. -/
theorem greatestMagnitude_columnMax (tile : ValueTile) (c : Nat) :
    GreatestMagnitude (fun x => ∃ n < tile.rows, tile.number c n = x) (columnMax tile c) := by
  refine (greatestMagnitude_absMax _).congr fun x => ?_
  rw [Array.mem_ofFn]
  exact ⟨fun ⟨n, hx⟩ => ⟨n, n.isLt, hx⟩, fun ⟨n, hn, hx⟩ => ⟨⟨n, hn⟩, hx⟩⟩

/-- What packing writes: every column, quantized with the scale of its greatest magnitude, and
that scale. -/
structure PackedColumns (tile : ValueTile) (target packed : Array Int8)
    (scales packedScales : Array Binary32) : Prop where
  columns : ∃ greatest : Nat → Binary32,
    (∀ c < tile.cols,
      GreatestMagnitude (fun x => ∃ n < tile.rows, tile.number c n = x) (greatest c) ∧
        packedScales[c]? = some (Scale.ofAbsMax (greatest c)).scale) ∧
    Interleaved tile.cols tile.rows (16 * pad tile.rows 4)
      (fun c n => quantizeActivation (tile.number c n) (Scale.ofAbsMax (greatest c)).inverse)
      target packed
  size_scales : packedScales.size = scales.size
  cleared_scales : ∀ c, tile.cols ≤ c → c < laneCount → packedScales[c]? = some 0
  kept_scales : ∀ c, laneCount ≤ c → packedScales[c]? = scales[c]?

/-- Where values could be packed, every number of theirs could be read: the entry and the scale of
its row. -/
theorem entries_of_pack (hPack : pack tile target scales = .ok (packed, packedScales)) :
    tile.cols ≤ laneCount ∧
      ∀ c < tile.cols, ∀ n < tile.rows, entry tile c n = .ok (tile.number c n) := by
  simp only [pack, Checked.bind_eq_ok, require_eq_ok] at hPack
  obtain ⟨-, hCols, -, -, -, -, -, -, -, -, columns, hColumns, -⟩ := hPack
  refine ⟨hCols, fun c hc n hn => ?_⟩
  obtain ⟨packedColumn, hColumn⟩ := Checked.exists_of_tabulate hColumns hc
  simp only [column, Checked.bind_eq_ok] at hColumn
  obtain ⟨numbers, hNumbers, -⟩ := hColumn
  obtain ⟨x, hEntry⟩ := Checked.exists_of_tabulate hNumbers hn
  rw [hEntry, entry_eq hEntry]

/-- Packing values quantizes each column under a scale of its own and puts it into its lane. -/
theorem packedColumns_pack (hPack : pack tile target scales = .ok (packed, packedScales)) :
    PackedColumns tile target packed scales packedScales := by
  obtain ⟨⟨hFits, hScalesFit⟩, hPacked, hPackedScales⟩ := pack_rewritten hPack
  have hCols := (entries_of_pack hPack).1
  have hScale (c : Nat) (hc : c < laneCount) :
      packedScales[c]? = some (if c < tile.cols then (tile.requantized c).1 else 0) := by
    have hInside : c < scales.size := Nat.lt_of_lt_of_le hc hScalesFit
    rw [hPackedScales.getElem?_eq_getD hInside 0, hPackedScales.getD_written hInside hc]
  refine ⟨⟨columnMax tile, fun c hc => ⟨greatestMagnitude_columnMax tile c, ?_⟩, ?_⟩,
    hPackedScales.size_eq, ?_, ?_⟩
  · rw [hScale c (Nat.lt_of_lt_of_le hc hCols), if_pos hc]
    rfl
  · refine .of_rewritten hCols (le_pad (by decide)) (dvd_pad _ _) hFits (hPacked.mono ?_)
    rintro i x - - rfl
    rw [ValueTile.getD_requantized, ite_and]
    rfl
  · intro c hc hLane
    rw [hScale c hLane, if_neg (Nat.not_lt.2 hc)]
  · intro c hc
    exact hPackedScales.kept c (Nat.not_lt.2 hc)

/-- Columns with the same numbers are packed alike, whatever the others hold. -/
theorem PackedColumns.column_eq {other : ValueTile} {target' packed' : Array Int8}
    {scales' packedScales' : Array Binary32}
    (h : PackedColumns tile target packed scales packedScales)
    (h' : PackedColumns other target' packed' scales' packedScales')
    (hCols : tile.cols ≤ laneCount) (hCols' : other.cols ≤ laneCount)
    (hRows : other.rows = tile.rows) (hc : c < tile.cols) (hc' : c < other.cols)
    (hNumbers : ∀ n < tile.rows, other.number c n = tile.number c n) :
    packedScales'[c]? = packedScales[c]? ∧
      ∀ n < pad tile.rows 4, packed'[cell c n]? = packed[cell c n]? := by
  obtain ⟨greatest, hScales, hBlock⟩ := h.columns
  obtain ⟨greatest', hScales', hBlock'⟩ := h'.columns
  obtain ⟨hGreatest, hScale⟩ := hScales c hc
  obtain ⟨hGreatest', hScale'⟩ := hScales' c hc'
  rw [hRows] at hGreatest' hBlock'
  have hSame : greatest' c = greatest c := by
    refine (hGreatest'.congr fun x => exists_congr fun n => and_congr_right fun hn => ?_).eq hGreatest
    rw [hNumbers n hn]
  refine ⟨by rw [hScale, hScale', hSame], fun n hn => ?_⟩
  have hCell : cell c n < 16 * pad tile.rows 4 :=
    cell_lt (Nat.lt_of_lt_of_le hc hCols) hn (dvd_pad _ _)
  rw [hBlock.getElem?_lane hCols hc hCell, hBlock'.getElem?_lane hCols' hc' hCell]
  split
  · next hRow => rw [hNumbers n hRow, hSame]
  · rfl

/-- Every column of values is quantized anew for itself: what is stored of it, and its scale, depend
on that column and on the scales of the rows only. -/
theorem pack_requantizes (hPack : pack tile target scales = .ok (packed, packedScales)) :
    (∀ c < tile.cols, ∀ n < tile.rows, entry tile c n = .ok (tile.number c n)) ∧
      PackedColumns tile target packed scales packedScales ∧
      ∀ (other : ValueTile) (target' packed' : Array Int8) (scales' packedScales' : Array Binary32),
        pack other target' scales' = .ok (packed', packedScales') → other.rows = tile.rows →
          ∀ c < tile.cols, c < other.cols →
            (∀ n < tile.rows,
              other.source.getD (n * other.stride + c) 0 = tile.source.getD (n * tile.stride + c) 0 ∧
                other.rowScale.getD n 0 = tile.rowScale.getD n 0) →
            packedScales'[c]? = packedScales[c]? ∧
              ∀ n < pad tile.rows 4, packed'[cell c n]? = packed[cell c n]? := by
  obtain ⟨hCols, hEntries⟩ := entries_of_pack hPack
  have hPacked := packedColumns_pack hPack
  refine ⟨hEntries, hPacked, ?_⟩
  intro other target' packed' scales' packedScales' hPack' hRows c hc hc' hColumn
  refine hPacked.column_eq (packedColumns_pack hPack') hCols (entries_of_pack hPack').1 hRows hc hc'
    fun n hn => ?_
  obtain ⟨hEntry, hScale⟩ := hColumn n hn
  rw [ValueTile.number, ValueTile.number, hEntry, hScale]

/-- Five rows, of which the second has no number for a scale. The second column is zero. -/
def spoiledColumn : ValueTile where
  source := .ofArray #[100, 0, 50, 0, -100, 0, 1, 0, 3, 0]
  rowScale := .ofArray #[.ofInt 1, .nan, .ofInt 1 / .ofInt 2, .ofInt 1, .ofInt 1]
  stride := 2
  rows := 5
  cols := 2

/-- The same first column by itself. -/
def singleColumn : ValueTile :=
  { spoiledColumn with source := .ofArray #[100, 50, -100, 1, 3], stride := 1, cols := 1 }

/-- The first column is packed under the scale of its numbers, with or without the second one. -/
theorem pack_requantizes_spoiled :
    ∃ packed packedScales packed' packedScales',
      pack spoiledColumn (Array.replicate 130 7) (Array.replicate 17 .nan) =
        .ok (packed, packedScales) ∧
      pack singleColumn (Array.replicate 128 0) (Array.replicate 16 0) =
        .ok (packed', packedScales') ∧
      packedScales[0]? = some (.ofInt 100 / .ofInt 127) ∧ packedScales[1]? = some 0 ∧
      packedScales[15]? = some 0 ∧ packedScales[16]? = some .nan ∧
      packed[cell 0 0]? = some 127 ∧ packed[cell 0 1]? = some 0 ∧
      packed[cell 0 5]? = some 0 ∧ packed[128]? = some 7 ∧
      packedScales'[0]? = packedScales[0]? ∧ packed'[cell 0 2]? = packed[cell 0 2]? := by
  obtain ⟨⟨packed, packedScales⟩, hPack⟩ : ∃ run, pack spoiledColumn (Array.replicate 130 7)
      (Array.replicate 17 .nan) = .ok run := Checked.exists_of_isOk (by decide +kernel)
  obtain ⟨⟨packed', packedScales'⟩, hPack'⟩ : ∃ run, pack singleColumn (Array.replicate 128 0)
      (Array.replicate 16 0) = .ok run := Checked.exists_of_isOk (by decide +kernel)
  obtain ⟨-, hPacked, hColumns⟩ := pack_requantizes hPack
  obtain ⟨greatest, hScales, hBlock⟩ := hPacked.columns
  have hGreatest : greatest 0 = .ofInt 100 ∧ greatest 1 = 0 := by
    rw [(hScales 0 (by decide)).1.eq (greatestMagnitude_columnMax _ _),
      (hScales 1 (by decide)).1.eq (greatestMagnitude_columnMax _ _)]
    decide +kernel
  obtain ⟨hScale, hLane⟩ :=
    hColumns _ _ _ _ _ hPack' rfl 0 (by decide) (by decide) (by decide)
  refine ⟨packed, packedScales, packed', packedScales', hPack, hPack', ?_, ?_,
    hPacked.cleared_scales 15 (by decide) (by decide), ?_, ?_, ?_, ?_, ?_, hScale,
    hLane 2 (by decide)⟩
  · rw [(hScales 0 (by decide)).2, hGreatest.1]
    decide +kernel
  · rw [(hScales 1 (by decide)).2, hGreatest.2]
    decide +kernel
  · rw [hPacked.kept_scales 16 (by decide), Array.getElem?_replicate, if_pos (by decide)]
  · rw [hBlock.held 0 (by decide) 0 (by decide), hGreatest.1]
    decide +kernel
  · rw [hBlock.held 0 (by decide) 1 (by decide), hGreatest.1]
    decide +kernel
  · exact hBlock.cleared _ (by decide) (by decide)
  · rw [hBlock.kept 128 (by decide), Array.getElem?_replicate, if_pos (by decide)]

end ValuePacking

end QuantAttention
