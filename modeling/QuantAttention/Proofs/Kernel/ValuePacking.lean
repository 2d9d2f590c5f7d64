import QuantAttention.Kernel.ValuePacking
import QuantAttention.Proofs.Kernel.KeyPacking

/-! What the packing of values writes: column `c`, quantized anew, to lane `c`, and its scale to
entry `c` of the scales. Lanes and scales of columns that do not exist are zero, and so is what a
lane holds behind the last row. -/

namespace QuantAttention

namespace ValueTile

/-- The number for which the entry in row `r` and column `c` stands. -/
def number (tile : ValueTile) (c r : Nat) : Binary32 :=
  .ofInt8 (tile.source.getD (r * tile.stride + c) 0) * tile.rowScale.getD r 0

def requantized (tile : ValueTile) (c : Nat) : Binary32 × Array Int8 :=
  quantizeDynamic (Array.ofFn fun r : Fin tile.rows => tile.number c r)

/-- A requantized column ends with the last row. -/
theorem getD_requantized (tile : ValueTile) (c r : Nat) :
    (tile.requantized c).2.getD r 0 = if r < tile.rows then
      quantizeActivation (tile.number c r) (Scale.ofAbsMax (absMax
        (Array.ofFn fun r : Fin tile.rows => tile.number c r))).inverse else 0 := by
  rw [requantized, quantizeDynamic, Array.getD_eq_getD_getElem?, Array.getElem?_map,
    Array.getElem?_ofFn]
  split <;> rfl

end ValueTile

namespace ValuePacking

theorem entry_eq {tile : ValueTile} {c r : Nat} {x : Binary32} (h : entry tile c r = .ok x) :
    x = tile.number c r := by
  simp only [entry, Checked.bind_eq_ok, Checked.pure_eq_ok, Size.eval_add_eq_ok,
    Size.eval_mul_eq_ok, Size.eval_ofNat, Except.ok.injEq, exists_and_left, exists_eq_left',
    exists_eq_left, and_assoc] at h
  obtain ⟨-, -, q, hq, scale, hScale, rfl⟩ := h
  rw [ValueTile.number, View.getD_of_get hq, View.getD_of_get hScale]

/-- A column that could be read is quantized anew from the numbers for which its entries stand. -/
theorem column_eq {tile : ValueTile} {c : Nat} {column : Binary32 × Array Int8}
    (h : ValuePacking.column tile c = .ok column) : column = tile.requantized c := by
  simp only [ValuePacking.column, Checked.bind_eq_ok, Checked.pure_eq_ok] at h
  obtain ⟨numbers, hNumbers, rfl⟩ := h
  rw [Checked.tabulate_eq_ofFn (fun r _ _ hEntry => entry_eq hEntry) hNumbers]
  rfl

/-- A block of packed values and its scales, position by position. Depths behind the padded rows are
not written by this kernel. -/
theorem pack_rewritten {tile : ValueTile} {target packed : Array Int8}
    {scales packedScales : Array Binary32}
    (h : pack tile target scales = .ok (packed, packedScales)) :
    (16 * pad tile.rows 4 ≤ target.size ∧ laneCount ≤ scales.size) ∧
      Rewritten (fun i => i < 16 * pad tile.rows 4)
        (fun i x => x = if laneAt i < tile.cols
          then (tile.requantized (laneAt i)).2.getD (depthAt i) 0 else 0) target packed ∧
      Rewritten (fun i => i < laneCount)
        (fun i x => x = if i < tile.cols then (tile.requantized i).1 else 0) scales
        packedScales := by
  simp only [pack, Checked.bind_eq_ok, Checked.pure_eq_ok, require_eq_ok, Size.eval_mul_eq_ok,
    Size.eval_ofNat, Size.eval_literal, Except.ok.injEq, Prod.mk.injEq, exists_and_left,
    exists_eq_left', exists_eq_left, exists_const, and_assoc] at h
  obtain ⟨-, depth, hDepth, -, hSize, hLanes, columns, hColumns, rfl, rfl⟩ := h
  obtain rfl := eq_pad_of_padTo (by decide) hDepth
  have hColumn := Checked.tabulate_eq_ofFn (fun c _ _ hc => column_eq hc) hColumns
  refine ⟨⟨hSize, hLanes⟩, (Rewritten.splice ?_).congr ?_, (Rewritten.splice ?_).congr ?_⟩
  · intro i x hx
    rw [Nat.zero_add, eq_of_getElem?_interleave hx, hColumn]
    rw [Array.getD_eq_getD_getElem? (i := laneAt i), Array.getElem?_map, Array.getElem?_ofFn]
    by_cases hLane : laneAt i < tile.cols
    · rw [dif_pos hLane, if_pos hLane]
      rfl
    · rw [dif_neg hLane, if_neg hLane]
      rfl
  · intro i _
    simp
  · intro i x hx
    rw [hColumn, Array.getElem?_ofFn] at hx
    split at hx
    · obtain rfl := Option.some.inj hx
      rw [Nat.zero_add, Array.getElem?_ofFn]
      by_cases hLane : i < tile.cols
      · rw [dif_pos hLane, if_pos hLane]
        rfl
      · rw [dif_neg hLane, if_neg hLane]
        rfl
    · cases hx
  · intro i _
    rw [Array.size_ofFn]
    omega

/-- Packing values into a block that is long enough does not fault, whatever their scales are.
Quantization has no fault. -/
theorem pack_faultsOnly {allowed : Fault → Prop} {tile : ValueTile} {target : Array Int8}
    {scales : Array Binary32} (hCols : tile.cols ≤ laneCount) (hRows : tile.rows + 4 < Size.limit)
    (hBlock : 16 * pad tile.rows 4 < Size.limit) (hTarget : 16 * pad tile.rows 4 ≤ target.size)
    (hScales : laneCount ≤ scales.size) (hRowScale : tile.rows ≤ tile.rowScale.size)
    (hSource : ∀ r < tile.rows, ∀ c < tile.cols, r * tile.stride + c < tile.source.size ∧
      r * tile.stride + c < Size.limit) :
    FaultsOnly allowed (pack tile target scales) := by
  refine .bind_require hCols (.bind_ok ((padTo_eq_ok (by decide)).2 ⟨hRows, rfl⟩) ?_)
  rw [Size.literal, Size.ofNat_mul hBlock]
  refine .bind_ok rfl (.bind_require hTarget (.bind_require hScales ?_))
  refine .bind (.tabulate fun c hc => ?_) fun _ _ => .ok _
  refine .bind (.tabulate fun r hr => ?_) fun _ _ => .ok _
  obtain ⟨hInside, hRange⟩ := hSource r hr c hc
  rw [entry, Size.ofNat_mul (by omega), Size.ofNat_add hRange]
  refine .bind_ok rfl (.bind (.get hInside) fun _ _ => ?_)
  exact .bind (.get (by omega)) fun _ _ => .ok _

end ValuePacking

end QuantAttention
