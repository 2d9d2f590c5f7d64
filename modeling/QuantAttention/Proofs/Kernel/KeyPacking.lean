import QuantAttention.Kernel.KeyPacking
import QuantAttention.Proofs.Faults
import QuantAttention.Proofs.Rewritten

/-! What the packing of keys writes: the entry of row `r` and column `c` to depth `c` of lane `r`,
and zero to the rest of the padded block. -/

namespace QuantAttention

def KeyTile.entry (tile : KeyTile) (r c : Nat) : Int8 := tile.source.getD (r * tile.stride + c) 0

namespace KeyPacking

theorem row_eq {tile : KeyTile} {r : Nat} {xs : Array Int8} (h : row tile r = .ok xs) :
    xs = Array.ofFn fun c : Fin tile.cols => tile.entry r c := by
  simp only [row, Checked.bind_eq_ok, Checked.pure_eq_ok, Size.eval_add_eq_ok, Size.eval_mul_eq_ok,
    Size.eval_ofNat, Except.ok.injEq, exists_and_left, exists_eq_left', exists_eq_left,
    and_assoc] at h
  obtain ⟨-, -, -, part, hPart, rfl⟩ := h
  obtain ⟨-, -, hSize⟩ := View.size_slice hPart
  apply Array.ext
  · simp [hSize]
  · intro c h₁ h₂
    rw [Array.size_ofFn] at h₂
    have hEntry := View.getD_slice hPart (Nat.add_lt_add_left h₂ _) 0
    rw [Array.getElem_ofFn, KeyTile.entry, ← hEntry]
    simp [View.toArray, View.getD, hSize, h₂]

/-- A block of packed keys, written position by position: a lane holds its key, and zeros in its
padding and in lanes without a key. Only the block is written. -/
theorem pack_rewritten {kernel : KeyPacking} {tile : KeyTile} {target packed : Array Int8}
    (h : kernel.pack tile target = .ok packed) :
    16 * pad tile.cols kernel.width ≤ target.size ∧
      Rewritten (fun i => i < 16 * pad tile.cols kernel.width)
        (fun i x => x = if laneAt i < tile.rows ∧ depthAt i < tile.cols
          then tile.entry (laneAt i) (depthAt i) else 0) target packed := by
  simp only [pack, Checked.bind_eq_ok, Checked.pure_eq_ok, require_eq_ok, Size.eval_mul_eq_ok,
    Size.eval_ofNat, Size.eval_literal, Except.ok.injEq, exists_and_left, exists_eq_left',
    exists_eq_left, exists_const, and_assoc] at h
  obtain ⟨-, depth, hDepth, -, hSize, lanes, hLanes, rfl⟩ := h
  obtain rfl := eq_pad_of_padTo kernel.width_pos hDepth
  have hRows := Checked.tabulate_eq_ofFn (fun r _ _ hRow => row_eq hRow) hLanes
  refine ⟨hSize, (Rewritten.splice ?_).congr ?_⟩
  · intro i x hx
    rw [Nat.zero_add, eq_of_getElem?_interleave hx, hRows,
      getD_ofFn tile.rows fun r => Array.ofFn fun c : Fin tile.cols => tile.entry r c]
    by_cases hLane : laneAt i < tile.rows
    · rw [if_pos hLane, getD_ofFn tile.cols fun c => tile.entry (laneAt i) c]
      simp [hLane]
    · simp [hLane]
  · intro i _
    simp

/-- Packing keys into a block that is long enough does not fault. Every position that the kernel
reads or writes lies in its buffer, and none of them leaves the range of a size. -/
theorem pack_faultsOnly {allowed : Fault → Prop} {kernel : KeyPacking} {tile : KeyTile}
    {target : Array Int8} (hRows : tile.rows ≤ laneCount)
    (hWidth : tile.cols + kernel.width < Size.limit)
    (hBlock : 16 * pad tile.cols kernel.width < Size.limit)
    (hTarget : 16 * pad tile.cols kernel.width ≤ target.size)
    (hSource : ∀ r < tile.rows, r * tile.stride + tile.cols ≤ tile.source.size ∧
      r * tile.stride + tile.cols < Size.limit) :
    FaultsOnly allowed (kernel.pack tile target) := by
  refine .bind_require hRows (.bind_ok ((padTo_eq_ok kernel.width_pos).2 ⟨hWidth, rfl⟩) ?_)
  rw [Size.literal, Size.ofNat_mul hBlock]
  refine .bind_ok rfl (.bind_require hTarget (.bind (.tabulate fun r hr => ?_) fun _ _ => .ok _))
  obtain ⟨hInside, hRange⟩ := hSource r hr
  rw [row, Size.ofNat_mul (by omega), Size.ofNat_add hRange]
  exact .bind_ok rfl (.bind_ok rfl (.bind (.slice (by omega) hInside) fun _ _ => .ok _))

end KeyPacking

end QuantAttention
