import QuantAttention.Mask
import QuantAttention.Proofs.Faults
import QuantAttention.Proofs.Positions
import QuantAttention.Proofs.Rewritten

/-! The prepared mask. Both ways to prepare it, using the caller's rows and copying them into the
scratch, give the same rows. -/

namespace QuantAttention

namespace PreparedMask

variable {mask scratch : Array Binary32} {batch seqK : Nat} {prepared : PreparedMask}

def paddedEntry (mask : Array Binary32) (seqK b c : Nat) : Binary32 :=
  if c < seqK then mask.getD (b * seqK + c) 0 else maskPadding

/-- A padded row holds the entries of its mask row and the padding behind them. -/
theorem eq_of_getElem?_paddedRow {stride i c : Nat} {x : Binary32}
    (hRow : i * seqK + seqK ≤ mask.size) (hx : (paddedRow mask seqK stride i)[c]? = some x) :
    x = paddedEntry mask seqK i c := by
  have hSize : (mask.extract (i * seqK) (i * seqK + seqK)).size = seqK := by
    simp only [Array.size_extract]
    omega
  rw [paddedRow, Array.getElem?_append, hSize] at hx
  rw [paddedEntry]
  split at hx
  · next hc =>
    rw [Array.getElem?_extract, if_pos (by omega)] at hx
    rw [if_pos hc, Array.getD_eq_getD_getElem?, hx]
    rfl
  · next hc =>
    rw [Array.getElem?_replicate] at hx
    rw [if_neg hc]
    split at hx
    · exact (Option.some.inj hx).symm
    · cases hx

/-- Copying the rows of a mask into the scratch, each with its padding. Rows do not overlap, so
their order does not matter. -/
theorem copy_rewritten {stride : Nat} (hMask : batch * seqK ≤ mask.size) (hStride : seqK ≤ stride) :
    Rewritten (fun p => p < batch * stride)
      (fun p x => x = paddedEntry mask seqK (p / stride) (p % stride)) scratch
      ((List.range batch).foldl
        (fun ys i => splice ys (i * stride) (paddedRow mask seqK stride i)) scratch) := by
  have hRow (i : Nat) (hi : i < batch) : i * seqK + seqK ≤ mask.size := by
    have hLe := Nat.mul_le_mul_right seqK hi
    rw [Nat.succ_mul] at hLe
    omega
  have hSize (i : Nat) (hi : i < batch) : (paddedRow mask seqK stride i).size = stride := by
    have hFits := hRow i hi
    simp only [paddedRow, Array.size_append, Array.size_extract, Array.size_replicate]
    omega
  refine (Rewritten.foldl_range (fun i p => i * stride ≤ p ∧ p < i * stride + stride) ?_
    scratch).congr ?_
  · intro i hi ys
    refine (Rewritten.splice ?_).congr fun p _ => by rw [hSize i hi]
    intro c x hx
    have hc : c < stride := by
      obtain ⟨hc, -⟩ := Array.getElem?_eq_some_iff.1 hx
      rwa [hSize i hi] at hc
    rw [mul_add_div_self i hc, mul_add_mod_self i hc]
    exact eq_of_getElem?_paddedRow (hRow i hi) hx
  · intro p _
    constructor
    · rintro ⟨i, hi, hFirst, hLast⟩
      have hLe := Nat.mul_le_mul_right stride hi
      rw [Nat.succ_mul] at hLe
      omega
    · intro hp
      have hPos : 0 < stride := Nat.pos_of_ne_zero fun h => by simp [h] at hp
      have hSplit := Nat.div_add_mod' p stride
      have hRest := Nat.mod_lt p hPos
      exact ⟨p / stride, div_lt_of_lt_mul hp, by omega, by omega⟩

/-- A mask without padding is used as it is. The rows of any other are copied into the scratch and
taken from there. -/
theorem prepare_cases (h : prepare mask scratch batch seqK = .ok prepared) :
    (pad seqK 16 = seqK ∧ batch * seqK ≤ mask.size ∧ prepared.scratch = scratch ∧
        prepared.rows = mask.extract 0 (batch * seqK)) ∨
      (pad seqK 16 ≠ seqK ∧ batch * pad seqK 16 ≤ scratch.size ∧
        Rewritten (fun p => p < min batch (mask.size / seqK) * pad seqK 16)
          (fun p x => x = paddedEntry mask seqK (p / pad seqK 16) (p % pad seqK 16)) scratch
          prepared.scratch ∧
        prepared.rows = prepared.scratch.extract 0 (batch * pad seqK 16)) := by
  simp only [prepare, Checked.bind_eq_ok] at h
  obtain ⟨stride, hStride, h⟩ := h
  obtain rfl := eq_pad_of_padTo (by decide) hStride
  split at h
  · next hAligned =>
    simp only [Checked.bind_eq_ok, Checked.pure_eq_ok, require_eq_ok, Size.eval_mul_eq_ok,
      Size.eval_ofNat, Except.ok.injEq, exists_and_left, exists_eq_left', exists_eq_left,
      exists_const, and_assoc] at h
    obtain ⟨-, hFits, rfl⟩ := h
    exact .inl ⟨hAligned, hFits, rfl, rfl⟩
  · next hPadded =>
    simp only [Checked.bind_eq_ok, Checked.pure_eq_ok, require_eq_ok, Size.eval_mul_eq_ok,
      Size.eval_ofNat, Except.ok.injEq, exists_and_left, exists_eq_left', exists_eq_left,
      exists_const, and_assoc] at h
    obtain ⟨-, hFits, rfl⟩ := h
    have hRows : min batch (mask.size / seqK) * seqK ≤ mask.size :=
      Nat.le_trans (Nat.mul_le_mul_right _ (Nat.min_le_right _ _)) (Nat.div_mul_le_self _ _)
    exact .inr ⟨hPadded, hFits, copy_rewritten hRows (le_pad (by decide)), rfl⟩

/-- Every entry of the prepared rows, whatever was in the scratch: that of the mask up to the last
key, and the padding behind it. -/
theorem getD_rows_prepare (hMask : batch * seqK ≤ mask.size)
    (h : prepare mask scratch batch seqK = .ok prepared) {b c : Nat} (hb : b < batch)
    (hc : c < pad seqK 16) :
    prepared.rows.getD (b * pad seqK 16 + c) 0 = paddedEntry mask seqK b c := by
  have hPosition := mul_add_lt_mul hb hc
  have hExtract (xs : Array Binary32) :
      (xs.extract 0 (batch * pad seqK 16)).getD (b * pad seqK 16 + c) 0 =
        xs.getD (b * pad seqK 16 + c) 0 := by
    rw [getD_extract xs (by omega), Nat.zero_add]
  obtain ⟨hAligned, -, -, hRows⟩ | ⟨-, hFits, hCopied, hRows⟩ := prepare_cases h
  · rw [hAligned] at hExtract hc ⊢
    rw [hRows, hExtract, paddedEntry, if_pos hc]
  · have hKeys : 0 < seqK := by
      simp only [pad] at hc
      omega
    rw [Nat.min_eq_left ((Nat.le_div_iff_mul_le hKeys).2 hMask)] at hCopied
    rw [hRows, hExtract, hCopied.getD_written (Nat.lt_of_lt_of_le hPosition hFits) hPosition 0,
      mul_add_div_self b hc, mul_add_mod_self b hc]

/-- A mask and a scratch that are long enough can be prepared. A mask without padding needs no
scratch at all. -/
theorem prepare_faultsOnly {allowed : Fault → Prop} (hKeys : seqK + 16 < Size.limit)
    (hMask : Within mask.size (batch * seqK)) (hScratch : Within scratch.size (batch * pad seqK 16)) :
    FaultsOnly allowed (prepare mask scratch batch seqK) := by
  refine .bind_ok ((padTo_eq_ok (by decide)).2 ⟨hKeys, rfl⟩) ?_
  split
  · exact .bind_ok (Size.eval_mul_of_lt hMask.2) (.bind_require hMask.1 (.pure _))
  · exact .bind_ok (Size.eval_mul_of_lt hScratch.2) (.bind_require hScratch.1 (.pure _))

/-- There are as many prepared rows as batches, each as long as the padded keys. -/
theorem size_rows_prepare (h : prepare mask scratch batch seqK = .ok prepared) :
    prepared.rows.size = batch * pad seqK 16 := by
  obtain ⟨hAligned, hFits, -, hRows⟩ | ⟨-, hFits, hCopied, hRows⟩ := prepare_cases h
  · rw [hRows, Array.size_extract, hAligned]
    omega
  · rw [hRows, Array.size_extract, hCopied.size_eq]
    omega

/-- Entries of the scratch that the preparation may write. -/
def used (batch seqK : Nat) : Nat := if seqK % 16 = 0 then 0 else batch * pad seqK 16

/-- Preparing a mask writes to the used part of the scratch and keeps what is behind it. -/
theorem keptFrom_prepare (h : prepare mask scratch batch seqK = .ok prepared) :
    used batch seqK ≤ scratch.size ∧ KeptFrom (used batch seqK) scratch prepared.scratch := by
  have hWhole : pad seqK 16 = seqK ↔ seqK % 16 = 0 := by
    simp only [pad]
    omega
  obtain ⟨hAligned, -, hScratch, -⟩ | ⟨hPadded, hFits, hCopied, -⟩ := prepare_cases h
  · rw [used, if_pos (hWhole.1 hAligned), hScratch]
    exact ⟨Nat.zero_le _, .refl _ _⟩
  · have hLe := Nat.mul_le_mul_right (pad seqK 16) (Nat.min_le_left batch (mask.size / seqK))
    rw [used, if_neg (mt hWhole.2 hPadded)]
    exact ⟨hFits, .of_rewritten hCopied fun p hp => Nat.lt_of_lt_of_le hp hLe⟩

end PreparedMask

end QuantAttention
