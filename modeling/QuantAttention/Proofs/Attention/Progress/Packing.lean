import Mathlib.Tactic.Ring
import QuantAttention.Proofs.Attention.Packing
import QuantAttention.Proofs.Attention.Range

/-! The first phase of a call whose check has passed. All its tasks stay inside the tensors and the
regions of the workspace, so none of them faults. -/

namespace QuantAttention

variable {allowed : Fault → Prop} {a : Attention} {d : Dims} {threads : Nat} {call : Call}
  {memory : Memory}

theorem Layout.strides_faultsOnly (h : InRange d threads) :
    FaultsOnly allowed (Layout.ofDims d threads).strides := by
  have hKeys : d.seqK + 64 < Size.limit := h.seqK_padded
  have hCols : d.headSize + 64 < Size.limit := h.headSize_padded
  have hBlock := h.block_lt
  have hLive := (pad_le_pad_64 d.seqK).1
  have hHeadKeys : pad d.headSize 64 * pad d.seqK 16 < Size.limit := by
    refine Nat.lt_of_le_of_lt ?_ h.head_lt
    rw [Nat.mul_comm]
    exact Nat.mul_le_mul_right _ (pad_le_pad_64 d.seqK).2
  have hHeadValues : pad d.seqK 64 * pad d.headSize 16 < Size.limit :=
    Nat.lt_of_le_of_lt (Nat.mul_le_mul_left _ (pad_le_pad_64 d.headSize).2) h.head_lt
  simp only [strides, headKeyBytes, headValueBytes, headScaleCount, maskStride, dims_ofDims,
    padTo_of_lt (by decide : 0 < 64) hKeys, padTo_of_lt (by decide : 0 < 64) hCols,
    padTo_of_lt (by decide : 0 < 16) (by omega : d.seqK + 16 < Size.limit),
    padTo_of_lt (by decide : 0 < 16) (by omega : d.headSize + 16 < Size.limit),
    padTo_of_lt (by decide : 0 < 4) (by omega : d.seqK + 4 < Size.limit)]
  refine .bind_ok (Size.eval_mul_of_lt h.token_lt) (.bind_ok rfl (.bind_ok rfl (.bind_ok rfl ?_)))
  have hLiveBlock : 16 * pad d.seqK 4 < Size.limit := by omega
  refine .bind_ok (Size.eval_mul_of_lt hLiveBlock) (.bind_ok (Size.eval_mul_of_lt hBlock) ?_)
  refine .bind (.bind_ok rfl (.bind_ok rfl ?_)) fun _ _ => ?_
  · rw [Size.eval_mul_of_lt hHeadKeys]
    exact .ok _
  refine .bind (.bind_ok rfl (.bind_ok rfl ?_)) fun _ _ => .bind_ok rfl (.bind_ok rfl (.pure _))
  rw [Size.eval_mul_of_lt hHeadValues]
  exact .ok _

namespace Packing

variable {worker block : Nat} {task : HeadTask} {run run' : PackingRun}

/-- The operands are as long as their regions. -/
structure Allotted (d : Dims) (operands : PackedOperands) : Prop where
  keys : operands.keys.size = Layout.packedBytes d
  values : operands.values.size = Layout.packedBytes d
  valueScale : operands.valueScale.size = d.batchSize * d.headNum * pad d.headSize 64

def Listed (d : Dims) (task : HeadTask) : Prop := task.batch < d.batchSize ∧ task.head < d.headNum

theorem headStart_ok (h : InRange d threads) (hTask : Listed d task) :
    headStart d (.ofDims d) task =
      .ok (task.batch * d.seqK * (d.headNum * d.headSize) + task.head * d.headSize) := by
  have hEnd := within_entry h.keys (Nat.le_refl _) hTask.1 h.seqK_pos hTask.2
  rw [Nat.add_zero, ← Nat.add_assoc] at hEnd
  have hStart := hEnd.mono (Nat.le_add_right _ _)
  have hRows : task.batch * d.seqK < Size.limit :=
    Nat.lt_of_le_of_lt (Nat.mul_le_mul_right _ (Nat.le_of_lt hTask.1)) h.keyRows_lt
  rw [headStart, Size.ofNat_mul hRows]
  simp only [Strides.ofDims]
  rw [Size.ofNat_mul (hStart.mono (Nat.le_add_right _ _)).2,
    Size.ofNat_mul (hStart.mono (Nat.le_add_left _ _)).2, Size.ofNat_add hStart.2, Size.eval_ofNat]

/-- Key `16 * block + r` of a head, counted from the first key of the block. There is such a key
only up to the last one of the batch. -/
theorem within_key (h : InRange d threads) (hTask : Listed d task)
    (hCall : d.batchSize * d.seqK * (d.headNum * d.headSize) ≤ call.keys.size) {r : Nat}
    (hr : 16 * block + r < d.seqK) : Within call.keys.size
      (task.batch * d.seqK * (d.headNum * d.headSize) + task.head * d.headSize +
        16 * block * (d.headNum * d.headSize) + (r * (d.headNum * d.headSize) + d.headSize)) := by
  have hEnd := within_entry h.keys hCall hTask.1 hr hTask.2
  rw [Nat.add_mul, Nat.add_mul] at hEnd
  exact hEnd.mono (by omega)

/-- The packed block lies in the packed keys, where blocks are as wide as those for which the
workspace was planned. -/
theorem keyBlock_fits (hTask : Listed d task) (hBlock : block < (d.seqK + 15) / 16)
    (hRun : Allotted d run.operands) :
    16 * block * (Strides.ofDims d).keyDepth + 16 * (Strides.ofDims d).keyDepth ≤
        (Strides.ofDims d).headKeys ∧
      headNumber d task * (Strides.ofDims d).headKeys + (Strides.ofDims d).headKeys ≤
        run.operands.keys.size := by
  -- Keys of a block, and blocks of a head, stand one behind the other.
  have hBlocks := mul_add_le_mul hBlock (Nat.le_refl (16 * (Strides.ofDims d).keyDepth))
  have hOffset : 16 * block * (Strides.ofDims d).keyDepth =
      block * (16 * (Strides.ofDims d).keyDepth) := by ring
  rw [← Strides.headKeys_eq_blocks, ← hOffset] at hBlocks
  have hHeads := mul_add_le_mul (mul_add_lt_mul hTask.1 hTask.2)
    (Nat.le_refl (Strides.ofDims d).headKeys)
  rw [hRun.keys]
  exact ⟨hBlocks, Nat.le_trans hHeads (packed_le d).1⟩

/-- Packing a block of keys does not fault: its keys lie in the tensor and the block in the packed
keys. -/
theorem packKeyBlock_faultsOnly (h : InRange d threads) (hTask : Listed d task)
    (hWidth : a.keyPacking.width = 64)
    (hCall : d.batchSize * d.seqK * (d.headNum * d.headSize) ≤ call.keys.size)
    (hBlock : block < (d.seqK + 15) / 16) (hRun : Allotted d run.operands) :
    FaultsOnly allowed (packKeyBlock a d (.ofDims d) call worker task block run) := by
  have hKey : 16 * block + 0 < d.seqK := by omega
  have hSource := (within_key h hTask hCall hKey).mono (Nat.le_add_right _ _)
  obtain ⟨hBlocks, hHeads⟩ := keyBlock_fits hTask hBlock hRun
  have hSize := hRun.keys
  have hLimit := h.packedBytes_lt
  rw [packKeyBlock, headStart_ok h hTask]
  refine .bind_ok rfl (.bind_ok (Size.eval_add_mul_of_lt hSource.2) ?_)
  refine .bind (.drop hSource.1) fun source hDrop => ?_
  have hSourceSize := (View.size_drop hDrop).2
  refine .bind_ok (Size.eval_mul_of_lt (by omega)) (.bind_require (by omega) ?_)
  refine .bind (KeyPacking.pack_faultsOnly ?_ ?_ ?_ ?_ ?_) fun _ _ => .pure _
  · exact Nat.min_le_right _ _
  · rw [hWidth]
    exact h.headSize_padded
  · rw [hWidth]
    show 16 * (Strides.ofDims d).keyDepth < Size.limit
    omega
  · rw [hWidth, Array.size_extract]
    show 16 * (Strides.ofDims d).keyDepth ≤ _
    omega
  · intro r hr
    dsimp only at hr ⊢
    rw [hSourceSize]
    exact (within_key h hTask hCall (by omega)).drop

/-- Column `c` of row `r` of a block, counted from the first entry of the block. -/
theorem within_value (h : InRange d threads) (hTask : Listed d task)
    (hCall : d.batchSize * d.seqK * (d.headNum * d.headSize) ≤ call.values.size) {r c : Nat}
    (hr : r < d.seqK) (hc : block * 16 + c < d.headSize) : Within call.values.size
      (task.batch * d.seqK * (d.headNum * d.headSize) + task.head * d.headSize + block * 16 +
        (r * (d.headNum * d.headSize) + c + 1)) := by
  have hEnd := within_entry h.keys hCall hTask.1 hr hTask.2
  rw [Nat.add_mul] at hEnd
  exact hEnd.mono (by omega)

/-- The packed block lies in the packed values, and its scales among those of the columns. -/
theorem valueBlock_fits (hTask : Listed d task) (hBlock : block < (d.headSize + 15) / 16)
    (hRun : Allotted d run.operands) :
    headNumber d task * (Strides.ofDims d).headValues + block * (Strides.ofDims d).valueBlock +
        (Strides.ofDims d).valueBlock ≤ run.operands.values.size ∧
      headNumber d task * (Strides.ofDims d).headScales + block * 16 + 16 ≤
        run.operands.valueScale.size := by
  have hBlocks := mul_add_le_mul hBlock (Nat.le_refl (Strides.ofDims d).valueBlock)
  rw [← Strides.headValues_eq_blocks] at hBlocks
  have hScaleBlocks : block * 16 + 16 ≤ (Strides.ofDims d).headScales := by
    simp only [Strides.ofDims, pad]
    omega
  have hNumber := mul_add_lt_mul hTask.1 hTask.2
  rw [hRun.values, hRun.valueScale, Nat.add_assoc, Nat.add_assoc]
  exact ⟨Nat.le_trans (mul_add_le_mul hNumber hBlocks) (packed_le d).2.1,
    Nat.le_trans (mul_add_le_mul hNumber hScaleBlocks) (packed_le d).2.2⟩

/-- Packing a block of values does not fault, nor does clearing the depths behind the last key. -/
theorem packValueBlock_faultsOnly (h : InRange d threads) (hTask : Listed d task)
    (hValues : d.batchSize * d.seqK * (d.headNum * d.headSize) ≤ call.values.size)
    (hScale : d.batchSize * d.seqK ≤ call.valueScale.size)
    (hBlock : block < (d.headSize + 15) / 16) (hRun : Allotted d run.operands) :
    FaultsOnly allowed (packValueBlock d (.ofDims d) call worker task block run) := by
  have hColumn : block * 16 < d.headSize := by omega
  have hFirst : block * 16 + 0 < d.headSize := hColumn
  have hSource := (within_value h hTask hValues h.seqK_pos hFirst).mono (Nat.le_add_right _ _)
  have hStop : (task.batch + 1) * d.seqK ≤ d.batchSize * d.seqK := Nat.mul_le_mul_right _ hTask.1
  have hStart : task.batch * d.seqK ≤ (task.batch + 1) * d.seqK :=
    Nat.mul_le_mul_right _ (Nat.le_succ _)
  have hRows := h.keyRows_lt
  have hLive : 16 * pad d.seqK 4 ≤ (Strides.ofDims d).valueBlock :=
    Nat.mul_le_mul_left 16 (pad_le_pad_64 d.seqK).1
  obtain ⟨hBlockFits, hScalesFit⟩ := valueBlock_fits hTask hBlock hRun
  have hTarget := (Array.size_extract_of_le hBlockFits).trans (Nat.add_sub_cancel_left ..)
  have hScaleTarget := (Array.size_extract_of_le hScalesFit).trans (Nat.add_sub_cancel_left ..)
  have hCols := h.headSize_padded
  have hColumnRange : block * 16 < Size.limit := by omega
  have hBatch : task.batch + 1 < Size.limit :=
    Nat.lt_of_le_of_lt (Nat.le_trans hTask.1 (Nat.le_mul_of_pos_right _ h.seqK_pos)) h.keyRows_lt
  rw [packValueBlock, headStart_ok h hTask]
  refine .bind_ok rfl (.bind_ok (Size.eval_mul_of_lt hColumnRange) ?_)
  refine .bind_ok (Size.eval_add_of_lt hSource.2) (.bind (.drop hSource.1) fun source hDrop => ?_)
  have hSourceSize := (View.size_drop hDrop).2
  refine .bind_ok (Size.eval_mul_of_lt (by omega)) ?_
  rw [Size.literal, Size.ofNat_add hBatch]
  refine .bind_ok (Size.eval_mul_of_lt (by omega)) ?_
  refine .bind (.slice hStart (Nat.le_trans hStop hScale)) fun rowScale hSlice => ?_
  obtain ⟨-, -, hRowScale⟩ := View.size_slice hSlice
  rw [Size.ofNat_sub (Nat.le_of_lt hColumn)]
  refine .bind_ok rfl (.bind (ValuePacking.pack_faultsOnly ?_ ?_ ?_ ?_ ?_ ?_ ?_) ?_)
  · exact Nat.min_le_right _ _
  · have hKeys := h.seqK_padded
    show d.seqK + 4 < Size.limit
    omega
  · exact Nat.lt_of_le_of_lt hLive h.block_lt
  · rw [hTarget]
    exact hLive
  · exact Nat.le_of_eq hScaleTarget.symm
  · dsimp only
    rw [hRowScale, Nat.succ_mul]
    omega
  · intro r hr c hc
    dsimp only at hr hc ⊢
    rw [hSourceSize]
    have hInside : block * 16 + c < d.headSize := by omega
    have hCell := (within_value h hTask hValues hr hInside).drop
    exact ⟨hCell.1, (hCell.mono (Nat.le_add_right _ 1)).2⟩
  · rintro ⟨packed, packedScales⟩ hPack
    obtain ⟨-, hPacked, -⟩ := ValuePacking.pack_rewritten hPack
    refine .bind (.bind_require ?_ (.pure _)) fun _ _ => .pure _
    rw [hPacked.size_eq, hTarget]
    exact hLive

/-- Packing a block of keys leaves the packed operands as long as they have to be. -/
theorem allotted_packKeyBlock (hTask : Listed d task) (hWidth : a.keyPacking.width = 64)
    (hBlock : block < (d.seqK + 15) / 16) (hRun : Allotted d run.operands)
    (hStep : packKeyBlock a d (.ofDims d) call worker task block run = .ok run') :
    Allotted d run'.operands := by
  have hPad : pad d.headSize a.keyPacking.width ≤ (Strides.ofDims d).keyDepth := by
    rw [hWidth]
    exact Nat.le_refl _
  obtain ⟨⟨hValues, hScales⟩, hKeys⟩ := packKeyBlock_rewritten hTask.2 hBlock hPad hStep
  exact ⟨hKeys.size_eq.trans hRun.keys, hValues ▸ hRun.values, hScales ▸ hRun.valueScale⟩

theorem allotted_packValueBlock (hTask : Listed d task) (hBlock : block < (d.headSize + 15) / 16)
    (hRun : Allotted d run.operands)
    (hStep : packValueBlock d (.ofDims d) call worker task block run = .ok run') :
    Allotted d run'.operands := by
  obtain ⟨hKeys, hValues, hScales⟩ := packValueBlock_rewritten hTask.2 hBlock hStep
  exact ⟨hKeys ▸ hRun.keys, hValues.size_eq.trans hRun.values,
    hScales.size_eq.trans hRun.valueScale⟩

theorem allotted_keyLoop (hTask : Listed d task) (hWidth : a.keyPacking.width = 64)
    (hRun : Allotted d run.operands)
    (hLoop : Checked.iterate ((d.seqK + 15) / 16)
      (packKeyBlock a d (.ofDims d) call worker task) run = .ok run') :
    Allotted d run'.operands :=
  Checked.iterate_induction (fun _ s => Allotted d s.operands) hRun
    (fun _ _ _ hBlock hs => allotted_packKeyBlock hTask hWidth hBlock hs) hLoop

/-- A head is packed without a fault. Each of its blocks needs room only, and no block takes room
from another. -/
theorem packHead_faultsOnly (h : InRange d threads) (hWidth : a.keyPacking.width = 64)
    (hFits : Attention.Fits d call memory) {assigned : Assigned HeadTask}
    (hTask : Listed d assigned.task) (hRun : Allotted d run.operands) :
    FaultsOnly allowed (packHead a d (.ofDims d) call run assigned) := by
  rw [packHead, valueBlockCount_eq h.seqK_pos]
  refine .bind (.iterate (fun _ s => Allotted d s.operands) hRun fun block s hBlock hs =>
    ⟨packKeyBlock_faultsOnly h hTask hWidth hFits.keys hBlock hs,
      fun t => allotted_packKeyBlock hTask hWidth hBlock hs⟩) fun middle hLoop => ?_
  have hMiddle := allotted_keyLoop hTask hWidth hRun hLoop
  exact .iterate (fun _ s => Allotted d s.operands) hMiddle fun block s hBlock hs =>
    ⟨packValueBlock_faultsOnly h hTask hFits.values hFits.valueScale hBlock hs,
      fun t => allotted_packValueBlock hTask hBlock hs⟩

/-- Packing a head leaves the packed operands as long as they have to be, so the next head finds its
room. -/
theorem allotted_packHead (h : InRange d threads) (hWidth : a.keyPacking.width = 64)
    {assigned : Assigned HeadTask} (hTask : Listed d assigned.task) (hRun : Allotted d run.operands)
    (hStep : packHead a d (.ofDims d) call run assigned = .ok run') :
    Allotted d run'.operands := by
  rw [packHead, valueBlockCount_eq h.seqK_pos, Checked.bind_eq_ok] at hStep
  obtain ⟨middle, hKeyLoop, hValueLoop⟩ := hStep
  exact Checked.iterate_induction (fun _ s => Allotted d s.operands)
    (allotted_keyLoop hTask hWidth hRun hKeyLoop)
    (fun _ _ _ hBlock hs => allotted_packValueBlock hTask hBlock hs) hValueLoop

/-- For dimensions in range the first phase does not fault, whatever the entries of its tensors are.
-/
theorem pack_faultsOnly (h : InRange d threads) (hWidth : a.keyPacking.width = 64)
    (hFits : Attention.Fits d call memory) {tasks : List (Assigned HeadTask)}
    (hTasks : ∀ assigned ∈ tasks, Listed d assigned.task) {operands : PackedOperands}
    (hOperands : Allotted d operands) :
    FaultsOnly allowed (pack a d (.ofDims d) call tasks operands) := by
  obtain ⟨hKeys, hValues, hScales⟩ := packed_le d
  have hPacked := h.packedBytes_lt
  have hScaleBytes := h.scales_lt
  have hBlock : 0 < pad d.seqK 64 ∧ 0 < pad d.seqK 16 := by
    have hSeqK := h.seqK_pos
    simp only [pad]
    omega
  have hDepth : 0 < pad d.headSize 64 ∧ 0 < pad d.headSize 16 := by
    have hHeadSize := h.headSize_pos
    simp only [pad]
    omega
  have hHeads : d.batchSize * d.headNum < Size.limit := by
    have hLe := Nat.le_mul_of_pos_right (d.batchSize * d.headNum) hDepth.1
    omega
  have hSize := hOperands.keys
  have hValueSize := hOperands.values
  have hScaleSize := hOperands.valueScale
  rw [pack, Size.ofNat_mul hHeads]
  refine .bind_ok (Size.eval_mul_of_lt (by omega)) (.bind_ok (Size.eval_mul_of_lt (by omega)) ?_)
  refine .bind_ok (Size.eval_mul_of_lt (by omega)) (.bind_require (by omega) ?_)
  refine .bind_require (by omega) (.bind_require (by omega) (.bind_require ?_ ?_))
  · exact ⟨Nat.mul_pos hDepth.1 hBlock.2, Nat.mul_pos hBlock.1 hDepth.2, hDepth.2,
      Nat.mul_pos (by decide) hBlock.1⟩
  · exact .foldlM (fun s => Allotted d s.operands) hOperands fun assigned hMem s hs =>
      ⟨packHead_faultsOnly h hWidth hFits (hTasks assigned hMem) hs,
        fun t => allotted_packHead h hWidth (hTasks assigned hMem) hs⟩

theorem allotted_pack (h : InRange d threads) (hWidth : a.keyPacking.width = 64)
    {tasks : List (Assigned HeadTask)} (hTasks : ∀ assigned ∈ tasks, Listed d assigned.task)
    {operands : PackedOperands} (hOperands : Allotted d operands)
    (hRun : pack a d (.ofDims d) call tasks operands = .ok run) : Allotted d run.operands := by
  obtain ⟨-, -, -, -, hFold⟩ := pack_spec hRun
  exact Checked.foldlM_induction (fun s => Allotted d s.operands) hOperands
    (fun assigned hMem s t hs => allotted_packHead h hWidth (hTasks assigned hMem) hs) hFold

end Packing

end QuantAttention
