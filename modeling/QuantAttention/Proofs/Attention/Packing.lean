import Mathlib.Tactic.Ring
import QuantAttention.Attention.Packing
import QuantAttention.Attention.RowMajor
import QuantAttention.Proofs.Kernel.ValuePacking
import QuantAttention.Proofs.Layout
import QuantAttention.Proofs.Positions

/-! The first phase of a call, in any order of its tasks. What the packed operands hold afterwards
is a function of the row-major tensors at every position that belongs to a head. -/

namespace QuantAttention

namespace Packing

variable {a : Attention} {d : Dims} {call : Call} {worker block : Nat} {task : HeadTask}
  {run run' : PackingRun}

/-- What belongs to position `i` of block `block` among the packed keys of head number `head`. -/
def keyInBlock (d : Dims) (call : Call) (head block i : Nat) : Int8 :=
  let key := block * 16 + laneAt i
  if key < d.seqK ∧ depthAt i < d.headSize then
    RowMajor.entry d call.keys d.seqK (head / d.headNum) key (head % d.headNum) (depthAt i)
  else 0

/-- What belongs to a position of the packed keys. -/
def keyAt (d : Dims) (call : Call) (p : Nat) : Int8 :=
  let s := Strides.ofDims d
  keyInBlock d call (p / s.headKeys) (p % s.headKeys / (16 * s.keyDepth))
    (p % s.headKeys % (16 * s.keyDepth))

def valueInBlock (d : Dims) (call : Call) (head block i : Nat) : Int8 :=
  let c := block * 16 + laneAt i
  if c < d.headSize then
    (RowMajor.column d call (head / d.headNum) (head % d.headNum) c).2.getD (depthAt i) 0
  else 0

def valueAt (d : Dims) (call : Call) (p : Nat) : Int8 :=
  let s := Strides.ofDims d
  valueInBlock d call (p / s.headValues) (p % s.headValues / s.valueBlock)
    (p % s.headValues % s.valueBlock)

def scaleAt (d : Dims) (call : Call) (p : Nat) : Binary32 :=
  let head := p / (Strides.ofDims d).headScales
  let c := p % (Strides.ofDims d).headScales
  if c < d.headSize then
    (RowMajor.column d call (head / d.headNum) (head % d.headNum) c).1
  else 0

/-- A position in the packed keys belongs to one block of one head. -/
theorem keyAt_position {head i : Nat} (hBlock : block < (d.seqK + 15) / 16)
    (hi : i < 16 * (Strides.ofDims d).keyDepth) :
    keyAt d call (head * (Strides.ofDims d).headKeys +
      (block * (16 * (Strides.ofDims d).keyDepth) + i)) = keyInBlock d call head block i := by
  have hCell := mul_add_lt_mul hBlock hi
  rw [← Strides.headKeys_eq_blocks] at hCell
  simp only [keyAt]
  rw [mul_add_div_self head hCell, mul_add_mod_self head hCell, mul_add_div_self block hi,
    mul_add_mod_self block hi]

/-- A position in the packed values belongs to one block of columns of one head. -/
theorem valueAt_position {head i : Nat} (hBlock : block < (d.headSize + 15) / 16)
    (hi : i < (Strides.ofDims d).valueBlock) :
    valueAt d call (head * (Strides.ofDims d).headValues +
      (block * (Strides.ofDims d).valueBlock + i)) = valueInBlock d call head block i := by
  have hCell := mul_add_lt_mul hBlock hi
  rw [← Strides.headValues_eq_blocks] at hCell
  simp only [valueAt]
  rw [mul_add_div_self head hCell, mul_add_mod_self head hCell, mul_add_div_self block hi,
    mul_add_mod_self block hi]

theorem headNumber_div (hHead : task.head < d.headNum) :
    headNumber d task / d.headNum = task.batch := mul_add_div_self _ hHead

theorem headNumber_mod (hHead : task.head < d.headNum) :
    headNumber d task % d.headNum = task.head := mul_add_mod_self _ hHead

/-- Where the entries of a head begin in a row-major tensor: behind the tokens of the batches before
it, and the heads before it in its first token. -/
theorem headStart_eq {start : Nat} (h : headStart d (.ofDims d) task = .ok start) :
    start = task.batch * d.seqK * (d.headNum * d.headSize) + task.head * d.headSize := by
  simp only [headStart, Size.eval_add_eq_ok, Size.eval_mul_eq_ok, Size.eval_ofNat, Except.ok.injEq,
    exists_and_left, exists_eq_left', exists_eq_left, and_assoc] at h
  obtain ⟨-, -, -, -, rfl⟩ := h
  rfl

/-- What packing one block of keys does to the operands: it writes that block of that head, and
neither values nor scales. -/
theorem packKeyBlock_rewritten (hHead : task.head < d.headNum)
    (hBlock : block < (d.seqK + 15) / 16)
    (hWidth : pad d.headSize a.keyPacking.width ≤ (Strides.ofDims d).keyDepth)
    (h : packKeyBlock a d (.ofDims d) call worker task block run = .ok run') :
    (run'.operands.values = run.operands.values ∧
        run'.operands.valueScale = run.operands.valueScale) ∧
      Rewritten (fun p => ∃ i < 16 * pad d.headSize a.keyPacking.width,
          p = headNumber d task * (Strides.ofDims d).headKeys +
            (block * (16 * (Strides.ofDims d).keyDepth) + i))
        (fun p x => x = keyAt d call p) run.operands.keys run'.operands.keys := by
  simp only [packKeyBlock, Checked.bind_eq_ok, Checked.pure_eq_ok, require_eq_ok,
    Size.eval_add_eq_ok, Size.eval_mul_eq_ok, Size.eval_ofNat, Except.ok.injEq, exists_and_left,
    exists_eq_left', exists_eq_left, exists_const, and_assoc] at h
  obtain ⟨start, hStart, -, -, source, hSource, -, hOffset, packed, hPack, rfl⟩ := h
  obtain rfl := headStart_eq hStart
  have hOffsetEq : 16 * block * (Strides.ofDims d).keyDepth =
      block * (16 * (Strides.ofDims d).keyDepth) := by ring
  obtain ⟨hFits, hPacked⟩ := KeyPacking.pack_rewritten hPack
  rw [Array.size_extract] at hFits
  dsimp only at hFits hPacked
  refine ⟨⟨rfl, rfl⟩, ?_⟩
  simp only [hOffsetEq, ← Nat.add_assoc] at hFits hPacked ⊢
  refine hPacked.window_front (by omega) ?_
  rintro i x hi rfl
  rw [Nat.add_assoc, keyAt_position hBlock (by omega), keyInBlock, headNumber_div hHead,
    headNumber_mod hHead]
  have hLane := laneAt_lt i
  simp only [laneCount] at hLane
  have hKey : laneAt i < min (d.seqK - 16 * block) 16 ↔ block * 16 + laneAt i < d.seqK := by
    omega
  simp only [hKey]
  split
  · rw [KeyTile.entry, View.getD_drop hSource, View.getD_ofArray, RowMajor.entry]
    simp only [Strides.ofDims]
    congr 1
    ring
  · rfl

/-- What clearing the end of a block leaves: zeros from there on, and everything before it as it
was. -/
theorem clearFrom_rewritten {xs ys : Array Int8} {live : Nat} (h : clearFrom xs live = .ok ys) :
    Rewritten (fun p => live ≤ p) (fun _ x => x = 0) xs ys := by
  simp only [clearFrom, Checked.bind_eq_ok, Checked.pure_eq_ok, require_eq_ok] at h
  obtain ⟨_, hLive, rfl⟩ := h
  refine ⟨?_, ?_, ?_⟩
  · simp only [Array.size_append, Array.size_extract, Array.size_replicate]
    omega
  · intro p x hp hx
    rw [Array.getElem?_append_right (by simp only [Array.size_extract]; omega),
      Array.getElem?_replicate] at hx
    split at hx
    · exact (Option.some.inj hx).symm
    · cases hx
  · intro p hp
    rw [Array.getElem?_append_left (by simp only [Array.size_extract]; omega),
      Array.getElem?_extract, if_pos (by omega), Nat.zero_add]

theorem size_column (d : Dims) (call : Call) (batch h c : Nat) :
    (RowMajor.column d call batch h c).2.size = d.seqK := by
  simp [RowMajor.column, quantizeDynamic]

/-- The columns that a block of values is packed from are those of the row-major values, scale by
scale: the view of the block begins at its first column. -/
theorem requantized_eq (cols : Nat) {source : View Int8} {rowScale : View Binary32}
    (hSource : (View.ofArray call.values).drop
      (task.batch * d.seqK * (d.headNum * d.headSize) + task.head * d.headSize + block * 16) =
        .ok source)
    (hRowScale : (View.ofArray call.valueScale).slice (task.batch * d.seqK)
      ((task.batch + 1) * d.seqK) = .ok rowScale) (c : Nat) :
    ValueTile.requantized ⟨source, rowScale, (Strides.ofDims d).token, d.seqK, cols⟩ c =
      RowMajor.column d call task.batch task.head (block * 16 + c) := by
  have hNumber (r : Fin d.seqK) :
      ValueTile.number ⟨source, rowScale, (Strides.ofDims d).token, d.seqK, cols⟩ c r =
        RowMajor.value d call task.batch task.head (block * 16 + c) r := by
    have hr : task.batch * d.seqK + r < (task.batch + 1) * d.seqK := by
      rw [Nat.succ_mul]
      omega
    rw [ValueTile.number, View.getD_drop hSource, View.getD_ofArray, View.getD_slice hRowScale hr,
      View.getD_ofArray, RowMajor.value, RowMajor.entry]
    simp only [Strides.ofDims]
    congr 3
    ring
  simp only [ValueTile.requantized, RowMajor.column, hNumber]

/-- A column has no entries behind the last key. -/
theorem getD_column_of_le {k : Nat} (batch h c : Nat) (hk : d.seqK ≤ k) :
    (RowMajor.column d call batch h c).2.getD k 0 = 0 := by
  rw [Array.getD_eq_getD_getElem?, Array.getElem?_eq_none (by rwa [size_column])]
  rfl

/-- The part of a block that is cleared behind the kernel holds zero, as its columns have no entries
there. -/
theorem valueInBlock_of_le {head i : Nat} (hi : (Strides.ofDims d).valueLive ≤ i) :
    valueInBlock d call head block i = 0 := by
  have hDepth : d.seqK ≤ depthAt i := by
    simp only [Strides.ofDims, pad, depthAt] at hi ⊢
    omega
  rw [valueInBlock]
  split
  · exact getD_column_of_le _ _ _ hDepth
  · rfl

/-- What packing one block of values does to the operands: it writes that block and its sixteen
scales, and no keys. -/
theorem packValueBlock_rewritten (hHead : task.head < d.headNum)
    (hBlock : block < (d.headSize + 15) / 16)
    (h : packValueBlock d (.ofDims d) call worker task block run = .ok run') :
    run'.operands.keys = run.operands.keys ∧
      Rewritten (fun p => ∃ i < (Strides.ofDims d).valueBlock,
          p = headNumber d task * (Strides.ofDims d).headValues +
            (block * (Strides.ofDims d).valueBlock + i))
        (fun p x => x = valueAt d call p) run.operands.values run'.operands.values ∧
      Rewritten (fun p => ∃ i < 16,
          p = headNumber d task * (Strides.ofDims d).headScales + (block * 16 + i))
        (fun p x => x = scaleAt d call p) run.operands.valueScale run'.operands.valueScale := by
  simp only [packValueBlock, Checked.bind_eq_ok, Checked.pure_eq_ok, Size.eval_add_eq_ok,
    Size.eval_mul_eq_ok, Size.eval_sub_eq_ok, Size.eval_ofNat, Size.eval_literal, Except.ok.injEq,
    exists_and_left, exists_eq_left', exists_eq_left, and_assoc] at h
  obtain ⟨start, hStart, -, -, source, hSource, -, -, -, rowScale, hRowScale, hColumn, ⟨packed,
    packedScales⟩, hPack, cleared, hClear, rfl⟩ := h
  obtain rfl := headStart_eq hStart
  have hColumns := requantized_eq (min (d.headSize - block * 16) 16) hSource hRowScale
  obtain ⟨-, hValues, hScales⟩ := ValuePacking.pack_rewritten hPack
  simp only [hColumns] at hValues hScales
  have hCol (c : Nat) (hc : c < 16) :
      c < min (d.headSize - block * 16) 16 ↔ block * 16 + c < d.headSize := by omega
  refine ⟨rfl, ?_⟩
  simp only [← Nat.add_assoc]
  refine ⟨?_, hScales.window_front (Nat.le_refl _) ?_⟩
  · have hTarget : Rewritten (· < (Strides.ofDims d).valueBlock)
        (fun i x => x = valueInBlock d call (headNumber d task) block i)
        (run.operands.values.extract
          (headNumber d task * (Strides.ofDims d).headValues + block * (Strides.ofDims d).valueBlock)
          (headNumber d task * (Strides.ofDims d).headValues + block * (Strides.ofDims d).valueBlock +
            (Strides.ofDims d).valueBlock)) cleared := by
      refine ((hValues.mono ?_).trans ((clearFrom_rewritten hClear).mono ?_)).congr ?_
      · rintro i x - - rfl
        simp only [hCol _ (laneAt_lt i), valueInBlock, headNumber_div hHead, headNumber_mod hHead]
      · rintro i x - hi rfl
        exact (valueInBlock_of_le hi).symm
      · intro i hi
        rw [Array.size_extract] at hi
        exact iff_of_true (Nat.lt_or_ge _ _) (by omega)
    refine hTarget.window_front (Nat.le_refl _) ?_
    rintro i x hi rfl
    rw [Nat.add_assoc, valueAt_position hBlock hi]
  · rintro i x hi rfl
    have hScale : block * 16 + i < (Strides.ofDims d).headScales := by
      simp only [Strides.ofDims, pad, laneCount] at hi ⊢
      omega
    rw [Nat.add_assoc, scaleAt, mul_add_div_self _ hScale, mul_add_mod_self _ hScale,
      headNumber_div hHead, headNumber_mod hHead]
    simp only [hCol i hi]

/-- The positions that packing the keys of a head writes. -/
def WritesKey (a : Attention) (d : Dims) (task : HeadTask) (p : Nat) : Prop :=
  ∃ block < (d.seqK + 15) / 16, ∃ i < 16 * pad d.headSize a.keyPacking.width,
    p = headNumber d task * (Strides.ofDims d).headKeys +
      (block * (16 * (Strides.ofDims d).keyDepth) + i)

def WritesValue (d : Dims) (task : HeadTask) (p : Nat) : Prop :=
  ∃ block < (d.headSize + 15) / 16, ∃ i < (Strides.ofDims d).valueBlock,
    p = headNumber d task * (Strides.ofDims d).headValues +
      (block * (Strides.ofDims d).valueBlock + i)

def WritesScale (d : Dims) (task : HeadTask) (p : Nat) : Prop :=
  ∃ block < (d.headSize + 15) / 16, ∃ i < 16,
    p = headNumber d task * (Strides.ofDims d).headScales + (block * 16 + i)

/-- The last block of keys fits into the part of its head only if blocks are no wider than their
distance. -/
theorem width_le_of_packKeyBlock
    (h : packKeyBlock a d (.ofDims d) call worker task ((d.seqK + 15) / 16 - 1) run = .ok run')
    (hKeys : 0 < d.seqK) :
    pad d.headSize a.keyPacking.width ≤ (Strides.ofDims d).keyDepth := by
  simp only [packKeyBlock, Checked.bind_eq_ok, Checked.pure_eq_ok, require_eq_ok,
    Size.eval_add_eq_ok, Size.eval_mul_eq_ok, Size.eval_ofNat, Except.ok.injEq, exists_and_left,
    exists_eq_left', exists_eq_left, exists_const, and_assoc] at h
  obtain ⟨start, hStart, -, -, source, hSource, -, hOffset, packed, hPack, rfl⟩ := h
  obtain ⟨hFits, -⟩ := KeyPacking.pack_rewritten hPack
  have hBlocks := Strides.headKeys_eq_blocks d
  obtain ⟨last, hLast⟩ : ∃ last, (d.seqK + 15) / 16 = last + 1 :=
    ⟨(d.seqK + 15) / 16 - 1, by omega⟩
  rw [hLast, Nat.succ_mul] at hBlocks
  rw [hLast, Nat.add_sub_cancel, Array.size_extract] at hFits
  have hOffsetEq : 16 * last * (Strides.ofDims d).keyDepth =
      last * (16 * (Strides.ofDims d).keyDepth) := by ring
  dsimp only at hFits
  omega

/-- As many blocks of values are packed as a head has. The count is formed by dividing lengths, and
this is where they are seen to divide. -/
theorem valueBlockCount_eq (hKeys : 0 < d.seqK) :
    min ((Strides.ofDims d).headValues / (Strides.ofDims d).valueBlock)
      ((Strides.ofDims d).headScales / 16) = (d.headSize + 15) / 16 := by
  rw [Strides.headValues_eq_blocks, Nat.mul_div_cancel _ (Strides.valueBlock_pos.2 hKeys)]
  simp only [Strides.ofDims, pad]
  omega

theorem width_le_of_packHead {assigned : Assigned HeadTask} (hKeys : 0 < d.seqK)
    (h : packHead a d (.ofDims d) call run assigned = .ok run') :
    pad d.headSize a.keyPacking.width ≤ (Strides.ofDims d).keyDepth := by
  obtain ⟨middle, hKeyLoop, -⟩ := Checked.bind_eq_ok.1 h
  obtain ⟨s, t, -, hLast⟩ := Checked.exists_step_of_iterate (fun _ => True) trivial
    (fun _ _ _ _ _ _ => trivial) hKeyLoop (i := (d.seqK + 15) / 16 - 1) (by omega)
  exact width_le_of_packKeyBlock hLast hKeys

/-- What packing one head does to the operands: it writes the part of that head and nothing else,
whatever was there. -/
theorem packHead_rewritten {assigned : Assigned HeadTask} (hHead : assigned.task.head < d.headNum)
    (hKeys : 0 < d.seqK) (h : packHead a d (.ofDims d) call run assigned = .ok run') :
    Rewritten (WritesKey a d assigned.task) (fun p x => x = keyAt d call p) run.operands.keys
        run'.operands.keys ∧
      Rewritten (WritesValue d assigned.task) (fun p x => x = valueAt d call p)
        run.operands.values run'.operands.values ∧
      Rewritten (WritesScale d assigned.task) (fun p x => x = scaleAt d call p)
        run.operands.valueScale run'.operands.valueScale := by
  have hWidth := width_le_of_packHead hKeys h
  simp only [packHead, Checked.bind_eq_ok] at h
  obtain ⟨middle, hKeyLoop, hValueLoop⟩ := h
  rw [valueBlockCount_eq hKeys] at hValueLoop
  have hKeyStep (block : Nat) (s t : PackingRun) (hBlock : block < (d.seqK + 15) / 16)
      (hStep : packKeyBlock a d (.ofDims d) call assigned.worker assigned.task block s = .ok t) :=
    packKeyBlock_rewritten hHead hBlock hWidth hStep
  have hValueStep (block : Nat) (s t : PackingRun) (hBlock : block < (d.headSize + 15) / 16)
      (hStep : packValueBlock d (.ofDims d) call assigned.worker assigned.task block s = .ok t) :=
    packValueBlock_rewritten hHead hBlock hStep
  -- Packing keys leaves values and scales alone, and packing values leaves keys alone.
  have hValuesKept : middle.operands.values = run.operands.values ∧
      middle.operands.valueScale = run.operands.valueScale :=
    Checked.iterate_induction
      (fun _ s => s.operands.values = run.operands.values ∧
        s.operands.valueScale = run.operands.valueScale) ⟨rfl, rfl⟩
      (fun i s t hi hBefore hStep =>
        ⟨(hKeyStep i s t hi hStep).1.1.trans hBefore.1,
          (hKeyStep i s t hi hStep).1.2.trans hBefore.2⟩) hKeyLoop
  have hKeysKept : run'.operands.keys = middle.operands.keys :=
    Checked.iterate_induction (fun _ s => s.operands.keys = middle.operands.keys) rfl
      (fun i s t hi hBefore hStep => (hValueStep i s t hi hStep).1.trans hBefore) hValueLoop
  refine ⟨?_, ?_, ?_⟩
  · rw [hKeysKept]
    exact Rewritten.iterate (fun s => s.operands.keys)
      (fun i s t hi hStep => (hKeyStep i s t hi hStep).2) hKeyLoop
  · rw [← hValuesKept.1]
    exact Rewritten.iterate (fun s => s.operands.values)
      (fun i s t hi hStep => (hValueStep i s t hi hStep).2.1) hValueLoop
  · rw [← hValuesKept.2]
    exact Rewritten.iterate (fun s => s.operands.valueScale)
      (fun i s t hi hStep => (hValueStep i s t hi hStep).2.2) hValueLoop

/-- The first phase runs its tasks one after the other if the parts of all heads lie in the
operands. It tests this before the first task. -/
theorem pack_spec {s : Strides} {tasks : List (Assigned HeadTask)} {operands : PackedOperands}
    (h : pack a d s call tasks operands = .ok run) :
    d.batchSize * d.headNum * s.headKeys ≤ operands.keys.size ∧
      d.batchSize * d.headNum * s.headValues ≤ operands.values.size ∧
      d.batchSize * d.headNum * s.headScales ≤ operands.valueScale.size ∧ 0 < s.valueBlock ∧
      tasks.foldlM (packHead a d s call) ⟨operands, #[]⟩ = .ok run := by
  simp only [pack, Checked.bind_eq_ok, require_eq_ok, Size.eval_mul_eq_ok, Size.eval_ofNat,
    Except.ok.injEq, exists_and_left, exists_eq_left', exists_eq_left, exists_const, and_assoc] at h
  obtain ⟨-, -, -, -, -, -, hKeys, hValues, hScales, -, -, -, hBlock, hFold⟩ := h
  exact ⟨hKeys, hValues, hScales, hBlock, hFold⟩

/-- What the first phase does to the operands, whatever the order of its tasks is. Each head is
packed by one task, and the parts of the heads lie side by side. -/
theorem pack_rewritten {tasks : List (Assigned HeadTask)} {operands : PackedOperands}
    (hTasks : ∀ assigned ∈ tasks, assigned.task.head < d.headNum)
    (h : pack a d (.ofDims d) call tasks operands = .ok run) :
    Rewritten (fun p => ∃ assigned ∈ tasks, WritesKey a d assigned.task p)
        (fun p x => x = keyAt d call p) operands.keys run.operands.keys ∧
      Rewritten (fun p => ∃ assigned ∈ tasks, WritesValue d assigned.task p)
        (fun p x => x = valueAt d call p) operands.values run.operands.values ∧
      Rewritten (fun p => ∃ assigned ∈ tasks, WritesScale d assigned.task p)
        (fun p x => x = scaleAt d call p) operands.valueScale run.operands.valueScale := by
  obtain ⟨-, -, -, hBlock, hFold⟩ := pack_spec h
  have hKeys := Strides.valueBlock_pos.1 hBlock
  have hStep (assigned : Assigned HeadTask) (hMem : assigned ∈ tasks) (s t : PackingRun)
      (hRun : packHead a d (.ofDims d) call s assigned = .ok t) :=
    packHead_rewritten (hTasks assigned hMem) hKeys hRun
  exact ⟨Rewritten.foldlM (fun s => s.operands.keys)
      (fun assigned hMem s t hRun => (hStep assigned hMem s t hRun).1) hFold,
    Rewritten.foldlM (fun s => s.operands.values)
      (fun assigned hMem s t hRun => (hStep assigned hMem s t hRun).2.1) hFold,
    Rewritten.foldlM (fun s => s.operands.valueScale)
      (fun assigned hMem s t hRun => (hStep assigned hMem s t hRun).2.2) hFold⟩

end Packing

/-- The packed operands hold what the tensors of the call hold, wherever the second phase reads
them. -/
structure PackedFor (d : Dims) (call : Call) (operands : PackedOperands) : Prop where
  keys : ∀ batch h j c, batch < d.batchSize → h < d.headNum → j < pad d.seqK 16 →
    c < d.headSize →
      operands.keys.getD ((batch * d.headNum + h) * (Strides.ofDims d).headKeys +
        (j / 16 * (16 * (Strides.ofDims d).keyDepth) + cell (j % 16) c)) 0 =
      if j < d.seqK then RowMajor.entry d call.keys d.seqK batch j h c else 0
  values : ∀ batch h c k, batch < d.batchSize → h < d.headNum → c < d.headSize →
    k < pad d.seqK 64 →
      operands.values.getD ((batch * d.headNum + h) * (Strides.ofDims d).headValues +
        (c / 16 * (Strides.ofDims d).valueBlock + cell (c % 16) k)) 0 =
      (RowMajor.column d call batch h c).2.getD k 0
  valueScale : ∀ batch h c, batch < d.batchSize → h < d.headNum → c < d.headSize →
    operands.valueScale.getD ((batch * d.headNum + h) * (Strides.ofDims d).headScales + c) 0 =
      (RowMajor.column d call batch h c).1

namespace Packing

variable {a : Attention} {d : Dims} {call : Call} {run : PackingRun}

theorem keyBlock_lt {j : Nat} (hj : j < pad d.seqK 16) : j / 16 < (d.seqK + 15) / 16 := by
  simp only [pad] at hj
  omega

/-- The cells of a key lie inside its block. -/
theorem keyCell_lt (j : Nat) {c : Nat} (hc : c < d.headSize) :
    cell (j % 16) c < 16 * (Strides.ofDims d).keyDepth :=
  cell_lt (Nat.mod_lt _ (by decide)) (Nat.lt_of_lt_of_le hc (le_pad (by decide)))
    (Nat.dvd_trans (by decide) (dvd_pad d.headSize 64))

theorem valueCell_lt (c : Nat) {k : Nat} (hk : k < pad d.seqK 64) :
    cell (c % 16) k < (Strides.ofDims d).valueBlock :=
  cell_lt (Nat.mod_lt _ (by decide)) hk (Nat.dvd_trans (by decide) (dvd_pad d.seqK 64))

/-- When every head has been packed, in whatever order, the operands are ready. What is read of them
later is what the tensors of the call hold. -/
theorem packedFor_pack {tasks : List (Assigned HeadTask)} {operands : PackedOperands}
    (hTasks : (tasks.map (·.task)).Perm (Schedule.headTasks d))
    (h : pack a d (.ofDims d) call tasks operands = .ok run) : PackedFor d call run.operands := by
  have hAll (batch head : Nat) (hBatch : batch < d.batchSize) (hHead : head < d.headNum) :
      ∃ assigned ∈ tasks, assigned.task = ⟨batch, head⟩ :=
    List.mem_map.1 (hTasks.mem_iff.2 (Schedule.mem_headTasks.2 ⟨hBatch, hHead⟩))
  obtain ⟨hKeys, hValues, hScales⟩ := pack_rewritten (fun assigned hMem =>
    (Schedule.mem_headTasks.1 (hTasks.mem_iff.1 (List.mem_map_of_mem hMem))).2) h
  obtain ⟨hUsedKeys, hUsedValues, hUsedScales, -⟩ := pack_spec h
  refine ⟨?_, ?_, ?_⟩
  · intro batch head j c hBatch hHead hj hc
    have hLane : j % 16 < laneCount := Nat.mod_lt _ (by decide)
    have hInside := mul_add_lt_mul (keyBlock_lt hj) (keyCell_lt j hc)
    rw [← Strides.headKeys_eq_blocks] at hInside
    obtain ⟨assigned, hMem, hTask⟩ := hAll batch head hBatch hHead
    rw [hKeys.getD_written (Nat.lt_of_lt_of_le
        (mul_add_lt_mul (mul_add_lt_mul hBatch hHead) hInside) hUsedKeys) ⟨assigned, hMem, ?_⟩ 0,
      keyAt_position (keyBlock_lt hj) (keyCell_lt j hc), keyInBlock, laneAt_cell c hLane,
      depthAt_cell c hLane, mul_add_div_self batch hHead, mul_add_mod_self batch hHead,
      Nat.div_add_mod']
    · simp only [hc, and_true]
    · rw [hTask]
      exact ⟨j / 16, keyBlock_lt hj, cell (j % 16) c,
        cell_lt hLane (Nat.lt_of_lt_of_le hc (le_pad a.keyPacking.width_pos))
          (Nat.dvd_trans a.keyPacking.four_dvd_width (dvd_pad _ _)), rfl⟩
  · intro batch head c k hBatch hHead hc hk
    have hLane : c % 16 < laneCount := Nat.mod_lt _ (by decide)
    have hBlock : c / 16 < (d.headSize + 15) / 16 := by omega
    have hInside := mul_add_lt_mul hBlock (valueCell_lt c hk)
    rw [← Strides.headValues_eq_blocks] at hInside
    obtain ⟨assigned, hMem, hTask⟩ := hAll batch head hBatch hHead
    rw [hValues.getD_written (Nat.lt_of_lt_of_le
        (mul_add_lt_mul (mul_add_lt_mul hBatch hHead) hInside) hUsedValues) ⟨assigned, hMem, ?_⟩ 0,
      valueAt_position hBlock (valueCell_lt c hk), valueInBlock, laneAt_cell k hLane,
      depthAt_cell k hLane, mul_add_div_self batch hHead, mul_add_mod_self batch hHead,
      Nat.div_add_mod', if_pos hc]
    rw [hTask]
    exact ⟨c / 16, hBlock, cell (c % 16) k, valueCell_lt c hk, rfl⟩
  · intro batch head c hBatch hHead hc
    have hInside : c < (Strides.ofDims d).headScales := Nat.lt_of_lt_of_le hc (le_pad (by decide))
    obtain ⟨assigned, hMem, hTask⟩ := hAll batch head hBatch hHead
    rw [hScales.getD_written (Nat.lt_of_lt_of_le
        (mul_add_lt_mul (mul_add_lt_mul hBatch hHead) hInside) hUsedScales) ⟨assigned, hMem, ?_⟩ 0,
      scaleAt, mul_add_div_self _ hInside, mul_add_mod_self _ hInside,
      mul_add_div_self batch hHead, mul_add_mod_self batch hHead, if_pos hc]
    rw [hTask]
    exact ⟨c / 16, by omega, c % 16, Nat.mod_lt _ (by decide), by rw [Nat.div_add_mod']; rfl⟩

end Packing

end QuantAttention
