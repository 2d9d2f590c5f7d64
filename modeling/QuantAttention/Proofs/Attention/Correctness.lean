import QuantAttention.Proofs.Attention.Progress

/-! What calls compute. The output of a call is attention over its row-major tensors, entry by
entry. Packing, padding, blocks, strides, the schedule, the number of workers and what was left in
the buffers do not show in it. -/

namespace QuantAttention

variable {d : Dims} {call : Call}

/-- Of a buffer whose first `n` entries have been written, and whose others were kept, every entry
is known. -/
theorem Rewritten.getElem?_eq {α : Type} {n : Nat} {value : Nat → α} {before after : Array α}
    (h : Rewritten (fun p => p < n) (fun p x => x = value p) before after) (hn : n ≤ before.size)
    (p : Nat) :
    after[p]? = if p < n then (Array.ofFn fun p : Fin n => value p)[p]? else before[p]? := by
  have hSize : n ≤ after.size := h.size_eq ▸ hn
  split
  · next hp =>
    rw [Array.getElem?_ofFn, dif_pos hp, Array.getElem?_eq_getElem (Nat.lt_of_lt_of_le hp hSize),
      h.written p _ hp (Array.getElem?_eq_getElem (Nat.lt_of_lt_of_le hp hSize))]
  · next hp => exact h.kept p hp

theorem Rewritten.extract_eq_ofFn {α : Type} {n : Nat} {value : Nat → α} {before after : Array α}
    (h : Rewritten (fun p => p < n) (fun p x => x = value p) before after) (hn : n ≤ before.size) :
    after.extract 0 n = Array.ofFn fun p : Fin n => value p := by
  apply Array.ext_getElem?
  intro p
  rw [Array.getElem?_extract, Nat.zero_add, h.getElem?_eq hn, h.size_eq, Nat.min_eq_left hn]
  split
  · next hp => exact if_pos hp
  · next hp => rw [Array.getElem?_eq_none (by rw [Array.size_ofFn]; exact Nat.not_lt.1 hp)]

namespace RowMajor

theorem size_row (d : Dims) (call : Call) (batch m : Nat) :
    (row d call batch m).2.size = d.headNum * d.headSize := by
  simp [row, quantizeDynamic]

/-- The rows of a call, numbered through all its batches. -/
theorem rows_eq_ofFn (d : Dims) (call : Call) :
    rows d call = Array.ofFn fun t : Fin (d.batchSize * d.seqQ) =>
      row d call (t / d.seqQ) (t % d.seqQ) := by
  apply Array.ext <;> simp [rows]

/-- The scales of the row-major output, position by position, as the tasks write them. -/
theorem outputScale_eq_ofFn (d : Dims) (call : Call) :
    outputScale d call = Array.ofFn fun p : Fin (d.batchSize * d.seqQ) =>
      Attending.outputScaleAt d call p := by
  rw [outputScale, rows_eq_ofFn, Array.map_ofFn]
  rfl

/-- The entries of the row-major output, position by position. All rows are equally long, so a
position tells its row. -/
theorem output_eq_ofFn (d : Dims) (call : Call) :
    output d call = Array.ofFn fun p : Fin (d.batchSize * d.seqQ * (d.headNum * d.headSize)) =>
      Attending.outputAt d call p := by
  have hRows : (rows d call).map (·.2) = Array.ofFn fun t : Fin (d.batchSize * d.seqQ) =>
      Array.ofFn fun c : Fin (d.headNum * d.headSize) =>
        (row d call (t / d.seqQ) (t % d.seqQ)).2.getD c 0 := by
    rw [rows_eq_ofFn, Array.map_ofFn]
    congr 1
    funext t
    apply Array.ext
    · simp [size_row]
    · intro c h₁ h₂
      have hc : c < (row d call (t / d.seqQ) (t % d.seqQ)).2.size := h₁
      rw [Array.getElem_ofFn, Array.getD_eq_getD_getElem?, Array.getElem?_eq_getElem hc]
      rfl
  rw [output, hRows, flatten_ofFn _ _ fun t c => (row d call (t / d.seqQ) (t % d.seqQ)).2.getD c 0]
  rfl

end RowMajor

namespace Attention

variable {a : Attention} {schedule : Dims → Schedule} {memory : Memory}
  {registers : TileRegisters} {o : Outcome}

/-- What a call that has something to compute leaves in the output, if it succeeds. Whoever ran
which task in which order, every position of the output is written and holds its entry. -/
theorem execute_written (hDims : a.dims.resolve call.dims = .ok d)
    (hProper : d.isDegenerate = false) (hSchedule : (schedule d).Valid d a.threads)
    (hRun : a.execute schedule call memory registers = .ok o) (hOk : o.result = .ok ()) :
    (o.memory.output.extract 0 (d.batchSize * d.seqQ * (d.headNum * d.headSize)) =
        Array.ofFn fun p : Fin (d.batchSize * d.seqQ * (d.headNum * d.headSize)) =>
          Attending.outputAt d call p) ∧
      o.memory.outputScale.extract 0 (d.batchSize * d.seqQ) =
        Array.ofFn fun p : Fin (d.batchSize * d.seqQ) => Attending.outputScaleAt d call p := by
  obtain ⟨regions, -, hFits, hCompute⟩ := exists_compute hDims hProper hRun hOk
  obtain ⟨-, hOutput, hScale⟩ := compute_rewritten hSchedule hFits.mask hCompute
  exact ⟨hOutput.extract_eq_ofFn hFits.output, hScale.extract_eq_ofFn hFits.outputScale⟩

/-- An operator for one query and three keys in two heads of two columns. -/
def small (threads : Nat) : Attention where
  dims := ⟨1, 2, 1, 3, 2⟩
  threads := threads
  releaseTiles := true
  keyPacking := .wide

/-- A call of the small operator, with a mask around `bias`. -/
def smallCall (bias : Binary32) : Call where
  queries := #[1, -2, 3, 4]
  keys := #[1, 2, 3, 4, 5, 6, 7, 8, -9, 10, -11, 12]
  values := #[127, -128, 3, 4, 50, 60, 7, -8, 9, 10, 11, 12]
  mask := #[bias, bias, bias - .ofInt 1]
  queryScale := #[.ofInt 1 / .ofInt 8]
  keyScale := #[.ofInt 1 / .ofInt 2, .ofInt 1 / .ofInt 4, .ofInt 1]
  valueScale := #[.ofInt 1, .ofInt 1 / .ofInt 2, .ofInt 2]
  dims := {}

/-- Memory for the small operator, filled with one byte and longer than it needs to be. -/
def smallMemory (threads : Nat) (byte : UInt8) : Memory where
  output := Array.replicate 5 byte.toInt8
  outputScale := Array.replicate 2 (.ofBytes fun _ => byte)
  workspace := ⟨0, Array.replicate (Layout.bytesFor ⟨1, 2, 1, 3, 2⟩ threads + 3) byte⟩

theorem problems_small (threads : Nat) (bias : Binary32) (byte : UInt8) :
    (small threads).problems (smallCall bias) (smallMemory threads byte) = [] := by
  have hBuffers : shortBuffers ⟨1, 2, 1, 3, 2⟩ (smallCall bias) (smallMemory threads byte) = [] := by
    simp [shortBuffers, shortage, smallCall, smallMemory]
  have hWorkspace : workspaceProblems ⟨1, 2, 1, 3, 2⟩ threads
      (smallMemory threads byte).workspace = [] := by
    simp [workspaceProblems, smallMemory]
  rw [problems, show (small threads).dims.filled (smallCall bias).dims = ⟨1, 2, 1, 3, 2⟩ from rfl,
    show (small threads).dims.missing (smallCall bias).dims = [] from rfl, hBuffers]
  exact hWorkspace

/-- For few workers no size of the small problem comes near its limit. -/
theorem inRange_small {threads : Nat} (hPositive : 0 < threads) (hFew : threads ≤ 8) :
    InRange ⟨1, 2, 1, 3, 2⟩ threads := by
  have hBytes : Layout.bytesFor ⟨1, 2, 1, 3, 2⟩ threads = 17152 + 8192 * threads := by
    simp only [Layout.bytesFor, Layout.ofDims, Layout.packedBytes, Layout.numberBytes, pad]
    omega
  exact {
    batchSize_pos := by decide, headNum_pos := by decide, seqQ_pos := by decide
    seqK_pos := by decide, headSize_pos := by decide, threads_pos := hPositive
    seqK_padded := by decide, headSize_padded := by decide, queries := by decide
    keys := by decide
    bytes := by simp only [hBytes, Size.limit]; omega }

/-- The small call succeeds for few workers, in every order of its tasks. It is the call at which
general statements are tried. -/
theorem exists_small {threads : Nat} (hPositive : 0 < threads) (hFew : threads ≤ 8)
    (bias : Binary32) (byte : UInt8)
    (hSchedule : (schedule ⟨1, 2, 1, 3, 2⟩).Valid ⟨1, 2, 1, 3, 2⟩ threads) :
    ∃ o, (small threads).execute schedule (smallCall bias) (smallMemory threads byte)
      (.initial 9 1) = .ok o ∧ o.result = .ok () := by
  refine exists_execute (d := ⟨1, 2, 1, 3, 2⟩) rfl (inRange_small hPositive hFew)
    (problems_small threads bias byte) ?_ rfl hSchedule (by decide)
  simp [small, TileRegisters.initial]
  omega

/-- A call that succeeds computes attention over its row-major tensors. The two agree bit for bit,
also where numbers are infinite or none at all. -/
theorem execute_eq_rowMajor (hDims : a.dims.resolve call.dims = .ok d)
    (hProper : d.isDegenerate = false) (hSchedule : (schedule d).Valid d a.threads)
    (hRun : a.execute schedule call memory registers = .ok o) (hOk : o.result = .ok ()) :
    o.memory.output.extract 0 (d.batchSize * d.seqQ * d.headNum * d.headSize) =
        RowMajor.output d call ∧
      o.memory.outputScale.extract 0 (d.batchSize * d.seqQ) = RowMajor.outputScale d call := by
  obtain ⟨hOutput, hScale⟩ := execute_written hDims hProper hSchedule hRun hOk
  rw [Nat.mul_assoc (d.batchSize * d.seqQ), RowMajor.output_eq_ofFn, RowMajor.outputScale_eq_ofFn]
  exact ⟨hOutput, hScale⟩

/-- What two heads of the small call come to. The output of the second head is that of its own keys
and values, under the scale of both. -/
theorem execute_eq_rowMajor_small :
    ∃ o, (small 2).execute Schedule.inOrder (smallCall 0) (smallMemory 2 255) (.initial 9 1) = .ok o ∧
      o.result = .ok () ∧ o.memory.output.extract 0 4 = #[127, -82, 11, 7] ∧
      o.memory.outputScale.extract 0 1 = #[⟨1058700870⟩] := by
  have hSchedule := Schedule.valid_inOrder ⟨1, 2, 1, 3, 2⟩ (by decide : 0 < 2)
  obtain ⟨o, hRun, hOk⟩ := exists_small (by decide) (by decide) 0 255 hSchedule
  obtain ⟨hOutput, hScale⟩ :=
    execute_eq_rowMajor (d := ⟨1, 2, 1, 3, 2⟩) rfl rfl hSchedule hRun hOk
  have hRow : RowMajor.output ⟨1, 2, 1, 3, 2⟩ (smallCall 0) = #[127, -82, 11, 7] ∧
      RowMajor.outputScale ⟨1, 2, 1, 3, 2⟩ (smallCall 0) = #[⟨1058700870⟩] := by
    decide +kernel
  exact ⟨o, hRun, hOk, hOutput.trans hRow.1, hScale.trans hRow.2⟩

/-- Where there is nothing to compute, a call that succeeds leaves the memory as it was. -/
theorem memory_of_degenerate (hDims : a.dims.resolve call.dims = .ok d)
    (hDegenerate : d.isDegenerate = true)
    (hRun : a.execute schedule call memory registers = .ok o) : o.memory = memory := by
  obtain rfl := Dims.filled_of_resolve hDims
  rcases execute_result hRun with ⟨e, -, rfl⟩ | ⟨-, -, hNothing⟩
  · rfl
  · rw [hNothing hDegenerate]
    rfl

structure SameTensors (left right : Call) : Prop where
  queries : left.queries = right.queries
  keys : left.keys = right.keys
  values : left.values = right.values
  mask : left.mask = right.mask
  queryScale : left.queryScale = right.queryScale
  keyScale : left.keyScale = right.keyScale
  valueScale : left.valueScale = right.valueScale

/-- What a call computes does not depend on how its dimensions were given. Only the numbers in its
tensors count. -/
theorem written_congr {left right : Call} (h : SameTensors left right) :
    Attending.outputAt d left = Attending.outputAt d right ∧
      Attending.outputScaleAt d left = Attending.outputScaleAt d right := by
  obtain ⟨queries, keys, values, mask, queryScale, keyScale, valueScale, called⟩ := left
  obtain ⟨rfl, rfl, rfl, rfl, rfl, rfl, rfl⟩ := h
  exact ⟨rfl, rfl⟩

/-- Two calls that succeed with the same tensors and dimensions leave the same output, whatever the
operators, their numbers of workers and schedules, and whatever stands in memory and registers when
they begin. -/
theorem execute_output_unique {a₁ a₂ : Attention} {schedule₁ schedule₂ : Dims → Schedule}
    {call₁ call₂ : Call} {memory₁ memory₂ : Memory} {registers₁ registers₂ : TileRegisters}
    {o₁ o₂ : Outcome} (hTensors : SameTensors call₁ call₂)
    (hDims₁ : a₁.dims.resolve call₁.dims = .ok d) (hDims₂ : a₂.dims.resolve call₂.dims = .ok d)
    (hSchedule₁ : (schedule₁ d).Valid d a₁.threads) (hSchedule₂ : (schedule₂ d).Valid d a₂.threads)
    (hRun₁ : a₁.execute schedule₁ call₁ memory₁ registers₁ = .ok o₁)
    (hRun₂ : a₂.execute schedule₂ call₂ memory₂ registers₂ = .ok o₂)
    (hOk₁ : o₁.result = .ok ()) (hOk₂ : o₂.result = .ok ()) :
    if d.isDegenerate then o₁.memory = memory₁ ∧ o₂.memory = memory₂
    else
      o₁.memory.output.extract 0 (d.batchSize * d.seqQ * d.headNum * d.headSize) =
          o₂.memory.output.extract 0 (d.batchSize * d.seqQ * d.headNum * d.headSize) ∧
        o₁.memory.outputScale.extract 0 (d.batchSize * d.seqQ) =
          o₂.memory.outputScale.extract 0 (d.batchSize * d.seqQ) := by
  split
  · next hDegenerate =>
    exact ⟨memory_of_degenerate hDims₁ hDegenerate hRun₁,
      memory_of_degenerate hDims₂ hDegenerate hRun₂⟩
  · next hProper =>
    rw [Bool.not_eq_true] at hProper
    obtain ⟨hOutput₁, hScale₁⟩ := execute_written hDims₁ hProper hSchedule₁ hRun₁ hOk₁
    obtain ⟨hOutput₂, hScale₂⟩ := execute_written hDims₂ hProper hSchedule₂ hRun₂ hOk₂
    obtain ⟨hOutput, hScale⟩ := written_congr (d := d) hTensors
    rw [Nat.mul_assoc (d.batchSize * d.seqQ), hOutput₁, hOutput₂, hScale₁, hScale₂, hOutput, hScale]
    exact ⟨rfl, rfl⟩

/-- All tasks on the second worker, the last of them first. -/
def backwards (d : Dims) : Schedule where
  heads := ((Schedule.headTasks d).map (Assigned.mk 1)).reverse
  rows := ((Schedule.rowTasks d).map (Assigned.mk 1)).reverse

theorem valid_backwards (d : Dims) {threads : Nat} (h : 1 < threads) :
    (backwards d).Valid d threads where
  heads_perm := by simp [backwards, List.map_reverse, Function.comp_def, List.reverse_perm]
  rows_perm := by simp [backwards, List.map_reverse, Function.comp_def, List.reverse_perm]
  heads_worker := by simp [backwards, h]
  rows_worker := by simp [backwards, h]

/-- One worker in order and three workers in reverse, over memories with different contents. Both
leave the same numbers. -/
theorem execute_output_unique_small :
    ∃ o₁ o₂, (small 1).execute Schedule.inOrder (smallCall 0) (smallMemory 1 0) (.initial 9 1) =
        .ok o₁ ∧
      (small 3).execute backwards (smallCall 0) (smallMemory 3 255) (.initial 9 1) = .ok o₂ ∧
      o₁.memory.output.extract 0 4 = o₂.memory.output.extract 0 4 ∧
      o₁.memory.outputScale.extract 0 1 = o₂.memory.outputScale.extract 0 1 := by
  have hSchedule₁ := Schedule.valid_inOrder ⟨1, 2, 1, 3, 2⟩ (by decide : 0 < 1)
  have hSchedule₂ := valid_backwards ⟨1, 2, 1, 3, 2⟩ (by decide : 1 < 3)
  obtain ⟨o₁, hRun₁, hOk₁⟩ := exists_small (by decide) (by decide) 0 0 hSchedule₁
  obtain ⟨o₂, hRun₂, hOk₂⟩ := exists_small (by decide) (by decide) 0 255 hSchedule₂
  exact ⟨o₁, o₂, hRun₁, hRun₂,
    execute_output_unique (d := ⟨1, 2, 1, 3, 2⟩) ⟨rfl, rfl, rfl, rfl, rfl, rfl, rfl⟩ rfl rfl
      hSchedule₁ hSchedule₂ hRun₁ hRun₂ hOk₁ hOk₂⟩

end Attention

end QuantAttention
