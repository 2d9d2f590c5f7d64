import QuantAttention.Proofs.Attention.Correctness
import QuantAttention.Proofs.Softmax

/-! Columns behind the last key. Their score is a fixed number, and the exponential of that is small
but not zero, so whether they have a share of the probability of a row is a matter of the sum of the
row. -/

namespace QuantAttention

namespace Binary32

/-- Zero times any finite number is a zero, which a number other than zero absorbs. With an infinite
scale the product would be no number. -/
theorem zero_mul_add {x : Binary32} (hFinite : x.isFinite = true) :
    ofInt 0 * x * 0 + maskPadding = maskPadding := by
  rw [mul_comm (ofInt 0), show ofInt 0 = 0 from rfl, mul_zero_of_isFinite hFinite]
  cases x.negative <;> decide

end Binary32

/-- The exponential of the score of a column without a key. -/
def paddingWeight : Binary32 := approxExp maskPadding

/-- The byte that a column without a key gets in a row with the given sum. -/
def paddingShare (total : Binary32) : UInt8 := share paddingWeight total

/-- The greatest sum of which such a column has a share. -/
def paddingLimit : Binary32 := .ofInt 510 * paddingWeight

theorem positive_paddingWeight : paddingWeight.Positive := by decide +kernel

theorem positive_paddingLimit : paddingLimit.Positive := by decide +kernel

/-- A greater sum leaves no greater share, which makes one comparison with the limit enough. -/
theorem paddingShare_antitone {s t : Binary32} (h : s.Ordered t) (hPos : 0 < s.code) :
    paddingShare t ≤ paddingShare s := share_antitone positive_paddingWeight h hPos

def abovePaddingLimit : Binary32 := .ofCode false (paddingLimit.code + 1)

/-- The share of such a column falls as the sum grows, so there is a greatest sum with a share. It
is 510 times the exponential: of half a byte and more something is stored. -/
theorem paddingShare_eq_zero_iff (total : Binary32) :
    paddingShare total = 0 ↔
      ¬(Binary32.lt 0 total = true ∧ Binary32.le total paddingLimit = true) := by
  by_cases hPos : Binary32.lt 0 total = true
  · obtain ⟨hSign, hCode, hNumber⟩ := Binary32.zero_lt_iff.1 hPos
    have hLimit := positive_paddingLimit
    rw [hLimit.le_iff hPos]
    constructor
    · rintro hZero ⟨-, hBelow⟩
      have hShare := paddingShare_antitone
        ⟨hSign, hLimit.sign, hBelow, Nat.le_of_lt hLimit.finite⟩ hCode
      rw [hZero] at hShare
      exact absurd hShare (by decide +kernel)
    · intro hNot
      have hAbove : paddingLimit.code < total.code := Nat.lt_of_not_le fun h => hNot ⟨hPos, h⟩
      have hNext : abovePaddingLimit.Positive := by decide +kernel
      have hNextCode : abovePaddingLimit.code = paddingLimit.code + 1 := by decide +kernel
      have hShare : paddingShare total ≤ paddingShare abovePaddingLimit :=
        paddingShare_antitone ⟨hNext.sign, hSign, by rw [hNextCode]; omega, hNumber⟩ hNext.code_pos
      have hVanished : paddingShare abovePaddingLimit = 0 := by decide +kernel
      rw [hVanished] at hShare
      exact UInt8.le_antisymm hShare (UInt8.zero_le)
  · have hNothing : paddingShare total = 0 := by
      rw [paddingShare, share, sumInverse, if_neg hPos]
      decide +kernel
    exact ⟨fun _ hBoth => hPos hBoth.1, fun _ => hNothing⟩

namespace RowMajor

variable {d : Dims} {call : Call} {batch m h c : Nat}

def total (d : Dims) (call : Call) (batch m h : Nat) : Binary32 :=
  weightSum ((List.range (pad d.seqK 16)).map (score d call batch m h))

/-- The score of a column without a key is the mask's padding, if the scale of the query is finite.
Otherwise zero times the scale is no number. -/
theorem score_padding (hc : d.seqK ≤ c)
    (hFinite : (call.queryScale.getD (batch * d.seqQ + m) 0).isFinite = true) :
    score d call batch m h c = maskPadding := by
  rw [score, if_neg (Nat.not_lt.2 hc)]
  exact Binary32.zero_mul_add hFinite

/-- Every column without a key gets the same byte, and it depends on the sum of the row only. Keys
have a part in it through that sum. -/
theorem getD_probabilities_padding (hc : d.seqK ≤ c) (hPad : c < pad d.seqK 16)
    (hFinite : (call.queryScale.getD (batch * d.seqQ + m) 0).isFinite = true) :
    (probabilities d call batch m h).getD c 0 = paddingShare (total d call batch m h) := by
  rw [probabilities, getD_softmax_ofFn (score d call batch m h) hPad, score_padding hc hFinite]
  rfl

end RowMajor

namespace Attention

variable {a : Attention} {d : Dims} {call : Call} {memory : Memory} {registers : TileRegisters}
  {schedule : Dims → Schedule} {assigned : Assigned RowTask} {run : AttendingRun}

/-- In the second phase of a call, `run` is the state right after the task `assigned`. -/
def HasRun (a : Attention) (schedule : Dims → Schedule) (call : Call) (memory : Memory)
    (registers : TileRegisters) (assigned : Assigned RowTask) (run : AttendingRun) : Prop :=
  ∃ layout regions prepared done rest before,
    a.preflight call memory = .ok (.ok (layout, regions)) ∧
    layout.dims.isDegenerate = false ∧
    a.prepare (schedule layout.dims).heads call layout regions memory registers = .ok prepared ∧
    (schedule layout.dims).rows = done ++ assigned :: rest ∧
    done.foldlM (Attending.attendBlock layout.dims prepared.strides call prepared.mask.rows
      prepared.operands) prepared.run = .ok before ∧
    Attending.attendBlock layout.dims prepared.strides call prepared.mask.rows prepared.operands
      before assigned = .ok run

/-- A call that succeeds and has something to compute runs all its tasks, so there is a state right
after each of them. -/
theorem exists_hasRun {o : Outcome} (hDims : a.dims.resolve call.dims = .ok d)
    (hProper : d.isDegenerate = false)
    (hRun : a.execute schedule call memory registers = .ok o) (hOk : o.result = .ok ())
    (hTask : assigned ∈ (schedule d).rows) :
    ∃ run, HasRun a schedule call memory registers assigned run := by
  obtain ⟨regions, hPreflight, -, hRun⟩ := exists_compute hDims hProper hRun hOk
  obtain ⟨prepared, hPrepare, hRun⟩ := Checked.bind_eq_ok.1 hRun
  obtain ⟨last, hAttend, -⟩ := Checked.bind_eq_ok.1 hRun
  have hFold := (Attending.foldlM_of_attend hAttend).2
  obtain ⟨done, rest, hSplit⟩ := List.append_of_mem hTask
  rw [hSplit, List.foldlM_append, Checked.bind_eq_ok] at hFold
  obtain ⟨before, hDone, hFold⟩ := hFold
  rw [List.foldlM_cons, Checked.bind_eq_ok] at hFold
  obtain ⟨run, hStep, -⟩ := hFold
  exact ⟨run, _, regions, prepared, done, rest, before, hPreflight, hProper, hPrepare, hSplit,
    hDone, hStep⟩

/-- After its task a worker has the probabilities of the task in its scratch, where they stay until
its next task. -/
theorem scratchFor_hasRun (hDims : a.dims.resolve call.dims = .ok d)
    (hSchedule : (schedule d).Valid d a.threads)
    (h : HasRun a schedule call memory registers assigned run) :
    ∃ scratch, run.pool.sessions.scratch (.worker assigned.worker) = .ok scratch ∧
      Attending.ScratchFor d call assigned.task scratch := by
  obtain ⟨layout, regions, prepared, done, rest, before, hPreflight, -, hPrepare, hSplit, -,
    hStep⟩ := h
  obtain ⟨-, rfl, hFits, -⟩ := preflight_accepted hPreflight
  obtain rfl := Dims.filled_of_resolve hDims
  have hReady := ready_prepare hSchedule.heads_perm hFits.mask hPrepare
  rw [hReady.strides] at hStep
  have hListed : assigned.task ∈ Schedule.rowTasks (a.dims.filled call.dims) := by
    refine hSchedule.rows_perm.mem_iff.1 (List.mem_map_of_mem ?_)
    rw [show (schedule (a.dims.filled call.dims)).rows = done ++ assigned :: rest from hSplit]
    exact List.mem_append_right _ List.mem_cons_self
  exact (Attending.attendBlock_rewritten hReady.packed hReady.mask
    (Schedule.mem_rowTasks.1 hListed).1 hStep).1

/-- Where the probability of query `m` in column `c` of head `h` stands in a scratch. -/
def probabilityPosition (d : Dims) (m h c : Nat) : Nat :=
  h * (16 * (Strides.ofDims d).rowLength) + (m % blockRows * (Strides.ofDims d).rowLength + c)

/-- The task of a query stores its probabilities in the row of the scratch that belongs to it. The
scratch is that of the worker that runs the task. -/
theorem stored_probability {batch m h c : Nat} (hDims : a.dims.resolve call.dims = .ok d)
    (hSchedule : (schedule d).Valid d a.threads) (hm : m < d.seqQ) (hh : h < d.headNum)
    (hPad : c < pad d.seqK 16) {worker : Nat}
    (hRun : HasRun a schedule call memory registers ⟨worker, ⟨batch, m / blockRows⟩⟩ run) :
    ∃ scratch, run.pool.sessions.scratch (.worker worker) = .ok scratch ∧
      scratch[probabilityPosition d m h c]? =
        some ((RowMajor.probabilities d call batch m h).getD c 0) := by
  obtain ⟨scratch, hScratch, hFilled⟩ := scratchFor_hasRun hDims hSchedule hRun
  have hSplit : m / blockRows * blockRows + m % blockRows = m := Nat.div_add_mod' m blockRows
  have hr : m % blockRows < Attending.rowCount d ⟨batch, m / blockRows⟩ := by
    simp only [Attending.rowCount, blockRows] at hSplit ⊢
    omega
  have hStored := hFilled h (m % blockRows) c hh hr (Nat.lt_of_lt_of_le hPad (pad_le_pad_64 _).2)
  rw [hSplit] at hStored
  exact ⟨scratch, hScratch, hStored⟩

/-- A task that attends for query `m` stores zero for a column without a key unless the sum of the
row is positive and at most 510 times the exponential of such a column. -/
theorem stored_padding_eq_zero_iff {batch m h c : Nat} (hDims : a.dims.resolve call.dims = .ok d)
    (hProper : d.isDegenerate = false) (hSchedule : (schedule d).Valid d a.threads)
    (hBatch : batch < d.batchSize) (hm : m < d.seqQ) (hh : h < d.headNum) (hc : d.seqK ≤ c)
    (hPad : c < pad d.seqK 16)
    (hFinite : (call.queryScale.getD (batch * d.seqQ + m) 0).isFinite = true) :
    (∀ o, a.execute schedule call memory registers = .ok o → o.result = .ok () →
        ∃ worker run,
          HasRun a schedule call memory registers ⟨worker, ⟨batch, m / blockRows⟩⟩ run) ∧
      ∀ worker run,
        HasRun a schedule call memory registers ⟨worker, ⟨batch, m / blockRows⟩⟩ run →
        ∃ scratch byte, run.pool.sessions.scratch (.worker worker) = .ok scratch ∧
          scratch[probabilityPosition d m h c]? = some byte ∧
          (byte = 0 ↔ ¬(Binary32.lt 0 (RowMajor.total d call batch m h) = true ∧
            Binary32.le (RowMajor.total d call batch m h) paddingLimit = true)) := by
  constructor
  · intro o hRun hOk
    have hListed : ⟨batch, m / blockRows⟩ ∈ Schedule.rowTasks d := by
      refine Schedule.mem_rowTasks.2 ⟨hBatch, ?_⟩
      simp only [Schedule.blockCount, blockRows]
      omega
    obtain ⟨⟨worker, task⟩, hMem, hTask⟩ :=
      List.mem_map.1 (hSchedule.rows_perm.mem_iff.2 hListed)
    obtain rfl : task = ⟨batch, m / blockRows⟩ := hTask
    exact ⟨worker, exists_hasRun hDims hProper hRun hOk hMem⟩
  · intro worker run hRun
    obtain ⟨scratch, hScratch, hStored⟩ := stored_probability hDims hSchedule hm hh hPad hRun
    rw [RowMajor.getD_probabilities_padding hc hPad hFinite] at hStored
    exact ⟨scratch, _, hScratch, hStored, paddingShare_eq_zero_iff _⟩

/-- With a mask near zero nothing is stored for the first column behind the last of three keys: the
sum of such a row is far above the limit. -/
theorem stored_padding_eq_zero_small :
    ∃ worker run scratch,
      HasRun (small 2) Schedule.inOrder (smallCall 0) (smallMemory 2 255) (.initial 9 1)
        ⟨worker, ⟨0, 0⟩⟩ run ∧
      run.pool.sessions.scratch (.worker worker) = .ok scratch ∧
      scratch[probabilityPosition ⟨1, 2, 1, 3, 2⟩ 0 0 3]? = some 0 := by
  have hSchedule := Schedule.valid_inOrder ⟨1, 2, 1, 3, 2⟩ (by decide : 0 < 2)
  obtain ⟨o, hRun, hOk⟩ := exists_small (by decide) (by decide) 0 255 hSchedule
  obtain ⟨hReached, hStored⟩ := stored_padding_eq_zero_iff (d := ⟨1, 2, 1, 3, 2⟩) (a := small 2)
    rfl rfl hSchedule (by decide : 0 < 1) (by decide : 0 < 1) (by decide : 0 < 2)
    (by decide : 3 ≤ 3) (by decide) (by decide : ((smallCall 0).queryScale.getD 0 0).isFinite = true)
  obtain ⟨worker, run, hHasRun⟩ := hReached o hRun hOk
  obtain ⟨scratch, byte, hScratch, hByte, hIff⟩ := hStored worker run hHasRun
  obtain rfl := hIff.2 (by decide +kernel)
  exact ⟨worker, run, scratch, hHasRun, hScratch, hByte⟩

/-- Where the mask bars all keys, the columns behind them get shares, though all numbers that the
call reads are finite. -/
theorem stored_padding_ne_zero_of_low_mask :
    (∀ x ∈ (smallCall (.ofInt (-2000))).mask ++ (smallCall (.ofInt (-2000))).queryScale ++
        (smallCall (.ofInt (-2000))).keyScale ++ (smallCall (.ofInt (-2000))).valueScale,
      x.isFinite = true) ∧
    (∃ o, (small 2).execute Schedule.inOrder (smallCall (.ofInt (-2000))) (smallMemory 2 255)
      (.initial 9 1) = .ok o ∧ o.result = .ok ()) ∧
    ∃ run scratch,
      HasRun (small 2) Schedule.inOrder (smallCall (.ofInt (-2000))) (smallMemory 2 255)
        (.initial 9 1) ⟨0, ⟨0, 0⟩⟩ run ∧
      run.pool.sessions.scratch (.worker 0) = .ok scratch ∧
      scratch[probabilityPosition ⟨1, 2, 1, 3, 2⟩ 0 0 3]? = some 16 := by
  have hSchedule := Schedule.valid_inOrder ⟨1, 2, 1, 3, 2⟩ (by decide : 0 < 2)
  obtain ⟨o, hRun, hOk⟩ := exists_small (by decide) (by decide) (.ofInt (-2000)) 255 hSchedule
  have hListed : ⟨0, ⟨0, 0⟩⟩ ∈ (Schedule.inOrder ⟨1, 2, 1, 3, 2⟩).rows := by decide
  obtain ⟨run, hHasRun⟩ := exists_hasRun (d := ⟨1, 2, 1, 3, 2⟩) rfl rfl hRun hOk hListed
  obtain ⟨scratch, hScratch, hStored⟩ := stored_probability (d := ⟨1, 2, 1, 3, 2⟩) (c := 3) rfl
    hSchedule (by decide : 0 < 1) (by decide : 0 < 2) (by decide) hHasRun
  have hByte : (RowMajor.probabilities ⟨1, 2, 1, 3, 2⟩ (smallCall (.ofInt (-2000))) 0 0 0).getD 3 0 =
      16 := by decide +kernel
  rw [hByte] at hStored
  exact ⟨by decide, ⟨o, hRun, hOk⟩, run, scratch, hHasRun, hScratch, hStored⟩

end Attention

end QuantAttention
