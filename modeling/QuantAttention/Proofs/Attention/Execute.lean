import QuantAttention.Attention.Execute
import QuantAttention.Proofs.Attention.Attending
import QuantAttention.Proofs.Attention.Preflight

/-! A whole call. Either it ends with the first of its problems and nothing has changed, or both
phases run, and what they leave in the output is told by the tensors of the call alone. -/

namespace QuantAttention

namespace Attention

variable {a : Attention} {d : Dims} {call : Call} {memory : Memory} {registers : TileRegisters}
  {regions : WorkspaceRegions} {o : Outcome}

/-- How a call that returns went: its check named a problem, or there was nothing to compute, or
both phases ran to their ends. -/
theorem execute_cases {schedule : Dims → Schedule}
    (h : a.execute schedule call memory registers = .ok o) :
    match (a.problems call memory).head? with
    | some e => o = idle (.error e) memory registers
    | none =>
      let d := a.dims.filled call.dims
      if d.isDegenerate then o = idle (.ok ()) memory registers
      else Fits d call memory ∧ ∃ regions,
        a.compute (schedule d) call (Layout.ofDims d a.threads) regions memory registers = .ok o := by
  obtain ⟨answer, hPreflight, h⟩ := Checked.bind_eq_ok.1 h
  have hCases := preflight_cases hPreflight
  cases hProblems : (a.problems call memory).head? with
  | some e =>
      rw [hProblems] at hCases
      obtain rfl := hCases
      cases h
      rfl
  | none =>
      rw [hProblems] at hCases
      obtain ⟨hFits, regions, rfl, -⟩ := hCases
      change (if (a.dims.filled call.dims).isDegenerate = true then _ else _) = _ at h
      by_cases hDegenerate : (a.dims.filled call.dims).isDegenerate = true
      · rw [if_pos hDegenerate] at h ⊢
        cases h
        rfl
      · rw [if_neg hDegenerate] at h ⊢
        exact ⟨hFits, regions, h⟩

/-- A call that succeeds and has something to compute has passed the check and run both phases. This
is where statements about such calls start. -/
theorem exists_compute {schedule : Dims → Schedule} (hDims : a.dims.resolve call.dims = .ok d)
    (hProper : d.isDegenerate = false)
    (hRun : a.execute schedule call memory registers = .ok o) (hOk : o.result = .ok ()) :
    ∃ regions, a.preflight call memory = .ok (.ok (Layout.ofDims d a.threads, regions)) ∧
      Fits d call memory ∧
      a.compute (schedule d) call (Layout.ofDims d a.threads) regions memory registers = .ok o := by
  obtain ⟨answer, hPreflight, hRun⟩ := Checked.bind_eq_ok.1 hRun
  cases answer with
  | error e =>
      cases hRun
      cases hOk
  | ok found =>
      obtain ⟨layout, regions⟩ := found
      obtain ⟨-, rfl, hFits, -⟩ := preflight_accepted hPreflight
      obtain rfl := Dims.filled_of_resolve hDims
      change (if (a.dims.filled call.dims).isDegenerate = true then _ else _) = _ at hRun
      rw [if_neg (by simp [hProper])] at hRun
      exact ⟨regions, hPreflight, hFits, hRun⟩

structure Ready (d : Dims) (call : Call) (memory : Memory) (p : Prepared) : Prop where
  strides : p.strides = .ofDims d
  packed : PackedFor d call p.operands
  mask : Attending.MaskFor d call p.mask.rows
  output : p.run.output = memory.output
  outputScale : p.run.outputScale = memory.outputScale

/-- What the first phase and the preparation of the mask hand over to the second: the strides of the
dimensions, packed operands and padded rows of the mask. -/
theorem ready_prepare {tasks : List (Assigned HeadTask)} {threads : Nat} {p : Prepared}
    (hTasks : (tasks.map (·.task)).Perm (Schedule.headTasks d))
    (hMask : d.batchSize * d.seqK ≤ call.mask.size)
    (h : a.prepare tasks call (Layout.ofDims d threads) regions memory registers = .ok p) :
    Ready d call memory p := by
  simp only [prepare, Checked.bind_eq_ok, Checked.pure_eq_ok] at h
  obtain ⟨perWorker, -, sessions, -, strides, hStrides, packing, hPacking, mask, hPrepared, rfl⟩ := h
  obtain rfl := Layout.strides_eq_ofDims hStrides
  exact {
    strides := rfl
    packed := Packing.packedFor_pack hTasks hPacking
    mask := fun b c hb hc => PreparedMask.getD_rows_prepare hMask hPrepared hb hc
    output := rfl
    outputScale := rfl }

/-- What a call leaves in the output and in its scales. Both phases are behind it, so neither what
the workspace held before nor the order of the tasks can be seen. -/
theorem compute_rewritten {schedule : Schedule} (hSchedule : schedule.Valid d a.threads)
    (hMask : d.batchSize * d.seqK ≤ call.mask.size)
    (h : a.compute schedule call (Layout.ofDims d a.threads) regions memory registers = .ok o) :
    o.result = .ok () ∧
      Rewritten (fun p => p < d.batchSize * d.seqQ * (Strides.ofDims d).token)
        (fun p x => x = Attending.outputAt d call p) memory.output o.memory.output ∧
      Rewritten (fun p => p < d.batchSize * d.seqQ)
        (fun p x => x = Attending.outputScaleAt d call p) memory.outputScale
        o.memory.outputScale := by
  simp only [compute, Checked.bind_eq_ok, Checked.pure_eq_ok] at h
  obtain ⟨p, hPrepare, run, hAttend, pool, -, rfl⟩ := h
  have hReady := ready_prepare hSchedule.heads_perm hMask hPrepare
  rw [hReady.strides] at hAttend
  have hWritten := Attending.attend_rewritten hReady.packed hReady.mask hSchedule.rows_perm hAttend
  rw [hReady.output, hReady.outputScale] at hWritten
  exact ⟨rfl, hWritten⟩

end Attention

end QuantAttention
