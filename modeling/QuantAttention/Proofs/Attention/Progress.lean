import QuantAttention.Proofs.Attention.Execute
import QuantAttention.Proofs.Attention.Progress.Attending
import QuantAttention.Proofs.Attention.Rejection

/-! Once the check of a call has passed, nothing but a product of queries and keys that outgrows its
accumulator keeps the call from returning, whatever the order of its tasks. -/

namespace QuantAttention

variable {allowed : Fault → Prop} {a : Attention} {d : Dims} {threads : Nat} {call : Call}
  {memory : Memory} {registers : TileRegisters} {regions : WorkspaceRegions}

namespace Attention

variable {tasks : List (Assigned HeadTask)}

theorem threads_lt (h : InRange d threads) : threads < Sessions.slotLimit := by
  have hScratch := h.scratch_lt
  have hBlock : 64 ≤ d.headNum * pad d.seqK 64 := by
    have hLe := Nat.le_mul_of_pos_left (pad d.seqK 64) h.headNum_pos
    have hSeqK := h.seqK_pos
    have hPad : 64 ≤ pad d.seqK 64 := by
      simp only [pad]
      omega
    exact Nat.le_trans hPad hLe
  have hLe := Nat.mul_le_mul_left threads (Nat.mul_le_mul_left 16 hBlock)
  simp only [Sessions.slotLimit, Size.limit] at hScratch ⊢
  omega

theorem workerScratchBytes_ok (h : InRange d threads) :
    (Layout.ofDims d threads).workerScratchBytes = .ok (Attending.workerBytes d) := by
  have hWorker := Attending.workerBytes_lt h
  rw [Attending.workerBytes, ← Nat.mul_assoc] at hWorker ⊢
  have hHeads : d.headNum * 16 < Size.limit := by
    refine Nat.lt_of_le_of_lt (Nat.le_mul_of_pos_right _ ?_) hWorker
    have hSeqK := h.seqK_pos
    simp only [pad]
    omega
  rw [Layout.workerScratchBytes, Layout.dims_ofDims,
    (padTo_eq_ok (by decide)).2 ⟨h.seqK_padded, rfl⟩, Size.literal, Size.ofNat_mul hHeads]
  exact Size.eval_mul_of_lt hWorker

/-- With buffers and regions that are long enough the first phase and the preparation of the mask do
not fault. They multiply no queries, so no accumulator can overflow in them. -/
theorem prepare_faultsOnly (h : InRange d a.threads) (hFits : Fits d call memory)
    (hRegions : RegionsFor d a.threads regions) (hWidth : a.keyPacking.width = 64)
    (hTasks : ∀ assigned ∈ tasks, Packing.Listed d assigned.task) :
    FaultsOnly allowed
      (a.prepare tasks call (Layout.ofDims d a.threads) regions memory registers) := by
  have hScratch : a.threads * Attending.workerBytes d ≤ regions.scratch.size := by
    rw [hRegions.scratch, Attending.workerBytes, Nat.mul_left_comm d.headNum]
    omega
  have hOperands : Packing.Allotted d ⟨regions.keys, regions.values, regions.valueScale⟩ :=
    ⟨hRegions.keys, hRegions.values, hRegions.valueScale⟩
  have hSeqK := h.seqK_padded
  have hMaskBytes := h.mask_lt
  have hMaskRows := Nat.mul_le_mul_left d.batchSize (pad_le_pad_64 d.seqK).2
  refine .bind_ok (workerScratchBytes_ok h) ?_
  refine .bind (Sessions.carve_faultsOnly (threads_lt h) hScratch) fun sessions _ => ?_
  refine .bind (Layout.strides_faultsOnly h) fun strides hStrides => ?_
  obtain rfl := Layout.strides_eq_ofDims hStrides
  refine .bind (Packing.pack_faultsOnly h hWidth hFits hTasks hOperands) fun packing _ => ?_
  refine .bind (PreparedMask.prepare_faultsOnly ?_ ⟨hFits.mask, h.keyRows_lt⟩ ?_) fun _ _ => .pure _
  · show d.seqK + 16 < Size.limit
    omega
  · rw [hRegions.mask]
    exact ⟨hMaskRows, by simp only [Layout.dims_ofDims]; omega⟩

/-- What the second phase finds: a pool in which every worker has its slot with a scratch of its
own, and an output with room for all rows. -/
theorem underway_prepare (h : InRange d a.threads) (hFits : Fits d call memory)
    (hRegions : RegionsFor d a.threads regions) (hWidth : a.keyPacking.width = 64)
    (hThreads : a.threads ≤ registers.threads.size)
    (hTasks : ∀ assigned ∈ tasks, Packing.Listed d assigned.task) {p : Prepared}
    (hRun : a.prepare tasks call (Layout.ofDims d a.threads) regions memory registers = .ok p) :
    p.strides = .ofDims d ∧ Packing.Allotted d p.operands ∧
      p.mask.rows.size = d.batchSize * pad d.seqK 16 ∧ Attending.Underway d a.threads p.run := by
  rw [prepare, workerScratchBytes_ok h] at hRun
  simp only [Checked.bind_eq_ok, Checked.pure_eq_ok, Except.ok.injEq] at hRun
  obtain ⟨_, rfl, sessions, hCarve, strides, hStrides, packing, hPack, mask, hMask, rfl⟩ := hRun
  obtain rfl := Layout.strides_eq_ofDims hStrides
  obtain ⟨hSlots, hFresh⟩ := Sessions.carve_spec hCarve
  refine ⟨rfl, ?_, PreparedMask.size_rows_prepare hMask, ?_⟩
  · exact Packing.allotted_pack h hWidth hTasks
      ⟨hRegions.keys, hRegions.values, hRegions.valueScale⟩ hPack
  · refine ⟨rfl, ⟨hSlots, fun slot hSlot => (hFresh slot hSlot).1, hThreads, ?_⟩, hFits.output,
      hFits.outputScale⟩
    intro i hi hReady
    rw [(hFresh _ (Array.getElem_mem hi)).2] at hReady
    cases hReady

/-- The end of a call does not fault in a pool that has a slot, whether registers are given back or
kept. -/
theorem finish_faultsOnly {pool : Pool} (hSlots : 0 < pool.sessions.slots.size) :
    FaultsOnly allowed (a.finish pool) := by
  rw [finish]
  split
  · exact .bind (Pool.releaseAll_faultsOnly hSlots) fun _ _ => .pure _
  · exact .ok _

/-- Once its check has passed, a call faults only in its products of queries and keys. Every other
step has its condition from the check. -/
theorem compute_faultsOnly (h : InRange d a.threads) (hFits : Fits d call memory)
    (hRegions : RegionsFor d a.threads regions) (hWidth : a.keyPacking.width = 64)
    (hThreads : a.threads ≤ registers.threads.size) {schedule : Schedule}
    (hSchedule : schedule.Valid d a.threads)
    (hSum : allowed .accumulatorOverflow ∨ RowMajor.FittingSums d call) :
    FaultsOnly allowed
      (a.compute schedule call (Layout.ofDims d a.threads) regions memory registers) := by
  have hHeads (assigned : Assigned HeadTask) (hMem : assigned ∈ schedule.heads) :
      Packing.Listed d assigned.task :=
    Schedule.mem_headTasks.1 (hSchedule.heads_perm.mem_iff.1 (List.mem_map_of_mem hMem))
  have hRows (assigned : Assigned RowTask) (hMem : assigned ∈ schedule.rows) :
      Attending.Listed d assigned.task ∧ assigned.worker < a.threads :=
    ⟨Schedule.mem_rowTasks.1 (hSchedule.rows_perm.mem_iff.1 (List.mem_map_of_mem hMem)),
      hSchedule.rows_worker assigned hMem⟩
  refine .bind (prepare_faultsOnly h hFits hRegions hWidth hHeads) fun p hPrepare => ?_
  obtain ⟨hStrides, hOperands, hMask, hStart⟩ :=
    underway_prepare h hFits hRegions hWidth hThreads hHeads hPrepare
  have hReady := ready_prepare hSchedule.heads_perm hFits.mask hPrepare
  rw [hStrides]
  refine .bind (Attending.attend_faultsOnly h hFits hOperands hReady.packed hMask hReady.mask hSum
    hRows hStart) ?_
  intro run hAttend
  have hEnd := Attending.underway_attend (fun assigned hMem => (hRows assigned hMem).2) hStart
    hAttend
  have hSlots : 0 < run.pool.sessions.slots.size := by
    rw [hEnd.steady.slots, hEnd.size]
    exact h.threads_pos
  exact (finish_faultsOnly hSlots).bind fun _ _ => .pure _

/-- A call whose check passes returns, unless a sum over a query and a key outgrows its accumulator.
-/
theorem execute_faultsOnly_of_sums {schedule : Dims → Schedule} {layout : Layout}
    (hPreflight : a.preflight call memory = .ok (.ok (layout, regions)))
    (hThreads : 0 < a.threads) (hRegisters : a.threads ≤ registers.threads.size)
    (hWidth : a.keyPacking.width = 64)
    (hSchedule : (schedule layout.dims).Valid layout.dims a.threads)
    (hSum : allowed .accumulatorOverflow ∨ RowMajor.FittingSums layout.dims call) :
    FaultsOnly allowed (a.execute schedule call memory registers) := by
  obtain ⟨-, rfl, hFits, hSplit⟩ := preflight_accepted hPreflight
  rw [execute, hPreflight]
  refine .bind_ok rfl ?_
  dsimp only
  split
  · exact .pure _
  · next hProper =>
    exact compute_faultsOnly (inRange_preflight hPreflight hThreads (by simpa using hProper)) hFits
      (regionsFor_split hSplit) hWidth hRegisters hSchedule hSum

/-- A call whose check passes returns, unless its heads are long enough to outgrow an accumulator.
What the entries are does not matter below that length. -/
theorem execute_faultsOnly {schedule : Dims → Schedule} {layout : Layout}
    (hPreflight : a.preflight call memory = .ok (.ok (layout, regions)))
    (hThreads : 0 < a.threads) (hRegisters : a.threads ≤ registers.threads.size)
    (hWidth : a.keyPacking.width = 64)
    (hSchedule : (schedule layout.dims).Valid layout.dims a.threads)
    (hSum : allowed .accumulatorOverflow ∨ layout.dims.headSize < 131072) :
    FaultsOnly allowed (a.execute schedule call memory registers) :=
  execute_faultsOnly_of_sums hPreflight hThreads hRegisters hWidth hSchedule
    (hSum.imp id (RowMajor.fittingSums_of_lt call))

/-- A call in range without a problem succeeds if its heads are not too long, in every valid order
of its tasks. -/
theorem exists_execute {schedule : Dims → Schedule} (hDims : a.dims.resolve call.dims = .ok d)
    (h : InRange d a.threads) (hNone : a.problems call memory = [])
    (hRegisters : a.threads ≤ registers.threads.size) (hWidth : a.keyPacking.width = 64)
    (hSchedule : (schedule d).Valid d a.threads) (hSmall : d.headSize < 131072) :
    ∃ o, a.execute schedule call memory registers = .ok o ∧ o.result = .ok () := by
  obtain ⟨regions, hPreflight⟩ := exists_regions hDims h hNone
  have hSafe : FaultsOnly (fun _ => False) (a.execute schedule call memory registers) :=
    execute_faultsOnly hPreflight h.threads_pos hRegisters hWidth hSchedule (Or.inr hSmall)
  obtain ⟨o, hRun⟩ := hSafe.exists_value
  rcases execute_result hRun with ⟨e, hFirst, -⟩ | ⟨-, hOk, -⟩
  · rw [hNone] at hFirst
    cases hFirst
  · exact ⟨o, hRun, hOk⟩

end Attention

end QuantAttention
