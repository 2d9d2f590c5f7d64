import QuantAttention.Proofs.Attention.Frame
import QuantAttention.Proofs.Attention.Products

/-! Calls that do not return. A fault in a task of the second phase ends its call: tasks that have
begun by then run on to an end of their own, all others never run, and nothing comes after them. What
the tasks have done to tile registers stays done. A call that does not return has been interrupted in
this way, or has faulted before the second phase. -/

namespace QuantAttention

namespace Attending

/-- The run after a task that has begun, however the task ends. Of a task that faults, what its
worker did when it came to the task is all that stays. -/
def advance (d : Dims) (s : Strides) (call : Call) (maskRows : Array Binary32)
    (operands : PackedOperands) (run : AttendingRun) (assigned : Assigned RowTask) : AttendingRun :=
  match attendBlock d s call maskRows operands run assigned with
  | .ok next => next
  | .error _ => (arrive run assigned.worker).toOption.getD run

end Attending

namespace Attention

variable {a : Attention} {call : Call} {memory : Memory} {before after : TileRegisters}
  {schedule : Dims → Schedule} {layout : Layout} {regions : WorkspaceRegions} {prepared : Prepared}
  {ran : List (Assigned RowTask)}

/-- A call does not return. Of its second phase just the tasks `ran` have begun, and the tile
registers are left as `after`. -/
inductive Interrupted (a : Attention) (schedule : Dims → Schedule) (call : Call) (memory : Memory)
    (before : TileRegisters) : (ran : List (Assigned RowTask)) → (after : TileRegisters) → Prop where
  /-- No task can begin before the first phase is done. -/
  | early {fault : Fault} (hRun : a.execute schedule call memory before = .error fault)
      (hUnprepared : ∀ layout regions prepared,
        a.preflight call memory = .ok (.ok (layout, regions)) → layout.dims.isDegenerate = false →
          a.prepare (schedule layout.dims).heads call layout regions memory before ≠ .ok prepared) :
      Interrupted a schedule call memory before [] before
  /-- One of the tasks that have begun faults. -/
  | amid {layout : Layout} {regions : WorkspaceRegions} {prepared : Prepared}
      {ran rest : List (Assigned RowTask)} {fault : Fault}
      (hPreflight : a.preflight call memory = .ok (.ok (layout, regions)))
      (hProper : layout.dims.isDegenerate = false)
      (hPrepare : a.prepare (schedule layout.dims).heads call layout regions memory before =
        .ok prepared)
      (hSplit : (schedule layout.dims).rows = ran ++ rest)
      (hFault : ran.foldlM (Attending.attendBlock layout.dims prepared.strides call
        prepared.mask.rows prepared.operands) prepared.run = .error fault) :
      Interrupted a schedule call memory before ran
        (ran.foldl (Attending.advance layout.dims prepared.strides call prepared.mask.rows
          prepared.operands) prepared.run).pool.registers

/-- A call whose check has passed runs both phases, unless it has nothing to compute. Nothing stands
between the check and the first phase. -/
theorem execute_accepted (hPreflight : a.preflight call memory = .ok (.ok (layout, regions)))
    (hProper : layout.dims.isDegenerate = false) :
    a.execute schedule call memory before =
      a.compute (schedule layout.dims) call layout regions memory before := by
  rw [execute, hPreflight]
  show (if layout.dims.isDegenerate = true then _ else _) = _
  rw [hProper, if_neg Bool.false_ne_true]

/-- The slots of the workers are there to the end of the second phase. The tasks change what slots
hold, but not how many there are. -/
theorem slots_attend {tasks : List (Assigned HeadTask)} {rows : List (Assigned RowTask)}
    {s : Strides} {maskRows : Array Binary32} {operands : PackedOperands} {run : AttendingRun}
    (hPrepare : a.prepare tasks call layout regions memory before = .ok prepared)
    (hFold : rows.foldlM (Attending.attendBlock layout.dims s call maskRows operands) prepared.run =
      .ok run) : run.pool.sessions.slots.size = a.threads := by
  simp only [prepare, Checked.bind_eq_ok, Checked.pure_eq_ok] at hPrepare
  obtain ⟨perWorker, -, sessions, hCarve, strides, -, packing, -, mask, -, rfl⟩ := hPrepare
  obtain ⟨hSlots, hScratch⟩ := Sessions.carve_spec hCarve
  have hCarved : sessions.Cut perWorker a.threads sessions.rest :=
    ⟨hSlots, fun slot hSlot => (hScratch slot hSlot).1, rfl⟩
  exact (Checked.foldlM_induction
    (fun s : AttendingRun => s.pool.sessions.Cut perWorker a.threads sessions.rest) hCarved
    (fun _ _ _ _ hBefore hStep => Attending.cut_attendBlock hBefore hStep) hFold).slots

/-- The steps around the tasks of the second phase go through: once all tasks are done, the call
returns. -/
theorem exists_execute_of_rows (hPreflight : a.preflight call memory = .ok (.ok (layout, regions)))
    (hProper : layout.dims.isDegenerate = false)
    (hSchedule : (schedule layout.dims).Valid layout.dims a.threads)
    (hPrepare : a.prepare (schedule layout.dims).heads call layout regions memory before =
      .ok prepared) {run : AttendingRun}
    (hFold : (schedule layout.dims).rows.foldlM (Attending.attendBlock layout.dims prepared.strides
      call prepared.mask.rows prepared.operands) prepared.run = .ok run) :
    ∃ o, a.execute schedule call memory before = .ok o := by
  have hThreads : 0 < a.threads := hSchedule.threads_pos hProper
  have hRange := inRange_preflight hPreflight hThreads hProper
  have hSlots : 0 < run.pool.sessions.slots.size := slots_attend hPrepare hFold ▸ hThreads
  obtain ⟨pool, hFinish⟩ := (finish_faultsOnly (a := a) hSlots).exists_value
  rw [execute_accepted hPreflight hProper]
  obtain ⟨-, rfl, hFits, -⟩ := preflight_accepted hPreflight
  have hReady := ready_prepare hSchedule.heads_perm hFits.mask hPrepare
  rw [hReady.strides] at hFold
  have hAttend := (Attending.attend_eq_foldlM hRange (hReady.output ▸ hFits.output)
    (hReady.outputScale ▸ hFits.outputScale)).trans hFold
  rw [← hReady.strides] at hAttend
  simp only [compute, Checked.bind_eq_ok, Checked.pure_eq_ok]
  exact ⟨_, prepared, hPrepare, run, hAttend, pool, hFinish, rfl⟩

/-- A call that gets as far as its second phase and does not return is interrupted, whichever of its
tasks have begun by then: here all of them. -/
theorem interrupted_of_prepared (hPreflight : a.preflight call memory = .ok (.ok (layout, regions)))
    (hProper : layout.dims.isDegenerate = false)
    (hSchedule : (schedule layout.dims).Valid layout.dims a.threads)
    (hPrepare : a.prepare (schedule layout.dims).heads call layout regions memory before =
      .ok prepared) {fault : Fault} (hRun : a.execute schedule call memory before = .error fault) :
    ∃ after, Interrupted a schedule call memory before (schedule layout.dims).rows after := by
  cases hFold : (schedule layout.dims).rows.foldlM (Attending.attendBlock layout.dims
      prepared.strides call prepared.mask.rows prepared.operands) prepared.run with
  | error fault =>
      exact ⟨_, .amid hPreflight hProper hPrepare (List.append_nil _).symm hFold⟩
  | ok run =>
      obtain ⟨o, hOk⟩ := exists_execute_of_rows hPreflight hProper hSchedule hPrepare hFold
      rw [hOk] at hRun
      cases hRun

/-- With keys packed as the kernels read them, every call whose check passes gets as far as its second
phase. -/
theorem exists_interrupted (hWidth : a.keyPacking.width = packedWidth)
    (hPreflight : a.preflight call memory = .ok (.ok (layout, regions)))
    (hProper : layout.dims.isDegenerate = false)
    (hSchedule : (schedule layout.dims).Valid layout.dims a.threads) {fault : Fault}
    (hRun : a.execute schedule call memory before = .error fault) :
    ∃ after, Interrupted a schedule call memory before (schedule layout.dims).rows after := by
  have hRange := inRange_preflight hPreflight (hSchedule.threads_pos hProper) hProper
  have hHeads (assigned : Assigned HeadTask) (hMem : assigned ∈ (schedule layout.dims).heads) :
      Packing.Listed layout.dims assigned.task :=
    Schedule.mem_headTasks.1 (hSchedule.heads_perm.mem_iff.1 (List.mem_map_of_mem hMem))
  obtain ⟨prepared, hPrepare⟩ : ∃ prepared, a.prepare (schedule layout.dims).heads call layout regions
      memory before = .ok prepared := by
    obtain ⟨-, rfl, hFits, hSplit⟩ := preflight_accepted hPreflight
    exact (prepare_faultsOnly hRange hFits (regionsFor_split hSplit) hWidth hHeads).exists_value
  exact interrupted_of_prepared hPreflight hProper hSchedule hPrepare hRun

/-- A call that is interrupted does not return: were all of its tasks done, none of those that have
begun would have faulted. -/
theorem Interrupted.exists_fault (h : Interrupted a schedule call memory before ran after) :
    ∃ fault, a.execute schedule call memory before = .error fault := by
  cases h with
  | early hRun => exact ⟨_, hRun⟩
  | amid hPreflight hProper hPrepare hSplit hFault =>
      cases hRun : a.execute schedule call memory before with
      | error fault => exact ⟨fault, rfl⟩
      | ok o =>
          simp only [execute_accepted hPreflight hProper, compute, Checked.bind_eq_ok] at hRun
          obtain ⟨p, hFound, run, hAttend, -⟩ := hRun
          obtain rfl := Except.ok.inj (hPrepare.symm.trans hFound)
          have hFold := (Attending.foldlM_of_attend hAttend).2
          rw [hSplit, List.foldlM_append, hFault] at hFold
          cases hFold

/-- The calls that do not return are those that are interrupted. So the registers that such a call
leaves are always described by what its tasks have loaded. -/
theorem execute_faults_iff
    (hSchedule : ∀ d, a.dims.resolve call.dims = .ok d → (schedule d).Valid d a.threads) :
    (∃ fault, a.execute schedule call memory before = .error fault) ↔
      ∃ ran after, Interrupted a schedule call memory before ran after := by
  constructor
  · rintro ⟨fault, hRun⟩
    by_cases hReached : ∃ layout regions prepared,
        a.preflight call memory = .ok (.ok (layout, regions)) ∧ layout.dims.isDegenerate = false ∧
          a.prepare (schedule layout.dims).heads call layout regions memory before = .ok prepared
    · obtain ⟨layout, regions, prepared, hPreflight, hProper, hPrepare⟩ := hReached
      obtain ⟨after, h⟩ := interrupted_of_prepared hPreflight hProper
        (hSchedule _ (resolve_of_preflight hPreflight)) hPrepare hRun
      exact ⟨_, after, h⟩
    · exact ⟨[], before, .early hRun fun layout regions prepared hPreflight hProper hPrepare =>
        hReached ⟨layout, regions, prepared, hPreflight, hProper, hPrepare⟩⟩
  · rintro ⟨ran, after, h⟩
    exact h.exists_fault

end Attention

end QuantAttention
