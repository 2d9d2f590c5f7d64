import Mathlib.Data.List.Dedup
import Mathlib.Data.List.Perm.Subperm
import QuantAttention.Proofs.Attention.Interruption
import QuantAttention.Proofs.TileLoads

/-! Tile registers in one call. Every worker of the second phase loads its registers once, before it
runs a kernel that needs them. At the end of a call that returns all of them are given back, or none;
a call that does not return leaves loaded whatever its tasks have loaded. -/

namespace QuantAttention

def KernelKind.usesTiles : KernelKind → Bool
  | probabilities | outputs => true
  | keyPacking | valuePacking => false

variable {log : Array Event} {w : Nat} {invocation : Invocation}

/-- The workers that have loaded their registers, in the order in which they did. -/
def loads (log : Array Event) : List Nat :=
  log.toList.filterMap fun
    | .configured worker => some worker
    | .invoked _ _ => none

theorem loads_configured : loads (log.push (.configured w)) = loads log ++ [w] := by
  simp [loads]

theorem loads_invoked : loads (log.push (.invoked w invocation)) = loads log := by
  simp [loads]

/-- A worker that has loaded its registers has done so at some place in the log. -/
theorem exists_configured (h : w ∈ loads log) : ∃ j < log.size, log[j]? = some (.configured w) := by
  obtain ⟨event, hEvent, hLoad⟩ := List.mem_filterMap.1 h
  obtain ⟨j, hj, rfl⟩ := Array.getElem_of_mem (Array.mem_toList_iff.1 hEvent)
  refine ⟨j, hj, ?_⟩
  rw [Array.getElem?_eq_getElem hj]
  revert hLoad
  cases log[j] with
  | configured worker => rintro ⟨⟩; rfl
  | invoked => nofun

/-- A worker loads its registers before it runs a kernel that multiplies tiles. -/
def LoadedFirst (log : Array Event) : Prop :=
  ∀ (i w : Nat) (invocation : Invocation), log[i]? = some (Event.invoked w invocation) →
    invocation.kernel.usesTiles = true → ∃ j < i, log[j]? = some (Event.configured w)

/-- A log stays in order if a kernel that needs registers comes after its worker has loaded them.
Every other event may come at any time. -/
theorem LoadedFirst.push (h : LoadedFirst log) {event : Event}
    (hEvent : ∀ w invocation, event = .invoked w invocation → invocation.kernel.usesTiles = true →
      w ∈ loads log) : LoadedFirst (log.push event) := by
  intro i w invocation hi hTiles
  rw [Array.getElem?_push] at hi
  have hEarlier : ∃ j < i, j < log.size ∧ log[j]? = some (.configured w) := by
    split at hi
    · next hLast =>
      obtain ⟨j, hj, hConfigured⟩ := exists_configured (hEvent w invocation (Option.some.inj hi) hTiles)
      exact ⟨j, hLast ▸ hj, hj, hConfigured⟩
    · obtain ⟨j, hj, hConfigured⟩ := h i w invocation hi hTiles
      exact ⟨j, hj, (Array.getElem?_eq_some_iff.1 hConfigured).1, hConfigured⟩
  obtain ⟨j, hj, hSize, hConfigured⟩ := hEarlier
  refine ⟨j, hj, ?_⟩
  rw [Array.getElem?_push, if_neg (Nat.ne_of_lt hSize), hConfigured]

/-- Nothing in the log has to do with tile registers. -/
def Plain (log : Array Event) : Prop :=
  ∀ event ∈ log, ∃ w invocation, event = .invoked w invocation ∧
    invocation.kernel.usesTiles = false

theorem Plain.push (h : Plain log) (hKernel : invocation.kernel.usesTiles = false) :
    Plain (log.push (.invoked w invocation)) := by
  intro event hEvent
  rcases Array.mem_push.1 hEvent with hOld | rfl
  · exact h event hOld
  · exact ⟨w, invocation, rfl, hKernel⟩

theorem Plain.loads_eq (h : Plain log) : loads log = [] := by
  refine List.filterMap_eq_nil_iff.2 fun event hEvent => ?_
  obtain ⟨_, _, rfl, -⟩ := h event (Array.mem_toList_iff.1 hEvent)
  rfl

/-- Where no registers are loaded and no kernel needs any, nothing is out of order. -/
theorem Plain.loadedFirst (h : Plain log) : LoadedFirst log := by
  intro i w invocation hi hTiles
  obtain ⟨_, _, hEvent, hKernel⟩ := h _ (Array.mem_of_getElem? hi)
  cases hEvent
  rw [hKernel] at hTiles
  cases hTiles

namespace Packing

variable {a : Attention} {d : Dims} {s : Strides} {call : Call} {run next : PackingRun}

/-- Packing a head neither loads registers nor calls a kernel that needs them. -/
theorem plain_packHead {assigned : Assigned HeadTask} (h : Plain run.log)
    (hRun : packHead a d s call run assigned = .ok next) : Plain next.log := by
  obtain ⟨middle, hKeys, hValues⟩ := Checked.bind_eq_ok.1 hRun
  have hMiddle : Plain middle.log := by
    refine Checked.iterate_induction (fun _ run => Plain run.log) h ?_ hKeys
    intro block s t _ hBefore hStep
    simp only [packKeyBlock, Checked.bind_eq_ok, Checked.pure_eq_ok] at hStep
    obtain ⟨_, -, _, -, _, -, _, -, _, -, _, -, rfl⟩ := hStep
    exact hBefore.push rfl
  refine Checked.iterate_induction (fun _ run => Plain run.log) hMiddle ?_ hValues
  intro block s t _ hBefore hStep
  simp only [packValueBlock, Checked.bind_eq_ok, Checked.pure_eq_ok] at hStep
  obtain ⟨_, -, _, -, _, -, _, -, _, -, _, -, _, -, _, -, _, -, _, -, rfl⟩ := hStep
  exact hBefore.push rfl

/-- The first phase leaves a log without any use of registers, whatever operands it has packed. -/
theorem plain_pack {tasks : List (Assigned HeadTask)} {operands : PackedOperands}
    (hRun : pack a d s call tasks operands = .ok run) : Plain run.log := by
  obtain ⟨-, -, -, -, hFold⟩ := pack_spec hRun
  exact Checked.foldlM_induction (fun run => Plain run.log) (fun _ hEvent => by simp at hEvent)
    (fun _ _ _ _ hBefore hStep => plain_packHead hBefore hStep) hFold

end Packing

namespace Attending

variable {d : Dims} {s : Strides} {call : Call} {maskRows : Array Binary32}
  {operands : PackedOperands} {start : TileRegisters} {threads : Nat} {run next : AttendingRun}
  {assigned : Assigned RowTask} {st : Stage} {done tasks : List (Assigned RowTask)}

/-- After some tasks of the second phase just their workers have loaded registers, and each of them
before it needed them. -/
structure Tracked (start : TileRegisters) (threads : Nat) (done : List (Assigned RowTask))
    (pool : Pool) (log : Array Event) : Prop where
  size : pool.size = threads
  pool : pool.Loads start (loads log)
  workers : ∀ w, w ∈ loads log ↔ ∃ assigned ∈ done, assigned.worker = w
  first : LoadedFirst log

/-- What a worker logs when it asks for its registers: that it has loaded them, unless its slot said
that it had. -/
theorem loads_asked {ready : Bool} (hReady : ready = true ↔ w ∈ loads log) :
    loads (if ready = true then log else log.push (.configured w)) = Pool.addLoad (loads log) w := by
  rw [Pool.addLoad]
  by_cases hMem : w ∈ loads log
  · rw [if_pos (hReady.2 hMem), if_pos hMem]
  · rw [if_neg fun h => hMem (hReady.1 h), if_neg hMem, loads_configured]

/-- Loading registers when they are asked for comes before the kernel that asks, so a log stays in
order. -/
theorem loadedFirst_asked {ready : Bool} (h : LoadedFirst log) :
    LoadedFirst (if ready = true then log else log.push (.configured w)) := by
  split
  · exact h
  · exact h.push nofun

/-- A worker that has come to a task has its registers loaded. It has loaded them just now if they
were not loaded before. -/
theorem tracked_arrive (hRoomy : Pool.Roomy start threads) (hWorker : assigned.worker < threads)
    (hRun : Tracked start threads done run.pool run.log)
    (hArrive : arrive run assigned.worker = .ok next) :
    Tracked start threads (done ++ [assigned]) next.pool next.log ∧
      next.pool.registers.loaded assigned.worker = some .fullInt8 := by
  obtain ⟨worker, task⟩ := assigned
  have hw : worker < run.pool.size := hRun.size ▸ hWorker
  simp only [arrive, Checked.bind_eq_ok, Checked.pure_eq_ok] at hArrive
  obtain ⟨ready, hReady, pool, hPool, rfl⟩ := hArrive
  obtain ⟨hSize, hLoads, hLoaded⟩ := Pool.loads_ensureTiles hRun.pool (hRun.size ▸ hRoomy) hw hPool
  obtain rfl : run.pool.sessions.ready worker = ready := Except.ok.inj
    ((Sessions.tilesReady_eq (.worker worker) (hRun.pool.slots ▸ hw)).symm.trans hReady)
  -- The slot of a worker tells if it is in the list, so the log and the pool go together.
  have hLog := loads_asked (hRun.pool.ready worker hw)
  refine ⟨?_, hLoaded⟩
  exact {
    size := hSize.trans hRun.size
    pool := by
      rw [hLog]
      exact hLoads
    workers := fun w => by
      rw [hLog, Pool.mem_addLoad, hRun.workers]
      simp [or_and_right, exists_or, eq_comm]
    first := loadedFirst_asked hRun.first }

/-- No worker of the pool is refused its registers. The configuration is valid, and every worker has
a thread and a slot. -/
theorem exists_arrive (hWorker : assigned.worker < threads)
    (hRun : Tracked start threads done run.pool run.log) :
    ∃ asked, arrive run assigned.worker = .ok asked := by
  have hSlot : assigned.worker < run.pool.sessions.slots.size :=
    hRun.pool.slots.trans hRun.size ▸ hWorker
  obtain ⟨pool, hPool⟩ : ∃ pool, run.pool.ensureTiles (.worker assigned.worker) .fullInt8 = .ok pool :=
    Pool.exists_ensureTiles hSlot TileConfig.isValid_fullInt8
  simp only [arrive, Checked.bind_eq_ok, Checked.pure_eq_ok]
  exact ⟨_, _, Sessions.tilesReady_eq (.worker assigned.worker) hSlot, pool, hPool, rfl⟩

/-- A kernel that its worker has come to leaves the registers as they are, and is called only after
they were loaded. -/
theorem Tracked.push {pool : Pool} (h : Tracked start threads (done ++ [assigned]) pool log) :
    Tracked start threads (done ++ [assigned]) pool (log.push (.invoked assigned.worker invocation)) :=
  { size := h.size
    pool := by
      rw [loads_invoked]
      exact h.pool
    workers := fun w => by rw [loads_invoked, h.workers]
    first := h.first.push fun w other hEvent _ => by
      cases hEvent
      exact (h.workers _).2 ⟨assigned, List.mem_append_right _ List.mem_cons_self, rfl⟩ }

/-- A task comes to its kernels with the registers of its worker loaded. -/
theorem tracked_stage (hRoomy : Pool.Roomy start threads) (hWorker : assigned.worker < threads)
    (hRun : Tracked start threads done run.pool run.log)
    (hStage : stage d s call maskRows operands run assigned = .ok st) :
    Tracked start threads (done ++ [assigned]) st.pool st.log ∧ st.tilesLoaded = true ∧
      st.pool.registers.loaded assigned.worker = some .fullInt8 := by
  simp only [stage, Checked.bind_eq_ok, Checked.pure_eq_ok] at hStage
  obtain ⟨asked, hArrive, before, -, t, -, scratch, -, u, -, row, -, rfl⟩ := hStage
  obtain ⟨hTracked, hLoaded⟩ := tracked_arrive hRoomy hWorker hRun hArrive
  refine ⟨hTracked.push, ?_, hLoaded⟩
  show (asked.pool.registers.loaded assigned.worker).isSome = true
  rw [hLoaded, Option.isSome_some]

/-- One task of the second phase that returns: its worker is among those that hold registers. -/
theorem tracked_attendBlock (hRoomy : Pool.Roomy start threads) (hWorker : assigned.worker < threads)
    (hRun : Tracked start threads done run.pool run.log)
    (hNext : attendBlock d s call maskRows operands run assigned = .ok next) :
    Tracked start threads (done ++ [assigned]) next.pool next.log := by
  simp only [attendBlock, Checked.bind_eq_ok, Checked.pure_eq_ok] at hNext
  obtain ⟨st, hStage, block, -, sessions, hSessions, rfl⟩ := hNext
  obtain ⟨hStaged, -, -⟩ := tracked_stage hRoomy hWorker hRun hStage
  exact Tracked.push { hStaged with
    pool := hStaged.pool.setScratch (hStaged.size ▸ hWorker) hSessions }

/-- It does not matter to the registers how a task that has begun ends. What it does first is to
load them, and nothing that it does later takes them back. -/
theorem tracked_advance (hRoomy : Pool.Roomy start threads) (hWorker : assigned.worker < threads)
    (hRun : Tracked start threads done run.pool run.log) :
    Tracked start threads (done ++ [assigned]) (advance d s call maskRows operands run assigned).pool
      (advance d s call maskRows operands run assigned).log := by
  rw [advance]
  split
  · next hNext => exact tracked_attendBlock hRoomy hWorker hRun hNext
  · obtain ⟨asked, hArrive⟩ := exists_arrive hWorker hRun
    rw [hArrive]
    exact (tracked_arrive hRoomy hWorker hRun hArrive).1

/-- The tasks of the second phase, however far it has come: the workers of the tasks so far hold
their registers, and no others of this call do. -/
theorem tracked_foldlM (hRoomy : Pool.Roomy start threads)
    (hWorkers : ∀ assigned ∈ tasks, assigned.worker < threads)
    (hRun : Tracked start threads done run.pool run.log)
    (hNext : tasks.foldlM (attendBlock d s call maskRows operands) run = .ok next) :
    Tracked start threads (done ++ tasks) next.pool next.log := by
  induction tasks generalizing done run with
  | nil =>
      cases hNext
      rwa [List.append_nil]
  | cons assigned rest ih =>
      rw [List.foldlM_cons, Checked.bind_eq_ok] at hNext
      obtain ⟨middle, hFirst, hRest⟩ := hNext
      have hMiddle := tracked_attendBlock hRoomy (hWorkers assigned List.mem_cons_self) hRun hFirst
      rw [List.append_cons]
      exact ih (fun other hOther => hWorkers other (List.mem_cons_of_mem _ hOther)) hMiddle hRest

/-- The tasks of the second phase that have begun, whether they end or fault. -/
theorem tracked_foldl (hRoomy : Pool.Roomy start threads)
    (hWorkers : ∀ assigned ∈ tasks, assigned.worker < threads)
    (hRun : Tracked start threads done run.pool run.log) :
    Tracked start threads (done ++ tasks)
      (tasks.foldl (advance d s call maskRows operands) run).pool
      (tasks.foldl (advance d s call maskRows operands) run).log := by
  induction tasks generalizing done run with
  | nil => rwa [List.append_nil]
  | cons assigned rest ih =>
      rw [List.append_cons]
      exact ih (fun other hOther => hWorkers other (List.mem_cons_of_mem _ hOther))
        (tracked_advance hRoomy (hWorkers assigned List.mem_cons_self) hRun)

end Attending

namespace Schedule

variable {d : Dims}

theorem length_rowTasks (d : Dims) : (rowTasks d).length = d.batchSize * blockCount d := by
  simp [rowTasks, List.length_flatMap]

theorem Valid.length_rows {s : Schedule} {threads : Nat} (h : s.Valid d threads) :
    s.rows.length = d.batchSize * blockCount d := by
  rw [← length_rowTasks, ← h.rows_perm.length_eq, List.length_map]

theorem Valid.rows_ne_nil {s : Schedule} {threads : Nat} (h : s.Valid d threads)
    (hProper : d.isDegenerate = false) : s.rows ≠ [] := by
  obtain ⟨hBatch, -, -, hQuery, -⟩ := Dims.isDegenerate_eq_false.1 hProper
  have hBlocks : 0 < d.batchSize * blockCount d :=
    Nat.mul_pos (Nat.pos_of_ne_zero hBatch) (by simp only [blockCount, blockRows]; omega)
  exact List.ne_nil_of_length_pos (h.length_rows ▸ hBlocks)

end Schedule

namespace Attention

variable {a : Attention} {d : Dims} {call : Call} {memory : Memory}
  {registers before after : TileRegisters} {schedule : Dims → Schedule} {layout : Layout}
  {regions : WorkspaceRegions} {assigned : Assigned RowTask} {st : Attending.Stage} {o : Outcome}

/-- At the start of the second phase no worker has loaded its registers. -/
theorem tracked_prepare {tasks : List (Assigned HeadTask)} {p : Prepared}
    (hRun : a.prepare tasks call layout regions memory registers = .ok p) :
    Attending.Tracked registers a.threads [] p.run.pool p.run.log := by
  simp only [prepare, Checked.bind_eq_ok, Checked.pure_eq_ok] at hRun
  obtain ⟨perWorker, -, sessions, hCarve, strides, -, packing, hPack, mask, -, rfl⟩ := hRun
  obtain ⟨hSlots, hFresh⟩ := Sessions.carve_spec hCarve
  have hPlain := Packing.plain_pack hPack
  have hNone := hPlain.loads_eq
  exact {
    size := rfl
    pool := {
      slots := hSlots
      threads := rfl
      pairs := rfl
      nodup := by rw [hNone]; exact List.nodup_nil
      inside := by simp [hNone]
      ready := fun w hw => by
        have hSlot : w < sessions.slots.size := hSlots ▸ hw
        have hUnready : sessions.ready w = false := by
          rw [Sessions.ready, Array.getD_eq_getD_getElem?, Array.getElem?_eq_getElem hSlot]
          exact (hFresh _ (Array.getElem_mem hSlot)).2
        simp [hNone, hUnready]
      loaded := fun i => by simp [hNone]
      counts := by simp [hNone] }
    workers := by simp [hNone]
    first := hPlain.loadedFirst }

/-- What a call that succeeds and has something to compute does to tile registers. -/
structure TilesUsed (a : Attention) (d : Dims) (tasks : List (Assigned RowTask))
    (before : TileRegisters) (o : Outcome) : Prop where
  /-- No worker loads twice. -/
  once : (loads o.log).Nodup
  /-- The workers that load are those that run a task of the second phase. -/
  workers : ∀ w, w ∈ loads o.log ↔ ∃ assigned ∈ tasks, assigned.worker = w
  first : LoadedFirst o.log
  some_load : 1 ≤ (loads o.log).length
  few_loads : (loads o.log).length ≤ min a.threads (d.batchSize * Schedule.blockCount d)
  counts : o.registers.providerCounts = {
    configured := before.providerCounts.configured + (loads o.log).length
    released := before.providerCounts.released +
      if a.releaseTiles then (loads o.log).length else 0 }
  loaded : ∀ i, o.registers.loaded i =
    if i ∈ loads o.log then (if a.releaseTiles then none else some .fullInt8)
    else before.loaded i

/-- The end of a call gives back the registers that were loaded in it, all of them or none, as the
settings say, and the provider counts them. -/
theorem finish_spec {p q : Pool} {workers : List Nat} (h : p.Loads before workers)
    (hPairs : 0 < before.counts.size) (hRun : a.finish p = .ok q) :
    q.registers.threads.size = before.threads.size ∧
      q.registers.counts.size = before.counts.size ∧
      q.registers.providerCounts = {
        configured := before.providerCounts.configured + workers.length
        released := before.providerCounts.released +
          if a.releaseTiles then workers.length else 0 } ∧
      ∀ i, q.registers.loaded i =
        if i ∈ workers then (if a.releaseTiles then none else some .fullInt8)
        else before.loaded i := by
  rw [finish] at hRun
  cases hRelease : a.releaseTiles with
  | true =>
      rw [hRelease, if_pos rfl] at hRun
      obtain ⟨⟨next, released⟩, hAll, hRun⟩ := Checked.bind_eq_ok.1 hRun
      cases hRun
      obtain ⟨-, hThreads, hCounts, hLoaded, hProvider⟩ := Pool.releaseAll_spec h hPairs hAll
      exact ⟨hThreads, hCounts, hProvider, hLoaded⟩
  | false =>
      rw [hRelease, if_neg Bool.false_ne_true] at hRun
      cases hRun
      exact ⟨h.threads, h.pairs, h.counts, h.loaded⟩

/-- Both phases together. The first one leaves registers alone, the second loads them for the
workers of its tasks, and the end gives them back or keeps them. -/
theorem tilesUsed_compute (hRoomy : Pool.Roomy before a.threads) (hProper : d.isDegenerate = false)
    (hSchedule : (schedule d).Valid d a.threads)
    (hRun : a.compute (schedule d) call layout regions memory before = .ok o) :
    o.registers.threads.size = before.threads.size ∧
      o.registers.counts.size = before.counts.size ∧
      TilesUsed a d (schedule d).rows before o := by
  simp only [compute, Checked.bind_eq_ok, Checked.pure_eq_ok] at hRun
  obtain ⟨p, hPrepare, run, hAttend, pool, hFinish, rfl⟩ := hRun
  have hTracked := Attending.tracked_foldlM hRoomy hSchedule.rows_worker (tracked_prepare hPrepare)
    (Attending.foldlM_of_attend hAttend).2
  rw [List.nil_append] at hTracked
  obtain ⟨hThreads, hPairs, hCounts, hLoaded⟩ := finish_spec hTracked.pool hRoomy.pairs hFinish
  refine ⟨hThreads, hPairs, ?_⟩
  have hInside : ∀ w ∈ loads run.log, w ∈ List.range a.threads := fun w hw =>
    List.mem_range.2 (hTracked.size ▸ hTracked.pool.inside w hw)
  have hAssigned : ∀ w ∈ loads run.log, w ∈ (schedule d).rows.map (·.worker) := fun w hw =>
    List.mem_map.2 ((hTracked.workers w).1 hw)
  have hNodup := hTracked.pool.nodup
  -- Distinct workers are no more than all workers, and no more than tasks.
  exact {
    once := hNodup
    workers := hTracked.workers
    first := hTracked.first
    some_load := by
      obtain ⟨assigned, hTask⟩ := List.exists_mem_of_ne_nil _ (hSchedule.rows_ne_nil hProper)
      exact List.length_pos_of_mem ((hTracked.workers _).2 ⟨assigned, hTask, rfl⟩)
    few_loads := by
      have hThreads := (hNodup.subperm hInside).length_le
      have hTasks := (hNodup.subperm hAssigned).length_le
      rw [List.length_range] at hThreads
      rw [List.length_map, hSchedule.length_rows] at hTasks
      exact Nat.le_min.2 ⟨hThreads, hTasks⟩
    counts := hCounts
    loaded := hLoaded }

/-- Every task that comes to its kernels has its registers loaded. -/
theorem loaded_hasStage (hRoomy : Pool.Roomy before a.threads)
    (hSchedule : ∀ d, a.dims.resolve call.dims = .ok d → (schedule d).Valid d a.threads)
    (hStage : HasStage a schedule call memory before assigned st) :
    st.tilesLoaded = true ∧ st.pool.registers.loaded assigned.worker = some .fullInt8 := by
  obtain ⟨layout, regions, prepared, done, rest, run, hPreflight, -, hPrepare, hSplit, hDone,
    hStage⟩ := hStage
  have hWorkers := (hSchedule _ (resolve_of_preflight hPreflight)).rows_worker
  rw [hSplit] at hWorkers
  have hTracked := Attending.tracked_foldlM hRoomy
    (fun other hOther => hWorkers other (List.mem_append_left _ hOther)) (tracked_prepare hPrepare)
    hDone
  exact (Attending.tracked_stage hRoomy (hWorkers assigned (by simp)) hTracked hStage).2

/-- What a call that does not return does to tile registers, if just the tasks `ran` have begun. -/
structure TilesHeld (ran : List (Assigned RowTask)) (before after : TileRegisters) : Prop where
  threads : after.threads.size = before.threads.size
  pairs : after.counts.size = before.counts.size
  /-- Every worker of a task that has begun has loaded its registers once, and nothing has been
  released. -/
  counts : after.providerCounts = { before.providerCounts with
    configured := before.providerCounts.configured + (ran.map (·.worker)).dedup.length }
  loaded : ∀ i, after.loaded i =
    if i ∈ ran.map (·.worker) then some .fullInt8 else before.loaded i

/-- The second phase under way holds the registers of all tasks so far. None is given back before
the end of the call. -/
theorem tilesHeld_tracked {threads : Nat} {ran : List (Assigned RowTask)} {pool : Pool}
    (h : Attending.Tracked before threads ran pool log) : TilesHeld ran before pool.registers := by
  have hMem (w : Nat) : w ∈ loads log ↔ w ∈ ran.map (·.worker) :=
    (h.workers w).trans List.mem_map.symm
  have hPerm : (loads log).Perm (ran.map (·.worker)).dedup :=
    (List.perm_ext_iff_of_nodup h.pool.nodup (List.nodup_dedup _)).2 fun w =>
      (hMem w).trans List.mem_dedup.symm
  refine ⟨h.pool.threads, h.pool.pairs, ?_, fun i => ?_⟩
  · rw [h.pool.counts, hPerm.length_eq]
  · rw [h.pool.loaded]
    simp only [hMem]

/-- A fault takes no registers back: whatever the tasks that have begun have loaded stays loaded. -/
theorem tilesHeld_interrupted {ran : List (Assigned RowTask)}
    (hRoomy : Pool.Roomy before a.threads)
    (hSchedule : ∀ d, a.dims.resolve call.dims = .ok d → (schedule d).Valid d a.threads)
    (h : Interrupted a schedule call memory before ran after) :
    (∀ assigned ∈ ran, assigned.worker < a.threads) ∧ TilesHeld ran before after := by
  cases h with
  | early => exact ⟨nofun, ⟨rfl, rfl, rfl, fun i => rfl⟩⟩
  | amid hPreflight hProper hPrepare hSplit hFault =>
      have hRows := (hSchedule _ (resolve_of_preflight hPreflight)).rows_worker
      rw [hSplit] at hRows
      have hWorkers (assigned : Assigned RowTask) (hMem : assigned ∈ ran) :
          assigned.worker < a.threads := hRows assigned (List.mem_append_left _ hMem)
      exact ⟨hWorkers,
        tilesHeld_tracked (Attending.tracked_foldl hRoomy hWorkers (tracked_prepare hPrepare))⟩

end Attention

end QuantAttention
