import QuantAttention.Proofs.Attention.TileUse

/-! Tile registers over many calls. A call that returns gives back what its own workers have loaded,
or keeps it, as the settings say. A call that does not return gives nothing back, and no later call
looks for what it has left: a worker that it strands has its registers loaded until it comes to a task
again, in a call that returns. So the registers are all given back exactly if no worker is stranded. -/

namespace QuantAttention

namespace Attention

variable {a : Attention} {d : Dims} {call : Call} {memory : Memory}
  {registers before after : TileRegisters} {schedule : Dims → Schedule} {o : Outcome}
  {stranded : List Nat} {ran : List (Assigned RowTask)}

/-- Between two calls: where calls that return give their registers back, just the stranded workers
have theirs loaded. -/
structure Rested (a : Attention) (stranded : List Nat) (registers : TileRegisters) : Prop where
  roomy : Pool.Roomy registers a.threads
  inside : ∀ w ∈ stranded, w < a.threads
  loaded : a.releaseTiles = true → ∀ w < a.threads, registers.loaded w = none ↔ w ∉ stranded

/-- All registers have been given back exactly if no worker is stranded. This is where the leak of a
call that does not return shows. -/
theorem Rested.all_released_iff (h : Rested a stranded registers) (hRelease : a.releaseTiles = true) :
    (∀ w < a.threads, registers.loaded w = none) ↔ stranded = [] := by
  rw [List.eq_nil_iff_forall_not_mem]
  constructor
  · intro hAll w hStranded
    have hw := h.inside w hStranded
    exact (h.loaded hRelease w hw).1 (hAll w hw) hStranded
  · intro hNone w hw
    exact (h.loaded hRelease w hw).2 (hNone w)

/-- The stranded workers that have come to no task of a call. -/
def stillStranded (stranded : List Nat) (log : Array Event) : List Nat :=
  stranded.filter (· ∉ loads log)

/-- A worker is stranded no longer once it has loaded its registers in a call that returns. -/
theorem mem_stillStranded {log : Array Event} {w : Nat} :
    w ∈ stillStranded stranded log ↔ w ∈ stranded ∧ w ∉ loads log := by
  simp [stillStranded]

/-- One call that returns, of any kind. Workers that were stranded before it stay so unless they
have loaded their registers in it. -/
theorem rested_execute (hRested : Rested a stranded before)
    (hSchedule : ∀ d, a.dims.resolve call.dims = .ok d → (schedule d).Valid d a.threads)
    (hRun : a.execute schedule call memory before = .ok o) :
    (o.result ≠ .ok () ∨ (a.dims.filled call.dims).isDegenerate = true →
      o.registers = before ∧ o.log = #[]) ∧
    (∀ d, a.dims.resolve call.dims = .ok d → d.isDegenerate = false → o.result = .ok () →
      TilesUsed a d (schedule d).rows before o) ∧
    Rested a (stillStranded stranded o.log) o.registers := by
  have hIdle (result : Except AttentionError Unit) :
      Rested a (stillStranded stranded (idle result memory before).log) before := by
    rwa [show stillStranded stranded (idle result memory before).log = stranded from
      List.filter_eq_self.2 fun w _ => decide_eq_true List.not_mem_nil]
  have hCases := execute_cases hRun
  cases hFirst : (a.problems call memory).head? with
  | some e =>
      rw [hFirst] at hCases
      obtain rfl := hCases
      exact ⟨fun _ => ⟨rfl, rfl⟩, fun _ _ _ hFailed => (nomatch hFailed), hIdle _⟩
  | none =>
      have hDims := resolve_of_problems hFirst
      rw [hFirst] at hCases
      dsimp only at hCases
      split at hCases
      · next hDegenerate =>
        obtain rfl := hCases
        refine ⟨fun _ => ⟨rfl, rfl⟩, fun d hFound hProper => ?_, hIdle _⟩
        obtain rfl := Except.ok.inj (hDims.symm.trans hFound)
        rw [hDegenerate] at hProper
        cases hProper
      · next hProper =>
        obtain ⟨-, regions, hCompute⟩ := hCases
        obtain ⟨hThreads, hPairs, hUsed⟩ := tilesUsed_compute hRested.roomy
          (Bool.eq_false_iff.2 hProper) (hSchedule _ hDims) hCompute
        refine ⟨?_, fun d hFound _ _ => ?_, ?_⟩
        · rintro (hFailed | hDegenerate)
          · exact (hFailed (result_ok_of_compute hCompute)).elim
          · exact (hProper hDegenerate).elim
        · obtain rfl := Except.ok.inj (hDims.symm.trans hFound)
          exact hUsed
        · refine ⟨⟨hThreads ▸ hRested.roomy.threads, hPairs ▸ hRested.roomy.pairs⟩,
            fun w hw => hRested.inside w (mem_stillStranded.1 hw).1, fun hRelease w hw => ?_⟩
          rw [hUsed.loaded, hRelease, mem_stillStranded, not_and_not_right]
          by_cases hLoads : w ∈ loads o.log
          · simp [hLoads]
          · simp [hLoads, hRested.loaded hRelease w hw]

/-- One call that does not return: it strands the workers of the tasks that it has begun, besides
those that were stranded before it. -/
theorem rested_interrupted (hRested : Rested a stranded before)
    (hSchedule : ∀ d, a.dims.resolve call.dims = .ok d → (schedule d).Valid d a.threads)
    (h : Interrupted a schedule call memory before ran after) :
    TilesHeld ran before after ∧ Rested a (stranded ++ ran.map (·.worker)) after := by
  obtain ⟨hWorkers, hHeld⟩ := tilesHeld_interrupted hRested.roomy hSchedule h
  refine ⟨hHeld, ⟨⟨hHeld.threads ▸ hRested.roomy.threads, hHeld.pairs ▸ hRested.roomy.pairs⟩, ?_,
    ?_⟩⟩
  · intro w hw
    rcases List.mem_append.1 hw with hBefore | hRan
    · exact hRested.inside w hBefore
    · obtain ⟨assigned, hMem, rfl⟩ := List.mem_map.1 hRan
      exact hWorkers assigned hMem
  · intro hRelease w hw
    rw [hHeld.loaded, List.mem_append]
    split
    · next hRan => simp [hRan]
    · next hRan => simp [hRan, hRested.loaded hRelease w hw]

/-- The registers after any number of calls, with the workers that are stranded then. Calls may be
rejected, and they may be interrupted. -/
inductive Served (a : Attention) (start : TileRegisters) :
    (stranded : List Nat) → (registers : TileRegisters) → Prop where
  | none : Served a start [] start
  | returned {stranded : List Nat} {before : TileRegisters} {schedule : Dims → Schedule}
      {call : Call} {memory : Memory} {o : Outcome} (prior : Served a start stranded before)
      (hSchedule : ∀ d, a.dims.resolve call.dims = .ok d → (schedule d).Valid d a.threads)
      (run : a.execute schedule call memory before = .ok o) :
      Served a start (stillStranded stranded o.log) o.registers
  | interrupted {stranded : List Nat} {before after : TileRegisters} {schedule : Dims → Schedule}
      {call : Call} {memory : Memory} {ran : List (Assigned RowTask)}
      (prior : Served a start stranded before)
      (hSchedule : ∀ d, a.dims.resolve call.dims = .ok d → (schedule d).Valid d a.threads)
      (run : Interrupted a schedule call memory before ran after) :
      Served a start (stranded ++ ran.map (·.worker)) after

/-- By induction on the sequence, with `rested_execute` and `rested_interrupted` for its last call.
-/
theorem rested_served (hRested : Rested a [] registers) (h : Served a registers stranded before) :
    Rested a stranded before := by
  induction h with
  | none => exact hRested
  | returned _ hSchedule run ih => exact (rested_execute ih hSchedule run).2.2
  | interrupted _ hSchedule run ih => exact (rested_interrupted ih hSchedule run).2

/-- Registers of which none is loaded are at rest, with no worker stranded. A pool starts with such
registers. -/
theorem rested_fresh (hThreads : a.threads ≤ registers.threads.size)
    (hCounts : 0 < registers.counts.size) (hFresh : ∀ w < a.threads, registers.loaded w = none) :
    Rested a [] registers :=
  ⟨⟨hThreads, hCounts⟩, nofun, fun _ w hw => iff_of_true (hFresh w hw) List.not_mem_nil⟩

/-- In any sequence of calls that starts without loaded registers: a call that succeeds and has
something to compute loads the registers of every worker that it uses once, before they are needed, and
gives back all of them or none, as the settings say. Other calls that return leave registers alone. A
call that does not return loads registers in the same way and gives none of them back, so that after a
later call no registers are loaded exactly if that call has used all workers that were stranded. -/
theorem tiles_served (hThreads : a.threads ≤ registers.threads.size)
    (hCounts : 0 < registers.counts.size) (hFresh : ∀ w < a.threads, registers.loaded w = none)
    (hServed : Served a registers stranded before)
    (hSchedule : ∀ d, a.dims.resolve call.dims = .ok d → (schedule d).Valid d a.threads) :
    (∀ assigned st, HasStage a schedule call memory before assigned st →
      st.tilesLoaded = true ∧ st.pool.registers.loaded assigned.worker = some .fullInt8) ∧
    (∀ o, a.execute schedule call memory before = .ok o →
      (o.result ≠ .ok () ∨ (a.dims.filled call.dims).isDegenerate = true →
        o.registers = before ∧ o.log = #[]) ∧
      (∀ d, a.dims.resolve call.dims = .ok d → d.isDegenerate = false → o.result = .ok () →
        (∀ assigned ∈ (schedule d).rows,
          ∃ st, HasStage a schedule call memory before assigned st) ∧
        TilesUsed a d (schedule d).rows before o) ∧
      (a.releaseTiles = true →
        ((∀ w < a.threads, o.registers.loaded w = none) ↔ ∀ w ∈ stranded, w ∈ loads o.log))) ∧
    ((∃ fault, a.execute schedule call memory before = .error fault) ↔
      ∃ ran after, Interrupted a schedule call memory before ran after) ∧
    ∀ ran after, Interrupted a schedule call memory before ran after → TilesHeld ran before after := by
  have hRested := rested_served (rested_fresh hThreads hCounts hFresh) hServed
  refine ⟨fun assigned st hStage => loaded_hasStage hRested.roomy hSchedule hStage, ?_,
    execute_faults_iff hSchedule, fun ran after h => (rested_interrupted hRested hSchedule h).1⟩
  intro o hRun
  obtain ⟨hQuiet, hUsed, hAfter⟩ := rested_execute hRested hSchedule hRun
  refine ⟨hQuiet, fun d hDims hProper hOk => ⟨fun assigned hTask => ?_, hUsed d hDims hProper hOk⟩,
    fun hRelease => ?_⟩
  · exact exists_hasStage hDims hProper hRun hOk hTask
  · rw [hAfter.all_released_iff hRelease, stillStranded, List.filter_eq_nil_iff]
    simp

/-- The operator for one head of `2 ^ 17` columns, with two workers. -/
def wide : Attention := { long with threads := 2 }

def wideMemory : Memory :=
  { longMemory with workspace := ⟨0, Array.replicate (Layout.bytesFor ⟨1, 1, 1, 1, 131072⟩ 2) 0⟩ }

/-- A call that returns: no entry of its query counts. -/
def wideCall : Call := { longCall with queries := Array.replicate 131072 0 }

theorem inRange_wide : InRange ⟨1, 1, 1, 1, 131072⟩ 2 :=
  { inRange_long with
    threads_pos := by decide
    bytes := by decide }

theorem problems_wide {queries : Array Int8} (h : queries.size = 131072) :
    wide.problems { longCall with queries } wideMemory = [] := by
  have hBuffers : shortBuffers ⟨1, 1, 1, 1, 131072⟩ { longCall with queries } wideMemory = [] := by
    simp [shortBuffers, shortage, longCall, wideMemory, longMemory, h]
  have hWorkspace : workspaceProblems ⟨1, 1, 1, 1, 131072⟩ 2 wideMemory.workspace = [] := by
    simp [workspaceProblems, wideMemory]
  rw [problems, show wide.dims.filled longCall.dims = ⟨1, 1, 1, 1, 131072⟩ from rfl,
    show wide.dims.missing longCall.dims = [] from rfl, show wide.threads = 2 from rfl, hBuffers,
    hWorkspace]
  rfl

/-- A call of the wide operator with the least entries strands the worker that comes to its task.
The worker has loaded its registers before the product overflows. -/
theorem interrupted_wide {w : Nat} (hRegisters : 2 ≤ before.threads.size)
    (hSchedule : (schedule ⟨1, 1, 1, 1, 131072⟩).Valid ⟨1, 1, 1, 1, 131072⟩ 2)
    (hRows : (schedule ⟨1, 1, 1, 1, 131072⟩).rows = [⟨w, ⟨0, 0⟩⟩]) :
    ∃ after, Interrupted wide schedule longCall wideMemory before [⟨w, ⟨0, 0⟩⟩] after := by
  have hNone : wide.problems longCall wideMemory = [] := problems_wide Array.size_replicate
  obtain ⟨regions, hPreflight⟩ := exists_regions (d := ⟨1, 1, 1, 1, 131072⟩) rfl inRange_wide hNone
  have hLeast : RowMajor.LeastEntries ⟨1, 1, 1, 1, 131072⟩ longCall :=
    RowMajor.leastEntries_replicate longCall (Nat.le_refl _) (Nat.le_refl _)
  have hFault := (execute_eq_error_iff rfl (by decide) hRegisters hPreflight hSchedule).2
    ⟨rfl, hLeast.not_fittingSums inRange_wide (Nat.le_refl _)⟩
  rw [← hRows]
  exact exists_interrupted rfl hPreflight rfl hSchedule hFault

/-- A query without entries other than zero makes no sum grow, so calls with it return where those
with the least entries do not. -/
theorem fittingSums_wideCall (d : Dims) : RowMajor.FittingSums d wideCall := by
  intro batch _ m _ h _ j _ depth _
  have hZero (i : Nat) : wideCall.queries.getD i 0 = 0 := by
    simp only [wideCall, Array.getD_eq_getD_getElem?, Array.getElem?_replicate]
    split <;> rfl
  have hSum : RowMajor.dotTo d wideCall depth batch m h j = 0 :=
    sumTo_of_zero (Nat.zero_le _) fun c _ _ => by
      simp only [RowMajor.entry, hZero]
      exact Int.zero_mul _
  exact hSum ▸ FitsAccumulator.of_natAbs_lt (by decide)

/-- A call of one task has one worker load its registers, and it does so once. -/
theorem TilesUsed.loads_eq_singleton {w : Nat} {task : RowTask}
    (h : TilesUsed a d [⟨w, task⟩] before o) : loads o.log = [w] := by
  refine List.perm_singleton.1 ((List.perm_ext_iff_of_nodup h.once (List.nodup_singleton w)).2 ?_)
  intro v
  rw [h.workers]
  simp [eq_comm]

/-- A call of the wide operator that returns. It gives back what its own worker has loaded. -/
theorem returned_wide {w : Nat} (hRested : Rested wide stranded before)
    (hSchedule : (schedule ⟨1, 1, 1, 1, 131072⟩).Valid ⟨1, 1, 1, 1, 131072⟩ 2)
    (hRows : (schedule ⟨1, 1, 1, 1, 131072⟩).rows = [⟨w, ⟨0, 0⟩⟩]) :
    ∃ o, wide.execute schedule wideCall wideMemory before = .ok o ∧ o.result = .ok () ∧
      loads o.log = [w] := by
  have hNone : wide.problems wideCall wideMemory = [] := problems_wide Array.size_replicate
  obtain ⟨regions, hPreflight⟩ := exists_regions (d := ⟨1, 1, 1, 1, 131072⟩) rfl inRange_wide hNone
  obtain ⟨o, hRun⟩ := (exists_execute_iff rfl (by decide) hRested.roomy.threads hPreflight
    hSchedule).2 (fittingSums_wideCall _)
  have hOk := result_of_preflight hPreflight hRun
  have hValid (d : Dims) (hDims : wide.dims.resolve wideCall.dims = .ok d) :
      (schedule d).Valid d wide.threads := by
    obtain rfl := Except.ok.inj hDims
    exact hSchedule
  have hUsed := (rested_execute hRested hValid hRun).2.1 ⟨1, 1, 1, 1, 131072⟩ rfl rfl hOk
  rw [hRows] at hUsed
  exact ⟨o, hRun, hOk, hUsed.loads_eq_singleton⟩

/-- Whatever the dimensions of a call of the wide operator resolve to, its schedules are valid. A
sequence of calls needs this for each of them, not only for those that it is about. -/
theorem valid_wide (hSchedule : (schedule ⟨1, 1, 1, 1, 131072⟩).Valid ⟨1, 1, 1, 1, 131072⟩ 2)
    (queries : Array Int8) (d : Dims)
    (hDims : wide.dims.resolve { longCall with queries }.dims = .ok d) :
    (schedule d).Valid d wide.threads := by
  obtain rfl := Except.ok.inj hDims
  exact hSchedule

theorem rested_wide : Rested wide [] (.initial 2 1) :=
  rested_fresh (by decide) (by decide) (by decide)

/-- A call of the wide operator that fails on its first worker strands it. The next call returns on
the second worker and gives back the registers it has loaded, yet the first worker keeps its own. -/
theorem loaded_after_release_wide :
    ofDescriptor (Config.ofDims ⟨1, 1, 1, 1, 131072⟩).descriptor .amx { numThreads := some 2 }
        .portable 2 = .ok wide ∧ wide.releaseTiles = true ∧
      ∃ after o, Interrupted wide Schedule.inOrder longCall wideMemory (.initial 2 1)
          [⟨0, ⟨0, 0⟩⟩] after ∧
        wide.execute backwards wideCall wideMemory after = .ok o ∧ o.result = .ok () ∧
        ¬∀ w < wide.threads, o.registers.loaded w = none := by
  have hInOrder := Schedule.valid_inOrder ⟨1, 1, 1, 1, 131072⟩ (by decide : 0 < 2)
  have hBackwards := valid_backwards ⟨1, 1, 1, 1, 131072⟩ (by decide : 1 < 2)
  obtain ⟨after, hFirst⟩ := interrupted_wide rested_wide.roomy.threads hInOrder rfl
  have hAfter := (rested_interrupted rested_wide (valid_wide hInOrder _) hFirst).2
  obtain ⟨o, hSecond, hOk, hLoads⟩ := returned_wide hAfter hBackwards rfl
  have hRested := (rested_execute hAfter (valid_wide hBackwards _) hSecond).2.2
  refine ⟨rfl, rfl, after, o, hFirst, hSecond, hOk, fun hAll => ?_⟩
  have hNone := (hRested.all_released_iff rfl).1 hAll
  rw [stillStranded, hLoads] at hNone
  cases hNone

/-- The first worker of the wide operator is stranded until it comes to a task in a call that
returns. -/
theorem tiles_served_wide :
    ∃ after second third, Interrupted wide Schedule.inOrder longCall wideMemory (.initial 2 1)
        [⟨0, ⟨0, 0⟩⟩] after ∧
      wide.execute backwards wideCall wideMemory after = .ok second ∧
      wide.execute Schedule.inOrder wideCall wideMemory second.registers = .ok third ∧
      (¬∀ w < 2, second.registers.loaded w = none) ∧ (∀ w < 2, third.registers.loaded w = none) ∧
      after.providerCounts = ⟨1, 0⟩ ∧ third.registers.providerCounts = ⟨3, 2⟩ := by
  have hInOrder := Schedule.valid_inOrder ⟨1, 1, 1, 1, 131072⟩ (by decide : 0 < 2)
  have hBackwards := valid_backwards ⟨1, 1, 1, 1, 131072⟩ (by decide : 1 < 2)
  have hThreads : wide.threads ≤ (TileRegisters.initial 2 1).threads.size := by decide
  have hCounts : 0 < (TileRegisters.initial 2 1).counts.size := by decide
  have hFresh : ∀ w < wide.threads, (TileRegisters.initial 2 1).loaded w = none := by decide
  obtain ⟨after, hFirst⟩ := interrupted_wide hThreads hInOrder rfl
  have hServed : Served wide (.initial 2 1) [0] after :=
    .interrupted .none (valid_wide hInOrder _) hFirst
  obtain ⟨second, hSecond, hOk₂, hLoads₂⟩ :=
    returned_wide (rested_served rested_wide hServed) hBackwards rfl
  have hServed₂ := hServed.returned (valid_wide hBackwards _) hSecond
  obtain ⟨third, hThird, hOk₃, hLoads₃⟩ :=
    returned_wide (rested_served rested_wide hServed₂) hInOrder rfl
  have hHeld := (tiles_served hThreads hCounts hFresh .none (valid_wide hInOrder _)).2.2.2 _ _ hFirst
  obtain ⟨-, hUsed₂, hReleased₂⟩ := (tiles_served hThreads hCounts hFresh hServed
    (valid_wide hBackwards _)).2.1 second hSecond
  obtain ⟨-, hUsed₃, hReleased₃⟩ := (tiles_served hThreads hCounts hFresh hServed₂
    (valid_wide hInOrder _)).2.1 third hThird
  have hCounts₂ := (hUsed₂ ⟨1, 1, 1, 1, 131072⟩ rfl rfl hOk₂).2.counts
  have hCounts₃ := (hUsed₃ ⟨1, 1, 1, 1, 131072⟩ rfl rfl hOk₃).2.counts
  refine ⟨after, second, third, hFirst, hSecond, hThird, ?_, ?_, hHeld.counts, ?_⟩
  · intro hAll
    have hUsedAll := (hReleased₂ rfl).1 hAll
    rw [hLoads₂] at hUsedAll
    exact absurd hUsedAll (by decide)
  · refine (hReleased₃ rfl).2 fun w hw => ?_
    rw [hLoads₃]
    exact (mem_stillStranded.1 hw).1
  · rw [hCounts₃, hCounts₂, hHeld.counts, hLoads₂, hLoads₃]
    rfl

end Attention

end QuantAttention
