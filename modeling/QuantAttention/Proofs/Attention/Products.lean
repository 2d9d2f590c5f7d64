import QuantAttention.Proofs.Attention.Accumulator

/-! The products of queries and keys. Nothing limits the columns of a head, so a sum of products can
outgrow its accumulator. It does so in no call exactly if a head has fewer than `2 ^ 17` columns, and
this is the only way in which a call can fail once its check has passed. -/

namespace QuantAttention

/-- A sum of equal terms, which is what the least entries make of a product. -/
theorem sumTo_const (n : Nat) (k : Int) : (sumTo n fun _ => k) = n * k := by
  induction n with
  | zero => simp [sumTo]
  | succ n ih => rw [sumTo, ih, Int.natCast_succ, Int.add_mul, Int.one_mul]

namespace RowMajor

variable {d : Dims}

/-- A problem with nothing to attend to has no sums. No entry of a tensor is looked at for it. -/
theorem fittingSums_of_degenerate (call : Call) (h : d.isDegenerate = true) :
    FittingSums d call := by
  intro batch hBatch m hm head hHead j hj depth hDepth
  have hNoColumn : d.headSize = 0 := by
    by_contra hSize
    -- The entries that the sum is about would need all other dimensions.
    rw [Dims.isDegenerate_eq_false.2 (by omega)] at h
    cases h
  obtain rfl : depth = 0 := by omega
  exact .of_natAbs_lt (by rw [dotTo, sumTo]; decide)

/-- Every product is as great as it can be. -/
structure LeastEntries (d : Dims) (call : Call) : Prop where
  queries : ∀ c < d.headSize, call.queries.getD c 0 = -128
  keys : ∀ c < d.headSize, call.keys.getD c 0 = -128

/-- The sum over such a query and key, the first of the call, grows by `2 ^ 14` with every column.
After `2 ^ 17` columns it is `2 ^ 31`. -/
theorem LeastEntries.dotTo_eq {call : Call} (h : LeastEntries d call) {depth : Nat}
    (hDepth : depth ≤ d.headSize) : dotTo d call depth 0 0 0 0 = depth * 16384 := by
  rw [dotTo, ← sumTo_const depth 16384]
  refine sumTo_congr fun c hc => ?_
  have hColumn : c < d.headSize := Nat.lt_of_lt_of_le hc hDepth
  simp only [entry, Nat.zero_mul, Nat.zero_add, h.queries c hColumn, h.keys c hColumn]
  decide

/-- In a head with `2 ^ 17` columns or more such a sum leaves the range of the accumulator, which
ends right before `2 ^ 31`. -/
theorem LeastEntries.not_fittingSums {call : Call} {threads : Nat} (h : LeastEntries d call)
    (hRange : InRange d threads) (hLong : 131072 ≤ d.headSize) : ¬FittingSums d call := by
  intro hFits
  have hSum := hFits 0 hRange.batchSize_pos 0 hRange.seqQ_pos 0 hRange.headNum_pos 0
    hRange.seqK_pos 131072 hLong
  rw [h.dotTo_eq hLong] at hSum
  exact absurd hSum.2 (by decide)

/-- Long enough queries and keys may have the least entries. The check looks at lengths alone, so it
does not keep such a call out. -/
theorem leastEntries_replicate (call : Call) {q k : Nat} (hQueries : d.headSize ≤ q)
    (hKeys : d.headSize ≤ k) :
    LeastEntries d { call with
      queries := Array.replicate q (-128), keys := Array.replicate k (-128) } where
  queries := fun c hc => by
    simp [Array.getD_eq_getD_getElem?, Nat.lt_of_lt_of_le hc hQueries]
  keys := fun c hc => by
    simp [Array.getD_eq_getD_getElem?, Nat.lt_of_lt_of_le hc hKeys]

end RowMajor

namespace Attending

variable {d : Dims} {call : Call} {maskRows : Array Binary32} {operands : PackedOperands}
  {run : AttendingRun} {assigned : Assigned RowTask} {st : Stage}

/-- The sums of a task that has come to the output kernel have fit the accumulator, for the
probability kernel has formed them. -/
theorem fits_dotTo_of_stage (hPacked : PackedFor d call operands)
    (hBatch : assigned.task.batch < d.batchSize)
    (hStage : stage d (.ofDims d) call maskRows operands run assigned = .ok st) {h r j depth : Nat}
    (hh : h < d.headNum) (hr : r < rowCount d assigned.task) (hj : j < d.seqK)
    (hDepth : depth ≤ d.headSize) :
    FitsAccumulator (RowMajor.dotTo d call depth assigned.task.batch
      (assigned.task.block * blockRows + r) h j) := by
  simp only [stage, Checked.bind_eq_ok, Checked.pure_eq_ok] at hStage
  obtain ⟨_, -, _, -, probabilities, hProbabilities, _, hRun, -⟩ := hStage
  have hFor := probabilityTaskFor hProbabilities
  have hPad : j < pad d.seqK 16 := Nat.lt_of_lt_of_le hj (le_pad (by decide))
  have hFits := Probabilities.fittingSums_of_run hRun h (by rwa [hFor.heads]) r
    (by rwa [hFor.rows]) j (by rwa [hFor.keyCount]) depth (by rwa [hFor.depth])
  rwa [dotTo_eq hFor hPacked hBatch hh hPad hDepth, if_pos hj] at hFits

end Attending

/-- A worker runs the block to which a query belongs. In a valid schedule every block is the task of
one. -/
theorem Schedule.Valid.exists_worker {s : Schedule} {d : Dims} {threads batch m : Nat}
    (h : s.Valid d threads) (hBatch : batch < d.batchSize) (hm : m < d.seqQ) :
    ∃ worker, ⟨worker, ⟨batch, m / blockRows⟩⟩ ∈ s.rows := by
  have hListed : ⟨batch, m / blockRows⟩ ∈ rowTasks d := by
    refine mem_rowTasks.2 ⟨hBatch, ?_⟩
    simp only [blockCount, blockRows]
    omega
  obtain ⟨⟨worker, task⟩, hMem, hTask⟩ := List.mem_map.1 (h.rows_perm.mem_iff.2 hListed)
  obtain rfl : task = ⟨batch, m / blockRows⟩ := hTask
  exact ⟨worker, hMem⟩

/-- Where there is something to compute, there is a worker for it. -/
theorem Schedule.Valid.threads_pos {s : Schedule} {d : Dims} {threads : Nat}
    (h : s.Valid d threads) (hProper : d.isDegenerate = false) : 0 < threads := by
  obtain ⟨hBatch, -, -, hQuery, -⟩ := Dims.isDegenerate_eq_false.1 hProper
  obtain ⟨worker, hTask⟩ := h.exists_worker (Nat.pos_of_ne_zero hBatch) (Nat.pos_of_ne_zero hQuery)
  exact Nat.zero_lt_of_lt (h.rows_worker _ hTask)

namespace Attention

variable {a : Attention} {call : Call} {memory : Memory} {registers : TileRegisters}
  {schedule : Dims → Schedule} {layout : Layout} {regions : WorkspaceRegions}

/-- A call without problems has its dimensions. -/
theorem resolve_of_problems (h : (a.problems call memory).head? = none) :
    a.dims.resolve call.dims = .ok (a.dims.filled call.dims) := by
  rw [List.head?_eq_none_iff, problems, List.append_eq_nil_iff, List.append_eq_nil_iff] at h
  exact Dims.resolve_eq_ok.2 ⟨h.1.1, rfl⟩

/-- The layout of a call that has passed its check is one for its dimensions. -/
theorem resolve_of_preflight (h : a.preflight call memory = .ok (.ok (layout, regions))) :
    a.dims.resolve call.dims = .ok layout.dims := by
  obtain ⟨hNone, rfl, -⟩ := preflight_accepted h
  exact resolve_of_problems hNone

/-- A call that has passed its check and returns has succeeded. There is no error behind the check.
-/
theorem result_of_preflight (h : a.preflight call memory = .ok (.ok (layout, regions)))
    {o : Outcome} (hRun : a.execute schedule call memory registers = .ok o) : o.result = .ok () := by
  rcases execute_result hRun with ⟨e, hFirst, -⟩ | ⟨-, hOk, -⟩
  · rw [(preflight_accepted h).1] at hFirst
    cases hFirst
  · exact hOk

/-- A call that returns has formed all sums over its queries and keys, partial ones included, so
none of them has left the range. -/
theorem fittingSums_of_execute (hPreflight : a.preflight call memory = .ok (.ok (layout, regions)))
    (hSchedule : (schedule layout.dims).Valid layout.dims a.threads) {o : Outcome}
    (hRun : a.execute schedule call memory registers = .ok o) :
    RowMajor.FittingSums layout.dims call := by
  cases hProper : layout.dims.isDegenerate with
  | true => exact RowMajor.fittingSums_of_degenerate call hProper
  | false =>
      intro batch hBatch m hm h hh j hj depth hDepth
      -- A task has the row of the query; since the call has returned, its kernel has formed the sum.
      obtain ⟨worker, hTask⟩ := hSchedule.exists_worker hBatch hm
      have hDims := resolve_of_preflight hPreflight
      obtain ⟨st, _, _, prepared, done, rest, before, hFound, -, hPrepare, -, -, hStage⟩ :=
        exists_hasStage hDims hProper hRun (result_of_preflight hPreflight hRun) hTask
      obtain ⟨rfl, rfl⟩ := Prod.mk.inj (Except.ok.inj (Except.ok.inj (hFound.symm.trans hPreflight)))
      obtain ⟨-, rfl, hFits, -⟩ := preflight_accepted hPreflight
      have hReady := ready_prepare hSchedule.heads_perm hFits.mask hPrepare
      rw [hReady.strides] at hStage
      have hSplit : m / blockRows * blockRows + m % blockRows = m := Nat.div_add_mod' m blockRows
      have hr : m % blockRows < Attending.rowCount (a.dims.filled call.dims)
          ⟨batch, m / blockRows⟩ := by
        simp only [Layout.dims_ofDims, Attending.rowCount, blockRows] at hm hSplit ⊢
        omega
      have hSum := Attending.fits_dotTo_of_stage hReady.packed hBatch hStage hh hr hj hDepth
      rwa [hSplit] at hSum

/-- A call whose check has passed returns exactly if its sums fit the accumulator. This is the one
condition that the check does not look at. -/
theorem exists_execute_iff (hWidth : a.keyPacking.width = packedWidth) (hThreads : 0 < a.threads)
    (hRegisters : a.threads ≤ registers.threads.size)
    (hPreflight : a.preflight call memory = .ok (.ok (layout, regions)))
    (hSchedule : (schedule layout.dims).Valid layout.dims a.threads) :
    (∃ o, a.execute schedule call memory registers = .ok o) ↔
      RowMajor.FittingSums layout.dims call := by
  constructor
  · rintro ⟨o, hRun⟩
    exact fittingSums_of_execute hPreflight hSchedule hRun
  · intro hFits
    have hSafe : FaultsOnly (fun _ => False) (a.execute schedule call memory registers) :=
      execute_faultsOnly_of_sums hPreflight hThreads hRegisters hWidth hSchedule (.inr hFits)
    exact hSafe.exists_value

/-- A call whose check has passed fails exactly if a sum outgrows its accumulator, and there is no
other way in which it can fail. -/
theorem execute_eq_error_iff (hWidth : a.keyPacking.width = packedWidth)
    (hThreads : 0 < a.threads) (hRegisters : a.threads ≤ registers.threads.size)
    (hPreflight : a.preflight call memory = .ok (.ok (layout, regions)))
    (hSchedule : (schedule layout.dims).Valid layout.dims a.threads) {fault : Fault} :
    a.execute schedule call memory registers = .error fault ↔
      fault = .accumulatorOverflow ∧ ¬RowMajor.FittingSums layout.dims call := by
  have hSafe : FaultsOnly (fun fault => fault = .accumulatorOverflow)
      (a.execute schedule call memory registers) :=
    execute_faultsOnly_of_sums hPreflight hThreads hRegisters hWidth hSchedule (.inl rfl)
  exact hSafe.eq_error_iff (exists_execute_iff hWidth hThreads hRegisters hPreflight hSchedule)

/-- The sums fit for all queries and keys of a call's sizes exactly if there is nothing to attend to
or a head has fewer than `2 ^ 17` columns. -/
theorem fittingSums_iff (hThreads : 0 < a.threads)
    (hPreflight : a.preflight call memory = .ok (.ok (layout, regions))) :
    (∀ queries keys : Array Int8, queries.size = call.queries.size → keys.size = call.keys.size →
        RowMajor.FittingSums layout.dims { call with queries, keys }) ↔
      layout.dims.isDegenerate = true ∨ layout.dims.headSize < 131072 := by
  constructor
  · intro hAll
    by_contra hNot
    rw [not_or, Bool.not_eq_true, Nat.not_lt] at hNot
    obtain ⟨hProper, hLong⟩ := hNot
    have hRange := inRange_preflight hPreflight hThreads hProper
    obtain ⟨-, rfl, hFits, -⟩ := preflight_accepted hPreflight
    have hHead := Nat.le_mul_of_pos_left (a.dims.filled call.dims).headSize hRange.headNum_pos
    have hQueries := Nat.le_trans (Nat.le_mul_of_pos_left _ hRange.rows_pos) hFits.queries
    have hKeys := Nat.le_trans (Nat.le_mul_of_pos_left _
      (Nat.mul_pos hRange.batchSize_pos hRange.seqK_pos)) hFits.keys
    have hLeast := RowMajor.leastEntries_replicate call (Nat.le_trans hHead hQueries)
      (Nat.le_trans hHead hKeys)
    exact hLeast.not_fittingSums hRange hLong (hAll _ _ Array.size_replicate Array.size_replicate)
  · rintro (hDegenerate | hShort) queries keys - -
    · exact RowMajor.fittingSums_of_degenerate _ hDegenerate
    · exact RowMajor.fittingSums_of_lt _ hShort

variable {desc : OperatorDesc} {host : Capability} {settings : Settings} {hostThreads : Nat}

/-- A call whose check has passed fails exactly if a sum over a query and a key outgrows its
accumulator. No queries and keys of the same sizes make it fail exactly if there is nothing to attend
to or a head has fewer than `2 ^ 17` columns. -/
theorem products_fit_iff
    (hBuilt : ofDescriptor desc host settings .portable hostThreads = .ok a) (hThreads : 0 < a.threads)
    (hRegisters : a.threads ≤ registers.threads.size)
    (hPreflight : a.preflight call memory = .ok (.ok (layout, regions)))
    (hSchedule : (schedule layout.dims).Valid layout.dims a.threads) :
    (∀ fault, a.execute schedule call memory registers = .error fault ↔
      fault = .accumulatorOverflow ∧ ¬RowMajor.FittingSums layout.dims call) ∧
    ((∀ queries keys : Array Int8, queries.size = call.queries.size → keys.size = call.keys.size →
        RowMajor.FittingSums layout.dims { call with queries, keys }) ↔
      layout.dims.isDegenerate = true ∨ layout.dims.headSize < 131072) :=
  ⟨fun _ => execute_eq_error_iff (width_of_ofDescriptor hBuilt) hThreads hRegisters hPreflight
    hSchedule, fittingSums_iff hThreads hPreflight⟩

/-- The heads of the small operator are short, so its calls succeed whatever their queries and keys
are. -/
theorem products_fit_small :
    (∃ o, (small 2).execute backwards (smallCall 0) (smallMemory 2 255) (.initial 9 1) = .ok o) ∧
      ∀ queries keys : Array Int8, queries.size = 4 → keys.size = 12 →
        RowMajor.FittingSums ⟨1, 2, 1, 3, 2⟩ { smallCall 0 with queries, keys } := by
  obtain ⟨regions, hPreflight⟩ := exists_regions (a := small 2) rfl
    (inRange_small (by decide) (by decide)) (problems_small 2 0 255)
  have hRegisters : 2 ≤ (TileRegisters.initial 9 1).threads.size := by decide
  obtain ⟨hFails, hAll⟩ := products_fit_iff ofDescriptor_small (by decide) hRegisters hPreflight
    (valid_backwards ⟨1, 2, 1, 3, 2⟩ (by decide : 1 < 2))
  have hFits := hAll.2 (.inr (by decide))
  refine ⟨?_, hFits⟩
  cases hRun : (small 2).execute backwards (smallCall 0) (smallMemory 2 255) (.initial 9 1) with
  | ok o => exact ⟨o, rfl⟩
  | error fault => exact absurd (hFits _ _ rfl rfl) ((hFails fault).1 hRun).2

/-- A call of one query and one key in a head of `2 ^ 17` columns, with the least entries. -/
def longCall : Call where
  queries := Array.replicate 131072 (-128)
  keys := Array.replicate 131072 (-128)
  values := Array.replicate 131072 0
  mask := #[0]
  queryScale := #[0]
  keyScale := #[0]
  valueScale := #[0]
  dims := {}

def longMemory : Memory where
  output := Array.replicate 131072 0
  outputScale := #[0]
  workspace := ⟨0, Array.replicate (Layout.bytesFor ⟨1, 1, 1, 1, 131072⟩ 1) 0⟩

/-- The operator for one head of `2 ^ 17` columns. -/
def long : Attention where
  dims := ⟨1, 1, 1, 1, 131072⟩
  threads := 1
  releaseTiles := true
  keyPacking := .wide

theorem problems_long : long.problems longCall longMemory = [] := by
  have hBuffers : shortBuffers ⟨1, 1, 1, 1, 131072⟩ longCall longMemory = [] := by
    simp [shortBuffers, shortage, longCall, longMemory]
  have hWorkspace : workspaceProblems ⟨1, 1, 1, 1, 131072⟩ 1 longMemory.workspace = [] := by
    simp [workspaceProblems, longMemory]
  rw [problems, show long.dims.filled longCall.dims = ⟨1, 1, 1, 1, 131072⟩ from rfl,
    show long.dims.missing longCall.dims = [] from rfl, show long.threads = 1 from rfl, hBuffers,
    hWorkspace]
  rfl

/-- No size of the long problem comes near its limit. What it exceeds is the accumulator. -/
theorem inRange_long : InRange ⟨1, 1, 1, 1, 131072⟩ 1 where
  batchSize_pos := by decide
  headNum_pos := by decide
  seqQ_pos := by decide
  seqK_pos := by decide
  headSize_pos := by decide
  threads_pos := by decide
  seqK_padded := by decide
  headSize_padded := by decide
  queries := by decide
  keys := by decide
  bytes := by decide

/-- The operator for one head of `2 ^ 17` columns is built and the check of its call passes, yet the
call fails in its one product, `2 ^ 17` times `2 ^ 14`. -/
theorem execute_long :
    ofDescriptor (Config.ofDims ⟨1, 1, 1, 1, 131072⟩).descriptor .amx { numThreads := some 1 }
        .portable 1 = .ok long ∧
      (∃ regions, long.preflight longCall longMemory =
        .ok (.ok (Layout.ofDims ⟨1, 1, 1, 1, 131072⟩ 1, regions))) ∧
      ¬RowMajor.FittingSums ⟨1, 1, 1, 1, 131072⟩ longCall ∧
      long.execute Schedule.inOrder longCall longMemory (.initial 1 1) =
        .error .accumulatorOverflow := by
  obtain ⟨regions, hPreflight⟩ := exists_regions (a := long) (d := ⟨1, 1, 1, 1, 131072⟩) rfl
    inRange_long problems_long
  have hLeast : RowMajor.LeastEntries ⟨1, 1, 1, 1, 131072⟩ longCall :=
    RowMajor.leastEntries_replicate longCall (Nat.le_refl _) (Nat.le_refl _)
  have hOutgrown := hLeast.not_fittingSums inRange_long (Nat.le_refl _)
  have hRegisters : 1 ≤ (TileRegisters.initial 1 1).threads.size := by decide
  have hFault := (execute_eq_error_iff rfl (by decide) hRegisters hPreflight
    (Schedule.valid_inOrder _ (by decide))).2 ⟨rfl, hOutgrown⟩
  exact ⟨rfl, ⟨regions, hPreflight⟩, hOutgrown, hFault⟩

end Attention

end QuantAttention
