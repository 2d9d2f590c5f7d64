import QuantAttention.Proofs.Attention.Correctness
import QuantAttention.Proofs.Workspace

/-! What a call leaves alone. It writes the output entries and scales of its dimensions, and of every
region of the workspace only what belongs to the slices of batches, heads or workers. -/

namespace QuantAttention

namespace Packing

variable {a : Attention} {d : Dims} {call : Call} {run run' : PackingRun} {task : HeadTask}

/-- What is written of a head lies in the part of that head, and so before the end of the parts of
all heads. -/
theorem writesKey_lt (hTask : Listed d task)
    (hWidth : pad d.headSize a.keyPacking.width ≤ (Strides.ofDims d).keyDepth) {p : Nat}
    (hp : WritesKey a d task p) : p < d.batchSize * d.headNum * (Strides.ofDims d).headKeys := by
  obtain ⟨block, hBlock, i, hi, rfl⟩ := hp
  have hCell := mul_add_lt_mul hBlock (show i < 16 * (Strides.ofDims d).keyDepth by omega)
  rw [← Strides.headKeys_eq_blocks] at hCell
  exact mul_add_lt_mul (mul_add_lt_mul hTask.1 hTask.2) hCell

theorem writesValue_lt (hTask : Listed d task) {p : Nat} (hp : WritesValue d task p) :
    p < d.batchSize * d.headNum * (Strides.ofDims d).headValues := by
  obtain ⟨block, hBlock, i, hi, rfl⟩ := hp
  have hCell := mul_add_lt_mul hBlock hi
  rw [← Strides.headValues_eq_blocks] at hCell
  exact mul_add_lt_mul (mul_add_lt_mul hTask.1 hTask.2) hCell

theorem writesScale_lt (hTask : Listed d task) {p : Nat} (hp : WritesScale d task p) :
    p < d.batchSize * d.headNum * (Strides.ofDims d).headScales := by
  obtain ⟨block, hBlock, i, hi, rfl⟩ := hp
  exact mul_add_lt_mul (mul_add_lt_mul hTask.1 hTask.2) (mul_add_lt_mul hBlock hi)

/-- How far the first phase may write each of the operands. -/
structure KeptBehind (d : Dims) (before after : PackedOperands) : Prop where
  keys : KeptFrom (d.batchSize * d.headNum * (Strides.ofDims d).headKeys) before.keys after.keys
  values : KeptFrom (d.batchSize * d.headNum * (Strides.ofDims d).headValues) before.values
    after.values
  valueScale : KeptFrom (d.batchSize * d.headNum * (Strides.ofDims d).headScales) before.valueScale
    after.valueScale

/-- Packing a head of the problem writes nothing behind the parts of the heads. -/
theorem keptBehind_packHead {assigned : Assigned HeadTask} (hTask : Listed d assigned.task)
    (hKeys : 0 < d.seqK) (h : packHead a d (.ofDims d) call run assigned = .ok run') :
    KeptBehind d run.operands run'.operands := by
  obtain ⟨hKeyBlocks, hValueBlocks, hScales⟩ := packHead_rewritten hTask.2 hKeys h
  exact {
    keys := .of_rewritten hKeyBlocks fun _ => writesKey_lt hTask (width_le_of_packHead hKeys h)
    values := .of_rewritten hValueBlocks fun _ => writesValue_lt hTask
    valueScale := .of_rewritten hScales fun _ => writesScale_lt hTask }

/-- Packing writes nothing behind the parts of the heads, which lie in their regions. The induction
is on the tasks. -/
theorem keptBehind_pack {tasks : List (Assigned HeadTask)} {operands : PackedOperands}
    (hTasks : ∀ assigned ∈ tasks, Listed d assigned.task)
    (h : pack a d (.ofDims d) call tasks operands = .ok run) :
    d.batchSize * d.headNum * (Strides.ofDims d).headKeys ≤ operands.keys.size ∧
      d.batchSize * d.headNum * (Strides.ofDims d).headValues ≤ operands.values.size ∧
      d.batchSize * d.headNum * (Strides.ofDims d).headScales ≤ operands.valueScale.size ∧
      KeptBehind d operands run.operands := by
  obtain ⟨hUsedKeys, hUsedValues, hUsedScales, hBlock, hFold⟩ := pack_spec h
  have hKeys := Strides.valueBlock_pos.1 hBlock
  refine ⟨hUsedKeys, hUsedValues, hUsedScales, ?_⟩
  refine Checked.foldlM_induction (fun s => KeptBehind d operands s.operands)
    ⟨.refl _ _, .refl _ _, .refl _ _⟩ (fun assigned hMem s t hs hStep => ?_) hFold
  have hThis := keptBehind_packHead (hTasks assigned hMem) hKeys hStep
  exact ⟨hs.keys.trans hThis.keys, hs.values.trans hThis.values,
    hs.valueScale.trans hThis.valueScale⟩

end Packing

namespace Attending

variable {d : Dims} {s : Strides} {call : Call} {maskRows : Array Binary32}
  {operands : PackedOperands} {run run' : AttendingRun} {assigned : Assigned RowTask}
  {perWorker workers : Nat} {rest : Array UInt8}

/-- A task of the second phase changes no byte of the scratch region but those of slots. It writes
scratch through its own slot, and the slots keep their lengths. -/
theorem cut_attendBlock (hCut : run.pool.sessions.Cut perWorker workers rest)
    (h : attendBlock d s call maskRows operands run assigned = .ok run') :
    run'.pool.sessions.Cut perWorker workers rest := by
  obtain ⟨worker, task⟩ := assigned
  simp only [attendBlock, stage, arrive, Checked.bind_eq_ok, Checked.pure_eq_ok] at h
  obtain ⟨_, ⟨_, ⟨_, -, pool, hPool, rfl⟩, before, hBefore, probabilities, -, scratch, hScratchRun,
    outputs, -, row, -, rfl⟩, block, -, sessions, hSessions, rfl⟩ := h
  have hPoolCut := Pool.cut_ensureTiles hCut hPool
  have hSize := Probabilities.size_run hScratchRun
  exact hPoolCut.setScratch (hSize.trans (hPoolCut.size_scratch hBefore)) hSessions

end Attending

namespace Attention

variable {a : Attention} {d : Dims} {call : Call} {memory : Memory} {registers : TileRegisters}
  {o : Outcome}

/-- How much of each region a call may write: nothing of the mask where its rows need no padding,
and elsewhere the slices of batches, of heads, or of workers. -/
def usedBytes (l : Layout) (s : Strides) (perWorker : Nat) : List Nat :=
  let heads := l.dims.batchSize * l.dims.headNum
  [Layout.numberBytes * PreparedMask.used l.dims.batchSize l.dims.seqK, heads * s.headKeys,
    heads * s.headValues, Layout.numberBytes * (heads * s.headScales), l.threads * perWorker]

/-- What the two phases leave of the regions of the workspace. -/
structure Confined (d : Dims) (threads perWorker : Nat) (before after : WorkspaceRegions) :
    Prop where
  mask : PreparedMask.used d.batchSize d.seqK ≤ before.mask.size ∧
    KeptFrom (PreparedMask.used d.batchSize d.seqK) before.mask after.mask
  keys : d.batchSize * d.headNum * (Strides.ofDims d).headKeys ≤ before.keys.size ∧
    KeptFrom (d.batchSize * d.headNum * (Strides.ofDims d).headKeys) before.keys after.keys
  values : d.batchSize * d.headNum * (Strides.ofDims d).headValues ≤ before.values.size ∧
    KeptFrom (d.batchSize * d.headNum * (Strides.ofDims d).headValues) before.values after.values
  valueScale : d.batchSize * d.headNum * (Strides.ofDims d).headScales ≤ before.valueScale.size ∧
    KeptFrom (d.batchSize * d.headNum * (Strides.ofDims d).headScales) before.valueScale
      after.valueScale
  scratch : threads * perWorker ≤ before.scratch.size ∧
    KeptFrom (threads * perWorker) before.scratch after.scratch
  tail : after.tail = before.tail

/-- Both phases and the preparation of the mask are confined: each writes to the used bytes at the
start of its regions, and the workspace behind the regions is not theirs. -/
theorem confined_compute {schedule : Schedule} {regions : WorkspaceRegions}
    (hSchedule : schedule.Valid d a.threads)
    (h : a.compute schedule call (Layout.ofDims d a.threads) regions memory registers = .ok o) :
    ∃ perWorker after, (Layout.ofDims d a.threads).strides = .ok (.ofDims d) ∧
      (Layout.ofDims d a.threads).workerScratchBytes = .ok perWorker ∧
      o.memory.workspace = { memory.workspace with bytes := after.toBytes } ∧
      Confined d a.threads perWorker regions after := by
  simp only [compute, Checked.bind_eq_ok, Checked.pure_eq_ok] at h
  obtain ⟨p, hPrepare, run, hAttend, pool, hFinish, rfl⟩ := h
  simp only [prepare, Checked.bind_eq_ok, Checked.pure_eq_ok] at hPrepare
  obtain ⟨perWorker, hPerWorker, sessions, hCarve, strides, hStrides, packing, hPacking, mask, hMask,
    rfl⟩ := hPrepare
  obtain rfl := Layout.strides_eq_ofDims hStrides
  have hTasks (assigned : Assigned HeadTask) (hMem : assigned ∈ schedule.heads) :
      Packing.Listed d assigned.task :=
    Schedule.mem_headTasks.1 (hSchedule.heads_perm.mem_iff.1 (List.mem_map_of_mem hMem))
  obtain ⟨hKeys, hValues, hScales, hPacked⟩ := Packing.keptBehind_pack hTasks hPacking
  obtain ⟨hSlots, hScratch⟩ := Sessions.carve_spec hCarve
  have hCarved : sessions.Cut perWorker a.threads sessions.rest :=
    ⟨hSlots, fun slot hSlot => (hScratch slot hSlot).1, rfl⟩
  have hRun : run.pool.sessions.Cut perWorker a.threads sessions.rest :=
    Checked.foldlM_induction (fun s => s.pool.sessions.Cut perWorker a.threads sessions.rest) hCarved
      (fun _ _ _ _ hBefore hStep => Attending.cut_attendBlock hBefore hStep)
      (Attending.foldlM_of_attend hAttend).2
  have hFinished : pool.sessions.Cut perWorker a.threads sessions.rest := by
    rw [finish] at hFinish
    split at hFinish
    · obtain ⟨⟨released, count⟩, hRelease, hFinish⟩ := Checked.bind_eq_ok.1 hFinish
      cases hFinish
      exact Pool.cut_releaseAll hRun hRelease
    · cases hFinish
      exact hRun
  refine ⟨perWorker, _, hStrides, hPerWorker, rfl, ?_⟩
  exact {
    mask := PreparedMask.keptFrom_prepare hMask
    keys := ⟨hKeys, hPacked.keys⟩
    values := ⟨hValues, hPacked.values⟩
    valueScale := ⟨hScales, hPacked.valueScale⟩
    scratch := by
      rw [← Sessions.region_carve hCarve]
      exact ⟨hCarved.le_size_region, hCarved.keptFrom_region hFinished⟩
    tail := rfl }

/-- Regions stay as long as they were, whatever is written to them. -/
theorem Confined.fills {threads perWorker : Nat} {before after : WorkspaceRegions} {l : Layout}
    (h : Confined d threads perWorker before after) (hFills : before.Fills l) : after.Fills l := by
  rw [WorkspaceRegions.Fills, ← hFills]
  simp only [WorkspaceRegions.parts, List.map_cons, List.map_nil, h.mask.2.bytesOfNumbers.size_eq,
    h.keys.2.bytesOfEntries.size_eq, h.values.2.bytesOfEntries.size_eq,
    h.valueScale.2.bytesOfNumbers.size_eq, h.scratch.2.size_eq]

/-- What the regions are confined to, byte by byte, counted from the start of the workspace. -/
theorem Confined.getElem?_toBytes {threads perWorker : Nat} {before after : WorkspaceRegions}
    (h : Confined d threads perWorker before after) (hFills : before.Fills (Layout.ofDims d threads))
    (hLayout : (Layout.ofDims d threads).Contiguous) {region : Region} {used : Nat}
    (hUsed : (region, used) ∈ (Layout.ofDims d threads).regions.zip
      (usedBytes (Layout.ofDims d threads) (.ofDims d) perWorker)) :
    used ≤ region.length ∧ ∀ i, used ≤ i → i < region.length →
      after.toBytes[region.offset + i]? = before.toBytes[region.offset + i]? := by
  have hPart {x y : Array UInt8} (hx : (region, x) ∈ (Layout.ofDims d threads).regions.zip before.parts)
      (hy : (region, y) ∈ (Layout.ofDims d threads).regions.zip after.parts)
      (hFits : used ≤ x.size) (hKept : KeptFrom used x y) :
      used ≤ region.length ∧ ∀ i, used ≤ i → i < region.length →
        after.toBytes[region.offset + i]? = before.toBytes[region.offset + i]? := by
    refine ⟨WorkspaceRegions.size_part hFills hx ▸ hFits, fun i hi hInside => ?_⟩
    rw [WorkspaceRegions.getElem?_toBytes hLayout (h.fills hFills) hy hInside,
      WorkspaceRegions.getElem?_toBytes hLayout hFills hx hInside, hKept.kept i hi]
  have hNumbers {n : Nat} {xs : Array Binary32} (hn : n ≤ xs.size) :
      Layout.numberBytes * n ≤ (bytesOfNumbers xs).size := by
    rw [bytesOfNumbers, Array.size_ofFn]
    exact Nat.mul_le_mul_left 4 hn
  have hEntries {n : Nat} {xs : Array Int8} (hn : n ≤ xs.size) : n ≤ (bytesOfEntries xs).size := by
    rwa [bytesOfEntries, Array.size_map]
  simp only [Layout.regions, usedBytes, List.zip_cons_cons, List.zip_nil_right,
    List.mem_cons, Prod.mk.injEq, List.not_mem_nil, or_false] at hUsed
  rcases hUsed with ⟨rfl, rfl⟩ | ⟨rfl, rfl⟩ | ⟨rfl, rfl⟩ | ⟨rfl, rfl⟩ | ⟨rfl, rfl⟩
  · exact hPart (.head _) (.head _) (hNumbers h.mask.1) h.mask.2.bytesOfNumbers
  · exact hPart (.tail _ (.head _)) (.tail _ (.head _)) (hEntries h.keys.1) h.keys.2.bytesOfEntries
  · exact hPart (.tail _ (.tail _ (.head _))) (.tail _ (.tail _ (.head _))) (hEntries h.values.1)
      h.values.2.bytesOfEntries
  · exact hPart (.tail _ (.tail _ (.tail _ (.head _)))) (.tail _ (.tail _ (.tail _ (.head _))))
      (hNumbers h.valueScale.1) h.valueScale.2.bytesOfNumbers
  · exact hPart (.tail _ (.tail _ (.tail _ (.tail _ (.head _)))))
      (.tail _ (.tail _ (.tail _ (.tail _ (.head _))))) h.scratch.1 h.scratch.2

/-- A call that succeeds writes the output entries and the output scales of its dimensions, and of the
workspace at most the used bytes at the start of each region. -/
theorem execute_frame {schedule : Dims → Schedule} (hDims : a.dims.resolve call.dims = .ok d)
    (hProper : d.isDegenerate = false) (hSchedule : (schedule d).Valid d a.threads)
    (hRun : a.execute schedule call memory registers = .ok o) (hOk : o.result = .ok ()) :
    (∀ i, o.memory.output[i]? =
      if i < d.batchSize * d.seqQ * d.headNum * d.headSize then (RowMajor.output d call)[i]?
      else memory.output[i]?) ∧
    (∀ i, o.memory.outputScale[i]? =
      if i < d.batchSize * d.seqQ then (RowMajor.outputScale d call)[i]?
      else memory.outputScale[i]?) ∧
    ∃ layout strides perWorker total, Layout.plan d a.threads = .ok layout ∧
      layout.strides = .ok strides ∧ layout.workerScratchBytes = .ok perWorker ∧
      layout.totalBytes = .ok total ∧
      o.memory.workspace.address = memory.workspace.address ∧
      o.memory.workspace.bytes.size = memory.workspace.bytes.size ∧
      (∀ i, total ≤ i → o.memory.workspace.bytes[i]? = memory.workspace.bytes[i]?) ∧
      ∀ region used, (region, used) ∈ layout.regions.zip (usedBytes layout strides perWorker) →
        used ≤ region.length ∧ ∀ i, used ≤ i → i < region.length →
          o.memory.workspace.bytes[region.offset + i]? =
            memory.workspace.bytes[region.offset + i]? := by
  obtain ⟨regions, hPreflight, hFits, hCompute⟩ := exists_compute hDims hProper hRun hOk
  obtain ⟨-, -, -, hSplit⟩ := preflight_accepted hPreflight
  have hPlan := plan_of_preflight hPreflight
  have hLayout := Layout.contiguous_plan hPlan
  have hFills := Workspace.fills_split hLayout hSplit
  have hBytes := Workspace.toBytes_split hLayout hSplit
  obtain ⟨total, hTotal, -⟩ := Checked.bind_eq_ok.1 hSplit
  obtain ⟨-, rfl⟩ := Region.stop_eq_ok.1 hTotal
  obtain ⟨-, hOutput, hScale⟩ := compute_rewritten hSchedule hFits.mask hCompute
  obtain ⟨perWorker, after, hStrides, hPerWorker, hWorkspace, hConfined⟩ :=
    confined_compute hSchedule hCompute
  have hAfter := hConfined.fills hFills
  refine ⟨fun i => ?_, fun i => ?_, _, _, perWorker, _, hPlan, hStrides, hPerWorker, hTotal, ?_⟩
  · rw [Nat.mul_assoc (d.batchSize * d.seqQ), RowMajor.output_eq_ofFn]
    exact hOutput.getElem?_eq hFits.output i
  · rw [RowMajor.outputScale_eq_ofFn]
    exact hScale.getElem?_eq hFits.outputScale i
  · rw [hWorkspace, ← hBytes]
    refine ⟨rfl, ?_, fun i hi => ?_, fun region used hUsed =>
      hConfined.getElem?_toBytes hFills hLayout hUsed⟩
    · rw [WorkspaceRegions.size_toBytes hLayout hAfter, WorkspaceRegions.size_toBytes hLayout hFills,
        hConfined.tail]
    · rw [WorkspaceRegions.getElem?_toBytes_tail hLayout hAfter hi,
        WorkspaceRegions.getElem?_toBytes_tail hLayout hFills hi, hConfined.tail]

/-- The small call keeps the byte behind the padded mask row and the byte behind the regions, though
the workspace was full of other bytes when it began. -/
theorem execute_frame_small :
    ∃ o : Outcome, (small 2).execute backwards (smallCall 0) (smallMemory 2 255) (.initial 9 1) =
        .ok o ∧
      o.result = .ok () ∧ o.memory.output[3]? = some 7 ∧ o.memory.output[4]? = some (-1 : Int8) ∧
      o.memory.workspace.bytes[64]? = some 255 ∧ o.memory.workspace.bytes[33536]? = some 255 := by
  have hSchedule := valid_backwards ⟨1, 2, 1, 3, 2⟩ (by decide : 1 < 2)
  obtain ⟨o, hRun, hOk⟩ := exists_small (by decide) (by decide) 0 255 hSchedule
  obtain ⟨hOutput, -, layout, strides, perWorker, total, hPlan, -, -, hTotal, -, -, hTail, hRegions⟩ :=
    execute_frame (d := ⟨1, 2, 1, 3, 2⟩) rfl rfl hSchedule hRun hOk
  obtain rfl := Layout.eq_ofDims_of_plan hPlan
  obtain rfl := Layout.eq_bytesFor_of_totalBytes hTotal
  have hByte (i : Nat) (hi : i < 33539) : (smallMemory 2 255).workspace.bytes[i]? = some 255 := by
    simp [smallMemory, show Layout.bytesFor ⟨1, 2, 1, 3, 2⟩ 2 = 33536 by decide, hi]
  have hRow : (RowMajor.output ⟨1, 2, 1, 3, 2⟩ (smallCall 0))[3]? = some 7 := by decide +kernel
  refine ⟨o, hRun, hOk, (hOutput 3).trans hRow, hOutput 4, ?_, ?_⟩
  · have hMask := (hRegions _ _ (.head _)).2 64 (by decide) (by decide)
    exact hMask.trans (hByte 64 (by decide))
  · exact (hTail 33536 (by decide)).trans (hByte 33536 (by decide))

end Attention

end QuantAttention
