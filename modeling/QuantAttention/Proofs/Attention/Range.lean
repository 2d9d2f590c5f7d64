import QuantAttention.Proofs.Attention.Overflow
import QuantAttention.Proofs.Workspace
import QuantAttention.Proofs.Positions

/-! What a passed check says about the sizes of a call: which products of its dimensions are sizes,
and how long the regions of its workspace are. -/

namespace QuantAttention

variable {d : Dims} {threads : Nat}

/-- There is something to compute, and everything that the phases count is a size. -/
structure InRange (d : Dims) (threads : Nat) : Prop where
  batchSize_pos : 0 < d.batchSize
  headNum_pos : 0 < d.headNum
  seqQ_pos : 0 < d.seqQ
  seqK_pos : 0 < d.seqK
  headSize_pos : 0 < d.headSize
  threads_pos : 0 < threads
  seqK_padded : d.seqK + 64 < Size.limit
  headSize_padded : d.headSize + 64 < Size.limit
  queries : d.batchSize * d.seqQ * (d.headNum * d.headSize) < Size.limit
  keys : d.batchSize * d.seqK * (d.headNum * d.headSize) < Size.limit
  bytes : Layout.bytesFor d threads < Size.limit

namespace InRange

variable (h : InRange d threads)
include h

theorem token_pos : 0 < d.headNum * d.headSize := Nat.mul_pos h.headNum_pos h.headSize_pos

theorem rows_pos : 0 < d.batchSize * d.seqQ := Nat.mul_pos h.batchSize_pos h.seqQ_pos

/-- The entries of a token can be counted, since there is room for a token at least in the queries.
-/
theorem token_lt : d.headNum * d.headSize < Size.limit :=
  Nat.lt_of_le_of_lt (Nat.le_mul_of_pos_left _ h.rows_pos) h.queries

theorem rows_lt : d.batchSize * d.seqQ < Size.limit :=
  Nat.lt_of_le_of_lt (Nat.le_mul_of_pos_right _ h.token_pos) h.queries

theorem keyRows_lt : d.batchSize * d.seqK < Size.limit :=
  Nat.lt_of_le_of_lt (Nat.le_mul_of_pos_right _ h.token_pos) h.keys

/-- Each part of a workspace can be counted because the end of its layout can. So it is with the
padded mask, the packed operands, their scales and the scratch. -/
theorem packedBytes_lt : Layout.packedBytes d < Size.limit := by
  have hBytes := h.bytes
  simp only [Layout.bytesFor, Layout.ofDims] at hBytes
  omega

theorem mask_lt : 4 * (d.batchSize * pad d.seqK 64) < Size.limit := by
  have hBytes := h.bytes
  simp only [Layout.bytesFor, Layout.ofDims, Layout.numberBytes, Nat.mul_assoc] at hBytes ⊢
  omega

theorem scales_lt : 4 * (d.batchSize * d.headNum * pad d.headSize 64) < Size.limit := by
  have hBytes := h.bytes
  simp only [Layout.bytesFor, Layout.ofDims, Layout.numberBytes, Nat.mul_assoc] at hBytes ⊢
  omega

theorem scratch_lt : 4 * (threads * (16 * (d.headNum * pad d.seqK 64))) < Size.limit := by
  have hBytes := h.bytes
  simp only [Layout.bytesFor, Layout.ofDims, Layout.numberBytes, Nat.mul_assoc] at hBytes ⊢
  omega

theorem worker_lt : 16 * (d.headNum * pad d.seqK 64) < Size.limit := by
  have hLe := Nat.le_mul_of_pos_left (16 * (d.headNum * pad d.seqK 64)) h.threads_pos
  have hScratch := h.scratch_lt
  omega

/-- The probabilities of sixteen queries over all heads are counted in sizes. A worker has its
scratch for them. -/
theorem block_lt : 16 * pad d.seqK 64 < Size.limit := by
  have hLe := Nat.le_mul_of_pos_left (pad d.seqK 64) h.headNum_pos
  have hWorker := h.worker_lt
  omega

/-- The packed keys or values of one head are counted in sizes, as they are a part of those of all
heads. -/
theorem head_lt : pad d.seqK 64 * pad d.headSize 64 < Size.limit := by
  refine Nat.lt_of_le_of_lt ?_ h.packedBytes_lt
  rw [Layout.packedBytes, Nat.mul_assoc (d.batchSize * d.headNum)]
  exact Nat.le_mul_of_pos_left _ (Nat.mul_pos h.batchSize_pos h.headNum_pos)

/-- Sixteen rows of the output. -/
theorem tokenBlock_lt : 16 * (d.headNum * d.headSize) < Size.limit := by
  refine Nat.lt_of_le_of_lt ?_ h.packedBytes_lt
  have hKeys : 16 ≤ pad d.seqK 64 := by
    have hSeqK := h.seqK_pos
    simp only [pad]
    omega
  have hHeads := Nat.le_mul_of_pos_left d.headNum h.batchSize_pos
  calc 16 * (d.headNum * d.headSize)
      = d.headNum * 16 * d.headSize := by rw [Nat.mul_left_comm, Nat.mul_assoc]
    _ ≤ d.batchSize * d.headNum * pad d.seqK 64 * pad d.headSize 64 :=
        Nat.mul_le_mul (Nat.mul_le_mul hHeads hKeys) (le_pad (by decide))

end InRange

namespace InRange

variable {allowed : Fault → Prop} (h : InRange d threads)
include h

/-- The shapes of all data buffers can be counted. -/
theorem shapes (call : Call) (memory : Memory) :
    ∀ x ∈ d.dataShapes.zip (Attention.dataLengths call memory),
      (∀ n ∈ x.1.2, 0 < n) ∧ x.1.2.prod < Size.limit := by
  have hQueries := h.queries
  have hKeys := h.keys
  simp only [Nat.mul_assoc] at hQueries hKeys
  simp only [Dims.dataShapes, Attention.dataLengths, List.zip_cons_cons, List.zip_nil_left,
    List.forall_mem_cons, List.prod_cons, List.prod_nil, Nat.mul_one, Nat.one_mul, h.batchSize_pos,
    h.headNum_pos, h.seqQ_pos, h.seqK_pos, h.headSize_pos, hQueries, hKeys, h.rows_lt, h.keyRows_lt,
    List.not_mem_nil, false_implies, implies_true, and_self, Nat.zero_lt_one]

/-- Dimensions in range are those of a layout that can be planned to its end. -/
theorem plannable : Layout.Plannable d threads := by
  have hBytes := h.bytes
  simp only [Layout.bytesFor, Layout.ofDims, Layout.packedBytes] at hBytes
  have hKeys : 0 < pad d.seqK 64 := Nat.lt_of_lt_of_le h.seqK_pos (le_pad (by decide))
  have hDepth : 0 < pad d.headSize 64 := Nat.lt_of_lt_of_le h.headSize_pos (le_pad (by decide))
  have hBatch := h.batchSize_pos
  have hHead := h.headNum_pos
  have hThreads := h.threads_pos
  have hFour : 0 < Layout.numberBytes := by decide
  exact {
    seqK := h.seqK_padded
    headSize := h.headSize_padded
    mask := formable_of_pos (by simp [*]) (by
      simp only [List.prod_cons, List.prod_nil, Nat.mul_one]
      omega)
    packed := formable_of_pos (by simp [*]) (by
      simp only [List.prod_cons, List.prod_nil, Nat.mul_one, ← Nat.mul_assoc]
      omega)
    valueScale := formable_of_pos (by simp [*]) (by
      simp only [List.prod_cons, List.prod_nil, Nat.mul_one, ← Nat.mul_assoc]
      omega)
    scratch := formable_of_pos (by simp [*]) (by
      simp only [List.prod_cons, List.prod_nil, Nat.mul_one, ← Nat.mul_assoc]
      omega)
    bytes := h.bytes }

end InRange

/-- The entries of a head at a token lie inside a tensor that is long enough for all of its tokens.
-/
theorem within_entry {size batches rows heads depth b j head : Nat}
    (hRange : batches * rows * (heads * depth) < Size.limit)
    (hSize : batches * rows * (heads * depth) ≤ size) (hb : b < batches) (hj : j < rows)
    (hHead : head < heads) :
    Within size ((b * rows + j) * (heads * depth) + (head * depth + depth)) := by
  have hEnd := mul_add_le_mul (mul_add_lt_mul hb hj) (mul_add_le_mul hHead (Nat.le_refl depth))
  exact ⟨Nat.le_trans hEnd hSize, Nat.lt_of_le_of_lt hEnd hRange⟩

/-- Blocks of four and of sixteen end no later than blocks of 64, which is why no padding on the way
needs more than the greatest. -/
theorem pad_le_pad_64 (x : Nat) : pad x 4 ≤ pad x 64 ∧ pad x 16 ≤ pad x 64 := by
  simp only [pad]
  omega

/-- All packed keys and all packed values fit into their regions, scales included. The regions are
padded at least as far as the strides are. -/
theorem packed_le (d : Dims) :
    d.batchSize * d.headNum * (Strides.ofDims d).headKeys ≤ Layout.packedBytes d ∧
      d.batchSize * d.headNum * (Strides.ofDims d).headValues ≤ Layout.packedBytes d ∧
      d.batchSize * d.headNum * (Strides.ofDims d).headScales ≤
        d.batchSize * d.headNum * pad d.headSize 64 := by
  have hKeys : (Strides.ofDims d).headKeys ≤ pad d.seqK 64 * pad d.headSize 64 := by
    rw [Nat.mul_comm]
    exact Nat.mul_le_mul_left _ (pad_le_pad_64 d.seqK).2
  have hValues : (Strides.ofDims d).headValues ≤ pad d.seqK 64 * pad d.headSize 64 :=
    Nat.mul_le_mul_left _ (pad_le_pad_64 d.headSize).2
  rw [Layout.packedBytes, Nat.mul_assoc (d.batchSize * d.headNum)]
  exact ⟨Nat.mul_le_mul_left _ hKeys, Nat.mul_le_mul_left _ hValues,
    Nat.mul_le_mul_left _ (pad_le_pad_64 d.headSize).2⟩

structure RegionsFor (d : Dims) (threads : Nat) (regions : WorkspaceRegions) : Prop where
  mask : regions.mask.size = d.batchSize * pad d.seqK 64
  keys : regions.keys.size = Layout.packedBytes d
  values : regions.values.size = Layout.packedBytes d
  valueScale : regions.valueScale.size = d.batchSize * d.headNum * pad d.headSize 64
  scratch : regions.scratch.size = 4 * (threads * (16 * (d.headNum * pad d.seqK 64)))

/-- The regions into which a workspace has been divided are long enough for everything that a call
keeps in them. -/
theorem regionsFor_split {w : Workspace} {regions : WorkspaceRegions}
    (h : w.split (Layout.ofDims d threads) = .ok (.ok regions)) : RegionsFor d threads regions := by
  have hFills := Workspace.fills_split (Layout.contiguous_ofDims d threads) h
  simp only [WorkspaceRegions.Fills, WorkspaceRegions.parts, Layout.regions, Layout.ofDims,
    Layout.numberBytes, bytesOfNumbers, bytesOfEntries, Array.size_ofFn, Array.size_map,
    List.map_cons, List.map_nil, List.cons.injEq, and_true, Nat.mul_assoc] at hFills
  obtain ⟨hMask, hKeys, hValues, hScale, hScratch⟩ := hFills
  exact {
    mask := Nat.eq_of_mul_eq_mul_left (by decide) hMask
    keys := hKeys
    values := hValues
    valueScale := by
      rw [Nat.mul_assoc]
      exact Nat.eq_of_mul_eq_mul_left (by decide) hScale
    scratch := hScratch }

namespace Attention

variable {allowed : Fault → Prop} {a : Attention} {call : Call} {memory : Memory}
  {layout : Layout} {regions : WorkspaceRegions}

/-- What a call with something to compute brings along when its check has passed: every size that
its phases form is in range, and has been seen to be. -/
theorem inRange_preflight (h : a.preflight call memory = .ok (.ok (layout, regions)))
    (hThreads : 0 < a.threads) (hProper : layout.dims.isDegenerate = false) :
    InRange layout.dims a.threads := by
  obtain ⟨hCountable, hPlan⟩ := sized_preflight h
  obtain ⟨-, rfl, hFits, -⟩ := preflight_accepted h
  rw [Layout.dims_ofDims] at hProper hCountable hPlan ⊢
  generalize a.dims.filled call.dims = d at *
  have hQueries := (hCountable [] _ _ rfl (by simp)).prod_lt
  have hKeys := (hCountable [_] _ _ rfl (by simpa [Nat.mul_assoc] using hFits.queries)).prod_lt
  simp only [List.prod_cons, List.prod_nil, Nat.mul_one] at hQueries hKeys
  obtain ⟨hBatch, hHead, hSize, hQuery, hKey⟩ := Dims.isDegenerate_eq_false.1 hProper
  exact {
    batchSize_pos := Nat.pos_of_ne_zero hBatch
    headNum_pos := Nat.pos_of_ne_zero hHead
    seqQ_pos := Nat.pos_of_ne_zero hQuery
    seqK_pos := Nat.pos_of_ne_zero hKey
    headSize_pos := Nat.pos_of_ne_zero hSize
    threads_pos := hThreads
    seqK_padded := hPlan.seqK
    headSize_padded := hPlan.headSize
    queries := by simpa only [Nat.mul_assoc] using hQueries
    keys := by simpa only [Nat.mul_assoc] using hKeys
    bytes := hPlan.bytes }

/-- Problems that are in range pass the check, if they have no problem. Then the workspace is
divided into the regions of the layout. -/
theorem exists_regions (hResolve : a.dims.resolve call.dims = .ok d) (h : InRange d a.threads)
    (hNone : a.problems call memory = []) :
    ∃ regions, a.preflight call memory = .ok (.ok (Layout.ofDims d a.threads, regions)) := by
  have hFilled := Dims.filled_of_resolve hResolve
  have hSized : a.Sized call memory := by
    rw [Sized, hFilled]
    refine ⟨fun before x after hSplit _ => ?_, fun _ => h.plannable⟩
    obtain ⟨hPositive, hProd⟩ := h.shapes call memory x (by simp [hSplit])
    exact formable_of_pos hPositive hProd
  obtain ⟨answer, hAnswer⟩ := exists_preflight_iff.2 fun _ => hSized
  have hCases := preflight_cases hAnswer
  rw [hNone, hFilled] at hCases
  obtain ⟨-, regions, rfl, -⟩ := hCases
  exact ⟨regions, hAnswer⟩

end Attention

end QuantAttention
