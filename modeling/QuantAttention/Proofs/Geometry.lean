import QuantAttention.Proofs.Attention.Range

/-! The regions of a layout divide its bytes, and the slices that a run takes from them, one for each
batch, head or worker, lie inside their own regions and do not overlap. -/

namespace QuantAttention

namespace Region

variable {r s t : Region}

/-- The byte at position `p` belongs to the region. -/
def Holds (r : Region) (p : Nat) : Prop := r.offset ≤ p ∧ p < r.offset + r.length

def Inside (r s : Region) : Prop :=
  s.offset ≤ r.offset ∧ r.offset + r.length ≤ s.offset + s.length

/-- No byte belongs to both regions. -/
def Apart (r s : Region) : Prop := ∀ p, r.Holds p → ¬ s.Holds p

theorem Inside.holds (h : r.Inside s) {p : Nat} (hp : r.Holds p) : s.Holds p :=
  ⟨Nat.le_trans h.1 hp.1, Nat.lt_of_lt_of_le hp.2 h.2⟩

/-- Parts of regions without a common byte have none in common either. -/
theorem Apart.mono {r' s' : Region} (h : r.Apart s) (hr : r'.Inside r) (hs : s'.Inside s) :
    r'.Apart s' :=
  fun p hp hq => h p (hr.holds hp) (hs.holds hq)

/-- A region that ends before another begins shares no byte with it. -/
theorem apart_of_le (h : r.offset + r.length ≤ s.offset) : r.Apart s := by
  rintro p ⟨-, hEnd⟩ ⟨hStart, -⟩
  omega

end Region

namespace Layout

variable {l : Layout} {d : Dims} {threads : Nat}

/-- Regions that stand one behind the other hold every byte before their end, and no other. -/
theorem Contiguous.holds_iff (h : l.Contiguous) {p : Nat} :
    (∃ r ∈ l.regions, r.Holds p) ↔ p < l.scratch.offset + l.scratch.length := by
  obtain ⟨hMask, hKeys, hValues, hScale, hScratch⟩ := h
  simp only [regions, List.exists_mem_cons_iff, List.not_mem_nil, false_and, exists_false, or_false,
    Region.Holds]
  omega

theorem Contiguous.length_le (h : l.Contiguous) :
    ∀ r ∈ l.regions, r.length ≤ l.scratch.offset + l.scratch.length := by
  obtain ⟨-, hKeys, hValues, hScale, hScratch⟩ := h
  simp only [regions, List.forall_mem_cons, List.not_mem_nil, false_imp_iff, implies_true, and_true]
  omega

/-- No two of them share a byte. -/
theorem Contiguous.pairwise_apart (h : l.Contiguous) : l.regions.Pairwise Region.Apart := by
  obtain ⟨-, hKeys, hValues, hScale, hScratch⟩ := h
  have hOrdered : l.regions.Pairwise fun r s => r.offset + r.length ≤ s.offset := by
    simp only [regions, List.pairwise_cons, List.forall_mem_cons, List.not_mem_nil, false_imp_iff,
      implies_true, and_true, List.Pairwise.nil]
    omega
  exact hOrdered.imp Region.apart_of_le

end Layout

/-- Slices of a region at one stride, without gaps: `count` of them, each of `entries` entries. -/
structure Slicing where
  region : Region
  count : Nat
  entries : Nat
  entryBytes : Nat
  entryBytes_pos : 0 < entryBytes

namespace Slicing

variable {s : Slicing}

def slice (s : Slicing) (i : Nat) : Region :=
  ⟨s.region.offset + i * (s.entries * s.entryBytes), s.entries * s.entryBytes⟩

def slices (s : Slicing) : List Region := (List.range s.count).map s.slice

def used (s : Slicing) : Checked Nat := (s.count * s.entries * s.entryBytes : Size).eval

def Fits (s : Slicing) : Prop := s.count * (s.entries * s.entryBytes) ≤ s.region.length

/-- The slices of a region that has room for them lie inside it. -/
theorem Fits.inside (h : s.Fits) : ∀ r ∈ s.slices, r.Inside s.region := by
  intro r hr
  obtain ⟨i, hi, rfl⟩ := List.mem_map.1 hr
  have hEnd : i * (s.entries * s.entryBytes) + s.entries * s.entryBytes ≤ s.region.length :=
    Nat.le_trans (mul_add_le_mul (List.mem_range.1 hi) (Nat.le_refl _)) h
  refine ⟨Nat.le_add_right _ _, ?_⟩
  simp only [slice]
  omega

/-- Slices stand one behind the other in their region, so no two of them share a byte. -/
theorem pairwise_slices (s : Slicing) : s.slices.Pairwise Region.Apart := by
  refine List.pairwise_map.2 (List.pairwise_lt_range.imp fun {i j} hij => Region.apart_of_le ?_)
  have hStep := Nat.mul_le_mul_right (s.entries * s.entryBytes) (Nat.succ_le_of_lt hij)
  rw [Nat.succ_mul] at hStep
  simp only [slice]
  omega

/-- The bytes that slices use can be counted if the bytes of their region can. -/
theorem Fits.used_eq_ok (h : s.Fits) (hRegion : s.region.length < Size.limit) :
    s.used = .ok (s.count * s.entries * s.entryBytes) := by
  rw [Fits, ← Nat.mul_assoc] at h
  have hAll := Nat.lt_of_le_of_lt h hRegion
  have hEntries : s.count * s.entries < Size.limit :=
    Nat.lt_of_le_of_lt (Nat.le_mul_of_pos_right _ s.entryBytes_pos) hAll
  rw [used, Size.ofNat_mul hEntries, Size.eval_mul_of_lt hAll]

/-- Slices of regions that share no byte share none, whichever regions they are from. -/
theorem pairwise_flatMap {slicings : List Slicing} (hFits : ∀ s ∈ slicings, s.Fits)
    (hRegions : (slicings.map region).Pairwise Region.Apart) :
    (slicings.flatMap slices).Pairwise Region.Apart := by
  refine List.pairwise_flatMap.2 ⟨fun s _ => s.pairwise_slices, ?_⟩
  refine (List.pairwise_map.1 hRegions).imp_of_mem fun hs ht hApart r hr q hq => ?_
  exact hApart.mono ((hFits _ hs).inside r hr) ((hFits _ ht).inside q hq)

end Slicing

namespace Layout

variable {l : Layout} {d : Dims} {threads total : Nat}

/-- What a run takes from the regions: a mask for each batch, packed keys, packed values and column
scales for each batch and head, and scratch for each worker. -/
def slicings (l : Layout) : Checked (List Slicing) := do
  let heads ← (l.dims.batchSize * l.dims.headNum : Size).eval
  return [
    ⟨l.mask, l.dims.batchSize, ← l.maskStride, numberBytes, by decide⟩,
    ⟨l.keys, heads, ← l.headKeyBytes, 1, by decide⟩,
    ⟨l.values, heads, ← l.headValueBytes, 1, by decide⟩,
    ⟨l.valueScale, heads, ← l.headScaleCount, numberBytes, by decide⟩,
    ⟨l.scratch, l.threads, ← l.workerScratchBytes, 1, by decide⟩]

/-- The slicings that belong to dimensions, where no stride leaves the range of a size. -/
def slicingsOf (d : Dims) (threads : Nat) : List Slicing :=
  let l := ofDims d threads
  let heads := d.batchSize * d.headNum
  [⟨l.mask, d.batchSize, (Strides.ofDims d).mask, numberBytes, by decide⟩,
    ⟨l.keys, heads, (Strides.ofDims d).headKeys, 1, by decide⟩,
    ⟨l.values, heads, (Strides.ofDims d).headValues, 1, by decide⟩,
    ⟨l.valueScale, heads, (Strides.ofDims d).headScales, numberBytes, by decide⟩,
    ⟨l.scratch, threads, d.headNum * 16 * pad d.seqK 64, 1, by decide⟩]

theorem region_slicingsOf (d : Dims) (threads : Nat) :
    (slicingsOf d threads).map Slicing.region = (ofDims d threads).regions := rfl

/-- Every region has room for its slices, since their strides are padded no further than it. -/
theorem fits_slicingsOf (d : Dims) (threads : Nat) : ∀ s ∈ slicingsOf d threads, s.Fits := by
  obtain ⟨hKeys, hValues, hScales⟩ := packed_le d
  have hMask := Nat.mul_le_mul_left d.batchSize (pad_le_pad_64 d.seqK).2
  simp only [slicingsOf, List.forall_mem_cons, List.not_mem_nil, false_imp_iff, implies_true,
    and_true, Slicing.Fits, ofDims, numberBytes, Nat.mul_one]
  refine ⟨?_, hKeys, hValues, ?_, ?_⟩
  · calc d.batchSize * ((Strides.ofDims d).mask * 4)
        = 4 * (d.batchSize * pad d.seqK 16) := by rw [Nat.mul_comm 4, Nat.mul_assoc]; rfl
      _ ≤ 4 * d.batchSize * pad d.seqK 64 := by
        rw [Nat.mul_assoc]
        exact Nat.mul_le_mul_left 4 hMask
  · calc d.batchSize * d.headNum * ((Strides.ofDims d).headScales * 4)
        = 4 * (d.batchSize * d.headNum * (Strides.ofDims d).headScales) := by
          rw [Nat.mul_comm 4, Nat.mul_assoc (d.batchSize * d.headNum)]
      _ ≤ 4 * d.batchSize * d.headNum * pad d.headSize 64 := by
        rw [Nat.mul_assoc 4, Nat.mul_assoc 4]
        exact Nat.mul_le_mul_left 4 hScales
  · calc threads * (d.headNum * 16 * pad d.seqK 64)
        = threads * 16 * d.headNum * pad d.seqK 64 := by
          rw [Nat.mul_comm d.headNum, ← Nat.mul_assoc, ← Nat.mul_assoc]
      _ ≤ 4 * threads * 16 * d.headNum * pad d.seqK 64 := by
        refine Nat.mul_le_mul_right _ (Nat.mul_le_mul_right _ (Nat.mul_le_mul_right _ ?_))
        omega

/-- The scratch of one worker is a size even where there is no worker: it is no longer than the
packed keys. -/
theorem workerBytes_le (hBatch : 0 < d.batchSize) (hSize : 0 < d.headSize) :
    d.headNum * 16 * pad d.seqK 64 ≤ packedBytes d := by
  have hDepth : 16 ≤ pad d.headSize 64 := by
    simp only [pad]
    omega
  calc d.headNum * 16 * pad d.seqK 64
      = d.headNum * pad d.seqK 64 * 16 := Nat.mul_right_comm ..
    _ ≤ d.batchSize * d.headNum * pad d.seqK 64 * pad d.headSize 64 :=
      Nat.mul_le_mul (Nat.mul_le_mul_right _ (Nat.le_mul_of_pos_left _ hBatch)) hDepth

theorem Plannable.packedBytes_lt (h : Plannable d threads) : packedBytes d < Size.limit :=
  Nat.lt_of_le_of_lt ((contiguous_ofDims d threads).length_le (ofDims d threads).keys
    (by simp [regions])) h.bytes

/-- The strides of a layout that can be planned are sizes if there is something to compute. -/
theorem slicings_ofDims (h : Plannable d threads) (hProper : d.isDegenerate = false) :
    (ofDims d threads).slicings = .ok (slicingsOf d threads) := by
  obtain ⟨hBatch, hHead, hSize, -, hKey⟩ := Dims.isDegenerate_eq_false.1 hProper
  have hPacked := h.packedBytes_lt
  have hHeads : d.batchSize * d.headNum < Size.limit := by
    simpa using h.packed [d.batchSize * d.headNum] (by simp)
  have hHeadsPos : 0 < d.batchSize * d.headNum :=
    Nat.mul_pos (Nat.pos_of_ne_zero hBatch) (Nat.pos_of_ne_zero hHead)
  -- A stride is at most what its region holds, since there is at least one slice.
  obtain ⟨hKeys, hValues, -⟩ := packed_le d
  have hHeadKeys : (Strides.ofDims d).headKeys < Size.limit := Nat.lt_of_le_of_lt
    (Nat.le_trans (Nat.le_mul_of_pos_left _ hHeadsPos) hKeys) hPacked
  have hHeadValues : (Strides.ofDims d).headValues < Size.limit := Nat.lt_of_le_of_lt
    (Nat.le_trans (Nat.le_mul_of_pos_left _ hHeadsPos) hValues) hPacked
  have hWorker : d.headNum * 16 * pad d.seqK 64 < Size.limit := Nat.lt_of_le_of_lt
    (workerBytes_le (Nat.pos_of_ne_zero hBatch) (Nat.pos_of_ne_zero hSize)) hPacked
  have hWorkerRows : d.headNum * 16 < Size.limit := by
    refine Nat.lt_of_le_of_lt (Nat.le_mul_of_pos_right _ ?_) hWorker
    exact Nat.lt_of_lt_of_le (Nat.pos_of_ne_zero hKey) (le_pad (by decide))
  have hSeqK := h.seqK
  have hHeadSize := h.headSize
  have hKeys16 := padTo_of_lt (by decide : 0 < 16) (by omega : d.seqK + 16 < Size.limit)
  have hCols16 := padTo_of_lt (by decide : 0 < 16) (by omega : d.headSize + 16 < Size.limit)
  have hKeys64 := padTo_of_lt (by decide : 0 < 64) hSeqK
  have hCols64 := padTo_of_lt (by decide : 0 < 64) hHeadSize
  have hKeyStride : (ofDims d threads).headKeyBytes = .ok (Strides.ofDims d).headKeys := by
    simp only [headKeyBytes, dims_ofDims, hCols64, hKeys16]
    exact Size.eval_mul_of_lt hHeadKeys
  have hValueStride : (ofDims d threads).headValueBytes = .ok (Strides.ofDims d).headValues := by
    simp only [headValueBytes, dims_ofDims, hKeys64, hCols16]
    exact Size.eval_mul_of_lt hHeadValues
  have hScratchStride : (ofDims d threads).workerScratchBytes =
      .ok (d.headNum * 16 * pad d.seqK 64) := by
    simp only [workerScratchBytes, dims_ofDims, hKeys64, Size.literal, Size.ofNat_mul hWorkerRows]
    exact Size.eval_mul_of_lt hWorker
  simp only [slicings, dims_ofDims, Size.eval_mul_of_lt hHeads, maskStride, hKeys16, headScaleCount,
    hCols16, hKeyStride, hValueStride, hScratchStride]
  rfl

/-- A workspace that is aligned and long enough is divided into the regions of the layout. -/
theorem exists_split_regions {w : Workspace}
    (hTotal : (ofDims d threads).totalBytes = .ok total) (hAligned : w.address % 4 = 0)
    (hLong : total ≤ w.bytes.size) :
    ∃ regions, w.split (ofDims d threads) = .ok (.ok regions) ∧ regions.Fills (ofDims d threads) ∧
      regions.parts = (ofDims d threads).regions.map w.regionBytes := by
  have hNone : Attention.workspaceProblems d threads w = [] := by
    rw [Attention.workspaceProblems, ← eq_bytesFor_of_totalBytes hTotal,
      if_neg (Nat.not_lt.2 hLong), hAligned]
    rfl
  obtain ⟨answer, hSplit⟩ := Attention.exists_split (w := w) hTotal
  have hCases := Attention.split_cases hSplit
  rw [hNone] at hCases
  obtain ⟨regions, rfl⟩ := hCases
  exact ⟨regions, hSplit, Workspace.fills_split (contiguous_ofDims d threads) hSplit,
    Workspace.parts_split (contiguous_ofDims d threads) hSplit⟩

/-- The geometry of a layout that can be planned with its end. Its regions divide the bytes before
the end; those that hold numbers are aligned, so that every aligned workspace is divided into exactly
these regions; and the slices that a run takes from them are disjoint. -/
theorem geometry_plan (hPlan : plan d threads = .ok l) (hTotal : l.totalBytes = .ok total) :
    l.Contiguous ∧
      (∀ p, p < total ↔ ∃ r ∈ l.regions, r.Holds p) ∧ l.regions.Pairwise Region.Apart ∧
      (∀ r ∈ [l.mask, l.valueScale], 4 ∣ r.offset ∧ 4 ∣ r.length) ∧
      (∀ w : Workspace, w.address % 4 = 0 → total ≤ w.bytes.size →
        ∃ regions, w.split l = .ok (.ok regions) ∧ regions.Fills l ∧
          regions.parts = l.regions.map w.regionBytes) ∧
      (d.isDegenerate = false → ∃ slicings, l.slicings = .ok slicings ∧
        (∀ s ∈ slicings, s.used = .ok (s.count * s.entries * s.entryBytes) ∧
          ∀ r ∈ s.slices, r.Inside s.region) ∧
        (slicings.flatMap Slicing.slices).Pairwise Region.Apart) := by
  have hPlannable : Plannable d threads := exists_plan_iff.1 ⟨l, total, hPlan, hTotal⟩
  obtain rfl := eq_ofDims_of_plan hPlan
  have hLayout := contiguous_ofDims d threads
  obtain ⟨hMaskLength, hScaleOffset, hScaleLength⟩ := four_dvd_ofDims d threads
  refine ⟨hLayout, fun p => ?_, hLayout.pairwise_apart, ?_, fun w hAligned hLong => ?_,
    fun hProper => ?_⟩
  · rw [hLayout.holds_iff, (Region.stop_eq_ok.1 hTotal).2]
  · simp only [List.forall_mem_cons, List.not_mem_nil, false_imp_iff, implies_true, and_true]
    exact ⟨⟨Nat.dvd_zero 4, hMaskLength⟩, hScaleOffset, hScaleLength⟩
  · exact exists_split_regions hTotal hAligned hLong
  · refine ⟨_, slicings_ofDims hPlannable hProper, fun s hs => ⟨?_, ?_⟩, ?_⟩
    · have hRegion : s.region ∈ (ofDims d threads).regions :=
        region_slicingsOf d threads ▸ List.mem_map_of_mem hs
      have hEnd : s.region.length < Size.limit :=
        Nat.lt_of_le_of_lt (hLayout.length_le _ hRegion) hPlannable.bytes
      exact (fits_slicingsOf d threads s hs).used_eq_ok hEnd
    · exact (fits_slicingsOf d threads s hs).inside
    · exact Slicing.pairwise_flatMap (fits_slicingsOf d threads)
        (region_slicingsOf d threads ▸ hLayout.pairwise_apart)

/-- Two batches of three heads for two workers: the regions divide 75776 bytes, and no two slices
overlap. -/
theorem geometry_plan_small :
    (∀ p, p < 75776 ↔ ∃ r ∈ (ofDims ⟨2, 3, 16, 20, 40⟩ 2).regions, r.Holds p) ∧
      ∃ slicings, (ofDims ⟨2, 3, 16, 20, 40⟩ 2).slicings = .ok slicings ∧
        (slicings.flatMap Slicing.slices).Pairwise Region.Apart := by
  have hPlan : plan ⟨2, 3, 16, 20, 40⟩ 2 = .ok (ofDims ⟨2, 3, 16, 20, 40⟩ 2) := rfl
  have hTotal : (ofDims ⟨2, 3, 16, 20, 40⟩ 2).totalBytes = .ok 75776 := rfl
  obtain ⟨-, hBytes, -, -, -, hSlices⟩ := geometry_plan hPlan hTotal
  obtain ⟨slicings, hSlicings, -, hApart⟩ := hSlices (by decide)
  exact ⟨hBytes, slicings, hSlicings, hApart⟩

end Layout

end QuantAttention
