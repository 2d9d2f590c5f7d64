import QuantAttention.Layout
import QuantAttention.Proofs.Faults
import QuantAttention.Proofs.Product

/-! A layout and the distances inside its regions, as functions of the dimensions, and when it can be
planned. -/

namespace QuantAttention

namespace Strides

/-- The distances that belong to dimensions, where none of them leaves the range of a size. -/
def ofDims (d : Dims) : Strides where
  token := d.headNum * d.headSize
  keyDepth := pad d.headSize 64
  rowLength := pad d.seqK 64
  valueBlock := 16 * pad d.seqK 64
  valueLive := 16 * pad d.seqK 4
  headKeys := pad d.headSize 64 * pad d.seqK 16
  headValues := pad d.seqK 64 * pad d.headSize 16
  headScales := pad d.headSize 16
  mask := pad d.seqK 16

/-- The packed keys of a head are blocks of sixteen keys, so a position among them tells its block
and its place in it. -/
theorem headKeys_eq_blocks (d : Dims) :
    (ofDims d).headKeys = (d.seqK + 15) / 16 * (16 * (ofDims d).keyDepth) := by
  show pad d.headSize 64 * ((d.seqK + 15) / 16 * 16) = _
  rw [Nat.mul_comm, Nat.mul_assoc]
  rfl

/-- The packed values of a head are blocks of sixteen columns, each with room for all padded keys.
-/
theorem headValues_eq_blocks (d : Dims) :
    (ofDims d).headValues = (d.headSize + 15) / 16 * (ofDims d).valueBlock := by
  show pad d.seqK 64 * ((d.headSize + 15) / 16 * 16) = _
  rw [Nat.mul_comm, Nat.mul_assoc]
  rfl

/-- Blocks of values are not empty if there are keys. -/
theorem valueBlock_pos {d : Dims} : 0 < (ofDims d).valueBlock ↔ 0 < d.seqK := by
  simp only [ofDims, pad]
  omega

end Strides

/-- Strides that could be formed are those of the dimensions. -/
theorem Layout.strides_eq_ofDims {l : Layout} {s : Strides} (h : l.strides = .ok s) :
    s = .ofDims l.dims := by
  simp only [Layout.strides, Layout.headKeyBytes, Layout.headValueBytes, Layout.headScaleCount,
    Layout.maskStride, Checked.bind_eq_ok, Checked.pure_eq_ok, Size.eval_mul_eq_ok, Size.eval_ofNat,
    Size.eval_literal, Except.ok.injEq, exists_and_left, exists_eq_left', exists_eq_left,
    and_assoc] at h
  obtain ⟨-, keyDepth, hKeyDepth, rowLength, hRowLength, live, hLive, -, -, _, ⟨_, hDepth, _, hKeys, -,
    rfl⟩, _, ⟨_, hCount, _, hCols, -, rfl⟩, _, hScales, _, hMask,
    rfl⟩ := h
  rw [eq_pad_of_padTo (by decide) hKeyDepth, eq_pad_of_padTo (by decide) hRowLength,
    eq_pad_of_padTo (by decide) hLive, eq_pad_of_padTo (by decide) hDepth,
    eq_pad_of_padTo (by decide) hKeys, eq_pad_of_padTo (by decide) hCount,
    eq_pad_of_padTo (by decide) hCols, eq_pad_of_padTo (by decide) hScales,
    eq_pad_of_padTo (by decide) hMask]
  rfl

namespace Layout

def packedBytes (d : Dims) : Nat :=
  d.batchSize * d.headNum * pad d.seqK 64 * pad d.headSize 64

/-- The layout that belongs to dimensions, where none of its ends leaves the range of a size. -/
def ofDims (d : Dims) (threads : Nat) : Layout :=
  let mask := numberBytes * d.batchSize * pad d.seqK 64
  let scales := numberBytes * d.batchSize * d.headNum * pad d.headSize 64
  { dims := d
    threads
    mask := ⟨0, mask⟩
    keys := ⟨mask, packedBytes d⟩
    values := ⟨mask + packedBytes d, packedBytes d⟩
    valueScale := ⟨mask + packedBytes d + packedBytes d, scales⟩
    scratch := ⟨mask + packedBytes d + packedBytes d + scales,
      numberBytes * threads * 16 * d.headNum * pad d.seqK 64⟩ }

@[simp] theorem dims_ofDims (d : Dims) (threads : Nat) : (ofDims d threads).dims = d := rfl

/-- The regions of a layout stand one behind the other, and the first begins with the workspace. -/
theorem contiguous_ofDims (d : Dims) (threads : Nat) : (ofDims d threads).Contiguous :=
  ⟨rfl, (Nat.zero_add _).symm, rfl, rfl, rfl⟩

/-- The bytes that a call with these dimensions needs. -/
def bytesFor (d : Dims) (threads : Nat) : Nat :=
  (ofDims d threads).scratch.offset + (ofDims d threads).scratch.length

/-- A layout that could be planned is the one of its dimensions. Checked arithmetic can refuse a
size, but not change it. -/
theorem eq_ofDims_of_plan {d : Dims} {threads : Nat} {l : Layout} (h : plan d threads = .ok l) :
    l = ofDims d threads := by
  simp only [plan, Checked.bind_eq_ok, Checked.pure_eq_ok, Region.stop_eq_ok, Size.eval_mul_eq_ok,
    Size.eval_ofNat, Size.eval_literal, Except.ok.injEq, exists_and_left, exists_eq_left',
    exists_eq_left, and_assoc] at h
  obtain ⟨keyCount, hKeyCount, depth, hDepth, -, -, -, -, -, -, -, -, -, -, -, -, -, -, -, -, rfl⟩ :=
    h
  rw [eq_pad_of_padTo (by decide) hKeyCount, eq_pad_of_padTo (by decide) hDepth]
  simp only [ofDims, packedBytes, Nat.zero_add]

theorem eq_bytesFor_of_totalBytes {d : Dims} {threads n : Nat}
    (h : (ofDims d threads).totalBytes = .ok n) : n = bytesFor d threads :=
  (Region.stop_eq_ok.1 h).2

/-- The regions that hold numbers start at multiples of four, since what stands before them is
counted in whole padded rows. -/
theorem four_dvd_ofDims (d : Dims) (threads : Nat) :
    4 ∣ (ofDims d threads).mask.length ∧ 4 ∣ (ofDims d threads).valueScale.offset ∧
      4 ∣ (ofDims d threads).valueScale.length := by
  have hMask : 4 ∣ numberBytes * d.batchSize * pad d.seqK 64 :=
    Nat.dvd_mul_right_of_dvd (Nat.dvd_mul_right 4 _) _
  have hPacked : 4 ∣ packedBytes d :=
    Nat.dvd_mul_left_of_dvd (Nat.dvd_trans (by decide) (dvd_pad d.headSize 64)) _
  refine ⟨hMask, Nat.dvd_add (Nat.dvd_add hMask hPacked) hPacked, ?_⟩
  exact Nat.dvd_mul_right_of_dvd (Nat.dvd_mul_right_of_dvd (Nat.dvd_mul_right 4 _) _) _

theorem stop_faultsOnly {allowed : Fault → Prop} (r : Region) (h : allowed .sizeOverflow) :
    FaultsOnly allowed r.stop := .add (.ok _) (.ok _) h

/-- Planning can only leave the range of a size, for it has no other step that may fail. -/
theorem plan_faultsOnly {allowed : Fault → Prop} (d : Dims) (threads : Nat)
    (h : allowed .sizeOverflow) : FaultsOnly allowed (plan d threads) := by
  have hMul {x y : Size} (hx : FaultsOnly allowed x.eval) (hy : FaultsOnly allowed y.eval) :
      FaultsOnly allowed (x * y).eval := .mul hx hy h
  refine .bind (.padTo (by decide) h) fun keyCount _ => .bind (.padTo (by decide) h) fun depth _ => ?_
  refine .bind (hMul (hMul (.ok _) (.ok _)) (.ok _)) fun maskLength _ => ?_
  refine .bind (stop_faultsOnly _ h) fun keysOffset _ => ?_
  refine .bind (hMul (hMul (hMul (.ok _) (.ok _)) (.ok _)) (.ok _)) fun keysLength _ => ?_
  refine .bind (stop_faultsOnly _ h) fun valuesOffset _ => ?_
  refine .bind (stop_faultsOnly _ h) fun scaleOffset _ => ?_
  refine .bind (hMul (hMul (hMul (.ok _) (.ok _)) (.ok _)) (.ok _)) fun scaleLength _ => ?_
  refine .bind (stop_faultsOnly _ h) fun scratchOffset _ => ?_
  refine .bind (hMul (hMul (hMul (hMul (.ok _) (.ok _)) (.ok _)) (.ok _)) (.ok _)) fun _ _ => ?_
  exact .pure _

/-- Everything that planning a layout forms is a size. -/
structure Plannable (d : Dims) (threads : Nat) : Prop where
  seqK : d.seqK + 64 < Size.limit
  headSize : d.headSize + 64 < Size.limit
  mask : Formable [numberBytes * d.batchSize, pad d.seqK 64]
  packed : Formable [d.batchSize * d.headNum, pad d.seqK 64, pad d.headSize 64]
  valueScale : Formable [numberBytes * d.batchSize, d.headNum, pad d.headSize 64]
  scratch : Formable [numberBytes * threads, 16, d.headNum, pad d.seqK 64]
  bytes : bytesFor d threads < Size.limit

variable {d : Dims} {threads : Nat}

/-- Where no step leaves the range of a size, planning does not fault at all. -/
theorem Plannable.plan_faultsOnly {allowed : Fault → Prop} (h : Plannable d threads) :
    FaultsOnly allowed (plan d threads) := by
  have hBytes := h.bytes
  simp only [bytesFor, ofDims, packedBytes] at hBytes
  have hMask : (numberBytes * d.batchSize * pad d.seqK 64 : Size).eval =
      .ok (numberBytes * d.batchSize * pad d.seqK 64) :=
    (Size.eval_foldl_mul_eq_ok [pad d.seqK 64]).2 ⟨h.mask, by simp⟩
  have hPacked : (d.batchSize * d.headNum * pad d.seqK 64 * pad d.headSize 64 : Size).eval =
      .ok (d.batchSize * d.headNum * pad d.seqK 64 * pad d.headSize 64) :=
    (Size.eval_foldl_mul_eq_ok [pad d.seqK 64, pad d.headSize 64]).2 ⟨h.packed, by simp [mul_assoc]⟩
  have hScale : (numberBytes * d.batchSize * d.headNum * pad d.headSize 64 : Size).eval =
      .ok (numberBytes * d.batchSize * d.headNum * pad d.headSize 64) :=
    (Size.eval_foldl_mul_eq_ok [d.headNum, pad d.headSize 64]).2
      ⟨h.valueScale, by simp [mul_assoc]⟩
  have hScratch : (numberBytes * threads * 16 * d.headNum * pad d.seqK 64 : Size).eval =
      .ok (numberBytes * threads * 16 * d.headNum * pad d.seqK 64) :=
    (Size.eval_foldl_mul_eq_ok [16, d.headNum, pad d.seqK 64]).2 ⟨h.scratch, by simp [mul_assoc]⟩
  refine .bind_ok ((padTo_eq_ok (by decide)).2 ⟨h.seqK, rfl⟩) ?_
  refine .bind_ok ((padTo_eq_ok (by decide)).2 ⟨h.headSize, rfl⟩) ?_
  refine .bind_ok hMask (.bind_ok (Size.eval_add_of_lt (by dsimp only; omega)) ?_)
  refine .bind_ok hPacked (.bind_ok (Size.eval_add_of_lt (by dsimp only; omega)) ?_)
  refine .bind_ok (Size.eval_add_of_lt (by dsimp only; omega)) ?_
  refine .bind_ok hScale (.bind_ok (Size.eval_add_of_lt (by dsimp only; omega)) ?_)
  exact .bind_ok hScratch (.pure _)

/-- A layout with an end can be planned exactly where no step leaves the range of a size. The
condition is a list of the steps that may leave it. -/
theorem exists_plan_iff :
    (∃ l n, plan d threads = .ok l ∧ l.totalBytes = .ok n) ↔ Plannable d threads := by
  constructor
  · rintro ⟨l, n, hPlan, hTotal⟩
    obtain rfl := eq_ofDims_of_plan hPlan
    simp only [plan, Checked.bind_eq_ok] at hPlan
    obtain ⟨keyCount, hKeyCount, depth, hDepth, mask, hMask, -, -, packed, hPacked, -, -, -, -, scale,
      hScale, -, -, scratch, hScratch, -⟩ := hPlan
    obtain ⟨hSeqK, rfl⟩ := (padTo_eq_ok (by decide)).1 hKeyCount
    obtain ⟨hHeadSize, rfl⟩ := (padTo_eq_ok (by decide)).1 hDepth
    exact {
      seqK := hSeqK
      headSize := hHeadSize
      mask := ((Size.eval_foldl_mul_eq_ok [pad d.seqK 64]).1 hMask).1
      packed := ((Size.eval_foldl_mul_eq_ok [pad d.seqK 64, pad d.headSize 64]).1 hPacked).1
      valueScale := ((Size.eval_foldl_mul_eq_ok [d.headNum, pad d.headSize 64]).1 hScale).1
      scratch := ((Size.eval_foldl_mul_eq_ok [16, d.headNum, pad d.seqK 64]).1 hScratch).1
      bytes := (Region.stop_eq_ok.1 hTotal).1 }
  · intro h
    have hSafe : FaultsOnly (fun _ => False) (plan d threads) := h.plan_faultsOnly
    obtain ⟨l, hPlan⟩ := hSafe.exists_value
    obtain rfl := eq_ofDims_of_plan hPlan
    exact ⟨_, _, hPlan, Region.stop_eq_ok.2 ⟨h.bytes, rfl⟩⟩

end Layout

end QuantAttention
