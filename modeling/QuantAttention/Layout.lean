import QuantAttention.Operator.Dims

/-!
How one buffer of bytes is divided among the intermediate results of a call. Five regions follow
each other without gaps: the padded mask, the packed keys, the packed values, their column scales,
and the scratch of the workers. Regions are sized with dimensions padded to 64; inside them finer
strides are used.
-/

namespace QuantAttention

/-- Consecutive bytes of the workspace. -/
structure Region where
  offset : Nat
  length : Nat
  deriving DecidableEq, Repr

/-- The byte behind the region. -/
def Region.stop (r : Region) : Checked Nat := (r.offset + r.length : Size).eval

theorem Region.stop_eq_ok {r : Region} {n : Nat} :
    r.stop = .ok n ↔ r.offset + r.length < Size.limit ∧ n = r.offset + r.length := by
  simp [Region.stop]

structure Layout where
  dims : Dims
  threads : Nat
  mask : Region
  keys : Region
  values : Region
  valueScale : Region
  scratch : Region
  deriving DecidableEq, Repr

namespace Layout

def numberBytes : Nat := 4

def plan (dims : Dims) (threads : Nat) : Checked Layout := do
  let b := dims.batchSize
  let h := dims.headNum
  let keyCount ← padTo dims.seqK 64
  let depth ← padTo dims.headSize 64
  let mask := Region.mk 0 (← (numberBytes * b * keyCount : Size).eval)
  let keys := Region.mk (← mask.stop) (← (b * h * keyCount * depth : Size).eval)
  let values := Region.mk (← keys.stop) keys.length
  let valueScale := Region.mk (← values.stop) (← (numberBytes * b * h * depth : Size).eval)
  let scratch := Region.mk (← valueScale.stop)
    (← (numberBytes * threads * 16 * h * keyCount : Size).eval)
  return { dims, threads, mask, keys, values, valueScale, scratch }

/-- The regions follow each other without gaps from the first byte on. -/
structure Contiguous (l : Layout) : Prop where
  mask : l.mask.offset = 0
  keys : l.keys.offset = l.mask.offset + l.mask.length
  values : l.values.offset = l.keys.offset + l.keys.length
  valueScale : l.valueScale.offset = l.values.offset + l.values.length
  scratch : l.scratch.offset = l.valueScale.offset + l.valueScale.length

theorem contiguous_plan {dims : Dims} {threads : Nat} {l : Layout}
    (h : plan dims threads = .ok l) : l.Contiguous := by
  simp only [plan, Checked.bind_eq_ok, Region.stop_eq_ok, pure, Except.pure, Except.ok.injEq] at h
  obtain ⟨_, _, _, _, _, _, _, ⟨-, rfl⟩, _, _, _, ⟨-, rfl⟩, _, ⟨-, rfl⟩, _, _, _, ⟨-, rfl⟩, _, _,
    rfl⟩ := h
  exact ⟨rfl, rfl, rfl, rfl, rfl⟩

/-- The bytes that a caller has to provide. -/
def totalBytes (l : Layout) : Checked Nat := l.scratch.stop

def maskStride (l : Layout) : Checked Nat := padTo l.dims.seqK 16

def headKeyBytes (l : Layout) : Checked Nat := do
  let depth ← padTo l.dims.headSize 64
  let keyCount ← padTo l.dims.seqK 16
  (depth * keyCount : Size).eval

def headValueBytes (l : Layout) : Checked Nat := do
  let keyCount ← padTo l.dims.seqK 64
  let cols ← padTo l.dims.headSize 16
  (keyCount * cols : Size).eval

def headScaleCount (l : Layout) : Checked Nat := padTo l.dims.headSize 16

def workerScratchBytes (l : Layout) : Checked Nat := do
  let keyCount ← padTo l.dims.seqK 64
  (l.dims.headNum * 16 * keyCount : Size).eval

def regions (l : Layout) : List Region := [l.mask, l.keys, l.values, l.valueScale, l.scratch]

end Layout

/-- The distances that a run uses inside the regions and the caller's tensors. -/
structure Strides where
  /-- From one token to the next: the entries of all its heads. -/
  token : Nat
  /-- Entries of a packed key with its padding. -/
  keyDepth : Nat
  /-- Probabilities of a row with their padding. -/
  rowLength : Nat
  /-- From one block of packed values to the next. -/
  valueBlock : Nat
  /-- Bytes of a block of packed values that the packing itself writes. -/
  valueLive : Nat
  /-- From one head to the next. -/
  headKeys : Nat
  headValues : Nat
  headScales : Nat
  /-- From one batch to the next. -/
  mask : Nat
  deriving DecidableEq, Repr

def Layout.strides (l : Layout) : Checked Strides := do
  let token ← (l.dims.headNum * l.dims.headSize : Size).eval
  let keyDepth ← padTo l.dims.headSize 64
  let rowLength ← padTo l.dims.seqK 64
  let live ← padTo l.dims.seqK 4
  let valueLive ← (16 * live : Size).eval
  let valueBlock ← (16 * rowLength : Size).eval
  return {
    token, keyDepth, rowLength, valueBlock, valueLive
    headKeys := ← l.headKeyBytes
    headValues := ← l.headValueBytes
    headScales := ← l.headScaleCount
    mask := ← l.maskStride }

end QuantAttention
