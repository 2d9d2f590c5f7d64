import Mathlib.Logic.Equiv.Basic
import QuantAttention.Proofs.Attention.Products

/-! Symmetries of calls. A call with opposite values stores opposite outputs under the same scales,
and a call with its heads in another order stores the heads of its output in that order. Neither
symmetry asks anything of the scales and the mask, which need not be numbers. -/

namespace QuantAttention

/-- The entries of the output that belong to a problem. -/
def Memory.outputFor (memory : Memory) (d : Dims) : Array Int8 :=
  memory.output.extract 0 (d.batchSize * d.seqQ * (d.headNum * d.headSize))

def Memory.outputScaleFor (memory : Memory) (d : Dims) : Array Binary32 :=
  memory.outputScale.extract 0 (d.batchSize * d.seqQ)

namespace Attention

variable {a : Attention} {d : Dims} {left right : Call} {memory : Memory}
  {registers registers' : TileRegisters} {schedule schedule' : Dims → Schedule} {layout : Layout}
  {regions : WorkspaceRegions} {o : Outcome}

/-- The pool has registers for every worker, and the schedule gives each task to one of them. -/
structure Staffed (a : Attention) (d : Dims) (schedule : Dims → Schedule)
    (registers : TileRegisters) : Prop where
  registers : a.threads ≤ registers.threads.size
  schedule : (schedule d).Valid d a.threads

/-- A call has returned with what belongs to its output. -/
structure Computed (d : Dims) (call : Call) (o : Outcome) : Prop where
  result : o.result = .ok ()
  output : o.memory.outputFor d =
    Array.ofFn fun p : Fin (d.batchSize * d.seqQ * (d.headNum * d.headSize)) =>
      Attending.outputAt d call p
  outputScale : o.memory.outputScaleFor d =
    Array.ofFn fun p : Fin (d.batchSize * d.seqQ) => Attending.outputScaleAt d call p

/-- A call that returns after its check has passed has succeeded, and left the row-major output of
its own tensors. -/
theorem computed_of_execute (hPreflight : a.preflight left memory = .ok (.ok (layout, regions)))
    (hProper : layout.dims.isDegenerate = false) (hStaff : a.Staffed layout.dims schedule registers)
    (hRun : a.execute schedule left memory registers = .ok o) : Computed layout.dims left o := by
  have hOk := result_of_preflight hPreflight hRun
  obtain ⟨hOutput, hScale⟩ :=
    execute_written (resolve_of_preflight hPreflight) hProper hStaff.schedule hRun hOk
  exact ⟨hOk, hOutput, hScale⟩

/-- The check of a call reads its dimensions and the lengths of its buffers, but none of their
entries. -/
theorem preflight_congr (hDims : left.dims = right.dims)
    (hLengths : dataLengths left memory = dataLengths right memory) :
    a.preflight left memory = a.preflight right memory := by
  simp only [preflight, hDims, hLengths]

/-- Two calls that the check cannot tell apart and whose sums fit the accumulator together fault
together or return together. -/
theorem execute_alike (hWidth : a.keyPacking.width = packedWidth) (hThreads : 0 < a.threads)
    (hPreflight : a.preflight left memory = .ok (.ok (layout, regions)))
    (hProper : layout.dims.isDegenerate = false) (hDims : left.dims = right.dims)
    (hLengths : dataLengths left memory = dataLengths right memory)
    (hSums : RowMajor.FittingSums layout.dims left ↔ RowMajor.FittingSums layout.dims right)
    (hStaff : a.Staffed layout.dims schedule registers)
    (hStaff' : a.Staffed layout.dims schedule' registers') :
    (∀ fault, a.execute schedule left memory registers = .error fault ↔
        a.execute schedule' right memory registers' = .error fault) ∧
      ∀ o, a.execute schedule left memory registers = .ok o →
        ∃ o', a.execute schedule' right memory registers' = .ok o' ∧
          Computed layout.dims left o ∧ Computed layout.dims right o' := by
  have hPreflight' := (preflight_congr (a := a) hDims hLengths).symm.trans hPreflight
  refine ⟨fun fault => ?_, fun o hRun => ?_⟩
  · rw [execute_eq_error_iff hWidth hThreads hStaff.registers hPreflight hStaff.schedule, hSums,
      execute_eq_error_iff hWidth hThreads hStaff'.registers hPreflight' hStaff'.schedule]
  · have hFits := hSums.1 (fittingSums_of_execute hPreflight hStaff.schedule hRun)
    obtain ⟨o', hRun'⟩ := (exists_execute_iff hWidth hThreads hStaff'.registers hPreflight'
      hStaff'.schedule).2 hFits
    exact ⟨o', hRun', computed_of_execute hPreflight hProper hStaff hRun,
      computed_of_execute hPreflight' hProper hStaff' hRun'⟩

end Attention

def Call.negateValues (call : Call) : Call :=
  { call with values := call.values.map fun v => -v }

/-- All entries have an opposite but for -128, which is its own. The statement about opposite values
has to leave it out. -/
theorem toInt_neg_int8 {v : Int8} (h : v ≠ -128) : (-v).toInt = -v.toInt := by
  have hLow := v.le_toInt
  have hHigh := v.toInt_lt
  have hLeast : v.toInt ≠ -128 := fun hEq => h (Int8.toInt_inj.1 hEq)
  rw [Int8.toInt_neg, Int.bmod_eq_of_le] <;> omega

/-- An entry behind the end is zero in both buffers. -/
theorem getD_map_neg (entries : Array Int8) (i : Nat) :
    (entries.map fun v => -v).getD i 0 = -entries.getD i 0 := by
  rw [Array.getD_eq_getD_getElem?, Array.getElem?_map, Array.getD_eq_getD_getElem?]
  cases entries[i]? <;> rfl

theorem sumTo_neg (count : Nat) (f : Nat → Int) : (sumTo count fun i => -f i) = -sumTo count f := by
  induction count with
  | zero => rfl
  | succ n ih => rw [sumTo, sumTo, ih, Int.neg_add]

namespace RowMajor

open Binary32

variable {d : Dims} {call : Call} {batch m h c j : Nat}

/-- The values of a batch do not hold the least int8, which has no opposite. -/
def Negatable (d : Dims) (call : Call) (batch : Nat) : Prop :=
  ∀ h < d.headNum, ∀ c < d.headSize, ∀ j < d.seqK, entry d call.values d.seqK batch j h c ≠ -128

/-- Position of an entry among those that a tensor has to have. Nothing behind them is read. -/
theorem entry_lt {length token : Nat} (hBatch : batch < d.batchSize) (hToken : token < length)
    (hh : h < d.headNum) (hc : c < d.headSize) :
    ((batch * length + token) * d.headNum + h) * d.headSize + c <
      d.batchSize * length * d.headNum * d.headSize :=
  mul_add_lt_mul (mul_add_lt_mul (mul_add_lt_mul hBatch hToken) hh) hc

/-- The values that the call reads are the first ones of its buffer. What stands behind them may be
-128. -/
theorem negatable_of_extract (hBatch : batch < d.batchSize)
    (hValues : ∀ v ∈ call.values.extract 0 (d.batchSize * d.seqK * d.headNum * d.headSize),
      v ≠ -128) : Negatable d call batch := by
  intro h hh c hc j hj
  have hPosition := entry_lt hBatch hj hh hc
  rw [entry, Array.getD_eq_getD_getElem?]
  cases hEntry : call.values[((batch * d.seqK + j) * d.headNum + h) * d.headSize + c]? with
  | none => decide
  | some v =>
      refine hValues v (Array.mem_of_getElem? (i :=
        ((batch * d.seqK + j) * d.headNum + h) * d.headSize + c) ?_)
      rw [Array.getElem?_extract, if_pos, Nat.zero_add, hEntry]
      have hSize := (Array.getElem?_eq_some_iff.1 hEntry).1
      omega

/-- The opposite of an entry stands for the opposite number, at the same scale. -/
theorem mirrored_value (hEntry : entry d call.values d.seqK batch j h c ≠ -128) :
    Mirrored (value d call batch h c j) (value d call.negateValues batch h c j) := by
  have hNegated : entry d call.negateValues.values d.seqK batch j h c =
      -entry d call.values d.seqK batch j h c := getD_map_neg _ _
  rw [value, value, hNegated]
  refine Mirrored.mul ?_ _
  rw [ofInt8, ofInt8, toInt_neg_int8 hEntry]
  exact mirrored_ofInt _

/-- Quantizing opposite numbers gives opposite entries under the same scale, since the scale is
found from magnitudes and rounding goes away from zero on both sides. -/
theorem column_negateValues (hValues : Negatable d call batch) (hh : h < d.headNum)
    (hc : c < d.headSize) :
    column d call.negateValues batch h c =
      ((column d call batch h c).1, (column d call batch h c).2.map fun v => -v) :=
  quantizeDynamic_mirrored fun j => mirrored_value (hValues h hh c hc j j.isLt)

/-- The weighed sum of opposite values is the opposite number. The probabilities do not look at
values, so they are the same. -/
theorem mirrored_weighed (hValues : Negatable d call batch) (hh : h < d.headNum)
    (hc : c < d.headSize) :
    Mirrored (weighed d call batch m h c) (weighed d call.negateValues batch m h c) := by
  have hWeights : probabilities d call.negateValues batch m h = probabilities d call batch m h := rfl
  have hTotal : (sumTo d.seqK fun j => (((probabilities d call batch m h).getD j 0).toNat : Int) *
        (((column d call batch h c).2.map fun v => -v).getD j 0).toInt) =
      -sumTo d.seqK fun j => (((probabilities d call batch m h).getD j 0).toNat : Int) *
        ((column d call batch h c).2.getD j 0).toInt := by
    rw [← sumTo_neg]
    refine sumTo_congr fun j _ => ?_
    have hSmall : ((column d call batch h c).2.getD j 0).toInt.natAbs ≤ 127 :=
      natAbs_quantizeDynamic_le _ j
    rw [getD_map_neg, toInt_neg_int8, Int.mul_neg]
    intro hLeast
    rw [hLeast] at hSmall
    exact absurd hSmall (by decide)
  rw [weighed, weighed, hWeights, column_negateValues hValues hh hc]
  simp only [hTotal]
  exact ((mirrored_ofInt _).mul _).div _

/-- The row of opposite values has the same scale and the opposite entries, all heads of the row
taken together. -/
theorem row_negateValues (hValues : Negatable d call batch) :
    row d call.negateValues batch m =
      ((row d call batch m).1, (row d call batch m).2.map fun q => -q) := by
  refine quantizeDynamic_mirrored fun i => mirrored_weighed hValues ?_ ?_
  · exact div_lt_of_lt_mul i.isLt
  · exact Nat.mod_lt _ (Nat.pos_of_mul_pos_left (Nat.lt_of_le_of_lt (Nat.zero_le _) i.isLt))

end RowMajor

namespace Attending

variable {d : Dims} {call : Call} {p : Nat}

/-- An output entry, position by position. No output entry is -128, so its opposite is an entry too.
-/
theorem outputAt_negateValues (hValues : ∀ batch < d.batchSize, RowMajor.Negatable d call batch)
    (hp : p < d.batchSize * d.seqQ * (d.headNum * d.headSize)) :
    outputAt d call.negateValues p = -outputAt d call p := by
  have hBatch := div_lt_of_lt_mul (div_lt_of_lt_mul hp)
  simp only [outputAt, Strides.ofDims]
  rw [RowMajor.row_negateValues (hValues _ hBatch)]
  exact getD_map_neg _ _

theorem outputScaleAt_negateValues
    (hValues : ∀ batch < d.batchSize, RowMajor.Negatable d call batch)
    (hp : p < d.batchSize * d.seqQ) :
    outputScaleAt d call.negateValues p = outputScaleAt d call p := by
  rw [outputScaleAt, outputScaleAt, RowMajor.row_negateValues (hValues _ (div_lt_of_lt_mul hp))]

end Attending

namespace Attention

variable {a : Attention} {desc : OperatorDesc} {host : Capability} {settings : Settings}
  {hostThreads : Nat} {call : Call} {memory : Memory} {registers registers' : TileRegisters}
  {schedule schedule' : Dims → Schedule} {layout : Layout} {regions : WorkspaceRegions}

/-- Opposite values give opposite outputs under the same scales. Both calls fail, or both return, and
then every output entry of the one is the opposite of the other's and every output scale the same
bits, whatever the scales and the mask are. -/
theorem execute_negateValues
    (hBuilt : ofDescriptor desc host settings .portable hostThreads = .ok a) (hThreads : 0 < a.threads)
    (hPreflight : a.preflight call memory = .ok (.ok (layout, regions)))
    (hProper : layout.dims.isDegenerate = false)
    (hValues : ∀ v ∈ call.values.extract 0 (layout.dims.batchSize * layout.dims.seqK *
      layout.dims.headNum * layout.dims.headSize), v ≠ -128)
    (hStaff : a.Staffed layout.dims schedule registers)
    (hStaff' : a.Staffed layout.dims schedule' registers') :
    (∀ fault, a.execute schedule call memory registers = .error fault ↔
        a.execute schedule' call.negateValues memory registers' = .error fault) ∧
      ∀ o, a.execute schedule call memory registers = .ok o →
        ∃ o', a.execute schedule' call.negateValues memory registers' = .ok o' ∧
          o.result = .ok () ∧ o'.result = .ok () ∧
          o'.memory.outputFor layout.dims = (o.memory.outputFor layout.dims).map (fun q => -q) ∧
          o'.memory.outputScaleFor layout.dims = o.memory.outputScaleFor layout.dims := by
  have hDims : call.dims = call.negateValues.dims := rfl
  have hLengths : dataLengths call memory = dataLengths call.negateValues memory := by
    simp [dataLengths, Call.negateValues]
  have hNegatable (batch : Nat) (hBatch : batch < layout.dims.batchSize) :=
    RowMajor.negatable_of_extract hBatch hValues
  obtain ⟨hFaults, hReturns⟩ := execute_alike (width_of_ofDescriptor hBuilt) hThreads hPreflight
    hProper hDims hLengths Iff.rfl hStaff hStaff'
  refine ⟨hFaults, fun o hRun => ?_⟩
  obtain ⟨o', hRun', hLeft, hRight⟩ := hReturns o hRun
  refine ⟨o', hRun', hLeft.result, hRight.result, ?_, ?_⟩
  · rw [hRight.output, hLeft.output, Array.map_ofFn]
    exact congrArg Array.ofFn (funext fun p => Attending.outputAt_negateValues hNegatable p.isLt)
  · rw [hRight.outputScale, hLeft.outputScale]
    exact congrArg Array.ofFn
      (funext fun p => Attending.outputScaleAt_negateValues hNegatable p.isLt)

/-- Both orders of the small call's tasks are valid for two workers, and there are registers for
them. -/
theorem staffed_small : (small 2).Staffed ⟨1, 2, 1, 3, 2⟩ backwards (.initial 9 1) ∧
    (small 2).Staffed ⟨1, 2, 1, 3, 2⟩ Schedule.inOrder (.initial 9 1) :=
  ⟨⟨by decide, valid_backwards _ (by decide : 1 < 2)⟩,
    ⟨by decide, Schedule.valid_inOrder _ (by decide : 0 < 2)⟩⟩

/-- The small call passes its check with any memory that has room for its output. -/
theorem preflight_small : ∃ regions, (small 2).preflight (smallCall 0) (smallMemory 2 255) =
    .ok (.ok (Layout.ofDims ⟨1, 2, 1, 3, 2⟩ 2, regions)) :=
  exists_regions rfl (inRange_small (by decide) (by decide)) (problems_small 2 0 255)

/-- The small call with a greatest value in place of its least. -/
def smallSymmetric : Call :=
  { smallCall 0 with values := #[127, -127, 3, 4, 50, 60, 7, -8, 9, 10, 11, 12] }

/-- The small call with opposite values, its tasks run in another order. -/
theorem execute_negateValues_small :
    ∃ o o', (small 2).execute backwards smallSymmetric (smallMemory 2 255) (.initial 9 1) = .ok o ∧
      (small 2).execute Schedule.inOrder smallSymmetric.negateValues (smallMemory 2 255)
        (.initial 9 1) = .ok o' ∧
      o'.memory.outputFor ⟨1, 2, 1, 3, 2⟩ =
        (o.memory.outputFor ⟨1, 2, 1, 3, 2⟩).map (fun q => -q) ∧
      o'.memory.outputScaleFor ⟨1, 2, 1, 3, 2⟩ = o.memory.outputScaleFor ⟨1, 2, 1, 3, 2⟩ := by
  obtain ⟨hBackwards, hInOrder⟩ := staffed_small
  obtain ⟨regions, hSmall⟩ := preflight_small
  have hPreflight : (small 2).preflight smallSymmetric (smallMemory 2 255) =
      .ok (.ok (Layout.ofDims ⟨1, 2, 1, 3, 2⟩ 2, regions)) :=
    (preflight_congr rfl rfl).trans hSmall
  have hSums : RowMajor.FittingSums ⟨1, 2, 1, 3, 2⟩ smallSymmetric :=
    RowMajor.fittingSums_of_lt _ (by decide)
  obtain ⟨o, hRun⟩ := (exists_execute_iff rfl (by decide) hBackwards.registers hPreflight
    hBackwards.schedule).2 hSums
  have hLeast : (smallSymmetric.values.extract 0 12).toList.all (· != -128) = true := by decide
  obtain ⟨-, hReturns⟩ := execute_negateValues ofDescriptor_small (by decide) hPreflight rfl
    (fun v hv => bne_iff_ne.1 (List.all_eq_true.1 hLeast v (Array.mem_toList_iff.2 hv)))
    hBackwards hInOrder
  obtain ⟨o', hRun', -, -, hOutput, hScale⟩ := hReturns o hRun
  exact ⟨o, o', hRun, hRun', hOutput, hScale⟩

end Attention

/-- Where a head comes from under another order of the heads. Numbers of no heads stay. -/
def headAt {n : Nat} (order : Equiv.Perm (Fin n)) (h : Nat) : Nat :=
  if hh : h < n then order ⟨h, hh⟩ else h

/-- A head is found in its new place among as many heads. -/
theorem headAt_lt {n h : Nat} (order : Equiv.Perm (Fin n)) (hh : h < n) : headAt order h < n := by
  rw [headAt, dif_pos hh]
  exact (order ⟨h, hh⟩).isLt

theorem headAt_symm {n h : Nat} (order : Equiv.Perm (Fin n)) (hh : h < n) :
    headAt order (headAt order.symm h) = h := by
  have hBack : headAt order.symm h = order.symm ⟨h, hh⟩ := by rw [headAt, dif_pos hh]
  rw [hBack, headAt, dif_pos (order.symm ⟨h, hh⟩).isLt, Fin.eta, Equiv.apply_symm_apply]

/-- Where a column of a token, which has its heads side by side, comes from. -/
def columnAt (d : Dims) (order : Equiv.Perm (Fin d.headNum)) (i : Nat) : Nat :=
  headAt order (i / d.headSize) * d.headSize + i % d.headSize

/-- A tensor with the heads of every token in another order. -/
def permuteHeads (d : Dims) (order : Equiv.Perm (Fin d.headNum)) (tensor : Array Int8) : Array Int8 :=
  Array.ofFn fun p : Fin tensor.size =>
    tensor.getD (p / (d.headNum * d.headSize) * (d.headNum * d.headSize) +
      columnAt d order (p % (d.headNum * d.headSize))) 0

/-- The call with the heads of all its tensors in another order. -/
def Call.permuteHeads (call : Call) (d : Dims) (order : Equiv.Perm (Fin d.headNum)) : Call :=
  { call with
    queries := QuantAttention.permuteHeads d order call.queries
    keys := QuantAttention.permuteHeads d order call.keys
    values := QuantAttention.permuteHeads d order call.values }

section Columns

variable {d : Dims} (order : Equiv.Perm (Fin d.headNum)) {i : Nat}

theorem headSize_pos_of_lt (hi : i < d.headNum * d.headSize) : 0 < d.headSize :=
  Nat.pos_of_mul_pos_left (Nat.lt_of_le_of_lt (Nat.zero_le _) hi)

theorem columnAt_lt (hi : i < d.headNum * d.headSize) :
    columnAt d order i < d.headNum * d.headSize :=
  mul_add_lt_mul (headAt_lt order (div_lt_of_lt_mul hi)) (Nat.mod_lt _ (headSize_pos_of_lt hi))

/-- Heads move as a whole: a column keeps its place in its head. -/
theorem columnAt_mul_add {h c : Nat} (hc : c < d.headSize) :
    columnAt d order (h * d.headSize + c) = headAt order h * d.headSize + c := by
  rw [columnAt, mul_add_div_self h hc, mul_add_mod_self h hc]

/-- Moving the columns back undoes the move. -/
theorem columnAt_symm (hi : i < d.headNum * d.headSize) :
    columnAt d order (columnAt d order.symm i) = i := by
  have hc := Nat.mod_lt i (headSize_pos_of_lt hi)
  change columnAt d order (headAt order.symm (i / d.headSize) * d.headSize + i % d.headSize) = i
  rw [columnAt_mul_add order hc, headAt_symm order (div_lt_of_lt_mul hi),
    Nat.div_add_mod']

/-- Where the entries of a token come from. Tokens stay where they are, only their heads are moved.
-/
theorem getD_permuteHeads {tensor : Array Int8} {token : Nat} (hi : i < d.headNum * d.headSize)
    (hSize : token * (d.headNum * d.headSize) + i < tensor.size) :
    (permuteHeads d order tensor).getD (token * (d.headNum * d.headSize) + i) 0 =
      tensor.getD (token * (d.headNum * d.headSize) + columnAt d order i) 0 := by
  rw [permuteHeads, Array.getD_eq_getD_getElem?, Array.getElem?_ofFn, dif_pos hSize,
    Option.getD_some]
  simp only [mul_add_div_self token hi, mul_add_mod_self token hi]

/-- Another order of the heads of whole tokens, entry by entry: the token of an entry stays, its
head is moved. -/
theorem permuteHeads_ofFn (tokens : Nat) (f : Nat → Int8) :
    permuteHeads d order (Array.ofFn fun p : Fin (tokens * (d.headNum * d.headSize)) => f p) =
      Array.ofFn fun p : Fin (tokens * (d.headNum * d.headSize)) =>
        f (p / (d.headNum * d.headSize) * (d.headNum * d.headSize) +
          columnAt d order (p % (d.headNum * d.headSize))) := by
  apply Array.ext
  · simp [permuteHeads]
  · intro p h₁ h₂
    rw [Array.size_ofFn] at h₂
    have hColumn := Nat.mod_lt p
      (Nat.pos_of_mul_pos_left (Nat.lt_of_le_of_lt (Nat.zero_le p) h₂))
    have hSource := mul_add_lt_mul (div_lt_of_lt_mul h₂) (columnAt_lt order hColumn)
    simp only [permuteHeads, Array.getElem_ofFn, Array.getD_eq_getD_getElem?, Array.getElem?_ofFn,
      dif_pos hSource, Option.getD_some]

end Columns

namespace RowMajor

variable {d : Dims} {call : Call} {memory : Memory} (order : Equiv.Perm (Fin d.headNum))
  {batch m h c j : Nat}

/-- An entry of a head is the entry of the head that has taken its place, for any token of the
tensor. -/
theorem entry_permuteHeads {tensor : Array Int8} {length token : Nat}
    (hSize : d.batchSize * length * (d.headNum * d.headSize) ≤ tensor.size)
    (hBatch : batch < d.batchSize) (hToken : token < length) (hh : h < d.headNum)
    (hc : c < d.headSize) :
    entry d (permuteHeads d order tensor) length batch token h c =
      entry d tensor length batch token (headAt order h) c := by
  have hColumn : h * d.headSize + c < d.headNum * d.headSize := mul_add_lt_mul hh hc
  have hPosition := mul_add_lt_mul (mul_add_lt_mul hBatch hToken) hColumn
  have hSplit (k : Nat) : ((batch * length + token) * d.headNum + k) * d.headSize + c =
      (batch * length + token) * (d.headNum * d.headSize) + (k * d.headSize + c) := by
    rw [Nat.add_mul, Nat.mul_assoc, Nat.add_assoc]
  rw [entry, entry, hSplit, hSplit,
    getD_permuteHeads order hColumn (Nat.lt_of_lt_of_le hPosition hSize), columnAt_mul_add order hc]

variable (hFits : Attention.Fits d call memory)
include hFits

/-- A query contracts with a key in a head as they did in the head where both come from, up to any
depth. -/
theorem dotTo_permuteHeads (hBatch : batch < d.batchSize) (hm : m < d.seqQ) (hh : h < d.headNum)
    (hj : j < d.seqK) {depth : Nat} (hDepth : depth ≤ d.headSize) :
    dotTo d (call.permuteHeads d order) depth batch m h j =
      dotTo d call depth batch m (headAt order h) j := by
  refine sumTo_congr fun c hc => ?_
  have hColumn : c < d.headSize := Nat.lt_of_lt_of_le hc hDepth
  rw [Call.permuteHeads, entry_permuteHeads order hFits.queries hBatch hm hh hColumn,
    entry_permuteHeads order hFits.keys hBatch hj hh hColumn]

/-- The sums of all heads fit together or not, so their order does not matter to whether a call
returns. -/
theorem fittingSums_permuteHeads :
    FittingSums d call ↔ FittingSums d (call.permuteHeads d order) := by
  constructor
  · intro hSums batch hBatch m hm h hh j hj depth hDepth
    rw [dotTo_permuteHeads order hFits hBatch hm hh hj hDepth]
    exact hSums batch hBatch m hm _ (headAt_lt order hh) j hj depth hDepth
  · intro hSums batch hBatch m hm h hh j hj depth hDepth
    have hBack := headAt_lt order.symm hh
    rw [← headAt_symm order hh, ← dotTo_permuteHeads order hFits hBatch hm hBack hj hDepth]
    exact hSums batch hBatch m hm _ hBack j hj depth hDepth

/-- The probabilities of a head go with it. Scales and mask belong to tokens and are the same for
all heads. -/
theorem probabilities_permuteHeads (hBatch : batch < d.batchSize) (hm : m < d.seqQ)
    (hh : h < d.headNum) :
    probabilities d (call.permuteHeads d order) batch m h =
      probabilities d call batch m (headAt order h) := by
  refine congrArg softmax (congrArg Array.ofFn (funext fun j => ?_))
  rw [score, score]
  split
  · next hj =>
    have hDot : dot d (call.permuteHeads d order) batch m h j =
        dot d call batch m (headAt order h) j :=
      dotTo_permuteHeads order hFits hBatch hm hh hj (Nat.le_refl _)
    rw [hDot]
    rfl
  · rfl

/-- So do its packed columns, each with a scale of its own. -/
theorem column_permuteHeads (hBatch : batch < d.batchSize) (hh : h < d.headNum)
    (hc : c < d.headSize) :
    column d (call.permuteHeads d order) batch h c = column d call batch (headAt order h) c := by
  refine congrArg quantizeDynamic (congrArg Array.ofFn (funext fun j => ?_))
  rw [value, value, Call.permuteHeads, entry_permuteHeads order hFits.values hBatch j.isLt hh hc]

/-- And so does its output before it is quantized. -/
theorem weighed_permuteHeads (hBatch : batch < d.batchSize) (hm : m < d.seqQ) (hh : h < d.headNum)
    (hc : c < d.headSize) :
    weighed d (call.permuteHeads d order) batch m h c =
      weighed d call batch m (headAt order h) c := by
  rw [weighed, weighed, probabilities_permuteHeads order hFits hBatch hm hh,
    column_permuteHeads order hFits hBatch hh hc]

/-- A row has its scale in every order of its heads, and its entries where they come from. The
greatest magnitude does not look at the order. -/
theorem row_permuteHeads (hBatch : batch < d.batchSize) (hm : m < d.seqQ) :
    (row d (call.permuteHeads d order) batch m).1 = (row d call batch m).1 ∧
      ∀ i < d.headNum * d.headSize, (row d (call.permuteHeads d order) batch m).2.getD i 0 =
        (row d call batch m).2.getD (columnAt d order i) 0 := by
  have hWeighed (i : Nat) (hi : i < d.headNum * d.headSize) :
      weighed d (call.permuteHeads d order) batch m (i / d.headSize) (i % d.headSize) =
        weighed d call batch m (columnAt d order i / d.headSize)
          (columnAt d order i % d.headSize) := by
    have hc := Nat.mod_lt i (headSize_pos_of_lt hi)
    rw [weighed_permuteHeads order hFits hBatch hm (div_lt_of_lt_mul hi) hc, columnAt,
      mul_add_div_self _ hc, mul_add_mod_self _ hc]
  have hSame (x : Binary32) :
      (x ∈ Array.ofFn fun i : Fin (d.headNum * d.headSize) =>
          weighed d (call.permuteHeads d order) batch m (i / d.headSize) (i % d.headSize)) ↔
        x ∈ Array.ofFn fun i : Fin (d.headNum * d.headSize) =>
          weighed d call batch m (i / d.headSize) (i % d.headSize) := by
    -- A column comes from a column, and every column goes somewhere.
    rw [Array.mem_ofFn, Array.mem_ofFn]
    constructor
    · rintro ⟨i, rfl⟩
      exact ⟨⟨_, columnAt_lt order i.isLt⟩, (hWeighed i i.isLt).symm⟩
    · rintro ⟨i, rfl⟩
      refine ⟨⟨_, columnAt_lt order.symm i.isLt⟩, ?_⟩
      rw [hWeighed _ (columnAt_lt order.symm i.isLt), columnAt_symm order i.isLt]
  obtain ⟨hScale, hEntries⟩ := quantizeDynamic_congr hSame
  refine ⟨hScale, fun i hi => hEntries i _ ?_⟩
  rw [Array.getElem?_ofFn, dif_pos hi, Array.getElem?_ofFn, dif_pos (columnAt_lt order hi),
    hWeighed i hi]

end RowMajor

namespace Attending

variable {d : Dims} {call : Call} {memory : Memory} (order : Equiv.Perm (Fin d.headNum)) {p : Nat}
  (hFits : Attention.Fits d call memory)
include hFits

/-- An output entry, position by position: the row stays, the column moves with its head. -/
theorem outputAt_permuteHeads (hp : p < d.batchSize * d.seqQ * (d.headNum * d.headSize)) :
    outputAt d (call.permuteHeads d order) p =
      outputAt d call (p / (d.headNum * d.headSize) * (d.headNum * d.headSize) +
        columnAt d order (p % (d.headNum * d.headSize))) := by
  have hToken := div_lt_of_lt_mul hp
  have hColumn := Nat.mod_lt p (Nat.pos_of_mul_pos_left (Nat.lt_of_le_of_lt (Nat.zero_le p) hp))
  have hQuery := Nat.mod_lt (p / (d.headNum * d.headSize))
    (Nat.pos_of_mul_pos_left (Nat.lt_of_le_of_lt (Nat.zero_le _) hToken))
  obtain ⟨-, hEntries⟩ := RowMajor.row_permuteHeads order hFits (div_lt_of_lt_mul hToken) hQuery
  have hSource := columnAt_lt order hColumn
  simp only [outputAt, Strides.ofDims]
  rw [hEntries _ hColumn, mul_add_div_self _ hSource, mul_add_mod_self _ hSource]

theorem outputScaleAt_permuteHeads (hp : p < d.batchSize * d.seqQ) :
    outputScaleAt d (call.permuteHeads d order) p = outputScaleAt d call p :=
  (RowMajor.row_permuteHeads order hFits (div_lt_of_lt_mul hp)
    (Nat.mod_lt _ (Nat.pos_of_mul_pos_left (Nat.lt_of_le_of_lt (Nat.zero_le _) hp)))).1

end Attending

namespace Attention

variable {a : Attention} {desc : OperatorDesc} {host : Capability} {settings : Settings}
  {hostThreads : Nat} {call : Call} {memory : Memory} {registers registers' : TileRegisters}
  {schedule schedule' : Dims → Schedule} {layout : Layout} {regions : WorkspaceRegions}

/-- Heads are interchangeable. A call and the call with the heads of its queries, keys and values in
another order both fail, or both return, and then the heads of the output are in that order and every
output scale has the same bits, whatever the scales and the mask are. -/
theorem execute_permuteHeads
    (hBuilt : ofDescriptor desc host settings .portable hostThreads = .ok a) (hThreads : 0 < a.threads)
    (hPreflight : a.preflight call memory = .ok (.ok (layout, regions)))
    (hProper : layout.dims.isDegenerate = false) (order : Equiv.Perm (Fin layout.dims.headNum))
    (hStaff : a.Staffed layout.dims schedule registers)
    (hStaff' : a.Staffed layout.dims schedule' registers') :
    (∀ fault, a.execute schedule call memory registers = .error fault ↔
        a.execute schedule' (call.permuteHeads layout.dims order) memory registers' =
          .error fault) ∧
      ∀ o, a.execute schedule call memory registers = .ok o →
        ∃ o', a.execute schedule' (call.permuteHeads layout.dims order) memory registers' = .ok o' ∧
          o.result = .ok () ∧ o'.result = .ok () ∧
          o'.memory.outputFor layout.dims =
            permuteHeads layout.dims order (o.memory.outputFor layout.dims) ∧
          o'.memory.outputScaleFor layout.dims = o.memory.outputScaleFor layout.dims := by
  have hDims : call.dims = (call.permuteHeads layout.dims order).dims := rfl
  have hLengths : dataLengths call memory =
      dataLengths (call.permuteHeads layout.dims order) memory := by
    simp [dataLengths, Call.permuteHeads, permuteHeads]
  have hFits : Fits layout.dims call memory := by
    obtain ⟨-, rfl, hFits, -⟩ := preflight_accepted hPreflight
    exact hFits
  obtain ⟨hFaults, hReturns⟩ := execute_alike (width_of_ofDescriptor hBuilt) hThreads hPreflight
    hProper hDims hLengths (RowMajor.fittingSums_permuteHeads order hFits) hStaff hStaff'
  refine ⟨hFaults, fun o hRun => ?_⟩
  obtain ⟨o', hRun', hLeft, hRight⟩ := hReturns o hRun
  refine ⟨o', hRun', hLeft.result, hRight.result, ?_, ?_⟩
  · rw [hRight.output, hLeft.output, permuteHeads_ofFn]
    exact congrArg Array.ofFn
      (funext fun p => Attending.outputAt_permuteHeads order hFits p.isLt)
  · rw [hRight.outputScale, hLeft.outputScale]
    exact congrArg Array.ofFn
      (funext fun p => Attending.outputScaleAt_permuteHeads order hFits p.isLt)

/-- The two heads of the small call change places, and so do those of its output. -/
theorem execute_permuteHeads_small :
    ∃ o o', (small 2).execute backwards (smallCall 0) (smallMemory 2 255) (.initial 9 1) = .ok o ∧
      (small 2).execute Schedule.inOrder ((smallCall 0).permuteHeads ⟨1, 2, 1, 3, 2⟩ (Equiv.swap 0 1))
        (smallMemory 2 255) (.initial 9 1) = .ok o' ∧
      o'.memory.outputFor ⟨1, 2, 1, 3, 2⟩ =
        permuteHeads ⟨1, 2, 1, 3, 2⟩ (Equiv.swap 0 1) (o.memory.outputFor ⟨1, 2, 1, 3, 2⟩) ∧
      o'.memory.outputScaleFor ⟨1, 2, 1, 3, 2⟩ = o.memory.outputScaleFor ⟨1, 2, 1, 3, 2⟩ := by
  obtain ⟨regions, hPreflight⟩ := preflight_small
  obtain ⟨hBackwards, hInOrder⟩ := staffed_small
  obtain ⟨o, hRun, -⟩ := exists_small (by decide) (by decide) 0 255 hBackwards.schedule
  obtain ⟨-, hReturns⟩ := execute_permuteHeads ofDescriptor_small (by decide) hPreflight rfl
    (@Equiv.swap (Fin 2) _ 0 1) hBackwards hInOrder
  obtain ⟨o', hRun', -, -, hOutput, hScale⟩ := hReturns o hRun
  exact ⟨o, o', hRun, hRun', hOutput, hScale⟩

end Attention

end QuantAttention
