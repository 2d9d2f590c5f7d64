import QuantAttention.Proofs.Agreement
import QuantAttention.Proofs.Kernel.PartialSums
import QuantAttention.Proofs.Quantization

/-! Rows of outputs. A row is quantized once, with the scale of its greatest magnitude over all heads
and columns. What is stored depends on the products of probabilities and values alone, so bytes that
are multiplied by nothing but zero do not matter, and zero padding of either operand leaves the sums
over the keys that there are. -/

namespace QuantAttention

namespace View

variable {α : Type}

theorem size_setIfInBounds (xs : Array α) (i : Nat) (x : α) :
    (ofArray (xs.setIfInBounds i x)).size = (ofArray xs).size := Array.size_setIfInBounds

theorem getD_setIfInBounds_ne {xs : Array α} {i p : Nat} {x fallback : α} (h : i ≠ p) :
    (ofArray (xs.setIfInBounds i x)).getD p fallback = (ofArray xs).getD p fallback := by
  rw [getD_ofArray, getD_ofArray, Array.getD_eq_getD_getElem?, Array.getD_eq_getD_getElem?,
    Array.getElem?_setIfInBounds_ne h]

end View

namespace OutputTask

variable {task : OutputTask} {depth r h c : Nat}

/-- Keys without a product do not count, so the padding of a row may be left out of its sum. -/
theorem weighed_of_zero {count : Nat} (hCount : count ≤ depth)
    (hZero : ∀ k, count ≤ k → k < depth → task.product r h c k = 0) :
    task.weighed depth r h c = task.weighed count r h c := by
  rw [weighed, weighed, total, total, sumTo_of_zero hCount hZero]

/-- With up to 65792 keys all sums fit, whatever the operands hold. The bytes of a row need not come
from a softmax for this. -/
theorem smallSums_of_le (hKeys : pad task.keyCount 64 ≤ 65792) : task.SmallSums := by
  intro r _ h _ c _ depth hDepth
  have hProduct (k : Nat) : (task.product r h c k).natAbs ≤ 255 * 128 := by
    rw [product, Int.natAbs_mul]
    exact Nat.mul_le_mul (task.natAbs_weight_le r h k) (Probabilities.natAbs_toInt_le _)
  have hTotal : (task.total depth r h c).natAbs ≤ depth * (255 * 128) :=
    natAbs_sumTo_le_mul fun _ _ => hProduct _
  omega

/-- `y` is an output of row `r`. -/
def InRow (task : OutputTask) (depth r : Nat) (y : Binary32) : Prop :=
  ∃ h < task.heads, ∃ c < task.cols, task.weighed depth r h c = y

/-- The scale of a row is found over the outputs of all its heads, as their greatest magnitude,
whatever the order of heads and columns. -/
theorem greatestMagnitude_rowMax (task : OutputTask) (depth r : Nat) :
    GreatestMagnitude (task.InRow depth r) (task.rowMax depth r) := by
  refine (greatestMagnitude_absMax _).congr fun y => ?_
  rw [Array.mem_ofFn]
  constructor
  · rintro ⟨p, rfl⟩
    have hCols : 0 < task.cols := Nat.pos_of_mul_pos_left p.pos
    exact ⟨p / task.cols, div_lt_of_lt_mul p.isLt, p % task.cols, Nat.mod_lt _ hCols, rfl⟩
  · rintro ⟨h, hh, c, hc, rfl⟩
    refine ⟨⟨h * task.cols + c, mul_add_lt_mul hh hc⟩, ?_⟩
    rw [mul_add_div_self _ hc, mul_add_mod_self _ hc]

/-- `after` is `before` with every row that is formed from the first `depth` keys: with one scale for
all heads of the row, and nothing else changed. -/
structure Quantizes (task : OutputTask) (depth : Nat) (before after : OutputBlock) : Prop where
  size_entries : after.entries.size = before.entries.size
  size_scales : after.scales.size = before.scales.size
  rows : ∀ r < task.rows, ∃ greatest, GreatestMagnitude (task.InRow depth r) greatest ∧
    after.scales[r]? = some (Scale.ofAbsMax greatest).scale ∧
    ∀ h < task.heads, ∀ c < task.cols, after.entries[task.position r h c]? =
      some (quantizeActivation (task.weighed depth r h c) (Scale.ofAbsMax greatest).inverse)
  kept_entries : ∀ p, (∀ r < task.rows, ∀ h < task.heads, ∀ c < task.cols,
    p ≠ task.position r h c) → after.entries[p]? = before.entries[p]?
  kept_scales : ∀ r, task.rows ≤ r → after.scales[r]? = before.scales[r]?

/-- Rows stay as they are if the outputs do. -/
theorem Quantizes.congr {count : Nat} {before after : OutputBlock}
    (hRows : task.Quantizes depth before after)
    (hSame : ∀ r < task.rows, ∀ h < task.heads, ∀ c < task.cols,
      task.weighed depth r h c = task.weighed count r h c) :
    task.Quantizes count before after := by
  refine { hRows with rows := fun r hr => ?_ }
  obtain ⟨greatest, hGreatest, hScale, hEntries⟩ := hRows.rows r hr
  refine ⟨greatest, hGreatest.congr fun y => ?_, hScale, fun h hh c hc => ?_⟩
  · refine exists_congr fun h => and_congr_right fun hh => ?_
    refine exists_congr fun c => and_congr_right fun hc => ?_
    rw [hSame r hr h hh c hc]
  · rw [hEntries h hh c hc, hSame r hr h hh c hc]

/-- Wherever byte `p` of the values is read, it is multiplied by probability zero. -/
def IdleValue (task : OutputTask) (p : Nat) : Prop :=
  ∀ r < task.rows, ∀ h < task.heads, ∀ c < task.cols, ∀ k < pad task.keyCount 64,
    task.valuePosition h c k = p → task.probabilities.getD (task.probabilityPosition r h k) 0 = 0

/-- Wherever byte `p` of the probabilities is read, it is multiplied by value zero. -/
def IdleProbability (task : OutputTask) (p : Nat) : Prop :=
  ∀ r < task.rows, ∀ h < task.heads, ∀ c < task.cols, ∀ k < pad task.keyCount 64,
    task.probabilityPosition r h k = p → task.values.getD (task.valuePosition h c k) 0 = 0

/-- Behind the last key one of the two operands is zero. -/
def ZeroPadded (task : OutputTask) : Prop :=
  ∀ r < task.rows, ∀ h < task.heads, ∀ c < task.cols,
    ∀ k, task.keyCount ≤ k → k < pad task.keyCount 64 →
      task.probabilities.getD (task.probabilityPosition r h k) 0 = 0 ∨
        task.values.getD (task.valuePosition h c k) 0 = 0

instance (task : OutputTask) (p : Nat) : Decidable (task.IdleValue p) :=
  inferInstanceAs (Decidable (∀ r < _, ∀ h < _, ∀ c < _, ∀ k < _, _ → _))

instance (task : OutputTask) (p : Nat) : Decidable (task.IdleProbability p) :=
  inferInstanceAs (Decidable (∀ r < _, ∀ h < _, ∀ c < _, ∀ k < _, _ → _))

/-- The operands are as long as those of the task and give the same products. -/
structure SameProducts (task : OutputTask) (probabilities : View UInt8) (values : View Int8) :
    Prop where
  size_probabilities : probabilities.size = task.probabilities.size
  size_values : values.size = task.values.size
  product_eq : ∀ r < task.rows, ∀ h < task.heads, ∀ c < task.cols, ∀ k < pad task.keyCount 64,
    { task with probabilities, values }.product r h c k = task.product r h c k

/-- A product of which one factor is zero is zero, whatever byte the other operand holds there. -/
theorem product_eq_zero (task : OutputTask) {r h c k : Nat}
    (hZero : task.probabilities.getD (task.probabilityPosition r h k) 0 = 0 ∨
      task.values.getD (task.valuePosition h c k) 0 = 0) : task.product r h c k = 0 := by
  rcases hZero with hWeight | hValue
  · have hNone : task.weight r h k = 0 := by
      rw [weight]
      exact congrArg (fun p : UInt8 => (p.toNat : Int)) hWeight
    rw [product, hNone, Int.zero_mul]
  · rw [product, hValue]
    exact Int.mul_zero _

/-- Values that are weighed with zero only may be exchanged for any others. -/
theorem sameProducts_values {values : View Int8} (hSize : values.size = task.values.size)
    (hIdle : ∀ p, values.getD p 0 ≠ task.values.getD p 0 → task.IdleValue p) :
    task.SameProducts task.probabilities values := by
  refine ⟨rfl, hSize, fun r hr h hh c hc k hk => ?_⟩
  by_cases hSame :
      values.getD (task.valuePosition h c k) 0 = task.values.getD (task.valuePosition h c k) 0
  · exact congrArg (fun v : Int8 => task.weight r h k * v.toInt) hSame
  · have hZero := hIdle _ hSame r hr h hh c hc k hk rfl
    rw [product_eq_zero { task with values } (.inl hZero), product_eq_zero task (.inl hZero)]

/-- So may probabilities that meet nothing but zeros. -/
theorem sameProducts_probabilities {probabilities : View UInt8}
    (hSize : probabilities.size = task.probabilities.size)
    (hIdle : ∀ p, probabilities.getD p 0 ≠ task.probabilities.getD p 0 →
      task.IdleProbability p) : task.SameProducts probabilities task.values := by
  refine ⟨hSize, rfl, fun r hr h hh c hc k hk => ?_⟩
  by_cases hSame : probabilities.getD (task.probabilityPosition r h k) 0 =
      task.probabilities.getD (task.probabilityPosition r h k) 0
  · exact congrArg (fun p : UInt8 =>
      (p.toNat : Int) * (task.values.getD (task.valuePosition h c k) 0).toInt) hSame
  · have hZero := hIdle _ hSame r hr h hh c hc k hk rfl
    rw [product_eq_zero { task with probabilities } (.inr hZero), product_eq_zero task (.inr hZero)]

end OutputTask

namespace Outputs

variable {task : OutputTask} {probabilities : View UInt8} {values : View Int8} {r h c : Nat}

/-- Operands with the same products have the same sums. Whether a sum fits its accumulator is
decided by the products as well. -/
theorem columnSum_congr (hSame : task.SameProducts probabilities values) (hr : r < task.rows)
    (hh : h < task.heads) (hc : c < task.cols) :
    columnSum { task with probabilities, values } (pad task.keyCount 64) r h c =
      columnSum task (pad task.keyCount 64) r h c := by
  -- The views differ, so nothing can be rewritten before both of them have been read.
  refine Checked.bind_congr fun start hStart => ?_
  refine (View.alike_drop hSame.size_probabilities start).bind_eq fun rest rest' hRest hRest' => ?_
  have hRestSize : rest.size = rest'.size := by
    rw [(View.size_drop hRest).2, (View.size_drop hRest').2, hSame.size_probabilities]
  refine (View.alike_slice hRestSize 0 _).bind_eq fun weights weights' hTake hTake' => ?_
  have hCount := (View.size_slice hTake).2.2
  have hCount' := (View.size_slice hTake').2.2
  refine Checked.bind_congr fun first hFirst => ?_
  refine (View.alike_drop hSame.size_values first).bind_eq fun block block' hBlock hBlock' => ?_
  have hBlockSize : block.size = block'.size := by
    rw [(View.size_drop hBlock).2, (View.size_drop hBlock').2, hSame.size_values]
  simp only [Size.eval_add_eq_ok, Size.eval_mul_eq_ok, Size.eval_ofNat, Except.ok.injEq,
    exists_and_left, exists_eq_left', exists_eq_left, and_assoc] at hStart hFirst
  obtain ⟨-, -, -, rfl⟩ := hStart
  obtain ⟨-, -, -, rfl⟩ := hFirst
  rw [hCount, hCount']
  refine contractLane_congr (fun k => ((weights.getD k 0).toNat : Int))
    (fun k => ((weights'.getD k 0).toNat : Int)) ?_ (fun _ _ _ hx => View.eq_of_map_get _ hx 0)
    (fun _ _ _ hx => View.eq_of_map_get _ hx 0) hBlockSize ?_
  · exact fun k _ => (View.alike_get (hCount.trans hCount'.symm) k).map _ _
  · intro k hk
    have hProduct := hSame.product_eq r hr h hh c hc k hk
    rw [View.getD_slice hTake (by omega), View.getD_slice hTake' (by omega), Nat.zero_add,
      View.getD_drop hRest, View.getD_drop hRest', View.getD_drop hBlock, View.getD_drop hBlock']
    exact hProduct

/-- What is written, and whether anything is, depends on the products alone. -/
theorem run_congr (hSame : task.SameProducts probabilities values) (tilesLoaded : Bool)
    (target : OutputBlock) :
    run tilesLoaded { task with probabilities, values } target = run tilesLoaded task target := by
  have hRow (r : Nat) (hr : r < task.rows) :
      rowValues { task with probabilities, values } (pad task.keyCount 64) r =
        rowValues task (pad task.keyCount 64) r := by
    refine Checked.tabulate_congr fun h hh => Checked.tabulate_congr fun c hc => ?_
    rw [value, value, columnSum_congr hSame hr hh hc]
  refine Checked.bind_congr fun _ _ => Checked.bind_congr fun _ _ => ?_
  refine Checked.bind_congr fun depth hDepth => Checked.bind_congr fun _ _ => ?_
  obtain rfl := eq_pad_of_padTo (by decide) hDepth
  refine Checked.iterate_congr (fun r hr => funext fun block => ?_) target
  rw [writeRow, writeRow, hRow r hr]
  rfl

/-- Where the kernel returns, it has formed every output of its rows. -/
theorem value_of_run {tilesLoaded : Bool} {target out : OutputBlock}
    (hRun : run tilesLoaded task target = .ok out) (hr : r < task.rows) (hh : h < task.heads)
    (hc : c < task.cols) :
    value task (pad task.keyCount 64) r h c = .ok (task.weighed (pad task.keyCount 64) r h c) := by
  obtain ⟨_, _, -, hWrite⟩ := Checked.exists_step_of_iterate (fun _ => True) trivial
    (fun _ _ _ _ _ _ => trivial) (run_requires hRun).2 hr
  simp only [writeRow, Checked.bind_eq_ok] at hWrite
  obtain ⟨rows, hRows, -⟩ := hWrite
  obtain ⟨row, hRow⟩ := Checked.exists_of_tabulate hRows hh
  obtain ⟨y, hValue⟩ := Checked.exists_of_tabulate hRow hc
  rw [hValue, value_eq hValue]

/-- Where rows do not overlap, every cell of a row holds its output under the scale of the row, and
all other cells are kept. -/
theorem quantizes_run {tilesLoaded : Bool} {target out : OutputBlock}
    (hInjective : task.Injective) (hRun : run tilesLoaded task target = .ok out) :
    task.Quantizes (pad task.keyCount 64) target out := by
  have hEntries := run_entries hRun
  have hScales := run_scales hRun
  refine ⟨hEntries.size_eq, hScales.size_eq, fun r hr => ?_, fun p hOutside => ?_, fun r hr => ?_⟩
  · obtain ⟨hScaleFits, hEntriesFit⟩ := run_fits hRun hr
    refine ⟨_, task.greatestMagnitude_rowMax _ r, ?_, fun h hh c hc => ?_⟩
    · rw [hScales.getElem?_eq_getD hScaleFits 0, getD_scales_run hRun hr]
      rfl
    · have hInside : task.position r h c < target.entries.size := by
        have hFits := hEntriesFit h hh
        simp only [OutputTask.position] at hFits ⊢
        omega
      rw [hEntries.getElem?_eq_getD hInside 0, getD_entries_run hInjective hRun hr hh hc]
      rfl
  · apply hEntries.kept
    rintro ⟨r, hr, h, hh, c, hc, hPosition⟩
    exact hOutside r hr h hh c hc hPosition
  · exact hScales.kept r (Nat.not_lt.2 hr)

/-- Every row is quantized once over all its heads. Bytes of either operand that are multiplied by
nothing but zero have no part in it, and with zero padding only the keys have. -/
theorem run_quantizes {tilesLoaded : Bool} {target out : OutputBlock}
    (hInjective : task.Injective) (hRun : run tilesLoaded task target = .ok out) :
    (∀ r < task.rows, ∀ h < task.heads, ∀ c < task.cols,
        value task (pad task.keyCount 64) r h c =
          .ok (task.weighed (pad task.keyCount 64) r h c)) ∧
      task.Quantizes (pad task.keyCount 64) target out ∧
      (∀ values : View Int8, values.size = task.values.size →
        (∀ p, values.getD p 0 ≠ task.values.getD p 0 → task.IdleValue p) →
          run tilesLoaded { task with values } target = .ok out) ∧
      (∀ probabilities : View UInt8, probabilities.size = task.probabilities.size →
        (∀ p, probabilities.getD p 0 ≠ task.probabilities.getD p 0 → task.IdleProbability p) →
          run tilesLoaded { task with probabilities } target = .ok out) ∧
      (task.ZeroPadded → task.Quantizes task.keyCount target out) := by
  have hRows := quantizes_run hInjective hRun
  refine ⟨fun r hr h hh c hc => value_of_run hRun hr hh hc, hRows, ?_, ?_, ?_⟩
  · intro values hSize hIdle
    rw [← hRun]
    exact run_congr (OutputTask.sameProducts_values hSize hIdle) tilesLoaded target
  · intro probabilities hSize hIdle
    rw [← hRun]
    exact run_congr (OutputTask.sameProducts_probabilities hSize hIdle) tilesLoaded target
  · intro hPadded
    refine hRows.congr fun r hr h hh c hc => OutputTask.weighed_of_zero (le_pad (by decide)) ?_
    exact fun k hFirst hLast =>
      OutputTask.product_eq_zero task (hPadded r hr h hh c hc k hFirst hLast)

/-- Probabilities of two keys, in rows of 64. -/
def sharedWeights : Array UInt8 :=
  ⟨[255, 0] ++ List.replicate 62 0 ++ [0, 255] ++ List.replicate 62 0 ++ [255, 255] ++
    List.replicate 62 0⟩

/-- Six columns of two values each, and an entry behind those of the first column. -/
def sharedBlock : Array Int8 :=
  ⟨[100, 7, 5, 0, 50, 0, 0, 0, 1, 0, 0, 0, -1, 127, 0, 0, 2, 0, 0, 0, 0, 3] ++
    List.replicate 1000 0⟩

/-- Two rows of two heads, three columns each, with room behind the columns and the heads. The heads
share a row of probabilities and a block of values; the last column of the first head has no number
for a scale. -/
def twoHeads : OutputTask where
  probabilities := .ofArray sharedWeights
  values := .ofArray sharedBlock
  valueScale := .ofArray #[.ofInt 1, .ofInt 1, .nan, .ofInt 1, .ofInt 1, .ofInt 1]
  keyCount := 2
  cols := 3
  rows := 2
  probabilityStride := 64
  valueBlockStride := 1024
  outStride := 8
  heads := 2
  probabilityStep := 64
  valueStep := 12
  valueScaleStep := 3
  outStep := 4

theorem inBounds_twoHeads : twoHeads.InBounds 17 3 := by
  have hValues : twoHeads.values.size = 1022 := by decide +kernel
  refine ⟨by decide, by decide, by decide, by decide +kernel, ?_, ?_, by decide, by decide,
    by decide⟩
  · rw [hValues]
    decide
  · intro h hh c hc k hk
    have hDepth : pad twoHeads.keyCount 64 = 64 := rfl
    rw [hDepth] at hk
    rw [hValues]
    simp only [twoHeads, cell, Within, Size.limit] at *
    omega

theorem zeroPadded_twoHeads : twoHeads.ZeroPadded := by
  have hBehind : ∀ p < 192, 2 ≤ p % 64 → twoHeads.probabilities.getD p 0 = 0 := by decide +kernel
  intro r hr h hh c _ k hFirst hLast
  have hDepth : pad twoHeads.keyCount 64 = 64 := rfl
  rw [hDepth] at hLast
  simp only [twoHeads] at hr hh hFirst
  refine .inl (hBehind _ ?_ ?_)
  all_goals
    simp only [OutputTask.probabilityPosition, twoHeads]
    omega

/-- The first row is stored under the scale of its second head, with or without the entry behind the
keys, and whatever probability a key without a value has. -/
theorem run_quantizes_twoHeads :
    twoHeads.Injective ∧ ∃ out,
      run true twoHeads ⟨Array.replicate 17 9, Array.replicate 3 .nan⟩ = .ok out ∧
      out.scales[0]? = some (.ofInt 1) ∧ out.scales[2]? = some .nan ∧
      out.entries[twoHeads.position 0 0 0]? = some 100 ∧
      out.entries[twoHeads.position 0 0 2]? = some 0 ∧
      out.entries[twoHeads.position 0 1 0]? = some 127 ∧ out.entries[3]? = some 9 ∧
      run true { twoHeads with values := .ofArray (sharedBlock.setIfInBounds 2 0) }
        ⟨Array.replicate 17 9, Array.replicate 3 .nan⟩ = .ok out ∧
      run true { twoHeads with probabilities := .ofArray (sharedWeights.setIfInBounds 3 77) }
        ⟨Array.replicate 17 9, Array.replicate 3 .nan⟩ = .ok out := by
  have hInjective : twoHeads.Injective := by
    intro r h c r' h' c' hr hh hc hr' hh' hc' hPosition
    simp only [twoHeads, OutputTask.position] at *
    omega
  obtain ⟨out, hRun⟩ : ∃ out,
      run true twoHeads ⟨Array.replicate 17 9, Array.replicate 3 .nan⟩ = .ok out :=
    (run_faultsOnly (by simpa using inBounds_twoHeads)
      (.inr (OutputTask.smallSums_of_le (by decide)))).exists_value
  obtain ⟨-, -, hValues, hProbabilities, hKeys⟩ := run_quantizes hInjective hRun
  have hRows := hKeys zeroPadded_twoHeads
  obtain ⟨greatest, hGreatest, hScale, hEntries⟩ := hRows.rows 0 (by decide)
  obtain rfl : greatest = .ofInt 127 := by
    rw [hGreatest.eq (twoHeads.greatestMagnitude_rowMax _ 0)]
    decide +kernel
  refine ⟨hInjective, out, hRun, ?_, ?_, ?_, ?_, ?_, ?_, hValues _ ?_ ?_, hProbabilities _ ?_ ?_⟩
  · rw [hScale]
    decide +kernel
  · rw [hRows.kept_scales 2 (by decide), Array.getElem?_replicate, if_pos (by decide)]
  · rw [hEntries 0 (by decide) 0 (by decide)]
    decide +kernel
  · rw [hEntries 0 (by decide) 2 (by decide)]
    decide +kernel
  · rw [hEntries 1 (by decide) 0 (by decide)]
    decide +kernel
  · rw [hRows.kept_entries 3 (by decide), Array.getElem?_replicate, if_pos (by decide)]
  · exact View.size_setIfInBounds sharedBlock 2 0
  · intro p hChanged
    obtain rfl : 2 = p := by_contra fun hp => hChanged (View.getD_setIfInBounds_ne hp)
    decide +kernel
  · exact View.size_setIfInBounds sharedWeights 3 77
  · intro p hChanged
    obtain rfl : 3 = p := by_contra fun hp => hChanged (View.getD_setIfInBounds_ne hp)
    decide +kernel

end Outputs

end QuantAttention
