import QuantAttention.Kernel.Outputs
import QuantAttention.Proofs.Faults
import QuantAttention.Proofs.Positions
import QuantAttention.Proofs.Rewritten

/-! What the output kernel writes. An entry is the weighed sum of a column of values, quantized with
the inverse of its row's scale; the scale is that of the greatest magnitude over all heads. -/

namespace QuantAttention

namespace OutputTask

/-- Where the probability of key `k` stands for row `r` and head `h`. -/
def probabilityPosition (task : OutputTask) (r h k : Nat) : Nat :=
  h * task.probabilityStep + r * task.probabilityStride + k

/-- Where the value of key `k` stands for head `h` and column `c`. -/
def valuePosition (task : OutputTask) (h c k : Nat) : Nat :=
  h * task.valueStep + c / 16 * task.valueBlockStride + cell (c % 16) k

def weight (task : OutputTask) (r h k : Nat) : Int :=
  ((task.probabilities.getD (task.probabilityPosition r h k) 0).toNat : Int)

/-- What key `k` adds to the output of row `r`, head `h` and column `c`. -/
def product (task : OutputTask) (r h c k : Nat) : Int :=
  task.weight r h k * (task.values.getD (task.valuePosition h c k) 0).toInt

/-- The sum over `depth` keys of probability times value. -/
def total (task : OutputTask) (depth r h c : Nat) : Int := sumTo depth (task.product r h c)

/-- The output of row `r`, head `h` and column `c` before it is quantized. -/
def weighed (task : OutputTask) (depth r h c : Nat) : Binary32 :=
  .ofInt (task.total depth r h c) * task.valueScale.getD (h * task.valueScaleStep + c) 0 /
    probabilityMax

def rowMax (task : OutputTask) (depth r : Nat) : Binary32 :=
  absMax (Array.ofFn fun p : Fin (task.heads * task.cols) =>
    task.weighed depth r (p / task.cols) (p % task.cols))

def rowScale (task : OutputTask) (depth r : Nat) : Scale := .ofAbsMax (task.rowMax depth r)

def quantized (task : OutputTask) (depth r h c : Nat) : Int8 :=
  quantizeActivation (task.weighed depth r h c) (task.rowScale depth r).inverse

/-- None of the partial sums of the task leaves the range of an accumulator. -/
def SmallSums (task : OutputTask) : Prop :=
  ∀ r < task.rows, ∀ h < task.heads, ∀ c < task.cols, ∀ depth ≤ pad task.keyCount 64,
    (task.total depth r h c).natAbs < 2147483648

def position (task : OutputTask) (r h c : Nat) : Nat := r * task.outStride + h * task.outStep + c

/-- No two entries stand at one position. -/
def Injective (task : OutputTask) : Prop :=
  ∀ r h c r' h' c', r < task.rows → h < task.heads → c < task.cols → r' < task.rows →
    h' < task.heads → c' < task.cols → task.position r h c = task.position r' h' c' →
      r = r' ∧ h = h' ∧ c = c'

/-- Every operand reaches as far as the kernel reads it, and the target as far as it is written. -/
structure InBounds (task : OutputTask) (entries scales : Nat) : Prop where
  rows : task.rows ≤ 16
  keyCount : task.keyCount + 64 < Size.limit
  probabilityStride : pad task.keyCount 64 ≤ task.probabilityStride
  probabilities : ∀ h < task.heads, ∀ r < task.rows, Within task.probabilities.size
    (h * task.probabilityStep + r * task.probabilityStride + pad task.keyCount 64)
  block : ∀ h < task.heads, ∀ c < task.cols,
    Within task.values.size (h * task.valueStep + c / 16 * task.valueBlockStride)
  values : ∀ h < task.heads, ∀ c < task.cols, ∀ k < pad task.keyCount 64,
    Within task.values.size
      (h * task.valueStep + c / 16 * task.valueBlockStride + (cell (c % 16) k + 1))
  valueScale : ∀ h < task.heads, ∀ c < task.cols,
    Within task.valueScale.size (h * task.valueScaleStep + c + 1)
  entries : ∀ r < task.rows, ∀ h < task.heads, Within entries (task.position r h 0 + task.cols)
  scales : task.rows ≤ scales

end OutputTask

namespace Outputs

variable {task : OutputTask} {depth r h c : Nat}

/-- What an accumulator that does not overflow ends with is the sum of the products. -/
theorem columnSum_eq {total : Int} (hSum : columnSum task depth r h c = .ok total) :
    total = task.total depth r h c := by
  simp only [columnSum, View.take, Checked.bind_eq_ok, Size.eval_add_eq_ok, Size.eval_mul_eq_ok,
    Size.eval_ofNat, Except.ok.injEq, exists_and_left, exists_eq_left', exists_eq_left,
    and_assoc] at hSum
  obtain ⟨-, -, -, rest, hRest, weights, hWeights, -, -, -, block, hBlock, hTotal⟩ := hSum
  obtain ⟨-, -, hSize⟩ := View.size_slice hWeights
  rw [eq_sumTo_of_contractLane (fun k => ((weights.getD k 0).toNat : Int))
    (fun _ _ _ hx => View.eq_of_map_get _ hx 0) hTotal, hSize]
  refine sumTo_congr fun k hk => ?_
  rw [View.getD_slice hWeights (by omega), Nat.zero_add, View.getD_drop hRest,
    View.getD_drop hBlock]
  rfl

/-- An output that could be formed is the weighed sum at the scale of its column, divided by 255. -/
theorem value_eq {x : Binary32} (hValue : value task depth r h c = .ok x) :
    x = task.weighed depth r h c := by
  simp only [value, Checked.bind_eq_ok, Checked.pure_eq_ok, Size.eval_add_eq_ok,
    Size.eval_mul_eq_ok, Size.eval_ofNat, Except.ok.injEq, exists_and_left, exists_eq_left',
    exists_eq_left, and_assoc] at hValue
  obtain ⟨total, hTotal, -, -, scale, hScale, rfl⟩ := hValue
  rw [OutputTask.weighed, columnSum_eq hTotal, View.getD_of_get hScale]

/-- The outputs of a row, head by head, as the scale of the row is found over them. -/
theorem rowValues_eq {values : Array (Array Binary32)}
    (hValues : rowValues task depth r = .ok values) :
    values = Array.ofFn fun h : Fin task.heads => Array.ofFn fun c : Fin task.cols =>
      task.weighed depth r h c := by
  have hHead (h : Nat) (_ : h < task.heads) (xs : Array Binary32)
      (hxs : Checked.tabulate task.cols (value task depth r h) = .ok xs) :
      xs = Array.ofFn fun c : Fin task.cols => task.weighed depth r h c :=
    Checked.tabulate_eq_ofFn (fun c _ _ hc => value_eq hc) hxs
  exact Checked.tabulate_eq_ofFn hHead hValues

/-- Writing the part of a head replaces as many entries as the head has columns, and no others. -/
theorem writeHead_rewritten {entries target out : Array Int8}
    (hWrite : writeHead task r h entries target = .ok out) :
    task.position r h 0 + entries.size ≤ target.size ∧
      Rewritten (fun p => task.position r h 0 ≤ p ∧ p < task.position r h 0 + entries.size)
        (fun p x => entries[p - task.position r h 0]? = some x) target out := by
  simp only [writeHead, overwrite, Checked.bind_eq_ok, Checked.pure_eq_ok, require_eq_ok,
    Size.eval_add_eq_ok, Size.eval_mul_eq_ok, Size.eval_ofNat, Except.ok.injEq, exists_and_left,
    exists_eq_left', exists_eq_left, exists_const, and_assoc] at hWrite
  obtain ⟨-, -, -, -, hFits, rfl⟩ := hWrite
  refine ⟨hFits, Rewritten.splice ?_⟩
  intro i x hx
  rwa [OutputTask.position, Nat.add_zero, Nat.add_sub_cancel_left]

/-- `x` is an entry of row `r` that stands at `p`. -/
def IsEntry (task : OutputTask) (depth r p : Nat) (x : Int8) : Prop :=
  ∃ h < task.heads, ∃ c < task.cols, p = task.position r h c ∧ x = task.quantized depth r h c

/-- A head writes the quantized entries of its part of the row. -/
theorem writeHead_quantized {xs ys : Array Int8} (hHead : h < task.heads)
    (hWrite : writeHead task r h (((Array.ofFn fun h : Fin task.heads =>
      Array.ofFn fun c : Fin task.cols => task.weighed depth r h c).getD h #[]).map
        fun y => quantizeActivation y (task.rowScale depth r).inverse) xs = .ok ys) :
    task.position r h 0 + task.cols ≤ xs.size ∧
      Rewritten (fun p => ∃ c < task.cols, p = task.position r h c) (IsEntry task depth r)
        xs ys := by
  rw [getD_ofFn task.heads fun h => Array.ofFn fun c : Fin task.cols => task.weighed depth r h c,
    if_pos hHead] at hWrite
  obtain ⟨hFits, hRewritten⟩ := writeHead_rewritten hWrite
  rw [Array.size_map, Array.size_ofFn] at hFits
  refine ⟨hFits, (hRewritten.mono ?_).congr ?_⟩
  · intro p x _ hIn hx
    rw [Array.size_map, Array.size_ofFn] at hIn
    refine ⟨h, hHead, p - task.position r h 0, by omega, ?_, ?_⟩
    · simp only [OutputTask.position] at hIn ⊢
      omega
    · rw [Array.getElem?_map, Array.getElem?_ofFn, dif_pos (by omega)] at hx
      exact (Option.some.inj hx).symm
  · intro p _
    rw [Array.size_map, Array.size_ofFn]
    constructor
    · intro hIn
      refine ⟨p - task.position r h 0, by omega, ?_⟩
      simp only [OutputTask.position] at hIn ⊢
      omega
    · rintro ⟨c, hc, rfl⟩
      simp only [OutputTask.position]
      omega

/-- A row writes its entries in all heads and its one scale, and needs room for both. -/
theorem writeRow_rewritten {target out : OutputBlock}
    (hWrite : writeRow task depth r target = .ok out) :
    (r < target.scales.size ∧
        ∀ h < task.heads, task.position r h 0 + task.cols ≤ target.entries.size) ∧
      Rewritten (fun p => ∃ h < task.heads, ∃ c < task.cols, p = task.position r h c)
        (IsEntry task depth r) target.entries out.entries ∧
      Rewritten (fun p => p = r) (fun p x => x = (task.rowScale depth p).scale) target.scales
        out.scales := by
  simp only [writeRow, Checked.bind_eq_ok, Checked.pure_eq_ok, require_eq_ok] at hWrite
  obtain ⟨values, hValues, _, hScale, entries, hEntries, rfl⟩ := hWrite
  rw [rowValues_eq hValues, flatten_ofFn task.heads task.cols (task.weighed depth r)] at hEntries
  refine ⟨⟨hScale, ?_⟩, ?_, ?_⟩
  · intro h hh
    obtain ⟨xs, ys, hSize, hStep⟩ := Checked.exists_step_of_iterate
      (fun xs => xs.size = target.entries.size) rfl
      (fun i xs ys hi hBefore hStep => (writeHead_quantized hi hStep).2.size_eq.trans hBefore)
      hEntries hh
    exact hSize ▸ (writeHead_quantized hh hStep).1
  · exact Rewritten.iterate id (fun i xs ys hi hStep => (writeHead_quantized hi hStep).2) hEntries
  · apply (Rewritten.set target.scales r _).mono
    rintro p x - rfl rfl
    rw [rowValues_eq hValues, flatten_ofFn task.heads task.cols (task.weighed depth p)]
    rfl

theorem run_requires {tilesLoaded : Bool} {target out : OutputBlock}
    (hRun : run tilesLoaded task target = .ok out) :
    (tilesLoaded = true ∧ task.rows ≤ 16 ∧ pad task.keyCount 64 ≤ task.probabilityStride) ∧
      Checked.iterate task.rows (writeRow task (pad task.keyCount 64)) target = .ok out := by
  simp only [run, Checked.bind_eq_ok, require_eq_ok] at hRun
  obtain ⟨_, hTiles, _, hRows, depth, hDepth, _, hStride, hLoop⟩ := hRun
  obtain rfl := eq_pad_of_padTo (by decide) hDepth
  exact ⟨⟨hTiles, hRows, hStride⟩, hLoop⟩

/-- What a run writes is what its rows write, one after the other. -/
theorem run_entries {tilesLoaded : Bool} {target out : OutputBlock}
    (hRun : run tilesLoaded task target = .ok out) :
    Rewritten (fun p => ∃ r < task.rows, ∃ h < task.heads, ∃ c < task.cols, p = task.position r h c)
      (fun p x => ∃ r < task.rows, IsEntry task (pad task.keyCount 64) r p x) target.entries
      out.entries := by
  refine Rewritten.iterate OutputBlock.entries ?_ (run_requires hRun).2
  intro r s t hr hStep
  exact (writeRow_rewritten hStep).2.1.mono fun p x _ _ hx => ⟨r, hr, hx⟩

/-- Every row has written its scale, and the scales behind the rows are kept. -/
theorem run_scales {tilesLoaded : Bool} {target out : OutputBlock}
    (hRun : run tilesLoaded task target = .ok out) :
    Rewritten (fun p => p < task.rows)
      (fun p x => x = (task.rowScale (pad task.keyCount 64) p).scale) target.scales out.scales := by
  have hLoop : Rewritten (fun p => ∃ r < task.rows, p = r)
      (fun p x => x = (task.rowScale (pad task.keyCount 64) p).scale) target.scales out.scales := by
    refine Rewritten.iterate OutputBlock.scales ?_ (run_requires hRun).2
    intro r s t _ hStep
    exact (writeRow_rewritten hStep).2.2
  refine hLoop.congr fun p _ => ?_
  constructor
  · rintro ⟨r, hr, rfl⟩
    exact hr
  · exact fun hp => ⟨p, hp, rfl⟩

/-- A run that returns had room for every head of every row in its target, and for all scales. -/
theorem run_fits {tilesLoaded : Bool} {target out : OutputBlock}
    (hRun : run tilesLoaded task target = .ok out) (hRow : r < task.rows) :
    r < target.scales.size ∧
      ∀ h < task.heads, task.position r h 0 + task.cols ≤ target.entries.size := by
  obtain ⟨s, t, ⟨hEntries, hScales⟩, hStep⟩ := Checked.exists_step_of_iterate
    (fun s => s.entries.size = target.entries.size ∧ s.scales.size = target.scales.size) ⟨rfl, rfl⟩
    (fun i s t _ hBefore hStep => by
      obtain ⟨-, hEntries, hScales⟩ := writeRow_rewritten hStep
      exact ⟨hEntries.size_eq.trans hBefore.1, hScales.size_eq.trans hBefore.2⟩)
    (run_requires hRun).2 hRow
  rw [← hEntries, ← hScales]
  exact (writeRow_rewritten hStep).1

/-- Where rows do not overlap, a cell belongs to one entry, and this is what the cell holds in the
end. -/
theorem getD_entries_run {tilesLoaded : Bool} {target out : OutputBlock}
    (hInjective : task.Injective) (hRun : run tilesLoaded task target = .ok out)
    (hRow : r < task.rows) (hHead : h < task.heads) (hCol : c < task.cols) :
    out.entries.getD (task.position r h c) 0 = task.quantized (pad task.keyCount 64) r h c := by
  have hFits := (run_fits hRun hRow).2 h hHead
  have hInside : task.position r h c < target.entries.size := by
    simp only [OutputTask.position] at hFits ⊢
    omega
  obtain ⟨r', hr', h', hh', c', hc', hPosition, hEntry⟩ :=
    (run_entries hRun).getD_written hInside ⟨r, hRow, h, hHead, c, hCol, rfl⟩ 0
  obtain ⟨rfl, rfl, rfl⟩ :=
    hInjective _ _ _ _ _ _ hRow hHead hCol hr' hh' hc' hPosition
  exact hEntry

theorem getD_scales_run {tilesLoaded : Bool} {target out : OutputBlock}
    (hRun : run tilesLoaded task target = .ok out) (hRow : r < task.rows) :
    out.scales.getD r 0 = (task.rowScale (pad task.keyCount 64) r).scale :=
  (run_scales hRun).getD_written (run_fits hRun hRow).1 hRow 0

/-- A sum of the kernel stays within operands that are long enough. It can overflow only if the sums
of the task are not small. -/
theorem columnSum_faultsOnly {allowed : Fault → Prop} {entries scales : Nat}
    (hTask : task.InBounds entries scales)
    (hSum : allowed .accumulatorOverflow ∨ task.SmallSums)
    (hr : r < task.rows) (hh : h < task.heads) (hc : c < task.cols) :
    FaultsOnly allowed (columnSum task (pad task.keyCount 64) r h c) := by
  have hWeights := hTask.probabilities h hh r hr
  have hStart := hWeights.mono (Nat.le_add_right _ _)
  have hBlock := hTask.block h hh c hc
  rw [columnSum, Size.ofNat_mul (hStart.mono (Nat.le_add_right _ _)).2,
    Size.ofNat_mul (hStart.mono (Nat.le_add_left _ _)).2, Size.ofNat_add hStart.2,
    Size.ofNat_mul (hBlock.mono (Nat.le_add_right _ _)).2,
    Size.ofNat_mul (hBlock.mono (Nat.le_add_left _ _)).2, Size.ofNat_add hBlock.2]
  refine .bind_ok rfl (.bind (.drop hStart.1) fun rest hRest => ?_)
  have hDepth := hWeights.drop
  rw [← (View.size_drop hRest).2] at hDepth
  refine .bind (.slice (Nat.zero_le _) hDepth.1) fun weights hSlice => ?_
  obtain ⟨-, -, hSize⟩ := View.size_slice hSlice
  rw [Nat.sub_zero] at hSize
  refine .bind_ok rfl (.bind (.drop hBlock.1) fun block hDrop => ?_)
  refine .contractLane (fun k => ((weights.getD k 0).toNat : Int))
    (fun k hk => .bind (.get hk) fun _ _ => .ok _) (fun _ _ _ hx => View.eq_of_map_get _ hx 0)
    (fun k hk => ?_) (hSum.imp id fun hSmall k hk => ?_)
  · have hCell := (hTask.values h hh c hc k (hSize ▸ hk)).drop
    rw [← (View.size_drop hDrop).2] at hCell
    exact ⟨hCell.1, Nat.lt_of_succ_lt hCell.2⟩
  · rw [sumTo_congr fun i hi => by rw [View.getD_slice hSlice (by omega), Nat.zero_add,
      View.getD_drop hRest, View.getD_drop hDrop]]
    exact .of_natAbs_lt (hSmall r hr h hh c hc k (hSize ▸ hk))

/-- An output is formed without a fault where its sum is, for the rest of it has no fault. -/
theorem value_faultsOnly {allowed : Fault → Prop} {entries scales : Nat}
    (hTask : task.InBounds entries scales)
    (hSum : allowed .accumulatorOverflow ∨ task.SmallSums)
    (hr : r < task.rows) (hh : h < task.heads) (hc : c < task.cols) :
    FaultsOnly allowed (value task (pad task.keyCount 64) r h c) := by
  have hScale := hTask.valueScale h hh c hc
  have hScaleRange := hScale.mono (Nat.le_add_right _ 1)
  rw [value, Size.ofNat_mul (hScaleRange.mono (Nat.le_add_right _ _)).2,
    Size.ofNat_add hScaleRange.2]
  refine (columnSum_faultsOnly hTask hSum hr hh hc).bind fun _ _ => .bind_ok rfl ?_
  exact .bind (.get hScale.1) fun _ _ => .ok _

/-- A row is written without a fault where its outputs can be formed and the target has room for it.
-/
theorem writeRow_faultsOnly {allowed : Fault → Prop} {target : OutputBlock}
    (hTask : task.InBounds target.entries.size target.scales.size)
    (hSum : allowed .accumulatorOverflow ∨ task.SmallSums)
    (hr : r < task.rows) :
    FaultsOnly allowed (writeRow task (pad task.keyCount 64) r target) := by
  have hValues : FaultsOnly allowed (rowValues task (pad task.keyCount 64) r) :=
    .tabulate fun h hh => .tabulate fun c hc => value_faultsOnly hTask hSum hr hh hc
  refine hValues.bind fun values hRow => .bind_require (Nat.lt_of_lt_of_le hr hTask.scales) ?_
  refine .bind (.iterate (fun _ xs => xs.size = target.entries.size) rfl ?_) fun _ _ => .ok _
  intro h xs hh hSize
  refine ⟨?_, fun ys hStep => (writeHead_rewritten hStep).2.size_eq.trans hSize⟩
  have hFits := hTask.entries r hr h hh
  rw [OutputTask.position, Nat.add_zero] at hFits
  have hStart := hFits.mono (Nat.le_add_right _ _)
  rw [writeHead, Size.ofNat_mul (hStart.mono (Nat.le_add_right _ _)).2,
    Size.ofNat_mul (hStart.mono (Nat.le_add_left _ _)).2, Size.ofNat_add hStart.2]
  refine .bind_ok rfl ?_
  rw [Size.ofNat_add hFits.2]
  refine .bind_ok rfl (.bind (.require ?_) fun _ _ => .ok _)
  rw [rowValues_eq hRow, getD_ofFn task.heads fun h => Array.ofFn fun c : Fin task.cols =>
    task.weighed (pad task.keyCount 64) r h c, if_pos hh, Array.size_map, Array.size_ofFn, hSize]
  exact hFits.1

/-- With operands and a target that are long enough the kernel faults only in its sums. -/
theorem run_faultsOnly {allowed : Fault → Prop} {target : OutputBlock}
    (hTask : task.InBounds target.entries.size target.scales.size)
    (hSum : allowed .accumulatorOverflow ∨ task.SmallSums) :
    FaultsOnly allowed (run true task target) := by
  refine .bind_require rfl (.bind_require hTask.rows ?_)
  refine .bind_ok ((padTo_eq_ok (by decide)).2 ⟨hTask.keyCount, rfl⟩) ?_
  refine .bind_require hTask.probabilityStride (.iterate (fun _ block =>
    block.entries.size = target.entries.size ∧ block.scales.size = target.scales.size)
    ⟨rfl, rfl⟩ ?_)
  rintro r block hr ⟨hEntries, hScales⟩
  rw [← hEntries, ← hScales] at hTask
  refine ⟨writeRow_faultsOnly hTask hSum hr, fun next hStep => ?_⟩
  obtain ⟨-, hNextEntries, hNextScales⟩ := writeRow_rewritten hStep
  exact ⟨hNextEntries.size_eq.trans hEntries, hNextScales.size_eq.trans hScales⟩

end Outputs

end QuantAttention
