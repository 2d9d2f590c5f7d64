import QuantAttention.Kernel.Probabilities
import QuantAttention.Proofs.Faults
import QuantAttention.Proofs.Positions
import QuantAttention.Proofs.Rewritten

/-! What the probability kernel writes. Every head has sixteen rows of the target to itself. The
first columns of a row that belongs to a query hold the softmax of its scores; the rest of the row,
and every row without a query, is zero. -/

namespace QuantAttention

namespace ProbabilityTask

/-- The product of query `r` and key `c` in head `h`, summed up to column `depth`. -/
def dotTo (task : ProbabilityTask) (depth h r c : Nat) : Int :=
  sumTo depth fun i =>
    (task.queries.getD (h * task.queryStep + (r * task.queryStride + i)) 0).toInt *
      (task.keys.getD (h * task.keyStep + (c / 16 * task.keyBlockStride + cell (c % 16) i)) 0).toInt

def dot (task : ProbabilityTask) (h r c : Nat) : Int := task.dotTo task.depth h r c

/-- No sum of the kernel leaves the range of its accumulator, not even before its end. -/
def FittingSums (task : ProbabilityTask) : Prop :=
  ∀ h < task.heads, ∀ r < task.rows, ∀ c < pad task.keyCount 16, ∀ depth ≤ task.depth,
    FitsAccumulator (task.dotTo depth h r c)

def score (task : ProbabilityTask) (h r c : Nat) : Binary32 :=
  .ofInt (task.dot h r c) * task.queryScale.getD (h * task.queryScaleStep + r) 0 *
      (if c < task.keyCount then task.keyScale.getD (h * task.keyScaleStep + c) 0 else 0) +
    task.bias.getD c 0

def probabilities (task : ProbabilityTask) (h r : Nat) : Array UInt8 :=
  softmax (Array.ofFn fun c : Fin (pad task.keyCount 16) => task.score h r c)

/-- What belongs into row `r` and column `c` of head `h`. -/
def stored (task : ProbabilityTask) (h r c : Nat) : UInt8 :=
  if r < task.rows then (task.probabilities h r).getD c 0 else 0

/-- Every operand reaches as far as the kernel reads it, and the target, of `size` entries, as far as
it is written. -/
structure InBounds (task : ProbabilityTask) (size : Nat) : Prop where
  rows : task.rows ≤ 16
  keyCount : task.keyCount + 16 < Size.limit
  outStride : pad task.keyCount 16 ≤ task.outStride
  target : ∀ h < task.heads, Within size (h * task.outStep + 16 * task.outStride)
  queryStart : ∀ h < task.heads, Within task.queries.size (h * task.queryStep)
  queries : ∀ h < task.heads, ∀ r < task.rows,
    Within task.queries.size (h * task.queryStep + (r * task.queryStride + task.depth))
  keyStart : ∀ h < task.heads, Within task.keys.size (h * task.keyStep)
  keyBlock : ∀ h < task.heads, ∀ c < pad task.keyCount 16,
    Within task.keys.size (h * task.keyStep + c / 16 * task.keyBlockStride)
  keys : ∀ h < task.heads, ∀ c < pad task.keyCount 16, ∀ i < task.depth,
    Within task.keys.size
      (h * task.keyStep + (c / 16 * task.keyBlockStride + (cell (c % 16) i + 1)))
  queryScale : ∀ h < task.heads,
    Within task.queryScale.size (h * task.queryScaleStep + task.rows)
  keyScale : ∀ h < task.heads, Within task.keyScale.size (h * task.keyScaleStep + task.keyCount)
  bias : pad task.keyCount 16 ≤ task.bias.size

end ProbabilityTask

namespace Probabilities

variable {task : ProbabilityTask} {operands : ProbabilityHead} {h r c width : Nat}

/-- The operands of head `h` are those of the task from the start of the head on. -/
structure HeadOf (task : ProbabilityTask) (h : Nat) (operands : ProbabilityHead) : Prop where
  queries : ∀ i, operands.queries.getD i 0 = task.queries.getD (h * task.queryStep + i) 0
  keys : ∀ i, operands.keys.getD i 0 = task.keys.getD (h * task.keyStep + i) 0
  queryScale : ∀ i, operands.queryScale.getD i 0 =
    task.queryScale.getD (h * task.queryScaleStep + i) 0
  keyScale : ∀ i, operands.keyScale.getD i 0 = task.keyScale.getD (h * task.keyScaleStep + i) 0

/-- The operands of a head are those of the task, from where the steps of the head say. -/
theorem headOf_head (hHead : head task h = .ok operands) : HeadOf task h operands := by
  simp only [head, Checked.bind_eq_ok, Checked.pure_eq_ok, Size.eval_mul_eq_ok, Size.eval_ofNat,
    Except.ok.injEq, exists_and_left, exists_eq_left', exists_eq_left,
    and_assoc] at hHead
  obtain ⟨-, queries, hQueries, -, keys, hKeys, -, queryScale, hQueryScale, -, keyScale, hKeyScale,
    rfl⟩ := hHead
  exact ⟨fun i => View.getD_drop hQueries i 0, fun i => View.getD_drop hKeys i 0,
    fun i => View.getD_drop hQueryScale i 0, fun i => View.getD_drop hKeyScale i 0⟩

/-- A product that could be formed is the sum over the entries of the query, with those of the
packed key in the cells of its lane. -/
theorem dotKey_eq {query keys : View Int8} {blockStride : Nat} {dot : Int}
    (hDot : dotKey query keys blockStride c = .ok dot) :
    dot = sumTo query.size fun i =>
      (query.getD i 0).toInt * (keys.getD (c / 16 * blockStride + cell (c % 16) i) 0).toInt := by
  simp only [dotKey, Checked.bind_eq_ok, Size.eval_mul_eq_ok, Size.eval_ofNat, Except.ok.injEq,
    exists_and_left, exists_eq_left', exists_eq_left, and_assoc] at hDot
  obtain ⟨-, block, hBlock, hSum⟩ := hDot
  rw [eq_sumTo_of_contractLane _ (fun i _ x hx => View.eq_of_map_get _ hx 0) hSum]
  exact sumTo_congr fun i _ => by rw [View.getD_drop hBlock]

/-- What is summed for a query of the operands of a head. -/
theorem sumTo_eq_dotTo (hOf : HeadOf task h operands) {query : View Int8} {depth : Nat}
    (hQuery : operands.queries.slice (r * task.queryStride) (r * task.queryStride + task.depth) =
      .ok query) (hDepth : depth ≤ task.depth) :
    (sumTo depth fun i => (query.getD i 0).toInt *
        (operands.keys.getD (c / 16 * task.keyBlockStride + cell (c % 16) i) 0).toInt) =
      task.dotTo depth h r c := by
  refine sumTo_congr fun i hi => ?_
  rw [View.getD_slice hQuery (by omega), hOf.queries, hOf.keys]

/-- A score that could be formed is that of its query and column, rounded in the order in which the
kernel multiplies. -/
theorem score_eq (hOf : HeadOf task h operands) {query : View Int8} {x : Binary32}
    (hQuery : operands.queries.slice (r * task.queryStride) (r * task.queryStride + task.depth) =
      .ok query)
    (hScore : score task operands query r c = .ok x) : x = task.score h r c := by
  obtain ⟨-, -, hSize⟩ := View.size_slice hQuery
  rw [Nat.add_sub_cancel_left] at hSize
  have hDot (dot : Int) (h' : dotKey query operands.keys task.keyBlockStride c = .ok dot) :
      dot = task.dot h r c := by
    rw [dotKey_eq h', hSize, sumTo_eq_dotTo hOf hQuery (Nat.le_refl _), ProbabilityTask.dot]
  rw [ProbabilityTask.score]
  simp only [score] at hScore
  split at hScore
  · next hKey =>
    simp only [Checked.bind_eq_ok, Checked.pure_eq_ok] at hScore
    obtain ⟨keyScale, hKeyScale, dot, hd, queryScale, hQueryScale, bias, hBias, rfl⟩ := hScore
    rw [if_pos hKey, hDot dot hd, ← hOf.queryScale, View.getD_of_get hQueryScale, ← hOf.keyScale,
      View.getD_of_get hKeyScale, View.getD_of_get hBias]
  · next hKey =>
    simp only [Checked.bind_eq_ok, Checked.pure_eq_ok] at hScore
    obtain ⟨keyScale, hKeyScale, dot, hd, queryScale, hQueryScale, bias, hBias, rfl⟩ := hScore
    cases hKeyScale
    rw [if_neg hKey, hDot dot hd, ← hOf.queryScale, View.getD_of_get hQueryScale,
      View.getD_of_get hBias]

/-- A row that could be formed is the softmax of its scores, padding included. -/
theorem row_eq (hOf : HeadOf task h operands) {xs : Array UInt8}
    (hRow : row task operands (pad task.keyCount 16) r = .ok xs) :
    xs = task.probabilities h r := by
  simp only [row, Checked.bind_eq_ok, Checked.pure_eq_ok, Size.eval_add_eq_ok, Size.eval_mul_eq_ok,
    Size.eval_ofNat, Except.ok.injEq, exists_and_left, exists_eq_left', exists_eq_left,
    and_assoc] at hRow
  obtain ⟨-, -, -, query, hQuery, scores, hScores, rfl⟩ := hRow
  rw [Checked.tabulate_eq_ofFn (fun c _ _ hc => score_eq hOf hQuery hc) hScores]
  rfl

/-- A block of sixteen rows is zero behind the end of each row, and in the rows that are missing. -/
theorem eq_of_getElem?_block {stride i : Nat} {rows : Array (Array UInt8)} {x : UInt8}
    (hx : (block stride rows)[i]? = some x) :
    x = (rows.getD (i / stride) #[]).getD (i % stride) 0 := by
  obtain ⟨hi, rfl⟩ := Array.getElem?_eq_some_iff.1 hx
  simp only [block, Array.getElem_ofFn, Array.getD_eq_getD_getElem?]
  cases rows[i / stride]? with
  | none => simp
  | some row => rfl

/-- A head writes its sixteen rows, from the first column to the last of their stride, and nothing
else. -/
theorem writeHead_rewritten {target out : Array UInt8}
    (hRun : writeHead task (pad task.keyCount 16) h target = .ok out) :
    h * task.outStep + 16 * task.outStride ≤ target.size ∧
      Rewritten
        (fun p => h * task.outStep ≤ p ∧ p < h * task.outStep + 16 * task.outStride)
        (fun p x => x = task.stored h ((p - h * task.outStep) / task.outStride)
          ((p - h * task.outStep) % task.outStride)) target out := by
  simp only [writeHead, Checked.bind_eq_ok, Checked.pure_eq_ok, require_eq_ok, Size.eval_mul_eq_ok,
    Size.eval_ofNat, Size.eval_literal, Except.ok.injEq, exists_and_left, exists_eq_left',
    exists_eq_left, exists_const, and_assoc] at hRun
  obtain ⟨operands, hHead, -, -, -, hFits, rows, hRows, rfl⟩ := hRun
  have hOf := headOf_head hHead
  have hRowsEq := Checked.tabulate_eq_ofFn (fun r _ _ hr => row_eq hOf hr) hRows
  refine ⟨hFits, (Rewritten.splice ?_).congr ?_⟩
  · intro i x hx
    rw [eq_of_getElem?_block hx, hRowsEq, getD_ofFn task.rows (task.probabilities h),
      Nat.add_sub_cancel_left, ProbabilityTask.stored]
    split
    · rfl
    · simp
  · intro p _
    simp [block]

/-- What the target of the kernel holds in a cell. -/
theorem getElem?_writeHead {target out : Array UInt8}
    (hWrite : writeHead task (pad task.keyCount 16) h target = .ok out) (hRow : r < 16)
    (hCol : c < task.outStride) :
    out[h * task.outStep + (r * task.outStride + c)]? = some (task.stored h r c) := by
  obtain ⟨hFits, hRewritten⟩ := writeHead_rewritten hWrite
  have hCell : r * task.outStride + c < 16 * task.outStride := mul_add_lt_mul hRow hCol
  have hInside : h * task.outStep + (r * task.outStride + c) < out.size := by
    rw [hRewritten.size_eq]
    omega
  rw [Array.getElem?_eq_getElem hInside]
  have hEntry := hRewritten.written _ _ ⟨by omega, by omega⟩ (Array.getElem?_eq_getElem hInside)
  rw [hEntry, Nat.add_sub_cancel_left, mul_add_div_self r hCol, mul_add_mod_self r hCol]

/-- A run that returns has passed the checks before its loop. The rest of it is the loop over the
heads. -/
theorem run_requires {tilesLoaded : Bool} {target out : Array UInt8}
    (hRun : run tilesLoaded task target = .ok out) :
    (tilesLoaded = true ∧ task.rows ≤ 16 ∧ pad task.keyCount 16 ≤ task.outStride) ∧
      Checked.iterate task.heads (writeHead task (pad task.keyCount 16)) target = .ok out := by
  simp only [run, Checked.bind_eq_ok, require_eq_ok] at hRun
  obtain ⟨_, hTiles, _, hRows, depth, hDepth, _, hWidth, hLoop⟩ := hRun
  obtain rfl := eq_pad_of_padTo (by decide) hDepth
  exact ⟨⟨hTiles, hRows, hWidth⟩, hLoop⟩

theorem size_run {tilesLoaded : Bool} {target out : Array UInt8}
    (hRun : run tilesLoaded task target = .ok out) : out.size = target.size :=
  Checked.iterate_induction (fun _ xs => xs.size = target.size) rfl
    (fun _ _ _ _ hBefore hStep => (writeHead_rewritten hStep).2.size_eq.trans hBefore)
    (run_requires hRun).2

/-- The target has room for the rows of every head. -/
theorem run_fits {tilesLoaded : Bool} {target out : Array UInt8}
    (hRun : run tilesLoaded task target = .ok out) (hHead : h < task.heads) :
    h * task.outStep + 16 * task.outStride ≤ target.size := by
  obtain ⟨xs, ys, hSize, hWrite⟩ := Checked.exists_step_of_iterate
    (fun xs => xs.size = target.size) rfl
    (fun _ _ _ _ hBefore hStep => (writeHead_rewritten hStep).2.size_eq.trans hBefore)
    (run_requires hRun).2 hHead
  exact hSize ▸ (writeHead_rewritten hWrite).1

/-- Where heads do not overlap, a position of the target tells to which head, row and column it
belongs. -/
theorem run_rewritten {tilesLoaded : Bool} {target out : Array UInt8}
    (hDisjoint : 16 * task.outStride ≤ task.outStep)
    (hRun : run tilesLoaded task target = .ok out) :
    Rewritten
      (fun p => ∃ h < task.heads, h * task.outStep ≤ p ∧ p < h * task.outStep + 16 * task.outStride)
      (fun p x => x = task.stored (p / task.outStep) (p % task.outStep / task.outStride)
        (p % task.outStep % task.outStride)) target out := by
  refine Rewritten.iterate id ?_ (run_requires hRun).2
  intro h xs ys _ hWrite
  apply (writeHead_rewritten hWrite).2.mono
  rintro p x - ⟨hFirst, hLast⟩ rfl
  obtain ⟨i, rfl⟩ := Nat.exists_eq_add_of_le hFirst
  have hi : i < task.outStep := by omega
  rw [Nat.add_sub_cancel_left, mul_add_div_self h hi, mul_add_mod_self h hi]

/-- Where heads do not overlap, every cell of theirs holds in the end what belongs there. A head
that came later has not changed it. -/
theorem getElem?_run {tilesLoaded : Bool} {target out : Array UInt8}
    (hDisjoint : 16 * task.outStride ≤ task.outStep)
    (hRun : run tilesLoaded task target = .ok out) (hHead : h < task.heads) (hRow : r < 16)
    (hCol : c < task.outStride) :
    out[h * task.outStep + (r * task.outStride + c)]? = some (task.stored h r c) := by
  have hCell : r * task.outStride + c < 16 * task.outStride := mul_add_lt_mul hRow hCol
  have hFits := run_fits hRun hHead
  have hInside : h * task.outStep + (r * task.outStride + c) < out.size := by
    rw [size_run hRun]
    omega
  rw [Array.getElem?_eq_getElem hInside]
  have hEntry := (run_rewritten hDisjoint hRun).written _ _ ⟨h, hHead, by omega, by omega⟩
    (Array.getElem?_eq_getElem hInside)
  rw [hEntry, mul_add_div_self h (by omega), mul_add_mod_self h (by omega),
    mul_add_div_self r hCol, mul_add_mod_self r hCol]

theorem natAbs_toInt_le (q : Int8) : q.toInt.natAbs ≤ 128 := by
  have hLow := q.le_toInt
  have hHigh := q.toInt_lt
  omega

/-- Fewer than `2 ^ 17` products of int8 entries fit an accumulator, whatever the entries are. -/
theorem fits_sumTo_mul {depth : Nat} (hDepth : depth < 131072) (left right : Nat → Int8) :
    FitsAccumulator (sumTo depth fun i => (left i).toInt * (right i).toInt) := by
  have hBound : (sumTo depth fun i => (left i).toInt * (right i).toInt).natAbs ≤
      depth * (128 * 128) := by
    refine natAbs_sumTo_le_mul fun i _ => ?_
    rw [Int.natAbs_mul]
    exact Nat.mul_le_mul (natAbs_toInt_le _) (natAbs_toInt_le _)
  exact .of_natAbs_lt (by omega)

/-- With operands that are long enough a product faults only in its sum. -/
theorem dotKey_faultsOnly {allowed : Fault → Prop} {query keys : View Int8} {blockStride : Nat}
    (hStart : Within keys.size (c / 16 * blockStride))
    (hKeys : ∀ i < query.size, Within keys.size (c / 16 * blockStride + (cell (c % 16) i + 1)))
    (hSum : allowed .accumulatorOverflow ∨ ∀ depth ≤ query.size, FitsAccumulator
      (sumTo depth fun i =>
        (query.getD i 0).toInt * (keys.getD (c / 16 * blockStride + cell (c % 16) i) 0).toInt)) :
    FaultsOnly allowed (dotKey query keys blockStride c) := by
  rw [dotKey, Size.ofNat_mul hStart.2]
  refine .bind_ok rfl (.bind (.drop hStart.1) fun block hBlock => ?_)
  obtain ⟨-, hSize⟩ := View.size_drop hBlock
  refine .contractLane (fun i => (query.getD i 0).toInt) (fun i hi => .bind (.get hi) fun _ _ => .ok _)
    (fun i _ x hx => View.eq_of_map_get _ hx 0) (fun i hi => ?_) (hSum.imp id fun hFits depth hDepth => ?_)
  · have hCell := (hKeys i hi).drop
    rw [← hSize] at hCell
    exact ⟨hCell.1, by have := hCell.2; omega⟩
  · rw [sumTo_congr fun i _ => by rw [View.getD_drop hBlock]]
    exact hFits depth hDepth

/-- A product that was formed fits the accumulator in all its partial sums. -/
theorem fits_of_dotKey {query keys : View Int8} {blockStride depth : Nat} {dot : Int}
    (hDot : dotKey query keys blockStride c = .ok dot) (hDepth : depth ≤ query.size) :
    FitsAccumulator (sumTo depth fun i =>
      (query.getD i 0).toInt * (keys.getD (c / 16 * blockStride + cell (c % 16) i) 0).toInt) := by
  simp only [dotKey, Checked.bind_eq_ok, Size.eval_mul_eq_ok, Size.eval_ofNat, Except.ok.injEq,
    exists_and_left, exists_eq_left', exists_eq_left, and_assoc] at hDot
  obtain ⟨-, block, hBlock, hSum⟩ := hDot
  have hFits := fits_of_contractLane _ (fun i _ x hx => View.eq_of_map_get _ hx 0) hSum hDepth
  rwa [sumTo_congr fun i _ => by rw [View.getD_drop hBlock]] at hFits

/-- A row faults only in its sums, as its operands reach as far as they are read. -/
theorem row_faultsOnly {allowed : Fault → Prop} {size : Nat} (hTask : task.InBounds size)
    (hSum : allowed .accumulatorOverflow ∨ task.FittingSums)
    (hh : h < task.heads) (hr : r < task.rows) (hHead : head task h = .ok operands) :
    FaultsOnly allowed (row task operands (pad task.keyCount 16) r) := by
  have hOf := headOf_head hHead
  simp only [head, Checked.bind_eq_ok, Checked.pure_eq_ok, Size.eval_mul_eq_ok, Size.eval_ofNat,
    Except.ok.injEq, exists_and_left, exists_eq_left', exists_eq_left,
    and_assoc] at hHead
  obtain ⟨-, queries, hQueries, -, keys, hKeys, -, queryScale, hQueryScale, -, keyScale, hKeyScale,
    rfl⟩ := hHead
  have hQuery := (hTask.queries h hh r hr).drop
  have hRows := (hTask.queryScale h hh).drop
  have hCount := (hTask.keyScale h hh).drop
  rw [← (View.size_drop hQueries).2] at hQuery
  rw [← (View.size_drop hQueryScale).2] at hRows
  rw [← (View.size_drop hKeyScale).2] at hCount
  rw [row, Size.ofNat_mul (hQuery.mono (Nat.le_add_right _ _)).2, Size.ofNat_add hQuery.2]
  refine .bind_ok rfl (.bind_ok rfl (.bind (.slice (Nat.le_add_right _ _) hQuery.1) ?_))
  intro query hSlice
  obtain ⟨-, -, hSize⟩ := View.size_slice hSlice
  rw [Nat.add_sub_cancel_left] at hSize
  refine .bind (.tabulate fun c hc => ?_) fun _ _ => .ok _
  have hDot : FaultsOnly allowed (dotKey query keys task.keyBlockStride c) := by
    refine dotKey_faultsOnly ?_ (fun i hi => ?_) (hSum.imp id fun hFits depth hDepth => ?_)
    · rw [(View.size_drop hKeys).2]
      exact (hTask.keyBlock h hh c hc).drop
    · rw [(View.size_drop hKeys).2]
      exact (hTask.keys h hh c hc i (hSize ▸ hi)).drop
    · rw [hSize] at hDepth
      rw [sumTo_eq_dotTo hOf hSlice hDepth]
      exact hFits h hh r hr c hc depth hDepth
  have hRest (scale : Binary32) : FaultsOnly allowed (do
      let dot ← dotKey query keys task.keyBlockStride c
      return .ofInt dot * (← queryScale.get r) * scale + (← task.bias.get c)) :=
    hDot.bind fun _ _ => .bind (.get (Nat.lt_of_lt_of_le hr hRows.1)) fun _ _ =>
      .bind (.get (Nat.lt_of_lt_of_le hc hTask.bias)) fun _ _ => .ok _
  rw [score]
  split
  · next hKey => exact .bind (.get (Nat.lt_of_lt_of_le hKey hCount.1)) fun scale _ => hRest scale
  · exact .bind_ok rfl (hRest 0)

/-- The operands of a head can be found. -/
theorem head_faultsOnly {allowed : Fault → Prop} {size : Nat} (hTask : task.InBounds size)
    (hh : h < task.heads) : FaultsOnly allowed (head task h) := by
  have hQueries := hTask.queryStart h hh
  have hKeys := hTask.keyStart h hh
  have hQueryScale := (hTask.queryScale h hh).mono (Nat.le_add_right _ _)
  have hKeyScale := (hTask.keyScale h hh).mono (Nat.le_add_right _ _)
  rw [head, Size.ofNat_mul hQueries.2, Size.ofNat_mul hKeys.2, Size.ofNat_mul hQueryScale.2,
    Size.ofNat_mul hKeyScale.2]
  refine .bind_ok rfl (.bind (.drop hQueries.1) fun _ _ => ?_)
  refine .bind_ok rfl (.bind (.drop hKeys.1) fun _ _ => ?_)
  refine .bind_ok rfl (.bind (.drop hQueryScale.1) fun _ _ => ?_)
  exact .bind_ok rfl (.bind (.drop hKeyScale.1) fun _ _ => .ok _)

/-- With operands and a target that are long enough the kernel faults only in its sums. -/
theorem run_faultsOnly {allowed : Fault → Prop} {target : Array UInt8}
    (hTask : task.InBounds target.size)
    (hSum : allowed .accumulatorOverflow ∨ task.FittingSums) :
    FaultsOnly allowed (run true task target) := by
  refine .bind_require rfl (.bind_require hTask.rows ?_)
  refine .bind_ok ((padTo_eq_ok (by decide)).2 ⟨hTask.keyCount, rfl⟩) ?_
  refine .bind_require hTask.outStride (.iterate (fun _ xs => xs.size = target.size) rfl ?_)
  intro h xs hh hSize
  refine ⟨?_, fun ys hStep => (writeHead_rewritten hStep).2.size_eq.trans hSize⟩
  have hTarget := hTask.target h hh
  have hBlock := hTarget.mono (Nat.le_add_left _ _)
  have hStart := hTarget.mono (Nat.le_add_right _ _)
  rw [← hSize] at hTarget hStart
  rw [writeHead, Size.ofNat_mul hStart.2, Size.literal, Size.ofNat_mul hBlock.2]
  refine .bind (head_faultsOnly hTask hh) fun operands hHead => .bind_ok rfl ?_
  refine .bind_require hStart.1 (.bind_ok rfl (.bind_require hTarget.1 ?_))
  exact .bind (.tabulate fun r hr => row_faultsOnly hTask hSum hh hr hHead) fun _ _ => .ok _

/-- A score that could be formed has its product formed first. -/
theorem exists_dotKey_of_score {query : View Int8} {x : Binary32}
    (hScore : score task operands query r c = .ok x) :
    ∃ dot, dotKey query operands.keys task.keyBlockStride c = .ok dot := by
  rw [score] at hScore
  split at hScore
  all_goals
    simp only [Checked.bind_eq_ok, Checked.pure_eq_ok] at hScore
    obtain ⟨-, -, dot, hDot, -⟩ := hScore
    exact ⟨dot, hDot⟩

/-- Where the kernel returns, it has formed every score from the operands of its head. -/
theorem scores_of_run {tilesLoaded : Bool} {target out : Array UInt8}
    (hRun : run tilesLoaded task target = .ok out) (hh : h < task.heads) (hr : r < task.rows)
    (hc : c < pad task.keyCount 16) :
    ∃ operands query, head task h = .ok operands ∧
      operands.queries.slice (r * task.queryStride) (r * task.queryStride + task.depth) =
        .ok query ∧
      score task operands query r c = .ok (task.score h r c) := by
  obtain ⟨_, _, -, hWrite⟩ := Checked.exists_step_of_iterate (fun _ => True) trivial
    (fun _ _ _ _ _ _ => trivial) (run_requires hRun).2 hh
  simp only [writeHead, Checked.bind_eq_ok, Checked.pure_eq_ok] at hWrite
  obtain ⟨operands, hHead, -, -, -, -, -, -, -, -, rows, hRows, -⟩ := hWrite
  obtain ⟨xs, hRow⟩ := Checked.exists_of_tabulate hRows hr
  simp only [row, Checked.bind_eq_ok, Checked.pure_eq_ok, Size.eval_add_eq_ok, Size.eval_mul_eq_ok,
    Size.eval_ofNat, Except.ok.injEq, exists_and_left, exists_eq_left', exists_eq_left,
    and_assoc] at hRow
  obtain ⟨-, -, -, query, hQuery, scores, hScores, -⟩ := hRow
  obtain ⟨x, hScore⟩ := Checked.exists_of_tabulate hScores hc
  exact ⟨operands, query, hHead, hQuery,
    by rw [hScore, score_eq (headOf_head hHead) hQuery hScore]⟩

/-- Where the kernel returns, all its sums have fit the accumulator, padding included, since it
forms every score before it writes a row. -/
theorem fittingSums_of_run {tilesLoaded : Bool} {target out : Array UInt8}
    (hRun : run tilesLoaded task target = .ok out) : task.FittingSums := by
  intro h hh r hr c hc depth hDepth
  obtain ⟨operands, query, hHead, hQuery, hScore⟩ := scores_of_run hRun hh hr hc
  obtain ⟨dot, hDot⟩ := exists_dotKey_of_score hScore
  obtain ⟨-, -, hSize⟩ := View.size_slice hQuery
  rw [Nat.add_sub_cancel_left] at hSize
  rw [← sumTo_eq_dotTo (headOf_head hHead) hQuery hDepth]
  exact fits_of_dotKey hDot (hSize ▸ hDepth)

end Probabilities

end QuantAttention
