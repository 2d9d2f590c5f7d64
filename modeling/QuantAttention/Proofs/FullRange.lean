import QuantAttention.Proofs.Kernel.OutputRows
import QuantAttention.Proofs.Kernel.PackedBlocks
import QuantAttention.Proofs.QuantizationError

/-! What is quantized with the scale of its greatest magnitude uses the whole range of an int8, or
is zero altogether. That holds of every row of outputs, over all heads, and of every packed column
of values. -/

namespace QuantAttention

open Binary32

/-- Entries that share a scale. Either all of them are zero, since there is nothing to store or
infinities leave no room for anything else, or one of them is the greatest or its opposite. -/
structure FullRange {ι : Type} (scale : Binary32) (entry : ι → Int8) : Prop where
  symmetric : ∀ i, (entry i).toInt.natAbs ≤ 127
  number : scale.isNaN = false
  sign : scale.negative = false
  full : (∀ i, entry i = 0) ∧ (scale = 0 ∨ scale = infinity false) ∨
    (∃ i, entry i = 127 ∨ entry i = -127) ∧ scale.isFinite = true

/-- With the inverse zero nothing is stored, not even of infinity, whose product with zero is no
number. -/
theorem quantizeActivation_zero (x : Binary32) : quantizeActivation x 0 = 0 := by
  rw [quantizeActivation]
  cases hFinite : x.isFinite with
  | true =>
      rw [mul_zero_of_isFinite hFinite]
      cases x.negative <;> decide
  | false =>
      rw [mul_zero_of_not_isFinite hFinite]
      decide

/-- The scale of a finite magnitude is finite. -/
theorem scale_of_positive {a : Binary32} (ha : a.Positive) :
    (a / activationMax).negative = false ∧ (a / activationMax).isFinite = true := by
  have hMax := positive_activationMax
  rw [div_eq hMax.sign hMax.isNaN hMax.code_pos ha, hMax.isInfinite, if_neg Bool.false_ne_true]
  refine ⟨negative_ofCode (roundCode_le ..), isFinite_ofCode ?_⟩
  refine Nat.lt_of_le_of_lt ?_ ha.finite
  rw [← roundCode_magnitude ha.isFinite]
  refine roundCode_mono (magnitudeOfCode_pos hMax.code_pos) Nat.one_pos ?_
  rw [Nat.mul_one]
  exact Nat.mul_le_mul_left _ (by decide)

/-- The greatest magnitude is stored as 127, whether the inverse is finite or not. -/
theorem quantizeActivation_greatest {a : Binary32} (ha : a.Positive) :
    quantizeActivation a (activationMax / a) = 127 := by
  rw [← Int8.toInt_inj]
  rcases Nat.lt_or_ge inverseLimit a.magnitude with hFinite | hTiny
  · obtain ⟨q, -, hStored, -, -, hGreatest⟩ := exists_step ha hFinite ha.sign (Nat.le_refl _)
    rw [hStored, hGreatest rfl]
    rfl
  · rw [inverse_of_le ha hTiny, toInt_quantizeActivation_infinity ha.sign ha.isFinite,
      if_neg (Nat.ne_of_gt ha.code_pos)]
    rfl

/-- The same of the opposite number. -/
theorem quantizeActivation_of_code_eq {a x : Binary32} (ha : a.Positive) (hx : x.code = a.code) :
    quantizeActivation x (activationMax / a) = 127 ∨
      quantizeActivation x (activationMax / a) = -127 := by
  have hGreatest := quantizeActivation_greatest ha
  cases hSign : x.negative with
  | false =>
      left
      rwa [← ofCode_code hSign, hx, ofCode_code ha.sign]
  | true =>
      right
      have hMirrored : Mirrored a x := ⟨hx, .inr (.inr (by rw [hSign, ha.sign]; rfl))⟩
      rw [hMirrored.quantizeActivation, hGreatest]

/-- Entries quantized with the scale of their greatest magnitude. -/
theorem fullRange_of_greatest {ι : Type} {f : ι → Binary32} {greatest : Binary32}
    (h : GreatestMagnitude (fun x => ∃ i, f i = x) greatest) :
    FullRange (Scale.ofAbsMax greatest).scale
      fun i => quantizeActivation (f i) (Scale.ofAbsMax greatest).inverse := by
  have hSymmetric (w : Binary32) (i : ι) := natAbs_quantizeActivation_le (f i) w
  have hNumber : greatest.code ≤ infinityCode := Nat.not_lt.1 (of_decide_eq_false h.number)
  rcases Nat.eq_zero_or_pos greatest.code with hZero | hPos
  · rw [← ofCode_code h.sign, hZero, show Scale.ofAbsMax (ofCode false 0) = ⟨0, 0⟩ by decide]
    exact ⟨hSymmetric 0, by decide, by decide, .inl ⟨fun i => quantizeActivation_zero _, .inl rfl⟩⟩
  rcases Nat.lt_or_eq_of_le hNumber with hFinite | hInfinite
  · have ha : greatest.Positive := ⟨h.sign, hFinite, hPos⟩
    obtain ⟨hSign, hScale⟩ := scale_of_positive ha
    rw [ofAbsMax_of_positive ha]
    refine ⟨hSymmetric _, (isFinite_eq.1 hScale).1, hSign, .inr ⟨?_, hScale⟩⟩
    have hNonzero : greatest ≠ 0 := fun hEq => Nat.ne_of_gt hPos (hEq ▸ rfl)
    obtain ⟨_, ⟨i, rfl⟩, -, hAbs⟩ := h.attained.resolve_left hNonzero
    exact ⟨i, quantizeActivation_of_code_eq ha (by rw [← hAbs, code_abs])⟩
  · rw [← ofCode_code h.sign, hInfinite,
      show Scale.ofAbsMax (ofCode false infinityCode) = ⟨infinity false, 0⟩ by decide]
    exact ⟨hSymmetric 0, by decide, by decide, .inl ⟨fun i => quantizeActivation_zero _, .inr rfl⟩⟩

namespace Outputs

variable {task : OutputTask} {target out : OutputBlock} {tilesLoaded : Bool} {r : Nat}

/-- Row `r`, over all heads, uses the whole range under its scale. -/
def RowFull (task : OutputTask) (out : OutputBlock) (r : Nat) : Prop :=
  ∃ scale, out.scales[r]? = some scale ∧ ∃ row : Fin task.heads × Fin task.cols → Int8,
    (∀ i, out.entries[task.position r i.1 i.2]? = some (row i)) ∧ FullRange scale row

/-- A row of outputs that a run has written uses the whole range, or all of it is zero. -/
theorem rowFull_of_run (hInjective : task.Injective) (hRun : run tilesLoaded task target = .ok out)
    (hRow : r < task.rows) : RowFull task out r := by
  obtain ⟨greatest, hGreatest, hScale, hEntries⟩ := (quantizes_run hInjective hRun).rows r hRow
  refine ⟨_, hScale, _, fun i => hEntries i.1 i.1.isLt i.2 i.2.isLt,
    fullRange_of_greatest (hGreatest.congr fun x => ?_)⟩
  constructor
  · rintro ⟨h, hh, c, hc, rfl⟩
    exact ⟨(⟨h, hh⟩, ⟨c, hc⟩), rfl⟩
  · rintro ⟨i, rfl⟩
    exact ⟨i.1, i.1.isLt, i.2, i.2.isLt, rfl⟩

end Outputs

namespace ValuePacking

variable {tile : ValueTile} {target packed : Array Int8} {scales packedScales : Array Binary32}
  {c : Nat}

/-- Column `c` of a packed block uses the whole range under its scale. -/
def ColumnFull (tile : ValueTile) (packed : Array Int8) (packedScales : Array Binary32) (c : Nat) :
    Prop :=
  ∃ scale, packedScales[c]? = some scale ∧ ∃ column : Fin tile.rows → Int8,
    (∀ n : Fin tile.rows, packed[cell c n]? = some (column n)) ∧ FullRange scale column

/-- So does a column of values that was packed, within its lane. -/
theorem columnFull_of_pack (hPack : pack tile target scales = .ok (packed, packedScales))
    (hCol : c < tile.cols) : ColumnFull tile packed packedScales c := by
  obtain ⟨greatest, hScales, hBlock⟩ := (packedColumns_pack hPack).columns
  obtain ⟨hGreatest, hScale⟩ := hScales c hCol
  refine ⟨_, hScale, _, fun n => hBlock.held c hCol n n.isLt,
    fullRange_of_greatest (hGreatest.congr fun x => ?_)⟩
  exact ⟨fun ⟨n, hn, hx⟩ => ⟨⟨n, hn⟩, hx⟩, fun ⟨n, hx⟩ => ⟨n, n.isLt, hx⟩⟩

end ValuePacking

/-- Whatever the operands hold, every row of outputs and every packed column of values uses the whole
range or is zero. -/
theorem rows_and_columns_full :
    (∀ (task : OutputTask) (tilesLoaded : Bool) (target out : OutputBlock), task.Injective →
      Outputs.run tilesLoaded task target = .ok out →
        ∀ r < task.rows, Outputs.RowFull task out r) ∧
      ∀ (tile : ValueTile) (target packed : Array Int8) (scales packedScales : Array Binary32),
        ValuePacking.pack tile target scales = .ok (packed, packedScales) →
          ∀ c < tile.cols, ValuePacking.ColumnFull tile packed packedScales c :=
  ⟨fun _ _ _ _ hInjective hRun _ hRow => Outputs.rowFull_of_run hInjective hRun hRow,
    fun _ _ _ _ _ hPack _ hCol => ValuePacking.columnFull_of_pack hPack hCol⟩

/-- One row and one column. The scale of the values is the least positive number. -/
def tinyTask : OutputTask where
  probabilities := .ofArray (Array.replicate 64 255)
  values := .ofArray (Array.replicate 1024 1)
  valueScale := .ofArray #[⟨1⟩]
  keyCount := 1
  cols := 1
  rows := 1
  probabilityStride := 64
  valueBlockStride := 1024
  outStride := 1
  heads := 1
  probabilityStep := 64
  valueStep := 1024
  valueScaleStep := 1
  outStep := 1

/-- One column, of an infinity and something that is not a number. -/
def infiniteTile : ValueTile where
  source := .ofArray #[1, 1]
  rowScale := .ofArray #[.infinity true, .nan]
  stride := 1
  rows := 2
  cols := 1

/-- The inverse for the row is infinite, and the column is stored as zero. -/
theorem rows_and_columns_full_extreme :
    tinyTask.Injective ∧ Outputs.run true tinyTask ⟨#[0], #[0]⟩ = .ok ⟨#[127], #[⟨1⟩]⟩ ∧
      Outputs.RowFull tinyTask ⟨#[127], #[⟨1⟩]⟩ 0 ∧
      ValuePacking.pack infiniteTile (Array.replicate 64 1) (Array.replicate 16 .nan) =
        .ok (Array.replicate 64 0, #[.infinity false] ++ Array.replicate 15 0) ∧
      ValuePacking.ColumnFull infiniteTile (Array.replicate 64 0)
        (#[.infinity false] ++ Array.replicate 15 0) 0 := by
  have hInjective : tinyTask.Injective := by
    intro r h c r' h' c' hr hh hc hr' hh' hc' hPosition
    simp only [tinyTask] at *
    omega
  have hRun : Outputs.run true tinyTask ⟨#[0], #[0]⟩ = .ok ⟨#[127], #[⟨1⟩]⟩ := by
    decide +kernel
  have hPack : ValuePacking.pack infiniteTile (Array.replicate 64 1) (Array.replicate 16 .nan) =
      .ok (Array.replicate 64 0, #[.infinity false] ++ Array.replicate 15 0) := by
    decide +kernel
  exact ⟨hInjective, hRun, rows_and_columns_full.1 _ _ _ _ hInjective hRun 0 (by decide), hPack,
    rows_and_columns_full.2 _ _ _ _ _ hPack 0 (by decide)⟩

end QuantAttention
