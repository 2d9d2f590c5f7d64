import QuantAttention.Proofs.Kernel.ProbabilityCells
import QuantAttention.Proofs.SoftmaxMass

/-! Rows of the probability kernel whose scores are moderate. With up to 509 keys something is
stored of each such row; with more keys it depends on how the scores are spread, and of 510 keys or
more with the score three nothing is left. -/

namespace QuantAttention

/-- A product with zero is a zero or no number, so the bias alone makes the score. -/
theorem Binary32.eq_of_isFinite_mul_zero_add {x : Binary32}
    (hFinite : (x * 0 + maskPadding).isFinite = true) : x * 0 + maskPadding = maskPadding := by
  cases hx : x.isFinite with
  | true =>
      rw [mul_zero_of_isFinite hx]
      cases x.negative <;> decide
  | false =>
      rw [mul_zero_of_not_isFinite hx] at hFinite
      exact absurd hFinite (by decide)

namespace ProbabilityTask

variable {task : ProbabilityTask} {h r c : Nat}

def keyScores (task : ProbabilityTask) (h r : Nat) : List Binary32 :=
  (List.range task.keyCount).map (task.score h r)

/-- The scores of the columns behind the last key. -/
def paddingScores (task : ProbabilityTask) (h r : Nat) : List Binary32 :=
  (List.range (pad task.keyCount 16 - task.keyCount)).map fun c =>
    task.score h r (task.keyCount + c)

/-- The bytes that a target holds for the keys of query `r` in head `h`. -/
def rowOf (task : ProbabilityTask) (h r : Nat) (target : Array UInt8) : Array UInt8 :=
  target.extract (h * task.outStep + r * task.outStride)
    (h * task.outStep + r * task.outStride + task.keyCount)

/-- All scores of a row are finite, those of the keys are at most forty in magnitude, and the bias
bars the columns without a key. -/
structure Moderate (task : ProbabilityTask) (h r : Nat) : Prop where
  finite : ∀ c < pad task.keyCount 16, (task.score h r c).isFinite = true
  keys : ∀ c < task.keyCount, (task.score h r c).abs.le (.ofInt 40) = true
  bias : ∀ c, task.keyCount ≤ c → c < pad task.keyCount 16 → task.bias.getD c 0 = maskPadding

/-- What is stored of the weights of a row: a byte of the greatest one if there are at most 509
keys; whatever their number, a byte of every weight that is one part in 509.9 of the sum, and none of
a weight that is less than one part in 510.1. Of 510 weights or more that come from the score three
none is. -/
structure RowMass (task : ProbabilityTask) (h r : Nat) (row : Array UInt8) : Prop where
  size : row.size = task.keyCount
  short : 0 < task.keyCount → task.keyCount ≤ 509 → ∃ byte ∈ row, byte ≠ 0
  kept : ∀ c < task.keyCount,
    10 * (task.rowSum h r).magnitude ≤ 5099 * (approxExp (task.score h r c)).magnitude →
      row.getD c 0 ≠ 0
  lost : ∀ c < task.keyCount,
    5101 * (approxExp (task.score h r c)).magnitude < 10 * (task.rowSum h r).magnitude →
      row.getD c 0 = 0
  equal : 510 ≤ task.keyCount → (∀ c < task.keyCount, task.score h r c = .ofInt 3) →
    ∀ byte ∈ row, byte = 0

/-- In a moderate row the score of a column without a key is its bias, and that bars the column. -/
theorem score_padding (hm : task.Moderate h r) (hc : task.keyCount ≤ c)
    (hPad : c < pad task.keyCount 16) : task.score h r c = maskPadding := by
  have hFinite := hm.finite c hPad
  rw [score, if_neg (Nat.not_lt.2 hc), hm.bias c hc hPad] at hFinite ⊢
  exact Binary32.eq_of_isFinite_mul_zero_add hFinite

/-- A moderate row of a task is a moderate row of scores. What is known of such scores, without any
kernel, applies to it. -/
theorem moderateScores (hm : task.Moderate h r) :
    ModerateScores (task.keyScores h r) (task.paddingScores h r) where
  moderate x hx := by
    obtain ⟨c, hc, rfl⟩ := List.mem_map.1 hx
    exact hm.keys c (List.mem_range.1 hc)
  barred x hx := by
    obtain ⟨c, hc, rfl⟩ := List.mem_map.1 hx
    have hInside := List.mem_range.1 hc
    exact score_padding hm (Nat.le_add_right _ _) (by omega)
  short := by
    rw [paddingScores, List.length_map, List.length_range, pad]
    omega

theorem mem_keyScores (hc : c < task.keyCount) : task.score h r c ∈ task.keyScores h r :=
  List.mem_map_of_mem (List.mem_range.2 hc)

/-- The scores of a row are those of its keys, and behind them those of the columns without a key. -/
theorem rowScores_eq (task : ProbabilityTask) (h r : Nat) :
    task.rowScores h r = task.keyScores h r ++ task.paddingScores h r := by
  have hSplit : pad task.keyCount 16 = task.keyCount + (pad task.keyCount 16 - task.keyCount) := by
    have hLe := le_pad (x := task.keyCount) (by decide : 0 < 16)
    omega
  rw [rowScores, hSplit, List.range_add, List.map_append, List.map_map]
  rfl

/-- The bytes that belong to the keys of a moderate row are its mass, before anything is said of
where they are stored. -/
theorem rowMass_of_stored (hm : task.Moderate h r) (hr : r < task.rows) :
    task.RowMass h r (Array.ofFn fun c : Fin task.keyCount => task.stored h r c) := by
  have hScores := moderateScores hm
  have hByte {c : Nat} (hc : c < task.keyCount) :
      (Array.ofFn fun c : Fin task.keyCount => task.stored h r c).getD c 0 =
        share (task.weight h r c) (weightSum (task.keyScores h r ++ task.paddingScores h r)) := by
    rw [getD_ofFn task.keyCount (task.stored h r), if_pos hc,
      stored_eq_share hr (Nat.lt_of_lt_of_le hc (le_pad (by decide))), rowSum, rowScores_eq]
  refine ⟨Array.size_ofFn, fun hKeys hCount => ?_, fun c hc hWeight => ?_, fun c hc hWeight => ?_,
    fun hCount hThree byte hMem => ?_⟩
  · obtain ⟨x, hx, hShare⟩ := hScores.exists_share_ne_zero
      (List.ne_nil_of_mem (mem_keyScores hKeys)) (by
        rwa [keyScores, List.length_map, List.length_range])
    obtain ⟨c, hc, rfl⟩ := List.mem_map.1 hx
    have hInside := List.mem_range.1 hc
    exact ⟨_, Array.mem_ofFn.2 ⟨⟨c, hInside⟩, rfl⟩, by
      rwa [stored_eq_share hr (Nat.lt_of_lt_of_le hInside (le_pad (by decide))), rowSum,
        rowScores_eq]⟩
  · rw [rowSum, rowScores_eq] at hWeight
    rw [hByte hc]
    exact (hScores.share_spec (mem_keyScores hc)).1 hWeight
  · rw [rowSum, rowScores_eq] at hWeight
    rw [hByte hc]
    exact (hScores.share_spec (mem_keyScores hc)).2 hWeight
  · obtain ⟨c, rfl⟩ := Array.mem_ofFn.1 hMem
    rw [stored_eq_share hr (Nat.lt_of_lt_of_le c.isLt (le_pad (by decide))), weight,
      hThree c c.isLt, rowSum, rowScores_eq]
    have hAll : task.keyScores h r = List.replicate task.keyCount (.ofInt 3) := by
      rw [List.eq_replicate_iff, keyScores, List.length_map, List.length_range]
      refine ⟨rfl, fun x hx => ?_⟩
      obtain ⟨c, hc, rfl⟩ := List.mem_map.1 hx
      exact hThree c (List.mem_range.1 hc)
    rw [hAll]
    exact share_replicate_eq_zero hCount fun x hx =>
      hScores.isNaN_eq_false x (List.mem_append_right _ hx)

end ProbabilityTask

namespace Probabilities

variable {task : ProbabilityTask} {h r : Nat} {tilesLoaded : Bool} {target out : Array UInt8}

/-- They are found in any buffer that holds the row in its place, which is so after the head of the
row was written, and still so when all heads were. -/
theorem rowMass_of_getElem? (hm : task.Moderate h r) (hr : r < task.rows)
    (hWidth : pad task.keyCount 16 ≤ task.outStride)
    (hOut : ∀ c < task.outStride,
      out[h * task.outStep + (r * task.outStride + c)]? = some (task.stored h r c)) :
    task.RowMass h r (task.rowOf h r out) := by
  have hCount := Nat.le_trans (le_pad (by decide)) hWidth
  rw [ProbabilityTask.rowOf, extract_eq_ofFn (task.stored h r) fun c hc => by
    rw [Nat.add_assoc, hOut c (Nat.lt_of_lt_of_le hc hCount)]]
  exact ProbabilityTask.rowMass_of_stored hm hr

/-- After a run they are in the target, since heads that do not overlap leave each other alone. -/
theorem rowMass_of_run (hm : task.Moderate h r) (hr : r < task.rows)
    (hRun : run tilesLoaded task target = .ok out) (hHead : h < task.heads)
    (hDisjoint : 16 * task.outStride ≤ task.outStep) : task.RowMass h r (task.rowOf h r out) := by
  obtain ⟨⟨-, hRows, hWidth⟩, -⟩ := run_requires hRun
  refine rowMass_of_getElem? hm hr hWidth fun c hc => ?_
  exact getElem?_run hDisjoint hRun hHead (Nat.lt_of_lt_of_le hr hRows) hc

/-- With operands and a target that are long enough and sums that fit, the kernel returns. The
scores may be anything. -/
theorem exists_run (hTask : task.InBounds target.size) (hSums : task.FittingSums) :
    ∃ out, run true task target = .ok out := by
  have hSafe : FaultsOnly (fun _ => False) (run true task target) :=
    run_faultsOnly hTask (.inr hSums)
  exact hSafe.exists_value

/-- One query with `count` keys, all entries zero and with a mask of three. -/
def uniformTask (count : Nat) : ProbabilityTask where
  queries := .ofArray #[0]
  keys := .ofArray (Array.replicate (4 * pad count 16) 0)
  queryScale := .ofArray #[.ofInt 1]
  keyScale := .ofArray (Array.replicate count (.ofInt 1))
  bias := .ofArray (Array.replicate count (.ofInt 3) ++
    Array.replicate (pad count 16 - count) maskPadding)
  depth := 1
  keyCount := count
  rows := 1
  queryStride := 1
  keyBlockStride := 64
  outStride := pad count 16
  heads := 1
  queryStep := 1
  queryScaleStep := 1
  keyStep := 4 * pad count 16
  keyScaleStep := count
  outStep := 16 * pad count 16

theorem bias_uniformTask (count : Nat) {c : Nat} (hc : c < pad count 16) :
    (uniformTask count).bias.getD c 0 = if c < count then .ofInt 3 else maskPadding := by
  have hLe := le_pad (x := count) (by decide : 0 < 16)
  rw [uniformTask, View.getD_ofArray, Array.getD_eq_getD_getElem?]
  simp only [Array.getElem?_append, Array.size_replicate, Array.getElem?_replicate]
  split
  · rfl
  · rw [if_pos (by omega)]
    rfl

theorem dotTo_uniformTask (count depth h r c : Nat) :
    (uniformTask count).dotTo depth h r c = 0 := by
  refine sumTo_of_zero (Nat.zero_le depth) fun i _ _ => ?_
  have hQuery (i : Nat) : (uniformTask count).queries.getD i 0 = 0 := by
    rw [uniformTask, View.getD_ofArray]
    rcases i with - | i <;> rfl
  rw [hQuery]
  exact Int.zero_mul _

/-- All keys of the uniform task have the score three. -/
theorem score_uniformTask (count : Nat) {c : Nat} (hc : c < pad count 16) :
    (uniformTask count).score 0 0 c = if c < count then .ofInt 3 else maskPadding := by
  have hDot : (uniformTask count).dot 0 0 c = 0 := dotTo_uniformTask count 1 0 0 c
  have hQueryScale : (uniformTask count).queryScale.getD 0 0 = .ofInt 1 := rfl
  have hKeyScale : c < count → (uniformTask count).keyScale.getD c 0 = .ofInt 1 := by
    intro hKey
    rw [uniformTask, View.getD_ofArray, Array.getD_eq_getD_getElem?, Array.getElem?_replicate,
      if_pos hKey]
    rfl
  rw [ProbabilityTask.score, hDot, bias_uniformTask count hc, Nat.zero_mul, Nat.zero_mul,
    Nat.add_zero, Nat.zero_add, hQueryScale]
  by_cases hKey : c < count
  · rw [if_pos hKey, if_pos (show c < (uniformTask count).keyCount from hKey), hKeyScale hKey]
    decide
  · rw [if_neg hKey, if_neg (show ¬c < (uniformTask count).keyCount from hKey)]
    decide

theorem moderate_uniformTask (count : Nat) : (uniformTask count).Moderate 0 0 where
  finite c hc := by
    rw [score_uniformTask count hc]
    split <;> decide
  keys c hc := by
    rw [score_uniformTask count (Nat.lt_of_lt_of_le hc (le_pad (by decide))),
      if_pos (show c < count from hc)]
    decide
  bias c hc hPad := by
    rw [bias_uniformTask count hPad, if_neg (Nat.not_lt.2 hc : ¬c < count)]

/-- The uniform task stays within its buffers for any number of keys below `2 ^ 32`, far below the
limit of sizes. -/
theorem inBounds_uniformTask {count : Nat} (hCount : count < 2 ^ 32) :
    (uniformTask count).InBounds (16 * pad count 16) := by
  have hPad : pad count 16 ≤ count + 15 := Nat.div_mul_le_self ..
  have hLe := le_pad (x := count) (by decide : 0 < 16)
  have hKeys : (uniformTask count).keys.size = 4 * pad count 16 := Array.size_replicate
  have hKeyScale : (uniformTask count).keyScale.size = count := Array.size_replicate
  have hBias : (uniformTask count).bias.size = pad count 16 := by
    show (Array.replicate count _ ++ Array.replicate (pad count 16 - count) _).size = _
    rw [Array.size_append, Array.size_replicate, Array.size_replicate]
    omega
  have hBlocks (c : Nat) (hc : c < pad count 16) : c / 16 * 64 + 64 ≤ 4 * pad count 16 := by
    rw [pad] at hc ⊢
    omega
  have hLimit : Size.limit = 2 ^ 64 := rfl
  have hWithin {size n : Nat} (hn : n ≤ size) (hSize : size ≤ 16 * pad count 16 + 1) :
      Within size n := ⟨hn, by omega⟩
  -- There is one head with one query of one entry.
  have hFirst {n m : Nat} (hn : n < 1) : n * m = 0 := by
    rw [Nat.lt_one_iff.1 hn, Nat.zero_mul]
  constructor
  · exact (by decide : 1 ≤ 16)
  · show count + 16 < Size.limit
    omega
  · exact Nat.le_refl _
  · intro h hh
    rw [hFirst hh, Nat.zero_add]
    exact hWithin (Nat.le_refl _) (Nat.le_succ _)
  · intro h hh
    rw [hFirst hh]
    exact hWithin (Nat.zero_le _) (Nat.le_add_left 1 _)
  · intro h hh r hr
    rw [hFirst hh, hFirst hr]
    exact hWithin (Nat.le_refl 1) (Nat.le_add_left 1 _)
  · intro h hh
    rw [hFirst hh]
    exact hWithin (Nat.zero_le _) (by omega)
  · intro h hh c hc
    have hEnd := hBlocks c hc
    rw [hFirst hh, hKeys, Nat.zero_add]
    exact hWithin (Nat.le_trans (Nat.le_add_right _ _) hEnd) (by omega)
  · intro h hh c hc i hi
    have hEnd := hBlocks c hc
    have hCell : cell (c % 16) 0 + 1 ≤ 64 := by
      rw [cell]
      omega
    rw [hFirst hh, hKeys, Nat.lt_one_iff.1 hi, Nat.zero_add]
    exact hWithin (Nat.le_trans (Nat.add_le_add_left hCell _) hEnd) (by omega)
  · intro h hh
    rw [hFirst hh]
    exact hWithin (Nat.le_refl 1) (Nat.le_add_left 1 _)
  · intro h hh
    rw [hFirst hh, Nat.zero_add, hKeyScale]
    exact hWithin (Nat.le_refl _) (by omega)
  · exact Nat.le_of_eq hBias.symm

theorem fittingSums_uniformTask (count : Nat) : (uniformTask count).FittingSums := by
  intro h _ r _ c _ depth _
  rw [dotTo_uniformTask]
  exact ⟨by decide, by decide⟩

/-- The kernel returns for every uniform task whose sizes can be formed. -/
theorem exists_run_uniformTask {count : Nat} (hCount : count < 2 ^ 32) :
    ∃ out, run true (uniformTask count) (Array.replicate (16 * pad count 16) 255) = .ok out := by
  refine exists_run ?_ (fittingSums_uniformTask count)
  rw [Array.size_replicate]
  exact inBounds_uniformTask hCount

/-- Every row of moderate scores has its mass: as soon as the head of the row is written, and in the
end where heads do not overlap. -/
theorem rowMass_run (task : ProbabilityTask) (target : Array UInt8) :
    (task.InBounds target.size → task.FittingSums → ∃ out, run true task target = .ok out) ∧
      ∀ h r, task.Moderate h r → r < task.rows →
        (∀ before after, task.rows ≤ 16 → pad task.keyCount 16 ≤ task.outStride →
          writeHead task (pad task.keyCount 16) h before = .ok after →
            task.RowMass h r (task.rowOf h r after)) ∧
        ∀ tilesLoaded out, run tilesLoaded task target = .ok out → h < task.heads →
          16 * task.outStride ≤ task.outStep → task.RowMass h r (task.rowOf h r out) := by
  refine ⟨exists_run, fun h r hm hr => ⟨fun before after hRows hWidth hWrite => ?_,
    fun tilesLoaded out hRun hHead hDisjoint => ?_⟩⟩
  · refine rowMass_of_getElem? hm hr hWidth fun c hc => ?_
    exact getElem?_writeHead hWrite (Nat.lt_of_lt_of_le hr hRows) hc
  · exact rowMass_of_run hm hr hRun hHead hDisjoint

/-- Something is stored of 509 keys with the score three, both right after their head and at the
end. -/
theorem rowMass_run_509 :
    ∃ before after out,
      writeHead (uniformTask 509) 512 0 before = .ok after ∧
      (∃ byte ∈ (uniformTask 509).rowOf 0 0 after, byte ≠ 0) ∧
      run true (uniformTask 509) (Array.replicate 8192 255) = .ok out ∧
      ∃ byte ∈ (uniformTask 509).rowOf 0 0 out, byte ≠ 0 := by
  obtain ⟨hReturns, hMass⟩ := rowMass_run (uniformTask 509) (Array.replicate 8192 255)
  obtain ⟨out, hRun⟩ := hReturns (by
    rw [Array.size_replicate]
    exact inBounds_uniformTask (by decide)) (fittingSums_uniformTask 509)
  obtain ⟨before, after, -, hWrite⟩ := Checked.exists_step_of_iterate (fun _ => True) trivial
    (fun _ _ _ _ _ _ => trivial) (run_requires hRun).2 (by decide : 0 < 1)
  obtain ⟨hHead, hEnd⟩ := hMass 0 0 (moderate_uniformTask 509) (by decide : 0 < 1)
  refine ⟨before, after, out, hWrite, ?_, hRun, ?_⟩
  · exact (hHead before after (by decide : 1 ≤ 16) (Nat.le_refl _) hWrite).short
      (by decide : 0 < 509) (by decide : 509 ≤ 509)
  · exact (hEnd true out hRun (by decide : 0 < 1) (Nat.le_refl _)).short
      (by decide : 0 < 509) (by decide : 509 ≤ 509)

/-- Nothing is stored of 510 keys with the score three, though their scores are moderate. Each of
them has less than half of a byte. -/
theorem run_uniform_510 :
    (uniformTask 510).Moderate 0 0 ∧
      ∃ out, run true (uniformTask 510) (Array.replicate 8192 255) = .ok out ∧
        ((uniformTask 510).rowOf 0 0 out).size = 510 ∧
        ∀ byte ∈ (uniformTask 510).rowOf 0 0 out, byte = 0 := by
  have hModerate := moderate_uniformTask 510
  obtain ⟨out, hRun⟩ := exists_run_uniformTask (by decide : 510 < 2 ^ 32)
  have hMass := rowMass_of_run hModerate (by decide : 0 < 1) hRun (by decide : 0 < 1)
    (Nat.le_refl _)
  refine ⟨hModerate, out, hRun, hMass.size, hMass.equal (Nat.le_refl 510) fun c hc => ?_⟩
  rw [score_uniformTask 510 (Nat.lt_of_lt_of_le hc (le_pad (by decide))),
    if_pos (show c < 510 from hc)]

end Probabilities

end QuantAttention
