import QuantAttention.Proofs.Binary32.Sign

/-! Symmetric quantization. No entry is quantized to the least int8, opposite entries are quantized
to opposite ones, and the scale depends on which entries there are but not on their order. -/

namespace QuantAttention

open Binary32

theorem positive_activationMax : activationMax.Positive := by decide

/-- What is stored of a number between the bounds is its integer part, which the clamp leaves as it
is. -/
theorem toInt8_clamp {x : Binary32} (hx : x.isNaN = false) :
    (x.clamp (-activationMax) activationMax).toInt8 =
        .ofInt ((x.clamp (-activationMax) activationMax).units.tdiv one) ∧
      ((x.clamp (-activationMax) activationMax).units.tdiv one).natAbs ≤ 127 := by
  have hCode := code_clamp_neg_le positive_activationMax hx
  generalize x.clamp (-activationMax) activationMax = z at *
  have hFinite : z.isFinite = true :=
    decide_eq_true (Nat.lt_of_le_of_lt hCode positive_activationMax.finite)
  have hMagnitude : z.magnitude ≤ 127 * one := by
    have hLe := magnitudeOfCode_mono hCode
    rwa [show magnitudeOfCode activationMax.code = 127 * one by decide] at hLe
  have hQuotient : (z.units.tdiv one).natAbs ≤ 127 := by
    have hUnits : z.units.natAbs = z.magnitude := by
      rw [units]
      split
      · rw [Int.natAbs_neg, Int.natAbs_natCast]
      · exact Int.natAbs_natCast _
    rw [Int.natAbs_tdiv, Int.natAbs_natCast, hUnits]
    exact Nat.div_le_of_le_mul (by rwa [Nat.mul_comm])
  obtain ⟨hNaN, hInfinite⟩ := isFinite_eq.1 hFinite
  refine ⟨?_, hQuotient⟩
  rw [toInt8, toIntWithin, hNaN, hInfinite, if_neg Bool.false_ne_true, if_neg Bool.false_ne_true]
  congr 1
  omega

/-- Nothing is stored of what is not a number. It passes the clamp, and its integer part is zero. -/
theorem toInt8_clamp_of_isNaN {x low high : Binary32} (hx : x.isNaN = true) :
    (x.clamp low high).toInt8 = 0 := by
  rw [clamp_of_isNaN hx, toInt8, toIntWithin, hx, if_pos rfl]
  rfl

/-- Quantized activations are symmetric: the least int8 is not among them, not even for infinities
or with an infinite inverse. -/
theorem natAbs_quantizeActivation_le (x inverse : Binary32) :
    (quantizeActivation x inverse).toInt.natAbs ≤ 127 := by
  rw [quantizeActivation]
  cases hNaN : ((x * inverse).roundHalfAway).isNaN with
  | true =>
      rw [toInt8_clamp_of_isNaN hNaN]
      decide
  | false =>
      obtain ⟨hStored, hSmall⟩ := toInt8_clamp hNaN
      rw [hStored, Int8.toInt_ofInt_of_le (by omega) (by omega)]
      exact hSmall

/-- No entry of a quantized array exceeds 127 in magnitude, whatever numbers it was made from and if
these are no numbers at all. Behind its end there are zeros. -/
theorem natAbs_quantizeDynamic_le (entries : Array Binary32) (i : Nat) :
    ((quantizeDynamic entries).2.getD i 0).toInt.natAbs ≤ 127 := by
  rw [quantizeDynamic, Array.getD_eq_getD_getElem?, Array.getElem?_map]
  cases entries[i]? with
  | none => exact Nat.zero_le _
  | some x => exact natAbs_quantizeActivation_le x _

/-- Opposite numbers are stored as opposite entries. -/
theorem Binary32.Mirrored.quantizeActivation {x y : Binary32} (h : Mirrored x y)
    (inverse : Binary32) : quantizeActivation y inverse = -quantizeActivation x inverse := by
  have hRounded := (h.mul inverse).roundHalfAway
  rw [QuantAttention.quantizeActivation, QuantAttention.quantizeActivation]
  cases hNaN : ((x * inverse).roundHalfAway).isNaN with
  | true =>
      rw [toInt8_clamp_of_isNaN hNaN, toInt8_clamp_of_isNaN (hRounded.isNaN_eq.trans hNaN)]
      rfl
  | false =>
      have hClamped := hRounded.clamp positive_activationMax
      have hFinite := code_clamp_neg_le positive_activationMax hNaN
      have hNumber : (((x * inverse).roundHalfAway).clamp (-activationMax) activationMax).isNaN =
          false := by
        refine decide_eq_false (Nat.not_lt.2 (Nat.le_trans hFinite ?_))
        exact Nat.le_of_lt positive_activationMax.finite
      rw [(toInt8_clamp hNaN).1, (toInt8_clamp (hRounded.isNaN_eq.trans hNaN)).1,
        hClamped.units_eq hNumber, Int.neg_tdiv, Int8.ofInt_neg]

/-- The greatest magnitude is that of an entry, and no entry that is a number exceeds it. -/
structure Greatest (entries : List Binary32) (c : Nat) : Prop where
  number : c ≤ infinityCode
  bound : ∀ x ∈ entries, x.isNaN = false → x.code ≤ c
  attained : c = 0 ∨ ∃ x ∈ entries, x.isNaN = false ∧ x.code = c

/-- The greater of two magnitudes, where what is not a number does not count. -/
theorem maxNumber_abs {c : Nat} (hc : c ≤ infinityCode) (x : Binary32) :
    (ofCode false c).maxNumber x.abs = ofCode false (if x.isNaN then c else max c x.code) := by
  have hSign := @negative_ofCode c false hc
  have hCode := @code_ofCode c false hc
  have hNumber : (ofCode false c).isNaN = false := by
    rw [isNaN, hCode]
    exact decide_eq_false (Nat.not_lt.2 hc)
  have hAbsNaN : x.abs.isNaN = x.isNaN := by rw [isNaN, isNaN, code_abs]
  rw [maxNumber, hNumber, hAbsNaN, if_neg Bool.false_ne_true]
  cases hx : x.isNaN with
  | true => rfl
  | false =>
      have hAbsSign : x.abs.negative = false :=
        negative_ofCode (Nat.not_lt.1 (of_decide_eq_false hx))
      have hLess : (ofCode false c).lt x.abs = decide (c < x.code) := by
        simp [lt, hNumber, hAbsNaN, hx, rank_eq hSign, rank_eq hAbsSign, hCode, code_abs]
      simp only [hLess, decide_eq_true_eq, Bool.false_eq_true, if_false]
      split
      · rw [Nat.max_eq_right (by omega)]
        rfl
      · rw [Nat.max_eq_left (by omega)]

/-- One more entry. -/
theorem Greatest.snoc {seen : List Binary32} {c : Nat} (h : Greatest seen c) (x : Binary32) :
    Greatest (seen ++ [x]) (if x.isNaN then c else max c x.code) := by
  obtain ⟨hNumber, hBound, hAttained⟩ := h
  have hEarlier : (∃ y ∈ seen, y.isNaN = false ∧ y.code = c) →
      ∃ y ∈ seen ++ [x], y.isNaN = false ∧ y.code = c :=
    fun ⟨y, hy, hCode⟩ => ⟨y, List.mem_append_left _ hy, hCode⟩
  cases hx : x.isNaN with
  | true =>
      refine ⟨hNumber, fun y hy hNaN => ?_, hAttained.imp_right hEarlier⟩
      rcases List.mem_append.1 hy with hSeen | hLast
      · exact hBound y hSeen hNaN
      · rw [List.mem_singleton.1 hLast, hx] at hNaN
        cases hNaN
  | false =>
      have hCode : x.code ≤ infinityCode := Nat.not_lt.1 (of_decide_eq_false hx)
      rw [if_neg Bool.false_ne_true]
      refine ⟨Nat.max_le.2 ⟨hNumber, hCode⟩, fun y hy hNaN => ?_, ?_⟩
      · rcases List.mem_append.1 hy with hSeen | hLast
        · exact Nat.le_trans (hBound y hSeen hNaN) (Nat.le_max_left ..)
        · rw [List.mem_singleton.1 hLast]
          exact Nat.le_max_right ..
      · rcases Nat.le_total c x.code with hLe | hLe
        · rw [Nat.max_eq_right hLe]
          exact .inr ⟨x, by simp, hx, rfl⟩
        · rw [Nat.max_eq_left hLe]
          exact hAttained.imp_right hEarlier

/-- The loop over the entries keeps the greatest magnitude that it has met, whatever the order in
which it meets them. -/
theorem greatest_foldl (entries : List Binary32) {seen : List Binary32} {c : Nat}
    (h : Greatest seen c) :
    ∃ g, Greatest (seen ++ entries) g ∧
      entries.foldl (fun greatest x => greatest.maxNumber x.abs) (ofCode false c) =
        ofCode false g := by
  induction entries generalizing seen c with
  | nil => exact ⟨c, by rwa [List.append_nil], rfl⟩
  | cons x rest ih =>
      obtain ⟨g, hGreatest, hFold⟩ := ih (h.snoc x)
      refine ⟨g, by rwa [List.append_assoc] at hGreatest, ?_⟩
      rw [List.foldl_cons, maxNumber_abs h.number, hFold]

/-- The loop finds the greatest magnitude of an array, zero for one without any number. -/
theorem exists_greatest (entries : Array Binary32) :
    ∃ g, Greatest entries.toList g ∧ absMax entries = ofCode false g := by
  have hNone : Greatest [] 0 := ⟨Nat.zero_le _, by simp, .inl rfl⟩
  obtain ⟨g, hGreatest, hFold⟩ := greatest_foldl entries.toList hNone
  exact ⟨g, hGreatest, by rw [absMax, ← Array.foldl_toList]; exact hFold⟩

/-- The greatest magnitude among the entries that are numbers; zero if there are none. -/
structure GreatestMagnitude (entry : Binary32 → Prop) (greatest : Binary32) : Prop where
  sign : greatest.negative = false
  number : greatest.isNaN = false
  bound : ∀ x, entry x → x.isNaN = false → x.abs.le greatest = true
  attained : greatest = 0 ∨ ∃ x, entry x ∧ x.isNaN = false ∧ x.abs = greatest

namespace GreatestMagnitude

variable {entry entry' : Binary32 → Prop} {x y : Binary32}

theorem code_le (hx : GreatestMagnitude entry x) (hy : GreatestMagnitude entry y) :
    x.code ≤ y.code := by
  rcases hx.attained with rfl | ⟨z, hz, hNumber, rfl⟩
  · exact Nat.zero_le _
  · have hLe := hy.bound z hz hNumber
    rw [le, hx.number, hy.number, rank_eq hx.sign, rank_eq hy.sign] at hLe
    simpa using hLe

/-- There is no other greatest magnitude, so two ways to find one find the same. -/
theorem eq (hx : GreatestMagnitude entry x) (hy : GreatestMagnitude entry y) : x = y := by
  rw [← ofCode_code hx.sign, ← ofCode_code hy.sign,
    Nat.le_antisymm (hx.code_le hy) (hy.code_le hx)]

theorem congr (h : GreatestMagnitude entry x) (hSame : ∀ z, entry z ↔ entry' z) :
    GreatestMagnitude entry' x := by
  obtain rfl : entry = entry' := funext fun z => propext (hSame z)
  exact h

end GreatestMagnitude

/-- What the loop finds is described without it: the greatest magnitude of all entries that are
numbers. -/
theorem greatestMagnitude_absMax (entries : Array Binary32) :
    GreatestMagnitude (· ∈ entries) (absMax entries) := by
  obtain ⟨g, hGreatest, hMax⟩ := exists_greatest entries
  have hSign := @negative_ofCode g false hGreatest.number
  have hCode := @code_ofCode g false hGreatest.number
  have hNumber : (ofCode false g).isNaN = false := by
    rw [isNaN, hCode]
    exact decide_eq_false (Nat.not_lt.2 hGreatest.number)
  rw [hMax]
  refine ⟨hSign, hNumber, fun x hx hxNumber => ?_, ?_⟩
  · have hAbs : x.abs.negative = false :=
      negative_ofCode (Nat.not_lt.1 (of_decide_eq_false hxNumber))
    have hAbsNumber : x.abs.isNaN = false := by rwa [isNaN, code_abs]
    have hLe := hGreatest.bound x (Array.mem_toList_iff.2 hx) hxNumber
    rw [le, hAbsNumber, hNumber, rank_eq hAbs, rank_eq hSign, code_abs, hCode]
    simpa using hLe
  · refine hGreatest.attained.imp (fun hZero => by rw [hZero]; rfl) ?_
    rintro ⟨x, hx, hxNumber, hxCode⟩
    exact ⟨x, Array.mem_toList_iff.1 hx, hxNumber, by rw [Binary32.abs, hxCode]⟩

/-- The greatest magnitude depends on which entries there are, but not on their order nor on how
often each of them occurs. -/
theorem absMax_congr {xs ys : Array Binary32} (hSame : ∀ x, x ∈ xs ↔ x ∈ ys) :
    absMax xs = absMax ys :=
  ((greatestMagnitude_absMax xs).congr hSame).eq (greatestMagnitude_absMax ys)

/-- Entries that two arrays have in common are stored alike if neither has others, since they are
stored under the same scale. -/
theorem quantizeDynamic_congr {xs ys : Array Binary32} (hSame : ∀ x, x ∈ xs ↔ x ∈ ys) :
    (quantizeDynamic xs).1 = (quantizeDynamic ys).1 ∧ ∀ i k, xs[i]? = ys[k]? →
      (quantizeDynamic xs).2.getD i 0 = (quantizeDynamic ys).2.getD k 0 := by
  rw [quantizeDynamic, quantizeDynamic, absMax_congr hSame]
  refine ⟨rfl, fun i k hEntry => ?_⟩
  simp only [Array.getD_eq_getD_getElem?, Array.getElem?_map, hEntry]

/-- Opposite entries have one scale and are stored as opposite entries, infinite ones and those that
are no numbers included. -/
theorem quantizeDynamic_mirrored {n : Nat} {f g : Fin n → Binary32}
    (h : ∀ i, Mirrored (f i) (g i)) :
    quantizeDynamic (Array.ofFn g) = ((quantizeDynamic (Array.ofFn f)).1,
      (quantizeDynamic (Array.ofFn f)).2.map fun q => -q) := by
  have hAbs : (Array.ofFn g).map Binary32.abs = (Array.ofFn f).map Binary32.abs := by
    rw [Array.map_ofFn, Array.map_ofFn]
    exact congrArg Array.ofFn (funext fun i => (h i).abs_eq)
  have hFold (entries : Array Binary32) :
      absMax entries = (entries.map Binary32.abs).foldl maxNumber 0 := Array.foldl_map.symm
  have hMax : absMax (Array.ofFn g) = absMax (Array.ofFn f) := by rw [hFold, hFold, hAbs]
  simp only [quantizeDynamic, hMax, Array.map_ofFn, Prod.mk.injEq, true_and]
  exact congrArg Array.ofFn (funext fun i => (h i).quantizeActivation _)

end QuantAttention
