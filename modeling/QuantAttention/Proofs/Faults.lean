import QuantAttention.Kernel.Interleave

/-! Which faults a computation may end in. The rules follow how computations are put together; size
expressions that divide by no zero can only leave the range of a size. -/

namespace QuantAttention

variable {α β σ τ : Type} {allowed : Fault → Prop}

/-- Whenever `x` faults, it does so in an allowed way. -/
def FaultsOnly (allowed : Fault → Prop) (x : Checked α) : Prop :=
  ∀ fault, x = .error fault → allowed fault

/-- A sum of terms of which none is greater than `bound` in magnitude. With a bound for each term
this is how short sums are seen to fit. -/
theorem natAbs_sumTo_le_mul {count bound : Nat} {term : Nat → Int}
    (h : ∀ i < count, (term i).natAbs ≤ bound) : (sumTo count term).natAbs ≤ count * bound := by
  induction count with
  | zero => exact Nat.zero_le _
  | succ n ih =>
      have hBefore := ih fun i hi => h i (Nat.lt_succ_of_lt hi)
      have hLast := h n (Nat.lt_succ_self n)
      rw [sumTo, Nat.succ_mul]
      omega

/-- A 32-bit accumulator can hold the number. -/
def FitsAccumulator (n : Int) : Prop := -2147483648 ≤ n ∧ n ≤ 2147483647

theorem FitsAccumulator.of_natAbs_lt {n : Int} (h : n.natAbs < 2147483648) : FitsAccumulator n := by
  simp only [FitsAccumulator]
  omega

theorem Checked.exists_of_isOk {x : Checked α} (h : x.isOk = true) : ∃ a, x = .ok a := by
  cases x with
  | ok a => exact ⟨a, rfl⟩
  | error fault => cases h

/-- An array that was filled has all its entries, so no entry has faulted. -/
theorem Checked.exists_of_tabulate {count : Nat} {entry : Nat → Checked α} {xs : Array α}
    (hRun : tabulate count entry = .ok xs) {i : Nat} (hi : i < count) :
    ∃ x, entry i = .ok x := by
  obtain ⟨hSize, hEntries⟩ := tabulate_eq_ok.1 hRun
  exact ⟨_, hEntries i (hSize ▸ hi)⟩

theorem View.eq_of_map_get {v : View α} {i : Nat} (f : α → β) {x : β}
    (h : (do return f (← v.get i) : Checked β) = .ok x) (fallback : α) :
    x = f (v.getD i fallback) := by
  simp only [Checked.bind_eq_ok, Checked.pure_eq_ok] at h
  obtain ⟨a, ha, rfl⟩ := h
  rw [View.getD_of_get ha]

/-- No partial sum of a sum that was formed has left the range of the accumulator. -/
theorem Checked.fits_of_accumulate {count : Nat} {term : Nat → Checked Int} {value : Nat → Int}
    {total : Int} (hTerm : ∀ i < count, ∀ x, term i = .ok x → x = value i)
    (hRun : accumulate count term = .ok total) {depth : Nat} (hDepth : depth ≤ count) :
    FitsAccumulator (sumTo depth value) := by
  suffices hAll : total = sumTo count value ∧
      ∀ depth ≤ count, FitsAccumulator (sumTo depth value) from hAll.2 depth hDepth
  refine iterate_induction (fun i sum => sum = sumTo i value ∧
    ∀ depth ≤ i, FitsAccumulator (sumTo depth value)) ⟨rfl, ?_⟩ ?_ hRun
  · intro depth hZero
    obtain rfl := Nat.le_zero.1 hZero
    exact .of_natAbs_lt (by rw [sumTo]; decide)
  · rintro i sum next hi ⟨rfl, hBefore⟩ hStep
    simp only [bind_eq_ok, require_eq_ok, pure_eq_ok] at hStep
    obtain ⟨x, hx, -, hFits, rfl⟩ := hStep
    rw [hTerm i hi x hx] at hFits ⊢
    refine ⟨rfl, fun depth hLe => ?_⟩
    rcases Nat.le_succ_iff.1 hLe with hOld | rfl
    · exact hBefore depth hOld
    · exact hFits

/-- A contraction that was formed has kept all its partial sums in range. -/
theorem fits_of_contractLane (value : Nat → Int) {count lane depth : Nat}
    {left : Nat → Checked Int} {block : View Int8} {total : Int}
    (hLeft : ∀ i < count, ∀ x, left i = .ok x → x = value i)
    (hRun : contractLane count left block lane = .ok total) (hDepth : depth ≤ count) :
    FitsAccumulator (sumTo depth fun i => value i * (block.getD (cell lane i) 0).toInt) :=
  Checked.fits_of_accumulate (fun i hi _ hx => eq_mul_of_factors (hLeft i hi) hx) hRun hDepth

namespace FaultsOnly

theorem ok (a : α) : FaultsOnly allowed (.ok a : Checked α) := by
  intro fault h
  cases h

theorem pure (a : α) : FaultsOnly allowed (Pure.pure a : Checked α) := ok a

/-- A fault that is allowed. -/
theorem error {fault : Fault} (h : allowed fault) :
    FaultsOnly allowed (.error fault : Checked α) := by
  intro other hEq
  cases hEq
  exact h

/-- A computation faults only as its two parts do, where the second is asked about only for values
that the first can have. -/
theorem bind {x : Checked α} {f : α → Checked β} (hFirst : FaultsOnly allowed x)
    (hRest : ∀ a, x = .ok a → FaultsOnly allowed (f a)) : FaultsOnly allowed (x >>= f) := by
  cases x with
  | error fault => exact error (hFirst fault rfl)
  | ok a => exact hRest a rfl

/-- A computation none of whose faults can happen has a value. -/
theorem exists_ok {x : Checked α} (h : FaultsOnly allowed x)
    (hNone : ∀ fault, allowed fault → x ≠ .error fault) : ∃ a, x = .ok a := by
  cases x with
  | error fault => exact (hNone fault (h fault rfl) rfl).elim
  | ok a => exact ⟨a, rfl⟩

/-- A computation that never faults has a value. -/
theorem exists_value {x : Checked α} (h : FaultsOnly (fun _ => False) x) : ∃ a, x = .ok a :=
  h.exists_ok fun _ hNever => hNever.elim

/-- A computation with one possible fault has it exactly where there is no result, so a condition
for the one decides the other. -/
theorem eq_error_iff {x : Checked α} {only fault : Fault} {p : Prop}
    (h : FaultsOnly (fun fault => fault = only) x) (hOk : (∃ a, x = .ok a) ↔ p) :
    x = .error fault ↔ fault = only ∧ ¬p := by
  rw [← hOk]
  cases x with
  | error e =>
      obtain rfl := h e rfl
      simp [eq_comm]
  | ok a => simp

theorem fit (n : Nat) (h : allowed .sizeOverflow) : FaultsOnly allowed (Size.fit n) := by
  rw [Size.fit]
  split
  · exact ok n
  · exact error h

theorem combine {op : Nat → Nat → Checked Nat} {x y : Size} (hx : FaultsOnly allowed x.eval)
    (hy : FaultsOnly allowed y.eval) (hOp : ∀ a b, y.eval = .ok b → FaultsOnly allowed (op a b)) :
    FaultsOnly allowed (Size.combine op x y).eval :=
  hx.bind fun a _ => hy.bind fun b hb => hOp a b hb

/-- Sums of sizes can only leave their range. -/
theorem add {x y : Size} (hx : FaultsOnly allowed x.eval) (hy : FaultsOnly allowed y.eval)
    (h : allowed .sizeOverflow) : FaultsOnly allowed (x + y).eval :=
  combine hx hy fun _ _ _ => fit _ h

theorem mul {x y : Size} (hx : FaultsOnly allowed x.eval) (hy : FaultsOnly allowed y.eval)
    (h : allowed .sizeOverflow) : FaultsOnly allowed (x * y).eval :=
  combine hx hy fun _ _ _ => fit _ h

theorem padTo {x k : Nat} (hk : 0 < k) (h : allowed .sizeOverflow) :
    FaultsOnly allowed (QuantAttention.padTo x k) := by
  have hSum : FaultsOnly allowed ((x + k - 1 : Size).eval) := by
    refine combine (add (ok x) (ok k) h) (ok 1) fun a b _ => ?_
    split
    · exact ok _
    · exact error h
  refine mul (combine hSum (ok k) ?_) (ok k) h
  rintro a _ ⟨⟩
  rw [if_neg (by omega)]
  exact ok _

/-- A condition that holds is required without a fault. -/
theorem require {p : Prop} [Decidable p] {fault : Fault} (h : p) :
    FaultsOnly allowed (QuantAttention.require p fault) := by
  rw [QuantAttention.require, if_pos h]
  exact ok ()

theorem bind_ok {x : Checked α} {f : α → Checked β} {a : α} (hFirst : x = .ok a)
    (hRest : FaultsOnly allowed (f a)) : FaultsOnly allowed (x >>= f) := by
  rw [hFirst]
  exact hRest

theorem bind_require {p : Prop} [Decidable p] {fault : Fault} {f : Unit → Checked β} (h : p)
    (hRest : FaultsOnly allowed (f ())) :
    FaultsOnly allowed (QuantAttention.require p fault >>= f) :=
  (require h).bind fun _ _ => hRest

/-- A loop faults only as its steps do, from states with a property that they keep. -/
theorem iterate (motive : Nat → σ → Prop) {count : Nat} {step : Nat → σ → Checked σ} {start : σ}
    (hStart : motive 0 start)
    (hStep : ∀ i s, i < count → motive i s →
      FaultsOnly allowed (step i s) ∧ ∀ t, step i s = .ok t → motive (i + 1) t) :
    FaultsOnly allowed (Checked.iterate count step start) := by
  induction count with
  | zero => exact ok start
  | succ n ih =>
      rw [Checked.iterate_succ]
      refine bind (ih fun i s hi => hStep i s (Nat.lt_succ_of_lt hi)) fun middle hMiddle => ?_
      refine (hStep n middle (Nat.lt_succ_self n) ?_).1
      exact Checked.iterate_induction motive hStart
        (fun i s t hi hs => (hStep i s (Nat.lt_succ_of_lt hi) hs).2 t) hMiddle

/-- Filling an array faults only as its entries do. -/
theorem tabulate {count : Nat} {entry : Nat → Checked α}
    (h : ∀ i < count, FaultsOnly allowed (entry i)) :
    FaultsOnly allowed (Checked.tabulate count entry) :=
  iterate (fun _ _ => True) trivial fun i _ hi _ =>
    ⟨(h i hi).bind fun _ _ => ok _, fun _ _ => trivial⟩

/-- Running the tasks of a list faults only as the tasks do. -/
theorem foldlM (motive : σ → Prop) {tasks : List τ} {step : σ → τ → Checked σ} {start : σ}
    (hStart : motive start)
    (hStep : ∀ task ∈ tasks, ∀ s, motive s →
      FaultsOnly allowed (step s task) ∧ ∀ t, step s task = .ok t → motive t) :
    FaultsOnly allowed (tasks.foldlM step start) := by
  induction tasks generalizing start with
  | nil => exact ok start
  | cons task rest ih =>
      rw [List.foldlM_cons]
      obtain ⟨hSafe, hKept⟩ := hStep task List.mem_cons_self start hStart
      exact bind hSafe fun next hNext =>
        ih (hKept next hNext) fun u hu => hStep u (List.mem_cons_of_mem _ hu)

/-- Reading inside a view does not fault. -/
theorem get {v : View α} {i : Nat} (hi : i < v.size) : FaultsOnly allowed (v.get i) := by
  rw [View.get, dif_pos hi]
  exact ok _

theorem drop {v : View α} {count : Nat} (h : count ≤ v.size) :
    FaultsOnly allowed (v.drop count) := by
  rw [View.drop, dif_pos h]
  exact ok _

theorem slice {v : View α} {first stop : Nat} (hFirst : first ≤ stop) (hStop : stop ≤ v.size) :
    FaultsOnly allowed (v.slice first stop) := by
  rw [View.slice, dif_pos ⟨hFirst, hStop⟩]
  exact ok _

/-- A sum either may overflow, or none of its partial sums leaves the range of the accumulator. -/
theorem accumulate {count : Nat} {term : Nat → Checked Int} (value : Nat → Int)
    (hTerm : ∀ i < count, FaultsOnly allowed (term i))
    (hValue : ∀ i < count, ∀ x, term i = .ok x → x = value i)
    (hSum : allowed .accumulatorOverflow ∨ ∀ depth ≤ count, FitsAccumulator (sumTo depth value)) :
    FaultsOnly allowed (Checked.accumulate count term) := by
  refine iterate (fun i total => total = sumTo i value) rfl fun i total hi hTotal => ?_
  subst hTotal
  constructor
  · refine (hTerm i hi).bind fun x hx => ?_
    rw [hValue i hi x hx]
    rcases hSum with hAllowed | hFits
    · refine bind ?_ fun _ _ => ok _
      rw [QuantAttention.require]
      split
      · exact ok ()
      · exact error hAllowed
    · exact bind_require (hFits (i + 1) hi) (ok _)
  · intro t ht
    simp only [Checked.bind_eq_ok, Checked.pure_eq_ok, require_eq_ok] at ht
    obtain ⟨x, hx, -, -, rfl⟩ := ht
    rw [hValue i hi x hx, sumTo]

/-- A contraction faults only in its sum, as long as the lane reaches over all its depths. -/
theorem contractLane {count lane : Nat} {left : Nat → Checked Int} {block : View Int8}
    (value : Nat → Int) (hLeft : ∀ i < count, FaultsOnly allowed (left i))
    (hValue : ∀ i < count, ∀ x, left i = .ok x → x = value i)
    (hBlock : ∀ i < count, cell lane i < block.size ∧ cell lane i < Size.limit)
    (hSum : allowed .accumulatorOverflow ∨ ∀ depth ≤ count,
      FitsAccumulator (sumTo depth fun i => value i * (block.getD (cell lane i) 0).toInt)) :
    FaultsOnly allowed (QuantAttention.contractLane count left block lane) := by
  refine accumulate _ (fun i hi => ?_) (fun i hi _ hx => eq_mul_of_factors (hValue i hi) hx) hSum
  obtain ⟨hInside, hRange⟩ := hBlock i hi
  refine (hLeft i hi).bind fun a _ => bind_ok (eval_cellSize hRange) ?_
  exact bind (get hInside) fun _ _ => ok _

end FaultsOnly

end QuantAttention
