/-!
Runs that may have to stop. A fault is not an answer of the operator: it says that the caller broke
a promise on which the index arithmetic rests. Every loop of the library that can fault is built
from `iterate` and `tabulate`, whose results are described here once.
-/

namespace QuantAttention

/-- Why a run has to stop without an answer. -/
inductive Fault where
  /-- A size left the range of a 64-bit word. -/
  | sizeOverflow
  | divideByZero
  /-- An index or a slice reached past the end of its buffer. -/
  | outOfBounds
  /-- A partial sum left the range of a 32-bit accumulator. -/
  | accumulatorOverflow
  /-- A kernel was called against its contract. -/
  | contract
  deriving DecidableEq, Repr

/-- A computation that ends in a value or in a fault. -/
abbrev Checked (α : Type) := Except Fault α

def require (p : Prop) [Decidable p] (fault : Fault) : Checked Unit :=
  if p then .ok () else .error fault

@[simp] theorem require_eq_ok {p : Prop} [Decidable p] {fault : Fault} {u : Unit} :
    require p fault = .ok u ↔ p := by
  simp only [require]
  split <;> simp [*]

/-- The sum of `term 0`, …, `term (count - 1)`. -/
def sumTo : (count : Nat) → (term : Nat → Int) → Int
  | 0, _ => 0
  | count + 1, term => sumTo count term + term count

theorem sumTo_congr {count : Nat} {f g : Nat → Int} (h : ∀ i < count, f i = g i) :
    sumTo count f = sumTo count g := by
  induction count with
  | zero => rfl
  | succ n ih =>
      rw [sumTo, sumTo, ih fun i hi => h i (Nat.lt_succ_of_lt hi), h n (Nat.lt_succ_self n)]

/-- Terms that are zero do not count. -/
theorem sumTo_of_zero {count total : Nat} {f : Nat → Int} (hCount : count ≤ total)
    (hZero : ∀ i, count ≤ i → i < total → f i = 0) : sumTo total f = sumTo count f := by
  induction total with
  | zero =>
      obtain rfl := Nat.le_zero.1 hCount
      rfl
  | succ n ih =>
      rcases Nat.le_succ_iff.1 hCount with hLe | rfl
      · rw [sumTo, ih hLe fun i h₁ h₂ => hZero i h₁ (Nat.lt_succ_of_lt h₂),
          hZero n hLe (Nat.lt_succ_self n), Int.add_zero]
      · rfl

namespace Checked

variable {α σ : Type}

@[simp] theorem bind_eq_ok {β : Type} {x : Checked α} {f : α → Checked β} {b : β} :
    (x >>= f) = .ok b ↔ ∃ a, x = .ok a ∧ f a = .ok b := by
  cases x <;> simp [bind, Except.bind]

@[simp] theorem pure_eq_ok {a b : α} : (pure a : Checked α) = .ok b ↔ a = b := by
  simp [pure, Except.pure]

/-- Run `count` steps, numbered from `first` on, each on the state the one before it left. -/
def iterateFrom (step : Nat → σ → Checked σ) : (count first : Nat) → σ → Checked σ
  | 0, _, state => .ok state
  | count + 1, first, state => do
    let next ← step first state
    iterateFrom step count (first + 1) next

/-- Run the steps `0`, …, `count - 1` in this order, each on the state the one before it left. -/
def iterate (count : Nat) (step : Nat → σ → Checked σ) (state : σ) : Checked σ :=
  iterateFrom step count 0 state

@[simp] theorem iterate_zero (step : Nat → σ → Checked σ) (state : σ) :
    iterate 0 step state = .ok state := rfl

theorem iterateFrom_succ (step : Nat → σ → Checked σ) (count first : Nat) (state : σ) :
    iterateFrom step (count + 1) first state =
      iterateFrom step count first state >>= step (first + count) := by
  induction count generalizing first state with
  | zero => cases h : step first state <;> simp [iterateFrom, bind, Except.bind, h]
  | succ n ih =>
      rw [iterateFrom]
      cases h : step first state with
      | error => simp [iterateFrom, bind, Except.bind, h]
      | ok s =>
          have hNext : first + 1 + n = first + (n + 1) := by omega
          simp only [bind, Except.bind] at ih ⊢
          rw [ih, hNext]
          simp [iterateFrom, bind, Except.bind, h]

theorem iterate_succ (count : Nat) (step : Nat → σ → Checked σ) (state : σ) :
    iterate (count + 1) step state = iterate count step state >>= step count := by
  simp only [iterate, iterateFrom_succ, Nat.zero_add]

/-- What holds of the start and is kept by every step that succeeds holds of the end. -/
theorem iterate_induction {count : Nat} {step : Nat → σ → Checked σ} {start finish : σ}
    (motive : Nat → σ → Prop) (hStart : motive 0 start)
    (hStep : ∀ i s t, i < count → motive i s → step i s = .ok t → motive (i + 1) t)
    (hRun : iterate count step start = .ok finish) : motive count finish := by
  induction count generalizing finish with
  | zero => cases hRun; exact hStart
  | succ n ih =>
      rw [iterate_succ, bind_eq_ok] at hRun
      obtain ⟨middle, hBefore, hLast⟩ := hRun
      exact hStep n middle finish (Nat.lt_succ_self n)
        (ih (fun i s t hi => hStep i s t (Nat.lt_succ_of_lt hi)) hBefore) hLast

/-- Every step of a run that succeeds was taken from a state with the property that all steps keep.
-/
theorem exists_step_of_iterate {count : Nat} {step : Nat → σ → Checked σ} {start finish : σ}
    (motive : σ → Prop) (hStart : motive start)
    (hStep : ∀ i s t, i < count → motive s → step i s = .ok t → motive t)
    (hRun : iterate count step start = .ok finish) {i : Nat} (hi : i < count) :
    ∃ s t, motive s ∧ step i s = .ok t := by
  induction count generalizing finish with
  | zero => omega
  | succ n ih =>
      rw [iterate_succ, bind_eq_ok] at hRun
      obtain ⟨middle, hBefore, hLast⟩ := hRun
      have hSteps : ∀ i s t, i < n → motive s → step i s = .ok t → motive t :=
        fun j s t hj => hStep j s t (Nat.lt_succ_of_lt hj)
      rcases Nat.lt_succ_iff_lt_or_eq.1 hi with hLt | rfl
      · exact ih hSteps hBefore hLt
      · exact ⟨middle, finish,
          iterate_induction (fun _ => motive) hStart hSteps hBefore, hLast⟩

/-- What holds of the start and is kept by every task that succeeds holds after all of them. -/
theorem foldlM_induction {τ : Type} {tasks : List τ} {step : σ → τ → Checked σ} {start finish : σ}
    (motive : σ → Prop) (hStart : motive start)
    (hStep : ∀ task ∈ tasks, ∀ s t, motive s → step s task = .ok t → motive t)
    (hRun : tasks.foldlM step start = .ok finish) : motive finish := by
  induction tasks generalizing start with
  | nil => cases hRun; exact hStart
  | cons task rest ih =>
      rw [List.foldlM_cons, bind_eq_ok] at hRun
      obtain ⟨middle, hFirst, hRest⟩ := hRun
      exact ih (hStep task List.mem_cons_self start middle hStart hFirst)
        (fun u hu => hStep u (List.mem_cons_of_mem _ hu)) hRest

/-- The array of `entry 0`, …, `entry (count - 1)`, if none of them faults. -/
def tabulate (count : Nat) (entry : Nat → Checked α) : Checked (Array α) :=
  iterate count (fun i xs => do return xs.push (← entry i)) #[]

theorem tabulate_eq_ok {count : Nat} {entry : Nat → Checked α} {xs : Array α} :
    tabulate count entry = .ok xs ↔
      xs.size = count ∧ ∀ i (h : i < xs.size), entry i = .ok xs[i] := by
  induction count generalizing xs with
  | zero =>
      constructor
      · intro h
        cases h
        simp
      · rintro ⟨hSize, -⟩
        rw [Array.eq_empty_of_size_eq_zero hSize]
        rfl
  | succ n ih =>
      have hStep : tabulate (n + 1) entry =
          tabulate n entry >>= fun ys => do return ys.push (← entry n) := iterate_succ ..
      rw [hStep, bind_eq_ok]
      constructor
      · rintro ⟨ys, hys, h⟩
        obtain ⟨hSize, hEntries⟩ := ih.1 hys
        obtain ⟨a, ha, h⟩ := bind_eq_ok.1 h
        cases h
        refine ⟨by simp [hSize], fun i hi => ?_⟩
        rw [Array.size_push] at hi
        by_cases hLast : i < ys.size
        · rw [Array.getElem_push_lt hLast]
          exact hEntries i hLast
        · obtain rfl : i = ys.size := by omega
          rw [Array.getElem_push_eq, hSize, ha]
      · rintro ⟨hSize, hEntries⟩
        have hLast := hEntries n (by omega)
        refine ⟨xs.pop, ih.2 ⟨by simp [hSize], fun i hi => ?_⟩, ?_⟩
        · rw [Array.getElem_pop]
          exact hEntries i (by rw [Array.size_pop] at hi; omega)
        · rw [hLast]
          show Except.ok (xs.pop.push xs[n]) = Except.ok xs
          congr 1
          apply Array.ext
          · simp [hSize]
          · intro i h₁ h₂
            by_cases hi : i < xs.pop.size
            · rw [Array.getElem_push_lt hi, Array.getElem_pop]
            · have hn : i = n := by rw [Array.size_pop] at hi; omega
              subst hn
              rw [Array.getElem_push]
              split
              · rw [Array.getElem_pop]
              · rfl

theorem tabulate_eq_ofFn {count : Nat} {entry : Nat → Checked α} {value : Nat → α} {xs : Array α}
    (hEntry : ∀ i < count, ∀ x, entry i = .ok x → x = value i)
    (hRun : tabulate count entry = .ok xs) : xs = Array.ofFn fun i : Fin count => value i := by
  obtain ⟨hSize, hEntries⟩ := tabulate_eq_ok.1 hRun
  apply Array.ext
  · simp [hSize]
  · intro i h₁ h₂
    rw [Array.getElem_ofFn]
    exact hEntry i (hSize ▸ h₁) _ (hEntries i h₁)

/-- Add `term 0`, …, `term (count - 1)` in a 32-bit accumulator, which every partial sum must fit.
-/
def accumulate (count : Nat) (term : Nat → Checked Int) : Checked Int :=
  iterate count (fun i total => do
    let next := total + (← term i)
    require (-2147483648 ≤ next ∧ next ≤ 2147483647) .accumulatorOverflow
    return next) 0

theorem eq_sumTo_of_accumulate {count : Nat} {term : Nat → Checked Int} {value : Nat → Int}
    {total : Int} (hTerm : ∀ i < count, ∀ x, term i = .ok x → x = value i)
    (hRun : accumulate count term = .ok total) : total = sumTo count value := by
  refine iterate_induction (fun i sum => sum = sumTo i value) rfl ?_ hRun
  intro i sum next hi hSum hStep
  simp only [bind_eq_ok, require_eq_ok, pure_eq_ok] at hStep
  obtain ⟨x, hx, -, -, rfl⟩ := hStep
  rw [hSum, hTerm i hi x hx, sumTo]

end Checked

end QuantAttention
