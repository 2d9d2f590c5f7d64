import QuantAttention.Kernel.Interleave

/-! Computations that take the same course on different operands. Views of one size fault at the same
indices. Loops with equal steps are equal, and so are contractions whose products are equal one by
one, whatever their factors. -/

namespace QuantAttention

variable {α β γ σ : Type}

/-- Both computations have a value, or both end in the same fault. -/
inductive Alike : Checked α → Checked β → Prop where
  | ok (a : α) (b : β) : Alike (.ok a) (.ok b)
  | error (fault : Fault) : Alike (.error fault) (.error fault)

namespace Alike

variable {x : Checked α} {y : Checked β}

/-- Computations that fault alike go on alike if what follows them does, from whatever values they
have come to. -/
theorem bind_eq {f : α → Checked γ} {g : β → Checked γ} (h : Alike x y)
    (hRest : ∀ a b, x = .ok a → y = .ok b → f a = g b) : x >>= f = y >>= g := by
  cases h with
  | ok a b => exact hRest a b rfl rfl
  | error fault => rfl

/-- What is done to the values of such computations afterwards does not tell them apart. -/
theorem map (f : α → γ) (g : β → γ) (h : Alike x y) :
    Alike (do return f (← x)) (do return g (← y)) := by
  cases h with
  | ok a b => exact ok (f a) (g b)
  | error fault => exact error fault

end Alike

namespace View

variable {v w : View α}

theorem alike_get (hSize : v.size = w.size) (i : Nat) : Alike (v.get i) (w.get i) := by
  rw [get, get]
  by_cases hi : i < w.size
  · rw [dif_pos (hSize ▸ hi), dif_pos hi]
    exact .ok _ _
  · rw [dif_neg (hSize ▸ hi), dif_neg hi]
    exact .error _

theorem alike_drop (hSize : v.size = w.size) (count : Nat) :
    Alike (v.drop count) (w.drop count) := by
  rw [drop, drop]
  by_cases hCount : count ≤ w.size
  · rw [dif_pos (hSize ▸ hCount), dif_pos hCount]
    exact .ok _ _
  · rw [dif_neg (hSize ▸ hCount), dif_neg hCount]
    exact .error _

theorem alike_slice (hSize : v.size = w.size) (first stop : Nat) :
    Alike (v.slice first stop) (w.slice first stop) := by
  rw [slice, slice]
  by_cases hBounds : first ≤ stop ∧ stop ≤ w.size
  · rw [dif_pos (hSize ▸ hBounds), dif_pos hBounds]
    exact .ok _ _
  · rw [dif_neg (hSize ▸ hBounds), dif_neg hBounds]
    exact .error _

end View

namespace Checked

/-- What follows a computation matters only for the values that it can have. -/
theorem bind_congr {x : Checked α} {f g : α → Checked β} (h : ∀ a, x = .ok a → f a = g a) :
    x >>= f = x >>= g := by
  cases x with
  | ok a => exact h a rfl
  | error fault => rfl

/-- Loops with the same steps are the same, where only the steps that are taken count. -/
theorem iterate_congr {count : Nat} {step step' : Nat → σ → Checked σ}
    (h : ∀ i < count, step i = step' i) (start : σ) :
    iterate count step start = iterate count step' start := by
  induction count with
  | zero => rfl
  | succ n ih =>
      rw [iterate_succ, iterate_succ, ih fun i hi => h i (Nat.lt_succ_of_lt hi),
        h n (Nat.lt_succ_self n)]

theorem tabulate_congr {count : Nat} {entry entry' : Nat → Checked α}
    (h : ∀ i < count, entry i = entry' i) : tabulate count entry = tabulate count entry' :=
  iterate_congr (fun i hi => funext fun xs => by rw [h i hi]) _

theorem accumulate_congr {count : Nat} {term term' : Nat → Checked Int}
    (h : ∀ i < count, term i = term' i) : accumulate count term = accumulate count term' :=
  iterate_congr (fun i hi => funext fun total => by rw [h i hi]) _

end Checked

/-- A contraction depends on nothing but its products, and not even its faults do. The operands may
differ wherever the other factor is zero. -/
theorem contractLane_congr (value value' : Nat → Int) {count lane : Nat}
    {left left' : Nat → Checked Int} {block block' : View Int8}
    (hLeft : ∀ i < count, Alike (left i) (left' i))
    (hValue : ∀ i < count, ∀ x, left i = .ok x → x = value i)
    (hValue' : ∀ i < count, ∀ x, left' i = .ok x → x = value' i)
    (hSize : block.size = block'.size)
    (hProduct : ∀ i < count, value i * (block.getD (cell lane i) 0).toInt =
      value' i * (block'.getD (cell lane i) 0).toInt) :
    contractLane count left block lane = contractLane count left' block' lane := by
  refine Checked.accumulate_congr fun i hi => ?_
  refine (hLeft i hi).bind_eq fun a a' ha ha' => Checked.bind_congr fun position hPosition => ?_
  refine (View.alike_get hSize position).bind_eq fun b b' hb hb' => ?_
  have hTerm := hProduct i hi
  rw [← hValue i hi a ha, ← hValue' i hi a' ha', ← eq_cell_of_eval_cellSize hPosition,
    View.getD_of_get hb, View.getD_of_get hb'] at hTerm
  rw [hTerm]

end QuantAttention
