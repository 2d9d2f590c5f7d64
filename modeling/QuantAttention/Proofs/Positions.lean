import QuantAttention.Size
import QuantAttention.View

/-! Positions in buffers that hold equally long rows one after the other. -/

namespace QuantAttention

theorem mul_add_div_self {n x : Nat} (q : Nat) (hx : x < n) : (q * n + x) / n = q := by
  rw [Nat.mul_comm, Nat.mul_add_div (by omega), Nat.div_eq_of_lt hx, Nat.add_zero]

theorem mul_add_mod_self {n x : Nat} (q : Nat) (hx : x < n) : (q * n + x) % n = x := by
  rw [Nat.mul_comm, Nat.mul_add_mod, Nat.mod_eq_of_lt hx]

/-- The last entry of a row lies before the end of all rows. -/
theorem mul_add_lt_mul {q rows n x : Nat} (hq : q < rows) (hx : x < n) :
    q * n + x < rows * n := by
  have hRow : (q + 1) * n ≤ rows * n := Nat.mul_le_mul_right n hq
  rw [Nat.succ_mul] at hRow
  omega

/-- A part of a row ends before the end of all rows. -/
theorem mul_add_le_mul {q rows n x : Nat} (hq : q < rows) (hx : x ≤ n) :
    q * n + x ≤ rows * n := by
  have hRow : (q + 1) * n ≤ rows * n := Nat.mul_le_mul_right n hq
  rw [Nat.succ_mul] at hRow
  omega

/-- The first `n` entries of a buffer exist, and `n` is a size. -/
def Within (size n : Nat) : Prop := n ≤ size ∧ n < Size.limit

instance (size n : Nat) : Decidable (Within size n) := inferInstanceAs (Decidable (_ ∧ _))

namespace Within

variable {size n m : Nat}

theorem mono (h : Within size n) (hm : m ≤ n) : Within size m :=
  ⟨Nat.le_trans hm h.1, Nat.lt_of_le_of_lt hm h.2⟩

theorem drop {start : Nat} (h : Within size (start + n)) : Within (size - start) n :=
  ⟨by have := h.1; omega, by have := h.2; omega⟩

end Within

/-- A position tells its row, as all rows are equally long. -/
theorem div_lt_of_lt_mul {p rows n : Nat} (hp : p < rows * n) : p / n < rows :=
  Nat.div_lt_of_lt_mul (Nat.mul_comm rows n ▸ hp)

variable {α : Type}

/-- A part of a buffer whose entries are known. -/
theorem extract_eq_ofFn {xs : Array α} {start count : Nat} (f : Nat → α)
    (h : ∀ c < count, xs[start + c]? = some (f c)) :
    xs.extract start (start + count) = Array.ofFn fun c : Fin count => f c := by
  apply Array.ext_getElem?
  intro c
  rw [Array.getElem?_extract, Array.getElem?_ofFn]
  by_cases hc : c < count
  · obtain ⟨hInside, -⟩ := Array.getElem?_eq_some_iff.1 (h c hc)
    rw [if_pos (by omega), dif_pos hc, h c hc]
  · rw [if_neg (by omega), dif_neg hc]

theorem toList_ofFn {count : Nat} (f : Nat → α) :
    (Array.ofFn fun i : Fin count => f i).toList = (List.range count).map f :=
  List.ext_getElem (by simp) (by simp)

/-- Rows that are put one behind the other, position by position. -/
theorem flatten_ofFn (rows n : Nat) (f : Nat → Nat → α) :
    (Array.ofFn fun r : Fin rows => Array.ofFn fun c : Fin n => f r c).flatten =
      Array.ofFn fun p : Fin (rows * n) => f (p / n) (p % n) := by
  induction rows with
  | zero => simp
  | succ rows ih =>
      rw [Array.ofFn_succ, Array.flatten_push]
      simp only [Fin.val_castSucc]
      rw [ih]
      apply Array.ext
      · simp [Nat.succ_mul]
      · intro p h₁ h₂
        rw [Array.getElem_append, Array.getElem_ofFn]
        split
        · rw [Array.getElem_ofFn]
        · next hLast =>
          simp only [Array.size_append, Array.size_ofFn] at h₁ hLast
          obtain ⟨x, rfl⟩ : ∃ x, p = rows * n + x := ⟨p - rows * n, by omega⟩
          have hx : x < n := by omega
          rw [Array.getElem_ofFn]
          simp only [Array.size_ofFn]
          rw [Nat.add_sub_cancel_left, mul_add_div_self rows hx, mul_add_mod_self rows hx]

end QuantAttention
