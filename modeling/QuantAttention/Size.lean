import QuantAttention.Checked

/-!
Sizes, offsets and strides are 64-bit words. A size expression is evaluated from left to right, and
every intermediate result must be a word again; so `a * b * c` may fault although `c` is zero.
-/

namespace QuantAttention

/-- A size expression: its value, or the fault of its first step that has none. -/
structure Size where
  eval : Checked Nat

namespace Size

/-- One more than the largest size. -/
def limit : Nat := 18446744073709551616

/-- The expression that is the number `n`. -/
@[coe] def ofNat (n : Nat) : Size := ⟨.ok n⟩

instance : Coe Nat Size := ⟨ofNat⟩

instance (n : Nat) : OfNat Size n := ⟨ofNat n⟩

def combine (op : Nat → Nat → Checked Nat) (x y : Size) : Size :=
  ⟨do let a ← x.eval; let b ← y.eval; op a b⟩

def fit (n : Nat) : Checked Nat :=
  if n < limit then .ok n else .error .sizeOverflow

instance : Add Size := ⟨combine fun a b => fit (a + b)⟩

instance : Mul Size := ⟨combine fun a b => fit (a * b)⟩

instance : Sub Size := ⟨combine fun a b => if b ≤ a then .ok (a - b) else .error .sizeOverflow⟩

instance : Div Size := ⟨combine fun a b => if b = 0 then .error .divideByZero else .ok (a / b)⟩

@[simp] theorem eval_ofNat (n : Nat) : (n : Size).eval = .ok n := rfl

@[simp] theorem eval_literal (n : Nat) : (no_index (OfNat.ofNat n) : Size).eval = .ok n := rfl

@[simp] theorem fit_eq_ok {n m : Nat} : fit n = .ok m ↔ n < limit ∧ m = n := by
  simp only [fit]
  split
  · simp [*, eq_comm]
  · simp [*]

@[simp] theorem eval_add_eq_ok {x y : Size} {n : Nat} :
    (x + y).eval = .ok n ↔ ∃ a b, x.eval = .ok a ∧ y.eval = .ok b ∧ a + b < limit ∧ n = a + b := by
  show (combine (fun a b => fit (a + b)) x y).eval = .ok n ↔ _
  simp [combine]

@[simp] theorem eval_mul_eq_ok {x y : Size} {n : Nat} :
    (x * y).eval = .ok n ↔ ∃ a b, x.eval = .ok a ∧ y.eval = .ok b ∧ a * b < limit ∧ n = a * b := by
  show (combine (fun a b => fit (a * b)) x y).eval = .ok n ↔ _
  simp [combine]

@[simp] theorem eval_sub_eq_ok {x y : Size} {n : Nat} :
    (x - y).eval = .ok n ↔ ∃ a b, x.eval = .ok a ∧ y.eval = .ok b ∧ b ≤ a ∧ n = a - b := by
  show (combine (fun a b => if b ≤ a then .ok (a - b) else .error .sizeOverflow) x y).eval
    = .ok n ↔ _
  simp only [combine, Checked.bind_eq_ok]
  grind

@[simp] theorem eval_div_eq_ok {x y : Size} {n : Nat} :
    (x / y).eval = .ok n ↔ ∃ a b, x.eval = .ok a ∧ y.eval = .ok b ∧ b ≠ 0 ∧ n = a / b := by
  show (combine (fun a b => if b = 0 then .error .divideByZero else .ok (a / b)) x y).eval
    = .ok n ↔ _
  simp only [combine, Checked.bind_eq_ok]
  grind

theorem literal (n : Nat) : (no_index (OfNat.ofNat n) : Size) = ofNat (OfNat.ofNat n) := rfl

theorem ofNat_add {a b : Nat} (h : a + b < limit) : ofNat a + ofNat b = ofNat (a + b) := by
  show (⟨fit (a + b)⟩ : Size) = ⟨.ok (a + b)⟩
  rw [fit, if_pos h]

theorem ofNat_mul {a b : Nat} (h : a * b < limit) : ofNat a * ofNat b = ofNat (a * b) := by
  show (⟨fit (a * b)⟩ : Size) = ⟨.ok (a * b)⟩
  rw [fit, if_pos h]

theorem ofNat_sub {a b : Nat} (h : b ≤ a) : ofNat a - ofNat b = ofNat (a - b) := by
  show (⟨if b ≤ a then .ok (a - b) else .error .sizeOverflow⟩ : Size) = ⟨.ok (a - b)⟩
  rw [if_pos h]

theorem eval_mul_of_lt {a b : Nat} (h : a * b < limit) :
    (ofNat a * ofNat b).eval = .ok (a * b) := by
  rw [ofNat_mul h, eval_ofNat]

theorem eval_add_of_lt {a b : Nat} (h : a + b < limit) :
    (ofNat a + ofNat b).eval = .ok (a + b) := by
  rw [ofNat_add h, eval_ofNat]

theorem eval_add_mul_of_lt {a b c : Nat} (h : a + b * c < limit) :
    (ofNat a + ofNat b * ofNat c).eval = .ok (a + b * c) := by
  rw [ofNat_mul (by omega), eval_add_of_lt h]

end Size

/-- `x` rounded up to a multiple of `k`. -/
def pad (x k : Nat) : Nat := (x + k - 1) / k * k

/-- `pad x k` as a size expression. The sum `x + k` is formed first, so it must be a size even where
the padded value would be one. -/
def padTo (x k : Nat) : Checked Nat := ((x + k - 1) / k * k : Size).eval

theorem padTo_eq_ok {x k n : Nat} (hk : 0 < k) :
    padTo x k = .ok n ↔ x + k < Size.limit ∧ n = pad x k := by
  have hFits : pad x k ≤ x + k - 1 := Nat.div_mul_le_self ..
  simp only [padTo, Size.eval_mul_eq_ok, Size.eval_div_eq_ok, Size.eval_sub_eq_ok,
    Size.eval_add_eq_ok, Size.eval_ofNat, Size.eval_literal, Except.ok.injEq, exists_and_left,
    exists_eq_left', exists_eq_left, and_assoc]
  constructor
  · rintro ⟨hSum, -, -, -, rfl⟩
    exact ⟨hSum, rfl⟩
  · rintro ⟨hSum, rfl⟩
    exact ⟨hSum, by omega, by omega, by rw [← pad]; omega, rfl⟩

theorem padTo_of_lt {x k : Nat} (hk : 0 < k) (h : x + k < Size.limit) : padTo x k = .ok (pad x k) :=
  (padTo_eq_ok hk).2 ⟨h, rfl⟩

theorem eq_pad_of_padTo {x k n : Nat} (hk : 0 < k) (h : padTo x k = .ok n) : n = pad x k :=
  ((padTo_eq_ok hk).1 h).2

theorem dvd_pad (x k : Nat) : k ∣ pad x k := Nat.dvd_mul_left ..

theorem le_pad {x k : Nat} (hk : 0 < k) : x ≤ pad x k := by
  have hSplit := Nat.div_add_mod (x + k - 1) k
  have hRest := Nat.mod_lt (x + k - 1) hk
  rw [pad, Nat.mul_comm]
  omega

end QuantAttention
