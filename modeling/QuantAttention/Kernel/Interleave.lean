import QuantAttention.Size
import QuantAttention.View

/-!
The interleaved layout of packed operands. A block has sixteen lanes. Four consecutive entries of a
lane are neighbours, then come the four of the next lane; so the entries of equal depth lie 64
bytes before those four steps deeper. Keys are packed with one key per lane, values with one column
per lane. `getElem_interleave_cell` says that what was packed is found at its cell.
-/

namespace QuantAttention

def laneCount : Nat := 16

/-- Where the entry at `depth` of `lane` stands in its block. -/
def cell (lane depth : Nat) : Nat := depth / 4 * 64 + lane * 4 + depth % 4

def cellSize (lane depth : Nat) : Size :=
  (depth / 4 : Nat) * 64 + (lane * 4 : Nat) + (depth % 4 : Nat)

/-- The lane whose entry stands at a position of a block. -/
def laneAt (position : Nat) : Nat := position % 64 / 4

def depthAt (position : Nat) : Nat := position / 64 * 4 + position % 4

theorem laneAt_cell {lane : Nat} (depth : Nat) (hLane : lane < laneCount) :
    laneAt (cell lane depth) = lane := by
  simp only [laneCount] at hLane
  simp only [laneAt, cell]
  omega

theorem depthAt_cell {lane : Nat} (depth : Nat) (hLane : lane < laneCount) :
    depthAt (cell lane depth) = depth := by
  simp only [laneCount] at hLane
  simp only [depthAt, cell]
  omega

theorem cell_laneAt_depthAt (position : Nat) :
    cell (laneAt position) (depthAt position) = position := by
  simp only [cell, laneAt, depthAt]
  omega

theorem laneAt_lt (position : Nat) : laneAt position < laneCount := by
  simp only [laneAt, laneCount]
  omega

/-- A block of depth `n` holds its cells, where `n` is a multiple of four. -/
theorem cell_lt {lane depth n : Nat} (hLane : lane < laneCount) (hDepth : depth < n)
    (hFour : 4 ∣ n) : cell lane depth < 16 * n := by
  simp only [laneCount] at hLane
  simp only [cell]
  omega

/-- A block of `size` bytes with the given lanes. Where a lane has no entry the byte is zero. -/
def interleave (size : Nat) (lanes : Array (Array Int8)) : Array Int8 :=
  Array.ofFn fun position : Fin size =>
    ((lanes[laneAt position]?).bind (·[depthAt position]?)).getD 0

@[simp] theorem size_interleave (size : Nat) (lanes : Array (Array Int8)) :
    (interleave size lanes).size = size := by
  simp [interleave]

theorem getElem_interleave {size : Nat} {lanes : Array (Array Int8)} {position : Nat}
    (h : position < (interleave size lanes).size) :
    (interleave size lanes)[position] =
      ((lanes[laneAt position]?).bind (·[depthAt position]?)).getD 0 := by
  simp [interleave]

theorem eq_of_getElem?_interleave {size i : Nat} {lanes : Array (Array Int8)} {x : Int8}
    (h : (interleave size lanes)[i]? = some x) :
    x = (lanes.getD (laneAt i) #[]).getD (depthAt i) 0 := by
  obtain ⟨hi, rfl⟩ := Array.getElem?_eq_some_iff.1 h
  rw [getElem_interleave, Array.getD_eq_getD_getElem?, Array.getD_eq_getD_getElem?]
  cases lanes[laneAt i]? with
  | none => simp
  | some lane => rfl

theorem getElem_interleave_cell {size lane depth : Nat} {lanes : Array (Array Int8)}
    (hLane : lane < laneCount) (h : cell lane depth < (interleave size lanes).size) :
    (interleave size lanes)[cell lane depth] = ((lanes[lane]?).bind (·[depth]?)).getD 0 := by
  rw [getElem_interleave, laneAt_cell depth hLane, depthAt_cell depth hLane]

/-- The sum of `left 0 * right 0 + …` over `count` depths, where the right factors are the entries
of one lane of a packed block. -/
def contractLane (count : Nat) (left : Nat → Checked Int) (block : View Int8) (lane : Nat) :
    Checked Int :=
  Checked.accumulate count fun depth => do
    let a ← left depth
    let b ← block.get (← (cellSize lane depth).eval)
    return a * b.toInt

theorem eq_cell_of_eval_cellSize {lane depth n : Nat} (h : (cellSize lane depth).eval = .ok n) :
    n = cell lane depth := by
  simp only [cellSize, Size.eval_add_eq_ok, Size.eval_mul_eq_ok, Size.eval_ofNat, Size.eval_literal,
    Except.ok.injEq, exists_and_left, exists_eq_left', exists_eq_left, and_assoc] at h
  obtain ⟨-, -, -, rfl⟩ := h
  rfl

theorem eval_cellSize {lane depth : Nat} (h : cell lane depth < Size.limit) :
    (cellSize lane depth).eval = .ok (cell lane depth) := by
  simp only [cell] at h
  rw [cellSize, Size.literal, Size.ofNat_mul (by omega), Size.ofNat_add (by omega),
    Size.ofNat_add h, Size.eval_ofNat, cell]

/-- What one depth adds to a contraction. -/
theorem eq_mul_of_factors {lane depth : Nat} {left : Checked Int} {block : View Int8}
    {value x : Int} (hLeft : ∀ a, left = .ok a → a = value)
    (h : (do
      let a ← left
      let b ← block.get (← (cellSize lane depth).eval)
      return a * b.toInt : Checked Int) = .ok x) :
    x = value * (block.getD (cell lane depth) 0).toInt := by
  simp only [Checked.bind_eq_ok, Checked.pure_eq_ok] at h
  obtain ⟨a, ha, position, hPosition, b, hb, rfl⟩ := h
  rw [hLeft a ha, ← eq_cell_of_eval_cellSize hPosition, View.getD_of_get hb]

theorem eq_sumTo_of_contractLane (value : Nat → Int) {count lane : Nat}
    {left : Nat → Checked Int} {block : View Int8} {total : Int}
    (hLeft : ∀ i < count, ∀ x, left i = .ok x → x = value i)
    (h : contractLane count left block lane = .ok total) :
    total = sumTo count fun i => value i * (block.getD (cell lane i) 0).toInt :=
  Checked.eq_sumTo_of_accumulate (fun i hi _ hx => eq_mul_of_factors (hLeft i hi) hx) h

end QuantAttention
