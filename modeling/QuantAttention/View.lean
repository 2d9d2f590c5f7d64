import QuantAttention.Checked

/-!
Parts of buffers. A kernel reads its operands through views, which start anywhere in a buffer and
are bounded by it, and returns the new contents of what it writes; `splice` puts these back in their
place. `View.toArray` and the lemmas on `splice` say which entry comes from where.
-/

namespace QuantAttention

/-- `size` consecutive entries of a buffer, from entry `start` on. -/
structure View (α : Type) where
  buffer : Array α
  start : Nat
  size : Nat
  fits : start + size ≤ buffer.size

namespace View

variable {α : Type}

/-- The whole of an array. -/
def ofArray (xs : Array α) : View α := ⟨xs, 0, xs.size, by simp⟩

def toArray (v : View α) : Array α := v.buffer.extract v.start (v.start + v.size)

def get (v : View α) (i : Nat) : Checked α :=
  if h : i < v.size then
    have hFits := v.fits
    .ok v.buffer[v.start + i]
  else .error .outOfBounds

/-- Entry `i` of the view, or `fallback` where there is none. -/
def getD (v : View α) (i : Nat) (fallback : α) : α :=
  if h : i < v.size then
    have hFits := v.fits
    v.buffer[v.start + i]
  else fallback

/-- The view without its first `count` entries. -/
def drop (v : View α) (count : Nat) : Checked (View α) :=
  if h : count ≤ v.size then
    .ok ⟨v.buffer, v.start + count, v.size - count, by have := v.fits; omega⟩
  else .error .outOfBounds

/-- The entries from `first` up to but not including `stop`. -/
def slice (v : View α) (first stop : Nat) : Checked (View α) :=
  if h : first ≤ stop ∧ stop ≤ v.size then
    .ok ⟨v.buffer, v.start + first, stop - first, by have := v.fits; omega⟩
  else .error .outOfBounds

def take (v : View α) (count : Nat) : Checked (View α) := v.slice 0 count

@[simp] theorem size_toArray (v : View α) : v.toArray.size = v.size := by
  have := v.fits
  simp [toArray]
  omega

@[simp] theorem toArray_ofArray (xs : Array α) : (ofArray xs).toArray = xs := by
  simp [toArray, ofArray]

theorem get_eq (v : View α) (i : Nat) :
    v.get i = if h : i < v.toArray.size then .ok v.toArray[i] else .error .outOfBounds := by
  simp [get, toArray, Nat.min_eq_left v.fits]

theorem toArray_slice {v w : View α} {first stop : Nat} (h : v.slice first stop = .ok w) :
    w.toArray = v.toArray.extract first stop := by
  simp only [slice] at h
  split at h
  · cases h
    have := v.fits
    simp only [toArray, Array.extract_extract]
    congr 1
    omega
  · cases h

theorem toArray_drop {v w : View α} {count : Nat} (h : v.drop count = .ok w) :
    w.toArray = v.toArray.extract count v.size := by
  simp only [drop] at h
  split at h
  · cases h
    have := v.fits
    simp only [toArray, Array.extract_extract]
    congr 1
    omega
  · cases h

theorem getD_of_get {v : View α} {i : Nat} {x : α} (h : v.get i = .ok x) (fallback : α) :
    v.getD i fallback = x := by
  simp only [get] at h
  split at h
  · next hi =>
    cases h
    simp [getD, hi]
  · cases h

theorem getD_ofArray (xs : Array α) (i : Nat) (fallback : α) :
    (ofArray xs).getD i fallback = xs.getD i fallback := by
  simp [getD, ofArray, Array.getD]

theorem getD_drop {v w : View α} {count : Nat} (h : v.drop count = .ok w) (i : Nat)
    (fallback : α) : w.getD i fallback = v.getD (count + i) fallback := by
  simp only [drop] at h
  split at h
  · cases h
    by_cases hi : count + i < v.size
    · simp [getD, hi, show i < v.size - count by omega, Nat.add_assoc]
    · simp [getD, hi, show ¬i < v.size - count by omega]
  · cases h

theorem size_drop {v w : View α} {count : Nat} (h : v.drop count = .ok w) :
    count ≤ v.size ∧ w.size = v.size - count := by
  simp only [drop] at h
  split at h
  · next hCount =>
    cases h
    exact ⟨hCount, rfl⟩
  · cases h

theorem getD_slice {v w : View α} {first stop : Nat} (h : v.slice first stop = .ok w) {i : Nat}
    (hi : first + i < stop) (fallback : α) : w.getD i fallback = v.getD (first + i) fallback := by
  simp only [slice] at h
  split at h
  · cases h
    simp [getD, show i < stop - first by omega, show first + i < v.size by omega, Nat.add_assoc]
  · cases h

theorem size_slice {v w : View α} {first stop : Nat} (h : v.slice first stop = .ok w) :
    first ≤ stop ∧ stop ≤ v.size ∧ w.size = stop - first := by
  simp only [slice] at h
  split at h
  · next hBounds =>
    cases h
    exact ⟨hBounds.1, hBounds.2, rfl⟩
  · cases h

end View

variable {α : Type}

theorem getD_ofFn (count : Nat) (f : Nat → α) (i : Nat) (fallback : α) :
    (Array.ofFn fun k : Fin count => f k).getD i fallback =
      if i < count then f i else fallback := by
  by_cases h : i < count <;> simp [Array.getD, h]

theorem getD_extract (xs : Array α) {first stop i : Nat} (hi : first + i < stop) (fallback : α) :
    (xs.extract first stop).getD i fallback = xs.getD (first + i) fallback := by
  rw [Array.getD_eq_getD_getElem?, Array.getD_eq_getD_getElem?, Array.getElem?_extract]
  by_cases hIn : first + i < xs.size
  · rw [if_pos (by omega)]
  · rw [if_neg (by omega), Array.getElem?_eq_none (by omega)]

/-- `xs` with `ys` written over the entries from `start` on; what would fall behind the end of `xs`
is dropped. -/
def spliceList (xs : Array α) (start : Nat) : List α → Array α
  | [] => xs
  | y :: ys => spliceList (xs.setIfInBounds start y) (start + 1) ys

/-- `xs` with the entries of `ys` written over those from `start` on. -/
def splice (xs : Array α) (start : Nat) (ys : Array α) : Array α := spliceList xs start ys.toList

theorem size_spliceList (xs : Array α) (start : Nat) (ys : List α) :
    (spliceList xs start ys).size = xs.size := by
  induction ys generalizing xs start with
  | nil => rfl
  | cons y ys ih => simp [spliceList, ih]

@[simp] theorem size_splice (xs : Array α) (start : Nat) (ys : Array α) :
    (splice xs start ys).size = xs.size := size_spliceList ..

theorem getElem?_spliceList (xs : Array α) (start : Nat) (ys : List α) (i : Nat)
    (hi : i < xs.size) :
    (spliceList xs start ys)[i]? =
      if start ≤ i ∧ i < start + ys.length then ys[i - start]? else xs[i]? := by
  induction ys generalizing xs start with
  | nil =>
      have hNone : ¬(start ≤ i ∧ i < start + ([] : List α).length) := by simp
      rw [if_neg hNone]
      rfl
  | cons y ys ih =>
      rw [spliceList, ih _ _ (by simpa using hi)]
      by_cases hHere : start = i
      · subst hHere
        rw [if_neg (by omega), if_pos (by simp)]
        simp [hi]
      · rw [Array.getElem?_setIfInBounds_ne hHere]
        by_cases hAfter : start + 1 ≤ i ∧ i < start + 1 + ys.length
        · have hIndex : i - start = (i - (start + 1)) + 1 := by omega
          rw [if_pos hAfter, if_pos (by simp only [List.length_cons]; omega), hIndex,
            List.getElem?_cons_succ]
        · rw [if_neg hAfter, if_neg (by simp only [List.length_cons]; omega)]

theorem getElem?_splice (xs : Array α) (start : Nat) (ys : Array α) (i : Nat) (hi : i < xs.size) :
    (splice xs start ys)[i]? =
      if start ≤ i ∧ i < start + ys.size then ys[i - start]? else xs[i]? := by
  rw [splice, getElem?_spliceList _ _ _ _ hi]
  simp

/-- Write `ys` over the entries of `xs` from `start` on. -/
def overwrite (xs : Array α) (start : Nat) (ys : Array α) : Checked (Array α) := do
  require (start + ys.size ≤ xs.size) .outOfBounds
  return splice xs start ys

end QuantAttention
