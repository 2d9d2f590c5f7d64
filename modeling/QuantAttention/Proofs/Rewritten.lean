import QuantAttention.View

/-! What a run leaves of a buffer to which it writes. The runs of this library write the same entry
wherever they write a position, in whatever order they come to it; so it is enough to know the
positions that were written and which entries are good there. -/

namespace QuantAttention

variable {α σ τ : Type}

/-- `after` is as long as `before`. It holds good entries where `writes` is true, and what `before`
holds elsewhere. -/
structure Rewritten (writes : Nat → Prop) (good : Nat → α → Prop) (before after : Array α) :
    Prop where
  size_eq : after.size = before.size
  written : ∀ i x, writes i → after[i]? = some x → good i x
  kept : ∀ i, ¬writes i → after[i]? = before[i]?

namespace Rewritten

variable {writes writes' : Nat → Prop} {good good' : Nat → α → Prop} {xs ys zs : Array α}

theorem refl (good : Nat → α → Prop) (xs : Array α) : Rewritten (fun _ => False) good xs xs :=
  ⟨rfl, fun _ _ h => h.elim, fun _ _ => rfl⟩

/-- Two steps one after the other write what either of them writes, provided that what is good does
not change between them. -/
theorem trans (first : Rewritten writes good xs ys) (second : Rewritten writes' good ys zs) :
    Rewritten (fun i => writes i ∨ writes' i) good xs zs where
  size_eq := second.size_eq.trans first.size_eq
  written := by
    intro i x hWrites hx
    by_cases hLast : writes' i
    · exact second.written i x hLast hx
    · rw [second.kept i hLast] at hx
      exact first.written i x (hWrites.resolve_right hLast) hx
  kept := by
    intro i hNot
    rw [not_or] at hNot
    rw [second.kept i hNot.2, first.kept i hNot.1]

/-- What is known of written positions may be replaced by what follows from it. -/
theorem mono (h : Rewritten writes good xs ys)
    (hGood : ∀ i x, i < xs.size → writes i → good i x → good' i x) :
    Rewritten writes good' xs ys where
  size_eq := h.size_eq
  written := by
    intro i x hWrites hx
    obtain ⟨hi, -⟩ := Array.getElem?_eq_some_iff.1 hx
    exact hGood i x (h.size_eq ▸ hi) hWrites (h.written i x hWrites hx)
  kept := h.kept

/-- Positions behind the end of the buffer do not matter, so they may be claimed as written or not.
-/
theorem congr (h : Rewritten writes good xs ys)
    (hWrites : ∀ i, i < xs.size → (writes i ↔ writes' i)) : Rewritten writes' good xs ys where
  size_eq := h.size_eq
  written := by
    intro i x hi hx
    obtain ⟨hLt, -⟩ := Array.getElem?_eq_some_iff.1 hx
    exact h.written i x ((hWrites i (h.size_eq ▸ hLt)).2 hi) hx
  kept := by
    intro i hNot
    by_cases hLt : i < xs.size
    · exact h.kept i (mt (hWrites i hLt).1 hNot)
    · rw [Array.getElem?_eq_none (by rw [h.size_eq]; omega), Array.getElem?_eq_none (by omega)]

theorem getD_written (h : Rewritten writes good xs ys) {i : Nat} (hi : i < xs.size)
    (hWrites : writes i) (fallback : α) : good i (ys.getD i fallback) := by
  have hLt : i < ys.size := by rw [h.size_eq]; exact hi
  rw [Array.getD_eq_getD_getElem?, Array.getElem?_eq_getElem hLt]
  exact h.written i _ hWrites (Array.getElem?_eq_getElem hLt)

theorem getElem?_eq_getD (h : Rewritten writes good xs ys) {i : Nat} (hi : i < xs.size)
    (fallback : α) : ys[i]? = some (ys.getD i fallback) := by
  have hLt : i < ys.size := by rw [h.size_eq]; exact hi
  rw [Array.getD_eq_getD_getElem?, Array.getElem?_eq_getElem hLt, Option.getD_some]

/-- Putting a part into a buffer writes the positions of that part. -/
theorem splice {start : Nat} (hGood : ∀ i x, ys[i]? = some x → good (start + i) x) :
    Rewritten (fun i => start ≤ i ∧ i < start + ys.size) good xs (splice xs start ys) where
  size_eq := size_splice ..
  written := by
    intro i x hWrites hx
    obtain ⟨hi, -⟩ := Array.getElem?_eq_some_iff.1 hx
    rw [getElem?_splice _ _ _ _ (by simpa using hi), if_pos hWrites] at hx
    simpa [Nat.add_sub_cancel' hWrites.1] using hGood _ x hx
  kept := by
    intro i hNot
    by_cases hi : i < xs.size
    · rw [getElem?_splice _ _ _ _ hi, if_neg hNot]
    · rw [Array.getElem?_eq_none (by simp only [size_splice]; omega),
        Array.getElem?_eq_none (by omega)]

theorem set (xs : Array α) (i : Nat) (x : α) :
    Rewritten (fun p => p = i) (fun _ y => y = x) xs (xs.setIfInBounds i x) where
  size_eq := Array.size_setIfInBounds
  written := by
    rintro p y rfl hy
    obtain ⟨hp, rfl⟩ := Array.getElem?_eq_some_iff.1 hy
    simp
  kept := by
    intro p hNot
    exact Array.getElem?_setIfInBounds_ne (Ne.symm hNot)

/-- A part of a buffer is rewritten by itself and put back into its place. What was written of the
part is written of the buffer, further on. -/
theorem window {first stop : Nat} (h : Rewritten writes good (xs.extract first stop) ys)
    (hGood : ∀ i x, first + i < stop → writes i → good i x → good' (first + i) x) :
    Rewritten (fun i => first ≤ i ∧ i < stop ∧ writes (i - first)) good' xs
      (QuantAttention.splice xs first ys) where
  size_eq := size_splice ..
  written := by
    rintro i x ⟨hFirst, hStop, hWrites⟩ hx
    obtain ⟨hi, -⟩ := Array.getElem?_eq_some_iff.1 hx
    have hSize := h.size_eq
    rw [size_splice] at hi
    rw [Array.size_extract] at hSize
    rw [getElem?_splice _ _ _ _ hi, if_pos (by omega)] at hx
    have hEntry := hGood _ x (by omega) hWrites (h.written _ x hWrites hx)
    rwa [Nat.add_sub_cancel' hFirst] at hEntry
  kept := by
    intro i hNot
    by_cases hi : i < xs.size
    · have hSize := h.size_eq
      rw [Array.size_extract] at hSize
      rw [getElem?_splice _ _ _ _ hi]
      split
      · next hIn =>
        have hOld : ¬writes (i - first) := fun hw => hNot ⟨hIn.1, by omega, hw⟩
        rw [h.kept _ hOld, Array.getElem?_extract, if_pos (by omega),
          Nat.add_sub_cancel' hIn.1]
      · rfl
    · rw [Array.getElem?_eq_none (by simp only [size_splice]; omega),
        Array.getElem?_eq_none (by omega)]

/-- The same where the front of the part is rewritten. -/
theorem window_front {first stop count : Nat}
    (h : Rewritten (· < count) good (xs.extract first stop) ys) (hFits : first + count ≤ stop)
    (hGood : ∀ i x, i < count → good i x → good' (first + i) x) :
    Rewritten (fun p => ∃ i < count, p = first + i) good' xs (QuantAttention.splice xs first ys) := by
  refine (h.window fun i x _ => hGood i x).congr fun p _ => ?_
  constructor
  · rintro ⟨hFirst, -, hCount⟩
    exact ⟨p - first, hCount, by omega⟩
  · rintro ⟨i, hi, rfl⟩
    refine ⟨by omega, by omega, ?_⟩
    rwa [Nat.add_sub_cancel_left]

/-- What the steps of a loop write is what the loop writes. The buffer may be a part of the state
on which the loop runs. -/
theorem iterate (buffer : σ → Array α) {count : Nat} {step : Nat → σ → Checked σ}
    {start finish : σ} {writes : Nat → Nat → Prop}
    (hStep : ∀ i s t, i < count → step i s = .ok t →
      Rewritten (writes i) good (buffer s) (buffer t))
    (hRun : Checked.iterate count step start = .ok finish) :
    Rewritten (fun p => ∃ i < count, writes i p) good (buffer start) (buffer finish) := by
  refine Checked.iterate_induction
    (fun n s => n ≤ count → Rewritten (fun p => ∃ i < n, writes i p) good (buffer start) (buffer s))
    ?_ ?_ hRun (Nat.le_refl _)
  · intro _
    exact (refl good _).congr fun p _ => by simp
  · intro i s t hi hBefore hThis _
    refine ((hBefore (by omega)).trans (hStep i s t hi hThis)).congr fun p _ => ?_
    constructor
    · rintro (⟨j, hj, hp⟩ | hp)
      · exact ⟨j, by omega, hp⟩
      · exact ⟨i, by omega, hp⟩
    · rintro ⟨j, hj, hp⟩
      rcases Nat.lt_succ_iff_lt_or_eq.1 hj with hBefore | rfl
      · exact Or.inl ⟨j, hBefore, hp⟩
      · exact Or.inr hp

/-- The same for a loop over a range that cannot fault. -/
theorem foldl_range (writes : Nat → Nat → Prop) {count : Nat} {step : Array α → Nat → Array α}
    (hStep : ∀ i < count, ∀ ys, Rewritten (writes i) good ys (step ys i)) (xs : Array α) :
    Rewritten (fun p => ∃ i < count, writes i p) good xs ((List.range count).foldl step xs) := by
  induction count with
  | zero => exact (refl good xs).congr fun p _ => by simp
  | succ n ih =>
      rw [List.range_succ, List.foldl_append]
      refine ((ih fun i hi => hStep i (Nat.lt_succ_of_lt hi)).trans
        (hStep n (Nat.lt_succ_self n) _)).congr fun p _ => ?_
      constructor
      · rintro (⟨i, hi, hp⟩ | hp)
        · exact ⟨i, by omega, hp⟩
        · exact ⟨n, by omega, hp⟩
      · rintro ⟨i, hi, hp⟩
        rcases Nat.lt_succ_iff_lt_or_eq.1 hi with hBefore | rfl
        · exact Or.inl ⟨i, hBefore, hp⟩
        · exact Or.inr hp

/-- What the tasks of a list write is what running them one after the other writes. None of them may
undo what another has written. -/
theorem foldlM (buffer : σ → Array α) {tasks : List τ} {step : σ → τ → Checked σ}
    {start finish : σ} {writes : τ → Nat → Prop}
    (hStep : ∀ task ∈ tasks, ∀ s t, step s task = .ok t →
      Rewritten (writes task) good (buffer s) (buffer t))
    (hRun : tasks.foldlM step start = .ok finish) :
    Rewritten (fun p => ∃ task ∈ tasks, writes task p) good (buffer start) (buffer finish) := by
  induction tasks generalizing start with
  | nil =>
      rw [List.foldlM_nil, Checked.pure_eq_ok] at hRun
      subst hRun
      exact (refl good _).congr fun p _ => by simp
  | cons task rest ih =>
      rw [List.foldlM_cons, Checked.bind_eq_ok] at hRun
      obtain ⟨middle, hFirst, hRest⟩ := hRun
      have hHead := hStep task List.mem_cons_self start middle hFirst
      have hTail := ih (fun u hu => hStep u (List.mem_cons_of_mem _ hu)) hRest
      refine (hHead.trans hTail).congr fun p _ => ?_
      simp

end Rewritten

/-- `after` is as long as `before` and agrees with it from entry `first` on. -/
structure KeptFrom (first : Nat) (before after : Array α) : Prop where
  size_eq : after.size = before.size
  kept : ∀ i, first ≤ i → after[i]? = before[i]?

namespace KeptFrom

variable {first : Nat} {xs ys : Array α}

theorem refl (first : Nat) (xs : Array α) : KeptFrom first xs xs := ⟨rfl, fun _ _ => rfl⟩

theorem trans {zs : Array α} (h : KeptFrom first xs ys) (h' : KeptFrom first ys zs) :
    KeptFrom first xs zs :=
  ⟨h'.size_eq.trans h.size_eq, fun i hi => (h'.kept i hi).trans (h.kept i hi)⟩

/-- A buffer is kept from any position on behind which nothing is written. -/
theorem of_rewritten {writes : Nat → Prop} {good : Nat → α → Prop}
    (h : Rewritten writes good xs ys) (hWrites : ∀ i, writes i → i < first) :
    KeptFrom first xs ys where
  size_eq := h.size_eq
  kept := fun i hi => h.kept i fun hWrite => absurd (hWrites i hWrite) (Nat.not_lt.2 hi)

end KeptFrom

end QuantAttention
