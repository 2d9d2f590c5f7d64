import Mathlib.Algebra.Order.Ring.Nat
import Mathlib.Tactic.GCongr
import Mathlib.Tactic.Positivity
import QuantAttention.Proofs.Attention.Preflight

/-! How the size of the workspace grows with the dimensions. Every product and every sum that planning
a layout forms is at most the one formed for larger dimensions, so that a smaller layout leaves the
range of a size nowhere if the larger one does not, also where a zero is among its dimensions. -/

namespace QuantAttention

theorem pad_mono {x y : Nat} (h : x ≤ y) (k : Nat) : pad x k ≤ pad y k :=
  Nat.mul_le_mul_right k (Nat.div_le_div_right (Nat.sub_le_sub_right (Nat.add_le_add_right h k) 1))

/-- Smaller factors have smaller partial products. A zero among them makes the products behind it
zero, which are formable all the same. -/
theorem Formable.mono {xs ys : List Nat} (h : Formable ys) (hLe : List.Forall₂ (· ≤ ·) xs ys) :
    Formable xs := by
  intro first hFirst
  have hPrefix : first <+: xs := (List.mem_inits _ _).1 hFirst
  have hTake : first = xs.take first.length := List.prefix_iff_eq_take.1 hPrefix
  have hPartial : List.Forall₂ (· ≤ ·) first (ys.take first.length) := by
    have hBoth := List.forall₂_take first.length hLe
    rwa [← hTake] at hBoth
  calc first.prod ≤ (ys.take first.length).prod := hPartial.prod_le_prod'
    _ < Size.limit := h _ ((List.mem_inits _ _).2 (List.take_prefix _ _))

/-- No dimension is larger. -/
structure Dims.Within (a b : Dims) : Prop where
  batchSize : a.batchSize ≤ b.batchSize
  headNum : a.headNum ≤ b.headNum
  seqQ : a.seqQ ≤ b.seqQ
  seqK : a.seqK ≤ b.seqK
  headSize : a.headSize ≤ b.headSize

namespace Layout

variable {a b : Dims} {t u : Nat}

/-- More of anything needs no fewer bytes: paddings are monotone, and a layout is made of products
and sums of them. -/
theorem bytesFor_mono (hDims : a.Within b) (hThreads : t ≤ u) : bytesFor a t ≤ bytesFor b u := by
  have hKeys := pad_mono hDims.seqK 64
  have hDepth := pad_mono hDims.headSize 64
  have hBatch := hDims.batchSize
  have hHeads := hDims.headNum
  simp only [bytesFor, ofDims, packedBytes]
  gcongr

/-- If no step of planning leaves the range of a size, none does for smaller dimensions and fewer
workers. -/
theorem Plannable.mono (h : Plannable b u) (hDims : a.Within b) (hThreads : t ≤ u) :
    Plannable a t := by
  have hKeys := pad_mono hDims.seqK 64
  have hDepth := pad_mono hDims.headSize 64
  have hBatch := Nat.mul_le_mul_left numberBytes hDims.batchSize
  exact {
    seqK := Nat.lt_of_le_of_lt (Nat.add_le_add_right hDims.seqK 64) h.seqK
    headSize := Nat.lt_of_le_of_lt (Nat.add_le_add_right hDims.headSize 64) h.headSize
    mask := h.mask.mono (.cons hBatch (.cons hKeys .nil))
    packed := h.packed.mono
      (.cons (Nat.mul_le_mul hDims.batchSize hDims.headNum) (.cons hKeys (.cons hDepth .nil)))
    valueScale := h.valueScale.mono (.cons hBatch (.cons hDims.headNum (.cons hDepth .nil)))
    scratch := h.scratch.mono (.cons (Nat.mul_le_mul_left numberBytes hThreads)
      (.cons le_rfl (.cons hDims.headNum (.cons hKeys .nil))))
    bytes := Nat.lt_of_le_of_lt (bytesFor_mono hDims hThreads) h.bytes }

/-- The size of a smaller layout can be formed if that of a larger one can, and is not larger. -/
theorem totalBytes_mono (hDims : a.Within b) (hThreads : t ≤ u) {l : Layout} {s : Nat}
    (hPlan : plan b u = .ok l) (hTotal : l.totalBytes = .ok s) :
    ∃ m r, plan a t = .ok m ∧ m.totalBytes = .ok r ∧ r ≤ s := by
  have hLarge : Plannable b u := exists_plan_iff.1 ⟨l, s, hPlan, hTotal⟩
  obtain ⟨m, r, hSmall, hBytes⟩ := exists_plan_iff.2 (hLarge.mono hDims hThreads)
  obtain rfl := eq_ofDims_of_plan hPlan
  obtain rfl := eq_ofDims_of_plan hSmall
  refine ⟨_, r, hSmall, hBytes, ?_⟩
  rw [eq_bytesFor_of_totalBytes hBytes, eq_bytesFor_of_totalBytes hTotal]
  exact bytesFor_mono hDims hThreads

end Layout

namespace Dims

theorem le_fill (fixed : Nat) (value : Option Int) : fixed ≤ fill fixed value := by
  rw [fill]
  split
  · next hOpen => exact hOpen ▸ Nat.zero_le _
  · exact le_rfl

/-- Filling in open dimensions makes none of them smaller, as an open dimension is zero. -/
theorem within_of_resolve {d r : Dims} {called : CallDims} (h : d.resolve called = .ok r) :
    d.Within r := by
  rw [← filled_of_resolve h]
  exact ⟨le_fill .., le_fill .., le_fill .., le_fill .., le_fill ..⟩

end Dims

namespace Attention

/-- The size of the workspace is monotone in every dimension and in the number of workers, also in
where it can be formed at all. Open dimensions count as zero in the size of an operator, which is so
at most the size for any call. -/
theorem workspaceBytes_mono :
    (∀ (a b : Dims) (t u : Nat) (l : Layout) (s : Nat), a.Within b → t ≤ u →
      Layout.plan b u = .ok l → l.totalBytes = .ok s →
      ∃ m r, Layout.plan a t = .ok m ∧ m.totalBytes = .ok r ∧ r ≤ s) ∧
    ∀ (kernel : Attention) (called : CallDims) (s : Nat),
      kernel.workspaceBytesFor called = .ok (.ok s) →
      ∃ r, kernel.workspaceBytes = .ok r ∧ r ≤ s := by
  constructor
  · intro a b t u l s hDims hThreads hPlan hTotal
    exact Layout.totalBytes_mono hDims hThreads hPlan hTotal
  · intro kernel called s hSize
    rw [workspaceBytesFor] at hSize
    cases hResolve : kernel.dims.resolve called with
    | error e =>
        rw [hResolve] at hSize
        cases hSize
    | ok dims =>
        rw [hResolve] at hSize
        obtain ⟨l, hPlan, hSize⟩ := Checked.bind_eq_ok.1 hSize
        obtain ⟨_, hTotal, hAnswer⟩ := Checked.bind_eq_ok.1 hSize
        cases hAnswer
        obtain ⟨m, r, hSmall, hBytes, hLe⟩ :=
          Layout.totalBytes_mono (Dims.within_of_resolve hResolve) le_rfl hPlan hTotal
        exact ⟨r, Checked.bind_eq_ok.2 ⟨m, hSmall, hBytes⟩, hLe⟩

/-- Two batches are brought along by the call, and the head size is zero to the last. -/
theorem workspaceBytes_mono_small :
    let kernel : Attention := ⟨⟨0, 2, 1, 3, 0⟩, 2, false, .wide⟩
    let called : CallDims := { batchSize := some 2, headSize := some 0 }
    Dims.Within ⟨0, 2, 1, 3, 0⟩ ⟨2, 2, 1, 3, 0⟩ ∧
      (∃ l, Layout.plan ⟨2, 2, 1, 3, 0⟩ 2 = .ok l ∧ l.totalBytes = .ok 16896) ∧
      (∃ m r, Layout.plan ⟨0, 2, 1, 3, 0⟩ 1 = .ok m ∧ m.totalBytes = .ok r ∧ r ≤ 16896) ∧
      kernel.workspaceBytesFor called = .ok (.ok 16896) ∧
      ∃ r, kernel.workspaceBytes = .ok r ∧ r ≤ 16896 := by
  intro kernel called
  have hDims : Dims.Within ⟨0, 2, 1, 3, 0⟩ ⟨2, 2, 1, 3, 0⟩ :=
    ⟨by decide, by decide, by decide, by decide, by decide⟩
  have hPlan : Layout.plan ⟨2, 2, 1, 3, 0⟩ 2 = .ok (Layout.ofDims ⟨2, 2, 1, 3, 0⟩ 2) := rfl
  have hTotal : (Layout.ofDims ⟨2, 2, 1, 3, 0⟩ 2).totalBytes = .ok 16896 := rfl
  have hSize : workspaceBytesFor ⟨⟨0, 2, 1, 3, 0⟩, 2, false, .wide⟩
      { batchSize := some 2, headSize := some 0 } = .ok (.ok 16896) := rfl
  obtain ⟨hLayout, hKernel⟩ := workspaceBytes_mono
  exact ⟨hDims, ⟨_, hPlan, hTotal⟩, hLayout _ _ 1 2 _ _ hDims (by decide) hPlan hTotal, hSize,
    hKernel _ _ _ hSize⟩

end Attention

end QuantAttention
