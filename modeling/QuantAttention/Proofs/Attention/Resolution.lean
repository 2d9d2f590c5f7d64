import QuantAttention.Proofs.Attention.Products

/-! Dimensions that are given early or late. An operator that leaves dimensions open answers a call as
the operator does that was built for the dimensions of this call, and the answer to a call does not
depend on who runs which task. -/

namespace QuantAttention

namespace Dims

variable {d r : Dims} {called : CallDims} {fixed : Nat} {value : Option Int}

theorem fill_of_ne_zero (h : fixed ≠ 0) : fill fixed value = fixed := if_neg h

/-- What was filled in once stays the same if it is filled in again. -/
theorem fill_fill (fixed : Nat) (value : Option Int) :
    fill (fill fixed value) value = fill fixed value := by
  by_cases hFixed : fixed = 0
  · by_cases hValue : (value.getD 0).toNat = 0 <;> simp [fill, hFixed, hValue]
  · rw [fill_of_ne_zero hFixed, fill_of_ne_zero hFixed]

theorem missing_of_fill (h : Missing (fill fixed value) value) : Missing fixed value := by
  by_cases hFixed : fixed = 0
  · exact ⟨hFixed, h.2⟩
  · rwa [fill_of_ne_zero hFixed] at h

/-- Nothing is missing from a call that fills in every open dimension with a value in range. -/
theorem missing_eq_nil : d.missing called = [] ↔ ∀ x ∈ d.asked called, ¬Missing x.1 x.2.1 := by
  simp [missing, List.filterMap_eq_nil_iff]

/-- Once its dimensions have been filled in, a call is asked for the same ones, with what it brings
along unchanged. -/
theorem asked_filled (d : Dims) (called : CallDims) :
    (d.filled called).asked called =
      (d.asked called).map fun (fixed, value, slot) => (fill fixed value, value, slot) := rfl

/-- Dimensions that a call has filled in stay as they are if it fills them in again. A second
filling finds nothing open. -/
theorem resolve_again (h : d.resolve called = .ok r) : r.resolve called = .ok r := by
  obtain ⟨hNone, rfl⟩ := resolve_eq_ok.1 h
  rw [missing_eq_nil] at hNone
  refine resolve_eq_ok.2 ⟨missing_eq_nil.2 ?_, ?_⟩
  · rw [asked_filled]
    intro x hx hMissing
    obtain ⟨y, hy, rfl⟩ := List.mem_map.1 hx
    exact hNone y hy (missing_of_fill hMissing)
  · simp only [filled, fill_fill]

/-- A dimension that is not open is not overridden, whatever the call brings along for it. -/
theorem resolve_keeps (h : d.resolve called = .ok r) :
    List.Forall₂ (fun fixed found => fixed ≠ 0 → found = fixed) d.toList r.toList := by
  obtain ⟨-, rfl⟩ := resolve_eq_ok.1 h
  exact .cons fill_of_ne_zero (.cons fill_of_ne_zero (.cons fill_of_ne_zero (.cons fill_of_ne_zero
    (.cons fill_of_ne_zero .nil))))

end Dims

namespace Attention

variable {a opened fixed : Attention} {d r : Dims} {call : Call} {memory : Memory}
  {settings : Settings} {hostThreads : Nat}

/-- An operator of this library for given dimensions. It packs keys to the width of a wide tile, and
its number of workers comes from the settings or from the host. -/
theorem build_portable (h : build d settings .portable hostThreads = .ok a) :
    settings.numThreads ≠ some 0 ∧
      a = ⟨d, settings.numThreads.getD hostThreads, settings.releaseTiles, .wide⟩ := by
  rw [build] at h
  split at h
  · cases h
  · next hThreads =>
    cases h
    exact ⟨hThreads, rfl⟩

/-- An operator has a worker if the host has one, whatever its settings ask for. -/
theorem threads_pos_of_build (h : build d settings .portable hostThreads = .ok a)
    (hHost : 0 < hostThreads) : 0 < a.threads := by
  obtain ⟨hSome, rfl⟩ := build_portable h
  show 0 < settings.numThreads.getD hostThreads
  cases hGiven : settings.numThreads with
  | none => exact hHost
  | some n => exact Nat.pos_of_ne_zero fun hZero => hSome (hGiven.trans (congrArg some hZero))

/-- Operators built with the same settings differ in their dimensions only. Neither workers nor
kernels are chosen by dimensions. -/
theorem eq_withDims_of_build (hOpened : build d settings .portable hostThreads = .ok opened)
    (hFixed : build r settings .portable hostThreads = .ok fixed) :
    opened.dims = d ∧ opened.keyPacking.width = packedWidth ∧ fixed = { opened with dims := r } := by
  obtain ⟨-, rfl⟩ := build_portable hOpened
  obtain ⟨-, rfl⟩ := build_portable hFixed
  exact ⟨rfl, rfl, rfl⟩

/-- The dimensions of an operator matter to a call only where they are filled in. Behind that point
no part of a call looks at those of the operator. -/
theorem execute_withDims (hDims : a.dims.resolve call.dims = r.resolve call.dims)
    (schedule : Dims → Schedule) (memory : Memory) (registers : TileRegisters) :
    { a with dims := r }.execute schedule call memory registers =
      a.execute schedule call memory registers := by
  have hPreflight : { a with dims := r }.preflight call memory = a.preflight call memory := by
    simp only [preflight, hDims]
  rw [execute, execute, hPreflight]
  rfl

/-- The size of a workspace depends on the dimensions that are found for the call, not on how they
were found. -/
theorem workspaceBytesFor_withDims {called : CallDims}
    (hDims : a.dims.resolve called = r.resolve called) :
    { a with dims := r }.workspaceBytesFor called = a.workspaceBytesFor called := by
  simp only [workspaceBytesFor, hDims]

/-- What a caller sees of the end of a call: its result and the numbers in its output. -/
def answer (run : Checked Outcome) :
    Checked (Except AttentionError Unit × Array Int8 × Array Binary32) := do
  let o ← run
  return (o.result, o.memory.output, o.memory.outputScale)

theorem answer_ok (o : Outcome) :
    answer (.ok o) = .ok (o.result, o.memory.output, o.memory.outputScale) := rfl

section Answer

variable {schedule₁ schedule₂ : Dims → Schedule} {registers₁ registers₂ : TileRegisters}

/-- Two runs of a call on the same memory that both succeed leave the same output, also where they
have not written it. The order of the tasks and the registers may differ. -/
theorem output_unique (hDims : a.dims.resolve call.dims = .ok d)
    (hSchedule₁ : (schedule₁ d).Valid d a.threads) (hSchedule₂ : (schedule₂ d).Valid d a.threads)
    {o₁ o₂ : Outcome} (hRun₁ : a.execute schedule₁ call memory registers₁ = .ok o₁)
    (hRun₂ : a.execute schedule₂ call memory registers₂ = .ok o₂) (hOk₁ : o₁.result = .ok ())
    (hOk₂ : o₂.result = .ok ()) :
    o₁.memory.output = o₂.memory.output ∧ o₁.memory.outputScale = o₂.memory.outputScale := by
  cases hProper : d.isDegenerate with
  | true =>
      rw [memory_of_degenerate hDims hProper hRun₁, memory_of_degenerate hDims hProper hRun₂]
      exact ⟨rfl, rfl⟩
  | false =>
      obtain ⟨_, -, hFits, hCompute₁⟩ := exists_compute hDims hProper hRun₁ hOk₁
      obtain ⟨_, -, -, hCompute₂⟩ := exists_compute hDims hProper hRun₂ hOk₂
      obtain ⟨-, hOutput₁, hScale₁⟩ := compute_rewritten hSchedule₁ hFits.mask hCompute₁
      obtain ⟨-, hOutput₂, hScale₂⟩ := compute_rewritten hSchedule₂ hFits.mask hCompute₂
      -- An entry is written with a value of its own or is that of the memory before.
      constructor <;> apply Array.ext_getElem? <;> intro p
      · rw [hOutput₁.getElem?_eq hFits.output, hOutput₂.getElem?_eq hFits.output]
      · rw [hScale₁.getElem?_eq hFits.outputScale, hScale₂.getElem?_eq hFits.outputScale]

/-- The answer to a call depends neither on the order of its tasks nor on the registers. That
includes the fault of a call that does not return. -/
theorem answer_unique (hWidth : a.keyPacking.width = packedWidth) (hThreads : 0 < a.threads)
    (hRegisters₁ : a.threads ≤ registers₁.threads.size)
    (hRegisters₂ : a.threads ≤ registers₂.threads.size)
    (hDims : a.dims.resolve call.dims = .ok d) (hSchedule₁ : (schedule₁ d).Valid d a.threads)
    (hSchedule₂ : (schedule₂ d).Valid d a.threads) :
    answer (a.execute schedule₁ call memory registers₁) =
      answer (a.execute schedule₂ call memory registers₂) := by
  cases hPreflight : a.preflight call memory with
  | error fault =>
      rw [execute, execute, hPreflight]
      rfl
  | ok found =>
      obtain e | ⟨layout, regions⟩ := found
      · rw [execute, execute, hPreflight]
        rfl
      · obtain rfl := Except.ok.inj (hDims.symm.trans (resolve_of_preflight hPreflight))
        -- Whether the sums fit does not depend on the order, and nothing else can fail.
        by_cases hSums : RowMajor.FittingSums layout.dims call
        · obtain ⟨o₁, hRun₁⟩ :=
            (exists_execute_iff hWidth hThreads hRegisters₁ hPreflight hSchedule₁).2 hSums
          obtain ⟨o₂, hRun₂⟩ :=
            (exists_execute_iff hWidth hThreads hRegisters₂ hPreflight hSchedule₂).2 hSums
          have hOk₁ := result_of_preflight hPreflight hRun₁
          have hOk₂ := result_of_preflight hPreflight hRun₂
          obtain ⟨hOutput, hScale⟩ :=
            output_unique hDims hSchedule₁ hSchedule₂ hRun₁ hRun₂ hOk₁ hOk₂
          rw [hRun₁, hRun₂, answer_ok, answer_ok, hOk₁, hOk₂, hOutput, hScale]
        · rw [(execute_eq_error_iff hWidth hThreads hRegisters₁ hPreflight hSchedule₁).2
            ⟨rfl, hSums⟩, (execute_eq_error_iff hWidth hThreads hRegisters₂ hPreflight hSchedule₂).2
            ⟨rfl, hSums⟩]

end Answer

/-- An operator that leaves dimensions open and the operator for the dimensions that a call fills in
need the same workspace and answer the call alike: with the same order of tasks in everything, and in
any orders with the same error or the same output. Filling in overrides no dimension and changes
nothing when it is done again. -/
theorem execute_filled_in (hDims : d.resolve call.dims = .ok r) (hHost : 0 < hostThreads)
    (hOpened : build d settings .portable hostThreads = .ok opened)
    (hFixed : build r settings .portable hostThreads = .ok fixed) :
    opened.workspaceBytesFor call.dims = fixed.workspaceBytesFor call.dims ∧
    (∀ schedule memory registers,
      opened.execute schedule call memory registers =
        fixed.execute schedule call memory registers) ∧
    (∀ (schedule₁ schedule₂ : Dims → Schedule) memory (registers₁ registers₂ : TileRegisters),
      (schedule₁ r).Valid r opened.threads → (schedule₂ r).Valid r fixed.threads →
      opened.threads ≤ registers₁.threads.size → fixed.threads ≤ registers₂.threads.size →
        answer (opened.execute schedule₁ call memory registers₁) =
          answer (fixed.execute schedule₂ call memory registers₂)) ∧
    List.Forall₂ (fun fixed found => fixed ≠ 0 → found = fixed) d.toList r.toList ∧
    r.resolve call.dims = .ok r := by
  have hAgain := Dims.resolve_again hDims
  have hThreads := threads_pos_of_build hOpened hHost
  obtain ⟨rfl, hWidth, rfl⟩ := eq_withDims_of_build hOpened hFixed
  have hSame : opened.dims.resolve call.dims = r.resolve call.dims := hDims.trans hAgain.symm
  refine ⟨(workspaceBytesFor_withDims hSame).symm,
    fun schedule memory registers => (execute_withDims hSame schedule memory registers).symm, ?_,
    Dims.resolve_keeps hDims, hAgain⟩
  intro schedule₁ schedule₂ memory registers₁ registers₂ hSchedule₁ hSchedule₂ hRegisters₁ hRegisters₂
  rw [execute_withDims hSame]
  exact answer_unique hWidth hThreads hRegisters₁ hRegisters₂ hDims hSchedule₁ hSchedule₂

/-- A call of the small operator that brings the numbers of batches and queries along. -/
theorem execute_filled_in_small :
    let call := { smallCall 0 with dims := { batchSize := some 1, seqQ := some 1 } }
    let opened : Attention := { small 2 with dims := ⟨0, 2, 0, 3, 2⟩ }
    build ⟨0, 2, 0, 3, 2⟩ { numThreads := some 2 } .portable 1 = .ok opened ∧
      build ⟨1, 2, 1, 3, 2⟩ { numThreads := some 2 } .portable 1 = .ok (small 2) ∧
      opened.workspaceBytesFor call.dims = (small 2).workspaceBytesFor call.dims ∧
      answer (opened.execute Schedule.inOrder call (smallMemory 2 255) (.initial 9 1)) =
        answer ((small 2).execute backwards call (smallMemory 2 255) (.initial 2 1)) := by
  intro call opened
  have hDims : Dims.resolve ⟨0, 2, 0, 3, 2⟩ call.dims = .ok ⟨1, 2, 1, 3, 2⟩ := rfl
  have hOpened : build ⟨0, 2, 0, 3, 2⟩ { numThreads := some 2 } .portable 1 = .ok opened := rfl
  have hFixed : build ⟨1, 2, 1, 3, 2⟩ { numThreads := some 2 } .portable 1 = .ok (small 2) := rfl
  obtain ⟨hBytes, -, hAnswer, -⟩ := execute_filled_in hDims (by decide) hOpened hFixed
  have hInOrder := Schedule.valid_inOrder ⟨1, 2, 1, 3, 2⟩ (by decide : 0 < 2)
  have hBackwards := valid_backwards ⟨1, 2, 1, 3, 2⟩ (by decide : 1 < 2)
  exact ⟨hOpened, hFixed, hBytes, hAnswer _ _ _ _ _ hInOrder hBackwards (by decide) (by decide)⟩

end Attention

end QuantAttention
