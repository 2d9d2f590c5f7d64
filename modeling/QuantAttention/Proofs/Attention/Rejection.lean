import QuantAttention.Proofs.Attention.Execute

/-! Calls that do nothing. A call is refused exactly for the first of its problems, and neither a
refused call nor one without anything to compute touches memory or tile registers. -/

namespace QuantAttention

namespace Attention

variable {a : Attention} {call : Call} {memory : Memory} {registers : TileRegisters}
  {schedule : Dims → Schedule}

/-- No problem of a call is one of the configuration. What can be wrong with an operator is found
when it is built. -/
theorem isConfiguration_of_mem_problems {e : AttentionError} (h : e ∈ a.problems call memory) :
    e.isConfiguration = false := by
  simp only [problems, List.mem_append] at h
  rcases h with (hMissing | hShort) | hWorkspace
  · obtain ⟨⟨fixed, value, slot⟩, -, hSome⟩ := List.mem_filterMap.1 hMissing
    dsimp only at hSome
    split at hSome
    · cases hSome
      rfl
    · cases hSome
  · obtain ⟨found, hFound, rfl⟩ := List.mem_filterMap.1 hShort
    simp only [shortage, List.mem_cons, List.not_mem_nil, or_false] at hFound
    rcases hFound with h | h | h | h | h | h | h | h | h <;> split at h <;> cases h <;> rfl
  · rw [workspaceProblems, List.mem_append] at hWorkspace
    rcases hWorkspace with hShort | hMisaligned
    · split at hShort
      · obtain rfl := List.mem_singleton.1 hShort
        rfl
      · cases hShort
    · split at hMisaligned
      · obtain rfl := List.mem_singleton.1 hMisaligned
        rfl
      · cases hMisaligned

/-- The check of a call ends with an answer if no size leaves its range, for it has no other fault.
-/
theorem exists_preflight (hRange : a.preflight call memory ≠ .error .sizeOverflow) :
    ∃ answer, a.preflight call memory = .ok answer := by
  have hOverflow : FaultsOnly (· = .sizeOverflow) (a.preflight call memory) :=
    preflight_faultsOnly rfl
  refine hOverflow.exists_ok fun fault hFault => ?_
  rw [hFault]
  exact hRange

/-- A call with a problem returns, and its outcome is the first of them. No task has run, so memory
and registers are as they were. -/
theorem execute_of_problem {e : AttentionError}
    (hRange : a.preflight call memory ≠ .error .sizeOverflow)
    (hFirst : (a.problems call memory).head? = some e) :
    a.execute schedule call memory registers = .ok (idle (.error e) memory registers) := by
  obtain ⟨answer, hAnswer⟩ := exists_preflight hRange
  have hCases := preflight_cases hAnswer
  rw [hFirst] at hCases
  obtain rfl := hCases
  rw [execute, hAnswer]
  rfl

/-- A call without a problem and without anything to compute succeeds, and is done right after the
check. -/
theorem execute_of_degenerate (hRange : a.preflight call memory ≠ .error .sizeOverflow)
    (hNone : a.problems call memory = [])
    (hDegenerate : (a.dims.filled call.dims).isDegenerate = true) :
    a.execute schedule call memory registers = .ok (idle (.ok ()) memory registers) := by
  obtain ⟨answer, hAnswer⟩ := exists_preflight hRange
  have hCases := preflight_cases hAnswer
  rw [hNone] at hCases
  obtain ⟨-, regions, rfl, -⟩ := hCases
  rw [execute, hAnswer]
  exact if_pos hDegenerate

/-- Both phases run only after the check, and have no error of their own to return. -/
theorem result_ok_of_compute {schedule : Schedule} {layout : Layout} {regions : WorkspaceRegions}
    {o : Outcome} (h : a.compute schedule call layout regions memory registers = .ok o) :
    o.result = .ok () := by
  simp only [compute, Checked.bind_eq_ok, Checked.pure_eq_ok] at h
  obtain ⟨-, -, -, -, -, -, rfl⟩ := h
  rfl

/-- A call that returns either ends with its first problem and has done nothing, or it has no
problem and succeeds; then it has done nothing only if there was nothing to compute. -/
theorem execute_result {o : Outcome} (h : a.execute schedule call memory registers = .ok o) :
    (∃ e, (a.problems call memory).head? = some e ∧ o = idle (.error e) memory registers) ∨
      (a.problems call memory).head? = none ∧ o.result = .ok () ∧
        ((a.dims.filled call.dims).isDegenerate = true → o = idle (.ok ()) memory registers) := by
  have hCases := execute_cases h
  cases hFirst : (a.problems call memory).head? with
  | some e =>
      rw [hFirst] at hCases
      exact Or.inl ⟨e, rfl, hCases⟩
  | none =>
      rw [hFirst] at hCases
      dsimp only at hCases
      split at hCases
      · obtain rfl := hCases
        exact Or.inr ⟨rfl, rfl, fun _ => rfl⟩
      · next hProper =>
        obtain ⟨-, regions, hCompute⟩ := hCases
        exact Or.inr ⟨rfl, result_ok_of_compute hCompute, fun h => (hProper h).elim⟩

/-- Calls are all or nothing. A call ends with an error exactly if it has a problem, and then with
the first of them. Such a call, and one without anything to compute, leaves memory and registers
alone. -/
theorem execute_all_or_nothing (hRange : a.preflight call memory ≠ .error .sizeOverflow) :
    (∀ e, (∃ o, a.execute schedule call memory registers = .ok o ∧ o.result = .error e) ↔
        (a.problems call memory).head? = some e) ∧
      (a.problems call memory = [] → (a.dims.filled call.dims).isDegenerate = true →
        ∃ o, a.execute schedule call memory registers = .ok o ∧ o.result = .ok ()) ∧
      (∀ o, a.execute schedule call memory registers = .ok o →
        o.result ≠ .ok () ∨ (a.dims.filled call.dims).isDegenerate = true →
          o.memory = memory ∧ o.registers = registers ∧ o.log = #[]) ∧
      ∀ e ∈ a.problems call memory, e.isConfiguration = false := by
  refine ⟨?_, ?_, ?_, fun e he => isConfiguration_of_mem_problems he⟩
  · intro e
    constructor
    · rintro ⟨o, hRun, hError⟩
      rcases execute_result hRun with ⟨first, hFirst, rfl⟩ | ⟨-, hOk, -⟩
      · cases hError
        exact hFirst
      · rw [hOk] at hError
        cases hError
    · intro hFirst
      exact ⟨_, execute_of_problem hRange hFirst, rfl⟩
  · intro hNone hDegenerate
    exact ⟨_, execute_of_degenerate hRange hNone hDegenerate, rfl⟩
  · intro o hRun hIdle
    rcases execute_result hRun with ⟨first, -, rfl⟩ | ⟨-, hOk, hNothing⟩
    · exact ⟨rfl, rfl, rfl⟩
    · obtain rfl := hNothing (hIdle.resolve_left fun hFailed => hFailed hOk)
      exact ⟨rfl, rfl, rfl⟩

/-- An operator that leaves the batch size open, called with keys that are too short: the call ends
with the one problem that it has. -/
theorem execute_all_or_nothing_short_keys :
    let a : Attention := ⟨⟨0, 1, 1, 1, 1⟩, 1, true, .wide⟩
    let call : Call := ⟨#[1, 2], #[3], #[4], #[0], #[0], #[0], #[0], ⟨some 2, none, none, none, none⟩⟩
    let memory : Memory := ⟨#[], #[], ⟨1, #[7]⟩⟩
    a.preflight call memory ≠ .error .sizeOverflow ∧
      ∃ o, a.execute Schedule.inOrder call memory (.initial 9 1) = .ok o ∧
        o.result = .error (.bufferTooSmall .srcK 2 1) ∧ o.memory = memory := by
  intro a call memory
  have hRange : a.preflight call memory ≠ .error .sizeOverflow := by decide
  have hFirst : (a.problems call memory).head? = some (.bufferTooSmall .srcK 2 1) := by decide
  obtain ⟨o, hRun, hResult⟩ : ∃ o, a.execute Schedule.inOrder call memory (.initial 9 1) = .ok o ∧
      o.result = .error (.bufferTooSmall .srcK 2 1) :=
    ((execute_all_or_nothing hRange).1 _).2 hFirst
  have hFailed : o.result ≠ .ok () := by
    rw [hResult]
    exact nofun
  exact ⟨hRange, o, hRun, hResult, ((execute_all_or_nothing hRange).2.2.1 o hRun (.inl hFailed)).1⟩

end Attention

end QuantAttention
