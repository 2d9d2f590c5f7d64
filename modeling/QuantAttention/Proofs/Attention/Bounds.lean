import QuantAttention.Proofs.Attention.Correctness

/-! Calls of operators that a build has accepted. Once the check of such a call has passed, no index,
no size and no contract of a kernel can fail, for any sizes, any number of workers and any order of
the tasks. -/

namespace QuantAttention

namespace Attention

variable {a : Attention} {desc : OperatorDesc} {host : Capability} {settings : Settings}
  {hostThreads : Nat} {call : Call} {memory : Memory} {registers : TileRegisters}
  {schedule : Dims → Schedule} {layout : Layout} {regions : WorkspaceRegions}

/-- The kernels of this library pack keys to the width for which workspaces are planned. Only an
operator made by hand could have another one. -/
theorem width_of_ofDescriptor
    (hBuilt : ofDescriptor desc host settings .portable hostThreads = .ok a) :
    a.keyPacking.width = packedWidth := by
  rw [ofDescriptor] at hBuilt
  cases hDims : desc.accept host with
  | error e =>
      rw [hDims] at hBuilt
      cases hBuilt
  | ok dims =>
      rw [hDims] at hBuilt
      change build dims settings .portable hostThreads = .ok a at hBuilt
      rw [build] at hBuilt
      split at hBuilt
      · cases hBuilt
      · cases hBuilt
        rfl

/-- Once the check of a call has passed, the call returns, or the product of a query and a key leaves
the range of an accumulator, for which a head has to have at least `2 ^ 17` columns. -/
theorem execute_within_bounds
    (hBuilt : ofDescriptor desc host settings .portable hostThreads = .ok a) (hThreads : 0 < a.threads)
    (hRegisters : a.threads ≤ registers.threads.size)
    (hPreflight : a.preflight call memory = .ok (.ok (layout, regions)))
    (hSchedule : (schedule layout.dims).Valid layout.dims a.threads) :
    (∃ o, a.execute schedule call memory registers = .ok o ∧ o.result = .ok ()) ∨
      a.execute schedule call memory registers = .error .accumulatorOverflow ∧
        131072 ≤ layout.dims.headSize := by
  have hSafe : FaultsOnly (fun fault => fault = .accumulatorOverflow ∧ 131072 ≤ layout.dims.headSize)
      (a.execute schedule call memory registers) := by
    refine execute_faultsOnly hPreflight hThreads hRegisters (width_of_ofDescriptor hBuilt) hSchedule
      ?_
    rcases Nat.lt_or_ge layout.dims.headSize 131072 with hFew | hMany
    · exact Or.inr hFew
    · exact Or.inl ⟨rfl, hMany⟩
  cases hRun : a.execute schedule call memory registers with
  | error fault =>
      obtain ⟨rfl, hMany⟩ := hSafe fault hRun
      exact Or.inr ⟨rfl, hMany⟩
  | ok o =>
      refine Or.inl ⟨o, rfl, ?_⟩
      obtain ⟨hNone, -⟩ := preflight_accepted hPreflight
      rcases execute_result hRun with ⟨e, hFirst, -⟩ | ⟨-, hOk, -⟩
      · rw [hNone] at hFirst
        cases hFirst
      · exact hOk

/-- The small operator is built for the descriptor of its dimensions. It is not one that only a
proof could come by. -/
theorem ofDescriptor_small : ofDescriptor (Config.ofDims ⟨1, 2, 1, 3, 2⟩).descriptor .amx
    { numThreads := some 2 } .portable 1 = .ok (small 2) := by
  rfl

/-- The check of the small call has passed and its heads are short, so it returns in any order of
its tasks. -/
theorem execute_within_bounds_small :
    ∃ o, (small 2).execute backwards (smallCall 0) (smallMemory 2 255) (.initial 9 1) = .ok o ∧
      o.result = .ok () := by
  have hAccepted : ∃ regions, (small 2).preflight (smallCall 0) (smallMemory 2 255) =
      .ok (.ok (Layout.ofDims ⟨1, 2, 1, 3, 2⟩ 2, regions)) :=
    exists_regions rfl (inRange_small (by decide) (by decide)) (problems_small 2 0 255)
  obtain ⟨regions, hPreflight⟩ := hAccepted
  have hSchedule := valid_backwards ⟨1, 2, 1, 3, 2⟩ (by decide : 1 < 2)
  have hRegisters : 2 ≤ (TileRegisters.initial 9 1).threads.size := by decide
  rcases execute_within_bounds ofDescriptor_small (by decide) hRegisters hPreflight hSchedule with
    hReturns | ⟨-, hMany⟩
  · exact hReturns
  · exact absurd hMany (by decide)

end Attention

end QuantAttention
