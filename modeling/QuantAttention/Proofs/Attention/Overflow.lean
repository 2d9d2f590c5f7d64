import QuantAttention.Proofs.Attention.Preflight

/-! Calls whose sizes cannot be formed. The check of a call multiplies dimensions without a check of
its own, so it faults where a product that it comes to leaves the range of a size, even where a later
factor is zero. Everywhere else it ends with an answer. -/

namespace QuantAttention

namespace Attention

variable {a : Attention} {call : Call} {memory : Memory}

/-- The elements of every shape that the check comes to can be counted: it stops at the first buffer
that is too short. -/
def Countable (xs : List ((Slot × List Nat) × Nat)) : Prop :=
  ∀ before x after, xs = before ++ x :: after → (∀ y ∈ before, y.1.2.prod ≤ y.2) → Formable x.1.2

/-- A list of buffers is counted as long as each of them is long enough: behind the first that is
too short no shape is looked at. -/
theorem countable_cons {x : (Slot × List Nat) × Nat} {rest : List ((Slot × List Nat) × Nat)} :
    Countable (x :: rest) ↔ Formable x.1.2 ∧ (x.1.2.prod ≤ x.2 → Countable rest) := by
  constructor
  · intro h
    refine ⟨h [] x rest rfl (by simp), fun hFits before y after hSplit hBefore => ?_⟩
    refine h (x :: before) y after (by rw [hSplit, List.cons_append]) fun z hz => ?_
    rcases List.mem_cons.1 hz with rfl | hz
    · exact hFits
    · exact hBefore z hz
  · rintro ⟨hFirst, hRest⟩ before y after hSplit hBefore
    cases before with
    | nil =>
        obtain ⟨rfl, -⟩ := List.cons.inj hSplit
        exact hFirst
    | cons z before =>
        obtain ⟨rfl, hTail⟩ := List.cons.inj hSplit
        exact hRest (hBefore x List.mem_cons_self) before y after hTail fun w hw =>
          hBefore w (List.mem_cons_of_mem _ hw)

/-- The search for a short buffer ends with an answer exactly if the shapes that it comes to can be
counted. -/
theorem exists_firstShort_iff {xs : List ((Slot × List Nat) × Nat)}
    (hRank : ∀ x ∈ xs, x.1.2 ≠ []) : (∃ found, firstShort xs = .ok found) ↔ Countable xs := by
  induction xs with
  | nil => exact ⟨fun _ before x after hSplit => by simp at hSplit, fun _ => ⟨none, rfl⟩⟩
  | cons x rest ih =>
      obtain ⟨⟨slot, shape⟩, got⟩ := x
      have hElements {n : Nat} := Shape.elements_eq_ok (n := n) (hRank _ List.mem_cons_self)
      have hRest := ih fun y hy => hRank y (List.mem_cons_of_mem _ hy)
      simp only [firstShort, Checked.bind_eq_ok, hElements]
      rw [countable_cons, ← hRest]
      constructor
      · rintro ⟨found, _, ⟨hFormable, rfl⟩, hFound⟩
        refine ⟨hFormable, fun hFits => ?_⟩
        rw [if_neg (Nat.not_lt.2 hFits)] at hFound
        exact ⟨found, hFound⟩
      · rintro ⟨hFormable, hFound⟩
        rcases Nat.lt_or_ge got shape.prod with hShort | hFits
        · exact ⟨_, _, ⟨hFormable, rfl⟩, if_pos hShort⟩
        · obtain ⟨found, hFound⟩ := hFound hFits
          exact ⟨found, _, ⟨hFormable, rfl⟩, (if_neg (Nat.not_lt.2 hFits)).trans hFound⟩

/-- Every size that the check of a call comes to can be formed. -/
def Sized (a : Attention) (call : Call) (memory : Memory) : Prop :=
  let d := a.dims.filled call.dims
  Countable (d.dataShapes.zip (dataLengths call memory)) ∧
    (shortBuffers d call memory = [] → Layout.Plannable d a.threads)

/-- A workspace is divided or refused, without a fault, if the end of its layout can be formed. -/
theorem exists_split {w : Workspace} {layout : Layout} {needed : Nat}
    (hNeeded : layout.totalBytes = .ok needed) : ∃ answer, w.split layout = .ok answer := by
  have hSafe : FaultsOnly (fun _ => False) (w.split layout) := by
    refine .bind_ok hNeeded ?_
    split
    · exact .pure _
    · split <;> exact .pure _
  exact hSafe.exists_value

/-- The check of a call ends with an answer if a dimension is missing or all sizes can be formed. A
missing dimension is found before any size is. -/
theorem exists_preflight_iff :
    (∃ answer, a.preflight call memory = .ok answer) ↔
      (a.dims.missing call.dims = [] → a.Sized call memory) := by
  rw [preflight, Dims.resolve_eq]
  cases hMissing : a.dims.missing call.dims with
  | cons e rest => exact iff_of_true ⟨_, rfl⟩ fun hNone => by cases hNone
  | nil =>
      have hShapes := exists_firstShort_iff
        (rank_of_mem_dataShapes (a.dims.filled call.dims) call memory)
      simp only [List.head?_nil, Checked.bind_eq_ok, true_implies, Sized, ← hShapes,
        ← Layout.exists_plan_iff]
      constructor
      · rintro ⟨answer, found, hFound, h⟩
        refine ⟨⟨found, hFound⟩, fun hNone => ?_⟩
        obtain rfl := eq_head?_of_firstShort hFound
        rw [hNone] at h
        obtain ⟨layout, hPlan, h⟩ := Checked.bind_eq_ok.1 h
        obtain ⟨_, hSplit, -⟩ := Checked.bind_eq_ok.1 h
        obtain ⟨needed, hNeeded, -⟩ := Checked.bind_eq_ok.1 hSplit
        exact ⟨layout, needed, hPlan, hNeeded⟩
      · rintro ⟨⟨found, hFound⟩, hPlanned⟩
        obtain rfl := eq_head?_of_firstShort hFound
        cases hShort : shortBuffers (a.dims.filled call.dims) call memory with
        | cons e rest =>
            rw [hShort] at hFound
            exact ⟨_, _, hFound, rfl⟩
        | nil =>
            obtain ⟨layout, needed, hPlan, hNeeded⟩ := hPlanned hShort
            obtain ⟨answer, hSplit⟩ := exists_split (w := memory.workspace) hNeeded
            rw [hShort] at hFound
            cases answer with
            | error e =>
                exact ⟨.error e, none, hFound, Checked.bind_eq_ok.2 ⟨layout, hPlan,
                  Checked.bind_eq_ok.2 ⟨_, hSplit, rfl⟩⟩⟩
            | ok regions =>
                exact ⟨.ok (layout, regions), none, hFound, Checked.bind_eq_ok.2 ⟨layout, hPlan,
                  Checked.bind_eq_ok.2 ⟨_, hSplit, rfl⟩⟩⟩

/-- What a call brings along when its check has passed: shapes that could be counted, and a layout
that can be planned. -/
theorem sized_preflight {layout : Layout} {regions : WorkspaceRegions}
    (h : a.preflight call memory = .ok (.ok (layout, regions))) :
    Countable (layout.dims.dataShapes.zip (dataLengths call memory)) ∧
      Layout.Plannable layout.dims a.threads := by
  obtain ⟨hNone, rfl, -⟩ := preflight_accepted h
  rw [List.head?_eq_none_iff, problems, List.append_eq_nil_iff, List.append_eq_nil_iff] at hNone
  obtain ⟨⟨hMissing, hShort⟩, -⟩ := hNone
  obtain ⟨hCountable, hPlannable⟩ := exists_preflight_iff.1 ⟨_, h⟩ hMissing
  exact ⟨hCountable, hPlannable hShort⟩

/-- A call that has passed its check has its layout planned to the end. -/
theorem plan_of_preflight {layout : Layout} {regions : WorkspaceRegions}
    (h : a.preflight call memory = .ok (.ok (layout, regions))) :
    Layout.plan layout.dims a.threads = .ok layout := by
  obtain ⟨-, rfl, -⟩ := preflight_accepted h
  obtain ⟨layout, -, hPlan, -⟩ := Layout.exists_plan_iff.2 (sized_preflight h).2
  rw [hPlan, Layout.eq_ofDims_of_plan hPlan]
  rfl

/-- The size of a workspace for a call has an answer exactly if a dimension is missing, which is an
answer too, or no step of planning leaves the range of a size. -/
theorem exists_workspaceBytesFor_iff {called : CallDims} :
    (∃ answer, a.workspaceBytesFor called = .ok answer) ↔
      (a.dims.missing called = [] → Layout.Plannable (a.dims.filled called) a.threads) := by
  rw [workspaceBytesFor, Dims.resolve_eq]
  cases hMissing : a.dims.missing called with
  | cons e rest => exact iff_of_true ⟨_, rfl⟩ fun hNone => by cases hNone
  | nil =>
      simp only [List.head?_nil, Checked.bind_eq_ok, Checked.pure_eq_ok, true_implies,
        ← Layout.exists_plan_iff]
      constructor
      · rintro ⟨answer, layout, hPlan, needed, hNeeded, -⟩
        exact ⟨layout, needed, hPlan, hNeeded⟩
      · rintro ⟨layout, needed, hPlan, hNeeded⟩
        exact ⟨_, layout, hPlan, needed, hNeeded, rfl⟩

/-- The check of a call and the size of its workspace fault in one way only, and exactly where a
dimension is not missing and a size that they come to cannot be formed. -/
theorem preflight_eq_error_iff (a : Attention) (call : Call) (memory : Memory) (called : CallDims)
    (fault : Fault) :
    (a.preflight call memory = .error fault ↔
      fault = .sizeOverflow ∧ a.dims.missing call.dims = [] ∧ ¬a.Sized call memory) ∧
    (a.workspaceBytesFor called = .error fault ↔
      fault = .sizeOverflow ∧ a.dims.missing called = [] ∧
        ¬Layout.Plannable (a.dims.filled called) a.threads) := by
  have hCheck : FaultsOnly (fun fault => fault = .sizeOverflow) (a.preflight call memory) :=
    preflight_faultsOnly rfl
  have hBytes : FaultsOnly (fun fault => fault = .sizeOverflow) (a.workspaceBytesFor called) := by
    rw [workspaceBytesFor]
    split
    · exact .ok _
    · refine .bind (Layout.plan_faultsOnly _ _ rfl) fun layout _ => ?_
      exact .bind (Layout.stop_faultsOnly _ rfl) fun _ _ => .pure _
  rw [hCheck.eq_error_iff exists_preflight_iff, hBytes.eq_error_iff exists_workspaceBytesFor_iff,
    Classical.not_imp, Classical.not_imp]
  exact ⟨.rfl, .rfl⟩

/-- A call for very many batches, heads and queries, of which none has an entry. -/
def hollowCall : Call where
  queries := #[]
  keys := #[]
  values := #[]
  mask := #[]
  queryScale := #[]
  keyScale := #[]
  valueScale := #[]
  dims := ⟨some 2147483647, some 2147483647, some 2147483647, some 0, some 0⟩

/-- No tensor of the hollow call has more than `2 ^ 62` elements, and that of the queries has none.
Their number is formed from the left all the same, and the check faults before it comes to the zero.
-/
theorem preflight_hollow :
    ∃ a, ofDescriptor (Config.ofDims ⟨0, 0, 0, 0, 0⟩).descriptor .amx { numThreads := some 1 }
        .portable 1 = .ok a ∧
      (∀ x ∈ (a.dims.filled hollowCall.dims).dataShapes, x.2.prod < 2 ^ 62) ∧
      a.preflight hollowCall ⟨#[], #[], ⟨0, #[]⟩⟩ = .error .sizeOverflow :=
  ⟨⟨⟨0, 0, 0, 0, 0⟩, 1, true, .wide⟩, rfl, by decide, rfl⟩

end Attention

end QuantAttention
