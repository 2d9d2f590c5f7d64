import Mathlib.Algebra.Ring.Nat
import QuantAttention.Attention.Call
import QuantAttention.Proofs.Layout

/-! What is checked before a call writes anything. The problems of a call are listed in one order,
and the first of them is the answer. -/

namespace QuantAttention

namespace Dims

variable {d : Dims} {called : CallDims} {fixed : Nat} {value : Option Int} {slot : Slot}

/-- A dimension is open and the call brings no number of entries for it. -/
def Missing (fixed : Nat) (value : Option Int) : Prop := fixed = 0 ∧ ∀ n ∈ value, n < 0

instance (fixed : Nat) (value : Option Int) : Decidable (Missing fixed value) := by
  unfold Missing
  infer_instance

/-- A dimension, taken from the call where it is open. -/
def fill (fixed : Nat) (value : Option Int) : Nat :=
  if fixed = 0 then (value.getD 0).toNat else fixed

/-- The dimensions of a call in which none is missing. -/
def filled (d : Dims) (called : CallDims) : Dims where
  batchSize := fill d.batchSize called.batchSize
  headNum := fill d.headNum called.headNum
  seqQ := fill d.seqQ called.seqQ
  seqK := fill d.seqK called.seqK
  headSize := fill d.headSize called.headSize

/-- Each dimension with what the call brings for it, in the order in which they are asked for. -/
def asked (d : Dims) (called : CallDims) : List (Nat × Option Int × Slot) :=
  [(d.batchSize, called.batchSize, .batchSize), (d.headNum, called.headNum, .headNum),
    (d.seqQ, called.seqQ, .m), (d.seqK, called.seqK, .n), (d.headSize, called.headSize, .headSize)]

def missing (d : Dims) (called : CallDims) : List AttentionError :=
  (d.asked called).filterMap fun (fixed, value, slot) =>
    if Missing fixed value then some (.missingDim slot) else none

/-- A dimension of a call is the fixed one, or else the one that the call brings along, if that is
positive. -/
theorem choose_eq (fixed : Nat) (value : Option Int) (slot : Slot) :
    choose fixed value slot =
      if Missing fixed value then .error (.missingDim slot) else .ok (fill fixed value) := by
  simp only [choose, fill]
  rcases Nat.eq_zero_or_pos fixed with rfl | hFixed
  · cases value with
    | none => simp [Missing]
    | some n =>
        by_cases hn : 0 ≤ n
        · simp [Missing, hn, Int.not_lt.2 hn]
        · simp [Missing, hn, Int.not_le.1 hn]
  · have hOpen : fixed ≠ 0 := by omega
    have hGiven : ¬Missing fixed value := fun h => hOpen h.1
    rw [if_pos hFixed, if_neg hGiven, if_neg hOpen]

/-- Dimensions are found, or the first that is missing is named. The order is that in which they are
asked for, whatever else is wrong with the call. -/
theorem resolve_eq (d : Dims) (called : CallDims) :
    d.resolve called =
      match (d.missing called).head? with
      | some e => .error e
      | none => .ok (d.filled called) := by
  simp only [resolve, choose_eq, missing, asked, List.filterMap_cons, List.filterMap_nil]
  by_cases hBatch : Missing d.batchSize called.batchSize
  · simp [hBatch, bind, Except.bind]
  by_cases hHead : Missing d.headNum called.headNum
  · simp [hBatch, hHead, bind, Except.bind]
  by_cases hQuery : Missing d.seqQ called.seqQ
  · simp [hBatch, hHead, hQuery, bind, Except.bind]
  by_cases hKey : Missing d.seqK called.seqK
  · simp [hBatch, hHead, hQuery, hKey, bind, Except.bind]
  by_cases hSize : Missing d.headSize called.headSize
  · simp [hBatch, hHead, hQuery, hKey, hSize, bind, Except.bind]
  · simp [hBatch, hHead, hQuery, hKey, hSize, bind, Except.bind, pure, Except.pure, filled]

theorem resolve_eq_ok {dims : Dims} :
    d.resolve called = .ok dims ↔ d.missing called = [] ∧ d.filled called = dims := by
  rw [resolve_eq]
  cases hMissing : d.missing called <;> simp

/-- Dimensions that have been found are those that are filled in. -/
theorem filled_of_resolve {dims : Dims} (h : d.resolve called = .ok dims) :
    d.filled called = dims := (resolve_eq_ok.1 h).2

end Dims

namespace Shape

/-- The elements of a tensor can be counted if the product of its dimensions can be formed, from the
left and with every partial product a size. -/
theorem elements_eq_ok {ds : List Nat} {n : Nat} (hRank : ds ≠ []) :
    (Shape.mk ds).elements = .ok n ↔ Formable ds ∧ n = ds.prod := by
  obtain ⟨d, rest, rfl⟩ := List.exists_cons_of_ne_nil hRank
  have hSome : (Shape.mk (d :: rest)).isEmpty = false := rfl
  rw [elements, hSome, if_neg Bool.false_ne_true, Size.literal, List.foldl_cons,
    Size.eval_foldl_mul_eq_ok, Nat.one_mul]

theorem fold_faultsOnly {allowed : Fault → Prop} (h : allowed .sizeOverflow) (ds : List Nat)
    {start : Size} (hStart : FaultsOnly allowed start.eval) :
    FaultsOnly allowed
      (ds.foldl (fun (product : Size) (d : Nat) => product * (d : Size)) start).eval := by
  induction ds generalizing start with
  | nil => exact hStart
  | cons d rest ih => exact ih (.mul hStart (.ok d) h)

/-- Counting the elements of a shape can only leave the range of a size. -/
theorem elements_faultsOnly {allowed : Fault → Prop} (h : allowed .sizeOverflow) (s : Shape) :
    FaultsOnly allowed s.elements := by
  rw [elements]
  split
  · exact .ok 0
  · exact fold_faultsOnly h _ (.ok 1)

end Shape

namespace Attention

variable {a : Attention} {d : Dims} {call : Call} {memory : Memory} {layout : Layout}
  {regions : WorkspaceRegions} {e : AttentionError} {allowed : Fault → Prop}

def shortage (slot : Slot) (needed got : Nat) : Option AttentionError :=
  if got < needed then some (.bufferTooSmall slot needed got) else none

def shortBuffers (d : Dims) (call : Call) (memory : Memory) : List AttentionError :=
  let queries := d.batchSize * d.seqQ
  let keys := d.batchSize * d.seqK
  let token := d.headNum * d.headSize
  [shortage .srcQ (queries * token) call.queries.size,
    shortage .srcK (keys * token) call.keys.size,
    shortage .srcV (keys * token) call.values.size,
    shortage .dst (queries * token) memory.output.size,
    shortage .binaryAdd keys call.mask.size,
    shortage .qScale queries call.queryScale.size,
    shortage .kScale keys call.keyScale.size,
    shortage .vScale keys call.valueScale.size,
    shortage .dstScale queries memory.outputScale.size].filterMap id

def workspaceProblems (d : Dims) (threads : Nat) (w : Workspace) : List AttentionError :=
  (if w.bytes.size < Layout.bytesFor d threads then
      [.workspaceTooSmall (Layout.bytesFor d threads) w.bytes.size] else []) ++
    if w.address % 4 ≠ 0 then [.misalignedBuffer "workspace"] else []

/-- The problems of a call in the order in which they are looked for. Those of the buffers do not
count before every dimension is known. -/
def problems (a : Attention) (call : Call) (memory : Memory) : List AttentionError :=
  let d := a.dims.filled call.dims
  a.dims.missing call.dims ++ shortBuffers d call memory ++
    workspaceProblems d a.threads memory.workspace

/-- The first short buffer of a list, with shapes as products. The search forms these products one
by one, and here they are numbers. -/
theorem eq_findSome?_of_firstShort {xs : List ((Slot × List Nat) × Nat)}
    (hRank : ∀ x ∈ xs, x.1.2 ≠ []) {found : Option AttentionError}
    (h : firstShort xs = .ok found) :
    found = xs.findSome? fun x => shortage x.1.1 x.1.2.prod x.2 := by
  induction xs with
  | nil =>
      cases h
      rfl
  | cons x rest ih =>
      obtain ⟨⟨slot, shape⟩, got⟩ := x
      simp only [firstShort, Checked.bind_eq_ok] at h
      obtain ⟨needed, hNeeded, h⟩ := h
      obtain ⟨-, rfl⟩ := (Shape.elements_eq_ok (hRank _ List.mem_cons_self)).1 hNeeded
      rw [List.findSome?_cons, shortage]
      split at h
      · next hShort =>
        cases h
        rw [if_pos hShort]
      · next hFits =>
        rw [if_neg hFits]
        exact ih (fun y hy => hRank y (List.mem_cons_of_mem _ hy)) h

/-- So can the search for a buffer that is too short, which counts one shape after the other. -/
theorem firstShort_faultsOnly (h : allowed .sizeOverflow) (xs : List ((Slot × List Nat) × Nat)) :
    FaultsOnly allowed (firstShort xs) := by
  induction xs with
  | nil => exact .ok none
  | cons x rest ih =>
      refine .bind (Shape.elements_faultsOnly h _) fun needed _ => ?_
      split
      · exact .pure _
      · exact ih

theorem rank_of_mem_dataShapes (d : Dims) (call : Call) (memory : Memory) :
    ∀ x ∈ d.dataShapes.zip (dataLengths call memory), x.1.2 ≠ [] := by
  intro x hx
  have hShape := (List.of_mem_zip hx).1
  simp only [Dims.dataShapes, List.mem_cons, List.not_mem_nil, or_false] at hShape
  rcases hShape with h | h | h | h | h | h | h | h | h <;> simp [h]

/-- Both lists of the check, shapes and lengths, name the buffers in the same order, so the first
short one is the first problem. -/
theorem eq_head?_of_firstShort {found : Option AttentionError}
    (h : firstShort (d.dataShapes.zip (dataLengths call memory)) = .ok found) :
    found = (shortBuffers d call memory).head? := by
  rw [eq_findSome?_of_firstShort (rank_of_mem_dataShapes d call memory) h, shortBuffers,
    List.head?_filterMap]
  simp only [Dims.dataShapes, dataLengths, List.zip_cons_cons, List.zip_nil_left,
    List.findSome?_cons, List.findSome?_nil, List.prod_cons, List.prod_nil, Nat.mul_one,
    Nat.one_mul, Nat.mul_assoc, id]

/-- A buffer is not short if it has as many entries as are needed. More are no problem. -/
theorem shortage_eq_none {slot : Slot} {needed got : Nat} :
    shortage slot needed got = none ↔ needed ≤ got := by
  rw [shortage]
  split <;> simp <;> omega

/-- Every data buffer is as long as its shape. -/
structure Fits (d : Dims) (call : Call) (memory : Memory) : Prop where
  queries : d.batchSize * d.seqQ * (d.headNum * d.headSize) ≤ call.queries.size
  keys : d.batchSize * d.seqK * (d.headNum * d.headSize) ≤ call.keys.size
  values : d.batchSize * d.seqK * (d.headNum * d.headSize) ≤ call.values.size
  output : d.batchSize * d.seqQ * (d.headNum * d.headSize) ≤ memory.output.size
  mask : d.batchSize * d.seqK ≤ call.mask.size
  queryScale : d.batchSize * d.seqQ ≤ call.queryScale.size
  keyScale : d.batchSize * d.seqK ≤ call.keyScale.size
  valueScale : d.batchSize * d.seqK ≤ call.valueScale.size
  outputScale : d.batchSize * d.seqQ ≤ memory.outputScale.size

/-- If no buffer is the first short one, all buffers are long enough. -/
theorem fits_of_shortBuffers (h : (shortBuffers d call memory).head? = none) :
    Fits d call memory := by
  simp only [shortBuffers, List.head?_filterMap, List.findSome?_eq_none_iff, id, List.mem_cons,
    List.not_mem_nil, or_false, forall_eq_or_imp, forall_eq, shortage_eq_none] at h
  obtain ⟨h₁, h₂, h₃, h₄, h₅, h₆, h₇, h₈, h₉⟩ := h
  exact ⟨h₁, h₂, h₃, h₄, h₅, h₆, h₇, h₈, h₉⟩

/-- A workspace that is long enough is misaligned in all its regions or in none, as the regions that
hold numbers start at multiples of four. -/
theorem holdsNumbers_iff (d : Dims) (threads : Nat) (w : Workspace) :
    (w.holdsNumbers (Layout.ofDims d threads).mask &&
      w.holdsNumbers (Layout.ofDims d threads).valueScale) = true ↔ w.address % 4 = 0 := by
  obtain ⟨hMask, hOffset, hScale⟩ := Layout.four_dvd_ofDims d threads
  have hStart : (Layout.ofDims d threads).mask.offset = 0 := rfl
  simp only [Workspace.holdsNumbers, Bool.and_eq_true, decide_eq_true_eq]
  omega

/-- Dividing a workspace ends with the first of its problems, or with regions. -/
theorem split_cases {w : Workspace} {threads : Nat}
    {r : Except AttentionError WorkspaceRegions}
    (h : w.split (Layout.ofDims d threads) = .ok r) :
    match (workspaceProblems d threads w).head? with
    | some e => r = .error e
    | none => ∃ regions, r = .ok regions := by
  obtain ⟨needed, hNeeded, h⟩ := Checked.bind_eq_ok.1 h
  obtain rfl := Layout.eq_bytesFor_of_totalBytes hNeeded
  rw [workspaceProblems]
  split at h
  · next hShort =>
    cases h
    simp [hShort]
  · next hLong =>
    rw [if_neg hLong, List.nil_append]
    split at h
    · next hMisaligned =>
      cases h
      have hAddress : w.address % 4 ≠ 0 := by
        rw [Bool.not_eq_true', ← Bool.not_eq_true, holdsNumbers_iff] at hMisaligned
        exact hMisaligned
      simp [hAddress]
    · next hAligned =>
      cases h
      have hAddress : w.address % 4 = 0 := by
        rw [Bool.not_eq_true', Bool.not_eq_false, holdsNumbers_iff] at hAligned
        exact hAligned
      simp [hAddress]

theorem split_faultsOnly (h : allowed .sizeOverflow) (w : Workspace) (l : Layout) :
    FaultsOnly allowed (w.split l) := by
  refine .bind (Layout.stop_faultsOnly _ h) fun needed _ => ?_
  split
  · exact .pure _
  · split
    · exact .pure _
    · exact .pure _

/-- The answer of the check, if it has one: the first problem, or else the layout and the regions of
the workspace. -/
theorem preflight_cases {r : Except AttentionError (Layout × WorkspaceRegions)}
    (h : a.preflight call memory = .ok r) :
    match (a.problems call memory).head? with
    | some e => r = .error e
    | none => Fits (a.dims.filled call.dims) call memory ∧ ∃ regions,
        r = .ok (Layout.ofDims (a.dims.filled call.dims) a.threads, regions) ∧
        memory.workspace.split (Layout.ofDims (a.dims.filled call.dims) a.threads) =
          .ok (.ok regions) := by
  rw [preflight, Dims.resolve_eq] at h
  simp only [problems, List.head?_append]
  cases hMissing : (a.dims.missing call.dims).head? with
  | some e =>
      rw [hMissing] at h
      cases h
      rfl
  | none =>
      rw [hMissing] at h
      obtain ⟨found, hFound, h⟩ := Checked.bind_eq_ok.1 h
      rw [eq_head?_of_firstShort hFound] at h
      cases hShort : (shortBuffers (a.dims.filled call.dims) call memory).head? with
      | some e =>
          rw [hShort] at h
          cases h
          rfl
      | none =>
          rw [hShort] at h
          obtain ⟨layout, hLayout, h⟩ := Checked.bind_eq_ok.1 h
          obtain rfl := Layout.eq_ofDims_of_plan hLayout
          obtain ⟨answer, hSplit, h⟩ := Checked.bind_eq_ok.1 h
          have hCases := split_cases hSplit
          simp only [Option.none_or]
          cases hWorkspace :
              (workspaceProblems (a.dims.filled call.dims) a.threads memory.workspace).head? with
          | some e =>
              rw [hWorkspace] at hCases
              obtain rfl := hCases
              cases h
              rfl
          | none =>
              rw [hWorkspace] at hCases
              obtain ⟨regions, rfl⟩ := hCases
              cases h
              exact ⟨fits_of_shortBuffers hShort, regions, rfl, hSplit⟩

/-- A call passes the check with the layout and the regions that its dimensions have, and with
buffers that are long enough for them. -/
theorem preflight_accepted {layout : Layout} {regions : WorkspaceRegions}
    (h : a.preflight call memory = .ok (.ok (layout, regions))) :
    (a.problems call memory).head? = none ∧
      layout = Layout.ofDims (a.dims.filled call.dims) a.threads ∧
      Fits (a.dims.filled call.dims) call memory ∧
      memory.workspace.split layout = .ok (.ok regions) := by
  have hCases := preflight_cases h
  cases hFirst : (a.problems call memory).head? with
  | some e =>
      rw [hFirst] at hCases
      cases hCases
  | none =>
      rw [hFirst] at hCases
      obtain ⟨hFits, _, hFound, hSplit⟩ := hCases
      cases hFound
      exact ⟨rfl, rfl, hFits, hSplit⟩

/-- The check can only leave the range of a size. In particular it reads no buffer, so it cannot
read behind the end of one. -/
theorem preflight_faultsOnly (h : allowed .sizeOverflow) :
    FaultsOnly allowed (a.preflight call memory) := by
  rw [preflight]
  split
  · exact .ok _
  · refine .bind (firstShort_faultsOnly h _) fun found _ => ?_
    split
    · exact .pure _
    · refine .bind (Layout.plan_faultsOnly _ _ h) fun layout _ => ?_
      refine .bind (split_faultsOnly h _ _) fun answer _ => ?_
      split
      · exact .pure _
      · exact .pure _

end Attention

end QuantAttention
