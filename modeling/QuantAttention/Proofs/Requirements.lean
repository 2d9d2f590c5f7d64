import QuantAttention.Proofs.Acceptance

/-! Which error a descriptor is refused with. The requirements on a descriptor are written down once
more, as a list of independent conditions, each with the error that names it. A descriptor is refused
with the error of the first condition of the list that does not hold, whatever follows it. -/

namespace QuantAttention

/-- Checks that are made one after the other fail as the first of them that fails. Those behind it
are not made. -/
theorem AttentionError.forM_eq_error {α : Type} {xs : List α}
    {check : α → Except AttentionError Unit} {e : AttentionError} :
    xs.forM check = .error e ↔
      ∃ before x after, xs = before ++ x :: after ∧ (∀ y ∈ before, check y = .ok ()) ∧
        check x = .error e := by
  induction xs with
  | nil =>
      constructor
      · intro h
        cases h
      · rintro ⟨before, x, after, hSplit, -⟩
        simp at hSplit
  | cons x rest ih =>
      show (check x >>= fun _ => rest.forM check) = .error e ↔ _
      cases hFirst : check x with
      | error e' =>
          constructor
          · intro h
            exact ⟨[], x, rest, rfl, by simp, hFirst.trans h⟩
          · rintro ⟨before, y, after, hSplit, hBefore, hError⟩
            cases before with
            | nil =>
                obtain ⟨rfl, -⟩ := List.cons.inj hSplit
                exact hFirst.symm.trans hError
            | cons z before =>
                obtain ⟨rfl, -⟩ := List.cons.inj hSplit
                cases hFirst.symm.trans (hBefore x List.mem_cons_self)
      | ok =>
          show rest.forM check = .error e ↔ _
          rw [ih]
          constructor
          · rintro ⟨before, y, after, rfl, hBefore, hError⟩
            exact ⟨x :: before, y, after, rfl, List.forall_mem_cons.2 ⟨hFirst, hBefore⟩, hError⟩
          · rintro ⟨before, y, after, hSplit, hBefore, hError⟩
            cases before with
            | nil =>
                obtain ⟨rfl, -⟩ := List.cons.inj hSplit
                cases hFirst.symm.trans hError
            | cons z before =>
                obtain ⟨rfl, hRest⟩ := List.cons.inj hSplit
                exact ⟨before, y, after, hRest, (List.forall_mem_cons.1 hBefore).2, hError⟩

/-- One condition on a descriptor and its host. -/
inductive Requirement where
  /-- The host has the instructions of the operator. -/
  | amxInt8
  /-- An attribute has the value that the operator needs. -/
  | flag (key expected : String)
  /-- A shape has four entries. -/
  | rank (slot : Slot)
  /-- A dimension is given, or else a scalar is declared for it. -/
  | scalar (dim : Dims → Nat) (slot : Slot)
  | shape (slot : Slot) (expected : Dims → List Nat)
  | empty (slot : Slot)
  | elementType (slot : Slot) (expected : ElementType)

namespace Requirement

/-- All requirements, the most important first. -/
def order : List Requirement :=
  [.amxInt8,
    .flag "approx_exp" "True",
    .flag "stable_softmax" "False",
    .rank .srcQ,
    .rank .srcK,
    .scalar Dims.batchSize .batchSize,
    .scalar Dims.headNum .headNum,
    .scalar Dims.headSize .headSize,
    .scalar Dims.seqQ .m,
    .scalar Dims.seqK .n,
    .shape .srcQ fun d => [d.batchSize, d.seqQ, d.headNum, d.headSize],
    .shape .srcK fun d => [d.batchSize, d.seqK, d.headNum, d.headSize],
    .shape .srcV fun d => [d.batchSize, d.seqK, d.headNum, d.headSize],
    .shape .dst fun d => [d.batchSize, d.seqQ, d.headNum, d.headSize],
    .shape .binaryAdd fun d => [d.batchSize, 1, 1, d.seqK],
    .shape .qScale fun d => [d.batchSize, d.seqQ],
    .shape .kScale fun d => [d.batchSize, d.seqK],
    .shape .vScale fun d => [d.batchSize, d.seqK],
    .shape .dstScale fun d => [d.batchSize, d.seqQ],
    .empty .qZeroPoint,
    .empty .kZeroPoint,
    .empty .vZeroPoint,
    .empty .dstZeroPoint,
    .empty .srcDstScale,
    .empty .srcDstZeroPoint,
    .elementType .srcQ .s8,
    .elementType .srcK .s8,
    .elementType .srcV .s8,
    .elementType .dst .s8,
    .elementType .binaryAdd .f32,
    .elementType .qScale .f32,
    .elementType .kScale .f32,
    .elementType .vScale .f32,
    .elementType .dstScale .f32]

/-- The condition. The dimensions are those that the query and key shapes name. -/
def Holds (x : OperatorDesc) (host : Capability) : Requirement → Prop
  | amxInt8 => host.amxInt8 = true
  | flag key expected => x.attr key = some expected
  | rank slot => (x.shape slot).rank = 4
  | scalar dim slot => dim x.namedDims = 0 → x.shape slot = .scalar ∧ x.elementType slot = .s32
  | shape slot expected => (x.shape slot).dims = expected x.namedDims
  | empty slot => (x.shape slot).dims = []
  | elementType slot expected => x.elementType slot = expected

def error (x : OperatorDesc) : Requirement → AttentionError
  | amxInt8 => .unsupportedIsa "amx_int8"
  | flag key expected => .missingAttribute key expected
  | rank slot => .shapeMismatch slot [0, 0, 0, 0] (x.shape slot).dims
  | scalar _ slot => .unresolvedDim slot
  | shape slot expected => .shapeMismatch slot (expected x.namedDims) (x.shape slot).dims
  | empty slot => .unexpectedTensor slot
  | elementType slot expected => .unsupportedElementType slot (x.elementType slot) expected

/-- Two descriptors, each with its host, are the same in what the requirement looks at: of a shape with
four entries only that it has four, of a scalar slot nothing where the dimension is given. -/
def Agrees (x y : OperatorDesc) (host other : Capability) : Requirement → Prop
  | amxInt8 => host.amxInt8 = other.amxInt8
  | flag key _ => x.attr key = y.attr key
  | rank slot =>
    x.shape slot = y.shape slot ∨ (x.shape slot).rank = 4 ∧ (y.shape slot).rank = 4
  | scalar dim slot =>
    dim x.namedDims = dim y.namedDims ∧ (dim x.namedDims = 0 → x.tensor slot = y.tensor slot)
  | shape slot expected =>
    expected x.namedDims = expected y.namedDims ∧ x.shape slot = y.shape slot
  | empty slot => (x.tensor slot).isEmpty = (y.tensor slot).isEmpty
  | elementType slot _ => x.elementType slot = y.elementType slot

variable {x y : OperatorDesc} {host other : Capability} {r : Requirement}

instance : (r : Requirement) → Decidable (r.Holds x host)
  | amxInt8 => inferInstanceAs (Decidable (host.amxInt8 = true))
  | flag key expected => inferInstanceAs (Decidable (x.attr key = some expected))
  | rank slot => inferInstanceAs (Decidable ((x.shape slot).rank = 4))
  | scalar dim slot => inferInstanceAs (Decidable
    (dim x.namedDims = 0 → x.shape slot = .scalar ∧ x.elementType slot = .s32))
  | shape slot expected => inferInstanceAs (Decidable ((x.shape slot).dims = expected x.namedDims))
  | empty slot => inferInstanceAs (Decidable ((x.shape slot).dims = []))
  | elementType slot expected => inferInstanceAs (Decidable (x.elementType slot = expected))

instance : (r : Requirement) → Decidable (r.Agrees x y host other)
  | amxInt8 => inferInstanceAs (Decidable (host.amxInt8 = other.amxInt8))
  | flag key _ => inferInstanceAs (Decidable (x.attr key = y.attr key))
  | rank slot => inferInstanceAs (Decidable
    (x.shape slot = y.shape slot ∨ (x.shape slot).rank = 4 ∧ (y.shape slot).rank = 4))
  | scalar dim slot => inferInstanceAs (Decidable
    (dim x.namedDims = dim y.namedDims ∧ (dim x.namedDims = 0 → x.tensor slot = y.tensor slot)))
  | shape slot expected => inferInstanceAs (Decidable
    (expected x.namedDims = expected y.namedDims ∧ x.shape slot = y.shape slot))
  | empty slot => inferInstanceAs (Decidable ((x.tensor slot).isEmpty = (y.tensor slot).isEmpty))
  | elementType slot _ => inferInstanceAs (Decidable (x.elementType slot = y.elementType slot))

theorem isConfiguration_error (x : OperatorDesc) (r : Requirement) :
    (r.error x).isConfiguration = true := by
  cases r <;> rfl

/-- Whether a requirement holds is decided by what it looks at. -/
theorem Agrees.holds_iff (h : r.Agrees x y host other) : r.Holds x host ↔ r.Holds y other := by
  cases r with
  | amxInt8 => exact Eq.congr_left h
  | flag key expected => exact Eq.congr_left h
  | rank slot =>
      obtain hShape | ⟨hx, hy⟩ := h
      · exact Eq.congr_left (congrArg Shape.rank hShape)
      · exact iff_of_true hx hy
  | scalar dim slot =>
      obtain ⟨hDim, hTensor⟩ := h
      simp only [Holds, ← hDim]
      refine forall_congr' fun hOpen => ?_
      rw [OperatorDesc.shape, OperatorDesc.elementType, hTensor hOpen]
      rfl
  | shape slot expected =>
      obtain ⟨hExpected, hShape⟩ := h
      rw [Holds, Holds, hExpected, hShape]
  | empty slot =>
      have hSame : (x.tensor slot).isEmpty = true ↔ (y.tensor slot).isEmpty = true := by
        rw [show (x.tensor slot).isEmpty = (y.tensor slot).isEmpty from h]
      exact List.isEmpty_iff.symm.trans (hSame.trans List.isEmpty_iff)
  | elementType slot expected => exact Eq.congr_left h

/-- The errors are the same, with all that they report, for the reports are taken from the parts
that agree. -/
theorem Agrees.error_eq (h : r.Agrees x y host other) (hFails : ¬r.Holds x host) :
    r.error x = r.error y := by
  cases r with
  | amxInt8 => rfl
  | flag key expected => rfl
  | rank slot =>
      obtain hShape | ⟨hx, -⟩ := h
      · rw [error, error, hShape]
      · exact absurd hx hFails
  | scalar dim slot => rfl
  | shape slot expected =>
      obtain ⟨hExpected, hShape⟩ := h
      rw [error, error, hExpected, hShape]
  | empty slot => rfl
  | elementType slot expected =>
      have hType : x.elementType slot = y.elementType slot := h
      rw [error, error, hType]

def check (x : OperatorDesc) (host : Capability) (r : Requirement) : Except AttentionError Unit :=
  if r.Holds x host then .ok () else .error (r.error x)

/-- A check passes exactly if its requirement holds. -/
theorem check_eq_ok : r.check x host = .ok () ↔ r.Holds x host := by
  rw [check]
  split <;> simp [*]

/-- It fails exactly if the requirement does not hold, and with one error only. -/
theorem check_eq_error {e : AttentionError} :
    r.check x host = .error e ↔ ¬r.Holds x host ∧ e = r.error x := by
  rw [check]
  split <;> simp [*, eq_comm]

end Requirement

namespace OperatorDesc

open Requirement

variable {x y : OperatorDesc} {host other : Capability} {slot : Slot}

theorem check_amxInt8 : Requirement.amxInt8.check x host =
    if host.amxInt8 then .ok () else .error (.unsupportedIsa "amx_int8") := rfl

theorem check_flag (key expected : String) :
    (Requirement.flag key expected).check x host = x.checkAttribute key expected := rfl

theorem check_scalar (dim : Dims → Nat) :
    (Requirement.scalar dim slot).check x host = x.checkDim (dim x.namedDims) slot := by
  rw [checkDim, check]
  split
  · next hScalar => rw [if_neg fun hOpen => hOpen.2 (hScalar hOpen.1)]
  · next hOpen =>
    rw [if_pos, error]
    exact Classical.not_imp.1 hOpen

theorem check_shape (expected : Dims → List Nat) :
    (Requirement.shape slot expected).check x host = x.checkShape slot (expected x.namedDims) := rfl

theorem check_empty : (Requirement.empty slot).check x host = x.checkEmpty slot := by
  have hEmpty : (x.tensor slot).isEmpty = true ↔ (Requirement.empty slot).Holds x host :=
    List.isEmpty_iff
  simp only [checkEmpty, check, hEmpty, error]

theorem check_elementType (expected : ElementType) :
    (Requirement.elementType slot expected).check x host = x.checkElementType expected slot := rfl

/-- The dimensions are read off two shapes that have been checked for their ranks. Behind these
checks, reading them cannot fail. -/
theorem ofDescriptor_eq_check (host : Capability) : Dims.ofDescriptor x = do
    (Requirement.rank .srcQ).check x host
    (Requirement.rank .srcK).check x host
    return x.namedDims := by
  by_cases hQueries : (Requirement.rank .srcQ).Holds x host
  · by_cases hKeys : (Requirement.rank .srcK).Holds x host
    · rw [check_eq_ok.2 hQueries, check_eq_ok.2 hKeys]
      obtain ⟨batchSize, seqQ, headNum, headSize, hQueryDims⟩ := List.length_eq_four.1 hQueries
      obtain ⟨_, seqK, _, _, hKeyDims⟩ := List.length_eq_four.1 hKeys
      rw [Dims.ofDescriptor, namedDims, hQueryDims, hKeyDims]
      rfl
    · rw [check_eq_ok.2 hQueries, check_eq_error.2 ⟨hKeys, rfl⟩]
      obtain ⟨batchSize, seqQ, headNum, headSize, hQueryDims⟩ := List.length_eq_four.1 hQueries
      rw [Dims.ofDescriptor, hQueryDims]
      split
      · next hKeyDims => exact absurd (List.length_eq_four.2 ⟨_, _, _, _, hKeyDims⟩) hKeys
      · rfl
      · next hOther _ => exact (hOther _ _ _ _ rfl).elim
  · rw [check_eq_error.2 ⟨hQueries, rfl⟩, Dims.ofDescriptor]
    split
    · next hQueryDims _ => exact absurd (List.length_eq_four.2 ⟨_, _, _, _, hQueryDims⟩) hQueries
    · next hQueryDims _ => exact absurd (List.length_eq_four.2 ⟨_, _, _, _, hQueryDims⟩) hQueries
    · rfl

/-- The checks of all requirements in their order, and then the dimensions. Where checks are made in
loops, their order is that of one list. -/
theorem accept_eq_forM : x.accept host = do
    order.forM (Requirement.check x host)
    return x.namedDims := by
  rw [accept, ofDescriptor_eq_check host]
  simp only [order, List.forM_eq_forM, List.forM_cons, List.forM_nil, check_amxInt8, check_flag,
    check_scalar, check_shape, check_empty, check_elementType, bind_assoc, pure_bind, Dims.withSlots,
    Dims.dataShapes, emptySlots, activationSlots, scaleSlots]
  cases host.amxInt8 with
  | false => rfl
  | true => rfl

/-- A descriptor is refused with the error of the first requirement that does not hold, and accepted if
there is none. What the requirements behind this one look at does not matter, and the error is one of
the configuration. -/
theorem accept_first_violated (x : OperatorDesc) (host : Capability) :
    (∀ e, x.accept host = .error e ↔
      ∃ before r after, order = before ++ r :: after ∧ (∀ s ∈ before, s.Holds x host) ∧
        ¬r.Holds x host ∧ e = r.error x) ∧
    ((∀ r ∈ order, r.Holds x host) → x.accept host = .ok x.namedDims) ∧
    (∀ y other before r after, order = before ++ r :: after → (∀ s ∈ before, s.Holds x host) →
      ¬r.Holds x host → (∀ s ∈ before ++ [r], s.Agrees x y host other) →
      x.accept host = .error (r.error x) ∧ y.accept other = .error (r.error x)) ∧
    ∀ e, x.accept host = .error e → e.isConfiguration = true := by
  have hFirst (y : OperatorDesc) (other : Capability) (e : AttentionError) :
      y.accept other = .error e ↔
        ∃ before r after, order = before ++ r :: after ∧ (∀ s ∈ before, s.Holds y other) ∧
          ¬r.Holds y other ∧ e = r.error y := by
    have hChecks : y.accept other = .error e ↔ order.forM (Requirement.check y other) = .error e := by
      rw [accept_eq_forM]
      cases order.forM (Requirement.check y other) <;> simp [bind, Except.bind, pure, Except.pure]
    simp only [hChecks, AttentionError.forM_eq_error, check_eq_ok, check_eq_error]
  refine ⟨hFirst x host, ?_, ?_, ?_⟩
  · intro hAll
    have hChecks : order.forM (Requirement.check x host) = .ok () :=
      AttentionError.forM_eq_ok.2 fun r hr => check_eq_ok.2 (hAll r hr)
    rw [accept_eq_forM, hChecks]
    rfl
  · intro y other before r after hOrder hBefore hFails hAgrees
    have hAgreesBefore (s : Requirement) (hs : s ∈ before) : s.Agrees x y host other :=
      hAgrees s (List.mem_append_left _ hs)
    have hAgreesLast : r.Agrees x y host other := hAgrees r (by simp)
    constructor
    · exact (hFirst x host _).2 ⟨before, r, after, hOrder, hBefore, hFails, rfl⟩
    · apply (hFirst y other _).2
      refine ⟨before, r, after, hOrder, ?_, ?_, hAgreesLast.error_eq hFails⟩
      · intro s hs
        exact (hAgreesBefore s hs).holds_iff.1 (hBefore s hs)
      · exact fun hHolds => hFails (hAgreesLast.holds_iff.2 hHolds)
  · intro e hError
    obtain ⟨_, r, _, -, -, -, rfl⟩ := (hFirst x host e).1 hError
    exact isConfiguration_error x r

/-- The number of queries is open and its scalar has a wrong type. Each of the two descriptors violates
further requirements, on other slots. -/
theorem accept_first_violated_small :
    let canonical := (Config.ofDims ⟨0, 2, 0, 3, 2⟩).descriptor.setTensor .m ⟨.scalar, .s64⟩
    let x := (canonical.setTensor .dst ⟨⟨[1, 1]⟩, .f64⟩).setTensor .vZeroPoint ⟨.scalar, .s32⟩
    let y := (canonical.setTensor .srcV ⟨⟨[0, 3, 2, 2]⟩, .u8⟩).setTensor .binaryAdd .absent
    x.accept .amx = .error (.unresolvedDim .m) ∧
      y.accept ⟨false, false, true, false⟩ = .error (.unresolvedDim .m) ∧
      (AttentionError.unresolvedDim .m).isConfiguration = true ∧
      (Config.ofDims ⟨0, 2, 0, 3, 2⟩).descriptor.accept .amx = .ok ⟨0, 2, 0, 3, 2⟩ := by
  intro canonical x y
  obtain ⟨-, -, hAgree, hConfiguration⟩ := accept_first_violated x .amx
  obtain ⟨-, hAccepted, -⟩ := accept_first_violated (Config.ofDims ⟨0, 2, 0, 3, 2⟩).descriptor .amx
  obtain ⟨hx, hy⟩ := hAgree y ⟨false, false, true, false⟩ (order.take 8) (order.getD 8 .amxInt8)
    (order.drop 9) rfl (by decide) (by decide) (by decide)
  exact ⟨hx, hy, hConfiguration _ hx, hAccepted (by decide)⟩

end OperatorDesc

end QuantAttention
