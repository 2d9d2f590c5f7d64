import Mathlib.Data.List.Nodup
import QuantAttention.Config

/-! Which descriptors are accepted. The descriptor of a configuration and the requirements on
descriptors are written down apart from each other; a descriptor meets the requirements exactly if it
agrees with that of its dimensions on a few slots and attributes, and nothing else of it matters. -/

namespace QuantAttention

namespace AttentionError

variable {α β : Type}

theorem bind_eq_ok {x : Except AttentionError α} {f : α → Except AttentionError β} {b : β} :
    x >>= f = .ok b ↔ ∃ a, x = .ok a ∧ f a = .ok b := by
  cases x <;> simp [bind, Except.bind]

/-- Requirements on the elements of a list hold together if each of them does, so loops of checks
can be taken apart. -/
theorem forM_eq_ok {xs : List α} {check : α → Except AttentionError Unit} {u : Unit} :
    xs.forM check = .ok u ↔ ∀ x ∈ xs, check x = .ok () := by
  induction xs with
  | nil => simp [List.forM, pure, Except.pure]
  | cons x rest ih =>
      show (check x >>= fun _ => rest.forM check) = .ok u ↔ _
      simp only [bind_eq_ok, ih, List.mem_cons, forall_eq_or_imp]
      exact ⟨fun ⟨_, hFirst, hRest⟩ => ⟨hFirst, hRest⟩, fun ⟨hFirst, hRest⟩ => ⟨(), hFirst, hRest⟩⟩

end AttentionError

namespace OperatorDesc

variable {x : OperatorDesc} {slot : Slot}

def setTensors (x : OperatorDesc) (tensors : List (Slot × TensorDesc)) : OperatorDesc :=
  tensors.foldl (fun x entry => x.setTensor entry.1 entry.2) x

@[simp] theorem attr_setTensors (x : OperatorDesc) (tensors : List (Slot × TensorDesc))
    (key : String) : (x.setTensors tensors).attr key = x.attr key := by
  induction tensors generalizing x with
  | nil => rfl
  | cons entry rest ih => exact (ih _).trans (attr_setTensor ..)

theorem tensor_setTensors_of_not_mem {tensors : List (Slot × TensorDesc)}
    (h : slot ∉ tensors.map (·.1)) : (x.setTensors tensors).tensor slot = x.tensor slot := by
  induction tensors generalizing x with
  | nil => rfl
  | cons entry rest ih =>
      rw [List.map_cons, List.mem_cons, not_or] at h
      exact (ih h.2).trans ((tensor_setTensor ..).trans (if_neg h.1))

/-- A tensor that was set is found in its slot, as no slot is set twice. -/
theorem tensor_setTensors {tensors : List (Slot × TensorDesc)} {t : TensorDesc}
    (hNodup : (tensors.map (·.1)).Nodup) (h : (slot, t) ∈ tensors) :
    (x.setTensors tensors).tensor slot = t := by
  induction tensors generalizing x with
  | nil => cases h
  | cons entry rest ih =>
      obtain ⟨hFirst, hRest⟩ := List.nodup_cons.1 hNodup
      rcases List.mem_cons.1 h with rfl | hLater
      · exact (tensor_setTensors_of_not_mem hFirst).trans ((tensor_setTensor ..).trans (if_pos rfl))
      · exact ih hRest hLater

end OperatorDesc

namespace Config

variable {c : Config}

/-- The tensors of a configuration: its data, and a scalar for each open dimension. -/
def tensors (c : Config) : List (Slot × TensorDesc) :=
  c.dims.dataShapes.map (fun (slot, shape) => (slot, ⟨⟨shape⟩, dataType slot⟩)) ++
    (c.dims.withSlots.filter (·.1 = 0)).map fun (_, slot) => (slot, ⟨.scalar, .s32⟩)

def flags (c : Config) : OperatorDesc :=
  (OperatorDesc.empty.setAttribute approxExpKey (flagText c.approxExp)).setAttribute
    stableSoftmaxKey (flagText c.stableSoftmax)

/-- The descriptor of a configuration has the flags of it as attributes and its tensors in their
slots. -/
theorem descriptor_eq (c : Config) : c.descriptor = c.flags.setTensors c.tensors := by
  rw [descriptor, OperatorDesc.setTensors, tensors, List.foldl_append, List.foldl_map,
    List.foldl_map, List.foldl_filter]
  simp only [decide_eq_true_eq]
  rfl

/-- The slots in which a configuration can have a tensor: those for data, and those for scalars of
open dimensions. None of the slots that have to be empty is among them. -/
theorem slots_tensors (c : Config) : (c.tensors.map (·.1)).Sublist
    [.srcQ, .srcK, .srcV, .dst, .binaryAdd, .qScale, .kScale, .vScale, .dstScale, .batchSize,
      .headNum, .headSize, .m, .n] := by
  have hSlots : c.tensors.map (·.1) =
      c.dims.dataShapes.map (·.1) ++ (c.dims.withSlots.filter (·.1 = 0)).map (·.2) := by
    rw [tensors, List.map_append, List.map_map, List.map_map]
    rfl
  have hScalars := (List.filter_sublist (p := (·.1 = 0)) (l := c.dims.withSlots)).map (·.2)
  exact hSlots ▸ (List.Sublist.refl (c.dims.dataShapes.map (·.1))).append hScalars

theorem tensor_descriptor {slot : Slot} {t : TensorDesc} (h : (slot, t) ∈ c.tensors) :
    c.descriptor.tensor slot = t := by
  rw [descriptor_eq]
  exact OperatorDesc.tensor_setTensors (c.slots_tensors.nodup (by decide)) h

/-- Slots that have to be empty are so in the descriptor of every configuration. -/
theorem tensor_descriptor_absent {slot : Slot} (h : slot ∈ OperatorDesc.emptySlots) :
    c.descriptor.tensor slot = .absent := by
  have hAway : slot ∉ c.tensors.map (·.1) := by
    intro hMem
    have hListed := c.slots_tensors.subset hMem
    revert h hListed
    cases slot <;> decide
  rw [descriptor_eq, OperatorDesc.tensor_setTensors_of_not_mem hAway]
  exact OperatorDesc.tensor_empty slot

end Config

namespace OperatorDesc

variable {x y : OperatorDesc} {d : Dims} {slot : Slot} {host : Capability} {u : Unit}

/-- The dimensions that the query and key shapes name, if they have four entries. -/
def namedDims (x : OperatorDesc) : Dims where
  batchSize := (x.shape .srcQ).dims.getD 0 0
  headNum := (x.shape .srcQ).dims.getD 2 0
  seqQ := (x.shape .srcQ).dims.getD 1 0
  seqK := (x.shape .srcK).dims.getD 1 0
  headSize := (x.shape .srcQ).dims.getD 3 0

/-- Two descriptors agree in all that matters where the dimensions are `d`. -/
structure Agrees (d : Dims) (x y : OperatorDesc) : Prop where
  approxExp : x.attr approxExpKey = y.attr approxExpKey
  stableSoftmax : x.attr stableSoftmaxKey = y.attr stableSoftmaxKey
  /-- The nine data slots have the same shapes and element types. -/
  data : ∀ slot ∈ activationSlots ++ scaleSlots, x.tensor slot = y.tensor slot
  /-- So have the scalars of open dimensions. -/
  scalars : ∀ slot, (0, slot) ∈ d.withSlots → x.tensor slot = y.tensor slot
  empty : ∀ slot ∈ emptySlots, (x.tensor slot).isEmpty = (y.tensor slot).isEmpty

theorem Agrees.symm (h : Agrees d x y) : Agrees d y x :=
  ⟨h.approxExp.symm, h.stableSoftmax.symm, fun slot hSlot => (h.data slot hSlot).symm,
    fun slot hSlot => (h.scalars slot hSlot).symm, fun slot hSlot => (h.empty slot hSlot).symm⟩

/-- What a descriptor must be like to be accepted with dimensions `d`. -/
structure Meets (d : Dims) (x : OperatorDesc) : Prop where
  approxExp : x.attr approxExpKey = some "True"
  stableSoftmax : x.attr stableSoftmaxKey = some "False"
  data : ∀ slot shape, (slot, shape) ∈ d.dataShapes →
    x.tensor slot = ⟨⟨shape⟩, Config.dataType slot⟩
  scalars : ∀ slot, (0, slot) ∈ d.withSlots → x.tensor slot = ⟨.scalar, .s32⟩
  empty : ∀ slot ∈ emptySlots, (x.tensor slot).isEmpty = true

/-- Every slot for data has a shape that its dimensions decide. -/
theorem exists_shape (d : Dims) (h : slot ∈ activationSlots ++ scaleSlots) :
    ∃ shape, (slot, shape) ∈ d.dataShapes := by
  rw [show activationSlots ++ scaleSlots = d.dataShapes.map (·.1) from rfl] at h
  obtain ⟨⟨_, shape⟩, hShape, rfl⟩ := List.mem_map.1 h
  exact ⟨shape, hShape⟩

/-- Descriptors that are accepted agree with each other, and with no others. One accepted descriptor
is so enough to know all for its dimensions. -/
theorem Meets.iff_agrees (hy : Meets d y) : Meets d x ↔ Agrees d x y := by
  constructor
  · intro hx
    exact {
      approxExp := hx.approxExp.trans hy.approxExp.symm
      stableSoftmax := hx.stableSoftmax.trans hy.stableSoftmax.symm
      data := fun slot hSlot => by
        obtain ⟨shape, hShape⟩ := exists_shape d hSlot
        exact (hx.data slot shape hShape).trans (hy.data slot shape hShape).symm
      scalars := fun slot hSlot => (hx.scalars slot hSlot).trans (hy.scalars slot hSlot).symm
      empty := fun slot hSlot => (hx.empty slot hSlot).trans (hy.empty slot hSlot).symm }
  · intro h
    exact {
      approxExp := h.approxExp.trans hy.approxExp
      stableSoftmax := h.stableSoftmax.trans hy.stableSoftmax
      data := fun slot shape hShape =>
        (h.data slot (List.mem_map_of_mem (f := Prod.fst) hShape)).trans (hy.data slot shape hShape)
      scalars := fun slot hSlot => (h.scalars slot hSlot).trans (hy.scalars slot hSlot)
      empty := fun slot hSlot => (h.empty slot hSlot).trans (hy.empty slot hSlot) }

/-- An attribute passes if it is there and has the text that is expected, letter by letter. An
attribute that is missing does not count as a default. -/
theorem checkAttribute_eq_ok {key expected : String} :
    x.checkAttribute key expected = .ok u ↔ x.attr key = some expected := by
  rw [checkAttribute]
  split <;> simp [*]

theorem tensor_eq_iff {shape : Shape} {elementType : ElementType} :
    x.tensor slot = ⟨shape, elementType⟩ ↔
      x.shape slot = shape ∧ x.elementType slot = elementType := by
  rw [OperatorDesc.shape, OperatorDesc.elementType]
  cases x.tensor slot
  simp

/-- A dimension that is given passes whatever is in its slot. Only an open one needs its scalar. -/
theorem checkDim_eq_ok {value : Nat} :
    x.checkDim value slot = .ok u ↔ (value = 0 → x.tensor slot = ⟨.scalar, .s32⟩) := by
  rw [checkDim, tensor_eq_iff]
  split
  · next hOpen => simp [hOpen]
  · next hGiven => simpa [not_and] using hGiven

theorem checkShape_eq_ok {expected : List Nat} :
    x.checkShape slot expected = .ok u ↔ x.shape slot = ⟨expected⟩ := by
  rw [checkShape]
  split
  · next hDims => simp [← hDims]
  · next hDims => simpa using fun hShape => hDims (congrArg Shape.dims hShape)

/-- A slot passes as empty if no tensor is in it, whatever element type is written there. -/
theorem checkEmpty_eq_ok : x.checkEmpty slot = .ok u ↔ (x.tensor slot).isEmpty = true := by
  rw [checkEmpty]
  split <;> simp [*]

theorem checkElementType_eq_ok {expected : ElementType} :
    x.checkElementType expected slot = .ok u ↔ x.elementType slot = expected := by
  rw [checkElementType]
  split <;> simp [*]

/-- The shapes and element types of data slots, taken together. A tensor is its shape and its
element type, so checking both is checking the tensor. -/
theorem data_iff : (∀ entry ∈ d.dataShapes, x.shape entry.1 = ⟨entry.2⟩) ∧
      (∀ slot ∈ activationSlots, x.elementType slot = .s8) ∧
      (∀ slot ∈ scaleSlots, x.elementType slot = .f32) ↔
    ∀ slot shape, (slot, shape) ∈ d.dataShapes →
      x.tensor slot = ⟨⟨shape⟩, Config.dataType slot⟩ := by
  have hTypes : (∀ slot ∈ activationSlots, x.elementType slot = .s8) ∧
      (∀ slot ∈ scaleSlots, x.elementType slot = .f32) ↔
        ∀ slot ∈ activationSlots ++ scaleSlots, x.elementType slot = Config.dataType slot := by
    simp [activationSlots, scaleSlots, Config.dataType, and_assoc]
  rw [hTypes]
  constructor
  · rintro ⟨hShapes, hElements⟩ slot shape hShape
    exact tensor_eq_iff.2 ⟨hShapes _ hShape,
      hElements slot (List.mem_map_of_mem (f := Prod.fst) hShape)⟩
  · intro h
    refine ⟨fun entry hShape => (tensor_eq_iff.1 (h _ _ hShape)).1, fun slot hSlot => ?_⟩
    obtain ⟨shape, hShape⟩ := exists_shape d hSlot
    exact (tensor_eq_iff.1 (h slot shape hShape)).2

/-- The dimensions that a descriptor names are those that it meets. They are read off the shapes of
queries and keys. -/
theorem Meets.ofDescriptor (h : Meets d x) : Dims.ofDescriptor x = .ok d := by
  have hQueries := (tensor_eq_iff.1 (h.data .srcQ _ (.head _))).1
  have hKeys := (tensor_eq_iff.1 (h.data .srcK _ (.tail _ (.head _)))).1
  rw [Dims.ofDescriptor, hQueries, hKeys]

/-- A descriptor is accepted if the host can run the operator and its requirements are met, and then
with the dimensions that it names. -/
theorem accept_eq_ok : x.accept host = .ok d ↔ host.amxInt8 = true ∧ Meets d x := by
  rw [accept]
  cases hHost : host.amxInt8 with
  | false => exact ⟨nofun, nofun⟩
  | true =>
      rw [if_pos rfl]
      simp only [AttentionError.bind_eq_ok, AttentionError.forM_eq_ok, checkAttribute_eq_ok,
        checkDim_eq_ok, checkShape_eq_ok, checkEmpty_eq_ok, checkElementType_eq_ok,
        exists_const, pure, Except.pure, Except.ok.injEq, true_and]
      constructor
      · rintro ⟨hApprox, hStable, dims, hDims, hScalars, hShapes, hEmpty, hInt8, hSingle, rfl⟩
        exact {
          approxExp := hApprox
          stableSoftmax := hStable
          data := data_iff.1 ⟨hShapes, hInt8, hSingle⟩
          scalars := fun slot hSlot => hScalars _ hSlot rfl
          empty := hEmpty }
      · intro h
        obtain ⟨hShapes, hInt8, hSingle⟩ := data_iff.2 h.data
        refine ⟨h.approxExp, h.stableSoftmax, d, h.ofDescriptor, ?_, hShapes, h.empty, hInt8, hSingle,
          rfl⟩
        rintro ⟨value, slot⟩ hSlot rfl
        exact h.scalars slot hSlot

end OperatorDesc

theorem Dims.ofDescriptor_eq_ok {x : OperatorDesc} {d : Dims}
    (h : ofDescriptor x = .ok d) :
    (x.shape .srcQ).rank = 4 ∧ (x.shape .srcK).rank = 4 ∧ d = x.namedDims := by
  rw [ofDescriptor] at h
  split at h
  · next hQueries hKeys =>
    cases h
    simp [Shape.rank, OperatorDesc.namedDims, hQueries, hKeys]
  · cases h
  · cases h

namespace Config

variable {c : Config}

/-- The descriptor of a configuration meets its requirements if its flags do, whatever its
dimensions are. -/
theorem meets_descriptor (hApprox : c.approxExp = true) (hStable : c.stableSoftmax = false) :
    OperatorDesc.Meets c.dims c.descriptor where
  approxExp := by
    rw [descriptor_eq, OperatorDesc.attr_setTensors, flags, OperatorDesc.attr_setAttribute,
      if_neg (by decide), OperatorDesc.attr_setAttribute, if_pos rfl, hApprox]
    rfl
  stableSoftmax := by
    rw [descriptor_eq, OperatorDesc.attr_setTensors, flags, OperatorDesc.attr_setAttribute,
      if_pos rfl, hStable]
    rfl
  data := fun slot shape hShape =>
    tensor_descriptor (List.mem_append_left _ (List.mem_map_of_mem (a := (slot, shape)) hShape))
  scalars := fun slot hSlot => by
    refine tensor_descriptor (List.mem_append_right _ (List.mem_map.2 ⟨(0, slot), ?_, rfl⟩))
    exact List.mem_filter.2 ⟨hSlot, rfl⟩
  empty := fun slot hSlot => by
    rw [tensor_descriptor_absent hSlot]
    rfl

end Config

namespace OperatorDesc

/-- A descriptor is accepted with dimensions `d` exactly if the host can run the operator, the shapes of
queries and keys name these dimensions, and the descriptor agrees with that of their configuration.
Nothing but what has to agree matters, no more of a configuration than its dimensions and its flags,
and a descriptor is supported if it is accepted. -/
theorem accept_iff_agrees (x : OperatorDesc) (host : Capability) :
    (∀ d, x.accept host = .ok d ↔
      host.amxInt8 = true ∧ (x.shape .srcQ).rank = 4 ∧ (x.shape .srcK).rank = 4 ∧
        d = x.namedDims ∧ Agrees d x (Config.ofDims d).descriptor) ∧
    (∀ y other d, other.amxInt8 = host.amxInt8 → Agrees d x y →
      (x.accept host = .ok d ↔ y.accept other = .ok d)) ∧
    (∀ c : Config, c.approxExp = true → c.stableSoftmax = false → host.amxInt8 = true →
      c.descriptor.accept host = .ok c.dims) ∧
    x.isSupported host = (x.accept host).isOk := by
  have hCanonical (d : Dims) : Meets d (Config.ofDims d).descriptor :=
    Config.meets_descriptor (c := .ofDims d) rfl rfl
  refine ⟨fun d => ?_, fun y other d hHost hAgrees => ?_, fun c hApprox hStable hHost => ?_, rfl⟩
  · rw [accept_eq_ok, (hCanonical d).iff_agrees]
    constructor
    · rintro ⟨hHost, hAgrees⟩
      obtain ⟨hQueries, hKeys, hDims⟩ :=
        Dims.ofDescriptor_eq_ok ((hCanonical d).iff_agrees.2 hAgrees).ofDescriptor
      exact ⟨hHost, hQueries, hKeys, hDims, hAgrees⟩
    · rintro ⟨hHost, -, -, -, hAgrees⟩
      exact ⟨hHost, hAgrees⟩
  · rw [accept_eq_ok, accept_eq_ok, hHost]
    exact and_congr_right fun _ =>
      ⟨fun hx => hx.iff_agrees.2 hAgrees.symm, fun hy => hy.iff_agrees.2 hAgrees⟩
  · exact accept_eq_ok.2 ⟨hHost, Config.meets_descriptor hApprox hStable⟩

/-- With two dimensions open, neither a foreign attribute nor a tensor in the slot of a given dimension
or in that of the workspace matters. -/
theorem accept_iff_agrees_small :
    let canonical := (Config.ofDims ⟨0, 2, 0, 3, 2⟩).descriptor
    let x := ((canonical.setAttribute "layout" "BMHD").setTensor .headNum ⟨⟨[4, 4]⟩, .f64⟩).setTensor
      .workspace ⟨⟨[7]⟩, .u8⟩
    canonical.accept .amx = .ok ⟨0, 2, 0, 3, 2⟩ ∧
      x.accept ⟨false, false, true, false⟩ = .ok ⟨0, 2, 0, 3, 2⟩ := by
  intro canonical x
  have hAgrees : Agrees ⟨0, 2, 0, 3, 2⟩ x canonical := {
    approxExp := rfl
    stableSoftmax := rfl
    data := by decide
    scalars := fun slot hSlot => by
      have hOpen : slot = .batchSize ∨ slot = .m := by simpa [Dims.withSlots] using hSlot
      rcases hOpen with rfl | rfl <;> rfl
    empty := by decide }
  obtain ⟨-, -, hOwn, -⟩ := accept_iff_agrees canonical .amx
  exact ⟨hOwn (.ofDims ⟨0, 2, 0, 3, 2⟩) rfl rfl rfl,
    ((accept_iff_agrees x _).1 _).2 ⟨rfl, rfl, rfl, rfl, hAgrees⟩⟩

end OperatorDesc

end QuantAttention
