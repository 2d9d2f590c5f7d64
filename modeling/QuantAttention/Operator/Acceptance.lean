import QuantAttention.Operator.Capability
import QuantAttention.Operator.Dims

/-!
Which descriptors the operator accepts on which hosts. The requirements stand in a fixed order, and
the error is that of the first one that fails.
-/

namespace QuantAttention

/-- The attribute that must be `"True"`: the exponential may be approximate. -/
def approxExpKey : String := "approx_exp"

/-- The attribute that must be `"False"`: no maximum is subtracted from the scores. -/
def stableSoftmaxKey : String := "stable_softmax"

namespace OperatorDesc

/-- Slots of quantization parameters that this operator has no use for. -/
def emptySlots : List Slot :=
  [.qZeroPoint, .kZeroPoint, .vZeroPoint, .dstZeroPoint, .srcDstScale, .srcDstZeroPoint]

/-- Slots that hold int8 activations. -/
def activationSlots : List Slot := [.srcQ, .srcK, .srcV, .dst]

/-- Slots that hold single-precision masks and scales. -/
def scaleSlots : List Slot := [.binaryAdd, .qScale, .kScale, .vScale, .dstScale]

variable (d : OperatorDesc)

def checkAttribute (key expected : String) : Except AttentionError Unit :=
  if d.attr key = some expected then .ok () else .error (.missingAttribute key expected)

/-- An open dimension needs a scalar slot of the right shape and type. -/
def checkDim (value : Nat) (slot : Slot) : Except AttentionError Unit :=
  if value = 0 ∧ ¬(d.shape slot = .scalar ∧ d.elementType slot = .s32) then
    .error (.unresolvedDim slot)
  else .ok ()

def checkShape (slot : Slot) (expected : List Nat) : Except AttentionError Unit :=
  if (d.shape slot).dims = expected then .ok ()
  else .error (.shapeMismatch slot expected (d.shape slot).dims)

def checkEmpty (slot : Slot) : Except AttentionError Unit :=
  if (d.tensor slot).isEmpty then .ok () else .error (.unexpectedTensor slot)

def checkElementType (expected : ElementType) (slot : Slot) : Except AttentionError Unit :=
  if d.elementType slot = expected then .ok ()
  else .error (.unsupportedElementType slot (d.elementType slot) expected)

/-- The dimensions of the descriptor, if the operator can be built for it on the given host. -/
def accept (host : Capability) : Except AttentionError Dims := do
  if host.amxInt8 then pure () else throw (.unsupportedIsa "amx_int8")
  d.checkAttribute approxExpKey "True"
  d.checkAttribute stableSoftmaxKey "False"
  let dims ← Dims.ofDescriptor d
  dims.withSlots.forM fun entry => d.checkDim entry.1 entry.2
  dims.dataShapes.forM fun entry => d.checkShape entry.1 entry.2
  emptySlots.forM d.checkEmpty
  activationSlots.forM (d.checkElementType .s8)
  scaleSlots.forM (d.checkElementType .f32)
  return dims

def isSupported (host : Capability) : Bool := (d.accept host).isOk

end OperatorDesc

end QuantAttention
