import QuantAttention.Operator.ElementType
import QuantAttention.Operator.Shape
import QuantAttention.Operator.Slot

/-!
What the operator answers instead of a result. Errors of the first kind refuse a configuration,
those of the second kind a call of an operator that was built.
-/

namespace QuantAttention

inductive AttentionError where
  /-- The host lacks a feature that the operator needs. -/
  | unsupportedIsa (feature : String)
  | missingAttribute (key expected : String)
  | shapeMismatch (slot : Slot) (expected got : List Nat)
  /-- A dimension is left open and has no scalar slot to carry it. -/
  | unresolvedDim (slot : Slot)
  | unexpectedTensor (slot : Slot)
  | unsupportedElementType (slot : Slot) (got expected : ElementType)
  | kernelBuild (kernel reason : String)
  | invalidConfig (reason : String)
  /-- A dimension left open was not given by the call, or is negative. -/
  | missingDim (slot : Slot)
  | bufferTooSmall (slot : Slot) (needed got : Nat)
  | workspaceTooSmall (needed got : Nat)
  | misalignedBuffer (buffer : String)
  deriving DecidableEq, Repr

namespace AttentionError

/-- Whether the error refuses the configuration, and not just one call. -/
def isConfiguration : AttentionError → Bool
  | missingDim _ | bufferTooSmall .. | workspaceTooSmall .. | misalignedBuffer _ => false
  | _ => true

def message : AttentionError → String
  | unsupportedIsa feature => "unsupported ISA: " ++ feature ++ " is not available on this host"
  | missingAttribute key expected =>
    "kernel requires attribute `" ++ key ++ "` = \"" ++ expected ++ "\""
  | shapeMismatch slot expected got =>
    "shape mismatch on `" ++ slot.name ++ "`: expected " ++ bracketed expected ++ ", got " ++
      bracketed got
  | unresolvedDim slot =>
    "dimension `" ++ slot.name ++
      "` is neither static nor declared as a dynamic \x7b1\x7d s32 scalar"
  | unexpectedTensor slot => "slot `" ++ slot.name ++ "` must be empty for this kernel"
  | unsupportedElementType slot got expected =>
    "unsupported dtype on `" ++ slot.name ++ "`: expected " ++ expected.name ++ ", got " ++ got.name
  | kernelBuild kernel reason => "failed to build micro-kernel `" ++ kernel ++ "`: " ++ reason
  | invalidConfig reason => "invalid configuration: " ++ reason
  | missingDim slot => "dynamic dimension `" ++ slot.name ++ "` was not supplied at call time"
  | bufferTooSmall slot needed got =>
    "buffer `" ++ slot.name ++ "` too small: need " ++ toString needed ++ " elements, got " ++
      toString got
  | workspaceTooSmall needed got =>
    "workspace too small: need " ++ toString needed ++ " bytes, got " ++ toString got
  | misalignedBuffer buffer => "buffer `" ++ buffer ++ "` is not aligned for its element type"

end AttentionError

end QuantAttention
