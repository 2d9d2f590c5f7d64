import QuantAttention.Attention.Build
import QuantAttention.Attention.Event
import QuantAttention.Workspace

/-!
Calls of the operator, and what is checked before anything is written.
-/

namespace QuantAttention

/-- What a call reads. Tensors are dense and row-major in the shapes of their slots. -/
structure Call where
  queries : Array Int8
  keys : Array Int8
  values : Array Int8
  mask : Array Binary32
  queryScale : Array Binary32
  keyScale : Array Binary32
  valueScale : Array Binary32
  /-- Values for the open dimensions. -/
  dims : CallDims

/-- What a call writes. -/
structure Memory where
  output : Array Int8
  outputScale : Array Binary32
  workspace : Workspace
  deriving DecidableEq

namespace Attention

/-- Workspace bytes for the dimensions of the descriptor, where open ones count as zero. -/
def workspaceBytes (a : Attention) : Checked Nat := do
  (← Layout.plan a.dims a.threads).totalBytes

def workspaceBytesFor (a : Attention) (called : CallDims) : Checked (Except AttentionError Nat) :=
  match a.dims.resolve called with
  | .error e => .ok (.error e)
  | .ok dims => do return .ok (← (← Layout.plan dims a.threads).totalBytes)

def dataLengths (call : Call) (memory : Memory) : List Nat :=
  [call.queries.size, call.keys.size, call.values.size, memory.output.size, call.mask.size,
    call.queryScale.size, call.keyScale.size, call.valueScale.size, memory.outputScale.size]

/-- The first buffer that is too short for its shape. -/
def firstShort : List ((Slot × List Nat) × Nat) → Checked (Option AttentionError)
  | [] => .ok none
  | ((slot, shape), got) :: rest => do
    let needed ← (Shape.mk shape).elements
    if got < needed then return some (.bufferTooSmall slot needed got)
    firstShort rest

/-- The layout of a call and the regions of its workspace, if the call can be run. -/
def preflight (a : Attention) (call : Call) (memory : Memory) :
    Checked (Except AttentionError (Layout × WorkspaceRegions)) :=
  match a.dims.resolve call.dims with
  | .error e => .ok (.error e)
  | .ok dims => do
    match ← firstShort (dims.dataShapes.zip (dataLengths call memory)) with
    | some e => return .error e
    | none =>
      let layout ← Layout.plan dims a.threads
      match ← memory.workspace.split layout with
      | .error e => return .error e
      | .ok regions => return .ok (layout, regions)

end Attention

end QuantAttention
