import QuantAttention.Config
import QuantAttention.Kernel.KeyPacking
import QuantAttention.Kernel.Outputs
import QuantAttention.Kernel.Probabilities
import QuantAttention.Kernel.ValuePacking

/-!
Building the operator. A provider supplies the kernels and the tile registers, or refuses one of
them; the first refusal is the answer.
-/

namespace QuantAttention

inductive Part where
  | keyPacking
  | valuePacking
  | probabilities
  | outputs
  | tileRegisters
  deriving DecidableEq, Repr

def Part.name : Part → String
  | keyPacking => "transpose_key"
  | valuePacking => "transpose_quant_value"
  | probabilities => "qk_softmax"
  | outputs => "av_quant"
  | tileRegisters => "tile_registers"

/-- Which kernels can be had, for which widths and tiles. -/
structure Provider where
  keyPacking : Nat → Except AttentionError KeyPacking
  valuePacking : Except AttentionError Unit
  probabilities : TileParam → Except AttentionError Unit
  outputs : TileParam → Except AttentionError Unit
  tileRegisters : Except AttentionError Unit

namespace Provider

/-- The kernels of this library. -/
def portable : Provider where
  keyPacking := KeyPacking.build
  valuePacking := .ok ()
  probabilities := checkTile Probabilities.name
  outputs := checkTile Outputs.name
  tileRegisters := .ok ()

def refuse {α : Type} (part : Part) (reason : String) : Except AttentionError α :=
  .error (.kernelBuild part.name reason)

/-- A provider that refuses some parts for a given reason. -/
def without (p : Provider) (parts : List Part) (reason : String) : Provider where
  keyPacking width := if .keyPacking ∈ parts then refuse .keyPacking reason else p.keyPacking width
  valuePacking := if .valuePacking ∈ parts then refuse .valuePacking reason else p.valuePacking
  probabilities tile :=
    if .probabilities ∈ parts then refuse .probabilities reason else p.probabilities tile
  outputs tile := if .outputs ∈ parts then refuse .outputs reason else p.outputs tile
  tileRegisters := if .tileRegisters ∈ parts then refuse .tileRegisters reason else p.tileRegisters

end Provider

structure Attention where
  /-- The dimensions of the descriptor, with zeros for open ones. -/
  dims : Dims
  /-- The workers of the pool. -/
  threads : Nat
  releaseTiles : Bool
  keyPacking : KeyPacking

namespace Attention

/-- The width to which packed keys are padded. -/
def packedWidth : Nat := 64

/-- The operator for accepted dimensions. `hostThreads` is the number of workers where the settings
leave it open. -/
def build (dims : Dims) (settings : Settings) (provider : Provider) (hostThreads : Nat) :
    Except AttentionError Attention := do
  if settings.numThreads = some 0 then throw (.invalidConfig "num_threads must be positive")
  let keyPacking ← provider.keyPacking packedWidth
  provider.valuePacking
  provider.probabilities .fullInt8
  provider.outputs .fullInt8
  provider.tileRegisters
  return {
    dims, keyPacking
    threads := settings.numThreads.getD hostThreads
    releaseTiles := settings.releaseTiles }

def ofDescriptor (d : OperatorDesc) (host : Capability) (settings : Settings) (provider : Provider)
    (hostThreads : Nat) : Except AttentionError Attention := do
  build (← d.accept host) settings provider hostThreads

def debugText (a : Attention) : String :=
  "DynamicQuantMha \x7b dims: " ++ a.dims.debugText ++ ", threads: " ++ toString a.threads ++
    ", qk: \"" ++ Probabilities.name ++ "\", av: \"" ++ Outputs.name ++ "\" \x7d"

end Attention

end QuantAttention
