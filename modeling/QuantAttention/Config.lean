import QuantAttention.Json.Record
import QuantAttention.Operator.Acceptance

/-!
Configurations. A configuration names an attention problem and how it is to be run; it can be read
from JSON text and written as such, and gives the descriptor of its problem.
-/

namespace QuantAttention

structure Settings where
  /-- Worker threads; none leaves the number open. -/
  numThreads : Option Nat := none
  /-- Whether tile registers are released on all workers when a call ends. -/
  releaseTiles : Bool := true
  deriving DecidableEq, Repr, Inhabited

/-- An attention problem with its settings. Dimensions that are zero are open until the call. -/
structure Config where
  batchSize : Nat := 0
  headNum : Nat := 0
  seqQ : Nat := 0
  seqK : Nat := 0
  headSize : Nat := 0
  approxExp : Bool := true
  stableSoftmax : Bool := false
  numThreads : Option Nat := none
  releaseTiles : Bool := true
  deriving DecidableEq, Repr, Inhabited

namespace Config

/-- The configuration of a problem in which all else has its default. -/
def ofDims (d : Dims) : Config :=
  { batchSize := d.batchSize, headNum := d.headNum, seqQ := d.seqQ, seqK := d.seqK,
    headSize := d.headSize }

def dims (c : Config) : Dims :=
  { batchSize := c.batchSize, headNum := c.headNum, seqQ := c.seqQ, seqK := c.seqK,
    headSize := c.headSize }

def settings (c : Config) : Settings :=
  { numThreads := c.numThreads, releaseTiles := c.releaseTiles }

def flagText (b : Bool) : String := if b then "True" else "False"

/-- The element type of a data slot: activations are int8, all else is single precision. -/
def dataType (slot : Slot) : ElementType :=
  if slot ∈ OperatorDesc.activationSlots then .s8 else .f32

/-- The descriptor of the problem. Every data slot has its shape, with zeros for open dimensions,
and every open dimension has its scalar. -/
def descriptor (c : Config) : OperatorDesc :=
  let flags := (OperatorDesc.empty.setAttribute approxExpKey (flagText c.approxExp)).setAttribute
    stableSoftmaxKey (flagText c.stableSoftmax)
  let data := c.dims.dataShapes.foldl
    (fun d (slot, shape) => d.setTensor slot ⟨⟨shape⟩, dataType slot⟩) flags
  c.dims.withSlots.foldl
    (fun d (value, slot) => if value = 0 then d.setTensor slot ⟨.scalar, .s32⟩ else d) data

def fields : List Json.Field :=
  [⟨["batch_size", "batch"], .count⟩, ⟨["head_num", "num_heads"], .count⟩, ⟨["seq_q", "m"], .count⟩,
    ⟨["seq_k", "n"], .count⟩, ⟨["head_size", "head_dim"], .count⟩, ⟨["approx_exp"], .flag⟩,
    ⟨["stable_softmax"], .flag⟩, ⟨["num_threads"], .optionalCount⟩, ⟨["release_tiles"], .flag⟩]

/-- The configuration with the given fields; a field that is not given has its default. -/
def ofValues : Json.Values → Option Config
  | [batchSize, headNum, seqQ, seqK, headSize, approxExp, stableSoftmax, numThreads,
      releaseTiles] => do
    return {
      batchSize := ← Json.countOr 0 batchSize
      headNum := ← Json.countOr 0 headNum
      seqQ := ← Json.countOr 0 seqQ
      seqK := ← Json.countOr 0 seqK
      headSize := ← Json.countOr 0 headSize
      approxExp := ← Json.flagOr true approxExp
      stableSoftmax := ← Json.flagOr false stableSoftmax
      numThreads := ← Json.optionalCountOr none numThreads
      releaseTiles := ← Json.flagOr true releaseTiles }
  | _ => none

def parse (text : String) : Except AttentionError Config :=
  match (Json.readRecord fields text.toList).bind ofValues with
  | none => .error (.invalidConfig "failed to parse MHA config")
  | some c =>
    if c.numThreads = some 0 then .error (.invalidConfig "num_threads must be positive") else .ok c

def member (name value : String) : String := "\"" ++ name ++ "\":" ++ value

def object (members : List String) : String := "\x7b" ++ ",".intercalate members ++ "\x7d"

def flagJson (b : Bool) : String := if b then "true" else "false"

/-- The configuration as a JSON object with all fields in their order. -/
def render (c : Config) : String :=
  object [
    member "batch_size" (toString c.batchSize), member "head_num" (toString c.headNum),
    member "seq_q" (toString c.seqQ), member "seq_k" (toString c.seqK),
    member "head_size" (toString c.headSize), member "approx_exp" (flagJson c.approxExp),
    member "stable_softmax" (flagJson c.stableSoftmax),
    member "num_threads" (match c.numThreads with | none => "null" | some n => toString n),
    member "release_tiles" (flagJson c.releaseTiles)]

end Config

namespace Dims

def fields : List Json.Field :=
  [⟨["batch_size"], .count⟩, ⟨["head_num"], .count⟩, ⟨["seq_q"], .count⟩, ⟨["seq_k"], .count⟩,
    ⟨["head_size"], .count⟩]

/-- Read dimensions, of which each must be given. -/
def parse? (text : String) : Option Dims :=
  match Json.readRecord fields text.toList with
  | some [some (.count batchSize), some (.count headNum), some (.count seqQ), some (.count seqK),
      some (.count headSize)] => some { batchSize, headNum, seqQ, seqK, headSize }
  | _ => none

def render (d : Dims) : String :=
  Config.object [
    Config.member "batch_size" (toString d.batchSize),
    Config.member "head_num" (toString d.headNum),
    Config.member "seq_q" (toString d.seqQ), Config.member "seq_k" (toString d.seqK),
    Config.member "head_size" (toString d.headSize)]

end Dims

end QuantAttention
