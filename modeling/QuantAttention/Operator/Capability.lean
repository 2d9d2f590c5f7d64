/-!
The instruction-set features of a host that matter here.
-/

namespace QuantAttention

structure Capability where
  avx512f : Bool := false
  amxTile : Bool := false
  amxInt8 : Bool := false
  amxBf16 : Bool := false
  deriving DecidableEq, Repr, Inhabited

namespace Capability

def none : Capability := {}

def amx : Capability := ⟨true, true, true, true⟩

/-- The name of the best tier of instructions that the host has. -/
def bestTier (c : Capability) : String :=
  if c.amxInt8 then "AMX-INT8"
  else if c.amxTile then "AMX"
  else if c.avx512f then "AVX-512"
  else "scalar"

end Capability

end QuantAttention
