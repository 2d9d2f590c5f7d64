import QuantAttention.Binary32.Arithmetic

/-!
Symmetric quantization and the approximate exponential. An activation `x` is stored as an int8 `q`
with `x ≈ q * scale`, a probability as a multiple of `1 / 255`.
-/

namespace QuantAttention

/-- A quantization scale with its inverse. -/
structure Scale where
  scale : Binary32
  inverse : Binary32
  deriving DecidableEq, Repr, Inhabited

def activationMax : Binary32 := .ofInt 127

/-- The quantized probability one. -/
def probabilityMax : Binary32 := .ofInt 255

/-- The scale that takes `absMax` to 127. Only a positive `absMax` has one; everything else gets the
scale zero, with which all entries quantize to zero. -/
def Scale.ofAbsMax (absMax : Binary32) : Scale :=
  if Binary32.lt 0 absMax then ⟨absMax / activationMax, activationMax / absMax⟩ else ⟨0, 0⟩

/-- The int8 that stands for `x` under the scale with the given inverse. -/
def quantizeActivation (x inverse : Binary32) : Int8 :=
  ((x * inverse).roundHalfAway.clamp (-activationMax) activationMax).toInt8

/-- The byte that stands for the probability `p`. -/
def quantizeProbability (p : Binary32) : UInt8 :=
  ((p * probabilityMax).roundHalfAway.clamp 0 probabilityMax).toUInt8

def dequantize (entries : Array Int8) (scale : Binary32) : Array Binary32 :=
  entries.map fun q => .ofInt8 q * scale

/-- The greatest magnitude among the entries; entries that are not numbers do not count. -/
def absMax (entries : Array Binary32) : Binary32 :=
  entries.foldl (fun greatest x => greatest.maxNumber x.abs) 0

/-- Quantize entries with the scale of their greatest magnitude. -/
def quantizeDynamic (entries : Array Binary32) : Binary32 × Array Int8 :=
  let s := Scale.ofAbsMax (absMax entries)
  (s.scale, entries.map fun x => quantizeActivation x s.inverse)

namespace Exponential

/-- Arguments are clamped to `low … high`, so every power of two below is a normal number. -/
def low : Binary32 := .ofInt (-87)

def high : Binary32 := .ofInt 88

/-- The binary logarithm of the base of the exponential. -/
def log2e : Binary32 := ⟨1069066811⟩

/-- The coefficients of `2 ^ f` as a polynomial in `f`, those of degree one to five. -/
def coefficient1 : Binary32 := ⟨1060205080⟩
def coefficient2 : Binary32 := ⟨1047920112⟩
def coefficient3 : Binary32 := ⟨1029920839⟩
def coefficient4 : Binary32 := ⟨1008571739⟩
def coefficient5 : Binary32 := ⟨984531967⟩

/-- The polynomial that stands for `2 ^ f` on fractions `f`, in nested form. -/
def fractionPower (f : Binary32) : Binary32 :=
  .ofInt 1 + f * (coefficient1 + f * (coefficient2 + f * (coefficient3 + f *
    (coefficient4 + f * coefficient5))))

/-- The number whose exponent field is `n + 127`: the power `2 ^ n` where that is a normal number.
-/
def wholePower (n : Int) : Binary32 := ⟨UInt32.ofNat ((n + 127) % 4294967296).toNat <<< 23⟩

end Exponential

open Exponential in
/-- The exponential of `x`, up to a small relative error: `x` is split into a whole and a fractional
binary exponent, of which the first is exact and the second goes through a polynomial. -/
def approxExp (x : Binary32) : Binary32 :=
  let t := x.clamp low high * log2e
  let n := t.floor
  wholePower n.toInt32 * fractionPower (t - n)

end QuantAttention
