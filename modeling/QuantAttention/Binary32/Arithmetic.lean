import QuantAttention.Binary32.Basic

/-!
Operations on single-precision numbers. The exact result of an operation on finite numbers is formed
first and rounded once; the cases with infinities and with no numerical result come before it.
-/

namespace QuantAttention.Binary32

def neg (x : Binary32) : Binary32 := ofCode (!x.negative) x.code

def abs (x : Binary32) : Binary32 := ofCode false x.code

def add (x y : Binary32) : Binary32 :=
  if x.isNaN || y.isNaN then nan
  else if x.isInfinite then (if y.isInfinite && x.negative != y.negative then nan else x)
  else if y.isInfinite then y
  else ofUnits (x.negative && y.negative) (x.units + y.units)

def sub (x y : Binary32) : Binary32 := if y.isNaN then nan else add x (neg y)

def mul (x y : Binary32) : Binary32 :=
  let negative := x.negative != y.negative
  if x.isNaN || y.isNaN then nan
  else if x.isInfinite || y.isInfinite then
    (if x.isZero || y.isZero then nan else infinity negative)
  else ofRatio negative (x.magnitude * y.magnitude) one

def div (x y : Binary32) : Binary32 :=
  let negative := x.negative != y.negative
  if x.isNaN || y.isNaN then nan
  else if x.isInfinite then (if y.isInfinite then nan else infinity negative)
  else if y.isInfinite then ofCode negative 0
  else if y.isZero then (if x.isZero then nan else infinity negative)
  else ofRatio negative (x.magnitude * one) y.magnitude

instance : Neg Binary32 := ⟨neg⟩
instance : Add Binary32 := ⟨add⟩
instance : Sub Binary32 := ⟨sub⟩
instance : Mul Binary32 := ⟨mul⟩
instance : Div Binary32 := ⟨div⟩

/-- The greater number; where one operand is not a number, the other operand. -/
def maxNumber (x y : Binary32) : Binary32 :=
  if x.isNaN then y else if y.isNaN then x else if x.lt y then y else x

/-- The nearest number between `low` and `high`; what is not a number stays so. -/
def clamp (x low high : Binary32) : Binary32 :=
  let y := if x.lt low then low else x
  if high.lt y then high else y

def floor (x : Binary32) : Binary32 :=
  if x.isNaN then nan
  else if x.isInfinite then x
  else ofUnits x.negative (x.units.fdiv one * one)

/-- The nearest integer, the one further from zero where two are equally near. -/
def roundHalfAway (x : Binary32) : Binary32 :=
  if x.isNaN then nan
  else if x.isInfinite then x
  else ofRatio x.negative ((x.magnitude + one / 2) / one * one) 1

def ofInt (n : Int) : Binary32 := ofUnits false (n * one)

/-- The integer part, or the bound of `low … high` that lies nearest to it. What is not a number
has the integer part `0`. -/
def toIntWithin (x : Binary32) (low high : Int) : Int :=
  if x.isNaN then 0
  else if x.isInfinite then (if x.negative then low else high)
  else max low (min high (x.units.tdiv one))

def toInt8 (x : Binary32) : Int8 := Int8.ofInt (x.toIntWithin (-128) 127)

def toUInt8 (x : Binary32) : UInt8 := UInt8.ofNat (x.toIntWithin 0 255).toNat

def toInt32 (x : Binary32) : Int := x.toIntWithin (-2147483648) 2147483647

def ofInt8 (n : Int8) : Binary32 := ofInt n.toInt

/-- The bytes of a number in memory, the least significant one first. -/
def byte (x : Binary32) : Nat → UInt8
  | 0 => .ofNat x.bits.toNat
  | 1 => .ofNat (x.bits.toNat / 256)
  | 2 => .ofNat (x.bits.toNat / 65536)
  | _ => .ofNat (x.bits.toNat / 16777216)

/-- The number with the given bytes in memory. -/
def ofBytes (bytes : Nat → UInt8) : Binary32 :=
  ⟨.ofNat ((bytes 0).toNat + 256 * (bytes 1).toNat + 65536 * (bytes 2).toNat +
    16777216 * (bytes 3).toNat)⟩

theorem ofBytes_byte (x : Binary32) : ofBytes x.byte = x := by
  obtain ⟨bits⟩ := x
  have hBits := bits.toNat_lt
  simp only [ofBytes, byte, mk.injEq, ← UInt32.toNat_inj, UInt32.toNat_ofNat', UInt8.toNat_ofNat']
  omega

theorem byte_ofBytes (bytes : Nat → UInt8) {i : Nat} (hi : i < 4) :
    (ofBytes bytes).byte i = bytes i := by
  have h0 := (bytes 0).toNat_lt
  have h1 := (bytes 1).toNat_lt
  have h2 := (bytes 2).toNat_lt
  have h3 := (bytes 3).toNat_lt
  match i, hi with
  | 0, _ | 1, _ | 2, _ | 3, _ =>
    simp only [ofBytes, byte, ← UInt8.toNat_inj, UInt32.toNat_ofNat', UInt8.toNat_ofNat']
    omega

end QuantAttention.Binary32
