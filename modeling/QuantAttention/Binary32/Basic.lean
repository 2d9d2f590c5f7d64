/-!
Single-precision numbers, kept as their 32 bits. Every finite number is an integer multiple of the
least positive one, so exact results are integers or ratios of integers counted in that unit, and
rounding is a function from such ratios to codes. The code of a magnitude is its bit pattern without
the sign; codes are ordered as the magnitudes are.
-/

namespace QuantAttention

/-- A single-precision number. Two numbers are equal when their bits are. -/
structure Binary32 where
  bits : UInt32
  deriving DecidableEq, Repr, Inhabited

namespace Binary32

/-- The bit pattern without the sign. -/
def code (x : Binary32) : Nat := x.bits.toNat % 2147483648

def negative (x : Binary32) : Bool := 2147483648 ≤ x.bits.toNat

/-- The code of infinity. Greater codes are not numbers. -/
def infinityCode : Nat := 2139095040

def ofCode (negative : Bool) (code : Nat) : Binary32 :=
  ⟨UInt32.ofNat (if negative then 2147483648 + code else code)⟩

/-- The result of every operation that has no numerical result. -/
def nan : Binary32 := ⟨2143289344⟩

def infinity (negative : Bool) : Binary32 := ofCode negative infinityCode

def zero : Binary32 := ⟨0⟩

instance : Zero Binary32 := ⟨zero⟩

def isNaN (x : Binary32) : Bool := infinityCode < x.code

def isInfinite (x : Binary32) : Bool := x.code = infinityCode

def isFinite (x : Binary32) : Bool := x.code < infinityCode

def isZero (x : Binary32) : Bool := x.code = 0

/-- The magnitude with a finite code, counted in least positive numbers: a code below `2 ^ 23` is
subnormal and stands for itself, any other has 23 bits of fraction and an exponent above them. -/
def magnitudeOfCode (code : Nat) : Nat :=
  if code < 8388608 then code else (8388608 + code % 8388608) * Nat.pow 2 (code / 8388608 - 1)

def magnitude (x : Binary32) : Nat := magnitudeOfCode x.code

/-- The value of a finite number, counted in least positive numbers. -/
def units (x : Binary32) : Int := if x.negative then -(x.magnitude : Int) else x.magnitude

/-- How many least positive numbers make one. -/
def one : Nat := Nat.pow 2 149

/-- The integer nearest to `num / den`; of two equally near ones the even one. -/
def nearestEven (num den : Nat) : Nat :=
  let quotient := num / den
  let rest := num % den
  if 2 * rest < den then quotient
  else if den < 2 * rest then quotient + 1
  else quotient + quotient % 2

/-- The code of the single-precision number nearest to `num / den` least positive numbers.
Significands have 24 bits, so a quotient of more bits is rounded to a multiple of a power of two;
the carry of a significand that rounds up to `2 ^ 24` falls into the exponent. What is too great
becomes infinity. -/
def roundCode (num den : Nat) : Nat :=
  let shift := (num / den).log2 - 23
  min (shift * 8388608 + nearestEven num (den * Nat.pow 2 shift)) infinityCode

/-- The nearest single-precision number to a signed ratio of least positive numbers. -/
def ofRatio (negative : Bool) (num den : Nat) : Binary32 := ofCode negative (roundCode num den)

/-- The nearest single-precision number to an integer of least positive numbers. `zeroNegative` is
the sign of an exact zero. -/
def ofUnits (zeroNegative : Bool) (units : Int) : Binary32 :=
  if units = 0 then ofCode zeroNegative 0 else ofRatio (units < 0) units.natAbs 1

/-- The position of a number in the order of the extended reals. Both zeros have rank `0`. -/
def rank (x : Binary32) : Int := if x.negative then -(x.code : Int) else x.code

/-- Strictly less. No comparison with something that is not a number holds. -/
def lt (x y : Binary32) : Bool := !x.isNaN && !y.isNaN && x.rank < y.rank

def le (x y : Binary32) : Bool := !x.isNaN && !y.isNaN && x.rank ≤ y.rank

end Binary32

end QuantAttention
