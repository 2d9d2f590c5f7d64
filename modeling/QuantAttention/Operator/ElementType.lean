/-!
Element types that a tensor slot may declare. The operator takes int8 activations and
single-precision scales; the other types are there so that a descriptor can name them and be
refused.
-/

namespace QuantAttention

inductive ElementType where
  | f16 | bf16 | f32 | f64 | s8 | u8 | s32 | s64
  deriving DecidableEq, Repr, Inhabited

namespace ElementType

def all : List ElementType := [f16, bf16, f32, f64, s8, u8, s32, s64]

theorem mem_all (t : ElementType) : t ∈ all := by cases t <;> decide

def bytes : ElementType → Nat
  | s8 | u8 => 1
  | f16 | bf16 => 2
  | f32 | s32 => 4
  | f64 | s64 => 8

def name : ElementType → String
  | f16 => "f16"
  | bf16 => "bf16"
  | f32 => "f32"
  | f64 => "f64"
  | s8 => "s8"
  | u8 => "u8"
  | s32 => "s32"
  | s64 => "s64"

end ElementType

end QuantAttention
