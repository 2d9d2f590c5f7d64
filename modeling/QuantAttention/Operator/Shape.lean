import QuantAttention.Size

/-!
Tensor shapes. A shape without dimensions marks an absent tensor, which has no elements.
-/

namespace QuantAttention

/-- Numbers in brackets, separated by a comma and a blank. -/
def bracketed (ns : List Nat) : String := "[" ++ ", ".intercalate (ns.map toString) ++ "]"

structure Shape where
  dims : List Nat
  deriving DecidableEq, Repr, Inhabited

namespace Shape

def empty : Shape := ⟨[]⟩

def scalar : Shape := ⟨[1]⟩

def rank (s : Shape) : Nat := s.dims.length

def isEmpty (s : Shape) : Bool := s.dims.isEmpty

/-- How many elements a tensor of this shape has. The dimensions are multiplied from the left, so a
product may leave the range of a size before a later zero is met. -/
def elements (s : Shape) : Checked Nat :=
  if s.isEmpty then .ok 0
  else (s.dims.foldl (fun (product : Size) (d : Nat) => product * (d : Size)) 1).eval

def text (s : Shape) : String := bracketed s.dims

def debugText (s : Shape) : String := "Shape(" ++ s.text ++ ")"

end Shape

end QuantAttention
