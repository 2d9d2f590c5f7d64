import QuantAttention.Operator.ElementType
import QuantAttention.Operator.Shape
import QuantAttention.Operator.Slot

/-!
Descriptors of the operator: one tensor description per slot, and attributes, which are texts under
text keys. `tensor_setTensor` and `attr_setAttribute` say that a write is seen under its own slot
or key and nowhere else.
-/

namespace QuantAttention

structure TensorDesc where
  shape : Shape
  elementType : ElementType
  deriving DecidableEq, Repr

namespace TensorDesc

def absent : TensorDesc := ⟨.empty, .u8⟩

instance : Inhabited TensorDesc := ⟨absent⟩

/-- Whether the tensor is absent. Its element type does not matter. -/
def isEmpty (t : TensorDesc) : Bool := t.shape.isEmpty

end TensorDesc

/-- Attributes in the order of their keys, each key once. -/
abbrev Attributes := List (String × String)

namespace Attributes

def get? : Attributes → String → Option String
  | [], _ => none
  | (k, v) :: rest, key => if key = k then some v else get? rest key

/-- Put a value under a key, in place of what stands there. -/
def set : Attributes → String → String → Attributes
  | [], key, value => [(key, value)]
  | (k, v) :: rest, key, value =>
    if key = k then (key, value) :: rest
    else if key < k then (key, value) :: (k, v) :: rest
    else (k, v) :: set rest key value

theorem get?_set (attributes : Attributes) (key value other : String) :
    (attributes.set key value).get? other =
      if other = key then some value else attributes.get? other := by
  induction attributes with
  | nil => simp [set, get?]
  | cons entry rest ih =>
      obtain ⟨k, v⟩ := entry
      simp only [set]
      by_cases hSame : key = k
      · subst hSame
        by_cases h : other = key <;> simp [get?, h]
      · rw [if_neg hSame]
        by_cases hBefore : key < k
        · rw [if_pos hBefore]
          by_cases h : other = key <;> simp [get?, h]
        · rw [if_neg hBefore]
          by_cases h : other = k
          · subst h
            simp [get?, Ne.symm hSame]
          · simp [get?, h, ih]

end Attributes

structure OperatorDesc where
  tensors : Vector TensorDesc Slot.count
  attributes : Attributes
  deriving DecidableEq

namespace OperatorDesc

/-- The descriptor in which every tensor is absent and no attribute is set. -/
def empty : OperatorDesc := ⟨Vector.replicate _ .absent, []⟩

def tensor (d : OperatorDesc) (slot : Slot) : TensorDesc :=
  have hIndex := slot.index_lt
  d.tensors[slot.index]

def shape (d : OperatorDesc) (slot : Slot) : Shape := (d.tensor slot).shape

def elementType (d : OperatorDesc) (slot : Slot) : ElementType := (d.tensor slot).elementType

def attr (d : OperatorDesc) (key : String) : Option String := d.attributes.get? key

def setTensor (d : OperatorDesc) (slot : Slot) (t : TensorDesc) : OperatorDesc :=
  { d with tensors := d.tensors.set slot.index t slot.index_lt }

def setAttribute (d : OperatorDesc) (key value : String) : OperatorDesc :=
  { d with attributes := d.attributes.set key value }

theorem tensor_setTensor (d : OperatorDesc) (slot other : Slot) (t : TensorDesc) :
    (d.setTensor slot t).tensor other = if other = slot then t else d.tensor other := by
  simp only [tensor, setTensor, Vector.getElem_set]
  by_cases h : other = slot
  · simp [h]
  · rw [if_neg h, if_neg fun hIndex => h (Slot.index_injective hIndex.symm)]

@[simp] theorem attr_setTensor (d : OperatorDesc) (slot : Slot) (t : TensorDesc) (key : String) :
    (d.setTensor slot t).attr key = d.attr key := rfl

theorem attr_setAttribute (d : OperatorDesc) (key value other : String) :
    (d.setAttribute key value).attr other =
      if other = key then some value else d.attr other :=
  Attributes.get?_set ..

@[simp] theorem tensor_setAttribute (d : OperatorDesc) (key value : String) (slot : Slot) :
    (d.setAttribute key value).tensor slot = d.tensor slot := rfl

@[simp] theorem tensor_empty (slot : Slot) : empty.tensor slot = .absent := by
  simp [tensor, empty]

end OperatorDesc

end QuantAttention
