/-!
What a call does that its buffers do not show: which kernels ran on which worker with which
numbers, and where tile registers were loaded.
-/

namespace QuantAttention

inductive KernelKind where
  | keyPacking
  | valuePacking
  | probabilities
  | outputs
  deriving DecidableEq, Repr

/-- One run of a kernel. The numbers are buffer lengths, counts, strides and steps, in the order
that the kernel fixes. -/
structure Invocation where
  kernel : KernelKind
  numbers : List Nat
  deriving DecidableEq, Repr

inductive Event where
  | configured (worker : Nat)
  | invoked (worker : Nat) (invocation : Invocation)
  deriving DecidableEq, Repr

def invocations (log : Array Event) : List Invocation :=
  log.toList.filterMap fun
    | .invoked _ invocation => some invocation
    | .configured _ => none

end QuantAttention
