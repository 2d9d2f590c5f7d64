/-!
Digests of memory: the FNV-1a hash of bytes in 64 bits, written as sixteen hexadecimal digits.
-/

namespace QuantAttention

namespace Digest

/-- The hash of no bytes. -/
def basis : UInt64 := 14695981039346656037

def prime : UInt64 := 1099511628211

/-- Every byte is mixed in and spread over the word. -/
def hash (bytes : Array UInt8) : UInt64 :=
  bytes.foldl (fun h byte => (h ^^^ byte.toUInt64) * prime) basis

/-- The lowest `count` hexadecimal digits of a number, the most significant one first. -/
def hexDigits : (count : Nat) → Nat → List Char
  | 0, _ => []
  | count + 1, n => hexDigits count (n / 16) ++ [Nat.digitChar (n % 16)]

def text (bytes : Array UInt8) : String := String.ofList (hexDigits 16 (hash bytes).toNat)

end Digest

end QuantAttention
