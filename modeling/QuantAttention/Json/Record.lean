import QuantAttention.Json.Skip

/-!
Reading a record of known fields. A record is written as a JSON object, whose members may come in
any order and among unknown ones, or as a JSON array of the first fields in their order. What is
read is one optional value per field.
-/

namespace QuantAttention.Json

inductive FieldKind where
  /-- A whole number that is a 64-bit word. -/
  | count
  | flag
  /-- A count, or `null` for none. -/
  | optionalCount
  deriving DecidableEq, Repr

inductive FieldValue where
  | count (n : Nat)
  | flag (b : Bool)
  | optionalCount (n : Option Nat)
  deriving DecidableEq, Repr

/-- The count that a field holds, or `fallback` where the field is not given. -/
def countOr (fallback : Nat) : Option FieldValue → Option Nat
  | none => some fallback
  | some (.count n) => some n
  | _ => none

def flagOr (fallback : Bool) : Option FieldValue → Option Bool
  | none => some fallback
  | some (.flag b) => some b
  | _ => none

def optionalCountOr (fallback : Option Nat) : Option FieldValue → Option (Option Nat)
  | none => some fallback
  | some (.optionalCount n) => some n
  | _ => none

/-- A field: its names, of which the first is the one that is written, and its kind. -/
structure Field where
  names : List String
  kind : FieldKind
  deriving DecidableEq, Repr

/-- One more than the greatest count. -/
def countLimit : Nat := 18446744073709551616

/-- The number written by decimal digits. -/
def decimalValue (digits : List Char) : Nat :=
  digits.foldl (fun n c => 10 * n + (c.toNat - '0'.toNat)) 0

/-- A count: decimal digits without leading zeros. -/
def readCount (text : List Char) : Option (Nat × List Char) := do
  let rest ← skipWhole text
  let n := decimalValue (text.take (text.length - rest.length))
  if n < countLimit then some (n, rest) else none

def readFlag (text : List Char) : Option (Bool × List Char) :=
  match expect ['t', 'r', 'u', 'e'] text with
  | some rest => some (true, rest)
  | none => (expect ['f', 'a', 'l', 's', 'e'] text).map (false, ·)

/-- A value of the given kind, behind blanks. -/
def readFieldValue (kind : FieldKind) (text : List Char) : Option (FieldValue × List Char) :=
  let text := skipBlanks text
  match kind with
  | .count => (readCount text).map fun (n, rest) => (.count n, rest)
  | .flag => (readFlag text).map fun (b, rest) => (.flag b, rest)
  | .optionalCount =>
    match expect ['n', 'u', 'l', 'l'] text with
    | some rest => some (.optionalCount none, rest)
    | none => (readCount text).map fun (n, rest) => (.optionalCount (some n), rest)

theorem length_readCount {text rest : List Char} {n : Nat} (h : readCount text = some (n, rest)) :
    rest.length < text.length := by
  obtain ⟨middle, hMiddle, h⟩ := Option.bind_eq_some_iff.1 h
  have := length_skipWhole hMiddle
  dsimp only at h
  split at h
  · cases h
    exact this
  · simp at h

theorem length_readFlag {text rest : List Char} {b : Bool} (h : readFlag text = some (b, rest)) :
    rest.length ≤ text.length := by
  unfold readFlag at h
  split at h
  · next heq =>
    cases h
    have := length_expect heq
    omega
  · obtain ⟨middle, hMiddle, h⟩ := Option.map_eq_some_iff.1 h
    cases h
    have := length_expect hMiddle
    omega

theorem length_readFieldValue {kind : FieldKind} {text rest : List Char} {value : FieldValue}
    (h : readFieldValue kind text = some (value, rest)) : rest.length ≤ text.length := by
  have hBlanks := length_skipBlanks_le text
  unfold readFieldValue at h
  cases kind with
  | count =>
      obtain ⟨⟨n, middle⟩, hMiddle, h⟩ := Option.map_eq_some_iff.1 h
      cases h
      have := length_readCount hMiddle
      omega
  | flag =>
      obtain ⟨⟨b, middle⟩, hMiddle, h⟩ := Option.map_eq_some_iff.1 h
      cases h
      have := length_readFlag hMiddle
      omega
  | optionalCount =>
      dsimp only at h
      split at h
      · next heq =>
        cases h
        have := length_expect heq
        omega
      · obtain ⟨⟨n, middle⟩, hMiddle, h⟩ := Option.map_eq_some_iff.1 h
        obtain ⟨-, rfl⟩ := Prod.mk.inj h
        have := length_readCount hMiddle
        dsimp only
        omega

/-- The values of a record: one entry per field, empty where the record does not give the field. -/
abbrev Values := List (Option FieldValue)

def noValues (fields : List Field) : Values := fields.map fun _ => none

def findField (fields : List Field) (key : String) : Option (Nat × Field) :=
  (fields.zipIdx.find? fun (field, _) => field.names.contains key).map fun (field, i) => (i, field)

/-- Read the value of a member under a key, and put it among the values read so far. A member that
is no field is skipped; a field must not be given twice. -/
def readMember (fields : List Field) (values : Values) (key : String) (text : List Char) :
    Option (Values × List Char) :=
  match findField fields key with
  | none => (skipValue text).map (values, ·)
  | some (i, field) =>
    if (values.getD i none).isSome then none
    else (readFieldValue field.kind text).map fun (value, rest) => (values.set i (some value), rest)

theorem length_readMember {fields : List Field} {values out : Values} {key : String}
    {text rest : List Char} (h : readMember fields values key text = some (out, rest)) :
    rest.length ≤ text.length := by
  unfold readMember at h
  split at h
  · obtain ⟨middle, hMiddle, h⟩ := Option.map_eq_some_iff.1 h
    cases h
    exact length_skipValue hMiddle
  · split at h
    · simp at h
    · obtain ⟨⟨value, middle⟩, hMiddle, h⟩ := Option.map_eq_some_iff.1 h
      cases h
      exact length_readFieldValue hMiddle

def readKey (text : List Char) : Option (String × List Char) :=
  match skipBlanks text with
  | '"' :: rest => do
    let (key, rest) ← readString rest
    match skipBlanks rest with
    | ':' :: rest => some (String.ofList key, rest)
    | _ => none
  | _ => none

theorem length_readKey {text rest : List Char} {key : String}
    (h : readKey text = some (key, rest)) : rest.length < text.length := by
  have hBlanks := length_skipBlanks_le text
  unfold readKey at h
  split at h
  · next heq =>
    rw [heq, List.length_cons] at hBlanks
    obtain ⟨⟨chars, middle⟩, hMiddle, h⟩ := Option.bind_eq_some_iff.1 h
    have hString := length_readString hMiddle
    have hInner := length_skipBlanks_le middle
    dsimp only at h
    split at h
    · next heq =>
      cases h
      rw [heq, List.length_cons] at hInner
      omega
    · simp at h
  · simp at h

/-- Read members up to the bracket that closes the object; there must be one more. -/
def readMembers (fields : List Field) (values : Values) (text : List Char) :
    Option (Values × List Char) :=
  match _hKey : readKey text with
  | none => none
  | some (key, afterKey) =>
    match _hMember : readMember fields values key afterKey with
    | none => none
    | some (values, afterMember) =>
      match _hNext : skipBlanks afterMember with
      | '}' :: rest => some (values, rest)
      | ',' :: rest => readMembers fields values rest
      | _ => none
termination_by text.length
decreasing_by
  have h₁ := length_readKey _hKey
  have h₂ := length_readMember _hMember
  have h₃ := length_skipBlanks_le afterMember
  rw [_hNext, List.length_cons] at h₃
  omega

/-- Read an object whose opening bracket has been read. -/
def readObject (fields : List Field) (text : List Char) : Option (Values × List Char) :=
  match skipBlanks text with
  | '}' :: rest => some (noValues fields, rest)
  | _ => readMembers fields (noValues fields) text

/-- Read an array whose opening bracket, or whose previous element, has been read. Fields that the
array does not reach are not given. -/
def readElements (first : Bool) (fields : List Field) (text : List Char) :
    Option (Values × List Char) :=
  match skipBlanks text with
  | ']' :: rest => some (noValues fields, rest)
  | next => do
    match fields with
    | [] => none
    | field :: fields =>
      let text ← if first then some next else expect [','] next
      let (value, rest) ← readFieldValue field.kind text
      let (values, rest) ← readElements false fields rest
      return (some value :: values, rest)

/-- The values of the record that the whole text is. -/
def readRecord (fields : List Field) (text : List Char) : Option Values := do
  let (values, rest) ←
    match skipBlanks text with
    | '{' :: rest => readObject fields rest
    | '[' :: rest => readElements true fields rest
    | _ => none
  if (skipBlanks rest).isEmpty then some values else none

end QuantAttention.Json
