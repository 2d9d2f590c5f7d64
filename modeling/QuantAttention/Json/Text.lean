/-!
Tokens of JSON text. Every reader takes the text from some place on and returns what it read
together with the text behind it, or nothing where the text has no such token there.
-/

namespace QuantAttention.Json

def isBlank (c : Char) : Bool := c = ' ' || c = '\n' || c = '\t' || c = '\r'

/-- The text behind any blanks. -/
def skipBlanks : List Char → List Char
  | [] => []
  | c :: rest => if isBlank c then skipBlanks rest else c :: rest

theorem length_skipBlanks_le (text : List Char) : (skipBlanks text).length ≤ text.length := by
  induction text with
  | nil => simp [skipBlanks]
  | cons c rest ih =>
      simp only [skipBlanks]
      split <;> simp only [List.length_cons] <;> omega

/-- The text behind a word that must stand at its start. -/
def expect : List Char → List Char → Option (List Char)
  | [], text => some text
  | _ :: _, [] => none
  | w :: word, c :: rest => if w = c then expect word rest else none

theorem length_expect {word text rest : List Char} (h : expect word text = some rest) :
    rest.length + word.length = text.length := by
  induction word generalizing text with
  | nil => simp_all [expect]
  | cons w word ih =>
      cases text with
      | nil => simp [expect] at h
      | cons c text =>
          simp only [expect] at h
          split at h
          · have := ih h
            simp only [List.length_cons]
            omega
          · simp at h

def hexDigit? (c : Char) : Option Nat :=
  if '0' ≤ c ∧ c ≤ '9' then some (c.toNat - '0'.toNat)
  else if 'a' ≤ c ∧ c ≤ 'f' then some (c.toNat - 'a'.toNat + 10)
  else if 'A' ≤ c ∧ c ≤ 'F' then some (c.toNat - 'A'.toNat + 10)
  else none

def hexWord? (a b c d : Char) : Option Nat := do
  return (((← hexDigit? a) * 16 + (← hexDigit? b)) * 16 + (← hexDigit? c)) * 16 + (← hexDigit? d)

/-- The character that a backslash before `c` stands for. -/
def escape? (c : Char) : Option Char :=
  match c with
  | '"' => some '"'
  | '\\' => some '\\'
  | '/' => some '/'
  | 'b' => some '\x08'
  | 'f' => some '\x0c'
  | 'n' => some '\n'
  | 'r' => some '\r'
  | 't' => some '\t'
  | _ => none

/-- Characters below the blank must be escaped. -/
def isControl (c : Char) : Bool := c.toNat < 32

/-- The character that a surrogate pair stands for. -/
def pair? (high low : Nat) : Option Char :=
  if 0xDC00 ≤ low ∧ low < 0xE000 then
    some (Char.ofNat (0x10000 + (high - 0xD800) * 1024 + (low - 0xDC00)))
  else none

/-- The characters of a string up to its closing quote, behind those read so far in reverse. A
surrogate that is not half of a pair stands for no character. -/
def readStringFrom (done : List Char) : List Char → Option (List Char × List Char)
  | [] => none
  | '"' :: rest => some (done.reverse, rest)
  | '\\' :: 'u' :: a :: b :: c :: d :: rest =>
    match hexWord? a b c d with
    | none => none
    | some word =>
      if 0xD800 ≤ word ∧ word < 0xDC00 then
        match rest with
        | '\\' :: 'u' :: e :: f :: g :: h :: rest =>
          match (hexWord? e f g h).bind (pair? word) with
          | some char => readStringFrom (char :: done) rest
          | none => none
        | _ => none
      else if 0xDC00 ≤ word ∧ word < 0xE000 then none
      else readStringFrom (Char.ofNat word :: done) rest
  | '\\' :: c :: rest =>
    match escape? c with
    | some char => readStringFrom (char :: done) rest
    | none => none
  | c :: rest => if isControl c then none else readStringFrom (c :: done) rest

/-- The characters of a string whose opening quote has been read. -/
def readString (text : List Char) : Option (List Char × List Char) := readStringFrom [] text

theorem length_readStringFrom {done text chars rest : List Char}
    (h : readStringFrom done text = some (chars, rest)) : rest.length < text.length := by
  fun_induction readStringFrom done text <;> simp_all <;> omega

theorem length_readString {text chars rest : List Char} (h : readString text = some (chars, rest)) :
    rest.length < text.length := length_readStringFrom h

/-- The text behind the closing quote of a string whose opening quote has been read. Escapes must
have their form, but halves of surrogate pairs may stand alone. -/
def skipString : List Char → Option (List Char)
  | [] => none
  | '"' :: rest => some rest
  | '\\' :: 'u' :: a :: b :: c :: d :: rest =>
    if (hexWord? a b c d).isSome then skipString rest else none
  | '\\' :: c :: rest => if (escape? c).isSome then skipString rest else none
  | c :: rest => if isControl c then none else skipString rest

theorem length_skipString {text rest : List Char} (h : skipString text = some rest) :
    rest.length < text.length := by
  fun_induction skipString text <;> simp_all <;> omega

/-- The text behind any decimal digits. -/
def skipDigits : List Char → List Char
  | [] => []
  | c :: rest => if c.isDigit then skipDigits rest else c :: rest

theorem length_skipDigits_le (text : List Char) : (skipDigits text).length ≤ text.length := by
  induction text with
  | nil => simp [skipDigits]
  | cons c rest ih =>
      simp only [skipDigits]
      split <;> simp only [List.length_cons] <;> omega

def skipDigits1 : List Char → Option (List Char)
  | [] => none
  | c :: rest => if c.isDigit then some (skipDigits rest) else none

theorem length_skipDigits1 {text rest : List Char} (h : skipDigits1 text = some rest) :
    rest.length < text.length := by
  cases text with
  | nil => simp [skipDigits1] at h
  | cons c text =>
      simp only [skipDigits1] at h
      split at h
      · cases h
        have := length_skipDigits_le text
        simp only [List.length_cons]
        omega
      · simp at h

/-- The text behind a whole number without sign, which has no leading zeros. -/
def skipWhole : List Char → Option (List Char)
  | '0' :: rest => some rest
  | text => skipDigits1 text

/-- The text behind a decimal fraction, if there is one. -/
def skipFraction : List Char → Option (List Char)
  | '.' :: rest => skipDigits1 rest
  | text => some text

def skipExponent : List Char → Option (List Char)
  | 'e' :: '+' :: rest | 'e' :: '-' :: rest | 'E' :: '+' :: rest | 'E' :: '-' :: rest =>
    skipDigits1 rest
  | 'e' :: rest | 'E' :: rest => skipDigits1 rest
  | text => some text

def skipNumber : List Char → Option (List Char)
  | '-' :: rest => do skipExponent (← skipFraction (← skipWhole rest))
  | text => do skipExponent (← skipFraction (← skipWhole text))

theorem length_skipWhole {text rest : List Char} (h : skipWhole text = some rest) :
    rest.length < text.length := by
  unfold skipWhole at h
  split at h
  · cases h
    simp
  · exact length_skipDigits1 h

theorem length_skipFraction {text rest : List Char} (h : skipFraction text = some rest) :
    rest.length ≤ text.length := by
  unfold skipFraction at h
  split at h
  · have := length_skipDigits1 h
    simp only [List.length_cons]
    omega
  · cases h
    exact Nat.le_refl _

theorem length_skipExponent {text rest : List Char} (h : skipExponent text = some rest) :
    rest.length ≤ text.length := by
  unfold skipExponent at h
  split at h
  case h_7 =>
    cases h
    exact Nat.le_refl _
  all_goals
    have hDigits := length_skipDigits1 h
    simp only [List.length_cons]
    omega

theorem length_skipNumber {text rest : List Char} (h : skipNumber text = some rest) :
    rest.length < text.length := by
  unfold skipNumber at h
  split at h <;>
  · obtain ⟨a, ha, h⟩ := Option.bind_eq_some_iff.1 h
    obtain ⟨b, hb, h⟩ := Option.bind_eq_some_iff.1 h
    have hWhole := length_skipWhole ha
    have hFraction := length_skipFraction hb
    have hExponent := length_skipExponent h
    try rw [List.length_cons]
    omega

end QuantAttention.Json
