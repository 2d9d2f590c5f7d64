import QuantAttention.Json.Text

/-!
Skipping a JSON value of any kind and depth. The open brackets are kept in a list, so the depth of a
value costs no more than its length.
-/

namespace QuantAttention.Json

/-- The text behind a value that is no list and no record. -/
def skipScalar : List Char → Option (List Char)
  | '"' :: rest => skipString rest
  | 't' :: rest => expect ['r', 'u', 'e'] rest
  | 'f' :: rest => expect ['a', 'l', 's', 'e'] rest
  | 'n' :: rest => expect ['u', 'l', 'l'] rest
  | text => skipNumber text

theorem length_skipScalar {text rest : List Char} (h : skipScalar text = some rest) :
    rest.length < text.length := by
  unfold skipScalar at h
  split at h
  · have := length_skipString h
    simp only [List.length_cons]
    omega
  · have := length_expect h
    simp only [List.length_cons]
    omega
  · have := length_expect h
    simp only [List.length_cons]
    omega
  · have := length_expect h
    simp only [List.length_cons]
    omega
  · exact length_skipNumber h

def skipKey : List Char → Option (List Char)
  | '"' :: rest => do
    match skipBlanks (← skipString rest) with
    | ':' :: rest => some rest
    | _ => none
  | _ => none

theorem length_skipKey {text rest : List Char} (h : skipKey text = some rest) :
    rest.length < text.length := by
  unfold skipKey at h
  split at h
  · obtain ⟨middle, hMiddle, h⟩ := Option.bind_eq_some_iff.1 h
    have hString := length_skipString hMiddle
    have hBlanks := length_skipBlanks_le middle
    split at h
    · next heq =>
      cases h
      rw [heq] at hBlanks
      simp only [List.length_cons] at *
      omega
    · simp at h
  · simp at h

inductive Bracket where
  | list
  | record
  deriving DecidableEq, Repr

def Bracket.closing : Bracket → Char
  | list => ']'
  | record => '}'

/-- What has to come next. -/
inductive Place where
  /-- A value. -/
  | value
  /-- A value of the innermost list, or a key and a value of the innermost record. -/
  | entry
  /-- An entry, or the closing bracket of an empty list or record. -/
  | opened
  /-- A comma or a closing bracket; nothing, where no bracket is open. -/
  | ended
  deriving DecidableEq, Repr

/-- How many places can follow each other without a character between them. -/
def Place.rank : Place → Nat
  | value | ended => 0
  | entry => 1
  | opened => 2

/-- The text behind the value that is being read. -/
def skipFrom (place : Place) (brackets : List Bracket) (text : List Char) : Option (List Char) :=
  match place, brackets with
  | .ended, [] => some text
  | .entry, [] | .opened, [] => none
  | .value, brackets =>
    match _hNext : skipBlanks text with
    | '[' :: rest => skipFrom .opened (.list :: brackets) rest
    | '{' :: rest => skipFrom .opened (.record :: brackets) rest
    | next =>
      match _hScalar : skipScalar next with
      | some rest => skipFrom .ended brackets rest
      | none => none
  | .entry, .list :: outer => skipFrom .value (.list :: outer) text
  | .entry, .record :: outer =>
    match _hKey : skipKey (skipBlanks text) with
    | some rest => skipFrom .value (.record :: outer) rest
    | none => none
  | .opened, bracket :: outer =>
    match _hNext : skipBlanks text with
    | [] => none
    | c :: rest =>
      if c = bracket.closing then skipFrom .ended outer rest
      else skipFrom .entry (bracket :: outer) text
  | .ended, bracket :: outer =>
    match _hNext : skipBlanks text with
    | [] => none
    | c :: rest =>
      if c = bracket.closing then skipFrom .ended outer rest
      else if c = ',' then skipFrom .entry (bracket :: outer) rest
      else none
termination_by (text.length, place.rank)
decreasing_by
  all_goals
    have hBlanks := length_skipBlanks_le text
    simp only [Prod.lex_def, Place.rank]
  · rw [_hNext, List.length_cons] at hBlanks
    omega
  · rw [_hNext, List.length_cons] at hBlanks
    omega
  · have := length_skipScalar _hScalar
    rw [← _hNext] at this
    omega
  · exact .inr ⟨trivial, by decide⟩
  · have := length_skipKey _hKey
    omega
  · rw [_hNext, List.length_cons] at hBlanks
    omega
  · exact .inr ⟨trivial, by decide⟩
  · rw [_hNext, List.length_cons] at hBlanks
    omega
  · rw [_hNext, List.length_cons] at hBlanks
    omega

theorem length_skipFrom {place : Place} {brackets : List Bracket} {text rest : List Char}
    (h : skipFrom place brackets text = some rest) : rest.length ≤ text.length := by
  fun_induction skipFrom place brackets text generalizing rest with
  | case1 => cases h; exact Nat.le_refl _
  | case2 | case3 | case7 | case10 | case11 | case14 | case17 => cases h
  | case4 text _ _ hNext ih | case5 text _ _ hNext ih | case12 text _ _ _ hNext ih
  | case15 text _ _ _ hNext ih | case16 text _ _ _ hNext _ ih =>
    have hBlanks := length_skipBlanks_le text
    rw [hNext, List.length_cons] at hBlanks
    have := ih h
    omega
  | case6 text _ _ _ _ hScalar ih =>
    have hBlanks := length_skipBlanks_le text
    have hShorter := length_skipScalar hScalar
    have := ih h
    omega
  | case8 _ _ ih | case13 _ _ _ _ _ _ _ ih => exact ih h
  | case9 text _ _ hKey ih =>
    have hBlanks := length_skipBlanks_le text
    have hShorter := length_skipKey hKey
    have := ih h
    omega

def skipValue (text : List Char) : Option (List Char) := skipFrom .value [] text

theorem length_skipValue {text rest : List Char} (h : skipValue text = some rest) :
    rest.length ≤ text.length := length_skipFrom h

end QuantAttention.Json
