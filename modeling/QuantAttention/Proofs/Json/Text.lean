import Mathlib.Data.List.TakeWhile
import QuantAttention.Json.Text

/-! The tokens of JSON text, told without their readers: blanks, strings and numbers. A reader finds
a token at the start of a text exactly where there is one. A number goes on as far as it can, so its
readers need to know how the text behind it starts. -/

namespace QuantAttention.Json

variable {text rest body : List Char}

def Blanks (text : List Char) : Prop := ∀ c ∈ text, isBlank c = true

theorem blanks_nil : Blanks [] := fun _ h => absurd h List.not_mem_nil

theorem skipBlanks_eq_dropWhile (text : List Char) : skipBlanks text = text.dropWhile isBlank := by
  induction text with
  | nil => rfl
  | cons c rest ih =>
      rw [skipBlanks, List.dropWhile_cons]
      split
      · exact ih
      · rfl

/-- Blanks in front of a text make no difference to what is read behind them, which is why a
spelling may have them anywhere between its parts. -/
theorem skipBlanks_append {before : List Char} (h : Blanks before) (rest : List Char) :
    skipBlanks (before ++ rest) = skipBlanks rest := by
  rw [skipBlanks_eq_dropWhile, skipBlanks_eq_dropWhile, List.dropWhile_append_of_pos h]

theorem skipBlanks_eq_nil_iff : skipBlanks text = [] ↔ Blanks text := by
  rw [skipBlanks_eq_dropWhile, List.dropWhile_eq_nil_iff, Blanks]

theorem skipBlanks_cons {c : Char} (h : isBlank c = false) (rest : List Char) :
    skipBlanks (c :: rest) = c :: rest := by
  rw [skipBlanks, h, if_neg Bool.false_ne_true]

/-- What was skipped are blanks, and nothing else was. With this every text splits into its blanks
and the rest. -/
theorem exists_blanks (text : List Char) :
    ∃ before, Blanks before ∧ text = before ++ skipBlanks text := by
  refine ⟨text.takeWhile isBlank, List.all_eq_true.1 List.all_takeWhile, ?_⟩
  rw [skipBlanks_eq_dropWhile, List.takeWhile_append_dropWhile]

theorem skipBlanks_skipBlanks (text : List Char) : skipBlanks (skipBlanks text) = skipBlanks text := by
  obtain ⟨before, hBefore, hText⟩ := exists_blanks text
  rw [← skipBlanks_append hBefore, ← hText]

theorem exists_blanks_of_skipBlanks {next : List Char} (h : skipBlanks text = next) :
    ∃ before, Blanks before ∧ text = before ++ next := h ▸ exists_blanks text

/-- A word is expected and found exactly where the text starts with it. -/
theorem expect_eq_some_iff {word : List Char} :
    expect word text = some rest ↔ text = word ++ rest := by
  induction word generalizing text with
  | nil => simp [expect]
  | cons w word ih =>
      cases text with
      | nil => simp [expect]
      | cons c text =>
          rw [expect, List.cons_append, List.cons.injEq]
          split
          · next hSame => simp [ih, hSame]
          · next hOther => simp [Ne.symm hOther]

/-! ### Strings -/

/-- The text between two quotes spells these characters. A surrogate must be half of a pair. -/
inductive Spells : List Char → List Char → Prop
  | nil : Spells [] []
  | plain {c : Char} {text chars : List Char} (hQuote : c ≠ '"') (hBackslash : c ≠ '\\')
      (hControl : isControl c = false) (hRest : Spells text chars) : Spells (c :: text) (c :: chars)
  | escape {c char : Char} {text chars : List Char} (hEscape : escape? c = some char)
      (hRest : Spells text chars) : Spells ('\\' :: c :: text) (char :: chars)
  | word {a b c d : Char} {word : Nat} {text chars : List Char} (hWord : hexWord? a b c d = some word)
      (hAlone : word < 0xD800 ∨ 0xE000 ≤ word) (hRest : Spells text chars) :
      Spells ('\\' :: 'u' :: a :: b :: c :: d :: text) (Char.ofNat word :: chars)
  | pair {a b c d e f g h : Char} {high low : Nat} {char : Char} {text chars : List Char}
      (hHigh : hexWord? a b c d = some high) (hRange : 0xD800 ≤ high ∧ high < 0xDC00)
      (hLow : hexWord? e f g h = some low) (hPair : pair? high low = some char)
      (hRest : Spells text chars) :
      Spells ('\\' :: 'u' :: a :: b :: c :: d :: '\\' :: 'u' :: e :: f :: g :: h :: text)
        (char :: chars)

/-- The text between two quotes of a string whose characters do not matter. -/
inductive StringText : List Char → Prop
  | nil : StringText []
  | plain {c : Char} {text : List Char} (hQuote : c ≠ '"') (hBackslash : c ≠ '\\')
      (hControl : isControl c = false) (hRest : StringText text) : StringText (c :: text)
  | escape {c : Char} {text : List Char} (hEscape : (escape? c).isSome = true)
      (hRest : StringText text) : StringText ('\\' :: c :: text)
  | word {a b c d : Char} {text : List Char} (hWord : (hexWord? a b c d).isSome = true)
      (hRest : StringText text) : StringText ('\\' :: 'u' :: a :: b :: c :: d :: text)

/-- The reader of strings turns the spelling of characters into the characters, up to the closing
quote. -/
theorem readStringFrom_of_spells {done chars : List Char} (h : Spells body chars) :
    readStringFrom done (body ++ '"' :: rest) = some (done.reverse ++ chars, rest) := by
  induction h generalizing done with
  | nil => simp [readStringFrom]
  | plain hQuote hBackslash hControl _ ih =>
      rw [List.cons_append, readStringFrom, hControl, if_neg Bool.false_ne_true, ih]
      · simp
      all_goals simp_all
  | escape hEscape _ ih =>
      rw [List.cons_append, List.cons_append, readStringFrom, hEscape]
      · simp [ih]
      · rintro a b c d rest rfl
        simp [escape?] at hEscape
  | word hWord hAlone _ ih =>
      simp only [List.cons_append, readStringFrom, hWord]
      rw [if_neg (by omega), if_neg (by omega), ih]
      simp
  | pair hHigh hRange hLow hPair _ ih =>
      simp only [List.cons_append, readStringFrom, hHigh, if_pos hRange, hLow, Option.bind_some,
        hPair, ih]
      simp

/-- Conversely, what the reader has turned into characters is a spelling of them, with a closing
quote behind it. -/
theorem exists_spells_of_readStringFrom {done chars : List Char}
    (h : readStringFrom done text = some (chars, rest)) :
    ∃ body tail, Spells body tail ∧ chars = done.reverse ++ tail ∧ text = body ++ '"' :: rest := by
  fun_induction readStringFrom done text with
  | case1 => cases h
  | case2 done rest =>
      cases h
      exact ⟨[], [], .nil, by simp, rfl⟩
  | case3 | case5 | case6 | case7 | case10 | case11 => cases h
  | case4 done a b c d word hWord hRange e f g k rest char hChar ih =>
      obtain ⟨body, tail, hSpells, rfl, rfl⟩ := ih h
      obtain ⟨low, hLow, hPair⟩ := Option.bind_eq_some_iff.1 hChar
      exact ⟨_, _, .pair hWord hRange hLow hPair hSpells, by simp, rfl⟩
  | case8 done a b c d rest word hWord hHigh hLow ih =>
      obtain ⟨body, tail, hSpells, rfl, rfl⟩ := ih h
      exact ⟨_, _, .word hWord (by omega) hSpells, by simp, rfl⟩
  | case9 done c rest _ char hEscape ih =>
      obtain ⟨body, tail, hSpells, rfl, rfl⟩ := ih h
      exact ⟨_, _, .escape hEscape hSpells, by simp, rfl⟩
  | case12 done c rest hQuote hWord hEscape hControl ih =>
      obtain ⟨body, tail, hSpells, hChars, rfl⟩ := ih h
      have hBackslash : c ≠ '\\' := by
        rintro rfl
        cases body with
        | nil => exact hEscape _ _ rfl rfl
        | cons => exact hEscape _ _ rfl rfl
      exact ⟨c :: body, c :: tail, .plain hQuote hBackslash (Bool.eq_false_iff.2 hControl) hSpells,
        by simpa using hChars, rfl⟩

/-- The reader of strings finds a string wherever one starts, and nothing else. It is told by the
two lemmas before it, one for each direction. -/
theorem readString_eq_some_iff {chars : List Char} :
    readString text = some (chars, rest) ↔
      ∃ body, Spells body chars ∧ text = body ++ '"' :: rest := by
  constructor
  · intro h
    obtain ⟨body, tail, hSpells, rfl, rfl⟩ := exists_spells_of_readStringFrom h
    exact ⟨body, hSpells, rfl⟩
  · rintro ⟨body, hSpells, rfl⟩
    exact readStringFrom_of_spells hSpells

/-- A string may be skipped without being read. Escapes are looked at only as far as the closing
quote asks for. -/
theorem skipString_of_stringText (h : StringText body) :
    skipString (body ++ '"' :: rest) = some rest := by
  induction h with
  | nil => rfl
  | plain hQuote hBackslash hControl _ ih =>
      rw [List.cons_append, skipString, hControl, if_neg Bool.false_ne_true, ih]
      all_goals simp_all
  | escape hEscape _ ih =>
      rw [List.cons_append, List.cons_append, skipString, hEscape, if_pos rfl, ih]
      rintro a b c d rest rfl
      simp [escape?] at hEscape
  | word hWord _ ih => simp only [List.cons_append, skipString, hWord, if_pos, ih]

/-- Skipping a string succeeds exactly where one starts, and leaves what is behind it. -/
theorem skipString_eq_some_iff :
    skipString text = some rest ↔ ∃ body, StringText body ∧ text = body ++ '"' :: rest := by
  constructor
  · intro h
    fun_induction skipString text with
    | case1 | case4 | case6 | case7 => cases h
    | case2 rest =>
        cases h
        exact ⟨[], .nil, rfl⟩
    | case3 a b c d rest hWord ih =>
        obtain ⟨body, hBody, rfl⟩ := ih h
        exact ⟨_, .word hWord hBody, rfl⟩
    | case5 c rest _ hEscape ih =>
        obtain ⟨body, hBody, rfl⟩ := ih h
        exact ⟨_, .escape hEscape hBody, rfl⟩
    | case8 c rest hQuote hWord hEscape hControl ih =>
        obtain ⟨body, hBody, rfl⟩ := ih h
        have hBackslash : c ≠ '\\' := by
          rintro rfl
          cases body with
          | nil => exact hEscape _ _ rfl rfl
          | cons => exact hEscape _ _ rfl rfl
        exact ⟨_, .plain hQuote hBackslash (Bool.eq_false_iff.2 hControl) hBody, rfl⟩
  · rintro ⟨body, hBody, rfl⟩
    exact skipString_of_stringText hBody

/-! ### Numbers -/

structure Digits (text : List Char) : Prop where
  nonempty : text ≠ []
  digit : ∀ c ∈ text, c.isDigit = true

/-- A whole number without sign, which has no leading zeros. -/
inductive Whole : List Char → Prop
  | zero : Whole ['0']
  | digits {c : Char} {text : List Char} (hFirst : c ≠ '0') (h : Digits (c :: text)) :
      Whole (c :: text)

inductive Fraction : List Char → Prop
  | none : Fraction []
  | digits {text : List Char} (h : Digits text) : Fraction ('.' :: text)

inductive Exponent : List Char → Prop
  | none : Exponent []
  | plain {e : Char} {text : List Char} (hMark : e = 'e' ∨ e = 'E') (h : Digits text) :
      Exponent (e :: text)
  | signed {e sign : Char} {text : List Char} (hMark : e = 'e' ∨ e = 'E')
      (hSign : sign = '+' ∨ sign = '-') (h : Digits text) : Exponent (e :: sign :: text)

/-- A number without sign. -/
inductive Unsigned : List Char → Prop
  | mk {whole fraction exponent : List Char} (hWhole : Whole whole) (hFraction : Fraction fraction)
      (hExponent : Exponent exponent) : Unsigned (whole ++ (fraction ++ exponent))

inductive Number : List Char → Prop
  | plain {text : List Char} (h : Unsigned text) : Number text
  | negative {text : List Char} (h : Unsigned text) : Number ('-' :: text)

/-- The characters with which a number can go on. -/
def continuesNumber (c : Char) : Bool := c.isDigit || c = '.' || c = 'e' || c = 'E'

/-- No number goes on here. -/
def NumberEnds (rest : List Char) : Prop := ∀ c ∈ rest.head?, continuesNumber c = false

theorem skipDigits_eq_dropWhile (text : List Char) :
    skipDigits text = text.dropWhile Char.isDigit := by
  induction text with
  | nil => rfl
  | cons c rest ih =>
      rw [skipDigits, List.dropWhile_cons]
      split
      · exact ih
      · rfl

/-- Digits are skipped up to the first character that is none, so a number ends where its digits do.
-/
theorem skipDigits_append {digits : List Char} (hDigits : ∀ c ∈ digits, c.isDigit = true)
    (hRest : ∀ c ∈ rest.head?, c.isDigit = false) : skipDigits (digits ++ rest) = rest := by
  rw [skipDigits_eq_dropWhile, List.dropWhile_append_of_pos hDigits]
  cases rest with
  | nil => rfl
  | cons c rest => rw [List.dropWhile_cons, hRest c rfl, if_neg Bool.false_ne_true]

theorem skipDigits1_append {digits : List Char} (h : Digits digits)
    (hRest : ∀ c ∈ rest.head?, c.isDigit = false) : skipDigits1 (digits ++ rest) = some rest := by
  obtain ⟨hNonempty, hDigit⟩ := h
  cases digits with
  | nil => exact absurd rfl hNonempty
  | cons c digits =>
      rw [List.forall_mem_cons] at hDigit
      rw [List.cons_append, skipDigits1, hDigit.1, if_pos rfl, skipDigits_append hDigit.2 hRest]

theorem exists_digits_of_skipDigits1 (h : skipDigits1 text = some rest) :
    ∃ digits, Digits digits ∧ text = digits ++ rest := by
  cases text with
  | nil => cases h
  | cons c text =>
      rw [skipDigits1, Option.ite_none_right_eq_some] at h
      obtain ⟨hFirst, hRest⟩ := h
      refine ⟨c :: text.takeWhile Char.isDigit, ⟨List.cons_ne_nil _ _, ?_⟩, ?_⟩
      · exact List.forall_mem_cons.2 ⟨hFirst, List.all_eq_true.1 List.all_takeWhile⟩
      · rw [← Option.some.inj hRest, skipDigits_eq_dropWhile, List.cons_append,
          List.takeWhile_append_dropWhile]

/-- A whole number is skipped with all its digits. It has no zero in front unless it is zero. -/
theorem skipWhole_append {whole : List Char} (h : Whole whole)
    (hRest : ∀ c ∈ rest.head?, c.isDigit = false) : skipWhole (whole ++ rest) = some rest := by
  cases h with
  | zero => rfl
  | digits hFirst hDigits =>
      rw [List.cons_append, skipWhole]
      · exact skipDigits1_append hDigits hRest
      · intro _ hZero
        exact hFirst (List.cons.inj hZero).1

/-- What was skipped as a whole number is one. -/
theorem exists_whole_of_skipWhole (h : skipWhole text = some rest) :
    ∃ whole, Whole whole ∧ text = whole ++ rest := by
  unfold skipWhole at h
  split at h
  · cases h
    exact ⟨_, .zero, rfl⟩
  · next hZero =>
    obtain ⟨digits, hDigits, rfl⟩ := exists_digits_of_skipDigits1 h
    cases digits with
    | nil => exact absurd rfl hDigits.nonempty
    | cons c digits =>
        refine ⟨_, .digits ?_ hDigits, rfl⟩
        rintro rfl
        exact hZero _ rfl

theorem NumberEnds.not_digit (h : NumberEnds rest) : ∀ c ∈ rest.head?, c.isDigit = false := by
  intro c hc
  have hEnd := h c hc
  simp only [continuesNumber, Bool.or_eq_false_iff] at hEnd
  exact hEnd.1.1.1

/-- A fraction is skipped, the empty one included. For this no point may follow, since that would
begin another. -/
theorem skipFraction_append {fraction : List Char} (h : Fraction fraction)
    (hDigit : ∀ c ∈ rest.head?, c.isDigit = false) (hPoint : rest.head? ≠ some '.') :
    skipFraction (fraction ++ rest) = some rest := by
  cases h with
  | none =>
      rw [List.nil_append, skipFraction]
      rintro _ rfl
      exact hPoint rfl
  | digits hDigits => exact skipDigits1_append hDigits hDigit

/-- What was skipped as a fraction is one, or nothing was skipped. -/
theorem exists_fraction_of_skipFraction (h : skipFraction text = some rest) :
    ∃ fraction, Fraction fraction ∧ text = fraction ++ rest := by
  unfold skipFraction at h
  split at h
  · obtain ⟨digits, hDigits, rfl⟩ := exists_digits_of_skipDigits1 h
    exact ⟨_, .digits hDigits, rfl⟩
  · cases h
    exact ⟨_, .none, rfl⟩

/-- An exponent is skipped, with or without a sign, the empty one included. -/
theorem skipExponent_append {exponent : List Char} (h : Exponent exponent)
    (hRest : NumberEnds rest) : skipExponent (exponent ++ rest) = some rest := by
  cases h with
  | none =>
      have hMark : ∀ c tail, rest = c :: tail → c ≠ 'e' ∧ c ≠ 'E' := by
        rintro c tail rfl
        have hEnd := hRest c rfl
        simp only [continuesNumber, Bool.or_eq_false_iff, decide_eq_false_iff_not] at hEnd
        exact ⟨hEnd.1.2, hEnd.2⟩
      rw [List.nil_append, skipExponent] <;> intro tail hTail
      all_goals simp_all
  | @plain e text hMark hDigits =>
      obtain ⟨c, digits, rfl⟩ := List.exists_cons_of_ne_nil hDigits.nonempty
      have hDigit := hDigits.digit c List.mem_cons_self
      have hSign : c ≠ '+' ∧ c ≠ '-' := by
        constructor <;> rintro rfl <;> exact absurd hDigit (by decide)
      rw [← skipDigits1_append hDigits hRest.not_digit]
      rcases hMark with rfl | rfl <;> simp [skipExponent, hSign]
  | signed hMark hSign hDigits =>
      rw [← skipDigits1_append hDigits hRest.not_digit]
      rcases hMark with rfl | rfl <;> rcases hSign with rfl | rfl <;> rfl

/-- What was skipped as an exponent is one, or nothing was skipped. -/
theorem exists_exponent_of_skipExponent (h : skipExponent text = some rest) :
    ∃ exponent, Exponent exponent ∧ text = exponent ++ rest := by
  unfold skipExponent at h
  split at h
  case h_7 =>
    cases h
    exact ⟨_, .none, rfl⟩
  case h_5 | h_6 =>
    obtain ⟨digits, hDigits, rfl⟩ := exists_digits_of_skipDigits1 h
    exact ⟨_, .plain (by decide) hDigits, rfl⟩
  all_goals
    obtain ⟨digits, hDigits, rfl⟩ := exists_digits_of_skipDigits1 h
    exact ⟨_, .signed (by decide) (by decide) hDigits, rfl⟩

theorem Fraction.head_append {fraction : List Char} (h : Fraction fraction)
    (hRest : ∀ c ∈ rest.head?, c.isDigit = false) :
    ∀ c ∈ (fraction ++ rest).head?, c.isDigit = false := by
  cases h with
  | none => exact hRest
  | digits _ =>
      rintro c ⟨⟩
      decide

theorem Exponent.head_append {exponent : List Char} (h : Exponent exponent)
    (hRest : NumberEnds rest) :
    (∀ c ∈ (exponent ++ rest).head?, c.isDigit = false) ∧ (exponent ++ rest).head? ≠ some '.' := by
  have hMarked (e : Char) (tail : List Char) (hMark : e = 'e' ∨ e = 'E') :
      (∀ c ∈ (e :: tail).head?, c.isDigit = false) ∧ (e :: tail).head? ≠ some '.' := by
    rcases hMark with rfl | rfl <;> simp
  cases h with
  | none =>
      refine ⟨hRest.not_digit, fun hPoint => ?_⟩
      exact absurd (hRest '.' hPoint) (by decide)
  | plain hMark _ => exact hMarked _ _ hMark
  | signed hMark _ _ => exact hMarked _ _ hMark

/-- A number without a sign is skipped part by part, and each part ends where the next one begins.
-/
theorem skipUnsigned_append {number : List Char} (h : Unsigned number) (hRest : NumberEnds rest) :
    (do skipExponent (← skipFraction (← skipWhole (number ++ rest)))) = some rest := by
  obtain ⟨hWhole, hFraction, hExponent⟩ := h
  obtain ⟨hDigit, hPoint⟩ := hExponent.head_append hRest
  rw [List.append_assoc, List.append_assoc, skipWhole_append hWhole (hFraction.head_append hDigit),
    Option.bind_eq_bind, Option.bind_some, skipFraction_append hFraction hDigit hPoint,
    Option.bind_some, skipExponent_append hExponent hRest]

/-- What was skipped as the three parts of a number is a number without a sign. -/
theorem exists_unsigned_of_skip
    (h : (do skipExponent (← skipFraction (← skipWhole text))) = some rest) :
    ∃ number, Unsigned number ∧ text = number ++ rest := by
  obtain ⟨_, hBehindWhole, h⟩ := Option.bind_eq_some_iff.1 h
  obtain ⟨_, hBehindFraction, hBehind⟩ := Option.bind_eq_some_iff.1 h
  obtain ⟨whole, hWhole, rfl⟩ := exists_whole_of_skipWhole hBehindWhole
  obtain ⟨fraction, hFraction, rfl⟩ := exists_fraction_of_skipFraction hBehindFraction
  obtain ⟨exponent, hExponent, rfl⟩ := exists_exponent_of_skipExponent hBehind
  exact ⟨_, .mk hWhole hFraction hExponent, by simp⟩

/-- A number without sign starts with a digit. -/
theorem Unsigned.exists_cons {number : List Char} (h : Unsigned number) :
    ∃ c tail, number = c :: tail ∧ c.isDigit = true := by
  obtain ⟨hWhole, -, -⟩ := h
  cases hWhole with
  | zero => exact ⟨'0', _, rfl, by decide⟩
  | digits _ hDigits => exact ⟨_, _, rfl, hDigits.digit _ List.mem_cons_self⟩

/-- A number is skipped whatever it stands for. Its size does not matter, as nothing is computed
from it. -/
theorem skipNumber_append {number : List Char} (h : Number number) (hRest : NumberEnds rest) :
    skipNumber (number ++ rest) = some rest := by
  cases h with
  | negative hUnsigned => exact skipUnsigned_append hUnsigned hRest
  | plain hUnsigned =>
      rw [← skipUnsigned_append hUnsigned hRest, skipNumber]
      obtain ⟨c, tail, rfl, hDigit⟩ := hUnsigned.exists_cons
      rintro _ hSign
      rw [(List.cons.inj hSign).1] at hDigit
      exact absurd hDigit (by decide)

/-- What was skipped as a number is one. With the lemma before, skipping finds exactly the numbers.
-/
theorem exists_number_of_skipNumber (h : skipNumber text = some rest) :
    ∃ number, Number number ∧ text = number ++ rest := by
  unfold skipNumber at h
  split at h
  · obtain ⟨number, hNumber, rfl⟩ := exists_unsigned_of_skip h
    exact ⟨_, .negative hNumber, rfl⟩
  · obtain ⟨number, hNumber, rfl⟩ := exists_unsigned_of_skip h
    exact ⟨_, .plain hNumber, rfl⟩

end QuantAttention.Json
