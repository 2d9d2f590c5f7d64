import QuantAttention.Json.Record
import QuantAttention.Proofs.Json.Value

/-! The values of fields. Every kind has its texts, which are values of JSON: a count has its decimal
digits. A field is read exactly where one of the texts of its kind stands; behind the start of any
other value a field may still be found, but not the end of the value. -/

namespace QuantAttention.Json

variable {text rest : List Char}

/-- The texts of the values of a kind. -/
inductive Holds : FieldKind → List Char → FieldValue → Prop
  | count {n : Nat} (h : n < countLimit) : Holds .count (Nat.toDigits 10 n) (.count n)
  | true : Holds .flag ['t', 'r', 'u', 'e'] (.flag true)
  | false : Holds .flag ['f', 'a', 'l', 's', 'e'] (.flag false)
  | null : Holds .optionalCount ['n', 'u', 'l', 'l'] (.optionalCount none)
  | some {n : Nat} (h : n < countLimit) :
      Holds .optionalCount (Nat.toDigits 10 n) (.optionalCount (some n))

/-! ### Digits -/

theorem digits_toDigits (n : Nat) : Digits (Nat.toDigits 10 n) :=
  ⟨Nat.toDigits_ne_nil, fun _ hc => Nat.isDigit_of_mem_toDigits (by decide) (by decide) hc⟩

/-- The first digit of a number above zero is not zero. -/
theorem head_toDigits_ne {n : Nat} (h : 0 < n) : (Nat.toDigits 10 n).head? ≠ some '0' := by
  induction n using Nat.strongRecOn with
  | ind n ih =>
      rcases Nat.lt_or_ge n 10 with hSmall | hLarge
      · rw [Nat.toDigits_of_lt_base hSmall, List.head?_cons, ne_eq, Option.some.injEq,
          Nat.digitChar_eq_zero]
        omega
      · have hRest := ih (n / 10) (by omega) (by omega)
        rw [Nat.toDigits_of_base_le (by decide) hLarge, List.head?_append]
        rwa [Option.or_of_isSome (by simp [Nat.toDigits_ne_nil])]

/-- The digits of a number are a whole number. -/
theorem whole_toDigits (n : Nat) : Whole (Nat.toDigits 10 n) := by
  rcases Nat.eq_zero_or_pos n with rfl | hPos
  · exact .zero
  · have hDigits := digits_toDigits n
    have hFirst := head_toDigits_ne hPos
    generalize Nat.toDigits 10 n = text at *
    cases hDigits' : text with
    | nil => exact absurd hDigits' hDigits.nonempty
    | cons c tail =>
        subst hDigits'
        exact .digits (by simpa using hFirst) hDigits

theorem digitChar_sub {c : Char} (h : c.isDigit = true) :
    (c.toNat - '0'.toNat).digitChar = c ∧ c.toNat - '0'.toNat < 10 := by
  rw [Char.isDigit_iff_toNat] at h
  have hZero : '0'.toNat = 48 := rfl
  have hNine : '9'.toNat = 57 := rfl
  have hSmall : c.toNat - '0'.toNat < 10 := by omega
  refine ⟨Char.toNat_inj.1 ?_, hSmall⟩
  rw [Nat.toNat_digitChar_of_lt_ten hSmall]
  omega

theorem decimalValue_eq (digits : List Char) :
    decimalValue digits = Nat.ofDigitChars 10 digits 0 := by
  rw [decimalValue, Nat.ofDigitChars_eq_foldl]

/-- Writing a number and reading its digits gives the number back. -/
theorem decimalValue_toDigits (n : Nat) : decimalValue (Nat.toDigits 10 n) = n := by
  rw [decimalValue_eq, Nat.ofDigitChars_ten_toDigits]

/-- More digits behind those of a number. -/
theorem toDigits_ofDigitChars {digits : List Char} (h : ∀ c ∈ digits, c.isDigit = true) {n : Nat}
    (hPos : 0 < n) :
    Nat.toDigits 10 (Nat.ofDigitChars 10 digits n) = Nat.toDigits 10 n ++ digits := by
  induction digits generalizing n with
  | nil => rw [Nat.ofDigitChars_nil, List.append_nil]
  | cons c digits ih =>
      rw [List.forall_mem_cons] at h
      obtain ⟨hChar, hSmall⟩ := digitChar_sub h.1
      rw [Nat.ofDigitChars_cons, ih h.2 (by omega),
        ← Nat.toDigits_append_toDigits (by decide) hPos hSmall, Nat.toDigits_of_lt_base hSmall, hChar,
        List.append_assoc, List.singleton_append]

/-- A whole number consists of the digits of its value, since it has no zeros in front. -/
theorem Whole.toDigits_decimalValue {whole : List Char} (h : Whole whole) :
    Nat.toDigits 10 (decimalValue whole) = whole := by
  cases h with
  | zero => rfl
  | @digits c text hFirst hDigits =>
      have hDigit := List.forall_mem_cons.1 hDigits.digit
      obtain ⟨hChar, hSmall⟩ := digitChar_sub hDigit.1
      have hPos : 0 < c.toNat - '0'.toNat := by
        refine Nat.pos_of_ne_zero fun hZero => hFirst ?_
        rw [← hChar, hZero]
        rfl
      rw [decimalValue_eq, Nat.ofDigitChars_cons, Nat.mul_zero, Nat.zero_add,
        toDigits_ofDigitChars hDigit.2 hPos, Nat.toDigits_of_lt_base hSmall, hChar,
        List.singleton_append]

/-! ### Reading a value of a kind -/

/-- A text of any kind of field is a value, so it could be skipped as well. -/
theorem Holds.valueText {kind : FieldKind} {value : FieldValue} (h : Holds kind text value) :
    ValueText text := by
  have hCount (n : Nat) : ValueText (Nat.toDigits 10 n) := by
    refine .scalar (.number (.plain ?_))
    simpa using Unsigned.mk (whole_toDigits n) .none .none
  cases h with
  | count | some => exact hCount _
  | true => exact .scalar .true
  | false => exact .scalar .false
  | null => exact .scalar .null

/-- A number that fits is read from its digits, up to a character that is no part of a number. -/
theorem readCount_toDigits {n : Nat} (h : n < countLimit) (hRest : Ends rest) :
    readCount (Nat.toDigits 10 n ++ rest) = some (n, rest) := by
  rw [readCount, skipWhole_append (whole_toDigits n) hRest.numberEnds.not_digit, Option.bind_eq_bind,
    Option.bind_some, List.length_append, Nat.add_sub_cancel, List.take_left]
  simp [decimalValue_toDigits, h]

/-- Only the digits of a number that fits are read: there is one spelling for each of them. -/
theorem eq_toDigits_of_readCount {n : Nat} (h : readCount text = some (n, rest)) :
    n < countLimit ∧ text = Nat.toDigits 10 n ++ rest := by
  obtain ⟨behind, hBehind, h⟩ := Option.bind_eq_some_iff.1 h
  obtain ⟨whole, hWhole, rfl⟩ := exists_whole_of_skipWhole hBehind
  rw [List.length_append, Nat.add_sub_cancel, List.take_left] at h
  simp only [Option.ite_none_right_eq_some, Option.some.injEq, Prod.mk.injEq] at h
  obtain ⟨hLimit, rfl, rfl⟩ := h
  exact ⟨hLimit, by rw [hWhole.toDigits_decimalValue]⟩

/-- What was read as a flag is one of the two words. -/
theorem exists_word_of_readFlag {b : Bool} (h : readFlag text = some (b, rest)) :
    ∃ word, Holds .flag word (.flag b) ∧ text = word ++ rest := by
  unfold readFlag at h
  split at h
  · next hTrue =>
    cases h
    exact ⟨_, .true, expect_eq_some_iff.1 hTrue⟩
  · obtain ⟨_, hFalse, h⟩ := Option.map_eq_some_iff.1 h
    cases h
    exact ⟨_, .false, expect_eq_some_iff.1 hFalse⟩

/-- A text of the kind is read, with the blanks before it, to the value that it stands for. -/
theorem readFieldValue_append {kind : FieldKind} {before : List Char} {value : FieldValue}
    (hBefore : Blanks before) (h : Holds kind text value) (hRest : Ends rest) :
    readFieldValue kind (before ++ (text ++ rest)) = some (value, rest) := by
  unfold readFieldValue
  rw [skipBlanks_of_starts hBefore h.valueText.starts]
  cases h with
  | count hLimit => simp [readCount_toDigits hLimit hRest]
  | true | false | null => rfl
  | @some n hLimit =>
      have hNull : expect ['n', 'u', 'l', 'l'] (Nat.toDigits 10 n ++ rest) = none := by
        obtain ⟨c, digits, hDigits⟩ := List.exists_cons_of_ne_nil (digits_toDigits n).nonempty
        have hDigit := (digits_toDigits n).digit c (by simp [hDigits])
        rw [hDigits, List.cons_append, expect, if_neg]
        rintro rfl
        exact absurd hDigit (by decide)
      simp [hNull, readCount_toDigits hLimit hRest]

/-- Only texts of the kind are read. A value of another kind is not converted. -/
theorem exists_holds_of_readFieldValue {kind : FieldKind} {value : FieldValue}
    (h : readFieldValue kind text = some (value, rest)) :
    ∃ before word, Blanks before ∧ Holds kind word value ∧ text = before ++ (word ++ rest) := by
  suffices hHolds : ∃ word, Holds kind word value ∧ skipBlanks text = word ++ rest by
    obtain ⟨word, hWord, hNext⟩ := hHolds
    obtain ⟨before, hBefore, hText⟩ := exists_blanks_of_skipBlanks hNext
    exact ⟨before, word, hBefore, hWord, hText⟩
  unfold readFieldValue at h
  cases kind with
  | count =>
      obtain ⟨⟨n, _⟩, hCount, h⟩ := Option.map_eq_some_iff.1 h
      cases h
      obtain ⟨hLimit, hText⟩ := eq_toDigits_of_readCount hCount
      exact ⟨_, .count hLimit, hText⟩
  | flag =>
      obtain ⟨⟨b, _⟩, hFlag, h⟩ := Option.map_eq_some_iff.1 h
      cases h
      exact exists_word_of_readFlag hFlag
  | optionalCount =>
      dsimp only at h
      split at h
      · next hNull =>
        cases h
        exact ⟨_, .null, expect_eq_some_iff.1 hNull⟩
      · obtain ⟨⟨n, _⟩, hCount, h⟩ := Option.map_eq_some_iff.1 h
        cases h
        obtain ⟨hLimit, hText⟩ := eq_toDigits_of_readCount hCount
        exact ⟨_, .some hLimit, hText⟩

/-- Where a value of another kind stands something may still be read, as the first digits of a
fraction are, but the reader does not come to the end of the value. -/
theorem not_ends_of_readFieldValue {kind : FieldKind} {before rest' : List Char}
    {value : FieldValue} (hBefore : Blanks before) (hText : ValueText text) (hRest : Ends rest)
    (hOther : ∀ value, ¬Holds kind text value)
    (h : readFieldValue kind (before ++ (text ++ rest)) = some (value, rest')) : ¬Ends rest' := by
  intro hEnds
  obtain ⟨blanks, word, hBlanks, hWord, hSame⟩ := exists_holds_of_readFieldValue h
  have hNext := congrArg skipBlanks hSame
  rw [skipBlanks_of_starts hBefore hText.starts,
    skipBlanks_of_starts hBlanks hWord.valueText.starts] at hNext
  obtain ⟨rfl, -⟩ := hText.unique hWord.valueText hRest hEnds hNext
  exact hOther value hWord

end QuantAttention.Json
