import QuantAttention.Json.Skip
import QuantAttention.Proofs.Json.Text

/-! The texts of JSON values of any kind and depth. What is skipped as a value is a value, and every
value is skipped where nothing but blanks, a separator or the end of the text follows. -/

namespace QuantAttention.Json

variable {text rest : List Char}

/-- What can stand behind a value. -/
def separates (c : Char) : Bool := isBlank c || c = ',' || c = ']' || c = '}'

/-- A value that ends here is complete. -/
def Ends (rest : List Char) : Prop := ∀ c ∈ rest.head?, separates c = true

/-- The texts of values that are no list and no record. -/
inductive ScalarText : List Char → Prop
  | string {body : List Char} (h : StringText body) : ScalarText ('"' :: (body ++ ['"']))
  | true : ScalarText ['t', 'r', 'u', 'e']
  | false : ScalarText ['f', 'a', 'l', 's', 'e']
  | null : ScalarText ['n', 'u', 'l', 'l']
  | number {text : List Char} (h : Number text) : ScalarText text

/-- What stands before an entry of a list, nothing, or of a record, its key and a colon. -/
inductive LabelText : Bracket → List Char → Prop
  | list : LabelText .list []
  | record {before body after : List Char} (hBefore : Blanks before) (h : StringText body)
      (hAfter : Blanks after) :
      LabelText .record (before ++ '"' :: (body ++ '"' :: (after ++ [':'])))

inductive Part where
  | value
  /-- One or more entries of a list or a record. -/
  | entries (bracket : Bracket)

def Bracket.opening : Bracket → Char
  | list => '['
  | record => '{'

/-- The texts of values, and of what stands between brackets. -/
inductive PartText : Part → List Char → Prop
  | scalar {text : List Char} (h : ScalarText text) : PartText .value text
  | empty {bracket : Bracket} {blanks : List Char} (h : Blanks blanks) :
      PartText .value (bracket.opening :: (blanks ++ [bracket.closing]))
  | bracketed {bracket : Bracket} {entries : List Char} (h : PartText (.entries bracket) entries) :
      PartText .value (bracket.opening :: (entries ++ [bracket.closing]))
  | last {bracket : Bracket} {label before value after : List Char} (hLabel : LabelText bracket label)
      (hBefore : Blanks before) (hValue : PartText .value value) (hAfter : Blanks after) :
      PartText (.entries bracket) (label ++ (before ++ (value ++ after)))
  | next {bracket : Bracket} {label before value after entries : List Char}
      (hLabel : LabelText bracket label) (hBefore : Blanks before) (hValue : PartText .value value)
      (hAfter : Blanks after) (hEntries : PartText (.entries bracket) entries) :
      PartText (.entries bracket) (label ++ (before ++ (value ++ (after ++ ',' :: entries))))

abbrev ValueText (text : List Char) : Prop := PartText .value text

/-! ### Values are skipped -/

theorem separates_eq_true_iff {c : Char} : separates c = true ↔
    c = ' ' ∨ c = '\n' ∨ c = '\t' ∨ c = '\r' ∨ c = ',' ∨ c = ']' ∨ c = '}' := by
  simp only [separates, isBlank, Bool.or_eq_true, decide_eq_true_eq, or_assoc]

theorem ends_cons {c : Char} (h : separates c = true) (rest : List Char) : Ends (c :: rest) := by
  rintro _ ⟨⟩
  exact h

/-- Where a value may end it may end before blanks as well. -/
theorem Ends.append {before : List Char} (hBefore : Blanks before) (h : Ends rest) :
    Ends (before ++ rest) := by
  cases before with
  | nil => exact h
  | cons c before => exact ends_cons (by simp [separates, hBefore c List.mem_cons_self]) _

theorem ends_of_skipBlanks {c : Char} {next : List Char} (h : skipBlanks text = c :: next)
    (hSeparates : separates c = true) : Ends text := by
  obtain ⟨before, hBefore, rfl⟩ := exists_blanks_of_skipBlanks h
  exact .append hBefore (ends_cons hSeparates next)

/-- A number cannot go on where a value may end. -/
theorem Ends.numberEnds (h : Ends rest) : NumberEnds rest := by
  intro c hc
  rcases separates_eq_true_iff.1 (h c hc) with rfl | rfl | rfl | rfl | rfl | rfl | rfl <;> decide

/-- A text that starts with something other than a blank or a separator. -/
def Starts (text : List Char) : Prop := ∃ c tail, text = c :: tail ∧ separates c = false

theorem Number.exists_cons {number : List Char} (h : Number number) :
    ∃ c tail, number = c :: tail ∧ (c = '-' ∨ c.isDigit = true) := by
  cases h with
  | negative _ => exact ⟨'-', _, rfl, .inl rfl⟩
  | plain hUnsigned =>
      obtain ⟨c, tail, rfl, hDigit⟩ := hUnsigned.exists_cons
      exact ⟨c, tail, rfl, .inr hDigit⟩

/-- A number starts with a sign or a digit, which separate nothing. -/
theorem Number.starts {number : List Char} (h : Number number) : Starts number := by
  obtain ⟨c, tail, rfl, hFirst⟩ := h.exists_cons
  refine ⟨c, tail, rfl, Bool.eq_false_iff.2 fun hSeparates => ?_⟩
  rcases separates_eq_true_iff.1 hSeparates with rfl | rfl | rfl | rfl | rfl | rfl | rfl <;>
    exact absurd hFirst (by decide)

/-- No value starts with a character that separates values, so the end of a list is not taken for an
entry. -/
theorem ValueText.starts {value : List Char} (h : ValueText value) : Starts value := by
  cases h with
  | scalar hScalar =>
      cases hScalar with
      | number hNumber => exact hNumber.starts
      | string | true | false | null => exact ⟨_, _, rfl, by decide⟩
  | @empty bracket | @bracketed bracket =>
      exact ⟨bracket.opening, _, rfl, by cases bracket <;> decide⟩

theorem Starts.not_blank {c : Char} (h : separates c = false) : isBlank c = false := by
  simp only [separates, Bool.or_eq_false_iff] at h
  exact h.1.1.1

theorem skipBlanks_of_starts {value before : List Char} (hBefore : Blanks before)
    (h : Starts value) : skipBlanks (before ++ (value ++ rest)) = value ++ rest := by
  obtain ⟨c, tail, rfl, hStart⟩ := h
  rw [skipBlanks_append hBefore, List.cons_append, skipBlanks_cons (Starts.not_blank hStart)]

/-- A key is skipped together with its colon and the blanks around it. -/
theorem skipKey_of_stringText {body after : List Char} (h : StringText body) (hAfter : Blanks after) :
    skipKey ('"' :: (body ++ '"' :: (after ++ ':' :: rest))) = some rest := by
  rw [skipKey, skipString_of_stringText h, Option.bind_eq_bind, Option.bind_some,
    skipBlanks_append hAfter]
  rfl

/-- A value without brackets is skipped up to its end. -/
theorem skipScalar_append {value : List Char} (h : ScalarText value) (hRest : Ends rest) :
    skipScalar (value ++ rest) = some rest := by
  cases h with
  | string hBody => simp [skipScalar, skipString_of_stringText hBody]
  | true | false | null => rfl
  | number hNumber =>
      rw [← skipNumber_append hNumber hRest.numberEnds]
      obtain ⟨c, tail, rfl, hFirst⟩ := hNumber.exists_cons
      rw [List.cons_append, skipScalar] <;>
        · intro _ hOther
          rw [(List.cons.inj hOther).1] at hFirst
          exact absurd hFirst (by decide)

/-! The steps of skipping, each with what has to stand at its place. -/

section

variable {bracket : Bracket} {brackets outer : List Bracket} {next : List Char} {c : Char}

/-- A value without brackets leaves the open brackets as they are. -/
theorem skipFrom_scalar (hScalar : skipScalar (skipBlanks text) = some rest) :
    skipFrom .value brackets text = skipFrom .ended brackets rest := by
  rw [skipFrom]
  split
  · next hNext => simp [hNext, skipScalar, skipNumber, skipWhole, skipDigits1] at hScalar
  · next hNext => simp [hNext, skipScalar, skipNumber, skipWhole, skipDigits1] at hScalar
  · split <;> simp_all

/-- An opening bracket is put onto those that are open, and an entry or its closing bracket follows.
-/
theorem skipFrom_opening (hNext : skipBlanks text = bracket.opening :: next) :
    skipFrom .value brackets text = skipFrom .opened (bracket :: brackets) next := by
  rw [skipFrom]
  cases bracket <;> simp only [Bracket.opening] at hNext <;> split <;> simp_all

theorem skipFrom_entry_list : skipFrom .entry (.list :: outer) text =
    skipFrom .value (.list :: outer) text := by
  conv => lhs; rw [skipFrom]

theorem skipFrom_entry_record (hKey : skipKey (skipBlanks text) = some rest) :
    skipFrom .entry (.record :: outer) text = skipFrom .value (.record :: outer) rest := by
  conv => lhs; rw [skipFrom]
  split <;> simp_all

theorem skipFrom_opened (hNext : skipBlanks text = c :: next) :
    skipFrom .opened (bracket :: outer) text =
      if c = bracket.closing then skipFrom .ended outer next
      else skipFrom .entry (bracket :: outer) text := by
  rw [skipFrom]
  split <;> simp_all

/-- Behind a value stands the closing bracket of what it is in, or a comma and the next entry. -/
theorem skipFrom_ended (hNext : skipBlanks text = c :: next) :
    skipFrom .ended (bracket :: outer) text =
      if c = bracket.closing then skipFrom .ended outer next
      else if c = ',' then skipFrom .entry (bracket :: outer) next else none := by
  rw [skipFrom]
  split <;> simp_all

end

/-- What is asked of the skipping of a part: a value is skipped in any place, and the entries of a
list or a record up to the bracket that closes it. -/
def Skipped : Part → List Char → Prop
  | .value, value => ∀ before brackets rest, Blanks before → Ends rest →
      skipFrom .value brackets (before ++ (value ++ rest)) = skipFrom .ended brackets rest
  | .entries bracket, entries => ∀ outer rest,
      skipFrom .entry (bracket :: outer) (entries ++ bracket.closing :: rest) =
        skipFrom .ended outer rest

theorem separates_closing (bracket : Bracket) : separates bracket.closing = true := by
  cases bracket <;> decide

theorem skipped_scalar {value : List Char} (h : ScalarText value) : Skipped .value value := by
  intro before brackets rest hBefore hRest
  refine skipFrom_scalar ?_
  rw [skipBlanks_of_starts hBefore (ValueText.starts (.scalar h)), skipScalar_append h hRest]

/-- What stands before an entry is passed over. -/
theorem skipFrom_label {bracket : Bracket} {label : List Char} {outer : List Bracket}
    (h : LabelText bracket label) (rest : List Char) :
    skipFrom .entry (bracket :: outer) (label ++ rest) =
      skipFrom .value (bracket :: outer) rest := by
  cases h with
  | list => exact skipFrom_entry_list
  | record hBefore hBody hAfter =>
      refine skipFrom_entry_record ?_
      rw [List.append_assoc, List.cons_append, skipBlanks_append hBefore, skipBlanks_cons (by decide)]
      simpa using skipKey_of_stringText hBody hAfter

/-- No entry starts like the end of its list or record. -/
theorem PartText.head_entries {bracket : Bracket} {entries : List Char}
    (h : PartText (.entries bracket) entries) (rest : List Char) :
    ∃ c tail, skipBlanks (entries ++ rest) = c :: tail ∧ c ≠ bracket.closing := by
  have hEntry {label before value after : List Char} (hLabel : LabelText bracket label)
      (hBefore : Blanks before) (hValue : ValueText value) :
      ∃ c tail, skipBlanks (label ++ (before ++ (value ++ after))) = c :: tail ∧
        c ≠ bracket.closing := by
    cases hLabel with
    | list =>
        obtain ⟨c, tail, rfl, hFirst⟩ := hValue.starts
        refine ⟨c, tail ++ after, skipBlanks_of_starts hBefore hValue.starts, ?_⟩
        rintro rfl
        exact absurd hFirst (by decide)
    | record hBlanks _ _ =>
        rw [List.append_assoc, List.cons_append, skipBlanks_append hBlanks,
          skipBlanks_cons (by decide)]
        exact ⟨'"', _, rfl, by decide⟩
  cases h with
  | last hLabel hBefore hValue _ | next hLabel hBefore hValue _ _ =>
      simpa only [List.append_assoc] using hEntry hLabel hBefore hValue

theorem isBlank_closing (bracket : Bracket) : isBlank bracket.closing = false := by
  cases bracket <;> decide

/-- An opening bracket is read, whatever follows it. -/
theorem skipBlanks_opening {bracket : Bracket} {before : List Char} (hBefore : Blanks before)
    (rest : List Char) :
    skipBlanks (before ++ bracket.opening :: rest) = bracket.opening :: rest := by
  rw [skipBlanks_append hBefore, skipBlanks_cons (by cases bracket <;> decide)]

theorem skipBlanks_closing {bracket : Bracket} {before : List Char} (hBefore : Blanks before)
    (rest : List Char) :
    skipBlanks (before ++ bracket.closing :: rest) = bracket.closing :: rest := by
  rw [skipBlanks_append hBefore, skipBlanks_cons (isBlank_closing bracket)]

/-- The closing bracket behind some blanks ends a list or record that has entries. -/
theorem skipFrom_ended_closing {bracket : Bracket} {outer : List Bracket} {before : List Char}
    (hBefore : Blanks before) (rest : List Char) :
    skipFrom .ended (bracket :: outer) (before ++ bracket.closing :: rest) =
      skipFrom .ended outer rest := by
  rw [skipFrom_ended (skipBlanks_closing hBefore rest), if_pos rfl]

/-- The comma behind some blanks. -/
theorem skipFrom_ended_comma {bracket : Bracket} {outer : List Bracket} {before : List Char}
    (hBefore : Blanks before) (rest : List Char) :
    skipFrom .ended (bracket :: outer) (before ++ ',' :: rest) =
      skipFrom .entry (bracket :: outer) rest := by
  rw [skipFrom_ended (by rw [skipBlanks_append hBefore, skipBlanks_cons (by decide)]),
    if_neg (by cases bracket <;> decide), if_pos rfl]

/-- Every value is skipped. The induction is on the grammar; what follows a part is arbitrary, so
parts can be put together. -/
theorem skipped_of_partText {part : Part} (h : PartText part text) : Skipped part text := by
  induction h with
  | scalar hScalar => exact skipped_scalar hScalar
  | @empty bracket blanks hBlanks =>
      intro before brackets rest hBefore _
      rw [List.cons_append, skipFrom_opening (skipBlanks_opening hBefore _), List.append_assoc,
        List.singleton_append, skipFrom_opened (skipBlanks_closing hBlanks rest), if_pos rfl]
  | @bracketed bracket entries hEntries ih =>
      intro before brackets rest hBefore _
      obtain ⟨c, tail, hNext, hOther⟩ := hEntries.head_entries (bracket.closing :: rest)
      rw [List.cons_append, skipFrom_opening (skipBlanks_opening hBefore _), List.append_assoc,
        List.singleton_append, skipFrom_opened hNext, if_neg hOther]
      exact ih brackets rest
  | @last bracket label before value after hLabel hBefore _ hAfter ih =>
      intro outer rest
      have hEnds : Ends (after ++ bracket.closing :: rest) :=
        .append hAfter (ends_cons (separates_closing bracket) rest)
      simp only [List.append_assoc]
      rw [skipFrom_label hLabel, ih before _ _ hBefore hEnds, skipFrom_ended_closing hAfter]
  | @next bracket label before value after entries hLabel hBefore _ hAfter _ ihValue ihEntries =>
      intro outer rest
      have hEnds : Ends (after ++ ',' :: (entries ++ bracket.closing :: rest)) :=
        .append hAfter (ends_cons (by decide) _)
      simp only [List.append_assoc, List.cons_append]
      rw [skipFrom_label hLabel, ihValue before _ _ hBefore hEnds, skipFrom_ended_comma hAfter,
        ihEntries]

/-- A value is skipped together with the blanks before it. -/
theorem skipValue_append {before value : List Char} (hBefore : Blanks before)
    (hValue : ValueText value) (hRest : Ends rest) :
    skipValue (before ++ (value ++ rest)) = some rest := by
  rw [skipValue, skipped_of_partText hValue before [] rest hBefore hRest, skipFrom]

/-! ### Nothing else is skipped -/

/-- What was skipped as a key is a string with a colon behind it. -/
theorem exists_string_of_skipKey (h : skipKey text = some rest) :
    ∃ body after, StringText body ∧ Blanks after ∧
      text = '"' :: (body ++ '"' :: (after ++ ':' :: rest)) := by
  unfold skipKey at h
  split at h
  · obtain ⟨behind, hString, hBehind⟩ := Option.bind_eq_some_iff.1 h
    obtain ⟨body, hBody, rfl⟩ := skipString_eq_some_iff.1 hString
    split at hBehind
    · next hColon =>
      cases hBehind
      obtain ⟨after, hAfter, rfl⟩ := exists_blanks_of_skipBlanks hColon
      exact ⟨body, after, hBody, hAfter, rfl⟩
    · cases hBehind
  · cases h

/-- What was skipped as a value without brackets is one. -/
theorem exists_scalar_of_skipScalar (h : skipScalar text = some rest) :
    ∃ value, ScalarText value ∧ text = value ++ rest := by
  unfold skipScalar at h
  split at h
  · obtain ⟨body, hBody, rfl⟩ := skipString_eq_some_iff.1 h
    exact ⟨_, .string hBody, by simp⟩
  · obtain rfl := expect_eq_some_iff.1 h
    exact ⟨_, .true, rfl⟩
  · obtain rfl := expect_eq_some_iff.1 h
    exact ⟨_, .false, rfl⟩
  · obtain rfl := expect_eq_some_iff.1 h
    exact ⟨_, .null, rfl⟩
  · obtain ⟨number, hNumber, rfl⟩ := exists_number_of_skipNumber h
    exact ⟨number, .number hNumber, rfl⟩

/-- What can follow an entry up to the end of its list or record. -/
inductive TailText (bracket : Bracket) : List Char → Prop
  | ended {blanks : List Char} (h : Blanks blanks) : TailText bracket blanks
  | more {blanks entries : List Char} (h : Blanks blanks)
      (hEntries : PartText (.entries bracket) entries) : TailText bracket (blanks ++ ',' :: entries)

/-- An entry and what follows it up to the bracket are entries again. -/
theorem TailText.entries {bracket : Bracket} {label before value tail : List Char}
    (hTail : TailText bracket tail) (hLabel : LabelText bracket label) (hBefore : Blanks before)
    (hValue : ValueText value) :
    PartText (.entries bracket) (label ++ (before ++ (value ++ tail))) := by
  cases hTail with
  | ended hAfter => exact .last hLabel hBefore hValue hAfter
  | more hAfter hEntries => exact .next hLabel hBefore hValue hAfter hEntries

/-- From `text` to `rest` all open brackets are closed. -/
def Closes : List Bracket → List Char → List Char → Prop
  | [], text, rest => text = rest
  | bracket :: outer, text, rest => ∃ tail next, TailText bracket tail ∧
      text = tail ++ bracket.closing :: next ∧ Closes outer next rest

/-- What was skipped from a place on: the part that was to come there, and then all that the open
brackets ask for. -/
def Reads : Place → List Bracket → List Char → List Char → Prop
  | .value, brackets, text, rest => ∃ before value next, Blanks before ∧ ValueText value ∧
      text = before ++ (value ++ next) ∧ Closes brackets next rest
  | .ended, brackets, text, rest => Closes brackets text rest
  | .entry, bracket :: outer, text, rest => ∃ entries next, PartText (.entries bracket) entries ∧
      text = entries ++ bracket.closing :: next ∧ Closes outer next rest
  | .opened, bracket :: outer, text, rest => ∃ body next,
      (Blanks body ∨ PartText (.entries bracket) body) ∧
      text = body ++ bracket.closing :: next ∧ Closes outer next rest
  | .entry, [], _, _ | .opened, [], _, _ => False

/-- What was read from inside a bracket on was a value from the bracket on. -/
theorem Reads.value_of_opened {bracket : Bracket} {brackets : List Bracket} {next : List Char}
    (hNext : skipBlanks text = bracket.opening :: next)
    (h : Reads .opened (bracket :: brackets) next rest) : Reads .value brackets text rest := by
  obtain ⟨before, hBefore, rfl⟩ := exists_blanks_of_skipBlanks hNext
  obtain ⟨body, behind, hBody, rfl, hCloses⟩ := h
  refine ⟨before, bracket.opening :: (body ++ [bracket.closing]), behind, hBefore, ?_, by simp,
    hCloses⟩
  rcases hBody with hBlanks | hEntries
  · exact .empty hBlanks
  · exact .bracketed hEntries

/-- What was read as a value with a label before it was an entry. -/
theorem Reads.entry_of_value {bracket : Bracket} {outer : List Bracket} {label next : List Char}
    (hLabel : LabelText bracket label) (h : Reads .value (bracket :: outer) next rest) :
    Reads .entry (bracket :: outer) (label ++ next) rest := by
  obtain ⟨before, value, _, hBefore, hValue, rfl, tail, behind, hTail, rfl, hCloses⟩ := h
  exact ⟨_, behind, hTail.entries hLabel hBefore hValue, by simp, hCloses⟩

/-- The induction follows the places of the skipping: what was skipped from a place on is what the
grammar allows there. -/
theorem reads_of_skipFrom {place : Place} {brackets : List Bracket}
    (h : skipFrom place brackets text = some rest) : Reads place brackets text rest := by
  fun_induction skipFrom place brackets text with
  | case1 =>
      cases h
      rfl
  | case2 | case3 | case7 | case10 | case11 | case14 | case17 => cases h
  | case4 text brackets next hNext ih =>
      exact @Reads.value_of_opened _ _ .list _ _ hNext (ih h)
  | case5 text brackets next hNext ih =>
      exact @Reads.value_of_opened _ _ .record _ _ hNext (ih h)
  | case6 text brackets next _ _ hScalar ih =>
      obtain ⟨before, hBefore, hText⟩ := exists_blanks text
      obtain ⟨value, hValue, hNext⟩ := exists_scalar_of_skipScalar hScalar
      rw [hNext] at hText
      exact ⟨before, value, next, hBefore, .scalar hValue, hText, ih h⟩
  | case8 text outer ih => exact Reads.entry_of_value .list (ih h)
  | case9 text outer next hKey ih =>
      obtain ⟨before, hBefore, hText⟩ := exists_blanks text
      obtain ⟨body, after, hBody, hAfter, hNext⟩ := exists_string_of_skipKey hKey
      have hLabel := Reads.entry_of_value (.record hBefore hBody hAfter) (ih h)
      rw [hText, hNext]
      simpa using hLabel
  | case12 text bracket outer next hNext ih =>
      obtain ⟨before, hBefore, rfl⟩ := exists_blanks_of_skipBlanks hNext
      exact ⟨before, next, .inl hBefore, rfl, ih h⟩
  | case13 text bracket outer c next hNext hOther ih =>
      obtain ⟨entries, behind, hEntries, hText, hCloses⟩ := ih h
      exact ⟨entries, behind, .inr hEntries, hText, hCloses⟩
  | case15 text bracket outer next hNext ih =>
      obtain ⟨before, hBefore, rfl⟩ := exists_blanks_of_skipBlanks hNext
      exact ⟨before, next, .ended hBefore, rfl, ih h⟩
  | case16 text bracket outer next hNext hOther ih =>
      obtain ⟨before, hBefore, rfl⟩ := exists_blanks_of_skipBlanks hNext
      obtain ⟨entries, behind, hEntries, rfl, hCloses⟩ := ih h
      exact ⟨before ++ ',' :: entries, behind, .more hBefore hEntries, by simp, hCloses⟩

/-- Only values are skipped. What the skipping accepts is the grammar and no more than that. -/
theorem exists_value_of_skipValue (h : skipValue text = some rest) :
    ∃ before value, Blanks before ∧ ValueText value ∧ text = before ++ (value ++ rest) := by
  obtain ⟨before, value, _, hBefore, hValue, hText, rfl⟩ := reads_of_skipFrom h
  exact ⟨before, value, hBefore, hValue, hText⟩

/-- A text starts with one value at most: what follows it is what skipping it leaves. -/
theorem ValueText.unique {value value' rest' : List Char} (hValue : ValueText value)
    (hValue' : ValueText value') (hRest : Ends rest) (hRest' : Ends rest')
    (hSame : value ++ rest = value' ++ rest') : value = value' ∧ rest = rest' := by
  have hSkip := skipValue_append blanks_nil hValue hRest
  rw [hSame, skipValue_append blanks_nil hValue' hRest'] at hSkip
  obtain rfl := Option.some.inj hSkip
  exact ⟨List.append_cancel_right hSame, rfl⟩

end QuantAttention.Json
