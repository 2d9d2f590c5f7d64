import QuantAttention.Proofs.Json.Object

/-! Records as texts. An array is read as its first fields, and so gives what the object with the
same members gives. Objects and arrays are all that is read. -/

namespace QuantAttention.Json

variable {text rest : List Char} {fields : List Field} {values out : Values}

inductive ElementText (value : List Char) : List Char → Prop
  | mk {before after : List Char} (hBefore : Blanks before) (hValue : ValueText value)
      (hAfter : Blanks after) : ElementText value (before ++ (value ++ after))

/-- The whole text is an array with these elements. -/
abbrev ArrayText : List (List Char) → List Char → Prop := Enclosed .list ElementText

/-- The values that the elements of an array are of the fields. There must be no more elements than
fields; the fields behind the last element are not given. -/
inductive Leads : List Field → List (List Char) → Values → Prop
  | nil (fields : List Field) : Leads fields [] (noValues fields)
  | cons {field : Field} {fields : List Field} {text : List Char} {texts : List (List Char)}
      {value : FieldValue} {values : Values} (h : Holds field.kind text value)
      (hMore : Leads fields texts values) :
      Leads (field :: fields) (text :: texts) (some value :: values)

/-! ### Elements -/

def ReadsElement (fields : List Field) (text : List Char) (result : Values × List Char) : Prop :=
  ∃ field more value behind values rest, fields = field :: more ∧
    readFieldValue field.kind text = some (value, behind) ∧
    readElements false more behind = some (values, rest) ∧ result = (some value :: values, rest)

/-- The closing bracket leaves all further fields without a value. -/
theorem readElements_closing (first : Bool) (hNext : skipBlanks text = ']' :: rest) :
    readElements first fields text = some (noValues fields, rest) := by
  rw [readElements.eq_def, hNext]
  rfl

/-- Behind a comma another element has to stand. -/
theorem readElements_comma {next : List Char} (hNext : skipBlanks text = ',' :: next)
    {result : Values × List Char} :
    readElements false fields text = some result ↔ ReadsElement fields next result := by
  rw [readElements.eq_def, hNext]
  cases fields with
  | nil => simp [ReadsElement]
  | cons field fields =>
      simp [ReadsElement, expect, Option.bind_eq_some_iff, @eq_comm _ result]

/-- Behind an element nothing but a comma or the closing bracket is read. -/
theorem skipBlanks_of_readElements {result : Values × List Char}
    (h : readElements false fields text = some result) :
    (∃ rest, skipBlanks text = ']' :: rest ∧ result = (noValues fields, rest)) ∨
      ∃ next, skipBlanks text = ',' :: next ∧ ReadsElement fields next result := by
  have hRead := h
  rw [readElements.eq_def] at h
  dsimp only at h
  split at h
  · next rest hNext => exact .inl ⟨rest, hNext, (Option.some.inj h).symm⟩
  · cases fields with
    | nil => cases h
    | cons field fields =>
        obtain ⟨next, hComma, -⟩ := Option.bind_eq_some_iff.1 h
        have hNext := expect_eq_some_iff.1 hComma
        exact .inr ⟨next, hNext, (readElements_comma hNext).1 hRead⟩

/-- The first element stands where the array is not closed. -/
theorem readElements_open (hOpen : ∀ rest, skipBlanks text ≠ ']' :: rest)
    {result : Values × List Char} :
    readElements true fields text = some result ↔ ReadsElement fields text result := by
  rw [readElements.eq_def]
  dsimp only
  split
  · next hNext => exact absurd hNext (hOpen _)
  · cases fields with
    | nil => simp [ReadsElement]
    | cons field fields =>
        have hBlanks : readFieldValue field.kind (skipBlanks text) =
            readFieldValue field.kind text := by
          rw [readFieldValue.eq_def, readFieldValue.eq_def, skipBlanks_skipBlanks]
        simp [ReadsElement, hBlanks, Option.bind_eq_some_iff, @eq_comm _ result]

/-- An element can end where a comma or the bracket follows. -/
theorem ends_of_readElements {result : Values × List Char}
    (h : readElements false fields text = some result) : Ends text := by
  rcases skipBlanks_of_readElements h with ⟨_, hNext, -⟩ | ⟨_, hNext, -⟩ <;>
    exact ends_of_skipBlanks hNext (by decide)

/-- Blanks before an element or the bracket are passed over. -/
theorem readElements_blanks {before : List Char} (hBefore : Blanks before) (first : Bool) :
    readElements first fields (before ++ text) = readElements first fields text := by
  rw [readElements.eq_def, readElements.eq_def first fields text, skipBlanks_append hBefore]

/-- An element is read with the blanks around it, as a value of the first field. -/
theorem readsElement_iff {value element : List Char} (h : ElementText value element)
    (hRest : Ends rest) {result : Values × List Char} :
    ReadsElement fields (element ++ rest) result ↔
      ∃ field more v, fields = field :: more ∧ Holds field.kind value v ∧
        ∃ values behind, readElements false more rest = some (values, behind) ∧
          result = (some v :: values, behind) := by
  obtain ⟨hBefore, hValue, hAfter⟩ := h
  rw [ReadsElement]
  simp only [List.append_assoc]
  constructor
  · rintro ⟨field, more, v, behind, values, rest', hFields, hRead, hMore, hResult⟩
    by_cases hHolds : ∃ v, Holds field.kind value v
    · obtain ⟨w, hHolds⟩ := hHolds
      rw [readFieldValue_append hBefore hHolds (hRest.append hAfter)] at hRead
      cases hRead
      rw [readElements_blanks hAfter] at hMore
      exact ⟨field, more, v, hFields, hHolds, values, rest', hMore, hResult⟩
    · exact absurd (ends_of_readElements hMore) (not_ends_of_readFieldValue hBefore hValue
        (hRest.append hAfter) (not_exists.1 hHolds) hRead)
  · rintro ⟨field, more, v, hFields, hHolds, values, behind, hMore, hResult⟩
    rw [← readElements_blanks hAfter] at hMore
    exact ⟨field, more, v, _, values, behind, hFields,
      readFieldValue_append hBefore hHolds (hRest.append hAfter), hMore, hResult⟩

theorem leads_nil : Leads fields [] out ↔ out = noValues fields := by
  constructor
  · rintro ⟨⟩
    rfl
  · rintro rfl
    exact .nil fields

/-- The first element is for the first field and has to be of its kind. There is no element without
a field. -/
theorem leads_cons {texts : List (List Char)} : Leads fields (text :: texts) out ↔
    ∃ field more v, fields = field :: more ∧ Holds field.kind text v ∧
      ∃ values, Leads more texts values ∧ out = some v :: values := by
  constructor
  · rintro (_ | ⟨hHolds, hMore⟩)
    exact ⟨_, _, _, rfl, hHolds, _, hMore, rfl⟩
  · rintro ⟨_, _, _, rfl, hHolds, _, hMore, rfl⟩
    exact .cons hHolds hMore

/-- Elements that are taken by fields are values. -/
theorem Leads.valueText {texts : List (List Char)} (h : Leads fields texts values) :
    ∀ text ∈ texts, ValueText text := by
  induction h with
  | nil => exact fun _ h => nomatch h
  | cons hHolds _ ih => exact List.forall_mem_cons.2 ⟨hHolds.valueText, ih⟩

/-- The elements up to the bracket are read as values of the first fields, which the induction takes
off the list of fields one by one. -/
theorem readsElement_listed {texts : List (List Char)} {body : List Char}
    (h : Listed ElementText texts body) {result : Values × List Char} :
    ReadsElement fields (body ++ ']' :: rest) result ↔
      ∃ out, Leads fields texts out ∧ result = (out, rest) := by
  induction h generalizing fields result with
  | last hElement =>
      have hNext := skipBlanks_cons (show isBlank ']' = false by decide) rest
      rw [readsElement_iff hElement (ends_cons (by decide) rest)]
      simp [leads_cons, leads_nil, readElements_closing false hNext, and_assoc]
  | @next value texts element more hElement hMore ih =>
      have hNext := skipBlanks_cons (show isBlank ',' = false by decide) (more ++ ']' :: rest)
      rw [List.append_assoc, List.cons_append,
        readsElement_iff hElement (ends_cons (by decide) _)]
      simp [leads_cons, readElements_comma hNext, ih, and_assoc]

/-- No element starts like the end of its array. -/
theorem Listed.not_closed {texts : List (List Char)} {body : List Char}
    (h : Listed ElementText texts body) (rest : List Char) :
    ∀ next, skipBlanks (body ++ ']' :: rest) ≠ ']' :: next := by
  have hElement {value element : List Char} (hElement : ElementText value element)
      (rest : List Char) : ∀ next, skipBlanks (element ++ rest) ≠ ']' :: next := by
    obtain ⟨hBefore, hValue, -⟩ := hElement
    intro next hNext
    obtain ⟨c, tail, rfl, hFirst⟩ := hValue.starts
    rw [List.append_assoc, List.append_assoc, skipBlanks_of_starts hBefore hValue.starts] at hNext
    obtain ⟨rfl, -⟩ := List.cons.inj hNext
    exact absurd hFirst (by decide)
  cases h with
  | last hText => exact hElement hText _
  | next hText _ => simpa only [List.append_assoc] using hElement hText _

/-- An array up to its bracket is read as values of the first fields. -/
theorem readElements_body {texts : List (List Char)} {body : List Char}
    (h : Body ElementText texts body) {result : Values × List Char} :
    readElements true fields (body ++ ']' :: rest) = some result ↔
      ∃ out, Leads fields texts out ∧ result = (out, rest) := by
  cases h with
  | empty hBlanks =>
      have hNext := @skipBlanks_closing .list _ hBlanks rest
      rw [Bracket.closing] at hNext
      simp [readElements_closing true hNext, leads_nil, eq_comm]
  | items hListed =>
      rw [← readsElement_listed hListed, readElements_open (hListed.not_closed rest)]

/-- What is read as elements are some. -/
theorem exists_elements_of_readsElement (h : ReadsElement fields text (out, rest)) :
    ∃ texts body, Listed ElementText texts body ∧ text = body ++ ']' :: rest := by
  induction fields generalizing text out with
  | nil => 
      obtain ⟨_, _, _, _, _, _, hFields, -⟩ := h
      cases hFields
  | cons field fields ih =>
      obtain ⟨_, _, v, behind, values, rest', hFields, hRead, hMore, hResult⟩ := h
      cases hFields
      cases hResult
      obtain ⟨before, value, hBefore, hHolds, rfl⟩ := exists_holds_of_readFieldValue hRead
      rcases skipBlanks_of_readElements hMore with ⟨_, hNext, hSame⟩ | ⟨next, hNext, hElement⟩
      · cases hSame
        obtain ⟨after, hAfter, rfl⟩ := exists_blanks_of_skipBlanks hNext
        exact ⟨_, _, .last (.mk hBefore hHolds.valueText hAfter), by simp⟩
      · obtain ⟨after, hAfter, rfl⟩ := exists_blanks_of_skipBlanks hNext
        obtain ⟨texts, body, hListed, rfl⟩ := ih hElement
        exact ⟨_, _, .next (.mk hBefore hHolds.valueText hAfter) hListed, by simp⟩

/-- What was read up to the bracket are elements with commas between them. -/
theorem exists_body_of_readElements (h : readElements true fields text = some (out, rest)) :
    ∃ texts body, Body ElementText texts body ∧ text = body ++ ']' :: rest := by
  by_cases hClosed : ∃ rest, skipBlanks text = ']' :: rest
  · obtain ⟨next, hNext⟩ := hClosed
    rw [readElements_closing true hNext] at h
    cases h
    obtain ⟨blanks, hBlanks, rfl⟩ := exists_blanks_of_skipBlanks hNext
    exact ⟨[], blanks, .empty hBlanks, rfl⟩
  · obtain ⟨texts, body, hListed, rfl⟩ :=
      exists_elements_of_readsElement ((readElements_open (not_exists.1 hClosed)).1 h)
    exact ⟨texts, body, .items hListed, rfl⟩

/-! ### Records -/

/-- A record is an object or an array, and blanks alone stand around it. The first character that is
no blank tells which. -/
theorem readRecord_eq_some_iff :
    readRecord fields text = some values ↔ ∃ rest, Blanks rest ∧
      ((∃ body, skipBlanks text = '{' :: body ∧ readObject fields body = some (values, rest)) ∨
        ∃ body, skipBlanks text = '[' :: body ∧
          readElements true fields body = some (values, rest)) := by
  have hEnd (rest : List Char) : (skipBlanks rest).isEmpty = true ↔ Blanks rest := by
    rw [List.isEmpty_iff, skipBlanks_eq_nil_iff]
  unfold readRecord
  split
  · next body hNext => simp [hNext, Option.bind_eq_some_iff, hEnd, and_comm]
  · next body hNext => simp [hNext, Option.bind_eq_some_iff, hEnd, and_comm]
  · simp_all

/-- An object is read as what it gives of the fields. -/
theorem readRecord_object (hFields : Unambiguous fields) {members : List Member}
    (h : ObjectText members text) :
    readRecord fields text = some values ↔ Gives fields members values := by
  obtain ⟨hBefore, hBody, hAfter⟩ := h
  rw [readRecord_eq_some_iff, skipBlanks_opening hBefore]
  simp only [Bracket.opening, Bracket.closing, List.cons.injEq, true_and,
    exists_eq_left', Char.reduceEq, false_and, exists_false, or_false,
    readObject_body hFields hBody, Prod.mk.injEq]
  constructor
  · rintro ⟨_, _, _, hGives, rfl, -⟩
    exact hGives
  · intro hGives
    exact ⟨_, hAfter, _, hGives, rfl, rfl⟩

/-- An array is read as values of the first fields. More elements than fields are not read. -/
theorem readRecord_array {texts : List (List Char)} (h : ArrayText texts text) :
    readRecord fields text = some values ↔ Leads fields texts values := by
  obtain ⟨hBefore, hBody, hAfter⟩ := h
  rw [readRecord_eq_some_iff, skipBlanks_opening hBefore]
  simp only [Bracket.opening, Bracket.closing, List.cons.injEq, true_and,
    exists_eq_left', Char.reduceEq, false_and, exists_false, false_or, readElements_body hBody,
    Prod.mk.injEq]
  constructor
  · rintro ⟨_, _, _, hLeads, rfl, -⟩
    exact hLeads
  · intro hLeads
    exact ⟨_, hAfter, _, hLeads, rfl, rfl⟩

/-- Nothing but objects and arrays is read. -/
theorem exists_text_of_readRecord (h : readRecord fields text = some values) :
    (∃ members, ObjectText members text) ∨ ∃ texts, ArrayText texts text := by
  obtain ⟨rest, hRest, ⟨body, hNext, hRead⟩ | ⟨body, hNext, hRead⟩⟩ := readRecord_eq_some_iff.1 h
  · obtain ⟨members, body, hBody, rfl⟩ := exists_body_of_readObject hRead
    obtain ⟨before, hBefore, rfl⟩ := exists_blanks_of_skipBlanks hNext
    exact .inl ⟨members, .mk hBefore hBody hRest⟩
  · obtain ⟨texts, body, hBody, rfl⟩ := exists_body_of_readElements hRead
    obtain ⟨before, hBefore, rfl⟩ := exists_blanks_of_skipBlanks hNext
    exact .inr ⟨texts, .mk hBefore hBody hRest⟩

/-! ### Arrays and objects -/

/-- The members stand for the first fields in their order, each under one of its names. -/
inductive Leading : List Field → List Member → Prop
  | nil (fields : List Field) : Leading fields []
  | cons {field : Field} {fields : List Field} {m : Member} {members : List Member}
      (h : m.key ∈ field.names) (hMore : Leading fields members) :
      Leading (field :: fields) (m :: members)

/-- Members for other fields give nothing of a field. -/
theorem Leading.texts_eq_nil {members : List Member} {field : Field} (h : Leading fields members)
    (hOther : ∀ other ∈ fields, ∀ name ∈ field.names, name ∉ other.names) :
    field.texts members = [] := by
  induction h with
  | nil => rfl
  | @cons other fields m members hKey _ ih =>
      rw [List.forall_mem_cons] at hOther
      rw [texts_cons_of_not_mem fun hSame => hOther.1 _ hSame hKey, ih hOther.2]

theorem gives_nil : Gives fields [] values ↔ values = noValues fields := by
  rw [gives_iff, fills_nil (length_noValues fields)]

/-- A member for none of the fields gives nothing. -/
theorem gives_cons_of_not_mem {m : Member} {members : List Member}
    (hOther : ∀ field ∈ fields, m.key ∉ field.names) :
    Gives fields (m :: members) values ↔ Gives fields members values := by
  induction fields generalizing values with
  | nil => rw [Gives, Gives, List.forall₂_nil_left_iff, List.forall₂_nil_left_iff]
  | cons field fields ih =>
      rw [List.forall_mem_cons] at hOther
      have hGiven (new : Option FieldValue) :
          Given (m :: members) field new ↔ Given members field new := by
        rw [← Filled, filled_cons_of_not_mem hOther.1, Filled]
      have hMore (more : Values) :
          List.Forall₂ (Given (m :: members)) fields more ↔
            List.Forall₂ (Given members) fields more := ih hOther.2
      simp only [Gives, List.forall₂_cons_left_iff, hGiven, hMore]

/-- The first member for the first field, and the other members for the other fields. This is what
an array says by position. -/
theorem gives_cons {field : Field} {m : Member} {members : List Member}
    (hFields : Unambiguous (field :: fields)) (hKey : m.key ∈ field.names)
    (hMore : Leading fields members) :
    Gives (field :: fields) (m :: members) values ↔
      ∃ v more, Holds field.kind m.value v ∧ Gives fields members more ∧ values = some v :: more := by
  obtain ⟨hOther, -⟩ := List.pairwise_cons.1 hFields
  have hFirst (new : Option FieldValue) :
      Given (m :: members) field new ↔ ∃ v, Holds field.kind m.value v ∧ new = some v := by
    rw [← Filled, filled_cons_of_mem hKey]
    simp [Filled, hMore.texts_eq_nil hOther]
  have hRest (more : Values) : Gives fields (m :: members) more ↔ Gives fields members more :=
    gives_cons_of_not_mem fun other hMem => fun hSame => hOther other hMem _ hKey hSame
  rw [Gives, List.forall₂_cons_left_iff]
  constructor
  · rintro ⟨_, more, hGiven, hGives, rfl⟩
    obtain ⟨v, hHolds, rfl⟩ := (hFirst _).1 hGiven
    exact ⟨v, more, hHolds, (hRest more).1 hGives, rfl⟩
  · rintro ⟨v, more, hHolds, hGives, rfl⟩
    exact ⟨some v, more, (hFirst _).2 ⟨v, hHolds, rfl⟩, (hRest more).2 hGives, rfl⟩

/-- Values of the first fields are given alike by the elements of an array and by the members of an
object. -/
theorem leads_iff_gives (hFields : Unambiguous fields) {members : List Member}
    (h : Leading fields members) :
    Leads fields (members.map Member.value) values ↔ Gives fields members values := by
  induction h generalizing values with
  | nil => rw [List.map_nil, leads_nil, gives_nil]
  | @cons field fields m members hKey hMore ih =>
      rw [gives_cons hFields hKey hMore, List.map_cons, leads_cons]
      have hOthers := (List.pairwise_cons.1 hFields).2
      constructor
      · rintro ⟨_, _, v, hSame, hHolds, more, hLeads, rfl⟩
        cases hSame
        exact ⟨v, more, hHolds, (ih hOthers).1 hLeads, rfl⟩
      · rintro ⟨v, more, hHolds, hGives, rfl⟩
        exact ⟨field, fields, v, rfl, hHolds, more, (ih hOthers).2 hGives, rfl⟩

end QuantAttention.Json
