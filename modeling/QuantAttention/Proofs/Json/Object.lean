import Mathlib.Data.List.Forall2
import QuantAttention.Proofs.Json.FieldValue

/-! Objects as texts. An object is read as a record exactly where each field stands at most once,
under any of its names, with a value of its kind; the order of its members, the members that are no
fields, blanks and the spelling of keys do not matter. -/

namespace QuantAttention.Json

variable {text rest : List Char} {fields : List Field} {values out : Values}

/-- A member of an object: its key, and the text of its value. -/
structure Member where
  key : String
  value : List Char
  deriving DecidableEq, Repr

/-- A key with its colon, and with blanks around it. -/
inductive KeyText (key : String) : List Char → Prop
  | mk {before body after : List Char} (hBefore : Blanks before) (h : Spells body key.toList)
      (hAfter : Blanks after) : KeyText key (before ++ '"' :: (body ++ '"' :: (after ++ [':'])))

inductive MemberText (m : Member) : List Char → Prop
  | mk {label before after : List Char} (hKey : KeyText m.key label) (hBefore : Blanks before)
      (hValue : ValueText m.value) (hAfter : Blanks after) :
      MemberText m (label ++ (before ++ (m.value ++ after)))

/-- One or more items with commas between them. -/
inductive Listed {α : Type} (Writes : α → List Char → Prop) : List α → List Char → Prop
  | last {item : α} {text : List Char} (h : Writes item text) : Listed Writes [item] text
  | next {item : α} {items : List α} {text more : List Char} (h : Writes item text)
      (hMore : Listed Writes items more) : Listed Writes (item :: items) (text ++ ',' :: more)

/-- What stands between two brackets: items, or nothing but blanks. -/
inductive Body {α : Type} (Writes : α → List Char → Prop) : List α → List Char → Prop
  | empty {blanks : List Char} (h : Blanks blanks) : Body Writes [] blanks
  | items {items : List α} {text : List Char} (h : Listed Writes items text) : Body Writes items text

/-- Items between brackets, with blanks around them. -/
inductive Enclosed {α : Type} (bracket : Bracket) (Writes : α → List Char → Prop) :
    List α → List Char → Prop
  | mk {items : List α} {before body after : List Char} (hBefore : Blanks before)
      (h : Body Writes items body) (hAfter : Blanks after) :
      Enclosed bracket Writes items (before ++ bracket.opening :: (body ++ bracket.closing :: after))

theorem Enclosed.ne_nil {α : Type} {bracket : Bracket} {Writes : α → List Char → Prop}
    {items : List α} (h : Enclosed bracket Writes items text) : text ≠ [] := by
  obtain ⟨hBefore, hBody, hAfter⟩ := h
  simp

/-- The whole text is an object with these members. -/
abbrev ObjectText : List Member → List Char → Prop := Enclosed .record MemberText

/-- The texts that an object gives as values of a field, under whichever of its names. -/
def Field.texts (field : Field) (members : List Member) : List (List Char) :=
  (members.filter fun m => field.names.contains m.key).map Member.value

/-- What an object gives of a field: nothing, where none of its names stands in the object, or the
value of the one member under one of its names. -/
def Given (members : List Member) (field : Field) : Option FieldValue → Prop
  | none => field.texts members = []
  | some value => ∃ text, field.texts members = [text] ∧ Holds field.kind text value

/-- The values that an object gives of the fields. -/
def Gives (fields : List Field) (members : List Member) (values : Values) : Prop :=
  List.Forall₂ (Given members) fields values

/-- No name belongs to two fields. -/
def Unambiguous (fields : List Field) : Prop :=
  fields.Pairwise fun field other => ∀ name ∈ field.names, name ∉ other.names

/-! ### Keys -/

/-- A key is read as the characters that it spells, whatever escapes it is written with. -/
theorem readKey_of_keyText {key : String} {label : List Char} (h : KeyText key label)
    (rest : List Char) : readKey (label ++ rest) = some (key, rest) := by
  obtain ⟨hBefore, hBody, hAfter⟩ := h
  simp only [readKey, List.append_assoc, List.cons_append, List.nil_append]
  rw [skipBlanks_append hBefore, skipBlanks_cons (by decide)]
  simp [readString_eq_some_iff.2 ⟨_, hBody, rfl⟩, skipBlanks_append hAfter,
    skipBlanks_cons (show isBlank ':' = false by decide)]

/-- What was read as a key is a string with its colon. -/
theorem exists_keyText_of_readKey {key : String} (h : readKey text = some (key, rest)) :
    ∃ label, KeyText key label ∧ text = label ++ rest := by
  unfold readKey at h
  split at h
  · next hQuote =>
    obtain ⟨⟨chars, behind⟩, hString, hBehind⟩ := Option.bind_eq_some_iff.1 h
    obtain ⟨body, hBody, rfl⟩ := readString_eq_some_iff.1 hString
    obtain ⟨before, hBefore, rfl⟩ := exists_blanks_of_skipBlanks hQuote
    dsimp only at hBehind
    split at hBehind
    · next hColon =>
      obtain ⟨after, hAfter, rfl⟩ := exists_blanks_of_skipBlanks hColon
      cases hBehind
      exact ⟨_, .mk hBefore (by simpa using hBody) hAfter, by simp⟩
    · cases hBehind
  · cases h

/-! ### Members -/

/-- What a member changes of the values read so far. -/
def Takes (fields : List Field) (values : Values) (m : Member) (out : Values) : Prop :=
  match findField fields m.key with
  | none => out = values
  | some (i, field) => values.getD i none = none ∧
      ∃ value, Holds field.kind m.value value ∧ out = values.set i (some value)

/-- A member is taken, and read up to its end, or the reader does not come to its end. -/
theorem readMember_eq_some_iff {m : Member} {before rest' : List Char} (hBefore : Blanks before)
    (hValue : ValueText m.value) (hRest : Ends rest) (hRest' : Ends rest') :
    readMember fields values m.key (before ++ (m.value ++ rest)) = some (out, rest') ↔
      Takes fields values m out ∧ rest' = rest := by
  rw [readMember, Takes]
  cases findField fields m.key with
  | none => simp [skipValue_append hBefore hValue hRest, eq_comm]
  | some found =>
      obtain ⟨i, field⟩ := found
      dsimp only
      by_cases hGiven : values.getD i none = none
      · rw [hGiven, Option.isSome_none, if_neg Bool.false_ne_true, Option.map_eq_some_iff]
        constructor
        · rintro ⟨⟨value, behind⟩, hRead, hOut⟩
          obtain ⟨rfl, rfl⟩ := Prod.mk.inj hOut
          by_cases hHolds : ∃ value, Holds field.kind m.value value
          · obtain ⟨other, hHolds⟩ := hHolds
            rw [readFieldValue_append hBefore hHolds hRest] at hRead
            cases hRead
            exact ⟨⟨rfl, value, hHolds, rfl⟩, rfl⟩
          · rw [not_exists] at hHolds
            exact absurd hRest' (not_ends_of_readFieldValue hBefore hValue hRest hHolds hRead)
        · rintro ⟨⟨-, value, hHolds, rfl⟩, rfl⟩
          exact ⟨_, readFieldValue_append hBefore hHolds hRest, rfl⟩
      · rw [if_pos (Option.isSome_iff_ne_none.2 hGiven)]
        exact iff_of_false (by simp) fun h => hGiven h.1.1

/-- A member that was read has a value, also where its key is that of no field and the value was
only skipped. -/
theorem exists_value_of_readMember {key : String}
    (h : readMember fields values key text = some (out, rest)) :
    ∃ before value, Blanks before ∧ ValueText value ∧ text = before ++ (value ++ rest) := by
  unfold readMember at h
  split at h
  · obtain ⟨_, hSkip, h⟩ := Option.map_eq_some_iff.1 h
    cases h
    exact exists_value_of_skipValue hSkip
  · split at h
    · cases h
    · obtain ⟨⟨value, _⟩, hRead, h⟩ := Option.map_eq_some_iff.1 h
      cases h
      obtain ⟨before, word, hBefore, hHolds, hText⟩ := exists_holds_of_readFieldValue hRead
      exact ⟨before, word, hBefore, hHolds.valueText, hText⟩

/-- One turn of the loop over the members. -/
theorem readMembers_eq_some_iff {result : Values × List Char} :
    readMembers fields values text = some result ↔
      ∃ key afterKey, readKey text = some (key, afterKey) ∧
        ∃ middle afterMember, readMember fields values key afterKey = some (middle, afterMember) ∧
          ((∃ rest, skipBlanks afterMember = '}' :: rest ∧ (middle, rest) = result) ∨
            ∃ rest, skipBlanks afterMember = ',' :: rest ∧
              readMembers fields middle rest = some result) := by
  conv => lhs; rw [readMembers]
  split
  · next hKey => simp [hKey]
  · next key afterKey hKey =>
    split
    · next hMember => simp [hKey, hMember]
    · next middle afterMember hMember =>
      split <;> simp_all

/-- A label and the value behind it, with what ends them. -/
theorem readMembers_member {m : Member} {text rest : List Char} (h : MemberText m text)
    (hRest : Ends rest) {result : Values × List Char} :
    readMembers fields values (text ++ rest) = some result ↔
      ∃ middle, Takes fields values m middle ∧
        ((∃ next, skipBlanks rest = '}' :: next ∧ (middle, next) = result) ∨
          ∃ next, skipBlanks rest = ',' :: next ∧ readMembers fields middle next = some result) := by
  obtain ⟨hKey, hBefore, hValue, hAfter⟩ := h
  rw [readMembers_eq_some_iff]
  simp only [List.append_assoc]
  constructor
  · rintro ⟨_, _, hRead, middle, afterMember, hMember, hEnd⟩
    rw [readKey_of_keyText hKey] at hRead
    cases hRead
    have hEnds : Ends afterMember := by
      rcases hEnd with ⟨_, hNext, -⟩ | ⟨_, hNext, -⟩ <;> exact ends_of_skipBlanks hNext (by decide)
    obtain ⟨hTakes, rfl⟩ := (readMember_eq_some_iff hBefore hValue (hRest.append hAfter) hEnds).1 hMember
    rw [skipBlanks_append hAfter] at hEnd
    exact ⟨middle, hTakes, hEnd⟩
  · rintro ⟨middle, hTakes, hEnd⟩
    refine ⟨_, _, readKey_of_keyText hKey _, middle, _, (readMember_eq_some_iff hBefore hValue
      (hRest.append hAfter) (hRest.append hAfter)).2 ⟨hTakes, rfl⟩, ?_⟩
    rwa [skipBlanks_append hAfter]

/-- What a field has from `old` on, when members are still to come. -/
def Filled (members : List Member) (field : Field) : Option FieldValue → Option FieldValue → Prop
  | none, new => Given members field new
  | some old, new => new = some old ∧ field.texts members = []

/-- The values of all fields, when members are still to come. -/
structure Fills (fields : List Field) (members : List Member) (values out : Values) : Prop where
  length_eq : out.length = fields.length
  filled : ∀ i field, fields[i]? = some field →
    Filled members field (values.getD i none) (out.getD i none)

/-- A member with one of the names of a field adds its value to the texts of the field. -/
theorem texts_cons_of_mem {field : Field} {m : Member} (h : m.key ∈ field.names)
    (members : List Member) :
    field.texts (m :: members) = m.value :: field.texts members := by
  simp [Field.texts, h]

/-- Any other member adds nothing to them. -/
theorem texts_cons_of_not_mem {field : Field} {m : Member} (h : m.key ∉ field.names)
    (members : List Member) : field.texts (m :: members) = field.texts members := by
  simp [Field.texts, h]

theorem filled_nil {field : Field} {old new : Option FieldValue} :
    Filled [] field old new ↔ new = old := by
  cases old with
  | some old => simp [Filled, Field.texts]
  | none => cases new <;> simp [Filled, Given, Field.texts]

/-- A member that is not for a field has no part in how it is filled. -/
theorem filled_cons_of_not_mem {field : Field} {m : Member} (h : m.key ∉ field.names)
    {members : List Member} {old new : Option FieldValue} :
    Filled (m :: members) field old new ↔ Filled members field old new := by
  cases old with
  | some old => simp [Filled, texts_cons_of_not_mem h]
  | none => cases new <;> simp [Filled, Given, texts_cons_of_not_mem h]

/-- A member for a field fills it if it was not filled before and the value is of its kind. A second
one for the same field would not. -/
theorem filled_cons_of_mem {field : Field} {m : Member} (h : m.key ∈ field.names)
    {members : List Member} {old new : Option FieldValue} :
    Filled (m :: members) field old new ↔ old = none ∧
      ∃ value, Holds field.kind m.value value ∧ Filled members field (some value) new := by
  cases old with
  | some old => simp [Filled, texts_cons_of_mem h]
  | none =>
      cases new with
      | none => simp [Filled, Given, texts_cons_of_mem h]
      | some new =>
          simp only [Filled, Given, texts_cons_of_mem h, List.cons.injEq, Option.some.injEq, true_and]
          constructor
          · rintro ⟨_, ⟨rfl, hRest⟩, hHolds⟩
            exact ⟨new, hHolds, rfl, hRest⟩
          · rintro ⟨_, hHolds, rfl, hRest⟩
            exact ⟨m.value, ⟨rfl, hRest⟩, hHolds⟩

/-- A key for which no field is found is a name of none. -/
theorem findField_eq_none {key : String} (h : findField fields key = none) :
    ∀ field ∈ fields, key ∉ field.names := by
  intro field hField hKey
  rw [findField, Option.map_eq_none_iff, List.find?_eq_none] at h
  obtain ⟨i, hEntry⟩ := List.mem_iff_getElem?.1 hField
  exact h (field, i) (List.mem_zipIdx_iff_getElem?.2 hEntry) (List.contains_iff_mem.2 hKey)

/-- A field that is found for a key has it among its names. -/
theorem findField_eq_some {key : String} {i : Nat} {field : Field}
    (h : findField fields key = some (i, field)) : fields[i]? = some field ∧ key ∈ field.names := by
  obtain ⟨⟨other, k⟩, hFound, hSame⟩ := Option.map_eq_some_iff.1 h
  obtain ⟨rfl, rfl⟩ := Prod.mk.inj hSame
  refine ⟨List.mem_zipIdx_iff_getElem?.1 (List.mem_of_find?_eq_some hFound), ?_⟩
  exact List.contains_iff_mem.1 (List.find?_some hFound :)

/-- No key is a name of two fields, so there is no doubt which field a member is for. -/
theorem Unambiguous.eq {key : String} {i k : Nat} {field other : Field} (h : Unambiguous fields)
    (hField : fields[i]? = some field) (hOther : fields[k]? = some other)
    (hKey : key ∈ field.names) (hKey' : key ∈ other.names) : i = k := by
  obtain ⟨hi, rfl⟩ := List.getElem?_eq_some_iff.1 hField
  obtain ⟨hk, rfl⟩ := List.getElem?_eq_some_iff.1 hOther
  rcases Nat.lt_trichotomy i k with hLt | hEq | hGt
  · exact absurd hKey' (List.pairwise_iff_getElem.1 h i k hi hk hLt key hKey)
  · exact hEq
  · exact absurd hKey (List.pairwise_iff_getElem.1 h k i hk hi hGt key hKey')

theorem getD_set_self {i : Nat} (hi : i < values.length) (x : Option FieldValue) :
    (values.set i x).getD i none = x := by
  simp [List.getD_eq_getElem?_getD, hi]

theorem getD_set_ne {i k : Nat} (h : i ≠ k) (x : Option FieldValue) :
    (values.set i x).getD k none = values.getD k none := by
  simp [List.getD_eq_getElem?_getD, h]

theorem fills_nil (hLength : values.length = fields.length) :
    Fills fields [] values out ↔ out = values := by
  constructor
  · rintro ⟨hOut, hFilled⟩
    refine List.ext_getElem (hOut.trans hLength.symm) fun i hi hi' => ?_
    have hEntry := filled_nil.1 (hFilled i _ (List.getElem?_eq_getElem (hOut ▸ hi)))
    simpa [List.getD_eq_getElem?_getD, hi, hi'] using hEntry
  · rintro rfl
    exact ⟨hLength, fun i field _ => filled_nil.2 rfl⟩

/-- The first member is taken, then the others, each of them by the field for which it is or by
none. -/
theorem fills_cons (hFields : Unambiguous fields) (hLength : values.length = fields.length)
    (m : Member) (members : List Member) :
    Fills fields (m :: members) values out ↔
      ∃ middle, Takes fields values m middle ∧ Fills fields members middle out := by
  cases hFind : findField fields m.key with
  | none =>
      simp only [Takes, hFind, exists_eq_left]
      have hNone (i : Nat) (field : Field) (h : fields[i]? = some field) :
          m.key ∉ field.names := findField_eq_none hFind field (List.mem_of_getElem? h)
      constructor
      · rintro ⟨hOut, hFilled⟩
        exact ⟨hOut, fun i field h => (filled_cons_of_not_mem (hNone i field h)).1 (hFilled i field h)⟩
      · rintro ⟨hOut, hFilled⟩
        exact ⟨hOut, fun i field h => (filled_cons_of_not_mem (hNone i field h)).2 (hFilled i field h)⟩
  | some found =>
      obtain ⟨i, field⟩ := found
      obtain ⟨hField, hKey⟩ := findField_eq_some hFind
      obtain ⟨hi, -⟩ := List.getElem?_eq_some_iff.1 hField
      rw [← hLength] at hi
      simp only [Takes, hFind]
      -- Only the field that was found has the key among its names.
      have hOther (k : Nat) (other : Field) (h : fields[k]? = some other) (hne : i ≠ k) :
          m.key ∉ other.names := fun hKey' => hne (hFields.eq hField h hKey hKey')
      constructor
      · rintro ⟨hOut, hFilled⟩
        obtain ⟨hOld, value, hHolds, hNew⟩ := (filled_cons_of_mem hKey).1 (hFilled i field hField)
        refine ⟨_, ⟨hOld, value, hHolds, rfl⟩, hOut, fun k other h => ?_⟩
        by_cases hk : i = k
        · subst hk
          obtain rfl := Option.some.inj (hField.symm.trans h)
          rwa [getD_set_self hi]
        · rw [getD_set_ne hk]
          exact (filled_cons_of_not_mem (hOther k other h hk)).1 (hFilled k other h)
      · rintro ⟨_, ⟨hOld, value, hHolds, rfl⟩, hOut, hFilled⟩
        refine ⟨hOut, fun k other h => ?_⟩
        have hEntry := hFilled k other h
        by_cases hk : i = k
        · subst hk
          obtain rfl := Option.some.inj (hField.symm.trans h)
          rw [getD_set_self hi] at hEntry
          exact (filled_cons_of_mem hKey).2 ⟨hOld, value, hHolds, hEntry⟩
        · rw [getD_set_ne hk] at hEntry
          exact (filled_cons_of_not_mem (hOther k other h hk)).2 hEntry

/-- Members change values, but not how many fields there are. -/
theorem Takes.length_eq {m : Member} (h : Takes fields values m out) :
    out.length = values.length := by
  unfold Takes at h
  split at h
  · rw [h]
  · obtain ⟨-, value, -, rfl⟩ := h
    exact List.length_set

/-- The members up to the bracket are read as what they give of the fields, in whatever order they
stand. -/
theorem readMembers_listed (hFields : Unambiguous fields) {members : List Member} {body : List Char}
    (h : Listed MemberText members body) (hLength : values.length = fields.length)
    {result : Values × List Char} :
    readMembers fields values (body ++ '}' :: rest) = some result ↔
      ∃ out, Fills fields members values out ∧ result = (out, rest) := by
  induction h generalizing values with
  | @last m text hText =>
      rw [readMembers_member hText (ends_cons (by decide) rest)]
      simp only [fills_cons hFields hLength, skipBlanks_cons (show isBlank '}' = false by decide),
        List.cons.injEq, true_and, exists_eq_left', Char.reduceEq, false_and, exists_false, or_false]
      constructor
      · rintro ⟨middle, hTakes, rfl⟩
        exact ⟨middle, ⟨middle, hTakes, (fills_nil (hTakes.length_eq.trans hLength)).2 rfl⟩, rfl⟩
      · rintro ⟨out, ⟨middle, hTakes, hFills⟩, rfl⟩
        obtain rfl := (fills_nil (hTakes.length_eq.trans hLength)).1 hFills
        exact ⟨out, hTakes, rfl⟩
  | @next m members text more hText hMore ih =>
      rw [List.append_assoc, List.cons_append, readMembers_member hText (ends_cons (by decide) _)]
      simp only [fills_cons hFields hLength, skipBlanks_cons (show isBlank ',' = false by decide),
        List.cons.injEq, true_and, exists_eq_left', Char.reduceEq, false_and, exists_false, false_or]
      constructor
      · rintro ⟨middle, hTakes, hRead⟩
        obtain ⟨out, hFills, rfl⟩ := (ih (hTakes.length_eq.trans hLength)).1 hRead
        exact ⟨out, ⟨middle, hTakes, hFills⟩, rfl⟩
      · rintro ⟨out, ⟨middle, hTakes, hFills⟩, rfl⟩
        exact ⟨middle, hTakes, (ih (hTakes.length_eq.trans hLength)).2 ⟨out, hFills, rfl⟩⟩

theorem length_noValues (fields : List Field) : (noValues fields).length = fields.length :=
  List.length_map _

/-- Before the first member no field is given. -/
theorem gives_iff {members : List Member} :
    Gives fields members values ↔ Fills fields members (noValues fields) values := by
  have hNone (i : Nat) : (noValues fields).getD i none = none := by
    rw [noValues, List.getD_eq_getElem?_getD, List.getElem?_map]
    cases fields[i]? <;> rfl
  rw [Gives, List.forall₂_iff_get]
  constructor
  · rintro ⟨hLength, hGiven⟩
    refine ⟨hLength.symm, fun i field hField => ?_⟩
    obtain ⟨hi, rfl⟩ := List.getElem?_eq_some_iff.1 hField
    have hEntry := hGiven i hi (hLength ▸ hi)
    rw [hNone, List.getD_eq_getElem?_getD, List.getElem?_eq_getElem (hLength ▸ hi)]
    exact hEntry
  · rintro ⟨hLength, hFilled⟩
    refine ⟨hLength.symm, fun i hi hi' => ?_⟩
    have hEntry := hFilled i _ (List.getElem?_eq_getElem hi)
    rw [hNone, List.getD_eq_getElem?_getD, List.getElem?_eq_getElem hi'] at hEntry
    exact hEntry

/-- Members start with the quote of a key. -/
theorem Listed.skipBlanks_members {members : List Member} {body : List Char}
    (h : Listed MemberText members body) (rest : List Char) :
    ∃ tail, skipBlanks (body ++ rest) = '"' :: tail := by
  cases h with
  | last hText | next hText _ =>
      obtain ⟨⟨hBefore, -, -⟩, -, -, -⟩ := hText
      simp only [List.append_assoc, List.cons_append]
      rw [skipBlanks_append hBefore, skipBlanks_cons (by decide)]
      exact ⟨_, rfl⟩

/-- An object up to its bracket is read as what it gives of the fields, the empty one included. -/
theorem readObject_body (hFields : Unambiguous fields) {members : List Member} {body : List Char}
    (h : Body MemberText members body) {result : Values × List Char} :
    readObject fields (body ++ '}' :: rest) = some result ↔
      ∃ out, Gives fields members out ∧ result = (out, rest) := by
  have hLength := length_noValues fields
  simp only [gives_iff]
  cases h with
  | empty hBlanks =>
      rw [readObject, skipBlanks_append hBlanks, skipBlanks_cons (by decide)]
      simp only [fills_nil hLength, exists_eq_left, Option.some.injEq, eq_comm]
  | items hListed =>
      obtain ⟨tail, hStart⟩ := hListed.skipBlanks_members ('}' :: rest)
      rw [← readMembers_listed hFields hListed hLength, readObject, hStart]
      rfl

/-- What was read up to the bracket are members. -/
theorem exists_members_of_readMembers (h : readMembers fields values text = some (out, rest)) :
    ∃ members body, Listed MemberText members body ∧ text = body ++ '}' :: rest := by
  induction hLength : text.length using Nat.strongRecOn generalizing text values with
  | ind n ih =>
      obtain ⟨key, afterKey, hKey, middle, afterMember, hMember, hEnd⟩ :=
        readMembers_eq_some_iff.1 h
      obtain ⟨label, hLabel, rfl⟩ := exists_keyText_of_readKey hKey
      obtain ⟨before, value, hBefore, hValue, rfl⟩ := exists_value_of_readMember hMember
      rcases hEnd with ⟨_, hNext, hSame⟩ | ⟨next, hNext, hMore⟩
      · cases hSame
        obtain ⟨after, hAfter, rfl⟩ := exists_blanks_of_skipBlanks hNext
        have hText : MemberText ⟨key, value⟩ _ := .mk hLabel hBefore hValue hAfter
        exact ⟨_, _, .last hText, by simp⟩
      · obtain ⟨after, hAfter, rfl⟩ := exists_blanks_of_skipBlanks hNext
        obtain ⟨members, body, hListed, rfl⟩ := ih _ (by grind) hMore rfl
        have hText : MemberText ⟨key, value⟩ _ := .mk hLabel hBefore hValue hAfter
        exact ⟨_, _, .next hText hListed, by simp⟩

/-- What is read as an object is one, with everything between its brackets a list of members. -/
theorem exists_body_of_readObject (h : readObject fields text = some (out, rest)) :
    ∃ members body, Body MemberText members body ∧ text = body ++ '}' :: rest := by
  unfold readObject at h
  split at h
  · next hNext =>
    cases h
    obtain ⟨blanks, hBlanks, rfl⟩ := exists_blanks_of_skipBlanks hNext
    exact ⟨[], blanks, .empty hBlanks, rfl⟩
  · obtain ⟨members, body, hListed, rfl⟩ := exists_members_of_readMembers h
    exact ⟨members, body, .items hListed, rfl⟩

/-! ### Objects without blanks -/

/-- A key that is spelled by its own characters. -/
def Plain (key : String) : Prop := ∀ c ∈ key.toList, c ≠ '"' ∧ c ≠ '\\' ∧ isControl c = false

instance (key : String) : Decidable (Plain key) :=
  decidable_of_iff (key.toList.all fun c => c ≠ '"' && c ≠ '\\' && !isControl c)
    (by simp [Plain, and_assoc])

/-- Characters without quotes, backslashes and controls spell themselves. -/
theorem spells_of_plain {chars : List Char}
    (h : ∀ c ∈ chars, c ≠ '"' ∧ c ≠ '\\' ∧ isControl c = false) : Spells chars chars := by
  induction chars with
  | nil => exact .nil
  | cons c chars ih =>
      rw [List.forall_mem_cons] at h
      obtain ⟨⟨hQuote, hBackslash, hControl⟩, hRest⟩ := h
      exact .plain hQuote hBackslash hControl (ih hRest)

def Member.compact (m : Member) : List Char := '"' :: (m.key.toList ++ '"' :: ':' :: m.value)

/-- A plain key and a value make a member without blanks. -/
theorem Member.memberText {m : Member} (hKey : Plain m.key) (hValue : ValueText m.value) :
    MemberText m m.compact := by
  have hLabel := KeyText.mk blanks_nil (spells_of_plain hKey) blanks_nil
  simpa [Member.compact] using MemberText.mk hLabel blanks_nil hValue blanks_nil

/-- Items with nothing but commas between them. -/
theorem listed_intercalate {α : Type} {Writes : α → List Char → Prop} {write : α → List Char}
    {items : List α} (hNonempty : items ≠ []) (h : ∀ item ∈ items, Writes item (write item)) :
    Listed Writes items ([','].intercalate (items.map write)) := by
  induction items with
  | nil => exact absurd rfl hNonempty
  | cons item items ih =>
      rw [List.forall_mem_cons] at h
      cases items with
      | nil => simpa using Listed.last h.1
      | cons next items =>
          simpa [List.intercalate] using Listed.next h.1 (ih (List.cons_ne_nil _ _) h.2)

def compact (members : List Member) : List Char :=
  '{' :: ([','].intercalate (members.map Member.compact) ++ ['}'])

/-- Members written without blanks make an object. -/
theorem objectText_compact {members : List Member}
    (h : ∀ m ∈ members, Plain m.key ∧ ValueText m.value) :
    ObjectText members (compact members) := by
  have hBody : Body MemberText members ([','].intercalate (members.map Member.compact)) := by
    by_cases hEmpty : members = []
    · subst hEmpty
      exact .empty blanks_nil
    · exact .items (listed_intercalate hEmpty fun m hm => m.memberText (h m hm).1 (h m hm).2)
  exact .mk blanks_nil hBody blanks_nil

end QuantAttention.Json
