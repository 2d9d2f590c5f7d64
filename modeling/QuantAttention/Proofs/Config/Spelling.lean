import QuantAttention.Config
import QuantAttention.Proofs.Json.Record

/-! Spellings of a configuration. A text gives some of the fields, as an object or as an array; what
is read is decided by the fields that are given and by nothing else of the text. All other texts are
refused alike. -/

namespace QuantAttention.Config

open Json

variable {text : String} {members : List Member}

/-- A choice of fields with their values: a field that is none is not given. -/
structure Choice where
  batchSize : Option Nat := none
  headNum : Option Nat := none
  seqQ : Option Nat := none
  seqK : Option Nat := none
  headSize : Option Nat := none
  approxExp : Option Bool := none
  stableSoftmax : Option Bool := none
  numThreads : Option (Option Nat) := none
  releaseTiles : Option Bool := none
  deriving DecidableEq, Repr

namespace Choice

def values (g : Choice) : Values :=
  [g.batchSize.map .count, g.headNum.map .count, g.seqQ.map .count, g.seqK.map .count,
    g.headSize.map .count, g.approxExp.map .flag, g.stableSoftmax.map .flag,
    g.numThreads.map .optionalCount, g.releaseTiles.map .flag]

/-- The configuration with the given values. All other dimensions are zero, all other flags are as
declared, and the number of threads is open. -/
def config (g : Choice) : Config :=
  { batchSize := g.batchSize.getD 0, headNum := g.headNum.getD 0, seqQ := g.seqQ.getD 0,
    seqK := g.seqK.getD 0, headSize := g.headSize.getD 0, approxExp := g.approxExp.getD true,
    stableSoftmax := g.stableSoftmax.getD false, numThreads := g.numThreads.getD none,
    releaseTiles := g.releaseTiles.getD true }

structure Fits (g : Choice) : Prop where
  counts : ∀ x ∈ [g.batchSize, g.headNum, g.seqQ, g.seqK, g.headSize], ∀ n ∈ x, n < countLimit
  numThreads : ∀ n, g.numThreads = some (some n) → n < countLimit

def outcome (g : Choice) : Except AttentionError Config :=
  if g.numThreads = some (some 0) then .error (.invalidConfig "num_threads must be positive")
  else .ok g.config

end Choice

/-- The outcome for a text that gives no choice of fields. -/
def unreadable : Except AttentionError Config :=
  .error (.invalidConfig "failed to parse MHA config")

/-! ### Values -/

theorem countOr_map (fallback : Nat) (n : Option Nat) :
    countOr fallback (n.map .count) = some (n.getD fallback) := by
  cases n <;> rfl

theorem flagOr_map (fallback : Bool) (b : Option Bool) :
    flagOr fallback (b.map .flag) = some (b.getD fallback) := by
  cases b <;> rfl

theorem optionalCountOr_map (fallback : Option Nat) (n : Option (Option Nat)) :
    optionalCountOr fallback (n.map .optionalCount) = some (n.getD fallback) := by
  cases n <;> rfl

/-- The values of a choice make its configuration, with defaults where the choice has none. -/
theorem ofValues_values (g : Choice) : ofValues g.values = some g.config := by
  simp [ofValues, Choice.values, countOr_map, flagOr_map, optionalCountOr_map, Choice.config]

/-- A configuration asks for a number of threads only if its text does. There is no default for it.
-/
theorem numThreads_config {g : Choice} {n : Nat} :
    g.config.numThreads = some n ↔ g.numThreads = some (some n) := by
  rw [Choice.config]
  cases g.numThreads <;> simp

/-- Reading comes to what the values ask for. -/
theorem parse_of_readRecord {g : Choice} (h : readRecord fields text.toList = some g.values) :
    parse text = g.outcome := by
  rw [parse, h, Option.bind_some, ofValues_values, Choice.outcome]
  simp only [numThreads_config]

/-- A text that is no record is unreadable. -/
theorem parse_of_readRecord_none (h : readRecord fields text.toList = none) :
    parse text = unreadable := by
  rw [parse, h]
  rfl

/-- A field that is not given, or is given with a value of its kind. -/
def Typed (field : Field) (value : Option FieldValue) : Prop :=
  ∀ v ∈ value, ∃ text, Holds field.kind text v

/-- A field that is a number has no value or a number that fits. -/
theorem exists_count {field : Field} {value : Option FieldValue} (h : Typed field value)
    (hKind : field.kind = .count) :
    ∃ n : Option Nat, value = n.map .count ∧ ∀ k ∈ n, k < countLimit := by
  cases value with
  | none => exact ⟨none, rfl, fun _ hk => nomatch hk⟩
  | some v =>
      obtain ⟨_, hHolds⟩ := h v rfl
      rw [hKind] at hHolds
      cases hHolds with
      | @count n hLimit => exact ⟨some n, rfl, by simpa using hLimit⟩

/-- A field that is a flag has no value or one of the two. -/
theorem exists_flag {field : Field} {value : Option FieldValue} (h : Typed field value)
    (hKind : field.kind = .flag) : ∃ b : Option Bool, value = b.map .flag := by
  cases value with
  | none => exact ⟨none, rfl⟩
  | some v =>
      obtain ⟨_, hHolds⟩ := h v rfl
      rw [hKind] at hHolds
      cases hHolds with
      | true => exact ⟨some true, rfl⟩
      | false => exact ⟨some false, rfl⟩

/-- A field that may be null has no value, or null, or a number that fits. -/
theorem exists_optionalCount {field : Field} {value : Option FieldValue} (h : Typed field value)
    (hKind : field.kind = .optionalCount) :
    ∃ n : Option (Option Nat), value = n.map .optionalCount ∧
      ∀ k, n = some (some k) → k < countLimit := by
  cases value with
  | none => exact ⟨none, rfl, fun _ hk => nomatch hk⟩
  | some v =>
      obtain ⟨_, hHolds⟩ := h v rfl
      rw [hKind] at hHolds
      cases hHolds with
      | null => exact ⟨some none, rfl, fun _ hk => nomatch hk⟩
      | @some n hLimit => exact ⟨some (some n), rfl, by simpa using hLimit⟩

/-- Values of the kinds of the fields are a choice of fields: there is one for each field, in their
order. -/
theorem exists_choice {values : Values} (h : List.Forall₂ Typed fields values) :
    ∃ g : Choice, g.values = values ∧ g.Fits := by
  simp only [fields, List.forall₂_cons_left_iff, List.forall₂_nil_left_iff] at h
  obtain ⟨_, _, h₁, ⟨_, _, h₂, ⟨_, _, h₃, ⟨_, _, h₄, ⟨_, _, h₅, ⟨_, _, h₆, ⟨_, _, h₇, ⟨_, _, h₈,
    ⟨_, _, h₉, rfl, rfl⟩, rfl⟩, rfl⟩, rfl⟩, rfl⟩, rfl⟩, rfl⟩, rfl⟩, rfl⟩ := h
  obtain ⟨batchSize, rfl, hBatchSize⟩ := exists_count h₁ rfl
  obtain ⟨headNum, rfl, hHeadNum⟩ := exists_count h₂ rfl
  obtain ⟨seqQ, rfl, hSeqQ⟩ := exists_count h₃ rfl
  obtain ⟨seqK, rfl, hSeqK⟩ := exists_count h₄ rfl
  obtain ⟨headSize, rfl, hHeadSize⟩ := exists_count h₅ rfl
  obtain ⟨approxExp, rfl⟩ := exists_flag h₆ rfl
  obtain ⟨stableSoftmax, rfl⟩ := exists_flag h₇ rfl
  obtain ⟨numThreads, rfl, hNumThreads⟩ := exists_optionalCount h₈ rfl
  obtain ⟨releaseTiles, rfl⟩ := exists_flag h₉ rfl
  refine ⟨⟨batchSize, headNum, seqQ, seqK, headSize, approxExp, stableSoftmax, numThreads,
    releaseTiles⟩, rfl, ?_, hNumThreads⟩
  simp only [List.forall_mem_cons]
  exact ⟨hBatchSize, hHeadNum, hSeqQ, hSeqK, hHeadSize, List.forall_mem_nil _⟩

/-- Members that give the fields give them values of their kinds. -/
theorem typed_of_gives {values : Values} (h : Gives fields members values) :
    List.Forall₂ Typed fields values := by
  refine List.Forall₂.imp (fun field value hGiven => ?_) h
  rintro v rfl
  obtain ⟨text, -, hHolds⟩ := hGiven
  exact ⟨text, hHolds⟩

/-! ### Texts -/

/-- No name belongs to two fields of a configuration, aliases included. -/
theorem unambiguous_fields : Unambiguous fields := by
  simp [Unambiguous, fields]

/-- A text that gives these members: an object that has them, or an array of their values, where
they stand for the first fields in their order. -/
inductive Spelled (members : List Member) (text : List Char) : Prop
  | object (h : ObjectText members text)
  | array (hLeading : Leading fields members) (h : ArrayText (members.map Member.value) text)

/-- A spelling of members is read exactly as what they give. -/
theorem readRecord_spelled {text : List Char} {values : Values} (h : Spelled members text) :
    readRecord fields text = some values ↔ Gives fields members values := by
  cases h with
  | object hText => exact readRecord_object unambiguous_fields hText
  | array hLeading hText =>
      rw [readRecord_array hText, leads_iff_gives unambiguous_fields hLeading]

/-- A field that stands twice among the members, or with a value that is none of its kind. -/
def Misgiven (members : List Member) (field : Field) : Prop :=
  2 ≤ (field.texts members).length ∨
    ∃ text ∈ field.texts members, ∀ value, ¬Holds field.kind text value

/-- A field that is given twice or with a value of another kind has no value at all. -/
theorem Misgiven.not_given {field : Field} (h : Misgiven members field) (value : Option FieldValue) :
    ¬Json.Given members field value := by
  cases value with
  | none =>
      intro (hNone : field.texts members = [])
      rcases h with hTwice | ⟨text, hText, -⟩
      · simp [hNone] at hTwice
      · simp [hNone] at hText
  | some v =>
      rintro ⟨text, hTexts, hHolds⟩
      rcases h with hTwice | ⟨other, hOther, hNot⟩
      · simp [hTexts] at hTwice
      · rw [hTexts, List.mem_singleton] at hOther
        exact hNot v (hOther ▸ hHolds)

/-- One such field is enough to make a text unreadable. -/
theorem not_gives_of_misgiven {field : Field} {values : Values} (hField : field ∈ fields)
    (h : Misgiven members field) : ¬Gives fields members values := by
  intro hGives
  obtain ⟨⟨i, hi⟩, rfl⟩ := List.mem_iff_get.1 hField
  exact h.not_given _ (hGives.get hi (hGives.length_eq ▸ hi))

/-- Elements that are values of the first fields are those of members that stand for these. -/
theorem exists_leading {known : List Field} {texts : List (List Char)} {values : Values}
    (h : Leads known texts values) (hNames : ∀ field ∈ known, field.names ≠ []) :
    ∃ members, Leading known members ∧ members.map Member.value = texts := by
  induction h with
  | nil known => exact ⟨[], .nil known, rfl⟩
  | @cons field known text texts value values _ _ ih =>
      rw [List.forall_mem_cons] at hNames
      obtain ⟨members, hLeading, rfl⟩ := ih hNames.2
      obtain ⟨name, names, hName⟩ := List.exists_cons_of_ne_nil hNames.1
      exact ⟨⟨name, text⟩ :: members, .cons (by simp [hName]) hLeading, rfl⟩

/-- Only texts that give members are read, be they objects or arrays. -/
theorem exists_spelled_of_readRecord {text : List Char} {values : Values}
    (h : readRecord fields text = some values) : ∃ members, Spelled members text := by
  rcases exists_text_of_readRecord h with ⟨members, hText⟩ | ⟨texts, hText⟩
  · exact ⟨members, .object hText⟩
  · obtain ⟨members, hLeading, rfl⟩ :=
      exists_leading ((readRecord_array hText).1 h) (by simp [fields])
    exact ⟨members, .array hLeading hText⟩

/-- A configuration is decided by the fields that a text gives, and by nothing else that stands in
it. -/
theorem parse_spelled {g : Choice} (h : Spelled members text.toList)
    (hGives : Gives fields members g.values) : parse text = g.outcome :=
  parse_of_readRecord ((readRecord_spelled h).2 hGives)

/-- What was read as a configuration spells one. -/
theorem exists_choice_of_parse (h : parse text ≠ unreadable) :
    ∃ g : Choice, g.Fits ∧ parse text = g.outcome := by
  cases hRead : readRecord fields text.toList with
  | none => exact absurd (parse_of_readRecord_none hRead) h
  | some values =>
      obtain ⟨members, hSpelled⟩ := exists_spelled_of_readRecord hRead
      obtain ⟨g, rfl, hFits⟩ := exists_choice (typed_of_gives ((readRecord_spelled hSpelled).1 hRead))
      exact ⟨g, hFits, parse_of_readRecord hRead⟩

/-- The spelling of a configuration does not matter. A text that gives some of the fields, each once
under one of its names and with a value of its kind, comes to the configuration with these values and
with defaults for all else, in whatever order and among whatever other members they stand, or to the
refusal of zero threads. Texts with the same members come to the same, an array and an object among
them. A text that gives a field twice or with a value of another kind is unreadable, and so is every
text that is no such object or array. -/
theorem parse_spelling (text : String) :
    (∀ members (g : Choice), Spelled members text.toList → Gives fields members g.values →
      parse text = g.outcome) ∧
    (∀ members (other : String), Spelled members text.toList → Spelled members other.toList →
      parse text = parse other) ∧
    (∀ members, Spelled members text.toList → ∀ field ∈ fields, Misgiven members field →
      parse text = unreadable) ∧
    ((∀ members, ¬Spelled members text.toList) → parse text = unreadable) := by
  refine ⟨fun members g => parse_spelled, fun members other hText hOther => ?_,
    fun members hText field hField hMisgiven => ?_, fun hNone => ?_⟩
  · have hSame : readRecord fields text.toList = readRecord fields other.toList :=
      Option.ext fun values => by rw [readRecord_spelled hText, readRecord_spelled hOther]
    rw [parse, parse, hSame]
  · refine parse_of_readRecord_none (Option.eq_none_iff_forall_ne_some.2 fun values hRead => ?_)
    exact not_gives_of_misgiven hField hMisgiven ((readRecord_spelled hText).1 hRead)
  · refine parse_of_readRecord_none (Option.eq_none_iff_forall_ne_some.2 fun values hRead => ?_)
    obtain ⟨members, hText⟩ := exists_spelled_of_readRecord hRead
    exact hNone members hText

theorem spelled_compact (h : ∀ m ∈ members, Plain m.key ∧ ValueText m.value) :
    Spelled members (String.ofList (compact members)).toList := by
  rw [String.toList_ofList]
  exact .object (objectText_compact h)

/-- Zero threads behind a key that is no field, an array and an object with the same dimension, one
dimension under both of its names, and the empty text. -/
theorem parse_spelling_mixed :
    parse (String.ofList (compact [⟨"x", ['[', ']']⟩, ⟨"num_threads", ['0']⟩, ⟨"n", ['3']⟩])) =
        .error (.invalidConfig "num_threads must be positive") ∧
      parse "[ 1 ]" = parse (String.ofList (compact [⟨"batch", ['1']⟩])) ∧
      parse (String.ofList (compact [⟨"m", ['1']⟩, ⟨"seq_q", ['1']⟩])) = unreadable ∧
      parse "" = unreadable := by
  have hDigit (n : Nat) (h : n < 10) : Holds .count [n.digitChar] (.count n) := by
    rw [← Nat.toDigits_of_lt_base h]
    exact .count (Nat.lt_trans h (by decide))
  have hZero : Holds .optionalCount (Nat.toDigits 10 0) (.optionalCount (some 0)) :=
    .some (by decide)
  have hDigitText (n : Nat) (h : n < 10) : ValueText [n.digitChar] := (hDigit n h).valueText
  have hThree := hDigitText 3 (by decide)
  have hOne := hDigitText 1 (by decide)
  refine ⟨?_, ?_, ?_, ?_⟩
  · have hMembers : ∀ m ∈ [⟨"x", ['[', ']']⟩, ⟨"num_threads", ['0']⟩, ⟨"n", ['3']⟩],
        Plain (Member.key m) ∧ ValueText m.value := by
      simp only [List.forall_mem_cons]
      exact ⟨⟨by decide, @PartText.empty .list _ blanks_nil⟩, ⟨by decide, hZero.valueText⟩,
        ⟨by decide, hThree⟩, List.forall_mem_nil _⟩
    refine (parse_spelling _).1 _ { seqK := some 3, numThreads := some (some 0) }
      (spelled_compact hMembers) ?_
    exact .cons rfl (.cons rfl (.cons rfl (.cons ⟨['3'], rfl, hDigit 3 (by decide)⟩ (.cons rfl
      (.cons rfl (.cons rfl (.cons ⟨['0'], rfl, hZero⟩ (.cons rfl .nil))))))))
  · have hBlank : Blanks [' '] := by simp [Blanks, isBlank]
    have hElement : ElementText ['1'] [' ', '1', ' '] := .mk hBlank hOne hBlank
    have hArray : ArrayText [['1']] "[ 1 ]".toList :=
      .mk blanks_nil (.items (.last hElement)) blanks_nil
    refine (parse_spelling _).2.1 [⟨"batch", ['1']⟩] _ (.array (.cons (by decide) (.nil _)) hArray)
      (spelled_compact ?_)
    · simp only [List.forall_mem_cons]
      exact ⟨⟨by decide, hOne⟩, List.forall_mem_nil _⟩
  · refine (parse_spelling _).2.2.1 _ (spelled_compact ?_) ⟨["seq_q", "m"], .count⟩ (by decide)
      (.inl (by decide))
    simp only [List.forall_mem_cons]
    exact ⟨⟨by decide, hOne⟩, ⟨by decide, hOne⟩, List.forall_mem_nil _⟩
  · refine (parse_spelling _).2.2.2 fun members hText => ?_
    cases hText with
    | object hText => exact hText.ne_nil rfl
    | array _ hText => exact hText.ne_nil rfl

end QuantAttention.Config
