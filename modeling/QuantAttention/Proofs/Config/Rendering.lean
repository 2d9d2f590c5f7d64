import QuantAttention.Proofs.Config.Spelling

/-! Configurations written and read again. What is written gives all fields, so reading it gives the
configuration back; and what is read can be written, since reading refuses the rest. -/

namespace QuantAttention.Config

open Json

/-- All numbers are words of 64 bits, and there are not zero threads. -/
structure Representable (c : Config) : Prop where
  counts : ∀ n ∈ [c.batchSize, c.headNum, c.seqQ, c.seqK, c.headSize], n < countLimit
  numThreads : ∀ n ∈ c.numThreads, 0 < n ∧ n < countLimit

def members (c : Config) : List Member :=
  [⟨"batch_size", Nat.toDigits 10 c.batchSize⟩, ⟨"head_num", Nat.toDigits 10 c.headNum⟩,
    ⟨"seq_q", Nat.toDigits 10 c.seqQ⟩, ⟨"seq_k", Nat.toDigits 10 c.seqK⟩,
    ⟨"head_size", Nat.toDigits 10 c.headSize⟩, ⟨"approx_exp", (flagJson c.approxExp).toList⟩,
    ⟨"stable_softmax", (flagJson c.stableSoftmax).toList⟩,
    ⟨"num_threads", c.numThreads.elim "null".toList (Nat.toDigits 10)⟩,
    ⟨"release_tiles", (flagJson c.releaseTiles).toList⟩]

def choice (c : Config) : Choice :=
  { batchSize := c.batchSize, headNum := c.headNum, seqQ := c.seqQ, seqK := c.seqK,
    headSize := c.headSize, approxExp := c.approxExp, stableSoftmax := c.stableSoftmax,
    numThreads := some c.numThreads, releaseTiles := c.releaseTiles }

theorem toList_member (name value : String) :
    (member name value).toList = Member.compact ⟨name, value.toList⟩ := by
  simp [member, Member.compact]

/-- What is written for an object: its members with commas between them, in braces. -/
theorem toList_object (members : List String) :
    (object members).toList = '{' :: ([','].intercalate (members.map String.toList) ++ ['}']) := by
  simp [object]

theorem toList_toString (n : Nat) : (toString n).toList = Nat.toDigits 10 n := by
  rw [Nat.toString_eq_ofList_toDigits, String.toList_ofList]

/-- What is written is the object with these members, without blanks. -/
theorem toList_render (c : Config) : c.render.toList = compact c.members := by
  obtain ⟨_, _, _, _, _, _, _, numThreads, _⟩ := c
  rw [render, toList_object]
  cases numThreads <;>
    simp only [compact, members, List.map_cons, List.map_nil, toList_member, toList_toString,
      Option.elim]

theorem holds_flag (b : Bool) : Holds .flag (flagJson b).toList (.flag b) := by
  cases b
  · exact .false
  · exact .true

theorem holds_numThreads {n : Option Nat} (h : ∀ k ∈ n, k < countLimit) :
    Holds .optionalCount (n.elim "null".toList (Nat.toDigits 10)) (.optionalCount n) := by
  cases n with
  | none => exact .null
  | some n => exact .some (h n rfl)

/-- The members of a configuration stand for all fields. -/
theorem leading_members (c : Config) : Leading fields c.members :=
  have hFirst {name : String} {names : List String} : name ∈ name :: names := List.mem_cons_self
  .cons hFirst (.cons hFirst (.cons hFirst (.cons hFirst (.cons hFirst (.cons hFirst (.cons hFirst
    (.cons hFirst (.cons hFirst (.nil [])))))))))

/-- The names of the fields need no escapes. -/
theorem plain_members (c : Config) : ∀ m ∈ c.members, Plain m.key := by
  simp only [members, List.forall_mem_cons]
  decide

/-- The members of a configuration have values of the kinds of their fields, in the order of the
fields. -/
theorem leads_members {c : Config} (h : c.Representable) :
    Leads fields (c.members.map Member.value) c.choice.values := by
  obtain ⟨hCounts, hThreads⟩ := h
  simp only [List.forall_mem_cons] at hCounts
  obtain ⟨hBatchSize, hHeadNum, hSeqQ, hSeqK, hHeadSize, -⟩ := hCounts
  exact .cons (.count hBatchSize) (.cons (.count hHeadNum) (.cons (.count hSeqQ)
    (.cons (.count hSeqK) (.cons (.count hHeadSize) (.cons (holds_flag _) (.cons (holds_flag _)
    (.cons (holds_numThreads fun n hn => (hThreads n hn).2) (.cons (holds_flag _) (.nil [])))))))))

/-- The members of a configuration give its choice of fields. -/
theorem gives_members {c : Config} (h : c.Representable) :
    Gives fields c.members c.choice.values :=
  (leads_iff_gives unambiguous_fields (leading_members c)).1 (leads_members h)

/-- What is written for a configuration is a spelling of its members. -/
theorem spelled_render {c : Config} (h : c.Representable) : Spelled c.members c.render.toList := by
  rw [toList_render]
  refine .object (objectText_compact fun m hm => ⟨plain_members c m hm, ?_⟩)
  exact (leads_members h).valueText _ (List.mem_map_of_mem hm)

/-- What is written is read back, field by field and with nothing left to a default. -/
theorem parse_render {c : Config} (h : c.Representable) : parse c.render = .ok c := by
  rw [parse_spelled (spelled_render h) (gives_members h), Choice.outcome, if_neg]
  · rfl
  · intro hZero
    exact Nat.lt_irrefl 0 (h.numThreads 0 (Option.some.inj hZero)).1

/-- A choice whose numbers fit and that does not ask for zero threads is a configuration that can be
written. -/
theorem representable_config {g : Choice} (h : g.Fits) (hPositive : g.numThreads ≠ some (some 0)) :
    g.config.Representable := by
  have hDefault {x : Option Nat} (hx : ∀ n ∈ x, n < countLimit) : x.getD 0 < countLimit := by
    cases x with
    | none => decide
    | some n => exact hx n rfl
  obtain ⟨hCounts, hThreads⟩ := h
  simp only [List.forall_mem_cons] at hCounts
  obtain ⟨hBatchSize, hHeadNum, hSeqQ, hSeqK, hHeadSize, -⟩ := hCounts
  refine ⟨?_, fun n hn => ?_⟩
  · simp only [Choice.config, List.forall_mem_cons]
    exact ⟨hDefault hBatchSize, hDefault hHeadNum, hDefault hSeqQ, hDefault hSeqK,
      hDefault hHeadSize, List.forall_mem_nil _⟩
  · have hGiven := numThreads_config.1 hn
    refine ⟨Nat.pos_of_ne_zero ?_, hThreads n hGiven⟩
    rintro rfl
    exact hPositive hGiven

/-- What is read can be written: its numbers fit, since numbers that do not are not read. -/
theorem representable_of_parse {text : String} {c : Config} (h : parse text = .ok c) :
    c.Representable := by
  obtain ⟨g, hFits, hOutcome⟩ := exists_choice_of_parse (h ▸ nofun : parse text ≠ unreadable)
  rw [h, Choice.outcome] at hOutcome
  split at hOutcome
  · cases hOutcome
  · next hPositive =>
    cases hOutcome
    exact representable_config hFits hPositive

/-- Writing and reading undo each other. Every configuration that can be represented is read back
from its text. Whatever text a configuration was read from, it does not ask for zero threads, and
writing and reading it again gives it back. -/
theorem parse_render_parse :
    (∀ c : Config, c.Representable → parse c.render = .ok c) ∧
      ∀ (text : String) (c : Config), parse text = .ok c →
        c.numThreads ≠ some 0 ∧ parse c.render = .ok c := by
  refine ⟨fun c => parse_render, fun text c h => ?_⟩
  have hRepresentable := representable_of_parse h
  refine ⟨fun hZero => ?_, parse_render hRepresentable⟩
  exact Nat.lt_irrefl 0 (hRepresentable.numThreads 0 hZero).1

/-- The greatest words, and an array that gives two dimensions. -/
theorem parse_render_parse_words :
    parse (render ⟨18446744073709551615, 0, 1, 2, 3, false, true, some 18446744073709551615, false⟩) =
        .ok ⟨18446744073709551615, 0, 1, 2, 3, false, true, some 18446744073709551615, false⟩ ∧
      parse "[1, 2]" = .ok { batchSize := 1, headNum := 2 } ∧
      parse (render { batchSize := 1, headNum := 2 }) = .ok { batchSize := 1, headNum := 2 } := by
  have hRead : parse "[1, 2]" = .ok { batchSize := 1, headNum := 2 } := by decide
  exact ⟨parse_render_parse.1 _ ⟨by decide, by decide⟩, hRead, (parse_render_parse.2 _ _ hRead).2⟩

end QuantAttention.Config
