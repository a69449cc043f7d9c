import Frontend.Proofs.Lexing.Checking
import Frontend.Proofs.Lexing.Priority

/-!
# Unexpected characters

The lexer of MH fails where no beginning of the text is recognized, however long.  It need not look
far to see whether this is so.  Most characters that lexemes start with are lexemes by themselves
(`StandsAlone`), so wherever one of them stands something is recognized.  The others are the capital
letters that four words start with, and these have to be there in full.  Nothing else starts a lexeme
(`acceptedLengths_eq_empty_iff`).

So a text of characters that stand alone is lexed to its end, whatever their order.
-/

namespace Frontend

open CharClass
open TokenStream (answer items)

/-- The characters that are lexemes by themselves. -/
def StandsAlone (c : Char) : Prop :=
  small.contains c = true ∨ digit.contains c = true ∨ symbolic.contains c = true ∨
    whitespace.contains c = true ∨ c ∈ ['(', ')', ';']

instance : DecidablePred StandsAlone := fun _ => inferInstanceAs (Decidable (_ ∨ _))

/-- The lexemes that start with a capital letter. -/
def capitalizedWords : List (List Char) :=
  [ ['I', 'n', 't', 'e', 'g', 'e', 'r'], ['B', 'o', 'o', 'l'], ['T', 'r', 'u', 'e'],
    ['F', 'a', 'l', 's', 'e'] ]

/-! ## What is recognized at the start of a text -/

namespace Recognizer

theorem exists_accepts_of_standsAlone {c : Char} (h : StandsAlone c) :
    ∃ r ∈ mhRecognizers, r.accepts [c] = true := by
  rcases h with hsmall | hdigit | hsymbolic | hblank | hmark
  · exact ⟨identifier, by decide, beq_iff_eq.mpr (if_pos hsmall)⟩
  · refine ⟨numeral, by decide, ?_⟩
    by_cases hzero : c = '0'
    · subst hzero
      rfl
    · simp [accepts, run, runFrom, next, isAccepting, hzero, hdigit]
  · exact ⟨operator, by decide, beq_iff_eq.mpr (if_pos hsymbolic)⟩
  · exact ⟨blank, by decide, beq_iff_eq.mpr (if_pos hblank)⟩
  · have hmarks : ∀ w ∈ ['(', ')', ';'].map ([·]), ∃ r ∈ mhRecognizers, r.accepts w = true := by
      decide
    exact hmarks [c] (List.mem_map_of_mem hmark)

/-- What is recognized starts with a character that stands alone, or else it is one of four words. -/
theorem standsAlone_or_mem_of_accepts {r : Recognizer} (hr : r ∈ mhRecognizers) {c : Char}
    {v : List Char} (h : r.accepts (c :: v) = true) :
    StandsAlone c ∨ c :: v ∈ capitalizedWords := by
  cases hlead : r.leadingClass with
  | some k =>
      have hclasses : ∀ r ∈ mhRecognizers, ∀ k ∈ r.leadingClass,
          k = small ∨ k = digit ∨ k = symbolic ∨ k = whitespace := by decide
      have hc := contains_of_accepts hlead h
      left
      rcases hclasses r hr k hlead with rfl | rfl | rfl | rfl
      · exact .inl hc
      · exact .inr (.inl hc)
      · exact .inr (.inr (.inl hc))
      · exact .inr (.inr (.inr (.inl hc)))
  | none =>
      have hwords : ∀ r ∈ mhRecognizers, ∀ w ∈ r.words,
          w.head?.all (StandsAlone ·) = true ∨ w ∈ capitalizedWords := by decide
      rcases hwords r hr _ (mem_words_of_accepts hlead h) with hhead | hmem
      · exact .inl (of_decide_eq_true hhead)
      · exact .inr hmem

end Recognizer

theorem length_mem_acceptedLengths {recognizers : List Recognizer} {w text : List Char}
    (hw : ∃ r ∈ recognizers, r.accepts w = true) (hstart : w <+: text) :
    w.length ∈ acceptedLengths recognizers text := by
  obtain ⟨r, hr, haccepts⟩ := hw
  refine ⟨List.length_pos_iff.mpr (Recognizer.ne_nil_of_accepts haccepts), hstart.length_le, r, hr,
    ?_⟩
  rwa [← List.prefix_iff_eq_take.mp hstart]

/-- **Nothing is recognized if and only if the first character does not stand alone and none of the
four words is there.** -/
theorem acceptedLengths_eq_empty_iff {first : Char} {rest : List Char} :
    acceptedLengths mhRecognizers (first :: rest) = ∅ ↔
      ¬ StandsAlone first ∧ ∀ w ∈ capitalizedWords, ¬ w <+: first :: rest := by
  constructor
  · intro hempty
    refine ⟨fun halone => ?_, fun w hw hstart => ?_⟩
    · have hmem := length_mem_acceptedLengths (Recognizer.exists_accepts_of_standsAlone halone)
        (List.prefix_append [first] rest)
      rw [List.singleton_append, hempty] at hmem
      exact hmem
    · have hwords : ∀ w ∈ capitalizedWords, ∃ r ∈ mhRecognizers, r.accepts w = true := by decide
      have hmem := length_mem_acceptedLengths (hwords w hw) hstart
      rw [hempty] at hmem
      exact hmem
  · rintro ⟨halone, hwords⟩
    refine Set.eq_empty_iff_forall_notMem.mpr ?_
    rintro n ⟨hpos, hle, r, hr, haccepts⟩
    obtain ⟨n, rfl⟩ := Nat.exists_eq_succ_of_ne_zero (Nat.ne_of_gt hpos)
    rw [Nat.succ_eq_add_one, List.take_succ_cons] at haccepts
    rcases Recognizer.standsAlone_or_mem_of_accepts hr haccepts with h | hmem
    · exact halone h
    · refine hwords _ hmem ?_
      rw [← List.take_succ_cons]
      exact List.take_prefix _ _

theorem Scan.longest_eq_none_iff {recognizers : List Recognizer} {text : List Char} :
    (Scan.of recognizers text).longest = none ↔ acceptedLengths recognizers text = ∅ := by
  refine ⟨Scan.acceptedLengths_eq_empty, fun hempty => ?_⟩
  cases hlongest : (Scan.of recognizers text).longest with
  | none => rfl
  | some m => exact absurd hempty (Scan.isGreatest_length hlongest).nonempty.ne_empty

/-! ## What a lexer reports -/

/-- Where an error stands in a text, and why it was reported. -/
theorem Munch.exists_eq_append_of_error {recognizers : List Recognizer} {p : Position}
    {text : List Char} {items : List Item} (h : Munch recognizers p text items) {e : LexError}
    (hmem : .error e ∈ items) :
    ∃ before first rest, text = before ++ first :: rest ∧
      e = ⟨.single (p.advanceOver before), .unexpectedCharacter first⟩ ∧
      acceptedLengths recognizers (first :: rest) = ∅ := by
  induction h with
  | done => simp at hmem
  | @lexeme p text n r items _ _ _ ih =>
      obtain ⟨before, first, rest, htext, he, hempty⟩ := ih (by simpa using hmem)
      refine ⟨text.take n ++ before, first, rest, ?_, ?_, hempty⟩
      · rw [List.append_assoc, ← htext, List.take_append_drop]
      · rw [he, Position.advanceOver_append]
  | @unexpected p c rest hempty =>
      have he : e = ⟨.single p, .unexpectedCharacter c⟩ := by simpa using hmem
      exact ⟨[], c, rest, rfl, he, hempty⟩

theorem exists_eq_append_of_error {yieldsDiscarded : Bool} {source : List Char} {e : LexError}
    (hmem : .error e ∈ items (Lexer.start mhRecognizers yieldsDiscarded source)) :
    ∃ before first rest, source = before ++ first :: rest ∧
      e = ⟨.single (Position.start.advanceOver before), .unexpectedCharacter first⟩ ∧
      ¬ StandsAlone first ∧ ∀ w ∈ capitalizedWords, ¬ w <+: first :: rest := by
  simp only [← acceptedLengths_eq_empty_iff]
  exact (Lexer.munch_items_start mhRecognizers source).exists_eq_append_of_error
    (Lexer.mem_items_keeping hmem)

/-- A source of characters that stand alone has no error. -/
theorem isOk_of_standsAlone {yieldsDiscarded : Bool} {source : List Char}
    (halone : ∀ c ∈ source, StandsAlone c) {item : Item}
    (hmem : item ∈ items (Lexer.start mhRecognizers yieldsDiscarded source)) :
    item.isOk = true := by
  cases item with
  | ok token => rfl
  | error e =>
      obtain ⟨before, first, rest, rfl, -, hnot, -⟩ := exists_eq_append_of_error hmem
      exact absurd (halone first (by simp)) hnot

namespace Lexer

variable {l : Lexer} {first : Char} {rest : List Char}

/-- Nothing is yielded that stands before the place a lexer has reached. -/
theorem offset_le_of_next {item : Item} (h : l.next.value.1 = some item) :
    l.position.offset ≤ item.span.first.offset := by
  fun_induction next l with
  | case1 => contradiction
  | case2 => contradiction
  | case3 l hl e c hc =>
      obtain rfl : .error e = item := Option.some.inj h
      rcases Cursor.attempt_cases hc with ⟨m, -, heq, -⟩ | ⟨first, rest, -, -, heq, -⟩
      · contradiction
      · rw [heq]
        exact le_rfl
  | case4 l hl token c hc hskip ih =>
      refine Nat.le_trans ?_ (ih h)
      rcases Cursor.attempt_cases hc with ⟨m, -, -, rfl⟩ | ⟨first, rest, -, -, heq, -⟩
      · exact Position.offset_le_of_le (Position.le_advanceOver _ _)
      · contradiction
  | case5 l hl token c hc hkeep =>
      obtain rfl : .ok token = item := Option.some.inj h
      rcases Cursor.attempt_cases hc with ⟨m, -, heq, -⟩ | ⟨first, rest, -, -, heq, -⟩
      · rw [heq]
        exact le_rfl
      · contradiction

/-- A lexeme that is left out takes a lexer further on. -/
theorem offset_lt_skip {m : Match} (hm : (Scan.of l.recognizers l.cursor.pending).longest = some m) :
    l.position.offset < ((l.cursor.look l.recognizers).skip m.length).position.offset := by
  obtain ⟨first, rest, hpending⟩ := List.exists_cons_of_ne_nil (Scan.pending_ne_nil hm)
  obtain ⟨n, hn⟩ := Nat.exists_eq_succ_of_ne_zero (Nat.ne_of_gt m.length_pos)
  have hbytes : 0 < byteLength (l.cursor.pending.take m.length) := by
    rw [hpending, hn, Nat.succ_eq_add_one, List.take_succ_cons, byteLength_cons]
    exact Nat.add_pos_left first.utf8Size_pos _
  have hoffset := Position.offset_advanceOver l.position (l.cursor.pending.take m.length)
  show l.position.offset < (l.position.advanceOver (l.cursor.pending.take m.length)).offset
  omega

/-- A lexer reports the character that it stands in front of if and only if nothing is recognized
there. -/
theorem next_eq_error_iff (hf : l.finished = false) (hpending : l.cursor.pending = first :: rest) :
    l.next.value.1 = some (.error ⟨.single l.position, .unexpectedCharacter first⟩) ↔
      acceptedLengths l.recognizers (first :: rest) = ∅ := by
  rw [← hpending, ← Scan.longest_eq_none_iff]
  constructor
  · intro h
    by_contra hlongest
    obtain ⟨m, hm⟩ := Option.ne_none_iff_exists'.mp hlongest
    have hattempt := Cursor.attempt_eq_lexeme hm
    by_cases hskip : (l.cursor.lexeme m).value.isDiscarded = true ∧ l.yieldsDiscarded = false
    · -- whatever is reported behind the lexeme that is left out stands further on
      rw [next_of_attempt_discarded hf hskip.2 hskip.1 hattempt] at h
      exact absurd (offset_lt_skip hm) (Nat.not_lt.mpr (offset_le_of_next h))
    · have hnext : l.next.value.1 = some (.ok (l.cursor.lexeme m)) := by
        rw [not_and_or, Bool.not_eq_true, Bool.not_eq_false] at hskip
        rcases hskip with hvisible | hkeep
        · rw [next_of_attempt_visible hf hvisible hattempt]
          rfl
        · rw [next_of_attempt_ok hf hkeep hattempt]
          rfl
      rw [hnext] at h
      exact absurd (Option.some.inj h) (by simp)
  · intro hlongest
    rw [next_of_attempt_error hf (Cursor.attempt_eq_error hpending hlongest)]
    rfl

end Lexer

/-- **When lexing fails.**  In front of a text the lexer of MH reports its first character if and only
if that does not stand alone and the text does not start with one of four words.  No other error is
ever reported, and so every source of characters that stand alone is lexed to its end. -/
theorem unexpected_iff_nothing_starts (yieldsDiscarded : Bool) :
    (∀ cursor first rest, cursor.pending = first :: rest →
      ((⟨mhRecognizers, yieldsDiscarded, cursor, false⟩ : Lexer).next.value.1 =
          some (.error ⟨.single cursor.position, .unexpectedCharacter first⟩) ↔
        ¬ StandsAlone first ∧ ∀ w ∈ capitalizedWords, ¬ w <+: first :: rest)) ∧
    (∀ source n e, answer (Lexer.start mhRecognizers yieldsDiscarded source) n = some (.error e) →
      ∃ before first rest, source = before ++ first :: rest ∧
        e = ⟨.single (Position.start.advanceOver before), .unexpectedCharacter first⟩ ∧
        ¬ StandsAlone first ∧ ∀ w ∈ capitalizedWords, ¬ w <+: first :: rest) ∧
    ∀ source, (∀ c ∈ source, StandsAlone c) →
      ∃ tokens,
        (TokenStream.collect (Lexer.start mhRecognizers yieldsDiscarded source)).value =
          .ok tokens := by
  refine ⟨?_, ?_, ?_⟩
  · intro cursor first rest hpending
    rw [← acceptedLengths_eq_empty_iff]
    exact Lexer.next_eq_error_iff (l := ⟨mhRecognizers, yieldsDiscarded, cursor, false⟩) rfl hpending
  · intro source n e h
    rw [TokenStream.answer_eq_getElem?] at h
    exact exists_eq_append_of_error (List.mem_of_getElem? h)
  · intro source halone
    have hcollect := TokenStream.isOk_collect (Lexer.start mhRecognizers yieldsDiscarded source)
    rw [List.all_eq_true.mpr fun item => isOk_of_standsAlone halone] at hcollect
    generalize (TokenStream.collect (Lexer.start mhRecognizers yieldsDiscarded source)).value =
      result at hcollect
    cases result with
    | error e => contradiction
    | ok tokens => exact ⟨tokens, rfl⟩

end Frontend
