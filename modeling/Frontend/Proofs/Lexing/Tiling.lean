import Frontend.Proofs.Lexing.Attempt
import Frontend.Proofs.Source.Advance

/-!
# Tokens tile the source

The tokens of a lexer that keeps the discarded lexemes are the source cut into pieces: no character
is lost, added or moved, and every token starts where the one before it ends.  This holds at any
time, after however many calls, and says where the lexer itself stands: behind the text of the
tokens it has handed out.

The invariant that carries this is `Progress`.  It speaks of the lexer and of all the answers it has
given, those after its end included, and each of the four kinds of calls preserves it
(`Progress.call`).  The part of it about the tokens is `Tiled`, which only a lexeme has to
reestablish (`Tiled.lexeme`).
-/

namespace Frontend

open TokenStream (after answers)

def Token.chars (token : Token) : List Char := token.value.text.toList

def textOf (tokens : List Token) : List Char := tokens.flatMap Token.chars

/-- The token is not empty and stands right behind the text `before`, which starts the file: its
span starts there and reaches to its last character `c`, and the next token has to start behind `c`.
-/
def Token.StandsBehind (before : List Char) (token : Token) : Prop :=
  token.span.first = Position.start.advanceOver before ∧
    ∃ w c, token.chars = w ++ [c] ∧ token.span.last = Position.start.advanceOver (before ++ w) ∧
      token.span.last.advance c = Position.start.advanceOver (before ++ token.chars)

theorem textOf_concat (tokens : List Token) (token : Token) :
    textOf (tokens ++ [token]) = textOf tokens ++ token.chars := by
  simp [textOf]

theorem chars_lexeme (c : Cursor) (m : Match) : (c.lexeme m).chars = c.pending.take m.length :=
  String.toList_ofList

/-- The span of a lexeme stands where the cursor does. -/
theorem Token.standsBehind_lexeme {before : List Char} {cursor : Cursor} {m : Match}
    (hposition : cursor.position = Position.start.advanceOver before)
    (hpending : cursor.pending ≠ []) : (cursor.lexeme m).StandsBehind before := by
  have hpos : m.length ≠ 0 := Nat.ne_of_gt m.length_pos
  have hne : cursor.pending.take m.length ≠ [] := by
    simp only [ne_eq, List.take_eq_nil_iff, hpos, hpending, or_self, not_false_eq_true]
  obtain ⟨w, c, hw⟩ := (List.eq_nil_or_concat (cursor.pending.take m.length)).resolve_left hne
  rw [List.concat_eq_append] at hw
  have hchars : (cursor.lexeme m).chars = w ++ [c] := by rw [chars_lexeme, hw]
  have hlast : (cursor.lexeme m).span.last = Position.start.advanceOver (before ++ w) := by
    rw [Cursor.lexeme, hw, Span.covering_last, List.dropLast_concat, hposition,
      Position.advanceOver_append]
  refine ⟨hposition, w, c, hchars, hlast, ?_⟩
  rw [hlast, hchars, ← List.append_assoc, Position.advanceOver_append _ (before ++ w)]
  rfl

/-! ## What the tokens are -/

/-- The tokens are what `source` has in front of the cursor, one right behind the other. -/
structure Tiled (source : List Char) (tokens : List Token) (cursor : Cursor) : Prop where
  split : textOf tokens ++ cursor.pending = source
  position : cursor.position = Position.start.advanceOver (textOf tokens)
  stands : ∀ before token later, tokens = before ++ token :: later →
    token.StandsBehind (textOf before)

namespace Tiled

variable {source : List Char} {tokens : List Token} {cursor : Cursor}

theorem split_concat (h : Tiled source tokens cursor) (m : Match) :
    textOf (tokens ++ [cursor.lexeme m]) ++ cursor.pending.drop m.length = source :=
  calc textOf (tokens ++ [cursor.lexeme m]) ++ cursor.pending.drop m.length
      = textOf tokens ++ (cursor.pending.take m.length ++ cursor.pending.drop m.length) := by
        rw [textOf_concat, chars_lexeme, List.append_assoc]
    _ = textOf tokens ++ cursor.pending := by rw [List.take_append_drop]
    _ = source := h.split

theorem position_concat (h : Tiled source tokens cursor) (m : Match) :
    cursor.position.advanceOver (cursor.pending.take m.length) =
      Position.start.advanceOver (textOf (tokens ++ [cursor.lexeme m])) := by
  rw [textOf_concat, chars_lexeme, Position.advanceOver_append, ← h.position]

/-- The lexeme at the cursor stands behind all tokens, each of which stands where it stood. -/
theorem stands_concat (h : Tiled source tokens cursor) {m : Match} (hpending : cursor.pending ≠ [])
    {before : List Token} {token : Token} {later : List Token}
    (heq : tokens ++ [cursor.lexeme m] = before ++ token :: later) :
    token.StandsBehind (textOf before) := by
  rcases List.eq_nil_or_concat later with rfl | ⟨later, last, rfl⟩
  · obtain ⟨rfl, hlast⟩ := List.append_inj' heq rfl
    obtain rfl := List.singleton_inj.mp hlast
    exact Token.standsBehind_lexeme h.position hpending
  · rw [List.concat_eq_append, ← List.cons_append, ← List.append_assoc] at heq
    have htokens : tokens = before ++ token :: later := (List.append_inj' heq rfl).1
    exact h.stands before token later htokens

theorem look (h : Tiled source tokens cursor) (recognizers : List Recognizer) :
    Tiled source tokens (cursor.look recognizers) :=
  ⟨h.split, h.position, h.stands⟩

theorem lexeme (h : Tiled source tokens cursor) (m : Match) (hpending : cursor.pending ≠ []) :
    Tiled source (tokens ++ [cursor.lexeme m]) (cursor.skip m.length) where
  split := h.split_concat m
  position := h.position_concat m
  stands _ _ _ heq := h.stands_concat hpending heq

end Tiled

/-! ## The invariant -/

/-- What is known of a lexer that was started on `source` and has given the answers `given`. -/
structure Progress (source : List Char) (given : List (Option Item)) (l : Lexer) : Prop where
  keeps : l.yieldsDiscarded = true
  tiled : Tiled source (tokensOf given) l.cursor
  /-- An error is about the first character that is left. -/
  error : ∀ e, some (.error e) ∈ given → l.finished = true ∧ ∃ c rest,
    l.cursor.pending = c :: rest ∧ e = ⟨.single l.position, .unexpectedCharacter c⟩
  /-- A lexer finishes for an error or at the end of the source. -/
  cause : l.finished = true → (∃ e, some (.error e) ∈ given) ∨ l.cursor.pending = []
  refused : none ∈ given → l.finished = true

namespace Progress

variable {source : List Char} {given : List (Option Item)} {l l' : Lexer} {item : Option Item}

theorem start (recognizers : List Recognizer) (source : List Char) :
    Progress source [] (Lexer.start recognizers true source) where
  keeps := rfl
  tiled := ⟨rfl, rfl, fun before token later h => by simp [tokensOf] at h⟩
  error e h := by simp at h
  cause h := by simp [Lexer.start] at h
  refused h := by simp at h

theorem none_notMem_of_live (h : Progress source given l) (hf : l.finished = false) :
    none ∉ given := by
  intro hnone
  simpa [hf] using h.refused hnone

theorem error_notMem_of_live (h : Progress source given l) (hf : l.finished = false)
    (e : LexError) : some (.error e) ∉ given := by
  intro he
  simpa [hf] using (h.error e he).1

/-- **A call preserves the invariant.** -/
theorem call (h : Progress source given l) (hcall : Lexer.Call l item l') :
    Progress source (given ++ [item]) l' := by
  cases hcall with
  | finished hf =>
      have htiled : Tiled source (tokensOf (given ++ [none])) l.cursor := by
        rw [tokensOf_concat_none]
        exact h.tiled
      refine ⟨h.keeps, htiled, ?_, ?_, fun _ => hf⟩
      · intro e he
        exact h.error e (by simpa using he)
      · intro _
        simpa using h.cause hf
  | atEnd hf hpending =>
      have htiled : Tiled source (tokensOf (given ++ [none])) l.cursor := by
        rw [tokensOf_concat_none]
        exact h.tiled
      refine ⟨h.keeps, htiled, ?_, fun _ => .inr hpending, fun _ => rfl⟩
      intro e he
      exact absurd (by simpa using he) (h.error_notMem_of_live hf e)
  | @lexeme m hf hscan =>
      have htiled : Tiled source (tokensOf (given ++ [some (.ok (l.cursor.lexeme m))]))
          ((l.cursor.look l.recognizers).skip m.length) := by
        rw [tokensOf_concat_token]
        exact (h.tiled.look l.recognizers).lexeme m (Scan.pending_ne_nil hscan)
      refine ⟨h.keeps, htiled, ?_, ?_, ?_⟩
      · intro e he
        exact absurd (by simpa using he) (h.error_notMem_of_live hf e)
      · intro hf'
        rw [hf] at hf'
        contradiction
      · intro hnone
        exact absurd (by simpa using hnone) (h.none_notMem_of_live hf)
  | @unexpected first rest hf hpending hscan =>
      have htiled : Tiled source (tokensOf (given ++
          [some (.error ⟨.single l.position, .unexpectedCharacter first⟩)]))
          (l.cursor.look l.recognizers) := by
        rw [tokensOf_concat_error]
        exact h.tiled.look l.recognizers
      refine ⟨h.keeps, htiled, ?_, fun _ => .inl ⟨_, List.mem_concat_self⟩, fun _ => rfl⟩
      intro e he
      -- the lexer was not finished, so this error is the only one
      have hnew : e = ⟨.single l.position, .unexpectedCharacter first⟩ := by
        simpa [h.error_notMem_of_live hf e] using he
      exact ⟨rfl, first, rest, hpending, hnew⟩

theorem run (recognizers : List Recognizer) (source : List Char) (n : ℕ) :
    Progress source (answers (Lexer.start recognizers true source) n)
      (after (Lexer.start recognizers true source) n) := by
  induction n with
  | zero => exact start recognizers source
  | succ n ih =>
      rw [TokenStream.answers_succ, TokenStream.after_succ]
      exact ih.call (Lexer.call_next ih.keeps)

end Progress

/-- **Lexing loses nothing.**  After any number of calls the tokens make up a beginning of the
source, and all of it once the end was reported without an error.  Each token stands right behind
the text of the ones before it, the lexer behind the text of all, and an error is about the
character there.  Where a text ends is counted from the text itself. -/
theorem tokens_tile_source (recognizers : List Recognizer) (source : List Char) (n : ℕ) :
    let given := answers (Lexer.start recognizers true source) n
    let text := textOf (tokensOf given)
    ∃ rest, text ++ rest = source ∧
      (none ∈ given → (∀ e, some (.error e) ∉ given) → rest = []) ∧
      (∀ before token later, tokensOf given = before ++ token :: later →
        token.StandsBehind (textOf before)) ∧
      (after (Lexer.start recognizers true source) n).position = Position.start.advanceOver text ∧
      (∀ e, some (.error e) ∈ given → ∃ c rest', rest = c :: rest' ∧
        e = ⟨.single (Position.start.advanceOver text), .unexpectedCharacter c⟩) ∧
      ∀ w, Position.start.advanceOver w = Position.past w := by
  intro given text
  have h := Progress.run recognizers source n
  have htiled := h.tiled
  refine ⟨_, htiled.split, ?_, htiled.stands, htiled.position, ?_, Position.advanceOver_start⟩
  · intro hnone hnoerror
    rcases h.cause (h.refused hnone) with ⟨e, he⟩ | hpending
    · exact absurd he (hnoerror e)
    · exact hpending
  · intro e he
    obtain ⟨-, c, rest, hpending, rfl⟩ := h.error e he
    refine ⟨c, rest, hpending, ?_⟩
    rw [Lexer.position, htiled.position]

end Frontend
