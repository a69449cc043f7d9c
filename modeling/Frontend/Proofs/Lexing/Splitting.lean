import Frontend.Proofs.Lexing.Discarding
import Frontend.Proofs.Lexing.Tiling
import Mathlib.Data.List.Forall2

/-!
# Splitting a source between two lexemes

Cut a source text in two where one lexeme ends and the next one starts.  The first part alone yields
the lexemes up to there, the second part alone the rest, with other positions.  This is not obvious
from the lexer, which had seen something of the second part when it decided on the lexemes of the
first.  The rule of maximal munch says why it is so.  What is behind a lexeme can only offer longer
matches, and there was none; so with the second part gone the same match is still the longest
(`isGreatest_of_append`).  And the rule knows nothing of what came before, apart from the position
(`Munch.moved`).

Positions in the second part are related by the text between its start and the place in question:
`Position.Moved` walks over it from the start of a file in one case, and from where the first part
ends in the other.
-/

namespace Frontend

open TokenStream (answer answers items)

variable {recognizers : List Recognizer}

/-! ## The same place in a text that has been moved -/

/-- The positions `x` and `y` are those of one place in `text`, which starts at `p` for `x` and at
`q` for `y`. -/
def Position.Moved (p q : Position) (text : List Char) (x y : Position) : Prop :=
  ∃ before, before <+: text ∧ x = p.advanceOver before ∧ y = q.advanceOver before

/-- The items say the same and stand at the same place in `text`, wherever it starts. -/
structure Item.Moved (p q : Position) (text : List Char) (item item' : Item) : Prop where
  value : item'.value = item.value
  first : Position.Moved p q text item.span.first item'.span.first
  last : Position.Moved p q text item.span.last item'.span.last

section

variable {p q x y : Position} {text : List Char} {n : ℕ} {item item' : Item}

theorem Position.moved_start : Position.Moved p q text p q :=
  ⟨[], List.nil_prefix, rfl, rfl⟩

theorem Position.Moved.of_drop (h : Position.Moved (p.advanceOver (text.take n))
    (q.advanceOver (text.take n)) (text.drop n) x y) : Position.Moved p q text x y := by
  obtain ⟨before, ⟨behind, hbehind⟩, rfl, rfl⟩ := h
  refine ⟨text.take n ++ before, ⟨behind, ?_⟩, ?_, ?_⟩
  · rw [List.append_assoc, hbehind, List.take_append_drop]
  · rw [advanceOver_append]
  · rw [advanceOver_append]

theorem Item.Moved.of_drop (h : Item.Moved (p.advanceOver (text.take n))
    (q.advanceOver (text.take n)) (text.drop n) item item') : Item.Moved p q text item item' :=
  ⟨h.value, h.first.of_drop, h.last.of_drop⟩

/-- The first lexeme of the text. -/
theorem Item.moved_take (n : ℕ) (l : Lexeme) : Item.Moved p q text
    (.ok ⟨.covering p (text.take n), l⟩) (.ok ⟨.covering q (text.take n), l⟩) where
  value := rfl
  first := Position.moved_start
  last := ⟨(text.take n).dropLast, (List.dropLast_prefix _).trans (List.take_prefix n text),
    rfl, rfl⟩

end

/-! ## Matches in a part of the text -/

theorem mem_acceptedLengths_append_iff {u v : List Char} {n : ℕ} (hn : n ≤ u.length) :
    n ∈ acceptedLengths recognizers (u ++ v) ↔ n ∈ acceptedLengths recognizers u := by
  have hle : n ≤ (u ++ v).length := by
    rw [List.length_append]
    omega
  simp only [acceptedLengths, Set.mem_ofPred_eq, List.take_append_of_le_length hn, hn, hle]

/-- The longest match is still the longest if text behind it is taken away. -/
theorem isGreatest_of_append {u v : List Char} {n : ℕ} (hn : n ≤ u.length)
    (h : IsGreatest (acceptedLengths recognizers (u ++ v)) n) :
    IsGreatest (acceptedLengths recognizers u) n := by
  refine ⟨(mem_acceptedLengths_append_iff hn).mp h.1, ?_⟩
  intro k hk
  exact h.2 ((mem_acceptedLengths_append_iff hk.2.1).mpr hk)

namespace Munch

variable {p : Position} {text : List Char} {items : List Item}

/-- The rule cuts a text into the same items wherever it starts. -/
theorem moved (h : Munch recognizers p text items) (q : Position) :
    ∃ items', Munch recognizers q text items' ∧ List.Forall₂ (Item.Moved p q text) items items' := by
  induction h generalizing q with
  | done => exact ⟨[], .done, .nil⟩
  | @lexeme p text n r items hn hr _ ih =>
      obtain ⟨items', hmunch, hmoved⟩ := ih (q.advanceOver (text.take n))
      refine ⟨_, .lexeme hn hr hmunch, .cons (Item.moved_take n _) ?_⟩
      exact hmoved.imp fun _ _ hitem => hitem.of_drop
  | unexpected hempty =>
      refine ⟨_, .unexpected hempty, .cons ⟨rfl, ?_, ?_⟩ .nil⟩
      · exact Position.moved_start
      · exact Position.moved_start

/-- The tokens that a text starts with are all that its beginning yields, and the rest of the text
yields the rest of the items. -/
theorem split {tokens : List Token} {later : List Item}
    (h : Munch recognizers p text (tokens.map .ok ++ later)) :
    ∃ rest, text = textOf tokens ++ rest ∧ Munch recognizers p (textOf tokens) (tokens.map .ok) ∧
      Munch recognizers (p.advanceOver (textOf tokens)) rest later := by
  induction tokens generalizing p text with
  | nil => exact ⟨text, rfl, .done, h⟩
  | cons token tokens ih =>
      cases h with
      | @lexeme _ _ n r _ hn hr hrest =>
          obtain ⟨rest, hdrop, hfirst, hlater⟩ := ih hrest
          have hlength : (text.take n).length = n := List.length_take_of_le hn.1.2.1
          have htext : text.take n ++ textOf tokens ++ rest = text := by
            rw [List.append_assoc, ← hdrop, List.take_append_drop]
          have hchars : textOf (⟨.covering p (text.take n),
              ⟨String.ofList (text.take n), r.tokenClass⟩⟩ :: tokens) =
              text.take n ++ textOf tokens := by
            rw [textOf, List.flatMap_cons, Token.chars, String.toList_ofList, textOf]
          -- in the shorter text the first lexeme is still the longest one
          have hgreatest : IsGreatest (acceptedLengths recognizers (text.take n ++ textOf tokens))
              (text.take n).length := by
            refine isGreatest_of_append (v := rest) ?_ ?_
            · rw [List.length_append]
              omega
            · rwa [htext, hlength]
          rw [hchars]
          refine ⟨rest, htext.symm, lexeme_append hgreatest hr hfirst, ?_⟩
          rwa [Position.advanceOver_append]

end Munch

/-! ## The result -/

/-- Items that a stream has answered with are what it yields first. -/
theorem TokenStream.items_eq_append {σ : Type} [TokenStream σ] [Fused σ] {s : σ} {l : List Item}
    (h : answers s l.length = l.map some) : ∃ later, items s = l ++ later := by
  have htake : (items s).take l.length = l := by
    apply List.ext_getElem?
    intro i
    rcases Nat.lt_or_ge i l.length with hi | hi
    · have hanswer := congrArg (·[i]?) h
      simp only [answers, List.getElem?_map, List.getElem?_range hi, Option.map_some,
        List.getElem?_eq_getElem hi, Option.some.injEq] at hanswer
      rw [List.getElem?_take_of_lt hi, ← answer_eq_getElem?, hanswer, List.getElem?_eq_getElem hi]
    · rw [List.getElem?_eq_none hi, List.getElem?_eq_none (by rw [List.length_take]; omega)]
  refine ⟨(items s).drop l.length, ?_⟩
  calc items s = (items s).take l.length ++ (items s).drop l.length :=
        (List.take_append_drop _ _).symm
    _ = l ++ (items s).drop l.length := by rw [htake]

theorem rel_getElem?_of_forall₂ {α β : Type} {R : α → β → Prop} {l : List α} {l' : List β}
    (h : List.Forall₂ R l l') (n : ℕ) : Option.Rel R l[n]? l'[n]? := by
  induction h generalizing n with
  | nil => exact .none
  | cons hitem _ ih =>
      cases n with
      | zero => exact .some hitem
      | succ n => exact ih n

/-- **Lexing is done by parts.**  If a source starts with some lexemes, their texts put together
yield these lexemes and then nothing, and the rest of the source yields what else the source does,
only that it stands where the lexemes end. -/
theorem lexing_splits_between_lexemes {source : List Char} {tokens : List Token}
    (h : answers (Lexer.start recognizers true source) tokens.length =
      tokens.map fun token => some (.ok token)) :
    ∃ rest, source = textOf tokens ++ rest ∧
      (∀ n, answer (Lexer.start recognizers true (textOf tokens)) n = tokens[n]?.map .ok) ∧
      ∀ n, Option.Rel (Item.Moved .start (Position.start.advanceOver (textOf tokens)) rest)
        (answer (Lexer.start recognizers true rest) n)
        (answer (Lexer.start recognizers true source) (tokens.length + n)) := by
  obtain ⟨later, hitems⟩ := TokenStream.items_eq_append (l := tokens.map .ok)
    (by rw [List.length_map, h, List.map_map]; rfl)
  have hmunch := Lexer.munch_items_start recognizers source
  rw [hitems] at hmunch
  obtain ⟨rest, hsource, hfirst, hlater⟩ := hmunch.split
  -- what the rest yields alone, moved to where the lexemes end, is what the source yields there
  have halone := Lexer.munch_items_start recognizers rest
  obtain ⟨later', hlater', hmoved⟩ := halone.moved (Position.start.advanceOver (textOf tokens))
  obtain rfl := hlater'.unique hlater
  refine ⟨rest, hsource, ?_, ?_⟩
  · intro n
    rw [Lexer.answer_start_of_munch hfirst, List.getElem?_map]
  · intro n
    rw [Lexer.answer_start_of_munch halone, Lexer.answer_start_of_munch hmunch,
      List.getElem?_append_right (by simp), List.length_map, Nat.add_sub_cancel_left]
    exact rel_getElem?_of_forall₂ hmoved n

/-- The newline is behind the first lexeme when the lexer decides on it, and the dashes are behind
the second one.  They start the second row in the whole source and the first row alone. -/
theorem lexing_splits_between_lexemes_comment :
    let source := ['x', '\n', '-', '-', '\n', ',']
    let tokens : List Token :=
      [⟨.single ⟨0, 0, 0⟩, ⟨"x", .identifier⟩⟩, ⟨.single ⟨1, 0, 1⟩, ⟨"\n", .discarded⟩⟩]
    answers (Lexer.start mhRecognizers true source) tokens.length =
        tokens.map (fun token => some (.ok token)) ∧
      ∃ rest, source = textOf tokens ++ rest ∧
        (∀ n, answer (Lexer.start mhRecognizers true (textOf tokens)) n = tokens[n]?.map .ok) ∧
        ∀ n, Option.Rel (Item.Moved .start (Position.start.advanceOver (textOf tokens)) rest)
          (answer (Lexer.start mhRecognizers true rest) n)
          (answer (Lexer.start mhRecognizers true source) (tokens.length + n)) := by
  intro source tokens
  have hcomma : ∀ p, Munch mhRecognizers p [','] _ := fun p =>
    .unexpected (Scan.acceptedLengths_eq_empty (by decide))
  have hgap : ∀ p, Munch mhRecognizers p (['\n'] ++ [',']) _ := fun p =>
    .lexeme_append (Scan.isGreatest_length (m := ⟨1, .discarded, by decide⟩) (by decide))
      (r := .blank) (by decide) (hcomma _)
  have hdashes : ∀ p, Munch mhRecognizers p (['-', '-'] ++ ['\n', ',']) _ := fun p =>
    .lexeme_append (Scan.isGreatest_length (m := ⟨2, .discarded, by decide⟩) (by decide))
      (r := .comment) (by decide) (hgap _)
  have hnewline : ∀ p, Munch mhRecognizers p (['\n'] ++ ['-', '-', '\n', ',']) _ := fun p =>
    .lexeme_append (Scan.isGreatest_length (m := ⟨1, .discarded, by decide⟩) (by decide))
      (r := .blank) (by decide) (hdashes _)
  have hmunch : Munch mhRecognizers .start (['x'] ++ ['\n', '-', '-', '\n', ',']) _ :=
    .lexeme_append (Scan.isGreatest_length (m := ⟨1, .identifier, by decide⟩) (by decide))
      (r := .identifier) (by decide) (hnewline _)
  have hanswers : answers (Lexer.start mhRecognizers true source) tokens.length =
      tokens.map fun token => some (.ok token) := by
    have hanswer : answer (Lexer.start mhRecognizers true source) = _ :=
      funext (Lexer.answer_start_of_munch hmunch)
    rw [answers, hanswer]
    decide
  exact ⟨hanswers, lexing_splits_between_lexemes hanswers⟩

end Frontend
