import Frontend.Proofs.Lexing.Checking
import Frontend.Proofs.Lexing.Discarding
import Mathlib.Data.List.Forall2

/-!
# Checking and leaving out

Two things may be done to the items of a lexer before anyone sees them: discarded lexemes are left
out, and operators are checked.  Each of them treats every item for itself, and neither changes what
the other one looks for.  A checked operator is never discarded, and a discarded lexeme is no
operator.  So it does not matter which comes first, nor whether the lexer leaves the lexemes out or
somebody after it (`filters_commute`).  Checking twice is checking once, since no operator is named
like the class of all operators.

A stream that checks stops after its first error.  It asks for an item only in order to hand one out,
so at any time it has taken as many as it has given (`OperatorCheck.exists_pulled`).
-/

namespace Frontend

open TokenStream (after answer answers items)

/-! ## One item -/

/-- What becomes of an item when the operators are checked. -/
inductive Item.Checks : Item → Item → Prop where
  | error {e} : Checks (.error e) (.error e)
  | other {token : Token} : token.value.tokenClass ≠ .operator → Checks (.ok token) (.ok token)
  | known {span text} : text ∈ ["::", "->", "=", "==", "<=", "+", "-"] →
      Checks (.ok ⟨span, ⟨text, .operator⟩⟩) (.ok ⟨span, ⟨text, ⟨text⟩⟩⟩)
  | unknown {span text} : text ∉ ["::", "->", "=", "==", "<=", "+", "-"] →
      Checks (.ok ⟨span, ⟨text, .operator⟩⟩) (.error ⟨span, .unknownOperator text⟩)

namespace Item

variable {item item' : Item}

theorem checks_checkOperator (item : Item) : Checks item item.checkOperator := by
  match item with
  | .error e => exact .error
  | .ok ⟨span, ⟨text, tokenClass⟩⟩ =>
      show Checks _ (Token.checkOperator _)
      by_cases hclass : tokenClass = .operator
      · subst hclass
        by_cases htext : text ∈ mhOperators
        · simp only [Token.checkOperator, htext, ne_eq, not_true_eq_false, if_false, if_true]
          exact .known htext
        · simp only [Token.checkOperator, htext, ne_eq, not_true_eq_false, if_false]
          exact .unknown htext
      · simp only [Token.checkOperator, hclass, ne_eq, not_false_eq_true, if_true]
        exact .other hclass

/-- No operator has the text `SYM`, so a token that was checked is no operator any more. -/
theorem Checks.checks_self (h : Checks item item') : Checks item' item' := by
  cases h with
  | error => exact .error
  | other hclass => exact .other hclass
  | known htext =>
      have hne : ∀ text ∈ mhOperators, (⟨text⟩ : TokenClass) ≠ .operator := by decide
      exact .other (hne _ htext)
  | unknown => exact .error

theorem Checks.unique {item'' : Item} (h : Checks item item') (h' : Checks item item'') :
    item' = item'' := by
  cases h <;> cases h' <;> first | rfl | contradiction

/-- Checking a second time changes nothing. -/
theorem checkOperator_checkOperator (item : Item) :
    item.checkOperator.checkOperator = item.checkOperator :=
  (checks_checkOperator _).unique (checks_checkOperator item).checks_self

/-- Checking makes nothing visible that was not, and hides nothing. -/
theorem Checks.isVisible_eq (h : Checks item item') : item'.isVisible = item.isVisible := by
  cases h with
  | error => rfl
  | other => rfl
  | known htext =>
      have hne : ∀ text ∈ mhOperators, (⟨text⟩ : TokenClass) ≠ .discarded := by decide
      have hoperator : TokenClass.operator ≠ .discarded := by decide
      simp [isVisible, Lexeme.isDiscarded, hne _ htext, hoperator]
  | unknown => rfl

theorem isVisible_checkOperator (item : Item) : item.checkOperator.isVisible = item.isVisible :=
  (checks_checkOperator item).isVisible_eq

end Item

/-! ## Lists of items -/

theorem untilError_filter_isVisible (l : List Item) :
    (untilError l).filter Item.isVisible = untilError (l.filter Item.isVisible) := by
  induction l with
  | nil => rfl
  | cons item l ih =>
      cases item with
      | error e => rfl
      | ok token =>
          rw [untilError, List.filter_cons, List.filter_cons, ih]
          split
          · rw [untilError]
          · rfl

/-- Leaving out and then checking is the same as checking and then leaving out. -/
theorem untilError_map_checkOperator_filter (l : List Item) :
    untilError ((l.filter Item.isVisible).map Item.checkOperator) =
      (untilError (l.map Item.checkOperator)).filter Item.isVisible := by
  have hvisible : Item.isVisible ∘ Item.checkOperator = Item.isVisible :=
    funext Item.isVisible_checkOperator
  rw [untilError_filter_isVisible, List.filter_map, hvisible]

/-! ## Streams -/

instance : TokenStream.Fused (List Item) where
  next_eq_none
    | [], _ => rfl
    | _ :: _, h => by contradiction

namespace OperatorCheck

section

variable {σ : Type} [TokenStream σ]

instance [TokenStream.Fused σ] : TokenStream.Fused (OperatorCheck σ) where
  next_eq_none s h := by
    by_cases hf : s.finished = true
    · rw [next_of_finished hf, Traced.value_pure, next_of_finished hf]
      rfl
    rw [Bool.not_eq_true] at hf
    rcases hinner : TokenStream.next s.inner with ⟨⟨item, rest⟩, events⟩
    have hnext := next_of_next_inner hf hinner
    rw [hnext] at h ⊢
    obtain rfl : item = none := Option.map_eq_none_iff.mp h
    have hrest : (TokenStream.next rest).value.1 = none := by
      have hfused := TokenStream.Fused.next_eq_none s.inner (by rw [hinner])
      rwa [hinner] at hfused
    rcases hagain : TokenStream.next rest with ⟨⟨item, rest'⟩, events'⟩
    rw [hagain] at hrest
    obtain rfl : item = none := hrest
    exact congrArg (·.value.1) (next_of_next_inner (s := ⟨rest, false⟩) rfl hagain)

/-- A check of a checked stream, finished as soon as that stream is, does what the stream does. -/
theorem next_twice (s : OperatorCheck σ) :
    TokenStream.next (⟨s, s.finished⟩ : OperatorCheck (OperatorCheck σ)) =
      ⟨((TokenStream.next s).value.1,
        ⟨(TokenStream.next s).value.2, (TokenStream.next s).value.2.finished⟩),
        (TokenStream.next s).events⟩ := by
  by_cases hf : s.finished = true
  · rw [next_of_finished (s := (⟨s, s.finished⟩ : OperatorCheck (OperatorCheck σ))) hf,
      next_of_finished hf]
    rfl
  rw [Bool.not_eq_true] at hf
  rcases hinner : TokenStream.next s.inner with ⟨⟨item, rest⟩, events⟩
  have hnext := next_of_next_inner hf hinner
  have htwice : (item.map Item.checkOperator).map Item.checkOperator =
      item.map Item.checkOperator := by
    cases item with
    | none => rfl
    | some item => exact congrArg some item.checkOperator_checkOperator
  rw [next_of_next_inner (s := (⟨s, s.finished⟩ : OperatorCheck (OperatorCheck σ))) hf hnext,
    hnext, htwice]

theorem after_twice (s : σ) (n : ℕ) :
    after (of (of s)) n = ⟨after (of s) n, (after (of s) n).finished⟩ := by
  induction n with
  | zero => rfl
  | succ n ih => rw [TokenStream.after_succ, ih, next_twice, TokenStream.after_succ]

/-- Checking a checked stream changes nothing, neither what is answered nor what is asked for. -/
theorem answer_twice (s : σ) (n : ℕ) : answer (of (of s)) n = answer (of s) n := by
  rw [answer, after_twice, next_twice]
  rfl

end

/-- A call takes an item from the list exactly if it hands one out. -/
theorem exists_pulled_next (s : OperatorCheck (List Item)) :
    ∃ pulled, pulled ++ (TokenStream.next s).value.2.inner = s.inner ∧
      pulled.length = [(TokenStream.next s).value.1].countP Option.isSome := by
  by_cases hf : s.finished = true
  · rw [next_of_finished hf]
    exact ⟨[], rfl, rfl⟩
  rw [Bool.not_eq_true] at hf
  obtain ⟨inner, finished⟩ := s
  cases inner with
  | nil =>
      have hnil : TokenStream.next ([] : List Item) = ⟨(none, []), []⟩ := rfl
      rw [next_of_next_inner hf hnil]
      exact ⟨[], rfl, rfl⟩
  | cons item rest =>
      have hcons : TokenStream.next (item :: rest) = ⟨(some item, rest), []⟩ := rfl
      rw [next_of_next_inner hf hcons]
      exact ⟨[item], rfl, rfl⟩

/-- **As many items are taken as are handed out.** -/
theorem exists_pulled (stream : List Item) (n : ℕ) :
    ∃ pulled, pulled ++ (after (of stream) n).inner = stream ∧
      pulled.length = (answers (of stream) n).countP Option.isSome := by
  induction n with
  | zero => exact ⟨[], rfl, rfl⟩
  | succ n ih =>
      obtain ⟨before, hbefore, hcount⟩ := ih
      obtain ⟨pulled, hpulled, hlength⟩ := exists_pulled_next (after (of stream) n)
      refine ⟨before ++ pulled, ?_, ?_⟩
      · rw [TokenStream.after_succ, List.append_assoc, hpulled, hbefore]
      · rw [TokenStream.answers_succ, List.countP_append, List.length_append, hcount, hlength]
        rfl

end OperatorCheck

theorem forall₂_checks (l : List Item) : List.Forall₂ Item.Checks l (l.map Item.checkOperator) := by
  induction l with
  | nil => exact .nil
  | cons item l ih => exact .cons item.checks_checkOperator ih

/-- **Checking operators and leaving out lexemes are filters that do not get in each other's way.**
A checked list of items is the list with each item checked, up to the first error, and no more is
taken from it than is handed out.  Checking a second time changes nothing for any stream.  A lexer
that leaves out lexemes has the visible items of one that does not, and whichever of the two is
checked, before or after the discarded lexemes are left out, the result is the same. -/
theorem filters_commute (stream : List Item) {σ : Type} [TokenStream σ] (s : σ)
    (recognizers : List Recognizer) (source : List Char) :
    (∃ checked, List.Forall₂ Item.Checks stream checked ∧ ∀ n,
      answer (OperatorCheck.of stream) n = (untilError checked)[n]? ∧
      ∃ pulled, pulled ++ (after (OperatorCheck.of stream) n).inner = stream ∧
        pulled.length = (answers (OperatorCheck.of stream) n).countP Option.isSome) ∧
    (∀ n, answer (OperatorCheck.of (OperatorCheck.of s)) n = answer (OperatorCheck.of s) n ∧
      (after (OperatorCheck.of (OperatorCheck.of s)) n).inner = after (OperatorCheck.of s) n) ∧
    (∀ n, answer (Lexer.start recognizers false source) n =
      ((items (Lexer.start recognizers true source)).filter Item.isVisible)[n]?) ∧
    ∀ yieldsDiscarded n,
      answer (OperatorCheck.of (Lexer.start recognizers false source)) n =
        ((items (OperatorCheck.of (Lexer.start recognizers yieldsDiscarded source))).filter
          Item.isVisible)[n]? ∧
      answer (OperatorCheck.of (Lexer.start recognizers false source)) n =
        answer (OperatorCheck.of ((items (Lexer.start recognizers yieldsDiscarded source)).filter
          Item.isVisible)) n := by
  refine ⟨⟨stream.map Item.checkOperator, forall₂_checks stream, ?_⟩, ?_, ?_, ?_⟩
  · intro n
    refine ⟨?_, OperatorCheck.exists_pulled stream n⟩
    rw [TokenStream.answer_eq_getElem?, OperatorCheck.items_of, TokenStream.items_list]
  · intro n
    exact ⟨OperatorCheck.answer_twice s n, by rw [OperatorCheck.after_twice]⟩
  · intro n
    rw [TokenStream.answer_eq_getElem?, Lexer.items_start_eq_filter]
  · intro yieldsDiscarded n
    -- what is visible of one lexer is all that the other one has
    have hvisible : (items (Lexer.start recognizers yieldsDiscarded source)).filter Item.isVisible =
        items (Lexer.start recognizers false source) := by
      cases yieldsDiscarded with
      | true => exact (Lexer.items_start_eq_filter ..).symm
      | false =>
          rw [Lexer.items_start_eq_filter, List.filter_filter]
          simp only [Bool.and_self]
    rw [TokenStream.answer_eq_getElem?, TokenStream.answer_eq_getElem?, OperatorCheck.items_of,
      OperatorCheck.items_of, OperatorCheck.items_of, TokenStream.items_list,
      ← untilError_map_checkOperator_filter, hvisible]
    exact ⟨rfl, rfl⟩

end Frontend
