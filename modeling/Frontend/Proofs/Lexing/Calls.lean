import Frontend.Lexing.Stream
import Mathlib.Data.Nat.Notation

/-!
# The calls of a stream

`TokenStream.items` lists the items of a stream up to its first refusal.  A client does not see that
list; it sees the answers to its calls, as many as it makes, and it may go on calling after the
stream has ended.  Here `after s n` is what is left of the stream `s` after `n` calls, and
`answer s n` is what the call after these says.

For most streams the end is final: a stream that has no item will never have one again.  For these,
the `Fused` ones, the answers are the list of items followed by refusals (`answer_eq_getElem?`), so
what is known of the list is known of every call.
-/

namespace Frontend

def tokensOf (answers : List (Option Item)) : List Token :=
  answers.filterMap (·.bind Except.toOption)

theorem tokensOf_concat_token (answers : List (Option Item)) (token : Token) :
    tokensOf (answers ++ [some (.ok token)]) = tokensOf answers ++ [token] := by
  simp [tokensOf, Except.toOption]

theorem tokensOf_concat_error (answers : List (Option Item)) (e : LexError) :
    tokensOf (answers ++ [some (.error e)]) = tokensOf answers := by
  simp [tokensOf, Except.toOption]

theorem tokensOf_concat_none (answers : List (Option Item)) :
    tokensOf (answers ++ [none]) = tokensOf answers := by
  simp [tokensOf]

namespace TokenStream

variable {σ : Type} [TokenStream σ]

def after (s : σ) : ℕ → σ
  | 0 => s
  | n + 1 => (next (after s n)).value.2

/-- The answer to the call that `n` others came before. -/
def answer (s : σ) (n : ℕ) : Option Item := (next (after s n)).value.1

def answers (s : σ) (n : ℕ) : List (Option Item) := (List.range n).map (answer s)

/-- The streams whose end is final. -/
class Fused (σ : Type) [TokenStream σ] : Prop where
  next_eq_none (s : σ) : (next s).value.1 = none → (next (next s).value.2).value.1 = none

@[simp] theorem after_zero (s : σ) : after s 0 = s := rfl

theorem after_succ (s : σ) (n : ℕ) : after s (n + 1) = (next (after s n)).value.2 := rfl

theorem after_next (s : σ) (n : ℕ) : after (next s).value.2 n = after s (n + 1) := by
  induction n with
  | zero => rfl
  | succ n ih => rw [after_succ, ih, ← after_succ]

theorem answer_next (s : σ) (n : ℕ) : answer (next s).value.2 n = answer s (n + 1) := by
  rw [answer, answer, after_next]

theorem answers_succ (s : σ) (n : ℕ) : answers s (n + 1) = answers s n ++ [answer s n] := by
  simp [answers, List.range_succ]

/-! ## Streams whose end is final -/

theorem answer_eq_none_of_next [Fused σ] {s : σ} (h : (next s).value.1 = none) (n : ℕ) :
    answer s n = none := by
  induction n generalizing s with
  | zero => exact h
  | succ n ih =>
      rw [← answer_next]
      exact ih (Fused.next_eq_none s h)

/-- **The answers are the items of the stream, and then nothing.** -/
theorem answer_eq_getElem? [Fused σ] (s : σ) (n : ℕ) : answer s n = (items s)[n]? := by
  induction n generalizing s with
  | zero =>
      rcases h : next s with ⟨⟨_ | item, s'⟩, events⟩
      · rw [items_of_none h]
        simp [answer, h]
      · rw [items_of_some h]
        simp [answer, h]
  | succ n ih =>
      rcases h : next s with ⟨⟨_ | item, s'⟩, events⟩
      · rw [answer_eq_none_of_next (by rw [h]), items_of_none h]
        rfl
      · calc answer s (n + 1) = answer (next s).value.2 n := (answer_next s n).symm
          _ = (items s')[n]? := by rw [h, ih]
          _ = (items s)[n + 1]? := by rw [items_of_some h, List.getElem?_cons_succ]

end TokenStream
end Frontend
