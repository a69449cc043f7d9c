import Frontend.Proofs.Lexing.MaximalMunch

/-!
# Leaving out lexemes

A lexer that leaves out the lexemes of discarded classes makes the same attempts as one that yields
everything; it only makes several of them in one call.  So its items are those of the other lexer
without the lexemes in question (`Lexer.items_eq_filter`), and whatever is known of a lexer that
keeps everything is known of it as well.
-/

namespace Frontend

open TokenStream (answer items)

/-- Whether an item is yielded by a lexer that leaves out discarded lexemes. -/
def Item.isVisible : Item → Bool
  | .ok token => !token.value.isDiscarded
  | .error _ => true

theorem TokenStream.items_eq_of_value_next {σ : Type} [TokenStream σ] {s s' : σ}
    (h : (next s).value = (next s').value) : items s = items s' := by
  rcases hs : next s with ⟨⟨_ | item, rest⟩, events⟩ <;>
    rcases hs' : next s' with ⟨answer, events'⟩ <;> rw [hs, hs'] at h
  · obtain rfl : (none, rest) = answer := h
    rw [items_of_none hs, items_of_none hs']
  · obtain rfl : (some item, rest) = answer := h
    rw [items_of_some hs, items_of_some hs']

namespace Lexer

variable {l : Lexer} {token : Token} {c : Cursor}

/-- The same lexer, but one that yields everything. -/
def keeping (l : Lexer) : Lexer := { l with yieldsDiscarded := true }

theorem next_of_attempt_discarded (hf : l.finished = false) (hdrop : l.yieldsDiscarded = false)
    (hdiscarded : token.value.isDiscarded = true)
    (h : l.cursor.attempt l.recognizers = some (.ok token, c)) :
    l.next = .note (.recognized token) (next { l with cursor := c }) := by
  rw [next, if_neg (by simp [hf])]
  split <;> simp_all

theorem next_of_attempt_visible (hf : l.finished = false)
    (hvisible : token.value.isDiscarded = false)
    (h : l.cursor.attempt l.recognizers = some (.ok token, c)) :
    l.next = .note (.recognized token) (pure (some (.ok token), { l with cursor := c })) := by
  rw [next, if_neg (by simp [hf])]
  split <;> simp_all

/-! ## The items from an attempt on -/

theorem items_of_attempt_none (hf : l.finished = false)
    (h : l.cursor.attempt l.recognizers = none) : items l = [] :=
  TokenStream.items_of_none (next_of_attempt_none hf h)

theorem items_of_attempt_error {e : LexError} (hf : l.finished = false)
    (h : l.cursor.attempt l.recognizers = some (.error e, c)) : items l = [.error e] := by
  rw [TokenStream.items_of_some (next_of_attempt_error hf h), items_of_finished rfl]

theorem items_keeping_of_attempt_ok (hf : l.finished = false)
    (h : l.cursor.attempt l.recognizers = some (.ok token, c)) :
    items l.keeping = .ok token :: items { l with cursor := c }.keeping :=
  TokenStream.items_of_some (next_of_attempt_ok (l := l.keeping) hf rfl h)

theorem items_of_attempt_visible (hf : l.finished = false)
    (hvisible : token.value.isDiscarded = false)
    (h : l.cursor.attempt l.recognizers = some (.ok token, c)) :
    items l = .ok token :: items { l with cursor := c } :=
  TokenStream.items_of_some (next_of_attempt_visible hf hvisible h)

theorem items_of_attempt_discarded (hf : l.finished = false) (hdrop : l.yieldsDiscarded = false)
    (hdiscarded : token.value.isDiscarded = true)
    (h : l.cursor.attempt l.recognizers = some (.ok token, c)) :
    items l = items { l with cursor := c } := by
  refine TokenStream.items_eq_of_value_next ?_
  show l.next.value = _
  rw [next_of_attempt_discarded hf hdrop hdiscarded h]
  rfl

/-- **A lexer that leaves out lexemes has the visible items of one that does not.** -/
theorem items_eq_filter (hdrop : l.yieldsDiscarded = false) :
    items l = (items l.keeping).filter Item.isVisible := by
  -- by the length of the text ahead: both make the same attempt, and what it leaves is shorter
  induction hn : l.cursor.pending.length using Nat.strongRecOn generalizing l with
  | _ n ih =>
  by_cases hf : l.finished = true
  · have hf' : l.keeping.finished = true := hf
    rw [items_of_finished hf, items_of_finished hf', List.filter_nil]
  rw [Bool.not_eq_true] at hf
  have hf' : l.keeping.finished = false := hf
  cases hattempt : l.cursor.attempt l.recognizers with
  | none =>
      have hattempt' : l.keeping.cursor.attempt l.keeping.recognizers = none := hattempt
      rw [items_of_attempt_none hf hattempt, items_of_attempt_none hf' hattempt', List.filter_nil]
  | some outcome =>
      obtain ⟨e | token, c⟩ := outcome
      · have hattempt' : l.keeping.cursor.attempt l.keeping.recognizers = some (.error e, c) :=
          hattempt
        rw [items_of_attempt_error hf hattempt, items_of_attempt_error hf' hattempt']
        rfl
      · have hshorter : c.pending.length < n := hn ▸ Cursor.length_pending_lt hattempt
        have hrest : items { l with cursor := c } =
            (items { l with cursor := c }.keeping).filter Item.isVisible :=
          ih _ hshorter hdrop rfl
        rw [items_keeping_of_attempt_ok hf hattempt]
        by_cases hdiscarded : token.value.isDiscarded = true
        · rw [items_of_attempt_discarded hf hdrop hdiscarded hattempt, hrest,
            List.filter_cons_of_neg (by simp [Item.isVisible, hdiscarded])]
        · rw [Bool.not_eq_true] at hdiscarded
          rw [items_of_attempt_visible hf hdiscarded hattempt, hrest,
            List.filter_cons_of_pos (by simp [Item.isVisible, hdiscarded])]

/-! ## From the start of a source text -/

variable (recognizers : List Recognizer) (source : List Char)

theorem munch_items_start :
    Munch recognizers .start source (items (start recognizers true source)) :=
  munch_items (start recognizers true source) rfl rfl

variable {recognizers source} in
/-- The answers are the one way to cut up the source. -/
theorem answer_start_of_munch {items' : List Item} (h : Munch recognizers .start source items')
    (n : ℕ) : answer (start recognizers true source) n = items'[n]? := by
  rw [TokenStream.answer_eq_getElem?, (munch_items_start recognizers source).unique h]

theorem items_start_eq_filter : items (start recognizers false source) =
    (items (start recognizers true source)).filter Item.isVisible :=
  items_eq_filter rfl

variable {recognizers source} in
/-- What any lexer yields is also yielded by one that leaves out nothing. -/
theorem mem_items_keeping {yieldsDiscarded : Bool} {item : Item}
    (h : item ∈ items (start recognizers yieldsDiscarded source)) :
    item ∈ items (start recognizers true source) := by
  cases yieldsDiscarded with
  | true => exact h
  | false =>
      rw [items_start_eq_filter] at h
      exact (List.mem_filter.mp h).1

variable {recognizers source} in
/-- The text of whatever token is yielded was won by a recognizer of its class. -/
theorem find?_of_mem_items {yieldsDiscarded : Bool} {token : Token}
    (h : .ok token ∈ items (start recognizers yieldsDiscarded source)) :
    ∃ r, recognizers.find? (·.accepts token.value.text.toList) = some r ∧
      r.tokenClass = token.value.tokenClass :=
  (munch_items_start recognizers source).find?_of_mem (mem_items_keeping h)

end Lexer
end Frontend
