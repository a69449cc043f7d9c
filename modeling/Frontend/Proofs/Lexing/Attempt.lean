import Frontend.Lexing.Lexer
import Frontend.Proofs.Lexing.Calls
import Mathlib.Order.Bounds.Basic

/-!
# What one call of a lexer does

A scan runs all recognizers at once and stops as soon as they are dead.  Seen from outside it looks
for the greatest of the `acceptedLengths` of a text: the lengths of its beginnings that some
recognizer, run alone and from its start, accepts.

A lexer that keeps the discarded lexemes makes one attempt a call, so its calls are of four kinds;
`Lexer.Call` lists them, with the lexer that is left after each.  What holds of all calls is proved
by going through this list.
-/

namespace Frontend

variable {recognizers : List Recognizer} {text : List Char}

/-- The lengths of the beginnings of a text that some recognizer accepts, the empty one apart. -/
def acceptedLengths (recognizers : List Recognizer) (text : List Char) : Set ℕ :=
  {n | 1 ≤ n ∧ n ≤ text.length ∧ ∃ r ∈ recognizers, r.accepts (text.take n) = true}

/-! ## What a scan finds -/

namespace Scan

theorem classOf_eq_none_iff {w : List Char} :
    classOf recognizers w = none ↔ ∀ r ∈ recognizers, r.accepts w = false := by
  simp [classOf]

theorem classOf_eq_some_iff {w : List Char} {k : TokenClass} :
    classOf recognizers w = some k ↔
      ∃ r, recognizers.find? (·.accepts w) = some r ∧ r.tokenClass = k := by
  simp [classOf]

theorem classOf_take_ne_none {n : ℕ} (h : n ∈ acceptedLengths recognizers text) :
    classOf recognizers (text.take n) ≠ none := by
  obtain ⟨-, -, r, hr, haccepts⟩ := h
  intro hnone
  have hrejects : r.accepts (text.take n) = false := classOf_eq_none_iff.mp hnone r hr
  rw [haccepts] at hrejects
  contradiction

/-- A scan comes back with nothing only if there is nothing to find. -/
theorem acceptedLengths_eq_empty (h : (of recognizers text).longest = none) :
    acceptedLengths recognizers text = ∅ := by
  rw [longest_of_eq_none_iff] at h
  refine Set.eq_empty_iff_forall_notMem.mpr ?_
  intro n hn
  exact classOf_take_ne_none hn (h n hn.1 hn.2.1)

/-- The match of a scan has the greatest length there is. -/
theorem isGreatest_length {m : Match} (h : (of recognizers text).longest = some m) :
    IsGreatest (acceptedLengths recognizers text) m.length := by
  obtain ⟨hclass, hmax⟩ := of_longest_of_eq_some h
  obtain ⟨r, hfind, -⟩ := classOf_eq_some_iff.mp hclass
  have hmem : r ∈ recognizers := List.mem_of_find?_eq_some hfind
  have haccepts : r.accepts (text.take m.length) = true := by simpa using List.find?_some hfind
  refine ⟨⟨m.length_pos, length_le h, r, hmem, haccepts⟩, ?_⟩
  intro n hn
  by_contra hlt
  have hlonger : m.length < n := by omega
  exact classOf_take_ne_none hn (hmax n hlonger hn.2.1)

/-- The match of a scan has the class of the first recognizer that accepts its text. -/
theorem exists_find?_accepts {m : Match} (h : (of recognizers text).longest = some m) :
    ∃ r, recognizers.find? (·.accepts (text.take m.length)) = some r ∧
      r.tokenClass = m.tokenClass :=
  classOf_eq_some_iff.mp (of_longest_of_eq_some h).1

theorem pending_ne_nil {m : Match} (h : (of recognizers text).longest = some m) : text ≠ [] := by
  have hpos : 1 ≤ m.length := m.length_pos
  have hle : m.length ≤ text.length := length_le h
  refine List.ne_nil_of_length_pos ?_
  omega

end Scan

/-! ## What an attempt does -/

namespace Cursor

/-- The cursor once the text ahead of it was scanned. -/
def look (recognizers : List Recognizer) (c : Cursor) : Cursor :=
  { c with read := max c.read (c.consumed + (Scan.of recognizers c.pending).inspected) }

theorem attempt_eq_none {c : Cursor} (h : c.pending = []) : c.attempt recognizers = none := by
  simp [attempt, h]

theorem attempt_eq_lexeme {c : Cursor} {m : Match}
    (h : (Scan.of recognizers c.pending).longest = some m) :
    c.attempt recognizers = some (.ok (c.lexeme m), (c.look recognizers).skip m.length) := by
  obtain ⟨first, rest, hpending⟩ := List.exists_cons_of_ne_nil (Scan.pending_ne_nil h)
  unfold attempt
  split
  · next hnil => simp [hnil] at hpending
  · simp [h, look, lexeme]

theorem attempt_eq_error {c : Cursor} {first : Char} {rest : List Char}
    (hpending : c.pending = first :: rest) (h : (Scan.of recognizers c.pending).longest = none) :
    c.attempt recognizers =
      some (.error ⟨.single c.position, .unexpectedCharacter first⟩, c.look recognizers) := by
  unfold attempt
  split
  · next hnil => simp [hnil] at hpending
  · next first' rest' hcons =>
      rw [hcons, List.cons.injEq] at hpending
      simp [h, look, hpending.1]

/-- An attempt that is not at the end of the source yields a lexeme or an error. -/
theorem attempt_cases {c c' : Cursor} {item : Item}
    (h : c.attempt recognizers = some (item, c')) :
    (∃ m, (Scan.of recognizers c.pending).longest = some m ∧ item = .ok (c.lexeme m) ∧
      c' = (c.look recognizers).skip m.length) ∨
    ∃ first rest, c.pending = first :: rest ∧ (Scan.of recognizers c.pending).longest = none ∧
      item = .error ⟨.single c.position, .unexpectedCharacter first⟩ ∧ c' = c.look recognizers := by
  cases hpending : c.pending with
  | nil =>
      rw [attempt_eq_none hpending] at h
      contradiction
  | cons first rest =>
      rw [← hpending]
      cases hlongest : (Scan.of recognizers c.pending).longest with
      | none =>
          rw [attempt_eq_error hpending hlongest] at h
          obtain ⟨rfl, rfl⟩ := Prod.mk.inj (Option.some.inj h)
          exact .inr ⟨first, rest, hpending, rfl, rfl, rfl⟩
      | some m =>
          rw [attempt_eq_lexeme hlongest] at h
          obtain ⟨rfl, rfl⟩ := Prod.mk.inj (Option.some.inj h)
          exact .inl ⟨m, rfl, rfl, rfl⟩

end Cursor

/-! ## What a call does -/

namespace Lexer

variable {l : Lexer}

/-- The calls of a lexer that keeps everything: the answer and the lexer that is left. -/
inductive Call (l : Lexer) : Option Item → Lexer → Prop where
  | finished : l.finished = true → Call l none l
  | atEnd : l.finished = false → l.cursor.pending = [] → Call l none { l with finished := true }
  | lexeme {m} : l.finished = false →
      (Scan.of l.recognizers l.cursor.pending).longest = some m →
      Call l (some (.ok (l.cursor.lexeme m)))
        { l with cursor := (l.cursor.look l.recognizers).skip m.length }
  | unexpected {first rest} : l.finished = false → l.cursor.pending = first :: rest →
      (Scan.of l.recognizers l.cursor.pending).longest = none →
      Call l (some (.error ⟨.single l.position, .unexpectedCharacter first⟩))
        { l with cursor := l.cursor.look l.recognizers, finished := true }

theorem next_of_finished (h : l.finished = true) : l.next = pure (none, l) := by
  rw [next, if_pos h]

theorem next_of_attempt_none (hf : l.finished = false)
    (h : l.cursor.attempt l.recognizers = none) :
    l.next = pure (none, { l with finished := true }) := by
  rw [next, if_neg (by simp [hf])]
  split <;> simp_all

theorem next_of_attempt_error {e : LexError} {c : Cursor} (hf : l.finished = false)
    (h : l.cursor.attempt l.recognizers = some (.error e, c)) :
    l.next = pure (some (.error e), { l with cursor := c, finished := true }) := by
  rw [next, if_neg (by simp [hf])]
  split <;> simp_all

theorem next_of_attempt_ok {token : Token} {c : Cursor} (hf : l.finished = false)
    (hkeep : l.yieldsDiscarded = true)
    (h : l.cursor.attempt l.recognizers = some (.ok token, c)) :
    l.next = .note (.recognized token) (pure (some (.ok token), { l with cursor := c })) := by
  rw [next, if_neg (by simp [hf])]
  split <;> simp_all

theorem call_next (hkeep : l.yieldsDiscarded = true) :
    Call l (TokenStream.next l).value.1 (TokenStream.next l).value.2 := by
  show Call l l.next.value.1 l.next.value.2
  by_cases hf : l.finished = true
  · rw [next_of_finished hf]
    exact .finished hf
  rw [Bool.not_eq_true] at hf
  -- with nothing discarded a call makes a single attempt, and does what this comes to
  cases hpending : l.cursor.pending with
  | nil =>
      rw [next_of_attempt_none hf (Cursor.attempt_eq_none hpending)]
      exact .atEnd hf hpending
  | cons first rest =>
      cases hscan : (Scan.of l.recognizers l.cursor.pending).longest with
      | none =>
          rw [next_of_attempt_error hf (Cursor.attempt_eq_error hpending hscan)]
          exact .unexpected hf hpending hscan
      | some m =>
          rw [next_of_attempt_ok hf hkeep (Cursor.attempt_eq_lexeme hscan)]
          exact .lexeme hf hscan

/-! ## The recognizers stay as they are -/

theorem recognizers_next (l : Lexer) : l.next.value.2.recognizers = l.recognizers := by
  fun_induction next l with
  | case4 l hl token c hc hskip ih => exact ih
  | _ => rfl

theorem recognizers_after (l : Lexer) (n : ℕ) : (TokenStream.after l n).recognizers = l.recognizers := by
  induction n with
  | zero => rfl
  | succ n ih => exact (recognizers_next _).trans ih

/-! ## The end of a lexer is final -/

theorem finished_of_next_eq_none (h : l.next.value.1 = none) : l.next.value.2.finished = true := by
  fun_induction next l with
  | case1 l hl => exact hl
  | case2 => rfl
  | case3 => simp at h
  | case4 l hl token c hc hskip ih => exact ih h
  | case5 => simp at h

instance : TokenStream.Fused Lexer where
  next_eq_none l h := by
    show (next l.next.value.2).value.1 = none
    rw [next_of_finished (finished_of_next_eq_none h)]
    rfl

end Lexer
end Frontend
