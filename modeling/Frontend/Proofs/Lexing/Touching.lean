import Frontend.Proofs.Lexing.Spacing

/-!
# Words without a blank between them

Blanks are not the only place where a lexeme has to end.  A closing parenthesis ends every word in
front of it, an opening one is a word by itself whatever comes next, and a backslash in front of an
identifier is an operator of one character.

`Reads text lexemes` says that a text yields certain lexemes wherever a blank, a closing parenthesis
or nothing at all comes behind it.  Every word reads as itself (`Lexeme.IsWord.reads`), and the texts
that can be read are closed under putting a gap between two of them (`Reads.join`) or a parenthesis
at one of their ends (`Reads.opened`, `Reads.closed`).  So a text that is put together in these ways
is read piece by piece, and no two pieces of it ever run into each other.
-/

namespace Frontend

open CharClass

/-- The lexeme of a keyword or a punctuation mark. -/
def Lexeme.literal (text : String) : Lexeme := ⟨text, .literal text.toList⟩

/-- The characters that every word ends in front of. -/
def EndsWord (c : Char) : Prop := whitespace.contains c = true ∨ c = ')'

/-! ## The longest match without a blank -/

namespace Recognizer

theorem next_ne_zero (r : Recognizer) (state : ℕ) (c : Char) : r.next state c ≠ 0 := by
  cases r with
  | literal text => simp only [next]; split <;> omega
  | _ => simp only [next]; (repeat' split) <;> omega

/-- No recognizer comes back to its first state. -/
theorem run_ne_zero (r : Recognizer) {w : List Char} (hw : w ≠ []) : r.run w ≠ 0 := by
  obtain ⟨v, c, rfl⟩ := (List.eq_nil_or_concat w).resolve_left hw
  rw [List.concat_eq_append, run, runFrom_append]
  exact r.next_ne_zero _ c

/-- Behind its first character nothing but a comment goes on with a closing parenthesis. -/
theorem next_close_eq_dead : ∀ r ∈ mhRecognizers, ∀ state < r.stateCount, state ≠ 0 →
    r.next state ')' = r.dead ∨ r = comment ∧ comment.isAccepting state = true := by
  decide

/-- Nothing but an opening parenthesis starts with one. -/
theorem not_accepts_open_cons {r : Recognizer} (hr : r ∈ mhRecognizers) (c : Char)
    (v : List Char) : r.accepts ('(' :: c :: v) = false := by
  have hfirst : ∀ r ∈ mhRecognizers, r.next 0 '(' = r.dead ∨ r = literal ['('] (by simp) := by
    decide
  rcases hfirst r hr with hdead | rfl
  · exact accepts_cons_eq_false hdead
  · by_contra haccepts
    rw [Bool.not_eq_false, accepts_iff_mem_language, language, mem_singleton] at haccepts
    simp at haccepts

/-- Nothing starts with a backslash and goes on with a letter. -/
theorem not_accepts_backslash_cons {r : Recognizer} (hr : r ∈ mhRecognizers) {c : Char}
    (hc : small.contains c = true) (v : List Char) : r.accepts ('\\' :: c :: v) = false := by
  have hfirst : ∀ r ∈ mhRecognizers, r.next 0 '\\' = r.dead ∨ r = operator := by decide
  rcases hfirst r hr with hdead | rfl
  · exact accepts_cons_eq_false hdead
  · have hsymbolic : symbolic.contains c = false := by
      by_contra h
      rw [Bool.not_eq_false] at h
      exact absurd (eq_symbolic_of_contains h hc) (by decide)
    refine accepts_append_eq_false (w := ['\\']) ?_
    exact if_neg (by rw [hsymbolic]; decide)

end Recognizer

namespace Lexeme.IsWord

variable {l : Lexeme} {c : Char}

theorem not_accepts_append_of_endsWord (h : l.IsWord) (hc : EndsWord c) {r : Recognizer}
    (hr : r ∈ mhRecognizers) (v : List Char) : r.accepts (l.text.toList ++ c :: v) = false := by
  rcases hc with hblank | rfl
  · exact h.not_accepts_append hblank hr v
  rcases Recognizer.next_close_eq_dead r hr _ (r.run_lt_stateCount _) (r.run_ne_zero h.ne_nil) with
    hdead | ⟨rfl, haccepting⟩
  · exact Recognizer.accepts_append_eq_false hdead
  · -- dashes could go on as a comment if they were one, but then they are no word
    have hcomment := h.not_comment
    rw [Recognizer.accepts, haccepting] at hcomment
    contradiction

/-- An identifier starts with a small letter. -/
theorem small_head (h : l.IsWord) (hclass : l.tokenClass = .identifier) {v : List Char}
    (hcons : l.text.toList = c :: v) : small.contains c = true := by
  obtain ⟨r, hfind, hr⟩ := h.recognized
  have hvisible : r.tokenClass ≠ .discarded := fun h' => h.tokenClass_ne (hr.symm.trans h')
  obtain rfl := eq_of_tokenClass_eq r (List.mem_of_find?_eq_some hfind) .identifier (by decide)
    (hr.trans hclass) hvisible
  have haccepts : Recognizer.identifier.accepts (c :: v) = true := by
    rw [← hcons]
    simpa using List.find?_some hfind
  exact small_iff.mpr (cons_mem_oneOf_mul.mp (Recognizer.mem_language_of_accepts haccepts)).1

end Lexeme.IsWord

/-! ## Putting a text together -/

namespace Yields

variable {rest : List Char} {lexemes : List Lexeme} {l : Lexeme}

/-- A word, and a character that ends it. -/
theorem word_append_of_endsWord (h : Yields rest lexemes) (hl : l.IsWord)
    (hrest : ∀ c v, rest = c :: v → EndsWord c) :
    Yields (l.text.toList ++ rest) (l :: lexemes) := by
  obtain ⟨r, hr, -, haccepts⟩ := hl.exists_isSolid
  refine h.append_of_isGreatest hl (isGreatest_length_append hl.ne_nil ⟨r, hr, haccepts⟩ ?_)
  intro c v v' hcons r' hr'
  exact hl.not_accepts_append_of_endsWord (hrest c v' hcons) hr' v

/-- An opening parenthesis is a word whatever comes next. -/
theorem open_append (h : Yields rest lexemes) :
    Yields ('(' :: rest) (.literal "(" :: lexemes) := by
  have hword : (Lexeme.literal "(").IsWord := by decide
  refine h.append_of_isGreatest hword (isGreatest_length_append hword.ne_nil (by decide) ?_)
  intro c v v' _ r hr
  exact Recognizer.not_accepts_open_cons hr c v

/-- A backslash does not run into the letter behind it. -/
theorem backslash_append (h : Yields rest lexemes)
    (hrest : ∀ c v, rest = c :: v → small.contains c = true) :
    Yields ('\\' :: rest) (⟨"\\", .operator⟩ :: lexemes) := by
  have hword : Lexeme.IsWord ⟨"\\", .operator⟩ := by decide
  refine h.append_of_isGreatest hword (isGreatest_length_append hword.ne_nil (by decide) ?_)
  intro c v v' hcons r hr
  exact Recognizer.not_accepts_backslash_cons hr (hrest c v' hcons) v

end Yields

/-! ## Texts that are read piece by piece -/

/-- A text that starts with a lexeme, and yields certain lexemes wherever a character that ends a
word or nothing at all comes behind it. -/
structure Reads (text : String) (lexemes : List Lexeme) : Prop where
  starts : ∃ c v, text.toList = c :: v ∧ whitespace.contains c = false
  append {rest : List Char} {lexemes' : List Lexeme} (h : Yields rest lexemes')
    (hrest : ∀ c v, rest = c :: v → EndsWord c) :
    Yields (text.toList ++ rest) (lexemes ++ lexemes')

theorem Lexeme.IsWord.reads {l : Lexeme} (h : l.IsWord) : Reads l.text [l] where
  starts := by
    obtain ⟨c, v, hcons⟩ := List.exists_cons_of_ne_nil h.ne_nil
    exact ⟨c, v, hcons, h.not_whitespace c (by simp [hcons])⟩
  append hyields hrest := hyields.word_append_of_endsWord h hrest

namespace Reads

variable {text text' : String} {lexemes lexemes' : List Lexeme}

theorem yields (h : Reads text lexemes) : Yields text.toList lexemes := by
  have hnil := h.append Yields.nil nofun
  rwa [List.append_nil, List.append_nil] at hnil

theorem not_whitespace_head (h : Reads text lexemes) {rest : List Char} {c : Char} {v : List Char}
    (hcons : text.toList ++ rest = c :: v) : whitespace.contains c = false := by
  obtain ⟨d, w, hw, hd⟩ := h.starts
  rw [hw, List.cons_append] at hcons
  rwa [← (List.cons.inj hcons).1]

/-- Blanks between two texts keep them apart. -/
theorem join (h : Reads text lexemes) (gap : String) (hgap : gap.toList ≠ [])
    (hblank : gap.toList.all whitespace.contains = true) (h' : Reads text' lexemes') :
    Reads (text ++ gap ++ text') (lexemes ++ lexemes') where
  starts := by
    obtain ⟨c, v, hcons, hc⟩ := h.starts
    exact ⟨c, v ++ gap.toList ++ text'.toList, by simp [String.toList_append, hcons], hc⟩
  append {rest lexemes''} hyields hrest := by
    have hblank := List.all_eq_true.mp hblank
    have hsecond := (h'.append hyields hrest).gap_append hblank fun c v => h'.not_whitespace_head
    have hboth := h.append hsecond fun c v hcons => by
      obtain ⟨w, hw⟩ := exists_eq_cons_of_append_eq_cons hgap hcons
      exact .inl (hblank c (by simp [hw]))
    rw [String.toList_append, String.toList_append, List.append_assoc lexemes]
    rwa [List.append_assoc, List.append_assoc]

theorem spaced (h : Reads text lexemes) (h' : Reads text' lexemes') :
    Reads (text ++ " " ++ text') (lexemes ++ lexemes') :=
  h.join " " (by decide) (by decide) h'

theorem opened (h : Reads text lexemes) : Reads ("(" ++ text) (.literal "(" :: lexemes) where
  starts := ⟨'(', text.toList, by rw [String.toList_append]; rfl, by decide⟩
  append hyields hrest := by
    rw [String.toList_append]
    exact (h.append hyields hrest).open_append

/-- A closing parenthesis needs no blank in front of it, nor behind it if another one follows. -/
theorem closed (h : Reads text lexemes) : Reads (text ++ ")") (lexemes ++ [.literal ")"]) where
  starts := by
    obtain ⟨c, v, hcons, hc⟩ := h.starts
    exact ⟨c, v ++ [')'], by simp [String.toList_append, hcons], hc⟩
  append {rest lexemes''} hyields hrest := by
    have hword : (Lexeme.literal ")").IsWord := by decide
    have hclose := hyields.word_append_of_endsWord hword hrest
    have hboth := h.append hclose fun c v hcons => .inr (List.cons.inj hcons).1.symm
    rw [String.toList_append]
    rwa [List.append_assoc, List.append_assoc]

/-- The name that a lambda binds, right behind its backslash. -/
theorem binder {name : String} (h : Lexeme.IsWord ⟨name, .identifier⟩) :
    Reads ("\\" ++ name) [⟨"\\", .operator⟩, ⟨name, .identifier⟩] where
  starts := ⟨'\\', name.toList, by rw [String.toList_append]; rfl, by decide⟩
  append {rest lexemes'} hyields hrest := by
    have hsmall : ∀ c v, name.toList ++ rest = c :: v → small.contains c = true := by
      intro c v hcons
      obtain ⟨w, hw⟩ := exists_eq_cons_of_append_eq_cons h.ne_nil hcons
      exact h.small_head rfl hw
    rw [String.toList_append]
    exact (hyields.word_append_of_endsWord h hrest).backslash_append hsmall

end Reads

end Frontend
