import Frontend.Proofs.Lexing.Languages
import Frontend.Proofs.Lexing.Splitting
import Frontend.Proofs.Lexing.Words

/-!
# Comment lines

A line that holds nothing but a comment can be put into a source text, or taken out of it, wherever
a line starts.  What the lexer yields is the same, errors included; only the positions differ
(`comment_line_invisible`).

The place need not be one between two lexemes.  It can be within a run of blanks, and then the run is
cut in two by the line, or it may be right behind a comment that has taken the newline with it.  Nor
does the line have to be one lexeme: the newline belongs to the comment if there is any text between
the dashes and the newline, and else to the blanks that follow.

`valuesOf` makes little of this, as it does not know of the lexemes that are left out: blanks at the
start of a text do not count, whatever comes behind them (`valuesOf_blanks_append`), and neither does
a comment line (`valuesOf_commentLine_append`).  What is left is to show that the text up to some
newline has no influence on what is yielded behind it, apart from blanks.  Nothing that starts with
another character is recognized across the end of a line
(`Recognizer.accepts_append_eq_false_of_endsLine`).
-/

namespace Frontend

open CharClass
open TokenStream (answer items)

variable {text : List Char}

/-- Two dashes or more, a text that does not start with a symbol, and the end of the line. -/
def IsCommentLine (line : List Char) : Prop :=
  ∃ n text, 2 ≤ n ∧ '\n' ∉ text ∧ '\r' ∉ text ∧ (∀ c ∈ text.head?, symbolic.contains c = false) ∧
    line = List.replicate n '-' ++ text ++ ['\n']

/-- The text has no characters, or ends where a line does. -/
def EndsLine (text : List Char) : Prop := text = [] ∨ ['\n'] <:+ text

instance (text : List Char) : Decidable (EndsLine text) :=
  inferInstanceAs (Decidable (text = [] ∨ ['\n'] <:+ text))

/-- What items say, apart from those that are left out. -/
def visibleValues (items : List Item) : List (Except LexErrorKind Lexeme) :=
  (items.filter Item.isVisible).map Item.value

/-- What a text yields, if neither positions nor discarded lexemes count. -/
def valuesOf (text : List Char) : List (Except LexErrorKind Lexeme) :=
  visibleValues (items (Lexer.start mhRecognizers true text))

/-! ## Values do not depend on positions -/

theorem Item.isVisible_eq_of_value_eq {item item' : Item} (h : item'.value = item.value) :
    item'.isVisible = item.isVisible := by
  cases item <;> cases item' <;> simp_all [value, isVisible]

theorem visibleValues_eq_of_moved {p q : Position} {items items' : List Item}
    (h : List.Forall₂ (Item.Moved p q text) items items') :
    visibleValues items' = visibleValues items := by
  induction h with
  | nil => rfl
  | @cons item item' _ _ hitem _ ih =>
      have hvisible := Item.isVisible_eq_of_value_eq hitem.value
      simp only [visibleValues, List.filter_cons, hvisible] at ih ⊢
      split
      · rw [List.map_cons, List.map_cons, hitem.value, ih]
      · exact ih

/-- The rule of maximal munch can be followed from any position. -/
theorem valuesOf_of_munch {p : Position} {items : List Item}
    (h : Munch mhRecognizers p text items) : valuesOf text = visibleValues items := by
  obtain ⟨items', hmunch, hmoved⟩ := h.moved .start
  rw [valuesOf, (Lexer.munch_items_start mhRecognizers text).unique hmunch]
  exact visibleValues_eq_of_moved hmoved

theorem exists_munch (p : Position) (text : List Char) :
    ∃ items, Munch mhRecognizers p text items ∧ visibleValues items = valuesOf text := by
  obtain ⟨items, hmunch, -⟩ := (Lexer.munch_items_start mhRecognizers text).moved p
  exact ⟨items, hmunch, (valuesOf_of_munch hmunch).symm⟩

/-! ## The values from the first lexeme on -/

theorem valuesOf_lexeme_append {w rest : List Char} {r : Recognizer}
    (hgreatest : IsGreatest (acceptedLengths mhRecognizers (w ++ rest)) w.length)
    (hfind : mhRecognizers.find? (·.accepts w) = some r) :
    valuesOf (w ++ rest) =
      if r.isDiscarded then valuesOf rest
      else .ok ⟨String.ofList w, r.tokenClass⟩ :: valuesOf rest := by
  obtain ⟨items, hmunch, hvalues⟩ := exists_munch (Position.start.advanceOver w) rest
  rw [valuesOf_of_munch (Munch.lexeme_append hgreatest hfind hmunch), ← hvalues]
  simp only [visibleValues, List.filter_cons, Item.isVisible, Lexeme.isDiscarded,
    Recognizer.isDiscarded]
  by_cases hdiscarded : r.tokenClass = .discarded
  · simp [hdiscarded]
  · simp [hdiscarded, Item.value]

theorem valuesOf_unexpected {c : Char} {rest : List Char}
    (h : acceptedLengths mhRecognizers (c :: rest) = ∅) :
    valuesOf (c :: rest) = [.error (.unexpectedCharacter c)] :=
  valuesOf_of_munch (p := .start) (.unexpected h)

/-! ## Blanks -/

theorem valuesOf_dropWhile (text : List Char) :
    valuesOf (text.dropWhile whitespace.contains) = valuesOf text := by
  have hsplit : text.takeWhile whitespace.contains ++ text.dropWhile whitespace.contains = text :=
    List.takeWhile_append_dropWhile
  by_cases hgap : text.takeWhile whitespace.contains = []
  · rw [hgap, List.nil_append] at hsplit
    rw [hsplit]
  have hblank : ∀ c ∈ text.takeWhile whitespace.contains, whitespace.contains c = true :=
    fun c hc => List.mem_takeWhile_imp hc
  have hrest : ∀ c v, text.dropWhile whitespace.contains = c :: v →
      whitespace.contains c = false := by
    intro c v hcons
    have hhead := List.head?_dropWhile_not whitespace.contains text
    rwa [hcons] at hhead
  have h := valuesOf_lexeme_append (isGreatest_length_gap hgap hblank hrest)
    (find?_accepts_gap hgap hblank)
  rw [hsplit] at h
  exact h.symm

/-- Blanks in front of a text do not count, even if it starts with blanks itself. -/
theorem valuesOf_blanks_append {gap : List Char} (hblank : ∀ c ∈ gap, whitespace.contains c = true)
    (text : List Char) : valuesOf (gap ++ text) = valuesOf text := by
  rw [← valuesOf_dropWhile (gap ++ text), List.dropWhile_append_of_pos hblank, valuesOf_dropWhile]

theorem valuesOf_blank_cons {c : Char} (hc : whitespace.contains c = true) (text : List Char) :
    valuesOf (c :: text) = valuesOf text := by
  have hblank : ∀ d ∈ [c], whitespace.contains d = true := by simpa using hc
  exact valuesOf_blanks_append hblank text

/-! ## The end of a line -/

namespace Recognizer

variable {r : Recognizer} {c d : Char} {v w : List Char}

/-- A comment ends with the first newline, or before it. -/
theorem comment_next_newline (state : ℕ) (c : Char) :
    comment.next (comment.next state '\n') c = comment.dead := by
  match state with
  | 0 | 1 | 2 | 3 | 4 => rfl
  | _ + 5 => rfl

theorem accepts_newline_append_eq_false (hr : r ∈ mhRecognizers) (hne : r ≠ blank) :
    r.accepts (w ++ ['\n'] ++ c :: v) = false := by
  rcases isSolid_of_mem r hr with hsolid | rfl | rfl
  · rw [List.append_assoc]
    exact accepts_append_eq_false (next_eq_dead_of_isSolid hsolid (by decide) _)
  · contradiction
  · refine accepts_append_eq_false ?_
    rw [run, runFrom_append]
    exact comment_next_newline _ c

/-- Nothing is recognized across the end of a line, apart from blanks. -/
theorem accepts_append_eq_false_of_endsLine (hr : r ∈ mhRecognizers)
    (hd : whitespace.contains d = false) (hend : EndsLine (d :: w)) :
    r.accepts (d :: w ++ c :: v) = false := by
  by_cases hblank : r = blank
  · rw [hblank]
    exact accepts_cons_eq_false (blank_next_eq_dead hd 0)
  obtain ⟨line, hline⟩ := hend.resolve_left (List.cons_ne_nil d w)
  rw [← hline]
  exact accepts_newline_append_eq_false hr hblank

end Recognizer

/-- The end of a line that does not start with a blank is the end of a lexeme. -/
theorem acceptedLengths_append_of_endsLine {d : Char} {w : List Char}
    (hd : whitespace.contains d = false) (hend : EndsLine (d :: w)) (rest : List Char) :
    acceptedLengths mhRecognizers (d :: w ++ rest) = acceptedLengths mhRecognizers (d :: w) := by
  ext n
  rcases Nat.lt_or_ge (d :: w).length n with hlonger | hn
  · constructor
    · intro hn
      obtain ⟨c, v, v', -, r, hr, haccepts⟩ := exists_accepts_of_mem_acceptedLengths hn hlonger
      rw [Recognizer.accepts_append_eq_false_of_endsLine hr hd hend] at haccepts
      contradiction
    · intro hn
      exact absurd hn.2.1 (Nat.not_le_of_gt hlonger)
  · exact mem_acceptedLengths_append_iff hn

theorem EndsLine.of_append {w rest : List Char} (h : EndsLine (w ++ rest)) : EndsLine rest := by
  by_cases hrest : rest = []
  · exact .inl hrest
  have htext : w ++ rest ≠ [] := List.append_ne_nil_of_right_ne_nil w hrest
  refine .inr (List.suffix_of_suffix_length_le (h.resolve_left htext) (List.suffix_append w rest) ?_)
  exact List.length_pos_iff.mpr hrest

/-- **What is behind the end of a line is read as if nothing came before.** -/
theorem valuesOf_append_congr {before x y : List Char} (hend : EndsLine before)
    (h : valuesOf x = valuesOf y) : valuesOf (before ++ x) = valuesOf (before ++ y) := by
  -- by the length of what comes before, from which a blank or a lexeme is taken
  induction hlength : before.length using Nat.strongRecOn generalizing before with
  | _ length ih =>
  cases before with
  | nil => exact h
  | cons d w =>
  by_cases hd : whitespace.contains d = true
  · rw [List.cons_append, List.cons_append, valuesOf_blank_cons hd, valuesOf_blank_cons hd]
    exact ih w.length (hlength ▸ Nat.lt_succ_self _) (EndsLine.of_append (w := [d]) hend) rfl
  rw [Bool.not_eq_true] at hd
  have hlengths := acceptedLengths_append_of_endsLine hd hend
  cases hscan : (Scan.of mhRecognizers (d :: w)).longest with
  | none =>
      have hempty := Scan.acceptedLengths_eq_empty hscan
      rw [List.cons_append, List.cons_append, valuesOf_unexpected, valuesOf_unexpected]
      · exact (hlengths y).trans hempty
      · exact (hlengths x).trans hempty
  | some m =>
      obtain ⟨r, hfind, -⟩ := Scan.exists_find?_accepts hscan
      have hgreatest := Scan.isGreatest_length hscan
      obtain ⟨first, rest, hfirst, hsplit⟩ : ∃ first rest, first.length = m.length ∧
          first ++ rest = d :: w :=
        ⟨_, _, List.length_take_of_le hgreatest.1.2.1, List.take_append_drop m.length (d :: w)⟩
      rw [← hsplit, ← hfirst, List.take_left] at hfind
      have hlexeme : ∀ z, IsGreatest (acceptedLengths mhRecognizers (first ++ (rest ++ z)))
          first.length := by
        intro z
        rwa [← List.append_assoc, hsplit, hlengths z, hfirst]
      have hshorter : rest.length < length := by
        have hpos : 0 < m.length := m.length_pos
        rw [← hlength, ← hsplit, List.length_append]
        omega
      have hrest : valuesOf (rest ++ x) = valuesOf (rest ++ y) :=
        ih _ hshorter (EndsLine.of_append (w := first) (hsplit ▸ hend)) rfl
      rw [← hsplit, List.append_assoc, List.append_assoc, valuesOf_lexeme_append (hlexeme x) hfind,
        valuesOf_lexeme_append (hlexeme y) hfind, hrest]

/-! ## Comment lines -/

namespace Recognizer

/-- A text that does not start with a symbol goes on with a comment to the end of the line. -/
theorem append_newline_mem_commentText {text : List Char} (hne : text ≠ []) (hn : '\n' ∉ text)
    (hr : '\r' ∉ text) (hhead : ∀ c ∈ text.head?, symbolic.contains c = false) :
    text ++ ['\n'] ∈ commentText := by
  obtain ⟨c, text, rfl⟩ := List.exists_cons_of_ne_nil hne
  have hline : ∀ d ∈ c :: text, d ∉ ({'\n', '\r'} : Set Char) := by
    rintro d hd (rfl | rfl)
    · exact hn hd
    · exact hr hd
  have hsymbolic : symbolic.contains c = false := hhead c rfl
  have hopens : c ∈ (symbolic.chars ∪ {'\n', '\r'})ᶜ := by
    rintro (h | h)
    · exact Bool.false_ne_true (hsymbolic.symm.trans h)
    · exact hline c List.mem_cons_self h
  rw [commentText, mul_assoc]
  refine .inr (cons_mem_oneOf_mul.mpr ⟨hopens, text, ?_, ['\n'], ?_, rfl⟩)
  · exact mem_kstar_oneOf.mpr fun d hd => hline d (List.mem_cons_of_mem c hd)
  · exact .inr ⟨'\n', .inl rfl, rfl⟩

theorem comment_run_dashes (n : ℕ) : comment.run (List.replicate (n + 2) '-') = 2 := by
  have hloop : comment.runFrom 2 (List.replicate n '-') = 2 := by
    induction n with
    | zero => rfl
    | succ n ih => exact ih
  exact hloop

/-- A newline right behind the dashes does not belong to the comment. -/
theorem accepts_dashes_append_eq_false {r : Recognizer} (hr : r ∈ mhRecognizers) (n : ℕ)
    (v : List Char) : r.accepts (List.replicate (n + 2) '-' ++ '\n' :: v) = false := by
  rcases isSolid_of_mem r hr with hsolid | rfl | rfl
  · exact accepts_append_eq_false (next_eq_dead_of_isSolid hsolid (by decide) _)
  · exact accepts_cons_eq_false (blank_next_eq_dead (by decide) 0)
  · refine accepts_append_eq_false ?_
    rw [comment_run_dashes]
    rfl

end Recognizer

/-- A comment that is the longest match does not count. -/
theorem valuesOf_comment_append {w rest : List Char} (hw : Recognizer.comment.accepts w = true)
    (hlonger : ∀ c v v', rest = c :: v' → ∀ r ∈ mhRecognizers, r.accepts (w ++ c :: v) = false) :
    valuesOf (w ++ rest) = valuesOf rest := by
  have hgreatest := isGreatest_length_append (Recognizer.ne_nil_of_accepts hw)
    ⟨.comment, by decide, hw⟩ hlonger
  exact valuesOf_lexeme_append hgreatest (Recognizer.find?_accepts_of_comment hw)

theorem valuesOf_commentLine_append {line : List Char} (h : IsCommentLine line)
    (after : List Char) : valuesOf (line ++ after) = valuesOf after := by
  obtain ⟨n, text, hdashes, hn, hr, hhead, rfl⟩ := h
  by_cases htext : text = []
  · -- the dashes are the comment, and the newline belongs to the blanks behind it
    obtain ⟨n, rfl⟩ := Nat.exists_eq_add_of_le' hdashes
    have hcomment : Recognizer.comment.accepts (List.replicate (n + 2) '-') = true := by
      rw [Recognizer.accepts, Recognizer.comment_run_dashes]
      rfl
    rw [htext, List.append_nil, List.append_assoc, valuesOf_comment_append hcomment]
    · exact valuesOf_blank_cons (by decide) after
    · intro c v v' hcons r hr
      obtain ⟨rfl, -⟩ := List.cons.inj hcons
      exact Recognizer.accepts_dashes_append_eq_false hr n v
  · -- the whole line is the comment
    have hcomment : Recognizer.comment.accepts (List.replicate n '-' ++ text ++ ['\n']) = true := by
      rw [List.append_assoc]
      exact Recognizer.accepts_of_mem_language (Recognizer.mem_language_comment_iff.mpr
        ⟨n, _, hdashes, Recognizer.append_newline_mem_commentText htext hn hr hhead, rfl⟩)
    refine valuesOf_comment_append hcomment ?_
    intro c v v' _ r hr
    by_cases hblank : r = .blank
    · obtain ⟨n, rfl⟩ := Nat.exists_eq_add_of_le' hdashes
      rw [hblank]
      exact Recognizer.accepts_cons_eq_false (Recognizer.blank_next_eq_dead (by decide) 0)
    · exact Recognizer.accepts_newline_append_eq_false hr hblank

/-! ## The result -/

/-- **Comment lines are invisible.**  A lexer has the same answers but for their positions, whether
the line is there or not, and this holds of the items of a lexer that keeps everything as well, once
the lexemes of discarded classes are left out. -/
theorem comment_line_invisible {before line : List Char} (hbefore : EndsLine before)
    (hline : IsCommentLine line) (after : List Char) :
    (∀ n, (answer (Lexer.start mhRecognizers false (before ++ line ++ after)) n).map Item.value =
      (answer (Lexer.start mhRecognizers false (before ++ after)) n).map Item.value) ∧
    visibleValues (items (Lexer.start mhRecognizers true (before ++ line ++ after))) =
      visibleValues (items (Lexer.start mhRecognizers true (before ++ after))) := by
  have hvalues : valuesOf (before ++ line ++ after) = valuesOf (before ++ after) := by
    rw [List.append_assoc]
    exact valuesOf_append_congr hbefore (valuesOf_commentLine_append hline after)
  refine ⟨?_, hvalues⟩
  have hitems : ∀ source n, (answer (Lexer.start mhRecognizers false source) n).map Item.value =
      (valuesOf source)[n]? := by
    intro source n
    rw [TokenStream.answer_eq_getElem?, Lexer.items_start_eq_filter, ← List.getElem?_map]
    rfl
  intro n
  rw [hitems, hitems, hvalues]

/-- The line cuts a run of blanks in two, and an error comes behind it. -/
theorem comment_line_invisible_in_gap :
    let before := ['x', '\n']
    let line := ['-', '-', ' ', '=', '\n']
    let behind := [' ', ',']
    EndsLine before ∧ IsCommentLine line ∧
      ((∀ n, (answer (Lexer.start mhRecognizers false (before ++ line ++ behind)) n).map Item.value =
        (answer (Lexer.start mhRecognizers false (before ++ behind)) n).map Item.value) ∧
      visibleValues (items (Lexer.start mhRecognizers true (before ++ line ++ behind))) =
        visibleValues (items (Lexer.start mhRecognizers true (before ++ behind)))) ∧
      visibleValues (items (Lexer.start mhRecognizers true (before ++ behind))) =
        [.ok ⟨"x", .identifier⟩, .error (.unexpectedCharacter ',')] := by
  intro before line behind
  have hbefore : EndsLine before := by decide
  have hline : IsCommentLine line :=
    ⟨2, [' ', '='], le_rfl, by decide, by decide, by rintro _ ⟨⟩; decide, rfl⟩
  refine ⟨hbefore, hline, comment_line_invisible hbefore hline behind, ?_⟩
  have hcomma : valuesOf [','] = [.error (.unexpectedCharacter ',')] :=
    valuesOf_unexpected (Scan.acceptedLengths_eq_empty (by decide))
  have hgap : valuesOf (['\n', ' '] ++ [',']) = valuesOf [','] :=
    valuesOf_blanks_append (by simp [contains, blanks]) [',']
  have hword : valuesOf (['x'] ++ (['\n', ' '] ++ [','])) =
      .ok ⟨"x", .identifier⟩ :: valuesOf (['\n', ' '] ++ [',']) :=
    valuesOf_lexeme_append (Scan.isGreatest_length (m := ⟨1, .identifier, by decide⟩) (by decide))
      (r := .identifier) (by decide)
  rw [hgap, hcomma] at hword
  exact hword

end Frontend
