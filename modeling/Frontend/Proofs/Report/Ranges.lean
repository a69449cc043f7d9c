import Frontend.Proofs.Report.Carets
import Frontend.Proofs.Source.Truncation

/-!
# What a snippet is computed from is in range

On the way from a span to its snippet numbers are added and taken away from each other, and pieces
are cut out of texts.  Nothing is assumed of the positions of the span but that they are in order.
Their offsets may be beyond the end of the file, and their rows and columns need not have anything
to do with it.

There are three sums that are as large as the positions make them: the number of the line, the end of
the window that the line is searched in, and the last marked column, which is cut to the line only
after it was added up.  If one of them is too large for a word (`Snippet.Overflows`) there is no
snippet.  Else nothing fails any more: all pieces are within the texts that they are cut out of, no
difference is negative, and what is added later is as small as a quoted line is short
(`snippet_in_range`).  For the places of a file, and so for all that a lexer yields, the sums are
words, unless the file is as good as too large for the memory itself
(`Snippet.not_overflows_of_delimits`).
-/

namespace Frontend

open TokenStream (items)

/-! ## Small numbers -/

theorem Escape.length_byte_le (b : UInt8) : (byte b).length ≤ 4 := by
  have hprefix : "\\x".length = 2 := rfl
  have hcode : ("\\x" ++ hexPair b).length = 4 := by
    rw [String.length_append, hprefix, hexPair, String.length_ofList]
    rfl
  rw [byte, escapeWith]
  split
  · rw [String.length_ofList]
    simp
  split
  · simp
  · exact hcode.le

namespace Glyph

/-- No character takes up more cells than one that is spelled out. -/
theorem width_le (c : Char) : width c ≤ 6 := by
  have hbyte := Escape.length_byte_le c.toUInt8
  rw [width, of]
  split
  · simp [tabWidth]
  split
  · simp
  split
  · simp only [String.length_append]
    have hopen : "\x7b".length = 1 := rfl
    have hclose : "\x7d".length = 1 := rfl
    omega
  · simp

theorem textWidth_le (cs : List Char) : textWidth cs ≤ 6 * cs.length := by
  induction cs with
  | nil => simp
  | cons c cs ih =>
      have hc := width_le c
      rw [textWidth_cons, List.length_cons]
      omega

theorem textWidth_take_le (cs : List Char) (n : ℕ) : textWidth (cs.take n) ≤ textWidth cs := by
  conv_rhs => rw [← List.take_append_drop n cs]
  rw [textWidth_append]
  exact Nat.le_add_right _ _

end Glyph

theorem SourceFile.length_lineAt_le (file : SourceFile) (p : Position) (limit : ℕ) :
    (file.lineAt p limit).text.length ≤ limit + limit := by
  rw [lineAt, List.length_append, LinePart.length_back, LinePart.length_ahead]
  omega

theorem Span.size?_eq (s : Span) : s.size? = word? s.size := by
  rw [size?, sub?_of_le (Position.offset_le_of_le s.ordered)]
  rfl

/-! ## The marked columns -/

namespace Snippet

/-- One of the sums on the way to the snippet of a span is too large for a word. -/
def Overflows (file : SourceFile) (span : Span) : Prop :=
  wordSize ≤ span.first.row + 1 ∨
    wordSize ≤ min span.first.offset file.chars.length + context ∨
    span.isMultiline = false ∧ wordSize ≤ (of file span).first + span.size

variable {file : SourceFile} {span : Span}

theorem not_overflows_of_eq_some {s : Snippet} (h : of? file span = some s) :
    ¬ Overflows file span := by
  simp only [of?, Option.bind_eq_bind, Option.bind_eq_some_iff] at h
  obtain ⟨line, hline, excerpt, hexcerpt, last, hlast, -⟩ := h
  rw [SourceFile.lineAt?_eq] at hexcerpt
  rintro (hrow | hwindow | ⟨hsingle, hsum⟩)
  · rw [Position.line?, add?, word?_of_le hrow] at hline
    contradiction
  · rw [if_neg (Nat.not_lt.mpr hwindow)] at hexcerpt
    contradiction
  · -- the line was found, so the sum is that of its columns
    obtain ⟨-, hline⟩ := Option.ite_none_right_eq_some.mp hexcerpt
    obtain rfl := Option.some.inj hline
    rw [last?, hsingle, if_neg Bool.false_ne_true, Span.size?_eq] at hlast
    simp only [Option.bind_eq_bind, Option.bind_eq_some_iff] at hlast
    obtain ⟨size, hsize, upTo, hupTo, -⟩ := hlast
    obtain ⟨-, hsize⟩ := Option.ite_none_right_eq_some.mp hsize
    obtain rfl := Option.some.inj hsize
    have hoverflow : add? (of file span).first span.size = none := word?_of_le hsum
    have hnone : none = some upTo := hoverflow.symm.trans hupTo
    contradiction

theorem last_of_eq (file : SourceFile) (span : Span) : (of file span).last =
    if span.isMultiline then (of file span).excerpt.text.length
    else min ((of file span).first + span.size) (of file span).excerpt.text.length := rfl

theorem of?_of_not_overflows (h : ¬ Overflows file span) :
    of? file span = some (of file span) := by
  simp only [Overflows, not_or, Nat.not_le] at h
  obtain ⟨hrow, hwindow, hsum⟩ := h
  have hline : span.first.line? = some span.first.line := word?_of_lt hrow
  have hlast : last? span (of file span).first (of file span).excerpt.text.length =
      some (of file span).last := by
    rw [last?, last_of_eq]
    by_cases hmulti : span.isMultiline = true
    · rw [if_pos hmulti, if_pos hmulti]
    · -- the size is smaller than the sum, so it is a word as well
      have hupTo : (of file span).first + span.size < wordSize := by
        rw [Bool.not_eq_true] at hmulti
        exact Nat.not_le.mp fun hle => hsum ⟨hmulti, hle⟩
      have hsize : span.size? = some span.size := by
        rw [Span.size?_eq, word?_of_lt (by omega)]
      rw [if_neg hmulti, if_neg hmulti, hsize]
      simp only [Option.bind_eq_bind, Option.bind_some, add?, word?_of_lt hupTo]
  have hrange : (of file span).first ≤ (of file span).last ∧
      (of file span).last ≤ (of file span).excerpt.text.length :=
    ⟨(of file span).first_le_last, (of file span).last_le_length⟩
  have hof : of? file span = (some (of file span).last).bind fun last =>
      if h : (of file span).first ≤ last ∧ last ≤ (of file span).excerpt.text.length then
        some ⟨(of file span).line, (of file span).excerpt, (of file span).first, last, h.1, h.2⟩
      else none := by
    rw [← hlast, of?, hline, SourceFile.lineAt?_of_lt hwindow]
    rfl
  rw [hof, Option.bind_some, dif_pos hrange]

/-- There is no snippet exactly if a sum is too large. -/
theorem of?_eq_none_iff : of? file span = none ↔ Overflows file span := by
  refine ⟨fun hnone => by_contra fun h => ?_, fun h => ?_⟩
  · rw [of?_of_not_overflows h] at hnone
    contradiction
  · exact Option.eq_none_iff_forall_ne_some.mpr fun s hs => not_overflows_of_eq_some hs h

theorem eq_of_of?_eq_some {s : Snippet} (h : of? file span = some s) : s = of file span := by
  rw [of?_of_not_overflows (not_overflows_of_eq_some h)] at h
  exact (Option.some.inj h).symm

/-- A place of a file is at most as far from its start as the file is long, and so are its row and
its column. -/
theorem not_overflows_of_delimits {i j : ℕ} (hfile : file.chars.length + context < wordSize)
    (h : file.Delimits i j) : ¬ Overflows file (file.span i j) := by
  have hi : i ≤ file.chars.length := h.le.trans h.le_length
  have hj := h.le_length
  have hcontext : context = 80 := rfl
  have hrow : (file.positionAt i).row ≤ file.chars.length := by
    rw [SourceFile.row_positionAt]
    exact List.count_le_length.trans (List.length_take_le' ..)
  have hfirst := first_of h
  have hsize := SourceFile.size_span h.le hj
  have hstart : (file.span i j).first = file.positionAt i := by rw [SourceFile.span_of_le h.le]
  rintro (hline | hwindow | ⟨-, hsum⟩)
  · rw [hstart] at hline
    omega
  · omega
  · rw [hfirst, hsize] at hsum
    have hij := h.le
    omega

/-! ## The carets -/

/-- The number of cells of the first characters of the quoted line. -/
def widthUpTo? (s : Snippet) (col : ℕ) : Option ℕ := do
  let part ← slice? s.excerpt.text 0 col
  word? (Glyph.textWidth part)

def indent? (s : Snippet) : Option ℕ := do
  let width ← s.widthUpTo? s.first
  add? (if s.excerpt.cutBefore then ellipsis.length else 0) width

def carets? (s : Snippet) : Option ℕ := do
  let upTo ← s.widthUpTo? s.last
  let before ← s.widthUpTo? s.first
  let marked ← sub? upTo before
  some (max 1 marked)

/-- The quoted line is no longer than it is allowed to be. -/
def IsShort (s : Snippet) : Prop := s.excerpt.text.length ≤ context + context

theorem isShort_of (file : SourceFile) (span : Span) : (of file span).IsShort :=
  file.length_lineAt_le span.first context

section

variable {s : Snippet}

/-- A line of at most 160 characters takes up at most 960 cells. -/
theorem IsShort.textWidth_take_lt (h : s.IsShort) (col : ℕ) :
    Glyph.textWidth (s.excerpt.text.take col) + ellipsis.length < wordSize := by
  have hline := Glyph.textWidth_take_le s.excerpt.text col
  have hwidth := Glyph.textWidth_le s.excerpt.text
  have hshort : s.excerpt.text.length ≤ 160 := h
  have hellipsis : ellipsis.length = 3 := rfl
  have hword : 1000 < wordSize := by decide
  omega

theorem IsShort.widthUpTo?_eq (h : s.IsShort) {col : ℕ} (hcol : col ≤ s.excerpt.text.length) :
    s.widthUpTo? col = some (Glyph.textWidth (s.excerpt.text.take col)) := by
  have hlt := h.textWidth_take_lt col
  rw [widthUpTo?, slice?_of_le (Nat.zero_le col) hcol, List.drop_zero]
  exact word?_of_lt (by omega)

theorem textWidth_take_first_le (s : Snippet) : Glyph.textWidth (s.excerpt.text.take s.first) ≤
    Glyph.textWidth (s.excerpt.text.take s.last) := by
  rw [take_last, Glyph.textWidth_append]
  exact Nat.le_add_right _ _

theorem IsShort.indent?_eq (h : s.IsShort) : s.indent? = some s.indent := by
  have hlt := h.textWidth_take_lt s.first
  rw [indent?, h.widthUpTo?_eq (s.first_le_last.trans s.last_le_length)]
  refine word?_of_lt ?_
  split <;> omega

theorem IsShort.carets?_eq (h : s.IsShort) : s.carets? = some s.carets := by
  rw [carets?, h.widthUpTo?_eq s.last_le_length,
    h.widthUpTo?_eq (s.first_le_last.trans s.last_le_length)]
  simp only [Option.bind_eq_bind, Option.bind_some]
  rw [sub?_of_le s.textWidth_take_first_le]
  rfl

/-- The carets end with the quoted line, or one cell behind it. -/
theorem indent_add_carets_le (s : Snippet) : s.indent + s.carets ≤
    (ellipsisIf s.excerpt.cutBefore ++ Glyph.shown s.excerpt.text).length + 1 := by
  have hfirst := s.textWidth_take_first_le
  have hlast := Glyph.textWidth_take_le s.excerpt.text s.last
  have hellipsis : (ellipsisIf s.excerpt.cutBefore).length =
      if s.excerpt.cutBefore then ellipsis.length else 0 := by
    cases s.excerpt.cutBefore <;> rfl
  rw [String.length_append, Glyph.length_shown, hellipsis, indent, carets]
  omega

end

end Snippet

/-! ## The result -/

theorem Severity.render_plain_header (severity : Severity) (message : String) :
    Terminal.plain.render (severity.header message) =
      severity.name ++ ": " ++ message ++ "\n" := by
  rw [header, Terminal.render_plain_isolated]
  simp [String.append_assoc]

/-- **A message can be shown at every place, unless a sum is too large for a word.**  The sums are
words for all places of a file and for the places of all lexemes and lexical errors.  Whatever the positions of a span are, as long as there is a snippet
the pieces that are cut out of texts on the way to it and to its carets are within these texts, and no
difference is negative.  The marked columns are in order and within the quoted line, and there is at
least one caret and none more than one cell behind what is shown of the line. -/
theorem snippet_in_range (file : SourceFile) (span : Span) (severity : Severity)
    (message : String) :
    (Snippet.of? file span = none ↔ Snippet.Overflows file span) ∧
    (file.chars.length + Snippet.context < wordSize →
      (∀ i j, file.Delimits i j → ¬ Snippet.Overflows file (file.span i j)) ∧
      ∀ recognizers keep,
        let lexer := Lexer.start recognizers keep file.chars
        ∀ item ∈ items lexer ++ items (OperatorCheck.of lexer),
          ¬ Snippet.Overflows file item.span) ∧
    span.size? = word? span.size ∧ 1 ≤ span.size ∧
    ∀ s, Snippet.of? file span = some s →
      let shown := Snippet.ellipsisIf s.excerpt.cutBefore ++ Glyph.shown s.excerpt.text
      s.first ≤ s.last ∧ s.last ≤ s.excerpt.text.length ∧
      s.indent? = some s.indent ∧ s.carets? = some s.carets ∧ 1 ≤ s.carets ∧
      s.indent + s.carets ≤ shown.length + 1 ∧
      Terminal.plain.render (severity.reportAt file ⟨span, message⟩) =
        severity.name ++ ": " ++ message ++ "\n" ++ String.join ([s.gutter,
          " " ++ toString s.line ++ " | " ++ shown ++ Snippet.ellipsisIf s.excerpt.cutAfter,
          s.gutter ++ Glyph.spaces s.indent ++ String.ofList (List.replicate s.carets '^'),
          ""].map (· ++ "\n")) := by
  refine ⟨Snippet.of?_eq_none_iff, ?_, span.size?_eq, span.size_pos, ?_⟩
  · intro hfile
    refine ⟨fun i j => Snippet.not_overflows_of_delimits hfile, ?_⟩
    intro recognizers keep lexer item hitem
    obtain ⟨i, j, hdelimits, hspan⟩ := file.exists_delimits_of_mem_items recognizers keep hitem
    rw [hspan]
    exact Snippet.not_overflows_of_delimits hfile hdelimits
  intro s hs shown
  have hof := Snippet.eq_of_of?_eq_some hs
  have hshort : s.IsShort := hof ▸ Snippet.isShort_of file span
  refine ⟨s.first_le_last, s.last_le_length, hshort.indent?_eq, hshort.carets?_eq,
    Nat.le_max_left _ _, s.indent_add_carets_le, ?_⟩
  -- on a plain terminal a snippet is its marked line
  have hlines : s.markedLine.lines = [s.gutter,
      " " ++ toString s.line ++ " | " ++ shown ++ Snippet.ellipsisIf s.excerpt.cutAfter,
      s.gutter ++ Glyph.spaces s.indent ++ String.ofList (List.replicate s.carets '^'), ""] := by
    have hlabel : s.markedLine.label = " " ++ toString s.line ++ " | " := rfl
    have hgutter : s.markedLine.gutter = s.gutter := rfl
    rw [MarkedLine.lines, s.text_markedLine, s.carets_markedLine, Snippet.markers, hlabel, hgutter]
    simp only [shown, String.append_assoc]
  have hreport : severity.reportAt file ⟨span, message⟩ =
      severity.header message ++ s.output severity := by
    rw [hof]
    rfl
  rw [hreport, Terminal.render_append, Severity.render_plain_header, Snippet.render_plain,
    MarkedLine.render, hlines]

/-- A span whose size is just a word cannot be marked behind the first column. -/
theorem no_snippet_of_largest_span :
    ∃ (file : SourceFile) (span : Span), file.chars = ['a', 'b'] ∧
      span = .between ⟨1, 0, 1⟩ ⟨wordSize - 1, 0, 1⟩ ∧ span.size? = some (wordSize - 1) ∧
      Snippet.of? file span = none :=
  ⟨⟨['a', 'b'], by simp⟩, _, rfl, rfl, by decide, by decide⟩

end Frontend
