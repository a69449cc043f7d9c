import Frontend.Proofs.Lexing.Checking
import Frontend.Proofs.Lexing.Discarding
import Frontend.Proofs.Report.Plain
import Frontend.Proofs.Source.Excerpt

/-!
# Where the carets stand

Three ways of counting meet in a snippet: a span is given by positions, the line of its start is
quoted by characters on either side of it, and the carets are set by cells.  They agree.  On a plain
terminal the carets stand below the glyphs of the characters that the span and the quoted text have
in common, or below the first cell after the place if there are none.

What is to be shown is a `MarkedLine`, which speaks of texts only: the quoted line is three texts
side by side, and the carets are as far to the right as the first one is wide and as many as the
second one is.  Every snippet shows the line that its own numbers mark (`Snippet.render_plain`), and
for a span of the file these numbers are right (`MarkedLine.markedLine_snippetOf`).

The spans that a lexer gives to its tokens and errors are spans of the file
(`SourceFile.span_of_mem_items`), and a check of the operators keeps them
(`OperatorCheck.exists_mem_items`).
-/

namespace Frontend

open TokenStream (items)

/-! ## Marked lines -/

/-- A line with its number and with a part of it marked. -/
structure MarkedLine where
  number : ℕ
  before : String
  marked : String
  after : String
deriving DecidableEq, Repr

namespace MarkedLine

def text (m : MarkedLine) : String := m.before ++ m.marked ++ m.after

/-- What stands in front of the line. -/
def label (m : MarkedLine) : String := " " ++ toString m.number ++ " | "

/-- What stands in front of a line without a number. -/
def gutter (m : MarkedLine) : String := " " ++ Glyph.spaces (toString m.number).length ++ " | "

/-- One caret below each cell of the marked part, but at least one. -/
def carets (m : MarkedLine) : String :=
  Glyph.spaces m.before.length ++ String.ofList (List.replicate (max 1 m.marked.length) '^')

def lines (m : MarkedLine) : List String :=
  [m.gutter, m.label ++ m.text, m.gutter ++ m.carets, ""]

def render (m : MarkedLine) : String := String.join (m.lines.map (· ++ "\n"))

theorem length_gutter (m : MarkedLine) : m.gutter.length = m.label.length := by
  simp only [gutter, label, String.length_append, Glyph.length_spaces]

theorem isVisible_gutter (m : MarkedLine) : IsVisible m.gutter :=
  (isVisible_blank.append (Glyph.isVisible_spaces _)).append (by decide)

theorem isVisible_label (m : MarkedLine) : IsVisible m.label :=
  (isVisible_blank.append (isVisible_toString _)).append (by decide)

theorem isVisible_carets (m : MarkedLine) : IsVisible m.carets :=
  (Glyph.isVisible_spaces _).append (isVisible_replicate (by decide) _)

theorem isVisible_lines {m : MarkedLine} (h : IsVisible m.text) :
    ∀ line ∈ m.lines, IsVisible line := by
  simp only [lines, List.forall_mem_cons]
  exact ⟨m.isVisible_gutter, m.isVisible_label.append h,
    m.isVisible_gutter.append m.isVisible_carets, by decide, by simp⟩

end MarkedLine

/-! ## What a snippet shows -/

namespace Snippet

/-- The ellipsis, where a line was cut. -/
def ellipsisIf (cut : Bool) : String := if cut then ellipsis else ""

theorem isVisible_ellipsisIf (cut : Bool) : IsVisible (ellipsisIf cut) := by
  cases cut <;> decide

/-- The line of a snippet, marked from its first to its last column. -/
def markedLine (s : Snippet) : MarkedLine where
  number := s.line
  before := ellipsisIf s.excerpt.cutBefore ++ Glyph.shown (s.excerpt.text.take s.first)
  marked := Glyph.shown ((s.excerpt.text.take s.last).drop s.first)
  after := Glyph.shown (s.excerpt.text.drop s.last) ++ ellipsisIf s.excerpt.cutAfter

variable (s : Snippet)

theorem take_last : s.excerpt.text.take s.last =
    s.excerpt.text.take s.first ++ (s.excerpt.text.take s.last).drop s.first :=
  take_eq_append s.first_le_last

theorem shown_text : Glyph.shown s.excerpt.text =
    Glyph.shown (s.excerpt.text.take s.first) ++
      Glyph.shown ((s.excerpt.text.take s.last).drop s.first) ++
      Glyph.shown (s.excerpt.text.drop s.last) := by
  rw [← Glyph.shown_append, ← take_last, ← Glyph.shown_append, List.take_append_drop]

theorem text_markedLine : s.markedLine.text = ellipsisIf s.excerpt.cutBefore ++
    Glyph.shown s.excerpt.text ++ ellipsisIf s.excerpt.cutAfter := by
  simp only [MarkedLine.text, markedLine, shown_text, String.append_assoc]

theorem newline_notMem_lines_markedLine : ∀ line ∈ s.markedLine.lines, '\n' ∉ line.toList := by
  have htext : IsVisible s.markedLine.text := by
    rw [text_markedLine]
    exact ((isVisible_ellipsisIf _).append (Glyph.isVisible_shown _)).append
      (isVisible_ellipsisIf _)
  exact fun line hline => (MarkedLine.isVisible_lines htext line hline).newline_notMem

theorem length_before_markedLine : s.markedLine.before.length = s.indent := by
  rw [markedLine, String.length_append, Glyph.length_shown, indent]
  cases s.excerpt.cutBefore <;> rfl

theorem length_marked_markedLine : max 1 s.markedLine.marked.length = s.carets := by
  rw [markedLine, Glyph.length_shown, carets, take_last, Glyph.textWidth_append,
    Nat.add_sub_cancel_left, ← take_last]

theorem carets_markedLine : s.markedLine.carets = s.markers := by
  rw [MarkedLine.carets, length_before_markedLine, length_marked_markedLine, markers]

/-- On a plain terminal a snippet is its marked line. -/
theorem render_plain (severity : Severity) :
    Terminal.plain.render (s.output severity) = s.markedLine.render := by
  have hbefore : Terminal.plain.render (if s.excerpt.cutBefore then [.write ellipsis] else []) =
      ellipsisIf s.excerpt.cutBefore := by
    cases s.excerpt.cutBefore <;> rfl
  have hafter : Terminal.plain.render
      (if s.excerpt.cutAfter then [.setStyle gutterStyle, .write ellipsis] else []) =
        ellipsisIf s.excerpt.cutAfter := by
    cases s.excerpt.cutAfter <;> rfl
  have hlabel : s.markedLine.label = " " ++ toString s.line ++ " | " := rfl
  have hgutter : s.markedLine.gutter = s.gutter := rfl
  have hlines : s.markedLine.render = s.gutter ++ "\n" ++
      (" " ++ toString s.line ++ " | " ++ s.markedLine.text ++ "\n") ++
      (s.gutter ++ s.markers ++ "\n") ++ "\n" := by
    simp [MarkedLine.render, MarkedLine.lines, hgutter, hlabel, carets_markedLine,
      String.append_assoc]
  rw [hlines, text_markedLine, output]
  simp only [Terminal.render_plain_isolated, Terminal.render_append, Terminal.render_plain_setStyle,
    Terminal.render_plain_write, Terminal.render_plain_nil, Glyph.render_plain_output, hbefore,
    hafter, String.append_empty, String.append_assoc]

end Snippet

/-! ## Spans of a file -/

namespace SourceFile

variable {file : SourceFile} {i j : ℕ}

/-- The span from the place with `i` characters before it to the place with `j`. -/
def span (file : SourceFile) (i j : ℕ) : Span :=
  .between (file.positionAt i) (file.positionAt j)

/-- Both places are at characters of the file, or both are at its end. -/
def Delimits (file : SourceFile) (i j : ℕ) : Prop :=
  i ≤ j ∧ j < file.chars.length ∨ i = file.chars.length ∧ j = file.chars.length

instance (file : SourceFile) (i j : ℕ) : Decidable (file.Delimits i j) := instDecidableOr

theorem Delimits.le (h : file.Delimits i j) : i ≤ j := by
  rcases h with ⟨hij, -⟩ | ⟨rfl, rfl⟩
  exacts [hij, le_rfl]

theorem Delimits.le_length (h : file.Delimits i j) : j ≤ file.chars.length := by
  rcases h with ⟨-, hj⟩ | ⟨-, rfl⟩
  exacts [hj.le, le_rfl]

theorem span_of_le (hij : i ≤ j) :
    file.span i j = ⟨file.positionAt i, file.positionAt j, positionAt_le hij⟩ :=
  Span.between_of_le _

theorem size_span (hij : i ≤ j) (hj : j ≤ file.chars.length) :
    (file.span i j).size = j - i + 1 := by
  rw [span_of_le hij, Span.size, offset_positionAt hj, offset_positionAt (hij.trans hj)]

/-- Where a span from `i` to `j` ends in the line that is quoted for its start: behind its last
character, or with the quoted text if that is before the end of the span. -/
def markedEnd (file : SourceFile) (limit i j : ℕ) : ℕ :=
  if (file.positionAt i).row = (file.positionAt j).row then
    min (j + 1 - file.lineStart (file.positionAt i) limit)
      (file.lineAt (file.positionAt i) limit).text.length
  else (file.lineAt (file.positionAt i) limit).text.length

/-- The end of the quoted text is before that of a span that reaches into a later row. -/
theorem markedEnd_eq_min (limit : ℕ) (hi : i ≤ file.chars.length) (hij : i ≤ j) :
    file.markedEnd limit i j = min (j + 1 - file.lineStart (file.positionAt i) limit)
      (file.lineAt (file.positionAt i) limit).text.length := by
  by_cases hrow : (file.positionAt i).row = (file.positionAt j).row
  · exact if_pos hrow
  · have hend := file.length_lineAt_le_of_row_ne limit hi hij hrow
    rw [markedEnd, if_neg hrow]
    omega

end SourceFile

namespace Snippet

variable {file : SourceFile} {i j : ℕ}

/-- The first marked character is the one the span starts with. -/
theorem first_of (h : file.Delimits i j) :
    (Snippet.of file (file.span i j)).first =
      i - file.lineStart (file.positionAt i) context := by
  have hi : i ≤ file.chars.length := h.le.trans h.le_length
  have hstart := file.lineStart_add_length_back context hi
  have hback : (LinePart.back context (file.chars.take i)).text.length =
      if (LinePart.back context (file.chars.take i)).cut then context
      else (file.positionAt i).col := by
    rw [LinePart.length_back_of_cut, SourceFile.col_positionAt]
  rw [SourceFile.span_of_le h.le]
  show min (if (file.lineAt (file.positionAt i) context).cutBefore then context
    else (file.positionAt i).col) (file.lineAt (file.positionAt i) context).text.length = _
  rw [SourceFile.lineAt_positionAt context hi, ← hback, List.length_append]
  omega

/-- The last marked character is the one the span ends with, if that is quoted. -/
theorem last_of (h : file.Delimits i j) :
    (Snippet.of file (file.span i j)).last = file.markedEnd context i j := by
  have hi : i ≤ file.chars.length := h.le.trans h.le_length
  have hstart := file.lineStart_le context hi
  have hij := h.le
  have hfirst := first_of h
  have hsize := SourceFile.size_span hij h.le_length
  rw [SourceFile.span_of_le hij] at hfirst hsize ⊢
  show (if decide ((file.positionAt i).row ≠ (file.positionAt j).row) = true then
      (file.lineAt (file.positionAt i) context).text.length
    else min ((Snippet.of file ⟨file.positionAt i, file.positionAt j, _⟩).first +
        Span.size ⟨file.positionAt i, file.positionAt j, _⟩)
      (file.lineAt (file.positionAt i) context).text.length) = _
  rw [hfirst, hsize, SourceFile.markedEnd]
  by_cases hrow : (file.positionAt i).row = (file.positionAt j).row
  · have hend : i - file.lineStart (file.positionAt i) context + (j - i + 1) =
        j + 1 - file.lineStart (file.positionAt i) context := by
      omega
    rw [if_neg (by simp [hrow]), if_pos hrow, hend]
  · rw [if_pos (by simp [hrow]), if_neg hrow]

end Snippet

/-! ## The marked line of a span -/

namespace MarkedLine

variable {file : SourceFile} {i j : ℕ}

/-- The line of the file that the place with `i` characters before it is on, marked from there to
the place with `j`, or to the end of what is quoted if that is on a later row. -/
def of (file : SourceFile) (i j : ℕ) : MarkedLine :=
  let p := file.positionAt i
  let excerpt := file.lineAt p Snippet.context
  let start := file.lineStart p Snippet.context
  let last := file.markedEnd Snippet.context i j
  { number := p.row + 1
    before := Snippet.ellipsisIf excerpt.cutBefore ++ Glyph.shown (excerpt.text.take (i - start))
    marked := Glyph.shown ((excerpt.text.take last).drop (i - start))
    after := Glyph.shown (excerpt.text.drop last) ++ Snippet.ellipsisIf excerpt.cutAfter }

theorem markedLine_snippetOf (h : file.Delimits i j) :
    (Snippet.of file (file.span i j)).markedLine = of file i j := by
  have hexcerpt : (Snippet.of file (file.span i j)).excerpt =
      file.lineAt (file.positionAt i) Snippet.context := by
    rw [SourceFile.span_of_le h.le]
    rfl
  have hline : (Snippet.of file (file.span i j)).line = (file.positionAt i).row + 1 := by
    rw [SourceFile.span_of_le h.le]
    rfl
  rw [Snippet.markedLine, hexcerpt, hline, Snippet.first_of h, Snippet.last_of h]
  rfl

theorem text_of (h : file.Delimits i j) :
    (of file i j).text =
      Snippet.ellipsisIf (file.lineAt (file.positionAt i) Snippet.context).cutBefore ++
        Glyph.shown (file.lineAt (file.positionAt i) Snippet.context).text ++
        Snippet.ellipsisIf (file.lineAt (file.positionAt i) Snippet.context).cutAfter := by
  rw [← markedLine_snippetOf h, Snippet.text_markedLine, SourceFile.span_of_le h.le]
  rfl

/-- What is marked is what the file has from the one place to the other, as far as it is quoted. -/
theorem marked_of (h : file.Delimits i j) :
    (of file i j).marked = Glyph.shown ((file.chars.take (min (j + 1)
      (file.lineStart (file.positionAt i) Snippet.context +
        (file.lineAt (file.positionAt i) Snippet.context).text.length))).drop i) := by
  have hi : i ≤ file.chars.length := h.le.trans h.le_length
  have hij := h.le
  have hstart := file.lineStart_le Snippet.context hi
  obtain ⟨rest, hrest⟩ := file.text_lineAt_isPrefix Snippet.context hi
  simp only [of, file.markedEnd_eq_min Snippet.context hi hij]
  generalize file.lineStart (file.positionAt i) Snippet.context = start at *
  generalize (file.lineAt (file.positionAt i) Snippet.context).text = text at *
  congr 1
  calc (text.take (min (j + 1 - start) text.length)).drop (i - start)
      = ((file.chars.drop start).take (min (j + 1 - start) text.length)).drop (i - start) := by
        rw [← hrest, List.take_append_of_le_length (Nat.min_le_right _ _)]
    _ = (file.chars.take (start + min (j + 1 - start) text.length)).drop i := by
        rw [List.take_drop, List.drop_drop, Nat.add_sub_cancel' hstart]
    _ = (file.chars.take (min (j + 1) (start + text.length))).drop i := by
        congr 2
        omega

end MarkedLine

/-! ## Spans from a lexer -/

namespace SourceFile

variable {file : SourceFile} {recognizers : List Recognizer} {i : ℕ}

theorem advanceOver_positionAt (i n : ℕ) :
    (file.positionAt i).advanceOver ((file.chars.drop i).take n) = file.positionAt (i + n) := by
  rw [positionAt, positionAt, ← Position.advanceOver_append, List.take_add]

/-- The span of a piece of the file. -/
theorem covering_positionAt {n : ℕ} (hn : n ≤ (file.chars.drop i).length) :
    Span.covering (file.positionAt i) ((file.chars.drop i).take n) =
      file.span i (i + (n - 1)) := by
  have hdropLast : ((file.chars.drop i).take n).dropLast = (file.chars.drop i).take (n - 1) := by
    rw [List.dropLast_eq_take, List.length_take, Nat.min_eq_left hn, List.take_take,
      Nat.min_eq_left (Nat.sub_le _ _)]
  rw [span_of_le (Nat.le_add_right _ _), Span.covering]
  simp only [hdropLast, advanceOver_positionAt]

theorem span_of_mem_munch {p : Position} {text : List Char} {items : List Item}
    (h : Munch recognizers p text items) (hp : p = file.positionAt i)
    (htext : text = file.chars.drop i) :
    ∀ item ∈ items, ∃ i j, file.Delimits i j ∧ item.span = file.span i j := by
  induction h generalizing i with
  | done => simp
  | @lexeme p text n r items hn hr _ ih =>
      subst hp htext
      obtain ⟨hpos, hle, -⟩ := hn.1
      intro item hitem
      rcases List.mem_cons.mp hitem with rfl | hitem
      · refine ⟨i, i + (n - 1), .inl ⟨Nat.le_add_right _ _, ?_⟩, covering_positionAt hle⟩
        rw [List.length_drop] at hle
        omega
      · exact ih (advanceOver_positionAt i n) List.drop_drop item hitem
  | @unexpected p c rest hempty =>
      intro item hitem
      obtain rfl := List.mem_singleton.mp hitem
      have hlength := congrArg List.length htext
      rw [List.length_cons, List.length_drop] at hlength
      refine ⟨i, i, .inl ⟨le_rfl, by omega⟩, ?_⟩
      rw [span, Span.between_self, ← hp]
      rfl

/-- Whatever a lexer yields for a file, it is at a place in the file. -/
theorem span_of_mem_items (recognizers : List Recognizer) (keep : Bool) {item : Item}
    (h : item ∈ items (Lexer.start recognizers keep file.chars)) :
    ∃ i j, file.Delimits i j ∧ item.span = file.span i j :=
  span_of_mem_munch (i := 0) (Lexer.munch_items_start recognizers file.chars) rfl rfl item
    (Lexer.mem_items_keeping h)

end SourceFile

theorem Token.span_checkOperator (token : Token) : token.checkOperator.span = token.span := by
  unfold checkOperator
  split_ifs <;> rfl

theorem Item.span_checkOperator (item : Item) :
    Item.span (item.bind Token.checkOperator) = item.span := by
  cases item with
  | error e => rfl
  | ok token => exact token.span_checkOperator

/-- A checked item stands where the one stood that was checked. -/
theorem OperatorCheck.exists_mem_items {σ : Type} [TokenStream σ] (s : OperatorCheck σ)
    {item : Item} (h : item ∈ items s) : ∃ inner ∈ items s.inner, item.span = inner.span := by
  by_cases hf : s.finished = true
  · rw [items_of_finished hf] at h
    contradiction
  · rw [Bool.not_eq_true] at hf
    rw [items_of_not_finished hf] at h
    obtain ⟨inner, hinner, rfl⟩ := List.mem_map.mp ((untilError_isPrefix _).mem h)
    exact ⟨inner, hinner, inner.span_checkOperator⟩

/-- The span of everything that a lexer yields is a span of the file, whether the operators are checked
or not. -/
theorem SourceFile.exists_delimits_of_mem_items (file : SourceFile)
    (recognizers : List Recognizer) (keep : Bool) {item : Item}
    (h : item ∈ items (Lexer.start recognizers keep file.chars) ++
      items (OperatorCheck.of (Lexer.start recognizers keep file.chars))) :
    ∃ i j, file.Delimits i j ∧ item.span = file.span i j := by
  rcases List.mem_append.mp h with hitem | hitem
  · exact file.span_of_mem_items recognizers keep hitem
  · -- a checked item has the span of the one that was checked
    obtain ⟨inner, hinner, hspan⟩ := OperatorCheck.exists_mem_items _ hitem
    rw [hspan]
    exact file.span_of_mem_items recognizers keep hinner

/-! ## The result -/

/-- **Carets stand below what they mark.**  The snippet of a span is four lines.  One of them is the
quoted line with an ellipsis where it was cut, and below it there are carets from the first glyph of
the span to the last one that is quoted.  All spans that come from a lexer are spans of this kind,
whether the operators are checked or not. -/
theorem snippet_marks_span (file : SourceFile) (severity : Severity) :
    (∀ i j, file.Delimits i j →
      let p := file.positionAt i
      let q := file.positionAt j
      let excerpt := file.lineAt p Snippet.context
      let start := file.lineStart p Snippet.context
      let quoted := MarkedLine.of file i j
      Terminal.plain.render ((Snippet.of file (.between p q)).output severity) =
        String.join (quoted.lines.map (· ++ "\n")) ∧
      (∀ line ∈ quoted.lines, '\n' ∉ line.toList) ∧
      quoted.gutter.length = quoted.label.length ∧
      quoted.text = Snippet.ellipsisIf excerpt.cutBefore ++ Glyph.shown excerpt.text ++
        Snippet.ellipsisIf excerpt.cutAfter ∧
      start ≤ i ∧ excerpt.text <+: file.chars.drop start ∧
      quoted.marked = Glyph.shown
        ((file.chars.take (min (j + 1) (start + excerpt.text.length))).drop i)) ∧
    ∀ recognizers keep,
      let lexer := Lexer.start recognizers keep file.chars
      ∀ item ∈ items lexer ++ items (OperatorCheck.of lexer), ∃ i j, file.Delimits i j ∧
        item.span = .between (file.positionAt i) (file.positionAt j) := by
  refine ⟨?_, ?_⟩
  · intro i j h p q excerpt start quoted
    have hi : i ≤ file.chars.length := h.le.trans h.le_length
    have hrender : Terminal.plain.render ((Snippet.of file (file.span i j)).output severity) =
        quoted.render := by
      rw [Snippet.render_plain, MarkedLine.markedLine_snippetOf h]
    have hlines : ∀ line ∈ quoted.lines, '\n' ∉ line.toList := by
      have hall := (Snippet.of file (file.span i j)).newline_notMem_lines_markedLine
      rwa [MarkedLine.markedLine_snippetOf h] at hall
    exact ⟨hrender, hlines, quoted.length_gutter, MarkedLine.text_of h, file.lineStart_le _ hi,
      file.text_lineAt_isPrefix _ hi, MarkedLine.marked_of h⟩
  · intro recognizers keep lexer item hitem
    exact file.exists_delimits_of_mem_items recognizers keep hitem

/-- A tab is four cells wide, and a carriage return takes no room. -/
theorem snippet_marks_span_tab :
    ∃ file : SourceFile, file.chars = ['a', '\t', '=', '\r', 'b', '\n'] ∧ file.Delimits 1 3 ∧
      Terminal.plain.render ((Snippet.of file
        (.between (file.positionAt 1) (file.positionAt 3))).output .error) =
          "   | \n 1 | a    =b\n   |  ^^^^^\n\n" := by
  let file : SourceFile := ⟨['a', '\t', '=', '\r', 'b', '\n'], by simp⟩
  have h : file.Delimits 1 3 := by decide
  have hrender := ((snippet_marks_span file .error).1 1 3 h).1
  exact ⟨file, rfl, h, hrender.trans (by decide)⟩

end Frontend
