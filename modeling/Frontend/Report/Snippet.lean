import Frontend.Report.Message
import Frontend.Source.File
import Frontend.Source.Span
import Frontend.Text.Escape
import Frontend.Text.Unicode

/-!
# Source snippets

A message about a place in the source quotes the line the place starts on and marks it with carets:

```text
   |
 2 | f = 1 # 2
   |       ^
```

Some characters are not shown as they are.  A tab is as wide as four spaces, a carriage return takes
no room at all, and other control characters are spelled out.  So the carets are placed by cells: in
front of them are as many spaces as the characters before the place take up, and there is at least
one caret even if the place takes up no room.

Only so much of a long line is quoted, with an ellipsis where it was cut.  When the beginning is
cut, the place starts after the characters that were kept before it.

The places of lexemes lie in the file, but a message can be given any place.  Its offset, its row and
its column need not have anything to do with the file or with each other, and if they are too large
there is no snippet (`Snippet.of?`).
-/

namespace Frontend

/-! ## Characters on the screen -/

structure Glyph where
  text : String
  colour : Option Colour
deriving DecidableEq, Repr

namespace Glyph

def tabWidth : Nat := 4

def spaces (n : Nat) : String := String.ofList (List.replicate n ' ')

def of (c : Char) : Glyph :=
  if c = '\t' then ⟨spaces tabWidth, none⟩
  else if c = '\r' then ⟨"", none⟩
  else if Unicode.isControl c then ⟨"\x7b" ++ Escape.byte c.toUInt8 ++ "\x7d", some .cyan⟩
  else ⟨String.singleton c, none⟩

def width (c : Char) : Nat := (of c).text.length

def textWidth : List Char → Nat
  | [] => 0
  | c :: cs => width c + textWidth cs

@[simp] theorem textWidth_nil : textWidth [] = 0 := rfl

@[simp] theorem textWidth_cons (c : Char) (cs : List Char) :
    textWidth (c :: cs) = width c + textWidth cs := rfl

theorem textWidth_append (cs ds : List Char) :
    textWidth (cs ++ ds) = textWidth cs + textWidth ds := by
  induction cs with
  | nil => simp
  | cons c cs ih => simp [ih, Nat.add_assoc]

def output (c : Char) : Output := [.setStyle ⟨(of c).colour, false⟩, .write (of c).text]

end Glyph

/-! ## Snippets -/

/-- A quoted line and the columns of it that are marked. -/
structure Snippet where
  /-- The number of the line, counted from one. -/
  line : Nat
  excerpt : Excerpt
  /-- The number of characters of the quoted text before the marked ones. -/
  first : Nat
  /-- The number of characters up to the end of the marked ones. -/
  last : Nat
  first_le_last : first ≤ last
  last_le_length : last ≤ excerpt.text.length
deriving DecidableEq

namespace Snippet

/-- How many characters of a line are quoted to either side of a place. -/
def context : Nat := 80

/-- What stands where a line was cut. -/
def ellipsis : String := "..."

def gutterStyle : Style := ⟨some .cyan, true⟩

/-- The snippet of a place in a file, if there is one (`of?`).  A span that reaches into later lines is
marked up to the end of its first one. -/
def of (file : SourceFile) (span : Span) : Snippet :=
  let excerpt := file.lineAt span.first context
  let length := excerpt.text.length
  let first := min (if excerpt.cutBefore then context else span.first.col) length
  { line := span.first.line
    excerpt
    first
    last := if span.isMultiline then length else min (first + span.size) length
    first_le_last := by split <;> omega
    last_le_length := by split <;> omega }

/-- Where the marked columns end in a line of a certain length. -/
def last? (span : Span) (first length : Nat) : Option Nat :=
  if span.isMultiline then some length
  else do
    let size ← span.size?
    let last ← add? first size
    some (min last length)

/-- The snippet of a place, if it can be computed.  The marked columns have to be in order and within
the quoted line. -/
def of? (file : SourceFile) (span : Span) : Option Snippet := do
  let line ← span.first.line?
  let excerpt ← file.lineAt? span.first context
  let length := excerpt.text.length
  let first := min (if excerpt.cutBefore then context else span.first.col) length
  let last ← last? span first length
  if h : first ≤ last ∧ last ≤ length then some ⟨line, excerpt, first, last, h.1, h.2⟩ else none

/-- The part of the gutter that has no number. -/
def gutter (s : Snippet) : String := " " ++ Glyph.spaces (toString s.line).length ++ " | "

/-- The number of cells before the first caret. -/
def indent (s : Snippet) : Nat :=
  (if s.excerpt.cutBefore then ellipsis.length else 0) +
    Glyph.textWidth (s.excerpt.text.take s.first)

def carets (s : Snippet) : Nat :=
  max 1 (Glyph.textWidth (s.excerpt.text.take s.last) -
    Glyph.textWidth (s.excerpt.text.take s.first))

def markers (s : Snippet) : String :=
  Glyph.spaces s.indent ++ String.ofList (List.replicate s.carets '^')

def output (s : Snippet) (severity : Severity) : Output :=
  .isolated <|
    [.setStyle gutterStyle, .write (s.gutter ++ "\n"), .write (" " ++ toString s.line ++ " | ")] ++
    (if s.excerpt.cutBefore then [.write ellipsis] else []) ++
    [.setStyle .default] ++
    Output.isolated (s.excerpt.text.flatMap Glyph.output) ++
    (if s.excerpt.cutAfter then [.setStyle gutterStyle, .write ellipsis] else []) ++
    [.write "\n",
      .setStyle gutterStyle, .write s.gutter,
      .setStyle severity.style, .write (s.markers ++ "\n"),
      .write "\n"]

end Snippet

def Severity.reportAt (s : Severity) (file : SourceFile) (message : Located String) : Output :=
  s.header message.value ++ (Snippet.of file message.span).output s

end Frontend
