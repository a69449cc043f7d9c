import Frontend.Proofs.Report.Carets
import Frontend.Proofs.Report.Screen
import Frontend.Proofs.Session.Accounting

/-!
# Colours never leak

Every part of a message is there for something, and its `Role` says in which style it is shown.  A
message is made of such parts, its `Piece`s, one after another.

The commands of a message change the style at many places, and the quoted line in the middle resets
the terminal on its own.  `Paints` goes along the commands and keeps track of the style: it derives,
command by command, that an output shows certain pieces and leads from one style to another.  A text
is derived as a piece only if the style of the moment is that of its role, so there is no derivation
of an output with a colour that leaks.  What a terminal makes of a derivation is shown once
(`Paints.isClean`, `Paints.styleAfter_eq`, `Paints.visible_cells`), and there is a derivation of
everything a session writes in a step, from the default style to the default style
(`Session.paints_step`).
-/

namespace Frontend

/-! ## Roles -/

/-- What a part of the output is there for. -/
inductive Role where
  /-- The name of a severity, and the carets of a message of that severity. -/
  | severity (s : Severity)
  | message
  /-- What is around the source: gutters, line numbers and ellipses. -/
  | frame
  /-- The code of a control character. -/
  | control
  | source
  /-- The last line of a compilation. -/
  | summary (failed : Bool)
deriving DecidableEq, Repr

namespace Role

def style : Role → Style
  | severity .error => ⟨some .red, true⟩
  | severity .warning => ⟨some .yellow, true⟩
  | message => ⟨none, true⟩
  | frame => ⟨some .cyan, true⟩
  | control => ⟨some .cyan, false⟩
  | source => .default
  | summary failed => ⟨some (if failed then .red else .green), true⟩

/-- The role of a character of the source.  Tabs and carriage returns are not spelled out. -/
def ofChar (c : Char) : Role :=
  if Unicode.isControl c ∧ c ≠ '\t' ∧ c ≠ '\r' then control else source

theorem style_ofChar (c : Char) : (ofChar c).style = ⟨(Glyph.of c).colour, false⟩ := by
  by_cases htab : c = '\t'
  · subst htab
    decide
  by_cases hreturn : c = '\r'
  · subst hreturn
    decide
  simp only [ofChar, Glyph.of, htab, hreturn, ne_eq, not_false_iff, and_true, if_false]
  split <;> rfl

end Role

/-- A part of the output. -/
structure Piece where
  role : Role
  text : String
deriving DecidableEq, Repr

namespace Piece

def cells (p : Piece) : List Cell := styled p.role.style p.text

/-- How a character of the source is shown. -/
def ofChar (c : Char) : Piece := ⟨.ofChar c, (Glyph.of c).text⟩

/-- The ellipsis, where a line was cut. -/
def ellipsisIf (cut : Bool) : List Piece := if cut then [⟨.frame, Snippet.ellipsis⟩] else []

end Piece

def Severity.pieces (severity : Severity) (message : String) : List Piece :=
  [⟨.severity severity, severity.name ++ ": "⟩, ⟨.message, message⟩]

def Snippet.pieces (s : Snippet) (severity : Severity) : List Piece :=
  [⟨.frame, s.gutter⟩, ⟨.frame, " " ++ toString s.line ++ " | "⟩] ++
    Piece.ellipsisIf s.excerpt.cutBefore ++ s.excerpt.text.map Piece.ofChar ++
    Piece.ellipsisIf s.excerpt.cutAfter ++ [⟨.frame, s.gutter⟩, ⟨.severity severity, s.markers⟩]

namespace Session.Step

/-- The step writes a message or the statistics and does nothing else, and it is given no escape
character to write. -/
def OnlyWrites : Step → Prop
  | statistics => True
  | message _ text => '\x1b' ∉ text.toList
  | messageAt _ text => '\x1b' ∉ text.value.toList
  | lex | listTokens | check _ | renew => False

/-- What a step is to show. -/
def pieces (s : Session) : Step → List Piece
  | statistics => [⟨.summary s.tally.errored, s.tally.summary⟩]
  | message severity text => severity.pieces text
  | messageAt severity text =>
      severity.pieces text.value ++ (Snippet.of s.file text.span).pieces severity
  | lex | listTokens | check _ | renew => []

end Session.Step

/-- The cells that can be seen, which are those without line breaks. -/
def visible (cells : List Cell) : List Cell := cells.filter (·.char ≠ '\n')

theorem visible_append (cells later : List Cell) :
    visible (cells ++ later) = visible cells ++ visible later :=
  List.filter_append ..

theorem visible_styled_newline (style : Style) : visible (styled style "\n") = [] := rfl

/-! ## Derivations -/

/-- From one style on, an output shows some pieces, and it leads to another style. -/
inductive Paints : Style → Output → List Piece → Style → Prop where
  | nil {style : Style} : Paints style [] [] style
  | reset {style stop : Style} {out : Output} {pieces : List Piece}
      (h : Paints .default out pieces stop) : Paints style (.reset :: out) pieces stop
  | setStyle {style selected stop : Style} {out : Output} {pieces : List Piece}
      (h : Paints selected out pieces stop) : Paints style (.setStyle selected :: out) pieces stop
  | newline {style stop : Style} {out : Output} {pieces : List Piece}
      (h : Paints style out pieces stop) : Paints style (.write "\n" :: out) pieces stop
  | write {role : Role} {style stop : Style} {text : String} {out : Output} {pieces : List Piece}
      (hrole : role.style = style) (htext : '\x1b' ∉ text.toList)
      (h : Paints style out pieces stop) :
      Paints style (.write text :: out) (⟨role, text⟩ :: pieces) stop
  | line {role : Role} {style stop : Style} {text : String} {out : Output} {pieces : List Piece}
      (hrole : role.style = style) (htext : '\x1b' ∉ text.toList)
      (h : Paints style out pieces stop) :
      Paints style (.write (text ++ "\n") :: out) (⟨role, text⟩ :: pieces) stop

namespace Paints

variable {style middle stop : Style} {out later : Output} {pieces others : List Piece}

theorem append (h : Paints style out pieces middle) (hlater : Paints middle later others stop) :
    Paints style (out ++ later) (pieces ++ others) stop := by
  induction h with
  | nil => exact hlater
  | reset _ ih => exact .reset (ih hlater)
  | setStyle _ ih => exact .setStyle (ih hlater)
  | newline _ ih => exact .newline (ih hlater)
  | write hrole htext _ ih => exact .write hrole htext (ih hlater)
  | line hrole htext _ ih => exact .line hrole htext (ih hlater)

/-- Whatever style the body ends with, an isolated output leads to the default one. -/
theorem isolated (h : Paints .default out pieces middle) :
    Paints style (.isolated out) pieces .default := by
  have hreset : Paints middle [.reset] [] .default := .reset .nil
  rw [← List.append_nil pieces]
  exact .reset (h.append hreset)

/-! ### What a terminal makes of it -/

theorem isClean (h : Paints style out pieces stop) : out.IsClean := by
  induction h with
  | nil => exact fun _ hmem => absurd hmem List.not_mem_nil
  | reset _ ih => exact List.forall_mem_cons.mpr ⟨trivial, ih⟩
  | setStyle _ ih => exact List.forall_mem_cons.mpr ⟨trivial, ih⟩
  | newline _ ih =>
      have hnewline : '\x1b' ∉ "\n".toList := by decide
      exact List.forall_mem_cons.mpr ⟨hnewline, ih⟩
  | write _ htext _ ih => exact List.forall_mem_cons.mpr ⟨htext, ih⟩
  | @line _ _ _ text _ _ _ htext _ ih =>
      have hline : '\x1b' ∉ (text ++ "\n").toList := by simpa using htext
      exact List.forall_mem_cons.mpr ⟨hline, ih⟩

theorem styleAfter_eq (h : Paints style out pieces stop) : out.styleAfter style = stop := by
  induction h with
  | nil => rfl
  | reset _ ih | setStyle _ ih | newline _ ih | write _ _ _ ih | line _ _ _ ih => exact ih

theorem visible_cells (h : Paints style out pieces stop) :
    visible (out.cells style) = visible (pieces.flatMap Piece.cells) := by
  induction h with
  | nil => rfl
  | reset _ ih | setStyle _ ih => exact ih
  | newline _ ih =>
      rw [Output.cells_write, visible_append, visible_styled_newline, List.nil_append, ih]
  | write hrole _ _ ih =>
      rw [Output.cells_write, visible_append, ih, List.flatMap_cons, visible_append, ← hrole]
      rfl
  | line hrole _ _ ih =>
      rw [Output.cells_write, styled_append, visible_append, visible_append,
        visible_styled_newline, List.append_nil, ih, List.flatMap_cons, visible_append, ← hrole]
      rfl

/-- Read from the beginning, an output leaves the terminal in the style that was derived. -/
theorem read_start (h : Paints .default out pieces stop) :
    Screen.start.read (Terminal.ansi.render out) = ⟨.text, stop, out.cells .default⟩ := by
  unfold Screen.start
  rw [Screen.read_render h.isClean, h.styleAfter_eq, List.nil_append]

end Paints

/-! ## Messages -/

theorem IsVisible.escape_notMem {text : String} (h : IsVisible text) : '\x1b' ∉ text.toList :=
  h.notMem (by decide)

namespace Severity

theorem style_role (severity : Severity) : (Role.severity severity).style = severity.style := by
  cases severity <;> rfl

theorem paints_header (severity : Severity) {message : String} (h : '\x1b' ∉ message.toList)
    (style : Style) :
    Paints style (severity.header message) (severity.pieces message) .default := by
  have hname : IsVisible (severity.name ++ ": ") := by cases severity <;> decide
  have hmessage : Paints severity.style
      [.setStyle ⟨none, true⟩, .write (message ++ "\n")] [⟨.message, message⟩] ⟨none, true⟩ :=
    .setStyle (.line rfl h .nil)
  apply Paints.isolated
  apply Paints.setStyle
  exact .write severity.style_role hname.escape_notMem hmessage

end Severity

namespace Tally

theorem isVisible_amount {one many : String} (n : ℕ) (hone : IsVisible one)
    (hmany : IsVisible many) : IsVisible (amount n one many) := by
  unfold amount
  split
  · exact hone
  · exact ((isVisible_toString n).append isVisible_blank).append hmany

theorem isVisible_summary (t : Tally) : IsVisible t.summary := by
  unfold summary
  split_ifs with herrors hwarnings
  · have haborted : IsVisible "Compilation aborted due to " := by decide
    exact haborted.append (isVisible_amount _ (by decide) (by decide))
  · have hfinished : IsVisible "Compilation finished successfully with " := by decide
    exact hfinished.append (isVisible_amount _ (by decide) (by decide))
  · decide

theorem paints_statistics (t : Tally) (style : Style) :
    Paints style t.statistics [⟨.summary t.errored, t.summary⟩] .default := by
  have hstyle : (Role.summary t.errored).style = ⟨some t.summaryColour, true⟩ := by
    simp [Role.style, errored, summaryColour]
  apply Paints.isolated
  apply Paints.setStyle
  exact .line hstyle t.isVisible_summary.escape_notMem .nil

end Tally

namespace Glyph

theorem paints_output (c : Char) (style : Style) :
    Paints style (output c) [.ofChar c] ⟨(of c).colour, false⟩ :=
  .setStyle (.write (Role.style_ofChar c) (isVisible_text c).escape_notMem .nil)

/-- A quoted line leaves behind the style of its last character. -/
theorem exists_paints_flatMap_output (cs : List Char) (style : Style) :
    ∃ stop, Paints style (cs.flatMap output) (cs.map Piece.ofChar) stop := by
  induction cs generalizing style with
  | nil => exact ⟨style, .nil⟩
  | cons c cs ih =>
      obtain ⟨stop, hstop⟩ := ih ⟨(of c).colour, false⟩
      exact ⟨stop, (paints_output c style).append hstop⟩

end Glyph

namespace Snippet

theorem isVisible_gutter (s : Snippet) : IsVisible s.gutter := s.markedLine.isVisible_gutter

theorem isVisible_markers (s : Snippet) : IsVisible s.markers := by
  rw [← s.carets_markedLine]
  exact s.markedLine.isVisible_carets

theorem paints_output (s : Snippet) (severity : Severity) (style : Style) :
    Paints style (s.output severity) (s.pieces severity) .default := by
  have hframe : Role.frame.style = gutterStyle := rfl
  have hellipsis : '\x1b' ∉ ellipsis.toList := by decide
  have hgutter := s.isVisible_gutter.escape_notMem
  have hlabel : '\x1b' ∉ (" " ++ toString s.line ++ " | ").toList :=
    s.markedLine.isVisible_label.escape_notMem
  -- the frame in front of the line
  have hfront : Paints .default
      [.setStyle gutterStyle, .write (s.gutter ++ "\n"), .write (" " ++ toString s.line ++ " | ")]
      [⟨.frame, s.gutter⟩, ⟨.frame, " " ++ toString s.line ++ " | "⟩] gutterStyle :=
    .setStyle (.line hframe hgutter (.write hframe hlabel .nil))
  have hbefore : Paints gutterStyle (if s.excerpt.cutBefore then [.write ellipsis] else [])
      (Piece.ellipsisIf s.excerpt.cutBefore) gutterStyle := by
    cases s.excerpt.cutBefore
    · exact .nil
    · exact .write hframe hellipsis .nil
  have hfrontEnd : Paints gutterStyle [.setStyle .default] [] .default := .setStyle .nil
  -- the line, which resets the terminal on its own
  obtain ⟨last, hglyphs⟩ := Glyph.exists_paints_flatMap_output s.excerpt.text .default
  have hsource : Paints Style.default (.isolated (s.excerpt.text.flatMap Glyph.output))
      (s.excerpt.text.map Piece.ofChar) .default := hglyphs.isolated
  -- so behind it the style is selected once more, if anything is to come
  obtain ⟨middle, hafter⟩ : ∃ middle, Paints .default
      (if s.excerpt.cutAfter then [.setStyle gutterStyle, .write ellipsis] else [])
      (Piece.ellipsisIf s.excerpt.cutAfter) middle := by
    cases s.excerpt.cutAfter
    · exact ⟨_, .nil⟩
    · exact ⟨gutterStyle, .setStyle (.write hframe hellipsis .nil)⟩
  -- and it makes no difference which style that leaves behind
  have hbelow : Paints middle
      [.write "\n", .setStyle gutterStyle, .write s.gutter, .setStyle severity.style,
        .write (s.markers ++ "\n"), .write "\n"]
      [⟨.frame, s.gutter⟩, ⟨.severity severity, s.markers⟩] severity.style := by
    apply Paints.newline
    apply Paints.setStyle
    apply Paints.write hframe hgutter
    apply Paints.setStyle
    exact .line severity.style_role s.isVisible_markers.escape_notMem (.newline .nil)
  have hline := ((hfront.append hbefore).append hfrontEnd).append hsource
  have hbody := (hline.append hafter).append hbelow
  rw [List.append_nil] at hbody
  exact hbody.isolated

end Snippet

theorem Severity.paints_reportAt (severity : Severity) (file : SourceFile)
    {text : Located String} (h : '\x1b' ∉ text.value.toList) (style : Style) :
    Paints style (severity.reportAt file text)
      (severity.pieces text.value ++ (Snippet.of file text.span).pieces severity) .default :=
  (severity.paints_header h style).append (Snippet.paints_output _ severity _)

theorem Severity.paints_report (severity : Severity) {message : String}
    (h : '\x1b' ∉ message.toList) (style : Style) :
    Paints style (severity.report message) (severity.pieces message) .default := by
  have hnewline : Paints .default [.write "\n"] [] .default := .newline .nil
  have hreport := (severity.paints_header h style).append hnewline
  rwa [List.append_nil] at hreport

/-! ## Sessions -/

namespace Session

variable {s : Session} {step : Step} {config : Config} {file : SourceFile}

theorem Step.OnlyWrites.ne_renew (h : step.OnlyWrites) : step ≠ .renew := by
  rintro rfl
  exact h

/-- **What a step writes leads from the default style to the default style, and shows the pieces
that it is to show.** -/
theorem paints_step (h : step.OnlyWrites) (hs : s.attached = true) :
    Paints .default (s.step step).value.written (step.pieces s) .default := by
  cases step with
  | statistics =>
      have hwritten : (s.step .statistics).value.written = s.tally.statistics := if_pos hs
      rw [hwritten]
      exact s.tally.paints_statistics _
  | message severity text =>
      have hwritten : (s.step (.message severity text)).value.written = severity.report text :=
        if_pos hs
      rw [hwritten]
      exact severity.paints_report h _
  | messageAt severity text =>
      have hwritten : (s.step (.messageAt severity text)).value.written =
          severity.reportAt s.file text := if_pos hs
      rw [hwritten]
      exact severity.paints_reportAt s.file h _
  | lex | listTokens | check _ | renew => exact h.elim

/-- All that arrives at the terminal in some steps of a new session, up to the first one that has no
outcome. -/
def transcript (config : Config) (file : SourceFile) (steps : List Step) : Output :=
  (run steps (start config file)).value.flatMap Outcome.written

/-- What arrives in a step after some others: nothing, if one of them has no outcome. -/
def arriving (config : Config) (file : SourceFile) (steps : List Step) (step : Step) : Output :=
  if (steps ++ [step]).all (·.isFeasible file) then
    (((start config file).after steps).step step).value.written
  else []

theorem transcript_concat (steps : List Step) (step : Step) :
    transcript config file (steps ++ [step]) =
      transcript config file steps ++ arriving config file steps step := by
  have hrun := value_run_append_cons steps [] step (start config file)
  rw [transcript, hrun, List.flatMap_append, transcript, arriving]
  congr 1
  show List.flatMap Outcome.written
    (if (steps ++ [step]).all (·.isFeasible file) = true then [_] else []) = _
  split
  · exact List.append_nil _
  · rfl

variable {steps : List Step}

theorem attached_after_start (config : Config) (file : SourceFile)
    (h : ∀ step ∈ steps, step.OnlyWrites) : ((start config file).after steps).attached = true := by
  rw [after_start, decide_eq_true_eq]
  exact fun hrenew => (h _ hrenew).ne_renew rfl

/-- What arrives in one step leads back to the default style, whether the step has an outcome or
not. -/
theorem exists_paints_arriving (config : Config) (file : SourceFile)
    (h : ∀ call ∈ steps ++ [step], call.OnlyWrites) :
    ∃ pieces, Paints .default (arriving config file steps step) pieces .default ∧
      ((∀ call ∈ steps ++ [step], call.isFeasible file = true) →
        pieces = step.pieces ((start config file).after steps)) := by
  obtain ⟨hsteps, hstep⟩ := List.forall_mem_append.mp h
  rw [arriving, ← List.all_eq_true]
  cases (steps ++ [step]).all (·.isFeasible file) with
  | true =>
      exact ⟨_, paints_step (List.forall_mem_singleton.mp hstep)
        (attached_after_start config file hsteps), fun _ => rfl⟩
  | false => exact ⟨[], .nil, nofun⟩

/-- What was written so far has led back to the default style, whatever it was. -/
theorem exists_paints_transcript (config : Config) (file : SourceFile)
    (h : ∀ step ∈ steps, step.OnlyWrites) :
    ∃ pieces, Paints .default (transcript config file steps) pieces .default := by
  induction steps using List.reverseRecOn with
  | nil => exact ⟨[], .nil⟩
  | append_singleton steps step ih =>
      obtain ⟨pieces, hpieces⟩ := ih (List.forall_mem_append.mp h).1
      obtain ⟨last, hlast, -⟩ := exists_paints_arriving config file h
      rw [transcript_concat]
      exact ⟨_, hpieces.append hlast⟩

/-- An error was counted exactly if one of the steps has reported it. -/
theorem errored_after_start (h : ∀ step ∈ steps, step.OnlyWrites) :
    ((start config file).after steps).tally.errored = true ↔
      ∃ step ∈ steps, step.reported? config file = some .error := by
  have hall : sinceRenewal steps = steps :=
    List.rtakeWhile_eq_self_iff.mpr fun step hstep => by simpa using (h step hstep).ne_renew
  rw [after_start, Tally.errored, decide_eq_true_eq, count, hall, List.countP_pos_iff]
  simp

/-- **Colours never leak.**  An ANSI terminal that has read any messages and statistics is in the
default style, and it is again after one more of them.  It shows what a plain terminal shows, and
whatever can be seen of the last one has the style of its role, if it has an outcome as all before
it.  The role of a summary depends on whether an error was reported before. -/
theorem colours_never_leak (config : Config) (file : SourceFile) (before : List Step) (step : Step)
    (h : ∀ call ∈ before ++ [step], call.OnlyWrites) :
    let s := (start config file).after before
    let sent := fun steps => Terminal.ansi.render (transcript config file steps)
    let plain := fun steps => Terminal.plain.render (transcript config file steps)
    ∃ cells shown,
      Screen.start.read (sent before) = ⟨.text, .default, cells⟩ ∧
      Screen.start.read (sent (before ++ [step])) = ⟨.text, .default, cells ++ shown⟩ ∧
      cells.map Cell.char = (plain before).toList ∧
      (cells ++ shown).map Cell.char = (plain (before ++ [step])).toList ∧
      ((∀ call ∈ before ++ [step], call.isFeasible file = true) →
        visible shown = visible ((step.pieces s).flatMap Piece.cells) ∧
        (s.tally.errored = true ↔
          ∃ call ∈ before, call.reported? config file = some .error)) := by
  intro s sent plain
  have hbefore := (List.forall_mem_append.mp h).1
  obtain ⟨pieces, hpieces⟩ := exists_paints_transcript config file hbefore
  obtain ⟨last, hlast, hrole⟩ := exists_paints_arriving config file h
  have hall := hpieces.append hlast
  rw [← transcript_concat before step] at hall
  -- the cells of the last step come after those before it, and start from the default style
  have hcells : (transcript config file (before ++ [step])).cells .default =
      (transcript config file before).cells .default ++
        (arriving config file before step).cells .default := by
    rw [transcript_concat, Output.cells_append, hpieces.styleAfter_eq]
  refine ⟨(transcript config file before).cells .default,
    (arriving config file before step).cells .default, hpieces.read_start, ?_,
    Output.map_char_cells _ _, ?_, fun hfeasible => ⟨?_, errored_after_start hbefore⟩⟩
  · rw [← hcells]
    exact hall.read_start
  · rw [← hcells]
    exact Output.map_char_cells _ _
  · rw [← hrole hfeasible]
    exact hlast.visible_cells

/-- A control character is spelled out between a letter and a tab. -/
theorem colours_never_leak_control :
    let config : Config := ⟨[], false, .ansi⟩
    let before : List Step := [.message .warning "w"]
    let step : Step := .messageAt .error ⟨.between .start .start, "e"⟩
    ∃ file : SourceFile, file.chars = ['a', '\x01', '\t'] ∧
      (∀ call ∈ before ++ [step], call.OnlyWrites) ∧
      (∀ call ∈ before ++ [step], call.isFeasible file = true) ∧
      ∃ cells shown,
        Screen.start.read (Terminal.ansi.render (transcript config file before)) =
          ⟨.text, .default, cells⟩ ∧
        Screen.start.read (Terminal.ansi.render (transcript config file (before ++ [step]))) =
          ⟨.text, .default, cells ++ shown⟩ ∧
        visible shown = visible (List.flatMap Piece.cells
          [⟨.severity .error, "error: "⟩, ⟨.message, "e"⟩, ⟨.frame, "   | "⟩, ⟨.frame, " 1 | "⟩,
            ⟨.source, "a"⟩, ⟨.control, "\x7b\\x01\x7d"⟩, ⟨.source, "    "⟩, ⟨.frame, "   | "⟩,
            ⟨.severity .error, "^"⟩]) := by
  intro config before step
  let file : SourceFile := ⟨['a', '\x01', '\t'], by simp⟩
  have hcalls : ∀ call ∈ before ++ [step], call.OnlyWrites := by
    simp [before, step, Step.OnlyWrites]
  have hfeasible : ∀ call ∈ before ++ [step], call.isFeasible file = true := by decide
  have hpieces : step.pieces ((start config file).after before) =
      [⟨.severity .error, "error: "⟩, ⟨.message, "e"⟩, ⟨.frame, "   | "⟩, ⟨.frame, " 1 | "⟩,
        ⟨.source, "a"⟩, ⟨.control, "\x7b\\x01\x7d"⟩, ⟨.source, "    "⟩, ⟨.frame, "   | "⟩,
        ⟨.severity .error, "^"⟩] := by
    decide
  obtain ⟨cells, shown, hbefore, hafter, -, -, hrole⟩ :=
    colours_never_leak config file before step hcalls
  obtain ⟨hshown, -⟩ := hrole hfeasible
  rw [hpieces] at hshown
  exact ⟨file, rfl, hcalls, hfeasible, cells, shown, hbefore, hafter, hshown⟩

end Session
end Frontend
