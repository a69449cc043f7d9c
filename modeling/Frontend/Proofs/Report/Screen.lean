import Frontend.Proofs.Report.Plain

/-!
# What an ANSI terminal shows

An ANSI terminal is sent one text, in which escape sequences stand between the texts to be shown.  A
`Screen` is such a terminal: it reads character by character and keeps the style that is selected at
the moment, and every character outside the escape sequences becomes a `Cell` of that style.

What should come of an output is told from its commands, without a thought of escape sequences
(`Output.cells`, `Output.styleAfter`).  A terminal comes to the same (`Screen.read_render`), as long
as no escape character is smuggled in with a text.  The characters of the cells are what a plain
terminal shows (`Output.map_char_cells`).
-/

namespace Frontend

/-! ## Terminals -/

/-- A character on the screen. -/
structure Cell where
  char : Char
  style : Style
deriving DecidableEq, Repr

/-- The cells of a text that is all in one style. -/
def styled (style : Style) (text : String) : List Cell := text.toList.map (⟨·, style⟩)

/-- The style after an attribute was selected by its number.  Others than those that are used here
are ignored. -/
def Style.select (s : Style) : ℕ → Style
  | 0 => .default
  | 1 => { s with bold := true }
  | 31 => { s with colour := some .red }
  | 32 => { s with colour := some .green }
  | 33 => { s with colour := some .yellow }
  | 36 => { s with colour := some .cyan }
  | _ => s

/-- What a terminal takes the next character for. -/
inductive Mode where
  | text
  /-- An escape character came just before. -/
  | escape
  /-- It is in an escape sequence, whose number is `n` so far. -/
  | number (n : ℕ)
deriving DecidableEq, Repr

structure Screen where
  mode : Mode
  style : Style
  cells : List Cell
deriving DecidableEq, Repr

namespace Screen

/-- An empty screen in the default style. -/
def start : Screen := ⟨.text, .default, []⟩

/-- Reads one character.  An escape sequence ends with the first character that cannot belong to its
number, and selects an attribute only if that is an `m`. -/
def feed (s : Screen) (c : Char) : Screen :=
  match s.mode with
  | .text =>
      if c = '\x1b' then { s with mode := .escape }
      else { s with cells := s.cells ++ [⟨c, s.style⟩] }
  | .escape => { s with mode := if c = '[' then .number 0 else .text }
  | .number n =>
      if c.isDigit then { s with mode := .number (10 * n + (c.toNat - '0'.toNat)) }
      else if c = 'm' then { s with mode := .text, style := s.style.select n }
      else { s with mode := .text }

def read (s : Screen) (text : String) : Screen := text.toList.foldl feed s

theorem read_append (s : Screen) (text later : String) :
    s.read (text ++ later) = (s.read text).read later := by
  unfold read
  rw [String.toList_append, List.foldl_append]

@[simp] theorem read_empty (s : Screen) : s.read "" = s := rfl

end Screen

/-! ## What commands come to -/

namespace Command

/-- The style after a command. -/
def styleAfter (style : Style) : Command → Style
  | reset => .default
  | setStyle style => style
  | write _ => style

/-- What a command adds to the screen. -/
def cells (style : Style) : Command → List Cell
  | write text => styled style text
  | _ => []

/-- No escape character is written as a text. -/
def IsClean : Command → Prop
  | write text => '\x1b' ∉ text.toList
  | _ => True

end Command

namespace Output

def styleAfter (style : Style) (out : Output) : Style := out.foldl Command.styleAfter style

def cells (style : Style) : Output → List Cell
  | [] => []
  | command :: out => command.cells style ++ cells (command.styleAfter style) out

def IsClean (out : Output) : Prop := ∀ command ∈ out, command.IsClean

end Output

namespace Screen

variable {style : Style} {cells : List Cell}

/-- Reading a text without escape characters shows it in the style of the moment. -/
theorem foldl_feed_of_notMem {cs : List Char} (h : '\x1b' ∉ cs) :
    cs.foldl feed ⟨.text, style, cells⟩ = ⟨.text, style, cells ++ cs.map (⟨·, style⟩)⟩ := by
  induction cs generalizing cells with
  | nil => simp
  | cons c cs ih =>
      obtain ⟨hc, hcs⟩ := not_or.mp (mt List.mem_cons.mpr h)
      have hfeed : feed ⟨.text, style, cells⟩ c = ⟨.text, style, cells ++ [⟨c, style⟩]⟩ :=
        if_neg (Ne.symm hc)
      rw [List.foldl_cons, hfeed, ih hcs, List.map_cons, List.append_assoc, List.singleton_append]

theorem read_of_notMem {text : String} (h : '\x1b' ∉ text.toList) :
    read ⟨.text, style, cells⟩ text = ⟨.text, style, cells ++ styled style text⟩ :=
  foldl_feed_of_notMem h

theorem read_reset : read ⟨.text, style, cells⟩ "\x1b[0m" = ⟨.text, .default, cells⟩ := rfl

theorem read_bold : read ⟨.text, style, cells⟩ "\x1b[1m" =
    ⟨.text, { style with bold := true }, cells⟩ := rfl

theorem read_colour (colour : Colour) : read ⟨.text, style, cells⟩ colour.escape =
    ⟨.text, { style with colour := some colour }, cells⟩ := by
  cases colour <;> rfl

/-- On a terminal that was reset the escape sequences of a style select it. -/
theorem read_style (selected : Style) :
    read ⟨.text, .default, cells⟩ selected.escape = ⟨.text, selected, cells⟩ := by
  obtain ⟨colour, bold⟩ := selected
  have hbold : read ⟨.text, .default, cells⟩ (if bold then "\x1b[1m" else "") =
      ⟨.text, ⟨none, bold⟩, cells⟩ := by
    cases bold with
    | false => rfl
    | true => exact read_bold
  unfold Style.escape
  rw [read_append, hbold]
  cases colour with
  | none => rfl
  | some colour => exact read_colour colour

/-- **A terminal does what a command says.** -/
theorem read_encode {command : Command} (h : command.IsClean) :
    read ⟨.text, style, cells⟩ (Terminal.ansi.encode command) =
      ⟨.text, command.styleAfter style, cells ++ command.cells style⟩ := by
  cases command with
  | reset =>
      rw [Terminal.encode, read_reset]
      simp only [Command.styleAfter, Command.cells, List.append_nil]
  | setStyle selected =>
      calc read ⟨.text, style, cells⟩ (Terminal.ansi.encode (.setStyle selected))
          = (read ⟨.text, style, cells⟩ "\x1b[0m").read selected.escape := read_append ..
        _ = read ⟨.text, .default, cells⟩ selected.escape := by rw [read_reset]
        _ = ⟨.text, selected, cells⟩ := read_style selected
        _ = ⟨.text, selected, cells ++ []⟩ := by rw [List.append_nil]
  | write text => exact read_of_notMem h

/-- **A terminal shows an output as its commands say.** -/
theorem read_render {out : Output} (h : out.IsClean) :
    read ⟨.text, style, cells⟩ (Terminal.ansi.render out) =
      ⟨.text, out.styleAfter style, cells ++ out.cells style⟩ := by
  induction out generalizing style cells with
  | nil => simp [Terminal.render, Output.styleAfter, Output.cells]
  | cons command out ih =>
      have hrender : Terminal.ansi.render (command :: out) =
          Terminal.ansi.encode command ++ Terminal.ansi.render out := String.join_cons ..
      obtain ⟨hcommand, hout⟩ := List.forall_mem_cons.mp h
      calc read ⟨.text, style, cells⟩ (Terminal.ansi.render (command :: out))
          = (read ⟨.text, style, cells⟩ (Terminal.ansi.encode command)).read
              (Terminal.ansi.render out) := by rw [hrender, read_append]
        _ = read ⟨.text, command.styleAfter style, cells ++ command.cells style⟩
              (Terminal.ansi.render out) := by rw [read_encode hcommand]
        _ = ⟨.text, Output.styleAfter (command.styleAfter style) out,
              cells ++ command.cells style ++ Output.cells (command.styleAfter style) out⟩ :=
          ih hout
        _ = _ := by
          rw [List.append_assoc]
          rfl

end Screen

/-! ## Outputs side by side -/

theorem styled_append (style : Style) (s t : String) :
    styled style (s ++ t) = styled style s ++ styled style t := by
  unfold styled
  rw [String.toList_append, List.map_append]

theorem map_char_styled (style : Style) (text : String) :
    (styled style text).map Cell.char = text.toList := by
  simp [styled, Function.comp_def]

namespace Output

variable (style : Style) (out later : Output)

theorem cells_append :
    (out ++ later).cells style = out.cells style ++ later.cells (out.styleAfter style) := by
  induction out generalizing style with
  | nil => rfl
  | cons command out ih =>
      rw [List.cons_append, cells, cells, ih, List.append_assoc]
      rfl

@[simp] theorem cells_reset : cells style (.reset :: out) = out.cells .default := rfl

@[simp] theorem cells_setStyle (selected : Style) :
    cells style (.setStyle selected :: out) = out.cells selected := rfl

@[simp] theorem cells_write (text : String) :
    cells style (.write text :: out) = styled style text ++ out.cells style := rfl

/-- The characters on the screen are those a plain terminal shows. -/
theorem map_char_cells : (out.cells style).map Cell.char = (Terminal.plain.render out).toList := by
  induction out generalizing style with
  | nil => rfl
  | cons command out ih =>
      cases command with
      | reset => rw [cells_reset, ih, Terminal.render_plain_reset]
      | setStyle selected => rw [cells_setStyle, ih, Terminal.render_plain_setStyle]
      | write text =>
          rw [cells_write, List.map_append, map_char_styled, ih, Terminal.render_plain_write,
            String.toList_append]

end Output
end Frontend
