/-!
# Coloured output

What is written to a terminal is a list of commands: texts, the styles they are shown in, and resets
to the default style.  A plain terminal shows the texts alone.  An ANSI terminal is sent escape
sequences; setting a style resets the terminal first, so that no part of an earlier style remains.

A part of the output that uses styles is put between two resets by `Output.isolated`, and so never
hands its style on to what comes after it.
-/

namespace Frontend

inductive Colour where
  | red
  | green
  | yellow
  | cyan
deriving DecidableEq, Repr

/-- The look of a text.  Without a colour it has the default one of the terminal. -/
structure Style where
  colour : Option Colour
  bold : Bool
deriving DecidableEq, Repr

inductive Command where
  | reset
  | setStyle (style : Style)
  | write (text : String)
deriving DecidableEq, Repr

abbrev Output := List Command

inductive Terminal where
  | plain
  | ansi
deriving DecidableEq, Repr

namespace Colour

def escape : Colour → String
  | red => "\x1b[31m"
  | green => "\x1b[32m"
  | yellow => "\x1b[33m"
  | cyan => "\x1b[36m"

end Colour

namespace Style

def default : Style := ⟨none, false⟩

/-- The escape sequences that select the style on a terminal that was reset. -/
def escape (s : Style) : String :=
  (if s.bold then "\x1b[1m" else "") ++ (s.colour.map Colour.escape).getD ""

end Style

namespace Terminal

def encode : Terminal → Command → String
  | plain, .write text => text
  | plain, _ => ""
  | ansi, .reset => "\x1b[0m"
  | ansi, .setStyle style => "\x1b[0m" ++ style.escape
  | ansi, .write text => text

def render (t : Terminal) (out : Output) : String := String.join (out.map t.encode)

end Terminal

namespace Output

/-- Output that starts from the default style and ends with it. -/
def isolated (body : Output) : Output := .reset :: body ++ [.reset]

end Output
end Frontend
