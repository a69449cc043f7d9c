import Frontend.Report.Terminal

/-!
# Messages

A message is an error or a warning.  It starts with a header, `error:` or `warning:` and the text of
the message, and is counted; at the end of a compilation a summary tells how many there were.  Only
errors make a compilation fail.
-/

namespace Frontend

inductive Severity where
  | error
  | warning
deriving DecidableEq, Repr

namespace Severity

def name : Severity → String
  | error => "error"
  | warning => "warning"

def colour : Severity → Colour
  | error => .red
  | warning => .yellow

/-- The style of what has the colour of its severity. -/
def style (s : Severity) : Style := ⟨some s.colour, true⟩

def header (s : Severity) (message : String) : Output :=
  .isolated
    [.setStyle s.style, .write (s.name ++ ": "), .setStyle ⟨none, true⟩, .write (message ++ "\n")]

def report (s : Severity) (message : String) : Output := s.header message ++ [.write "\n"]

end Severity

structure Tally where
  errors : Nat
  warnings : Nat
deriving DecidableEq, Repr

namespace Tally

def zero : Tally := ⟨0, 0⟩

def count (t : Tally) : Severity → Tally
  | .error => { t with errors := t.errors + 1 }
  | .warning => { t with warnings := t.warnings + 1 }

def errored (t : Tally) : Bool := decide (0 < t.errors)

/-- A number of things, in words if it is only one. -/
def amount (n : Nat) (one many : String) : String :=
  if n = 1 then one else toString n ++ " " ++ many

/-- The last line of a compilation. -/
def summary (t : Tally) : String :=
  if 0 < t.errors then "Compilation aborted due to " ++ amount t.errors "an error" "errors"
  else if 0 < t.warnings then
    "Compilation finished successfully with " ++ amount t.warnings "a warning" "warnings"
  else "Compilation finished successfully without warnings"

def summaryColour (t : Tally) : Colour := if 0 < t.errors then .red else .green

def statistics (t : Tally) : Output :=
  .isolated [.setStyle ⟨some t.summaryColour, true⟩, .write (t.summary ++ "\n")]

end Tally
end Frontend
