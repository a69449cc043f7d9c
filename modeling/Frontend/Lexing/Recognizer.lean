import Frontend.Lexing.Lexeme
import Frontend.Text.CharClass

/-!
# Recognizers

A recognizer is a finite automaton for the lexemes of one class.  Its states are numbers and it
starts in state zero.  One of its states is dead: no accepting state can be reached from it, and it
is never left.  Every number that is no state of a recognizer leads to the dead state as well, so
`Recognizer.next` is defined everywhere.

In the usual notation the recognizers accept

```text
identifier   small (small + large + digit + ')*
numeral      0 + nonZeroDigit digit*
boolean      True + False
operator     symbolic symbolic*
blank        whitespace whitespace*
comment      - - -* (ε + nonSymbolicNonNewline nonNewline* (ε + newline))
literal t    t
```

A numeral is either a lone zero, state one, or a run of digits, state two, and only the latter can
be extended.  The two booleans share their last letter: `Tru` and `Fals` lead to the same state.  A
comment swallows the newline that ends its text, in state four, but a newline right after the dashes
does not belong to it.  A literal is in state `n` after its first `n` characters.
-/

namespace Frontend

open CharClass

inductive Recognizer where
  | identifier
  | numeral
  | boolean
  | operator
  | blank
  | comment
  | literal (text : List Char) (nonempty : text ≠ [])
deriving DecidableEq, Repr

namespace Recognizer

def tokenClass : Recognizer → TokenClass
  | identifier => .identifier
  | numeral => .numeral
  | boolean => .boolean
  | operator => .operator
  | blank => .discarded
  | comment => .discarded
  | literal text _ => .literal text

def stateCount : Recognizer → Nat
  | identifier => 3
  | numeral => 4
  | boolean => 9
  | operator => 3
  | blank => 3
  | comment => 6
  | literal text _ => text.length + 2

/-- The state from which nothing is accepted any more. -/
def dead : Recognizer → Nat
  | identifier => 2
  | numeral => 3
  | boolean => 8
  | operator => 2
  | blank => 2
  | comment => 5
  | literal text _ => text.length + 1

def continuesIdentifier (c : Char) : Bool :=
  small.contains c || large.contains c || digit.contains c || c == '\''

def opensCommentText (c : Char) : Bool := !symbolic.contains c && !newline.contains c

def next (r : Recognizer) (state : Nat) (c : Char) : Nat :=
  match r with
  | identifier =>
    match state with
    | 0 => if small.contains c then 1 else 2
    | 1 => if continuesIdentifier c then 1 else 2
    | _ => 2
  | numeral =>
    match state with
    | 0 => if c = '0' then 1 else if digit.contains c then 2 else 3
    | 2 => if digit.contains c then 2 else 3
    | _ => 3
  | boolean =>
    match state with
    | 0 => if c = 'T' then 1 else if c = 'F' then 5 else 8
    | 1 => if c = 'r' then 2 else 8
    | 2 => if c = 'u' then 3 else 8
    | 3 => if c = 'e' then 4 else 8
    | 5 => if c = 'a' then 6 else 8
    | 6 => if c = 'l' then 7 else 8
    | 7 => if c = 's' then 3 else 8
    | _ => 8
  | operator =>
    match state with
    | 0 | 1 => if symbolic.contains c then 1 else 2
    | _ => 2
  | blank =>
    match state with
    | 0 | 1 => if whitespace.contains c then 1 else 2
    | _ => 2
  | comment =>
    match state with
    | 0 => if c = '-' then 1 else 5
    | 1 => if c = '-' then 2 else 5
    | 2 => if c = '-' then 2 else if opensCommentText c then 3 else 5
    | 3 => if newline.contains c then 4 else 3
    | _ => 5
  | literal text _ => if text[state]? = some c then state + 1 else text.length + 1

def isAccepting : Recognizer → Nat → Bool
  | identifier, state => state == 1
  | numeral, state => state == 1 || state == 2
  | boolean, state => state == 4
  | operator, state => state == 1
  | blank, state => state == 1
  | comment, state => state == 2 || state == 3 || state == 4
  | literal text _, state => state == text.length

def isDead (r : Recognizer) (state : Nat) : Bool := state == r.dead

def isDiscarded (r : Recognizer) : Bool := decide (r.tokenClass = .discarded)

/-- The state after reading a text from a given state. -/
def runFrom (r : Recognizer) (state : Nat) (w : List Char) : Nat := w.foldl r.next state

def run (r : Recognizer) (w : List Char) : Nat := r.runFrom 0 w

def accepts (r : Recognizer) (w : List Char) : Bool := r.isAccepting (r.run w)

/-- All states passed through while reading a text from a given state, that state included. -/
def trace (r : Recognizer) (state : Nat) : List Char → List Nat
  | [] => [state]
  | c :: cs => state :: trace r (r.next state c) cs

/-! ## Runs -/

@[simp] theorem runFrom_nil (r : Recognizer) (state : Nat) : r.runFrom state [] = state := rfl

@[simp] theorem runFrom_cons (r : Recognizer) (state : Nat) (c : Char) (cs : List Char) :
    r.runFrom state (c :: cs) = r.runFrom (r.next state c) cs := rfl

theorem runFrom_append (r : Recognizer) (state : Nat) (v w : List Char) :
    r.runFrom state (v ++ w) = r.runFrom (r.runFrom state v) w := by
  simp [runFrom]

/-! ## The dead state -/

theorem next_lt_stateCount (r : Recognizer) (state : Nat) (c : Char) :
    r.next state c < r.stateCount := by
  cases r with
  | literal text =>
    simp only [next, stateCount]
    split
    · next h => have := (List.getElem?_eq_some_iff.mp h).1; omega
    · omega
  | _ => simp only [next, stateCount]; (repeat' split) <;> omega

theorem runFrom_lt_stateCount {r : Recognizer} {state : Nat} (h : state < r.stateCount)
    (w : List Char) : r.runFrom state w < r.stateCount := by
  induction w generalizing state with
  | nil => exact h
  | cons c cs ih => exact ih (r.next_lt_stateCount state c)

theorem run_lt_stateCount (r : Recognizer) (w : List Char) : r.run w < r.stateCount :=
  runFrom_lt_stateCount (Nat.zero_lt_of_lt (r.next_lt_stateCount 0 ' ')) w

theorem next_dead (r : Recognizer) (c : Char) : r.next r.dead c = r.dead := by
  cases r <;> simp [next, dead]

theorem isAccepting_dead (r : Recognizer) : r.isAccepting r.dead = false := by
  cases r <;> simp [isAccepting, dead]

theorem runFrom_dead (r : Recognizer) (w : List Char) : r.runFrom r.dead w = r.dead := by
  induction w with
  | nil => rfl
  | cons c cs ih => rw [runFrom_cons, next_dead, ih]

theorem isAccepting_zero (r : Recognizer) : r.isAccepting 0 = false := by
  cases r <;> simp [isAccepting]
  rename_i h
  exact fun h' => h (List.eq_nil_of_length_eq_zero h'.symm)

theorem isDead_zero (r : Recognizer) : r.isDead 0 = false := by
  cases r <;> rfl

theorem ne_nil_of_accepts {r : Recognizer} {w : List Char} (h : r.accepts w = true) : w ≠ [] := by
  rintro rfl
  rw [accepts, run, runFrom_nil, isAccepting_zero] at h
  contradiction

end Recognizer

/-! ## The recognizers of MH -/

/-- The recognizers of MH, those that win a tie first: a keyword is no identifier and a run of
dashes no operator. -/
def mhRecognizers : List Recognizer :=
  [ .literal ['I', 'n', 't', 'e', 'g', 'e', 'r'] (by simp),
    .literal ['B', 'o', 'o', 'l'] (by simp),
    .literal ['i', 'f'] (by simp),
    .literal ['t', 'h', 'e', 'n'] (by simp),
    .literal ['e', 'l', 's', 'e'] (by simp),
    .literal ['('] (by simp),
    .literal [')'] (by simp),
    .literal [';'] (by simp),
    .identifier,
    .blank,
    .comment,
    .operator,
    .numeral,
    .boolean ]

/-- Only the discarded class has several recognizers. -/
theorem eq_of_tokenClass_eq : ∀ r ∈ mhRecognizers, ∀ r' ∈ mhRecognizers,
    r.tokenClass = r'.tokenClass → r.tokenClass ≠ .discarded → r = r' := by
  decide

end Frontend
