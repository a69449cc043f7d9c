/-!
# Words

Offsets, rows, columns and widths are machine words.  Where they are computed from one another the
result need not be a word: a sum can be too large for one, and a difference can be negative.  The
operations `add?` and `sub?` have no result then, and `slice?` has none for a piece that reaches over
the end of a text.

What is computed of a place in a text is given twice.  A definition with a question mark goes the way
of these operations, and whoever cannot tell where a place comes from has to use that one.  The
definition without the mark is what it comes to if all sums are words.
-/

namespace Frontend

/-- How many words there are. -/
def wordSize : Nat := UInt64.size

/-- A number as a word, if it is not too large. -/
def word? (n : Nat) : Option Nat := if n < wordSize then some n else none

def add? (a b : Nat) : Option Nat := word? (a + b)

def sub? (a b : Nat) : Option Nat := if b ≤ a then some (a - b) else none

/-- The piece of a text from one place to another, if they are in order and within the text. -/
def slice? (text : List Char) (i j : Nat) : Option (List Char) :=
  if i ≤ j ∧ j ≤ text.length then some ((text.take j).drop i) else none

theorem word?_of_lt {n : Nat} (h : n < wordSize) : word? n = some n := if_pos h

theorem word?_of_le {n : Nat} (h : wordSize ≤ n) : word? n = none := if_neg (Nat.not_lt.mpr h)

theorem sub?_of_le {a b : Nat} (h : b ≤ a) : sub? a b = some (a - b) := if_pos h

theorem slice?_of_le {text : List Char} {i j : Nat} (hij : i ≤ j) (hj : j ≤ text.length) :
    slice? text i j = some ((text.take j).drop i) :=
  if_pos ⟨hij, hj⟩

end Frontend
