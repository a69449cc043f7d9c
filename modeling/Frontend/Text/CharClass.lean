/-!
# Character classes

MH is a small functional language.  Its lexical grammar speaks of six classes of characters.  Five
of them, the small and large letters, the digits, the symbolic characters and the whitespace
characters, share no character; the sixth, the newlines, is a part of the whitespace characters.

Letters and digits are the ASCII ones only, and the other classes are finite lists, so every
character outside ASCII is in no class at all.
-/

namespace Frontend

/-- The classes of characters that the lexical grammar tells apart. -/
inductive CharClass where
  | small
  | large
  | digit
  | symbolic
  | whitespace
  | newline
deriving DecidableEq, Repr

namespace CharClass

def symbols : List Char :=
  ['!', '#', '$', '%', '&', '*', '+', '.', '/', '<', '=', '>', '?', '@', '\\', '^', '|', '-', '~',
    ':']

/-- The characters that separate lexemes; `'\x0c'` is the form feed. -/
def blanks : List Char := [' ', '\t', '\r', '\n', '\x0c']

def lineEnds : List Char := ['\r', '\n']

def contains : CharClass → Char → Bool
  | small, c => c.isLower
  | large, c => c.isUpper
  | digit, c => c.isDigit
  | symbolic, c => symbols.contains c
  | whitespace, c => blanks.contains c
  | newline, c => lineEnds.contains c

def all : List CharClass := [small, large, digit, symbolic, whitespace, newline]

def classesOf (c : Char) : List CharClass := all.filter (·.contains c)

def name : CharClass → String
  | small => "small"
  | large => "large"
  | digit => "digit"
  | symbolic => "symbolic"
  | whitespace => "whitespace"
  | newline => "newline"

theorem mem_all (k : CharClass) : k ∈ all := by
  cases k <;> decide

@[simp] theorem mem_classesOf {k : CharClass} {c : Char} :
    k ∈ classesOf c ↔ k.contains c = true := by
  simp [classesOf, mem_all]

theorem small_eq (c : Char) :
    small.contains c = (decide (c.val ≥ 'a'.val) && decide (c.val ≤ 'z'.val)) := rfl

theorem large_eq (c : Char) :
    large.contains c = decide (c.val ≥ 'A'.val ∧ c.val ≤ 'Z'.val) := rfl

theorem digit_eq (c : Char) :
    digit.contains c = (decide (c.val ≥ '0'.val) && decide (c.val ≤ '9'.val)) := rfl

/-! ## No character is in two classes -/

theorem eq_symbolic_of_contains {k : CharClass} {c : Char} (hc : symbolic.contains c = true)
    (h : k.contains c = true) : k = symbolic := by
  have hall : (symbols.all fun c => classesOf c == [symbolic]) = true := by decide
  have hclasses : classesOf c = [symbolic] :=
    beq_iff_eq.mp (List.all_eq_true.mp hall c (List.contains_iff_mem.mp hc))
  have hk : k ∈ classesOf c := mem_classesOf.mpr h
  rwa [hclasses, List.mem_singleton] at hk

theorem eq_whitespace_of_contains {k : CharClass} (hk : k ≠ newline) {c : Char}
    (hc : whitespace.contains c = true) (h : k.contains c = true) : k = whitespace := by
  have hall : (blanks.all fun c => (classesOf c).all ([whitespace, newline].contains ·)) = true := by
    decide
  have hclasses := List.all_eq_true.mp hall c (List.contains_iff_mem.mp hc)
  have hmem := List.all_eq_true.mp hclasses k (mem_classesOf.mpr h)
  simpa [hk] using hmem

/-- Apart from the newlines, which are white space, the classes share no character. -/
theorem eq_of_contains {k k' : CharClass} (hk : k ≠ newline) (hk' : k' ≠ newline) {c : Char}
    (h : k.contains c = true) (h' : k'.contains c = true) : k = k' := by
  by_cases hsymbolic : k = symbolic ∨ k' = symbolic
  · rcases hsymbolic with rfl | rfl
    · exact (eq_symbolic_of_contains h h').symm
    · exact eq_symbolic_of_contains h' h
  by_cases hblank : k = whitespace ∨ k' = whitespace
  · rcases hblank with rfl | rfl
    · exact (eq_whitespace_of_contains hk' h h').symm
    · exact eq_whitespace_of_contains hk h' h
  -- the letters and digits are three ranges of code points
  cases k <;> cases k' <;> simp_all [small_eq, large_eq, digit_eq, UInt32.le_iff_toNat_le] <;>
    omega

end CharClass
end Frontend
