/-!
# Two properties of Unicode characters

The white space characters are those with the property `White_Space`, the control characters those
of the general category `Cc`.  Both sets are small and fixed, so they are written down as ranges of
code points.
-/

namespace Frontend.Unicode

/-- A range of code points, both ends included. -/
structure CodeRange where
  first : Nat
  last : Nat
deriving DecidableEq, Repr

def CodeRange.contains (r : CodeRange) (c : Char) : Bool :=
  decide (r.first ≤ c.toNat ∧ c.toNat ≤ r.last)

/-- The characters with the property `White_Space`. -/
def whiteSpaceRanges : List CodeRange :=
  [⟨0x9, 0xd⟩, ⟨0x20, 0x20⟩, ⟨0x85, 0x85⟩, ⟨0xa0, 0xa0⟩, ⟨0x1680, 0x1680⟩, ⟨0x2000, 0x200a⟩,
    ⟨0x2028, 0x2029⟩, ⟨0x202f, 0x202f⟩, ⟨0x205f, 0x205f⟩, ⟨0x3000, 0x3000⟩]

/-- The characters of the general category `Cc`. -/
def controlRanges : List CodeRange := [⟨0x0, 0x1f⟩, ⟨0x7f, 0x9f⟩]

def isWhiteSpace (c : Char) : Bool := whiteSpaceRanges.any (·.contains c)

def isControl (c : Char) : Bool := controlRanges.any (·.contains c)

theorem isControl_iff {c : Char} :
    isControl c = true ↔ c.toNat ≤ 0x1f ∨ 0x7f ≤ c.toNat ∧ c.toNat ≤ 0x9f := by
  simp [isControl, controlRanges, CodeRange.contains]

end Frontend.Unicode
