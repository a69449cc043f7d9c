import Frontend.Source.Word

/-!
# Positions

A position names a character of a source text in two ways at once: by the number of bytes before it
in the UTF-8 encoding, and by its row and its column.  All three count from zero.  The text of a
position, as it appears in messages, is the row and the column counted from one.

Positions arise by walking over a text from its start with `Position.advance`; `advanceOver` walks
over several characters.  They are ordered by offset first, then by row, then by column.
-/

namespace Frontend

/-- The number of bytes of a text in the UTF-8 encoding. -/
def byteLength : List Char → Nat
  | [] => 0
  | c :: cs => c.utf8Size + byteLength cs

@[simp] theorem byteLength_nil : byteLength [] = 0 := rfl

@[simp] theorem byteLength_cons (c : Char) (cs : List Char) :
    byteLength (c :: cs) = c.utf8Size + byteLength cs := rfl

theorem byteLength_append (cs ds : List Char) :
    byteLength (cs ++ ds) = byteLength cs + byteLength ds := by
  induction cs with
  | nil => simp
  | cons c cs ih => simp [ih, Nat.add_assoc]

structure Position where
  offset : Nat
  row : Nat
  col : Nat
deriving DecidableEq, Repr

namespace Position

def start : Position := ⟨0, 0, 0⟩

/-- The position after `c`, if `c` stands at `p`. -/
def advance (p : Position) (c : Char) : Position :=
  if c = '\n' then ⟨p.offset + c.utf8Size, p.row + 1, 0⟩
  else ⟨p.offset + c.utf8Size, p.row, p.col + 1⟩

/-- The position after the text `cs`, if `cs` starts at `p`. -/
def advanceOver (p : Position) (cs : List Char) : Position := cs.foldl advance p

def line (p : Position) : Nat := p.row + 1

/-- The number of the line, if it is a word. -/
def line? (p : Position) : Option Nat := add? p.row 1

def render (p : Position) : String := toString p.line ++ ":" ++ toString (p.col + 1)

/-! ## Walking over a text -/

@[simp] theorem advanceOver_nil (p : Position) : p.advanceOver [] = p := rfl

@[simp] theorem advanceOver_cons (p : Position) (c : Char) (cs : List Char) :
    p.advanceOver (c :: cs) = (p.advance c).advanceOver cs := rfl

theorem advanceOver_append (p : Position) (cs ds : List Char) :
    p.advanceOver (cs ++ ds) = (p.advanceOver cs).advanceOver ds := by
  simp [advanceOver]

@[simp] theorem offset_advance (p : Position) (c : Char) :
    (p.advance c).offset = p.offset + c.utf8Size := by
  unfold advance; split <;> rfl

theorem offset_advanceOver (p : Position) (cs : List Char) :
    (p.advanceOver cs).offset = p.offset + byteLength cs := by
  induction cs generalizing p with
  | nil => simp
  | cons c cs ih => simp [ih, Nat.add_assoc]

/-! ## The order -/

/-- Positions are compared by offset, then by row, then by column. -/
protected def Le (p q : Position) : Prop :=
  p.offset < q.offset ∨
    p.offset = q.offset ∧ (p.row < q.row ∨ p.row = q.row ∧ p.col ≤ q.col)

instance : LE Position := ⟨Position.Le⟩

theorem le_iff {p q : Position} : p ≤ q ↔ p.offset < q.offset ∨
    p.offset = q.offset ∧ (p.row < q.row ∨ p.row = q.row ∧ p.col ≤ q.col) := Iff.rfl

instance (p q : Position) : Decidable (p ≤ q) := decidable_of_iff' _ le_iff

protected theorem le_refl (p : Position) : p ≤ p := by
  simp [le_iff]

protected theorem le_trans {p q r : Position} (hpq : p ≤ q) (hqr : q ≤ r) : p ≤ r := by
  rw [le_iff] at *; omega

protected theorem le_total (p q : Position) : p ≤ q ∨ q ≤ p := by
  simp only [le_iff]; omega

theorem offset_le_of_le {p q : Position} (h : p ≤ q) : p.offset ≤ q.offset := by
  rw [le_iff] at h; omega

theorem le_advance (p : Position) (c : Char) : p ≤ p.advance c := by
  have := c.utf8Size_pos
  exact le_iff.mpr (Or.inl (by simp; omega))

theorem le_advanceOver (p : Position) (cs : List Char) : p ≤ p.advanceOver cs := by
  induction cs generalizing p with
  | nil => exact p.le_refl
  | cons c cs ih => exact Position.le_trans (p.le_advance c) (ih _)

end Position
end Frontend
