import Frontend.Source.Position

/-!
# Spans

A span is the stretch of a text that a lexeme was read from.  It is given by the position of its
first and the position of its last character, both of which belong to it, so no span is empty.

A span cuts its text out of the whole source with `Span.slice`.  Offsets count bytes, so the cut
goes through `splitBytes`, which refuses to cut a character in two; the last character of a span is
taken to be one byte long.
-/

namespace Frontend

structure Span where
  first : Position
  last : Position
  ordered : first ≤ last
deriving DecidableEq, Repr

namespace Span

def single (p : Position) : Span := ⟨p, p, p.le_refl⟩

/-- The span with the given ends, whichever of them comes first. -/
def between (p q : Position) : Span :=
  if h : p ≤ q then ⟨p, q, h⟩ else ⟨q, p, (Position.le_total p q).resolve_left h⟩

/-- The span of a non-empty text that starts at `p`. -/
def covering (p : Position) (text : List Char) : Span :=
  ⟨p, p.advanceOver text.dropLast, p.le_advanceOver _⟩

def isSingle (s : Span) : Bool := decide (s.first = s.last)

/-- Whether the span reaches into a later row than the one it starts on. -/
def isMultiline (s : Span) : Bool := decide (s.first.row ≠ s.last.row)

/-- The number of bytes from the first byte of the first character to the first byte of the last
one, both counted. -/
def size (s : Span) : Nat := s.last.offset - s.first.offset + 1

/-- The size of a span, if it is a word. -/
def size? (s : Span) : Option Nat := do
  let distance ← sub? s.last.offset s.first.offset
  add? distance 1

def render (s : Span) : String :=
  if s.isSingle then s.first.render else s.first.render ++ "-" ++ s.last.render

@[simp] theorem single_first (p : Position) : (single p).first = p := rfl

@[simp] theorem single_last (p : Position) : (single p).last = p := rfl

@[simp] theorem covering_first (p : Position) (text : List Char) :
    (covering p text).first = p := rfl

@[simp] theorem covering_last (p : Position) (text : List Char) :
    (covering p text).last = p.advanceOver text.dropLast := rfl

theorem between_of_le {p q : Position} (h : p ≤ q) : between p q = ⟨p, q, h⟩ := dif_pos h

theorem between_self (p : Position) : between p p = single p := between_of_le p.le_refl

theorem size_pos (s : Span) : 0 < s.size := Nat.succ_pos _

/-! ## Cutting text out -/

/-- Cuts a text after `n` bytes, unless it is shorter or `n` falls inside a character. -/
def splitBytes : Nat → List Char → Option (List Char × List Char)
  | 0, cs => some ([], cs)
  | _ + 1, [] => none
  | n + 1, c :: cs =>
    if c.utf8Size ≤ n + 1 then
      (splitBytes (n + 1 - c.utf8Size) cs).map fun (before, after) => (c :: before, after)
    else none

def slice (s : Span) (source : List Char) : Option (List Char) := do
  let (_, rest) ← splitBytes s.first.offset source
  let (text, _) ← splitBytes s.size rest
  some text

/-- A text can be cut after any of its beginnings. -/
theorem splitBytes_append (before after : List Char) :
    splitBytes (byteLength before) (before ++ after) = some (before, after) := by
  induction before with
  | nil => simp [splitBytes]
  | cons c cs ih =>
    have hc := c.utf8Size_pos
    obtain ⟨n, hn⟩ : ∃ n, byteLength (c :: cs) = n + 1 :=
      ⟨_, (Nat.succ_pred_eq_of_pos (by simp; omega)).symm⟩
    have hrest : n + 1 - c.utf8Size = byteLength cs := by
      simp at hn; omega
    rw [hn, List.cons_append, splitBytes, if_pos (by simp at hn; omega), hrest, ih]
    rfl

end Span

/-! ## Values with a span -/

/-- A value together with the stretch of the source it was read from. -/
structure Located (α : Type) where
  span : Span
  value : α
deriving DecidableEq, Repr

namespace Located

variable {α β : Type}

def map (f : α → β) (x : Located α) : Located β := ⟨x.span, f x.value⟩

/-- Whether two values are the same, wherever they were read. -/
def sameValue [BEq α] (x y : Located α) : Bool := x.value == y.value

def render (text : α → String) (x : Located α) : String := text x.value ++ " at " ++ x.span.render

@[simp] theorem map_span (f : α → β) (x : Located α) : (x.map f).span = x.span := rfl

@[simp] theorem map_value (f : α → β) (x : Located α) : (x.map f).value = f x.value := rfl

end Located
end Frontend
