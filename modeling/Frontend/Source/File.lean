import Frontend.Source.Position

/-!
# Source files

A source file is a text of ASCII characters.  `SourceFile.ofBytes` makes one from bytes and refuses
the first byte that is not ASCII.

Messages quote the line an offset is on, but never more than a fixed number of characters to either
side of the offset.  `LinePart.back` looks for the part of the line before the offset and
`LinePart.ahead` for the part after it; a newline belongs to the line it ends.  A part is marked as
cut when no line end was found within the limit and there is more text beyond it.
-/

namespace Frontend

/-- A part of a line, found by looking a limited number of characters in one direction. -/
structure LinePart where
  text : List Char
  /-- Whether the limit was reached before the end of the line. -/
  cut : Bool
deriving DecidableEq, Repr

namespace LinePart

/-- The end of `before` that belongs to the same line as what follows it. -/
def back (limit : Nat) (before : List Char) : LinePart :=
  let window := before.drop (before.length - limit)
  { text := (window.reverse.takeWhile (· ≠ '\n')).reverse
    cut := !window.contains '\n' && decide (limit < before.length) }

/-- The start of `after` that belongs to its first line. -/
def ahead (limit : Nat) (after : List Char) : LinePart :=
  let window := after.take limit
  { text := window.takeWhile (· ≠ '\n')
    cut := !window.contains '\n' && decide (limit < after.length) }

/-- Where the line of an offset starts, and whether it is cut there. -/
def start? (text : List Char) (o limit : Nat) : Option (Nat × Bool) := do
  let window ← slice? text (o - limit) o
  match window.reverse.idxOf? '\n' with
  | some k => (sub? o k).map (·, false)
  | none => some (o - limit, decide (0 < o - limit))

/-- Where the line of an offset ends, and whether it is cut there. -/
def stop? (text : List Char) (o limit : Nat) : Option (Nat × Bool) := do
  -- unlike the difference in `start?`, the sum is taken first and cut to the text afterwards
  let upper ← add? o limit
  let window ← slice? text o (min upper text.length)
  match window.idxOf? '\n' with
  | some k => (add? o k).map (·, false)
  | none => some (min upper text.length, decide (upper < text.length))

private theorem newline_notMem_takeWhile (cs : List Char) : '\n' ∉ cs.takeWhile (· ≠ '\n') := by
  intro h
  simpa using List.all_eq_true.mp (List.all_takeWhile (l := cs) (p := (· ≠ '\n'))) _ h

theorem newline_notMem_back (limit : Nat) (before : List Char) :
    '\n' ∉ (back limit before).text := by
  simpa [back] using newline_notMem_takeWhile _

theorem newline_notMem_ahead (limit : Nat) (after : List Char) :
    '\n' ∉ (ahead limit after).text := newline_notMem_takeWhile _

end LinePart

/-! ## Files -/

/-- How many characters before a byte that is not ASCII a message quotes. -/
def encodingErrorContext : Nat := 80

structure EncodingError where
  /-- The number of bytes before the offending one. -/
  offset : Nat
  /-- The quoted text, with an ellipsis where it was cut. -/
  quoted : String
deriving DecidableEq, Repr

namespace EncodingError

def after (before : List Char) : EncodingError :=
  let part := LinePart.back encodingErrorContext before
  { offset := before.length
    quoted := (if part.cut then "..." else "") ++ String.ofList part.text }

def message (e : EncodingError) : String :=
  "non-ASCII byte at offset " ++ toString e.offset ++ " (after \"" ++ e.quoted ++ "\")"

end EncodingError

/-- A source text of ASCII characters. -/
structure SourceFile where
  chars : List Char
  ascii : ∀ c ∈ chars, c.toNat < 128
deriving DecidableEq

structure Excerpt where
  cutBefore : Bool
  text : List Char
  cutAfter : Bool
deriving DecidableEq, Repr

namespace SourceFile

def isAsciiByte (b : UInt8) : Bool := decide (b.toNat < 128)

def charOfByte (b : UInt8) : Char := Char.ofNat b.toNat

theorem toNat_charOfByte (b : UInt8) : (charOfByte b).toNat = b.toNat := by
  have hb := b.toNat_lt
  have hv : b.toNat.isValidChar := Or.inl (by omega)
  rw [charOfByte, Char.ofNat, dif_pos hv]
  rfl

/-- Reads a file, all of whose bytes have to be ASCII. -/
def ofBytes (bytes : List UInt8) : Except EncodingError SourceFile :=
  if h : bytes.all isAsciiByte = true then
    .ok
      { chars := bytes.map charOfByte
        ascii := by
          intro c hc
          obtain ⟨b, hb, rfl⟩ := List.mem_map.mp hc
          simpa [toNat_charOfByte, isAsciiByte] using List.all_eq_true.mp h b hb }
  else .error (.after ((bytes.takeWhile isAsciiByte).map charOfByte))

/-- The line at a position, with at most `limit` characters to either side of it.  Only the offset
of the position counts, and one beyond the end of the file stands for the end.  This is what
`lineAt?` finds, where it finds a line. -/
def lineAt (file : SourceFile) (p : Position) (limit : Nat) : Excerpt :=
  let before := LinePart.back limit (file.chars.take p.offset)
  let after := LinePart.ahead limit (file.chars.drop p.offset)
  { cutBefore := before.cut, text := before.text ++ after.text, cutAfter := after.cut }

/-- The line at a position, as it is found from the offset and the limit. -/
def lineAt? (file : SourceFile) (p : Position) (limit : Nat) : Option Excerpt := do
  let o := min p.offset file.chars.length
  let (start, cutBefore) ← LinePart.start? file.chars o limit
  let (stop, cutAfter) ← LinePart.stop? file.chars o limit
  let text ← slice? file.chars start stop
  some ⟨cutBefore, text, cutAfter⟩

theorem newline_notMem_lineAt (file : SourceFile) (p : Position) (limit : Nat) :
    '\n' ∉ (file.lineAt p limit).text := by
  simp [lineAt, LinePart.newline_notMem_back, LinePart.newline_notMem_ahead]

theorem isAsciiByte_iff {b : UInt8} : isAsciiByte b = true ↔ b.toNat < 128 := decide_eq_true_iff

theorem ofBytes_isOk_iff {bytes : List UInt8} :
    (∃ file, ofBytes bytes = .ok file) ↔ ∀ b ∈ bytes, b.toNat < 128 := by
  simp only [← isAsciiByte_iff, ← List.all_eq_true]
  by_cases h : bytes.all isAsciiByte = true
  · rw [ofBytes, dif_pos h]
    exact ⟨fun _ => h, fun _ => ⟨_, rfl⟩⟩
  · rw [ofBytes, dif_neg h]
    exact ⟨fun ⟨_, h'⟩ => absurd h' (by simp), fun h' => absurd h' h⟩

end SourceFile
end Frontend
