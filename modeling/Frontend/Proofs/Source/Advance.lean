import Frontend.Source.Position
import Mathlib.Data.List.DropRight

/-!
# Where a text ends

Positions are found by walking over a text one character at a time.  `Position.past` says what the
walk from the start of a file over a whole text comes to, without a walk: the offset is the size of
the text in UTF-8, the row the number of its newlines, and the column the number of characters after
the last of them.
-/

namespace Frontend

theorem byteLength_eq_utf8ByteSize (text : List Char) :
    byteLength text = (String.ofList text).utf8ByteSize := by
  induction text with
  | nil => simp
  | cons c text ih =>
      have hsplit : String.ofList (c :: text) = String.singleton c ++ String.ofList text := by
        rw [String.singleton_eq_ofList, ← String.ofList_append, List.singleton_append]
      calc byteLength (c :: text)
          = c.utf8Size + (String.ofList text).utf8ByteSize := by rw [byteLength_cons, ih]
        _ = (String.ofList (c :: text)).utf8ByteSize := by
          rw [hsplit, String.utf8ByteSize_append, String.utf8ByteSize_singleton]

/-- The characters of a single byte are the ASCII characters. -/
theorem utf8Size_eq_one_iff_ascii {c : Char} : c.utf8Size = 1 ↔ c.toNat < 128 := by
  rw [Char.utf8Size_eq_one_iff, UInt32.le_iff_toNat_le]
  exact Nat.lt_succ_iff.symm

namespace Position

/-- The position of the character after a text that a file starts with. -/
def past (text : List Char) : Position :=
  { offset := (String.ofList text).utf8ByteSize
    row := text.count '\n'
    col := (text.rtakeWhile (· ≠ '\n')).length }

theorem advance_past (text : List Char) (c : Char) :
    (past text).advance c = past (text ++ [c]) := by
  have hoffset : (String.ofList (text ++ [c])).utf8ByteSize =
      (String.ofList text).utf8ByteSize + c.utf8Size := by
    simp only [← byteLength_eq_utf8ByteSize, byteLength_append, byteLength_cons, byteLength_nil,
      Nat.add_zero]
  simp only [advance, past, hoffset]
  -- behind a newline no character of the row is left to count
  by_cases hc : c = '\n'
  · subst hc
    rw [if_pos rfl, List.rtakeWhile_concat_neg _ _ _ (by simp)]
    simp
  · rw [if_neg hc, List.rtakeWhile_concat_pos _ _ _ (by simpa using hc)]
    simp [hc]

/-- Walking over a text from the start of a file ends past that text. -/
theorem advanceOver_start (text : List Char) : start.advanceOver text = past text := by
  induction text using List.reverseRecOn with
  | nil => simp [past, start]
  | append_singleton text c ih =>
      calc start.advanceOver (text ++ [c])
          = (start.advanceOver text).advance c := advanceOver_append start text [c]
        _ = (past text).advance c := by rw [ih]
        _ = past (text ++ [c]) := advance_past text c

end Position
end Frontend
