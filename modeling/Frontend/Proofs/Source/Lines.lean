import Frontend.Proofs.Source.Truncation
import Mathlib.Algebra.GroupWithZero.Nat

/-!
# Rows and lines

The rows of a file are found in three ways.  A position counts newlines while it walks over the text
from the start; a quoted line is what lies between the newlines on either side of an offset; and the
whole text can be cut at all of its newlines at once.  They agree (`lineAt_eq_line_of_row`): if
nothing is left out, the line that is quoted for a place is the one whose number the row says, and
the column counts the characters of it that stand before the place.

Nothing is left out if the limit is as large as the file, but it must not be too large either.  A
limit that is meant to be none at all, the largest word, only serves for the first character of a
file; anywhere else the line is not found (`lineAt_with_largest_limit`).

For a text that is put together of two parts this comes down to where the cut between the two falls
(`exists_splitOn_append`).  The lines before it are those of the first part, the last of which goes
on with the first line of the second part.
-/

namespace Frontend

/-- How many characters stand before the line with a certain number: all lines before it, each with
the newline that ends it. -/
def lineOffset (lines : List (List Char)) (i : ℕ) : ℕ := ((lines.take i).map (·.length + 1)).sum

theorem lineOffset_length (earlier later : List (List Char)) :
    lineOffset (earlier ++ later) earlier.length = (earlier.map (·.length + 1)).sum := by
  rw [lineOffset, List.take_left]

/-! ## Cutting a text at its newlines -/

section

variable {before after : List Char}

theorem exists_lines_cons {c : Char} (hc : c ≠ '\n') (text : List Char) :
    ∃ line lines, text.splitOn '\n' = line :: lines ∧
      (c :: text).splitOn '\n' = (c :: line) :: lines := by
  obtain ⟨line, lines, hlines⟩ := List.exists_cons_of_ne_nil (List.splitOn_ne_nil '\n' text)
  refine ⟨line, lines, hlines, ?_⟩
  rw [List.splitOn_eq_splitOnP] at hlines ⊢
  rw [List.splitOnP_cons_eq_if_modifyHead, if_neg (by simpa using hc), hlines]
  rfl

theorem splitOn_newline_cons (text : List Char) :
    ('\n' :: text).splitOn '\n' = [] :: text.splitOn '\n' :=
  List.splitOn_append_cons_self [] text

theorem length_splitOn (text : List Char) :
    (text.splitOn '\n').length = text.count '\n' + 1 := by
  induction text with
  | nil => rfl
  | cons c text ih =>
      by_cases hc : c = '\n'
      · subst hc
        rw [splitOn_newline_cons, List.length_cons, ih, List.count_cons_self]
      · obtain ⟨line, lines, hlines, hcons⟩ := exists_lines_cons hc text
        rw [hcons, List.length_cons, List.count_cons_of_ne hc, ← ih, hlines, List.length_cons]

/-- The lines are the whole text, if a newline is added at its end. -/
theorem sum_length_splitOn (text : List Char) :
    ((text.splitOn '\n').map (·.length + 1)).sum = text.length + 1 := by
  induction text with
  | nil => rfl
  | cons c text ih =>
      by_cases hc : c = '\n'
      · subst hc
        rw [splitOn_newline_cons, List.map_cons, List.sum_cons, ih, List.length_cons]
        exact Nat.add_comm 1 _
      · obtain ⟨line, lines, hlines, hcons⟩ := exists_lines_cons hc text
        rw [hlines, List.map_cons, List.sum_cons] at ih
        rw [hcons, List.map_cons, List.sum_cons, List.length_cons, List.length_cons]
        omega

/-- A text that has a newline goes on with it behind its first line. -/
theorem exists_eq_takeWhile_append (h : '\n' ∈ after) :
    ∃ rest, after = after.takeWhile (· ≠ '\n') ++ '\n' :: rest := by
  obtain ⟨row, rest, rfl, hrow⟩ := List.eq_append_cons_of_mem h
  have hall : ∀ c ∈ row, decide (c ≠ '\n') = true := by
    intro c hc
    simpa using ne_of_mem_of_not_mem hc hrow
  refine ⟨rest, ?_⟩
  rw [List.takeWhile_append_of_pos hall, List.takeWhile_cons_of_neg (by simp), List.append_nil]

theorem exists_eq_append_rtakeWhile (h : '\n' ∈ before) :
    ∃ start, before = start ++ '\n' :: before.rtakeWhile (· ≠ '\n') := by
  obtain ⟨rest, hrest⟩ := exists_eq_takeWhile_append (List.mem_reverse.mpr h)
  refine ⟨rest.reverse, ?_⟩
  have hreverse := congrArg List.reverse hrest
  rw [List.reverse_reverse, List.reverse_append, List.reverse_cons, List.append_assoc] at hreverse
  exact hreverse

theorem newline_notMem_rtakeWhile : '\n' ∉ before.rtakeWhile (· ≠ '\n') := by
  intro h
  simpa using List.mem_rtakeWhile_imp h

/-- The first line of a text that starts with a part of a line. -/
theorem exists_splitOn_row_append {row : List Char} (hrow : '\n' ∉ row) (after : List Char) :
    ∃ later, (row ++ after).splitOn '\n' = (row ++ after.takeWhile (· ≠ '\n')) :: later := by
  have hline : '\n' ∉ row ++ after.takeWhile (· ≠ '\n') := by
    rw [List.mem_append, not_or]
    exact ⟨hrow, fun h => by simpa using List.mem_takeWhile_imp h⟩
  by_cases hafter : '\n' ∈ after
  · obtain ⟨rest, hrest⟩ := exists_eq_takeWhile_append hafter
    refine ⟨rest.splitOn '\n', ?_⟩
    conv_lhs => rw [hrest]
    rw [← List.append_assoc, List.splitOn_append_cons_self, List.splitOn_eq_singleton hline,
      List.singleton_append]
  · rw [takeWhile_of_newline_notMem hafter] at hline ⊢
    exact ⟨[], List.splitOn_eq_singleton hline⟩

/-- **The line that a text is cut in two on.**  There are as many lines before it as newlines in the
first part, and together with the start of the line they make up the first part. -/
theorem exists_splitOn_append (before after : List Char) :
    ∃ earlier later, (before ++ after).splitOn '\n' =
        earlier ++ (before.rtakeWhile (· ≠ '\n') ++ after.takeWhile (· ≠ '\n')) :: later ∧
      earlier.length = before.count '\n' ∧
      (earlier.map (·.length + 1)).sum + (before.rtakeWhile (· ≠ '\n')).length =
        before.length := by
  have hrow : '\n' ∉ before.rtakeWhile (· ≠ '\n') := newline_notMem_rtakeWhile
  obtain ⟨later, hlater⟩ := exists_splitOn_row_append hrow after
  by_cases hbefore : '\n' ∈ before
  · -- the last newline of the first part ends the lines before
    obtain ⟨start, hstart⟩ := exists_eq_append_rtakeWhile hbefore
    have hcount : before.count '\n' = start.count '\n' + 1 := by
      conv_lhs => rw [hstart]
      rw [List.count_append, List.count_cons_self, List.count_eq_zero.mpr hrow]
    have hlength := congrArg List.length hstart
    rw [List.length_append, List.length_cons] at hlength
    refine ⟨start.splitOn '\n', later, ?_, ?_, ?_⟩
    · conv_lhs => rw [hstart]
      rw [List.append_assoc, List.cons_append, List.splitOn_append_cons_self, hlater]
    · rw [length_splitOn, hcount]
    · rw [sum_length_splitOn]
      omega
  · -- the cut is on the first line
    have hall : before.rtakeWhile (· ≠ '\n') = before := by
      rw [List.rtakeWhile, takeWhile_of_newline_notMem (mt List.mem_reverse.mp hbefore),
        List.reverse_reverse]
    rw [hall] at hlater ⊢
    refine ⟨[], later, hlater, ?_, ?_⟩
    · rw [List.count_eq_zero.mpr hbefore, List.length_nil]
    · simp

end

/-! ## Lines that are quoted in full -/

namespace LinePart

variable {limit : ℕ} {before after : List Char}

theorem back_of_length_le (h : before.length ≤ limit) :
    back limit before = ⟨before.rtakeWhile (· ≠ '\n'), false⟩ := by
  have hlength := (List.rtakeWhile_suffix (· ≠ '\n') before).length_le
  rw [LinePart.mk.injEq]
  constructor
  · rw [text_back, List.rtake, Nat.sub_eq_zero_of_le (hlength.trans h), List.drop_zero]
  · simp [back, Nat.not_lt.mpr h]

theorem ahead_of_length_le (h : after.length ≤ limit) :
    ahead limit after = ⟨after.takeWhile (· ≠ '\n'), false⟩ := by
  have hlength := (List.takeWhile_prefix (· ≠ '\n') (l := after)).length_le
  rw [LinePart.mk.injEq]
  constructor
  · rw [text_ahead, List.take_of_length_le (hlength.trans h)]
  · simp [ahead, Nat.not_lt.mpr h]

end LinePart

namespace SourceFile

/-- The lines of a file, without the newlines that end them. -/
def lines (file : SourceFile) : List (List Char) := file.chars.splitOn '\n'

theorem lineAt_of_length_le (file : SourceFile) {i limit : ℕ} (hi : i ≤ file.chars.length)
    (hlimit : file.chars.length ≤ limit) :
    file.lineAt (file.positionAt i) limit =
      ⟨false, (file.chars.take i).rtakeWhile (· ≠ '\n') ++
        (file.chars.drop i).takeWhile (· ≠ '\n'), false⟩ := by
  have hbefore : (file.chars.take i).length ≤ limit := (List.length_take_le' ..).trans hlimit
  have hafter : (file.chars.drop i).length ≤ limit := by
    rw [List.length_drop]
    omega
  rw [lineAt_positionAt limit hi, LinePart.back_of_length_le hbefore,
    LinePart.ahead_of_length_le hafter]

end SourceFile

/-- **Positions and lines agree.**  The line that is quoted in full for a place is the line with the
number that the row says, if the place and the limit add up to a word.  The column is the distance
of the place from the start of this line, and the character at the place is the one in this column
or else the newline that ends the line. -/
theorem lineAt_eq_line_of_row (file : SourceFile) {i limit : ℕ} (hi : i ≤ file.chars.length)
    (hlimit : file.chars.length ≤ limit) :
    let p := file.positionAt i
    ∃ text, file.lines[p.row]? = some text ∧
      file.lineAt? p limit =
        (if i + limit < wordSize then some ⟨false, text, false⟩ else none) ∧
      p.col ≤ text.length ∧ p.col ≤ i ∧ i - p.col = lineOffset file.lines p.row ∧
      ∀ c, file.chars[i]? = some c → text[p.col]? = some c ∨ c = '\n' ∧ p.col = text.length := by
  intro p
  obtain ⟨earlier, later, hlines, hrow, hoffset⟩ :=
    exists_splitOn_append (file.chars.take i) (file.chars.drop i)
  have hline := file.lineAt?_eq p limit
  rw [SourceFile.offset_positionAt hi, Nat.min_eq_left hi, file.lineAt_of_length_le hi hlimit] at hline
  have hcol : p.col = ((file.chars.take i).rtakeWhile (· ≠ '\n')).length := file.col_positionAt i
  have hnumber : p.row = earlier.length := (file.row_positionAt i).trans hrow.symm
  rw [List.take_append_drop] at hlines
  rw [List.length_take, Nat.min_eq_left hi] at hoffset
  refine ⟨_, ?_, hline, ?_, ?_, ?_, ?_⟩
  · rw [SourceFile.lines, hlines, hnumber, List.getElem?_append_right le_rfl, Nat.sub_self,
      List.getElem?_cons_zero]
  · rw [hcol, List.length_append]
    exact Nat.le_add_right _ _
  · omega
  · rw [SourceFile.lines, hlines, hnumber, lineOffset_length]
    omega
  · intro c hc
    -- the rest of the file starts with the character, which ends the row if it is a newline
    have hafter : file.chars.drop i = c :: file.chars.drop (i + 1) := by
      obtain ⟨hlt, rfl⟩ := List.getElem?_eq_some_iff.mp hc
      exact List.drop_eq_getElem_cons hlt
    rw [hcol, hafter, List.getElem?_append_right le_rfl, Nat.sub_self]
    by_cases hnewline : c = '\n'
    · right
      simp [hnewline]
    · left
      simp [hnewline]

/-- The second line is empty, and the place is that of the newline that ends it. -/
theorem lineAt_eq_line_of_row_empty :
    let file : SourceFile := ⟨['a', 'b', '\n', '\n', 'c'], by simp⟩
    let p := file.positionAt 3
    3 ≤ file.chars.length ∧ file.chars.length ≤ 5 ∧
      ∃ text, file.lines[p.row]? = some text ∧
        file.lineAt? p 5 = (if 3 + 5 < wordSize then some ⟨false, text, false⟩ else none) ∧
        p.col ≤ text.length ∧ p.col ≤ 3 ∧ 3 - p.col = lineOffset file.lines p.row ∧
        ∀ c, file.chars[3]? = some c → text[p.col]? = some c ∨ c = '\n' ∧ p.col = text.length := by
  intro file p
  have hi : 3 ≤ file.chars.length := by decide
  have hlimit : file.chars.length ≤ 5 := by decide
  exact ⟨hi, hlimit, lineAt_eq_line_of_row file hi hlimit⟩

/-- Behind the first character the largest limit is one too much. -/
theorem lineAt_with_largest_limit :
    ∃ file : SourceFile, file.chars = ['a', 'b'] ∧ file.positionAt 1 = ⟨1, 0, 1⟩ ∧
      file.lines[0]? = some ['a', 'b'] ∧ file.chars.length ≤ wordSize - 1 ∧
      file.lineAt? (file.positionAt 1) (wordSize - 1) = none :=
  ⟨⟨['a', 'b'], by simp⟩, rfl, by decide, by decide, by decide, by decide⟩

end Frontend
