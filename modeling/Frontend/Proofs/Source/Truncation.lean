import Frontend.Proofs.Source.Windows

/-!
# When a quoted line is marked as cut

The line of a place is the text between the newlines on either side of it; of that line a message
quotes at most a limited number of characters before the place and as many after it.  Whether a side
is marked as cut is decided within the limit, without a look at the character behind it.  So a side
from which characters were left out is always marked.  But a side is also marked if the line goes
exactly as far as the limit and ends there at a newline, and then nothing was left out
(`cut_marks_iff`).  At the start and at the end of the file, where there is no newline, the limit can
be reached without a mark.  All this goes for the lines that are found; none is if the limit is so
large that the end of the search is not a word.

The text that a message quotes before a byte that is not ASCII is found in the same way, and the
ellipsis in front of it is as reliable as the mark.
-/

namespace Frontend

/-! ## Parts of a line -/

namespace LinePart

variable {limit : ℕ} {before after : List Char}

theorem newline_notMem_take_iff (hlimit : limit ≤ after.length) :
    '\n' ∉ after.take limit ↔ limit ≤ (after.takeWhile (· ≠ '\n')).length := by
  refine ⟨?_, ?_⟩
  · intro h
    have hall : (after.take limit).takeWhile (· ≠ '\n') = after.take limit :=
      takeWhile_of_newline_notMem h
    rw [← List.take_takeWhile] at hall
    have hlength := congrArg List.length hall
    rw [List.length_take, List.length_take] at hlength
    omega
  · intro h hnewline
    have hstart : after.take limit <+: after.takeWhile (· ≠ '\n') := by
      refine List.prefix_of_prefix_length_le (List.take_prefix _ _) (List.takeWhile_prefix _) ?_
      rw [List.length_take]
      omega
    simpa using List.mem_takeWhile_imp (hstart.mem hnewline)

theorem newline_mem_iff : '\n' ∈ after ↔ (after.takeWhile (· ≠ '\n')).length < after.length := by
  have h := newline_notMem_take_iff (le_refl after.length)
  rw [List.take_length] at h
  rw [← not_iff_not, h, Nat.not_lt]

/-- A side is cut if there is more of the line, and also if the line ends at the limit with a
newline. -/
theorem cut_ahead_iff : (ahead limit after).cut = true ↔
    limit < (after.takeWhile (· ≠ '\n')).length ∨
      (after.takeWhile (· ≠ '\n')).length = limit ∧ '\n' ∈ after := by
  have hrow : (after.takeWhile (· ≠ '\n')).length ≤ after.length :=
    (List.takeWhile_prefix _).length_le
  have hcut : (ahead limit after).cut = true ↔ '\n' ∉ after.take limit ∧ limit < after.length := by
    simp [ahead]
  rw [hcut, @newline_mem_iff after]
  by_cases hlimit : limit ≤ after.length
  · rw [newline_notMem_take_iff hlimit]
    omega
  · omega

theorem text_ahead (limit : ℕ) (after : List Char) :
    (ahead limit after).text = (after.takeWhile (· ≠ '\n')).take limit := by
  rw [List.take_takeWhile]
  rfl

/-- Looking back is looking ahead in the reversed text. -/
theorem cut_back (limit : ℕ) (before : List Char) :
    (back limit before).cut = (ahead limit before.reverse).cut := by
  simp [ahead, back, List.take_reverse]

theorem cut_back_iff : (back limit before).cut = true ↔
    limit < (before.rtakeWhile (· ≠ '\n')).length ∨
      (before.rtakeWhile (· ≠ '\n')).length = limit ∧ '\n' ∈ before := by
  rw [cut_back, cut_ahead_iff, List.mem_reverse, List.rtakeWhile, List.length_reverse]

/-- What was left out of the row before the quoted part, and what its mark says. -/
theorem exists_left_of_back (limit : ℕ) (before : List Char) :
    ∃ left, before.rtakeWhile (· ≠ '\n') = left ++ (back limit before).text ∧
      ((back limit before).cut = true ↔ left ≠ [] ∨
        (before.rtakeWhile (· ≠ '\n')).length = limit ∧ '\n' ∈ before) := by
  refine ⟨(before.rtakeWhile (· ≠ '\n')).rdrop limit, ?_, ?_⟩
  · rw [text_back]
    exact (List.take_append_drop _ _).symm
  · rw [cut_back_iff, ← List.length_pos_iff, List.rdrop, List.length_take]
    refine or_congr_left ?_
    omega

theorem exists_right_of_ahead (limit : ℕ) (after : List Char) :
    ∃ right, after.takeWhile (· ≠ '\n') = (ahead limit after).text ++ right ∧
      ((ahead limit after).cut = true ↔ right ≠ [] ∨
        (after.takeWhile (· ≠ '\n')).length = limit ∧ '\n' ∈ after) := by
  refine ⟨(after.takeWhile (· ≠ '\n')).drop limit, ?_, ?_⟩
  · rw [text_ahead, List.take_append_drop]
  · rw [cut_ahead_iff, ← List.length_pos_iff, List.length_drop]
    refine or_congr_left ?_
    omega

theorem length_ahead (limit : ℕ) (after : List Char) :
    (ahead limit after).text.length = min (after.takeWhile (· ≠ '\n')).length limit := by
  rw [text_ahead, List.length_take, Nat.min_comm]

end LinePart

/-! ## The line of a place -/

namespace SourceFile

/-- The part of the line of a place that is before the place. -/
def lineBefore (file : SourceFile) (p : Position) : List Char :=
  (file.chars.take p.offset).rtakeWhile (· ≠ '\n')

/-- The part of the line of a place from the place on, without the newline that ends the line. -/
def lineAfter (file : SourceFile) (p : Position) : List Char :=
  (file.chars.drop p.offset).takeWhile (· ≠ '\n')

/-- The line starts at the limit, and not at the start of the file. -/
def StartsAtLimit (file : SourceFile) (p : Position) (limit : ℕ) : Prop :=
  (file.lineBefore p).length = limit ∧ '\n' ∈ file.chars.take p.offset

/-- The line ends at the limit, and not at the end of the file. -/
def EndsAtLimit (file : SourceFile) (p : Position) (limit : ℕ) : Prop :=
  (file.lineAfter p).length = limit ∧ '\n' ∈ file.chars.drop p.offset

theorem exists_valid_of_ofBytes {bytes : List UInt8} {e : EncodingError}
    (h : ofBytes bytes = .error e) :
    ∃ valid, valid = (bytes.takeWhile isAsciiByte).map charOfByte ∧ e = .after valid := by
  unfold ofBytes at h
  split at h
  · contradiction
  · exact ⟨_, rfl, (Except.error.inj h).symm⟩

end SourceFile

/-- **A side is marked as cut if and only if characters were left out of it or the line ends there
at the limit, next to another line.**  So the marks are never missing, but in the second case they do
not tell the truth.  The same goes for the ellipsis in front of what is quoted before a byte that is
not ASCII. -/
theorem cut_marks_iff (file : SourceFile) (p : Position) (limit : ℕ) (bytes : List UInt8) :
    file.lineAt? p limit =
      (if min p.offset file.chars.length + limit < wordSize then some (file.lineAt p limit)
        else none) ∧
    (∃ left before after right,
      file.lineBefore p = left ++ before ∧ before.length = min (file.lineBefore p).length limit ∧
      file.lineAfter p = after ++ right ∧ after.length = min (file.lineAfter p).length limit ∧
      (file.lineAt p limit).text = before ++ after ∧
      ((file.lineAt p limit).cutBefore = true ↔ left ≠ [] ∨ file.StartsAtLimit p limit) ∧
      ((file.lineAt p limit).cutAfter = true ↔ right ≠ [] ∨ file.EndsAtLimit p limit)) ∧
    ∀ e, SourceFile.ofBytes bytes = .error e →
      ∃ valid left quoted, valid = (bytes.takeWhile SourceFile.isAsciiByte).map
          SourceFile.charOfByte ∧ e.offset = valid.length ∧
        valid.rtakeWhile (· ≠ '\n') = left ++ quoted ∧
        quoted.length = min (left ++ quoted).length encodingErrorContext ∧
        e.quoted = (if left ≠ [] ∨
            (left ++ quoted).length = encodingErrorContext ∧ '\n' ∈ valid then "..." else "") ++
          String.ofList quoted := by
  refine ⟨file.lineAt?_eq p limit, ?_, ?_⟩
  · obtain ⟨left, hbefore, hback⟩ := LinePart.exists_left_of_back limit (file.chars.take p.offset)
    obtain ⟨right, hafter, hahead⟩ :=
      LinePart.exists_right_of_ahead limit (file.chars.drop p.offset)
    exact ⟨left, _, _, right, hbefore, LinePart.length_back _ _, hafter, LinePart.length_ahead _ _,
      rfl, hback, hahead⟩
  · intro e h
    obtain ⟨valid, hvalid, rfl⟩ := SourceFile.exists_valid_of_ofBytes h
    obtain ⟨left, hrow, hcut⟩ := LinePart.exists_left_of_back encodingErrorContext valid
    have hlength := LinePart.length_back encodingErrorContext valid
    rw [hrow] at hcut hlength
    exact ⟨valid, left, _, hvalid, rfl, hrow, hlength, by simp only [EncodingError.after, hcut]⟩

/-- Both marks are wrong on the line `bc` of this file, which is quoted in full. -/
theorem cut_marks_without_cut :
    ∃ file : SourceFile, file.chars = ['a', '\n', 'b', 'c', '\n', 'd'] ∧
      file.lineBefore ⟨3, 1, 1⟩ = ['b'] ∧ file.lineAfter ⟨3, 1, 1⟩ = ['c'] ∧
      file.lineAt? ⟨3, 1, 1⟩ 1 = some ⟨true, ['b', 'c'], true⟩ :=
  ⟨⟨['a', '\n', 'b', 'c', '\n', 'd'], by simp⟩, rfl, by decide, by decide, by decide⟩

end Frontend
