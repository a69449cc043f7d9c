import Frontend.Proofs.Source.Advance
import Frontend.Source.File

/-!
# Quoted lines

A place in a file can be told by the number of characters before it; `SourceFile.positionAt` is the
position of that place.  A message quotes the line of a place, but only so much of it as is close
enough.  The quoted text is what the file has from some place on
(`SourceFile.text_lineAt_isPrefix`), and as many of its characters stand before the place as the
column says, unless they were cut; then there are exactly as many as are allowed
(`LinePart.length_back_of_cut`).

Nothing of a later row is quoted, so a piece of the file that reaches into one also reaches over the
end of the quoted text (`SourceFile.length_lineAt_le_of_row_ne`).
-/

namespace Frontend

/-! ## Parts of a line -/

theorem takeWhile_of_newline_notMem {text : List Char} (h : '\n' ∉ text) :
    text.takeWhile (· ≠ '\n') = text := by
  rw [List.takeWhile_eq_self_iff]
  intro c hc
  simpa using ne_of_mem_of_not_mem hc h

namespace LinePart

variable {limit : ℕ} {before after : List Char}

theorem text_back (limit : ℕ) (before : List Char) :
    (back limit before).text = (before.rtakeWhile (· ≠ '\n')).rtake limit := by
  have hwindow : (before.drop (before.length - limit)).reverse = before.reverse.take limit := by
    rw [← List.reverse_inj, List.reverse_reverse]
    exact List.rtake_eq_reverse_take_reverse ..
  simp only [back, hwindow]
  rw [List.rtake_eq_reverse_take_reverse, List.rtakeWhile, List.reverse_reverse,
    List.take_takeWhile]

theorem back_suffix (limit : ℕ) (before : List Char) : (back limit before).text <:+ before := by
  rw [text_back]
  exact (List.drop_suffix _ _).trans (List.rtakeWhile_suffix _ _)

theorem ahead_prefix (limit : ℕ) (after : List Char) : (ahead limit after).text <+: after :=
  (List.takeWhile_prefix _).trans (List.take_prefix _ _)

theorem length_back (limit : ℕ) (before : List Char) :
    (back limit before).text.length = min (before.rtakeWhile (· ≠ '\n')).length limit := by
  rw [text_back, List.rtake, List.length_drop]
  omega

/-- A newline within the limit keeps the row shorter than that. -/
theorem length_rtakeWhile_lt (h : '\n' ∈ before.rtake limit) :
    (before.rtakeWhile (· ≠ '\n')).length < limit := by
  by_contra hle
  rw [Nat.not_lt] at hle
  -- else the last characters would all be of the row
  have hsuffix : before.rtake limit <:+ before.rtakeWhile (· ≠ '\n') := by
    refine List.suffix_of_suffix_length_le (List.drop_suffix _ _) (List.rtakeWhile_suffix _ _) ?_
    rw [List.rtake, List.length_drop]
    omega
  simpa using List.mem_rtakeWhile_imp (hsuffix.mem h)

/-- A part that was cut is as long as allowed, any other one goes back to the start of the row. -/
theorem length_back_of_cut (limit : ℕ) (before : List Char) :
    (back limit before).text.length =
      if (back limit before).cut then limit else (before.rtakeWhile (· ≠ '\n')).length := by
  have hwindow : (back limit before).cut =
      (!(before.rtake limit).contains '\n' && decide (limit < before.length)) := rfl
  have hrow : (before.rtakeWhile (· ≠ '\n')).length ≤ before.length :=
    (List.rtakeWhile_suffix _ _).length_le
  by_cases hnewline : '\n' ∈ before.rtake limit
  · -- the row starts within the limit
    have hlt := length_rtakeWhile_lt hnewline
    have hcut : (back limit before).cut = false := by simp [hwindow, hnewline]
    rw [hcut, length_back, if_neg Bool.false_ne_true]
    omega
  · by_cases hlength : limit < before.length
    · -- the limit is reached first
      have hcut : (back limit before).cut = true := by simp [hwindow, hnewline, hlength]
      have hall : (before.rtake limit).reverse.takeWhile (· ≠ '\n') =
          (before.rtake limit).reverse :=
        takeWhile_of_newline_notMem (mt List.mem_reverse.mp hnewline)
      have htext : (back limit before).text = before.rtake limit := by
        show ((before.rtake limit).reverse.takeWhile (· ≠ '\n')).reverse = _
        rw [hall, List.reverse_reverse]
      rw [hcut, htext, if_pos rfl, List.rtake, List.length_drop]
      omega
    · -- all of the text is within the limit
      have hcut : (back limit before).cut = false := by simp [hwindow, hlength]
      rw [hcut, length_back, if_neg Bool.false_ne_true]
      omega

end LinePart

/-! ## Places in a file -/

theorem byteLength_eq_length {text : List Char} (h : ∀ c ∈ text, c.toNat < 128) :
    byteLength text = text.length := by
  induction text with
  | nil => rfl
  | cons c text ih =>
      obtain ⟨hc, htext⟩ := List.forall_mem_cons.mp h
      have hsize : c.utf8Size = 1 := utf8Size_eq_one_iff_ascii.mpr hc
      rw [byteLength_cons, hsize, ih htext, List.length_cons, Nat.add_comm]

theorem take_eq_append {text : List Char} {i j : ℕ} (hij : i ≤ j) :
    text.take j = text.take i ++ (text.take j).drop i := by
  have h := (List.take_append_drop i (text.take j)).symm
  rwa [List.take_take, Nat.min_eq_left hij] at h

namespace SourceFile

variable {file : SourceFile} {i j : ℕ}

/-- The position of the character with `i` others before it. -/
def positionAt (file : SourceFile) (i : ℕ) : Position :=
  Position.start.advanceOver (file.chars.take i)

theorem offset_positionAt (hi : i ≤ file.chars.length) : (file.positionAt i).offset = i := by
  have hascii : ∀ c ∈ file.chars.take i, c.toNat < 128 :=
    fun c hc => file.ascii c (List.mem_of_mem_take hc)
  rw [positionAt, Position.offset_advanceOver, byteLength_eq_length hascii, List.length_take,
    Nat.min_eq_left hi]
  exact Nat.zero_add i

theorem row_positionAt (file : SourceFile) (i : ℕ) :
    (file.positionAt i).row = (file.chars.take i).count '\n' := by
  rw [positionAt, Position.advanceOver_start]
  rfl

theorem col_positionAt (file : SourceFile) (i : ℕ) :
    (file.positionAt i).col = ((file.chars.take i).rtakeWhile (· ≠ '\n')).length := by
  rw [positionAt, Position.advanceOver_start]
  rfl

theorem positionAt_le (hij : i ≤ j) : file.positionAt i ≤ file.positionAt j := by
  rw [positionAt, positionAt, take_eq_append hij, Position.advanceOver_append]
  exact Position.le_advanceOver _ _

theorem newline_mem_of_row_ne (hij : i ≤ j)
    (hrow : (file.positionAt i).row ≠ (file.positionAt j).row) :
    '\n' ∈ (file.chars.take j).drop i := by
  by_contra hmem
  apply hrow
  rw [row_positionAt, row_positionAt, take_eq_append hij, List.count_append,
    List.count_eq_zero.mpr hmem, Nat.add_zero]

/-! ## The quoted line -/

variable {limit : ℕ}

/-- How many characters of the file stand before the line at a position as it is quoted. -/
def lineStart (file : SourceFile) (p : Position) (limit : ℕ) : ℕ :=
  p.offset - (LinePart.back limit (file.chars.take p.offset)).text.length

theorem lineAt_positionAt (limit : ℕ) (hi : i ≤ file.chars.length) :
    file.lineAt (file.positionAt i) limit =
      ⟨(LinePart.back limit (file.chars.take i)).cut,
        (LinePart.back limit (file.chars.take i)).text ++
          (LinePart.ahead limit (file.chars.drop i)).text,
        (LinePart.ahead limit (file.chars.drop i)).cut⟩ := by
  rw [lineAt, offset_positionAt hi]

theorem lineStart_positionAt (limit : ℕ) (hi : i ≤ file.chars.length) :
    file.lineStart (file.positionAt i) limit =
      i - (LinePart.back limit (file.chars.take i)).text.length := by
  rw [lineStart, offset_positionAt hi]

/-- What is quoted before the place reaches from the start of the quoted line to the place. -/
theorem lineStart_add_length_back (limit : ℕ) (hi : i ≤ file.chars.length) :
    file.lineStart (file.positionAt i) limit +
      (LinePart.back limit (file.chars.take i)).text.length = i := by
  have hle := (LinePart.back_suffix limit (file.chars.take i)).length_le
  rw [List.length_take] at hle
  rw [lineStart_positionAt limit hi]
  omega

theorem lineStart_le (limit : ℕ) (hi : i ≤ file.chars.length) :
    file.lineStart (file.positionAt i) limit ≤ i :=
  (Nat.le_add_right _ _).trans_eq (lineStart_add_length_back limit hi)

theorem text_lineAt_isPrefix (limit : ℕ) (hi : i ≤ file.chars.length) :
    (file.lineAt (file.positionAt i) limit).text <+:
      file.chars.drop (file.lineStart (file.positionAt i) limit) := by
  have hlength : (file.chars.take i).length = i := by
    rw [List.length_take, Nat.min_eq_left hi]
  have hback : (file.chars.take i).drop (file.lineStart (file.positionAt i) limit) =
      (LinePart.back limit (file.chars.take i)).text := by
    have h := List.suffix_iff_eq_drop.mp (LinePart.back_suffix limit (file.chars.take i))
    rw [hlength] at h
    rw [lineStart_positionAt limit hi, ← h]
  have hdrop : file.chars.drop (file.lineStart (file.positionAt i) limit) =
      (LinePart.back limit (file.chars.take i)).text ++ file.chars.drop i := by
    rw [← hback, ← List.drop_append_of_le_length (hlength.symm ▸ lineStart_le limit hi),
      List.take_append_drop]
  rw [lineAt_positionAt limit hi, hdrop, List.prefix_append_right_inj]
  exact LinePart.ahead_prefix _ _

/-- What is quoted ends before any place of a later row. -/
theorem length_lineAt_le_of_row_ne (limit : ℕ) (hi : i ≤ file.chars.length) (hij : i ≤ j)
    (hrow : (file.positionAt i).row ≠ (file.positionAt j).row) :
    file.lineStart (file.positionAt i) limit +
      (file.lineAt (file.positionAt i) limit).text.length ≤ j := by
  have hstart := lineStart_le limit hi
  by_contra hlt
  rw [Nat.not_le] at hlt
  -- else it would contain all between the two places, and so the newline that is there
  have hquoted : (file.chars.take j).drop (file.lineStart (file.positionAt i) limit) <+:
      (file.lineAt (file.positionAt i) limit).text := by
    have hprefix := List.take_prefix (j - file.lineStart (file.positionAt i) limit)
      (file.chars.drop (file.lineStart (file.positionAt i) limit))
    rw [List.take_drop, Nat.add_sub_cancel' (by omega)] at hprefix
    refine List.prefix_of_prefix_length_le hprefix (text_lineAt_isPrefix limit hi) ?_
    rw [List.length_drop, List.length_take]
    omega
  have hbetween : (file.chars.take j).drop i <:+
      (file.chars.take j).drop (file.lineStart (file.positionAt i) limit) :=
    List.drop_suffix_drop_left _ hstart
  exact newline_notMem_lineAt _ _ _ (hquoted.mem (hbetween.mem (newline_mem_of_row_ne hij hrow)))

end SourceFile
end Frontend
