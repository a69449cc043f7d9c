import Frontend.Proofs.Source.Excerpt

/-!
# The windows that a line is searched in

The line at a position is found from an offset and a limit alone: on either side of the offset there
is a window as long as the limit, or shorter at the ends of the file, and in it the newline is
searched that is closest to the offset.  `LinePart.start?` and `LinePart.stop?` say where the line
starts and ends in this way, and `LinePart.back` and `LinePart.ahead` say which text that leaves.

The two windows are not found in the same way.  The one before the offset starts at a difference,
which stops at the start of the file.  The one behind it ends at a sum, which is cut to the file only
after it was taken.  So it is this sum, and nothing else, that can keep a line from being found
(`SourceFile.lineAt?_eq`).
-/

namespace Frontend

/-! ## Searching for a newline -/

theorem length_takeWhile_eq_findIdx {α : Type} (p : α → Bool) (l : List α) :
    (l.takeWhile p).length = l.findIdx (!p ·) := by
  rw [List.takeWhile_eq_take_findIdx_not, List.length_take, Nat.min_eq_left List.findIdx_le_length]

theorem idxOf?_newline (text : List Char) :
    text.idxOf? '\n' =
      if '\n' ∈ text then some (text.takeWhile (· ≠ '\n')).length else none := by
  split
  · next h =>
      have hindex : (text.takeWhile (· ≠ '\n')).length = text.findIdx (· == '\n') := by
        rw [length_takeWhile_eq_findIdx]
        congr 1
        funext c
        rw [decide_not, Bool.not_not]
        rfl
      rw [hindex, List.idxOf?, List.findIdx?_eq_some_iff_findIdx_eq]
      exact ⟨List.findIdx_lt_length_of_exists ⟨'\n', h, by simp⟩, rfl⟩
  · next h => exact List.idxOf?_eq_none_iff.mpr h

/-! ## The ends of a line -/

namespace LinePart

variable {text : List Char} {o : ℕ}

theorem text_back_take (limit : ℕ) (ho : o ≤ text.length) :
    (back limit (text.take o)).text =
      (text.take o).drop (o - (back limit (text.take o)).text.length) := by
  have h := List.suffix_iff_eq_drop.mp (back_suffix limit (text.take o))
  rwa [List.length_take, Nat.min_eq_left ho] at h

/-- The two parts of a quoted line are next to each other in the text. -/
theorem text_back_append_text_ahead (limit : ℕ) (ho : o ≤ text.length) :
    (back limit (text.take o)).text ++ (ahead limit (text.drop o)).text =
      (text.take (o + (ahead limit (text.drop o)).text.length)).drop
        (o - (back limit (text.take o)).text.length) := by
  have hprefix := ahead_prefix limit (text.drop o)
  have hahead := List.prefix_iff_eq_take.mp hprefix
  rw [List.take_drop] at hahead
  have hlength : (text.take o).length = o := by rw [List.length_take, Nat.min_eq_left ho]
  rw [take_eq_append (Nat.le_add_right o _), List.drop_append_of_le_length (by omega),
    ← text_back_take limit ho, ← hahead]

/-- The start of a line is found whatever the limit is. -/
theorem start?_eq (limit : ℕ) (ho : o ≤ text.length) :
    start? text o limit = some (o - (back limit (text.take o)).text.length,
      (back limit (text.take o)).cut) := by
  have hlength : (text.take o).length = o := by rw [List.length_take, Nat.min_eq_left ho]
  obtain ⟨window, hwindow⟩ : ∃ window, window = (text.take o).drop (o - limit) := ⟨_, rfl⟩
  have hback : back limit (text.take o) = ⟨(window.reverse.takeWhile (· ≠ '\n')).reverse,
      !window.contains '\n' && decide (limit < o)⟩ := by
    rw [back, hlength, hwindow]
  have hsize : window.length = o - (o - limit) := by rw [hwindow, List.length_drop, hlength]
  rw [start?, slice?_of_le (Nat.sub_le o limit) ho, ← hwindow, hback]
  simp only [Option.bind_eq_bind, Option.bind_some, idxOf?_newline, List.length_reverse,
    List.mem_reverse]
  by_cases hnewline : '\n' ∈ window
  · -- the row is within the window, so it is not longer than what is before the offset
    have hrow := (List.takeWhile_prefix (· ≠ '\n') (l := window.reverse)).length_le
    rw [List.length_reverse] at hrow
    have hsub : sub? o (window.reverse.takeWhile (· ≠ '\n')).length =
        some (o - (window.reverse.takeWhile (· ≠ '\n')).length) := sub?_of_le (by omega)
    rw [if_pos hnewline]
    simp only [hsub, Option.map_some]
    simp [hnewline]
  · -- the row is the whole window, or reaches over it
    have hall : window.reverse.takeWhile (· ≠ '\n') = window.reverse :=
      takeWhile_of_newline_notMem (mt List.mem_reverse.mp hnewline)
    have hstart : o - limit = o - window.length := by omega
    have hcut : 0 < o - limit ↔ limit < o := by omega
    rw [if_neg hnewline, hall, List.length_reverse, ← hstart]
    simp [hnewline, hcut]

/-- The end of a line is found if the end of its window is a word. -/
theorem stop?_eq (limit : ℕ) (ho : o ≤ text.length) :
    stop? text o limit = if o + limit < wordSize then
      some (o + (ahead limit (text.drop o)).text.length, (ahead limit (text.drop o)).cut)
    else none := by
  by_cases hword : o + limit < wordSize
  · obtain ⟨window, hwindow⟩ : ∃ window, window = (text.drop o).take limit := ⟨_, rfl⟩
    have hahead : ahead limit (text.drop o) = ⟨window.takeWhile (· ≠ '\n'),
        !window.contains '\n' && decide (limit < text.length - o)⟩ := by
      rw [ahead, List.length_drop, hwindow]
    have hsize : window.length = min limit (text.length - o) := by
      rw [hwindow, List.length_take, List.length_drop]
    have hslice : slice? text o (min (o + limit) text.length) = some window := by
      rw [slice?_of_le (by omega) (Nat.min_le_right _ _), hwindow, List.take_drop,
        ← List.take_eq_take_min]
    rw [if_pos hword, stop?, add?, word?_of_lt hword, hahead]
    simp only [Option.bind_eq_bind, Option.bind_some, hslice, idxOf?_newline]
    by_cases hnewline : '\n' ∈ window
    · -- the newline comes before the end of the window, so its place is a word too
      have hrow := (List.takeWhile_prefix (· ≠ '\n') (l := window)).length_le
      have hadd : add? o (window.takeWhile (· ≠ '\n')).length =
          some (o + (window.takeWhile (· ≠ '\n')).length) := word?_of_lt (by omega)
      rw [if_pos hnewline]
      simp only [hadd, Option.map_some]
      simp [hnewline]
    · have hstop : min (o + limit) text.length = o + window.length := by omega
      have hcut : o + limit < text.length ↔ limit < text.length - o := by omega
      rw [if_neg hnewline, takeWhile_of_newline_notMem hnewline, hstop]
      simp [hnewline, hcut]
  · rw [if_neg hword, stop?, add?, word?_of_le (Nat.not_lt.mp hword)]
    rfl

end LinePart

/-! ## The line -/

namespace SourceFile

/-- An offset beyond the end of the file stands for the end. -/
theorem lineAt_eq (file : SourceFile) (p : Position) (limit : ℕ) :
    file.lineAt p limit =
      ⟨(LinePart.back limit (file.chars.take (min p.offset file.chars.length))).cut,
        (LinePart.back limit (file.chars.take (min p.offset file.chars.length))).text ++
          (LinePart.ahead limit (file.chars.drop (min p.offset file.chars.length))).text,
        (LinePart.ahead limit (file.chars.drop (min p.offset file.chars.length))).cut⟩ := by
  have htake : file.chars.take p.offset = file.chars.take (min p.offset file.chars.length) :=
    List.take_eq_take_min
  have hdrop : file.chars.drop p.offset = file.chars.drop (min p.offset file.chars.length) :=
    List.drop_eq_drop_min
  rw [lineAt, htake, hdrop]

/-- **The line is found if and only if the end of the window behind the offset is a word.**  All
pieces that are cut out of the file on the way are within it. -/
theorem lineAt?_eq (file : SourceFile) (p : Position) (limit : ℕ) :
    file.lineAt? p limit =
      if min p.offset file.chars.length + limit < wordSize then some (file.lineAt p limit)
      else none := by
  obtain ⟨o, ho⟩ : ∃ o, o = min p.offset file.chars.length := ⟨_, rfl⟩
  have hle : o ≤ file.chars.length := ho.trans_le (Nat.min_le_right _ _)
  have hend := (LinePart.ahead_prefix limit (file.chars.drop o)).length_le
  rw [List.length_drop] at hend
  rw [lineAt?, lineAt_eq, ← ho, LinePart.start?_eq limit hle, LinePart.stop?_eq limit hle,
    LinePart.text_back_append_text_ahead limit hle]
  split
  · simp only [Option.bind_eq_bind, Option.bind_some]
    rw [slice?_of_le (by omega) (by omega)]
    rfl
  · rfl

theorem lineAt?_of_lt {file : SourceFile} {p : Position} {limit : ℕ}
    (h : min p.offset file.chars.length + limit < wordSize) :
    file.lineAt? p limit = some (file.lineAt p limit) := by
  rw [lineAt?_eq, if_pos h]

end SourceFile
end Frontend
