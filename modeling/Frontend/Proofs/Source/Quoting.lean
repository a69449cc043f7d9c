import Frontend.Proofs.Source.Lines
import Mathlib.Order.Bounds.Defs

/-!
# The stretch of a file that is quoted

The row of an offset goes from behind the last newline before it to the first newline that is not
before it; where there is no newline, it goes to the end of the text on that side.  Said without any
search, its start is the greatest of the places in `rowStarts` and its end the least of those in
`rowEnds`.

A newline is only looked for within the limit.  All the same the text that is quoted is the stretch
from the start of the row to its end, cut to the limit on either side (`quotes_row_within_limit`).
The position can be any, and so can the limit, as long as the two together are a word
(`no_quote_at_end_with_largest_limit`).  In the reading of a file the text in front of a byte that is
not ASCII is found in the same way; it only looks back, so there the sum does not occur.
-/

namespace Frontend

/-! ## The row of an offset -/

/-- The places up to an offset at which a row starts: the start of the text, and behind each newline
before the offset. -/
def rowStarts (text : List Char) (o : ℕ) : Set ℕ :=
  {k | k = 0 ∨ ∃ i < o, text[i]? = some '\n' ∧ k = i + 1}

/-- The places from an offset on at which a row ends: the end of the text, and each newline that is
not before the offset. -/
def rowEnds (text : List Char) (o : ℕ) : Set ℕ :=
  {k | k = text.length ∨ o ≤ k ∧ text[k]? = some '\n'}

/-- Behind those elements at the start of a list that pass a test stands the first one that does
not. -/
theorem isLeast_length_takeWhile {α : Type} {p : α → Bool} {l : List α}
    (h : ∃ x ∈ l, p x = false) :
    IsLeast {k | ∃ x, l[k]? = some x ∧ p x = false} (l.takeWhile p).length := by
  have hlt : l.findIdx (!p ·) < l.length := List.findIdx_lt_length_of_exists (by simpa using h)
  rw [length_takeWhile_eq_findIdx]
  refine ⟨⟨_, List.getElem?_eq_getElem hlt, ?_⟩, ?_⟩
  · simpa using List.findIdx_getElem (w := hlt)
  · rintro k ⟨x, hat, hx⟩
    obtain ⟨hk, rfl⟩ := List.getElem?_eq_some_iff.mp hat
    by_contra hfirst
    rw [Nat.not_le] at hfirst
    have hpass := List.not_of_lt_findIdx hfirst
    simp [hx] at hpass

section

variable {text : List Char} {o : ℕ}

theorem length_rtakeWhile_take_le (ho : o ≤ text.length) :
    ((text.take o).rtakeWhile (· ≠ '\n')).length ≤ o := by
  have h := (List.rtakeWhile_suffix (· ≠ '\n') (text.take o)).length_le
  rwa [List.length_take, Nat.min_eq_left ho] at h

theorem isGreatest_rowStarts (ho : o ≤ text.length) :
    IsGreatest (rowStarts text o) (o - ((text.take o).rtakeWhile (· ≠ '\n')).length) := by
  have hrow := length_rtakeWhile_take_le ho
  refine ⟨?_, ?_⟩
  · by_cases hnewline : '\n' ∈ text.take o
    · obtain ⟨start, hstart⟩ := exists_eq_append_rtakeWhile hnewline
      have hlength := congrArg List.length hstart
      rw [List.length_append, List.length_cons, List.length_take, Nat.min_eq_left ho] at hlength
      have hat : (text.take o)[start.length]? = some '\n' := by
        rw [hstart, List.getElem?_append_right le_rfl, Nat.sub_self, List.getElem?_cons_zero]
      rw [List.getElem?_take_of_lt (by omega)] at hat
      exact Or.inr ⟨start.length, by omega, hat, by omega⟩
    · have hall : (text.take o).rtakeWhile (· ≠ '\n') = text.take o := by
        rw [List.rtakeWhile, takeWhile_of_newline_notMem (mt List.mem_reverse.mp hnewline),
          List.reverse_reverse]
      rw [hall, List.length_take, Nat.min_eq_left ho, Nat.sub_self]
      exact Or.inl rfl
  · rintro k (rfl | ⟨i, hi, hat, rfl⟩)
    · exact Nat.zero_le _
    by_contra hlt
    rw [Nat.not_le] at hlt
    -- else the newline would be one of the characters of the row
    have hsuffix := List.suffix_iff_eq_drop.mp (List.rtakeWhile_suffix (· ≠ '\n') (text.take o))
    rw [List.length_take, Nat.min_eq_left ho] at hsuffix
    have hmem : '\n' ∈ (text.take o).rtakeWhile (· ≠ '\n') := by
      rw [hsuffix, List.mem_iff_getElem?]
      refine ⟨i - (o - ((text.take o).rtakeWhile (· ≠ '\n')).length), ?_⟩
      rw [List.getElem?_drop, Nat.add_sub_cancel' (by omega), List.getElem?_take_of_lt hi, hat]
    exact newline_notMem_rtakeWhile hmem

theorem isLeast_rowEnds (ho : o ≤ text.length) :
    IsLeast (rowEnds text o) (o + ((text.drop o).takeWhile (· ≠ '\n')).length) := by
  have hfirst : '\n' ∈ text.drop o →
      IsLeast {k | ∃ c, (text.drop o)[k]? = some c ∧ decide (c ≠ '\n') = false}
        ((text.drop o).takeWhile (· ≠ '\n')).length :=
    fun hnewline => isLeast_length_takeWhile ⟨'\n', hnewline, by simp⟩
  refine ⟨?_, ?_⟩
  · by_cases hnewline : '\n' ∈ text.drop o
    · obtain ⟨c, hat, hc⟩ := (hfirst hnewline).1
      obtain rfl : c = '\n' := by simpa using hc
      rw [List.getElem?_drop] at hat
      exact Or.inr ⟨Nat.le_add_right _ _, hat⟩
    · rw [takeWhile_of_newline_notMem hnewline, List.length_drop, Nat.add_sub_cancel' ho]
      exact Or.inl rfl
  · rintro k (rfl | ⟨hk, hat⟩)
    · have hrow := (List.takeWhile_prefix (· ≠ '\n') (l := text.drop o)).length_le
      rw [List.length_drop] at hrow
      omega
    · have hdrop : (text.drop o)[k - o]? = some '\n' := by
        rw [List.getElem?_drop, Nat.add_sub_cancel' hk, hat]
      have hle := (hfirst (List.mem_of_getElem? hdrop)).2 ⟨'\n', hdrop, by simp⟩
      omega

end

/-! ## Cut to the limit -/

namespace LinePart

variable {text : List Char} {o : ℕ}

theorem sub_length_back (limit : ℕ) (ho : o ≤ text.length) :
    o - (back limit (text.take o)).text.length =
      max (o - ((text.take o).rtakeWhile (· ≠ '\n')).length) (o - limit) := by
  have hrow := length_rtakeWhile_take_le ho
  rw [length_back]
  omega

theorem add_length_ahead (limit : ℕ) (text : List Char) (o : ℕ) :
    o + (ahead limit (text.drop o)).text.length =
      min (o + ((text.drop o).takeWhile (· ≠ '\n')).length) (o + limit) := by
  rw [length_ahead, Nat.add_min_add_left]

end LinePart

namespace SourceFile

/-- A file that was read consists of the bytes that it was read from. -/
theorem chars_of_ofBytes {bytes : List UInt8} {file : SourceFile}
    (h : ofBytes bytes = .ok file) : file.chars = bytes.map charOfByte := by
  unfold ofBytes at h
  split at h
  · rw [← Except.ok.inj h]
  · contradiction

theorem exists_offset_of_ofBytes {bytes : List UInt8} {e : EncodingError}
    (h : ofBytes bytes = .error e) :
    IsLeast {k | ∃ b, bytes[k]? = some b ∧ 128 ≤ b.toNat} e.offset ∧
      e = .after ((bytes.map charOfByte).take e.offset) := by
  obtain ⟨valid, rfl, rfl⟩ := exists_valid_of_ofBytes h
  have hbad : ∃ b ∈ bytes, isAsciiByte b = false := by
    by_contra hnone
    push Not at hnone
    have hall : ∀ b ∈ bytes, b.toNat < 128 := fun b hb =>
      isAsciiByte_iff.mp (Bool.of_not_eq_false (hnone b hb))
    obtain ⟨file, hfile⟩ := ofBytes_isOk_iff.mpr hall
    rw [h] at hfile
    contradiction
  have hlength : (EncodingError.after ((bytes.takeWhile isAsciiByte).map charOfByte)).offset =
      (bytes.takeWhile isAsciiByte).length := List.length_map _
  have hvalid : (bytes.map charOfByte).take (bytes.takeWhile isAsciiByte).length =
      (bytes.takeWhile isAsciiByte).map charOfByte := by
    rw [← List.map_take, ← List.prefix_iff_eq_take.mp (List.takeWhile_prefix _)]
  rw [hlength, hvalid]
  refine ⟨?_, rfl⟩
  simpa [isAsciiByte, Nat.not_lt] using isLeast_length_takeWhile hbad

end SourceFile

/-- **What is quoted is the row of the offset, as far as the limit allows.**  It is a stretch of the
file around the offset, and there is no newline in it.  A line is quoted at every position and with
every limit, unless the offset and the limit add up to more than a word.  All bytes are accepted up
to the first one that is not ASCII, and of that one's row what stands in front of it is quoted. -/
theorem quotes_row_within_limit (file : SourceFile) (p : Position) (limit : ℕ)
    (bytes : List UInt8) :
    (∃ o start stop first last text cutBefore cutAfter, o = min p.offset file.chars.length ∧
      IsGreatest (rowStarts file.chars o) start ∧ IsLeast (rowEnds file.chars o) stop ∧
      first = max start (o - limit) ∧ last = min stop (o + limit) ∧
      file.lineAt? p limit =
        (if o + limit < wordSize then some ⟨cutBefore, text, cutAfter⟩ else none) ∧
      text = (file.chars.take last).drop first ∧
      first ≤ o ∧ o ≤ last ∧ last ≤ file.chars.length ∧
      o - first ≤ limit ∧ last - o ≤ limit ∧ '\n' ∉ text) ∧
    ((∃ read, SourceFile.ofBytes bytes = .ok read ∧
      read.chars = bytes.map SourceFile.charOfByte) ↔ ∀ b ∈ bytes, b.toNat < 128) ∧
    ∀ e, SourceFile.ofBytes bytes = .error e →
      ∃ text start ellipsis, text = bytes.map SourceFile.charOfByte ∧
        IsLeast {k | ∃ b, bytes[k]? = some b ∧ 128 ≤ b.toNat} e.offset ∧
        IsGreatest (rowStarts text e.offset) start ∧ ellipsis ∈ ["", "..."] ∧
        e.quoted = ellipsis ++
          String.ofList ((text.take e.offset).drop (max start (e.offset - 80))) := by
  refine ⟨?_, ?_, ?_⟩
  · obtain ⟨o, ho⟩ : ∃ o, o = min p.offset file.chars.length := ⟨_, rfl⟩
    have hle : o ≤ file.chars.length := ho.trans_le (Nat.min_le_right _ _)
    have hstart := isGreatest_rowStarts hle
    have hstop := isLeast_rowEnds hle
    have hend := hstop.2 (Or.inl rfl)
    have hline := file.lineAt?_eq p limit
    rw [← ho] at hline
    -- the stretch ends where the row ends, or at the limit if that is closer
    have htext := file.lineAt_eq p limit
    rw [← ho, LinePart.text_back_append_text_ahead limit hle, LinePart.sub_length_back limit hle,
      LinePart.add_length_ahead] at htext
    exact ⟨o, _, _, _, _, _, _, _, ho, hstart, hstop, rfl, rfl, hline, congrArg Excerpt.text htext,
      by omega, by omega, by omega, by omega, by omega, file.newline_notMem_lineAt p limit⟩
  · rw [← SourceFile.ofBytes_isOk_iff]
    exact exists_congr fun read => ⟨And.left, fun h => ⟨h, SourceFile.chars_of_ofBytes h⟩⟩
  · intro e h
    obtain ⟨hleast, hafter⟩ := SourceFile.exists_offset_of_ofBytes h
    obtain ⟨b, hat, -⟩ := hleast.1
    have hle : e.offset ≤ (bytes.map SourceFile.charOfByte).length := by
      rw [List.length_map]
      exact (List.getElem?_eq_some_iff.mp hat).1.le
    have hquoted := congrArg EncodingError.quoted hafter
    rw [EncodingError.after, LinePart.text_back_take _ hle, LinePart.sub_length_back _ hle]
      at hquoted
    refine ⟨_, _, _, rfl, hleast, isGreatest_rowStarts hle, ?_, hquoted⟩
    split <;> simp

/-- A tab, a newline and a letter, and then the two bytes of a character that is not ASCII. -/
theorem quotes_row_within_limit_byte :
    let bytes : List UInt8 := [9, 10, 98, 206, 187]
    ∃ e, SourceFile.ofBytes bytes = .error e ∧ e.quoted = "b" ∧
      ∃ text start ellipsis, text = bytes.map SourceFile.charOfByte ∧
        IsLeast {k | ∃ b, bytes[k]? = some b ∧ 128 ≤ b.toNat} e.offset ∧
        IsGreatest (rowStarts text e.offset) start ∧ ellipsis ∈ ["", "..."] ∧
        e.quoted = ellipsis ++
          String.ofList ((text.take e.offset).drop (max start (e.offset - 80))) := by
  intro bytes
  have herror : SourceFile.ofBytes bytes = .error ⟨3, "b"⟩ := by decide
  obtain ⟨-, -, hquoted⟩ := quotes_row_within_limit ⟨[], by simp⟩ .start 0 bytes
  exact ⟨_, herror, rfl, hquoted _ herror⟩

/-- A position beyond the end stands for the end, and with the largest limit nothing is quoted
there. -/
theorem no_quote_at_end_with_largest_limit :
    ∃ file : SourceFile, file.chars = ['a', 'b'] ∧
      IsGreatest (rowStarts file.chars 2) 0 ∧ IsLeast (rowEnds file.chars 2) 2 ∧
      file.lineAt? ⟨5, 7, 7⟩ (wordSize - 1) = none := by
  refine ⟨⟨['a', 'b'], by simp⟩, rfl, ?_, ?_, by decide⟩
  · exact @isGreatest_rowStarts ['a', 'b'] 2 le_rfl
  · exact @isLeast_rowEnds ['a', 'b'] 2 le_rfl

end Frontend
