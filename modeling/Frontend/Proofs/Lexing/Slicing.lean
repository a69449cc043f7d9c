import Frontend.Proofs.Lexing.Discarding
import Frontend.Proofs.Lexing.Tiling
import Frontend.Source.File

/-!
# Cutting lexemes out of their source

The span of a lexeme ends with its last character, but as an offset this is the first byte of that
character, and the text between two offsets is cut out up to and including the byte at the second
one.  So the last character has to be a single byte, and it is if and only if it is ASCII.  Else the
cut would fall inside of it, and `Span.slice` gives nothing at all (`Span.slice_eq_ite`).  What the
other characters are does not matter, as all of their bytes are counted.
-/

namespace Frontend

open TokenStream (after answer)

/-! ## Spans that are counted from the start of a text -/

namespace Span

variable {before w rest : List Char} {c : Char} {s : Span}

/-- A text is not cut inside a character. -/
theorem splitBytes_eq_none {n : ℕ} (hpos : 0 < n) (hlt : n < c.utf8Size) :
    splitBytes (byteLength w + n) (w ++ c :: rest) = none := by
  induction w with
  | nil =>
      obtain ⟨n, rfl⟩ := Nat.exists_eq_succ_of_ne_zero hpos.ne'
      rw [byteLength_nil, Nat.zero_add, List.nil_append, splitBytes, if_neg (Nat.not_le.mpr hlt)]
  | cons d w ih =>
      have hd := d.utf8Size_pos
      have hcount : byteLength (d :: w) + n = d.utf8Size + (byteLength w + n) := by
        rw [byteLength_cons, Nat.add_assoc]
      obtain ⟨k, hk⟩ : ∃ k, d.utf8Size + (byteLength w + n) = k + 1 :=
        Nat.exists_eq_succ_of_ne_zero (by omega)
      have hrest : k + 1 - d.utf8Size = byteLength w + n := by omega
      rw [hcount, hk, List.cons_append, splitBytes, if_pos (by omega), hrest, ih]
      rfl

section

variable (hfirst : s.first = Position.start.advanceOver before)
  (hlast : s.last = Position.start.advanceOver (before ++ w))

include hfirst hlast

/-- The last character counts for one byte. -/
theorem size_eq_succ : s.size = byteLength w + 1 := by
  rw [size, hfirst, hlast, Position.offset_advanceOver, Position.offset_advanceOver,
    byteLength_append]
  omega

/-- **A span cuts out its text if the last character is a single byte, and else nothing.** -/
theorem slice_eq_ite : s.slice (before ++ (w ++ c :: rest)) =
    if c.utf8Size = 1 then some (w ++ [c]) else none := by
  have hstart : splitBytes s.first.offset (before ++ (w ++ c :: rest)) =
      some (before, w ++ c :: rest) := by
    rw [hfirst, Position.offset_advanceOver]
    exact (Nat.zero_add _).symm ▸ splitBytes_append before _
  have hslice : s.slice (before ++ (w ++ c :: rest)) =
      (splitBytes (byteLength w + 1) (w ++ c :: rest)).map Prod.fst := by
    simp only [slice, hstart, size_eq_succ hfirst hlast, Option.bind_eq_bind, Option.bind_some]
    cases splitBytes (byteLength w + 1) (w ++ c :: rest) <;> rfl
  rw [hslice]
  split
  · next hc =>
    have hlength : byteLength w + 1 = byteLength (w ++ [c]) := by
      rw [byteLength_append, byteLength_cons, byteLength_nil, hc]
    rw [hlength, List.append_cons w c rest, splitBytes_append]
    rfl
  · next hc =>
    have hsize := c.utf8Size_pos
    rw [splitBytes_eq_none Nat.one_pos (by omega)]
    rfl

/-- A span reaches into a later row if there is a newline before its last character. -/
theorem isMultiline_iff : s.isMultiline = true ↔ '\n' ∈ w := by
  rw [isMultiline, decide_eq_true_iff, hfirst, hlast, Position.advanceOver_start,
    Position.advanceOver_start, Position.past, Position.past, List.count_append,
    ← List.count_pos_iff]
  dsimp only
  omega

end

end Span

/-! ## Lexemes -/

section

variable {recognizers : List Recognizer} {source : List Char} {token : Token} {n : ℕ}

/-- Every lexeme stands somewhere in the source. -/
theorem exists_standsBehind
    (h : answer (Lexer.start recognizers true source) n = some (.ok token)) :
    ∃ before rest, before ++ (token.chars ++ rest) = source ∧ token.StandsBehind before := by
  have htiled := (Progress.run recognizers source (n + 1)).tiled
  rw [TokenStream.answers_succ, h, tokensOf_concat_token] at htiled
  refine ⟨_, (after (Lexer.start recognizers true source) (n + 1)).cursor.pending, ?_,
    htiled.stands _ token [] rfl⟩
  rw [← List.append_assoc, ← textOf_concat]
  exact htiled.split

/-- What a lexer that leaves out lexemes hands out is also handed out by one that does not. -/
theorem exists_answer_keeping {yieldsDiscarded : Bool} {item : Item}
    (h : answer (Lexer.start recognizers yieldsDiscarded source) n = some item) :
    ∃ k, answer (Lexer.start recognizers true source) k = some item := by
  rw [TokenStream.answer_eq_getElem?] at h
  have hmem := Lexer.mem_items_keeping (List.mem_of_getElem? h)
  obtain ⟨k, hk⟩ := List.mem_iff_getElem?.mp hmem
  exact ⟨k, by rw [TokenStream.answer_eq_getElem?, hk]⟩

end

/-- **Spans cut out their lexemes, if these end in ASCII.**  Else they cut out nothing, and their
size falls short of that of the lexeme.  In a source file all lexemes are cut out.  A span is on
several rows if its lexeme has a newline before the last character. -/
theorem spans_slice_back (recognizers : List Recognizer) (yieldsDiscarded : Bool)
    (source : List Char) (n : ℕ) {token : Token}
    (h : answer (Lexer.start recognizers yieldsDiscarded source) n = some (.ok token)) :
    ∃ w c, token.chars = w ++ [c] ∧
      (c.toNat < 128 → token.span.slice source = some token.chars ∧
        token.span.size = token.value.text.utf8ByteSize) ∧
      (128 ≤ c.toNat → token.span.slice source = none ∧
        token.span.size < token.value.text.utf8ByteSize) ∧
      (∀ file : SourceFile, file.chars = source →
        token.span.slice file.chars = some token.chars) ∧
      (token.span.isMultiline = true ↔ '\n' ∈ w) := by
  obtain ⟨k, hk⟩ := exists_answer_keeping h
  obtain ⟨before, rest, hsource, hfirst, w, c, hchars, hlast, -⟩ := exists_standsBehind hk
  have hbytes : token.value.text.utf8ByteSize = byteLength w + c.utf8Size := by
    rw [← String.ofList_toList (s := token.value.text), ← byteLength_eq_utf8ByteSize, ← Token.chars,
      hchars, byteLength_append, byteLength_cons, byteLength_nil, Nat.add_zero]
  have hsize := Span.size_eq_succ hfirst hlast
  -- the span ends one byte behind the start of the last character
  have hslice : token.span.slice source = if c.utf8Size = 1 then some token.chars else none := by
    rw [← hsource, hchars, List.append_assoc]
    exact Span.slice_eq_ite hfirst hlast
  refine ⟨w, c, hchars, ?_, ?_, ?_, Span.isMultiline_iff hfirst hlast⟩
  · intro hascii
    have hone := utf8Size_eq_one_iff_ascii.mpr hascii
    rw [hslice, if_pos hone, hsize, hbytes, hone]
    exact ⟨rfl, rfl⟩
  · intro hwide
    have hmore : c.utf8Size ≠ 1 := utf8Size_eq_one_iff_ascii.not.mpr (Nat.not_lt.mpr hwide)
    have hpos := c.utf8Size_pos
    rw [hslice, if_neg hmore, hsize, hbytes]
    exact ⟨rfl, by omega⟩
  · rintro file rfl
    have hmem : c ∈ file.chars := by simp [← hsource, hchars]
    rw [hslice, if_pos (utf8Size_eq_one_iff_ascii.mpr (file.ascii c hmem))]

/-- The comment has four bytes, and its span ends with the first byte of the last character. -/
theorem spans_slice_back_comment :
    let source := ['x', '-', '-', 'é']
    let span : Span := .covering (Position.start.advance 'x') ['-', '-', 'é']
    let token : Token := ⟨span, ⟨"--é", .discarded⟩⟩
    answer (Lexer.start mhRecognizers true source) 1 = some (.ok token) ∧
      token.span.slice source = none ∧ token.span.size < token.value.text.utf8ByteSize := by
  intro source span token
  have hcomment : ∀ p, Munch mhRecognizers p (['-', '-', 'é'] ++ []) _ := fun p =>
    .lexeme_append (Scan.isGreatest_length (m := ⟨3, .discarded, by decide⟩) (by decide))
      (r := .comment) (by decide) .done
  have hname : Munch mhRecognizers .start (['x'] ++ ['-', '-', 'é']) _ :=
    .lexeme_append (Scan.isGreatest_length (m := ⟨1, .identifier, by decide⟩) (by decide))
      (r := .identifier) (by decide) (hcomment _)
  have hanswer : answer (Lexer.start mhRecognizers true source) 1 = some (.ok token) :=
    (Lexer.answer_start_of_munch hname 1).trans rfl
  obtain ⟨w, c, hchars, -, hwide, -⟩ := spans_slice_back mhRecognizers true source 1 hanswer
  have htext : token.chars = ['-', '-'] ++ ['é'] := by simp [Token.chars, token]
  have hlast : ['-', '-'] ++ ['é'] = w ++ [c] := htext.symm.trans hchars
  obtain rfl : 'é' = c := List.singleton_inj.mp (List.append_inj' hlast rfl).2
  exact ⟨hanswer, hwide (by decide)⟩

end Frontend
