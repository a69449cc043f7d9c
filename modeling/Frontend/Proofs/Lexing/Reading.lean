import Frontend.Proofs.Lexing.Attempt

/-!
# Reading on demand

A cursor has all of the text ahead of it, and a number says how much of this was looked at.  A lexer
that takes its characters from somewhere else, one at a time, has a buffer instead: the characters
that were taken and are not part of a lexeme yet.  It looks at these first, which an earlier scan
left there when it went further than its match, and takes another one only when there is none left
to look at (`Buffer.fill`).

`Buffer.attempt` is an attempt that is made in this way.  It does to the buffer what the attempt of
a cursor does to the cursor (`Cursor.attempt_buffer`): a scan takes what it looks at unless it is
there already, so in the end there is in the buffer, or was, what was ever looked at.  A `Reader` is
a lexer with a buffer, and does what a lexer does (`Lexer.next_reader`).  So what a lexer counts as
read is what was really taken from the source (`Cursor.Tracks.unread_buffer`).
-/

namespace Frontend

open TokenStream (after answers)

/-- A text that is read one character at a time. -/
structure Buffer where
  /-- What was read and is not part of a lexeme yet. -/
  held : List Char
  unread : List Char
deriving DecidableEq, Repr

/-- The match that is found when the scan starts `n` characters further ahead. -/
def Match.shiftBy (m : Match) (n : ℕ) : Match :=
  ⟨n + m.length, m.tokenClass, Nat.add_pos_right n m.length_pos⟩

theorem Match.shiftBy_shift (m : Match) (n : ℕ) : m.shift.shiftBy n = m.shiftBy (n + 1) := by
  simp only [shift, shiftBy, mk.injEq, and_true]
  omega

namespace Buffer

/-- All that is ahead, whether it was read or not. -/
def text (b : Buffer) : List Char := b.held ++ b.unread

/-- The buffer when `n` characters of the text were read. -/
def split (text : List Char) (n : ℕ) : Buffer := ⟨text.take n, text.drop n⟩

/-- Reads on until there are more than `n` characters in the buffer, or nothing is left to read. -/
def fill (b : Buffer) (n : ℕ) : Buffer :=
  match _h : b.unread with
  | [] => b
  | c :: unread => if n < b.held.length then b else fill ⟨b.held ++ [c], unread⟩ n
termination_by b.unread.length
decreasing_by simp [_h]

theorem text_fill (b : Buffer) (n : ℕ) : (b.fill n).text = b.text := by
  fun_induction fill b n with
  | case1 | case2 => rfl
  | case3 b c unread hunread hle ih => simpa [text, hunread] using ih

/-- Runs the recognizers on the characters from the one with the number `n` on, and reads these when
it comes to them.  The longest match so far is `longest`. -/
def scan (runs : List Run) (n : ℕ) (longest : Option Match) (b : Buffer) : Option Match × Buffer :=
  match h : (b.fill n).held[n]? with
  | none => (longest, b.fill n)
  | some c =>
    let stepped := runs.map (·.step c)
    let longest := ((Scan.winner? stepped).map fun k => (Match.one k).shiftBy n).or longest
    if stepped.all Run.isDead then (longest, b.fill n)
    else scan stepped (n + 1) longest (b.fill n)
termination_by b.text.length - n
decreasing_by
  have hn := (List.getElem?_eq_some_iff.mp h).1
  have hheld : (b.fill n).held.length ≤ (b.fill n).text.length := by simp [text]
  rw [text_fill] at hheld ⊢
  omega

/-- The next lexeme or error, the position after it and the buffer that is left, or none at the end
of the source. -/
def attempt (recognizers : List Recognizer) (p : Position) (b : Buffer) :
    Option (Item × Position × Buffer) :=
  match (b.fill 0).held with
  | [] => none
  | first :: _ =>
    match scan (recognizers.map Run.start) 0 none (b.fill 0) with
    | (some m, b) =>
      let text := b.held.take m.length
      some (.ok ⟨.covering p text, ⟨String.ofList text, m.tokenClass⟩⟩, p.advanceOver text,
        ⟨b.held.drop m.length, b.unread⟩)
    | (none, b) => some (.error ⟨.single p, .unexpectedCharacter first⟩, p, b)

/-! ## What is read -/

variable {text : List Char} {m n : ℕ} {c : Char}

theorem fill_split (hm : m ≤ text.length) :
    (split text m).fill n = split text (max m (min (n + 1) text.length)) := by
  -- by induction on what is not held yet, one character at a time
  induction hk : text.length - m generalizing m with
  | zero =>
      have hmax : max m (min (n + 1) text.length) = m := by omega
      have hnil : text.drop m = [] := List.drop_eq_nil_of_le (by omega)
      rw [fill, hmax]
      split
      · rfl
      · next h => simp [split, hnil] at h
  | succ k ih =>
      have hlt : m < text.length := by omega
      rw [fill]
      split
      · next h => simp [split, List.drop_eq_nil_iff] at h; omega
      · next c unread h =>
        rw [split, List.drop_eq_getElem_cons hlt] at h
        obtain ⟨rfl, rfl⟩ := List.cons.inj h
        have hheld : (split text m).held.length = m := List.length_take_of_le hm
        rw [hheld]
        split
        · next hn => rw [show max m (min (n + 1) text.length) = m by omega]
        · next hn =>
          have hmore : (⟨(split text m).held ++ [text[m]], text.drop (m + 1)⟩ : Buffer) =
              split text (m + 1) := by
            rw [split, split, List.take_append_getElem hlt]
          rw [hmore, ih hlt (by omega)]
          congr 1
          omega

/-- What is asked for is in the buffer then, unless the text ends before it. -/
theorem held_fill_split (hm : m ≤ text.length) : ((split text m).fill n).held[n]? = text[n]? := by
  rw [fill_split hm, split]
  rcases Nat.lt_or_ge n text.length with hn | hn
  · rw [List.getElem?_take_of_lt (by omega)]
  · rw [List.getElem?_eq_none hn, List.getElem?_eq_none]
    rw [List.length_take]
    omega

/-- **A scan finds the same on demand, and reads what it looks at.** -/
theorem scan_split {runs : List Run} {longest : Option Match} (hm : m ≤ text.length) :
    scan runs n longest (split text m) =
      (((Scan.ofRuns runs (text.drop n)).longest.map (·.shiftBy n)).or longest,
        split text (max m (min (n + (Scan.ofRuns runs (text.drop n)).inspected) text.length))) := by
  induction hrest : text.drop n generalizing runs n longest m with
  | nil =>
      -- there is no character to look at, and asking for one reads nothing
      have hn : text.length ≤ n := List.drop_eq_nil_iff.mp hrest
      have hnone : ((split text m).fill n).held[n]? = none := by
        rw [held_fill_split hm, List.getElem?_eq_none hn]
      rw [scan]
      split
      · rw [fill_split hm, show min (n + 1) text.length = min n text.length by omega]
        rfl
      · next h => rw [hnone] at h; contradiction
  | cons c rest ih =>
      have hn : n < text.length := by
        rw [← List.drop_eq_nil_iff.not.trans Nat.not_le, hrest]
        exact List.cons_ne_nil c rest
      rw [List.drop_eq_getElem_cons hn] at hrest
      obtain ⟨rfl, hdrop⟩ := List.cons.inj hrest
      have hsome : ((split text m).fill n).held[n]? = some text[n] := by
        rw [held_fill_split hm, List.getElem?_eq_getElem hn]
      rw [scan]
      split
      · next h => rw [hsome] at h; contradiction
      · next c h =>
        obtain rfl : text[n] = c := Option.some.inj (hsome.symm.trans h)
        -- the character is read because it is looked at, which is why the reach grows by one
        rw [fill_split hm, Scan.ofRuns]
        dsimp only
        split
        · next hdead =>
          rw [Scan.winner?_eq_none_of_isDead hdead]
          rfl
        · rw [ih (by omega) hdrop]
          generalize Scan.ofRuns (runs.map (·.step text[n])) rest = later
          have hread : max (max m (min (n + 1) text.length))
              (min (n + 1 + later.inspected) text.length) =
                max m (min (n + (later.inspected + 1)) text.length) := by omega
          rw [hread]
          simp only [Option.map_or, Option.map_map, Function.comp_def, Match.shiftBy_shift,
            Option.or_assoc]

theorem scan_start_split {recognizers : List Recognizer} (hm : m ≤ text.length) :
    scan (recognizers.map Run.start) 0 none (split text m) =
      ((Scan.of recognizers text).longest,
        split text (max m (Scan.of recognizers text).inspected)) := by
  have hle : (Scan.of recognizers text).inspected ≤ text.length := Scan.inspected_ofRuns_le _ _
  have hshift : (fun m : Match => m.shiftBy 0) = id := by
    funext m
    simp only [Match.shiftBy, Nat.zero_add, id]
  rw [scan_split hm, List.drop_zero, Option.or_none, hshift, Option.map_id, id, Nat.zero_add,
    ← Scan.of, Nat.min_eq_left hle]

end Buffer

/-! ## The buffer of a cursor -/

namespace Cursor

/-- What was read but is not part of a lexeme yet is in the buffer. -/
def buffer (c : Cursor) : Buffer := .split c.pending (c.read - c.consumed)

/-- The cursor is at some place of `source`, and what was read of `source` reaches up to it. -/
structure Tracks (source : List Char) (c : Cursor) : Prop where
  pending : c.pending = source.drop c.consumed
  consumed_le : c.consumed ≤ c.read
  read_le : c.read ≤ source.length

variable {recognizers : List Recognizer} {source : List Char} {c : Cursor} {m : Match}

namespace Tracks

theorem start (source : List Char) : (Cursor.start source).Tracks source :=
  ⟨rfl, Nat.le_refl 0, Nat.zero_le _⟩

theorem length_pending (h : c.Tracks source) : c.consumed + c.pending.length = source.length := by
  have hconsumed := h.consumed_le
  have hread := h.read_le
  rw [h.pending, List.length_drop]
  omega

theorem held_le (h : c.Tracks source) : c.read - c.consumed ≤ c.pending.length := by
  have hlength := h.length_pending
  have hread := h.read_le
  omega

/-- The number of characters that were read is what is missing from the rest of the source. -/
theorem unread_buffer (h : c.Tracks source) : c.buffer.unread = source.drop c.read := by
  rw [buffer, Buffer.split, h.pending, List.drop_drop, Nat.add_sub_of_le h.consumed_le]

theorem look (h : c.Tracks source) (recognizers : List Recognizer) :
    (c.look recognizers).Tracks source where
  pending := h.pending
  consumed_le := h.consumed_le.trans (Nat.le_max_left _ _)
  read_le := by
    have hle : (Scan.of recognizers c.pending).inspected ≤ c.pending.length :=
      Scan.inspected_ofRuns_le _ _
    have hlength := h.length_pending
    have hread := h.read_le
    simp only [Cursor.look]
    omega

/-- A match is looked at before it is skipped. -/
theorem skip_look (h : c.Tracks source)
    (hm : (Scan.of recognizers c.pending).longest = some m) :
    ((c.look recognizers).skip m.length).Tracks source where
  pending := by
    show c.pending.drop m.length = source.drop (c.consumed + m.length)
    rw [h.pending, List.drop_drop]
  consumed_le := by
    have hle : m.length ≤ (Scan.of recognizers c.pending).inspected := Scan.length_le_inspected hm
    simp only [Cursor.look, Cursor.skip]
    omega
  read_le := (h.look recognizers).read_le

end Tracks

theorem text_buffer (c : Cursor) : c.buffer.text = c.pending := List.take_append_drop _ _

theorem buffer_look (h : c.Tracks source) : (c.look recognizers).buffer =
    .split c.pending (max (c.read - c.consumed) (Scan.of recognizers c.pending).inspected) := by
  have hconsumed := h.consumed_le
  simp only [buffer, look]
  congr 1
  omega

theorem buffer_skip {n : ℕ} (hn : n ≤ c.read - c.consumed) :
    (c.skip n).buffer = ⟨c.buffer.held.drop n, c.buffer.unread⟩ := by
  have hread : n + (c.read - (c.consumed + n)) = c.read - c.consumed := by omega
  simp only [buffer, skip, Buffer.split, List.drop_take, List.drop_drop, hread, Nat.sub_sub]

theorem scan_fill_buffer (h : c.Tracks source) (hpending : c.pending ≠ []) :
    Buffer.scan (recognizers.map Run.start) 0 none (c.buffer.fill 0) =
      ((Scan.of recognizers c.pending).longest, (c.look recognizers).buffer) := by
  have hpos : 0 < c.pending.length := List.length_pos_iff.mpr hpending
  have hlooked : 0 < (Scan.of recognizers c.pending).inspected := Scan.inspected_pos hpending
  have hheld := h.held_le
  rw [buffer, Buffer.fill_split hheld, Buffer.scan_start_split (by omega), buffer_look h]
  congr 2
  omega

/-- **An attempt on demand does to the buffer what an attempt does to the cursor.** -/
theorem attempt_buffer (h : c.Tracks source) (recognizers : List Recognizer) :
    c.buffer.attempt recognizers c.position =
      (c.attempt recognizers).map fun (item, c') => (item, c'.position, c'.buffer) := by
  have hfill : (c.buffer.fill 0).held =
      c.pending.take (max (c.read - c.consumed) (min 1 c.pending.length)) :=
    congrArg Buffer.held (Buffer.fill_split h.held_le)
  cases hpending : c.pending with
  | nil =>
      rw [hpending, List.take_nil] at hfill
      rw [attempt_eq_none hpending, Buffer.attempt, hfill]
      rfl
  | cons first rest =>
      rw [hpending, List.length_cons, List.take_cons (by omega)] at hfill
      have hscan : Buffer.scan (recognizers.map Run.start) 0 none (c.buffer.fill 0) = _ :=
        scan_fill_buffer h (hpending ▸ List.cons_ne_nil first rest)
      rw [Buffer.attempt, hfill]
      dsimp only
      rw [hscan]
      cases hlongest : (Scan.of recognizers c.pending).longest with
      | none =>
          rw [attempt_eq_error hpending hlongest]
          rfl
      | some m =>
          rw [attempt_eq_lexeme hlongest]
          -- the lexeme was looked at, so all of it is held by now
          have hle : m.length ≤ (Scan.of recognizers c.pending).inspected :=
            Scan.length_le_inspected hlongest
          have hbuffer : ((c.look recognizers).skip m.length).buffer = _ := buffer_skip (by
            simp only [look]
            omega)
          have htext : (c.look recognizers).buffer.held.take m.length =
              c.pending.take m.length := by
            rw [buffer_look h, Buffer.split, List.take_take, Nat.min_eq_left (by omega)]
          dsimp only [Option.map_some]
          rw [hbuffer, htext]
          rfl

theorem Tracks.attempt {c' : Cursor} {item : Item} (h : c.Tracks source)
    (hattempt : c.attempt recognizers = some (item, c')) : c'.Tracks source := by
  obtain ⟨m, hlongest, -, rfl⟩ | ⟨first, rest, -, -, -, rfl⟩ := attempt_cases hattempt
  · exact h.skip_look hlongest
  · exact h.look recognizers

end Cursor

/-! ## The cursor of a buffer -/

namespace Buffer

variable {recognizers : List Recognizer} {p p' : Position} {b b' : Buffer} {token : Token}

def cursor (p : Position) (b : Buffer) : Cursor := ⟨p, b.text, 0, b.held.length⟩

theorem tracks_cursor (p : Position) (b : Buffer) : (b.cursor p).Tracks b.text where
  pending := rfl
  consumed_le := Nat.zero_le _
  read_le := by simp [cursor, text]

theorem buffer_cursor (p : Position) (b : Buffer) : (b.cursor p).buffer = b := by
  simp [cursor, Cursor.buffer, split, text]

theorem length_text_lt (h : b.attempt recognizers p = some (.ok token, p', b')) :
    b'.text.length < b.text.length := by
  have hattempt := Cursor.attempt_buffer (tracks_cursor p b) recognizers
  rw [buffer_cursor, show (b.cursor p).position = p from rfl, h] at hattempt
  obtain ⟨⟨item, c⟩, hc, heq⟩ := Option.map_eq_some_iff.mp hattempt.symm
  obtain ⟨rfl, -, rfl⟩ : item = .ok token ∧ c.position = p' ∧ c.buffer = b' := by simpa using heq
  rw [Cursor.text_buffer]
  exact Cursor.length_pending_lt hc

end Buffer

/-! ## A lexer that reads on demand -/

/-- A lexer with a buffer in place of the text ahead. -/
structure Reader where
  recognizers : List Recognizer
  yieldsDiscarded : Bool
  /-- The position of the first character that is not part of a lexeme yet. -/
  position : Position
  buffer : Buffer
  finished : Bool
deriving DecidableEq, Repr

namespace Reader

def start (recognizers : List Recognizer) (yieldsDiscarded : Bool) (source : List Char) : Reader :=
  ⟨recognizers, yieldsDiscarded, .start, ⟨[], source⟩, false⟩

def next (r : Reader) : Traced (Option Item × Reader) :=
  if r.finished then pure (none, r)
  else
    match _h : r.buffer.attempt r.recognizers r.position with
    | none => pure (none, { r with finished := true })
    | some (.error e, p, b) =>
      pure (some (.error e), { r with position := p, buffer := b, finished := true })
    | some (.ok token, p, b) =>
      let rest := { r with position := p, buffer := b }
      if token.value.isDiscarded && !r.yieldsDiscarded then .note (.recognized token) (next rest)
      else .note (.recognized token) (pure (some (.ok token), rest))
termination_by r.buffer.text.length
decreasing_by exact Buffer.length_text_lt _h

/-- The lexer that has the text of the buffer ahead. -/
def lexer (r : Reader) : Lexer :=
  ⟨r.recognizers, r.yieldsDiscarded, r.buffer.cursor r.position, r.finished⟩

variable {r : Reader} {p : Position} {b : Buffer} {token : Token}

theorem next_of_finished (h : r.finished = true) : r.next = pure (none, r) := by
  rw [next, if_pos h]

theorem next_of_attempt_none (hf : ¬ r.finished = true)
    (h : r.buffer.attempt r.recognizers r.position = none) :
    r.next = pure (none, { r with finished := true }) := by
  rw [next, if_neg hf]
  split <;> simp_all

theorem next_of_attempt_error {e : LexError} (hf : ¬ r.finished = true)
    (h : r.buffer.attempt r.recognizers r.position = some (.error e, p, b)) :
    r.next = pure (some (.error e), { r with position := p, buffer := b, finished := true }) := by
  rw [next, if_neg hf]
  split <;> simp_all

theorem next_of_attempt_skipped (hf : ¬ r.finished = true)
    (hskip : (token.value.isDiscarded && !r.yieldsDiscarded) = true)
    (h : r.buffer.attempt r.recognizers r.position = some (.ok token, p, b)) :
    r.next = .note (.recognized token) (next { r with position := p, buffer := b }) := by
  rw [next, if_neg hf]
  split <;> simp_all

theorem next_of_attempt_kept (hf : ¬ r.finished = true)
    (hkeep : ¬ (token.value.isDiscarded && !r.yieldsDiscarded) = true)
    (h : r.buffer.attempt r.recognizers r.position = some (.ok token, p, b)) :
    r.next = .note (.recognized token)
      (pure (some (.ok token), { r with position := p, buffer := b })) := by
  rw [next, if_neg hf]
  split <;> simp_all

end Reader

namespace Lexer

variable {source : List Char} {l : Lexer}

def reader (l : Lexer) : Reader :=
  ⟨l.recognizers, l.yieldsDiscarded, l.position, l.cursor.buffer, l.finished⟩

theorem tracks_next (h : l.cursor.Tracks source) : l.next.value.2.cursor.Tracks source := by
  fun_induction next l with
  | case1 => exact h
  | case2 => exact h
  | case3 l hf e c hc => exact h.attempt hc
  | case4 l hf token c hc hskip ih => exact ih (h.attempt hc)
  | case5 l hf token c hc hkeep => exact h.attempt hc

/-- **A lexer that reads on demand does what a lexer does.** -/
theorem next_reader (h : l.cursor.Tracks source) :
    l.reader.next = (fun (item, l') => (item, l'.reader)) <$> l.next := by
  have hattempt := Cursor.attempt_buffer h l.recognizers
  fun_induction next l with
  | case1 l hf => exact Reader.next_of_finished hf
  | case2 l hf hc =>
      rw [hc] at hattempt
      exact Reader.next_of_attempt_none hf hattempt
  | case3 l hf e c hc =>
      rw [hc] at hattempt
      exact Reader.next_of_attempt_error hf hattempt
  | case4 l hf token c hc hskip ih =>
      rw [hc] at hattempt
      have hrest := h.attempt hc
      calc l.reader.next = .note (.recognized token) (reader { l with cursor := c }).next :=
            Reader.next_of_attempt_skipped (r := l.reader) hf hskip hattempt
        _ = _ := congrArg (Traced.note _) (ih hrest (Cursor.attempt_buffer hrest _))
  | case5 l hf token c hc hkeep =>
      rw [hc] at hattempt
      exact Reader.next_of_attempt_kept (r := l.reader) hf hkeep hattempt

end Lexer

/-! ## Any number of calls -/

namespace Reader

theorem reader_lexer (r : Reader) : r.lexer.reader = r := by
  rw [Lexer.reader]
  simp only [lexer, Buffer.buffer_cursor]
  rfl

theorem next_eq_map (r : Reader) :
    r.next = (fun (item, l) => (item, l.reader)) <$> r.lexer.next := by
  rw [← Lexer.next_reader (l := r.lexer) (Buffer.tracks_cursor _ _), reader_lexer]

theorem remaining_lexer_reader (l : Lexer) : l.reader.lexer.remaining = l.remaining := by
  simp only [Lexer.remaining, lexer, Lexer.reader, Buffer.cursor, Cursor.text_buffer]

instance : TokenStream Reader where
  next := next
  remaining r := r.lexer.remaining
  remaining_next r h := by
    rw [next_eq_map] at h ⊢
    rw [Traced.value_map, remaining_lexer_reader]
    exact Lexer.remaining_next _ h

end Reader

namespace Lexer

variable {source : List Char} {l : Lexer}

theorem tracks_after (h : l.cursor.Tracks source) (n : ℕ) :
    (after l n).cursor.Tracks source := by
  induction n with
  | zero => exact h
  | succ n ih => exact tracks_next ih

theorem after_reader (h : l.cursor.Tracks source) (n : ℕ) :
    after l.reader n = (after l n).reader := by
  induction n with
  | zero => rfl
  | succ n ih =>
      rw [TokenStream.after_succ, TokenStream.after_succ, ih]
      exact congrArg (·.value.2) (next_reader (tracks_after h n))

theorem answers_reader (h : l.cursor.Tracks source) (n : ℕ) :
    answers l.reader n = answers l n := by
  refine List.map_congr_left ?_
  intro k _
  rw [TokenStream.answer, after_reader h k]
  exact congrArg (·.value.1) (next_reader (tracks_after h k))

end Lexer
end Frontend
