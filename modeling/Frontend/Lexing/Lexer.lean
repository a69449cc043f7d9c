import Frontend.Lexing.Match
import Frontend.Lexing.Stream

/-!
# The lexer

The lexer cuts a source text into lexemes.  At the start of each lexeme it scans the text ahead with
all recognizers; the longest match is the lexeme, and the text after it is left for the next one.
When nothing matches, the first character is reported as unexpected and the lexer has finished.

A `Cursor` is the place a lexer has reached.  It also keeps count of how far the source was ever
read: the lexer reads no further ahead than it has to, and what it has not read cannot have had an
influence on the lexemes so far.

Lexemes of discarded classes are skipped unless the lexer is told to keep them; the journal has all
of them either way.
-/

namespace Frontend

/-- How far a source text has been lexed. -/
structure Cursor where
  /-- The position of the first character that is not part of a lexeme yet. -/
  position : Position
  /-- The characters from there on. -/
  pending : List Char
  /-- The number of characters before `position`. -/
  consumed : Nat
  /-- The number of characters of the source that have been looked at. -/
  read : Nat
deriving DecidableEq, Repr

namespace Cursor

def start (source : List Char) : Cursor := ⟨.start, source, 0, 0⟩

def skip (c : Cursor) (n : Nat) : Cursor :=
  { c with
    position := c.position.advanceOver (c.pending.take n)
    pending := c.pending.drop n
    consumed := c.consumed + n }

def lexeme (c : Cursor) (m : Match) : Token :=
  let text := c.pending.take m.length
  ⟨.covering c.position text, ⟨String.ofList text, m.tokenClass⟩⟩

/-- The next lexeme or error and the cursor after it, or none at the end of the source. -/
def attempt (recognizers : List Recognizer) (c : Cursor) : Option (Item × Cursor) :=
  match c.pending with
  | [] => none
  | first :: _ =>
    let scan := Scan.of recognizers c.pending
    let c := { c with read := max c.read (c.consumed + scan.inspected) }
    match scan.longest with
    | some m => some (.ok (c.lexeme m), c.skip m.length)
    | none => some (.error ⟨.single c.position, .unexpectedCharacter first⟩, c)

theorem length_pending_lt {recognizers : List Recognizer} {c c' : Cursor} {token : Token}
    (h : c.attempt recognizers = some (.ok token, c')) : c'.pending.length < c.pending.length := by
  unfold attempt at h
  split at h
  · simp at h
  · next hc =>
    dsimp only at h
    split at h
    · next m _ =>
      simp only [Option.some.injEq, Prod.mk.injEq] at h
      have := m.length_pos
      simp only [← h.2, skip, List.length_drop, hc, List.length_cons]
      omega
    · simp at h

end Cursor

structure Lexer where
  recognizers : List Recognizer
  /-- Whether lexemes of discarded classes are handed out as well. -/
  yieldsDiscarded : Bool
  cursor : Cursor
  /-- Whether the end of the source or an error was met. -/
  finished : Bool
deriving DecidableEq, Repr

namespace Lexer

def start (recognizers : List Recognizer) (yieldsDiscarded : Bool) (source : List Char) : Lexer :=
  ⟨recognizers, yieldsDiscarded, .start source, false⟩

def position (l : Lexer) : Position := l.cursor.position

def read (l : Lexer) : Nat := l.cursor.read

/-- The next token or error.  There is none at the end of the source, nor after an error. -/
def next (l : Lexer) : Traced (Option Item × Lexer) :=
  if l.finished then pure (none, l)
  else
    match _h : l.cursor.attempt l.recognizers with
    | none => pure (none, { l with finished := true })
    | some (.error e, c) => pure (some (.error e), { l with cursor := c, finished := true })
    | some (.ok token, c) =>
      if token.value.isDiscarded && !l.yieldsDiscarded then
        .note (.recognized token) (next { l with cursor := c })
      else .note (.recognized token) (pure (some (.ok token), { l with cursor := c }))
termination_by l.cursor.pending.length
decreasing_by exact Cursor.length_pending_lt _h

/-- One more than the number of pending characters, as an error takes none of them. -/
def remaining (l : Lexer) : Nat := if l.finished then 0 else l.cursor.pending.length + 1

theorem remaining_next (l : Lexer) (h : l.next.value.1.isSome = true) :
    l.next.value.2.remaining < l.remaining := by
  fun_induction next l with
  | case1 => simp at h
  | case2 => simp at h
  | case3 l hl => simp [remaining, hl]
  | case4 l hl token c hc hskip ih =>
    have := Cursor.length_pending_lt hc
    have := ih (by simpa [hskip] using h)
    simp only [remaining, hl] at this ⊢
    simp_all
    omega
  | case5 l hl token c hc hkeep =>
    have := Cursor.length_pending_lt hc
    simp_all [remaining]

instance : TokenStream Lexer := ⟨next, remaining, remaining_next⟩

end Lexer

/-- All tokens of a source text, or its first lexical error. -/
def tokenize (recognizers : List Recognizer) (source : List Char) :
    Traced (Except LexError (List Token)) :=
  TokenStream.collect (Lexer.start recognizers false source)

end Frontend
