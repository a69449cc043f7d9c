import Frontend.Proofs.Lexing.Discarding
import Frontend.Proofs.Lexing.Reading

/-!
# How far a lexer reads

At the start of a lexeme a lexer reads until all recognizers are dead, or to the end of the source.
This is the `lookahead`, counted from the start of the lexeme.  What was read does not have to be
read again for the next lexeme, whose start is not further ahead, so a lexer has read to the place
that the attempt which reached furthest came to.  A call of a lexer that leaves out lexemes may make
several attempts; `Lexer.attempts` lists them.

What was not read has no influence on what a lexer does.  Two sources that are alike as far as the
first one was read are followed by the same lexer, which holds another text but knows nothing of it
(`Lexer.on`).  The source has to be longer than what was read: a lexer that came to the end has seen
that there is nothing more, and would go on if there was.
-/

namespace Frontend

open TokenStream (after answer answers)

/-- How many characters of a text have to be read until all recognizers are dead, or all of them. -/
def lookahead (recognizers : List Recognizer) (text : List Char) : ℕ :=
  ((List.range' 1 text.length).find? fun d =>
    recognizers.all fun r => r.isDead (r.run (text.take d))).getD text.length

/-! ## Scans -/

namespace Scan

variable {recognizers : List Recognizer} {text text' : List Char} {runs : List Run}

theorem deadAfter_start {w : List Char} : deadAfter (recognizers.map Run.start) w =
    recognizers.all fun r => r.isDead (r.run w) := by
  simp [deadAfter, List.all_map, Function.comp_def, Run.after, Run.start, Run.isDead,
    Recognizer.run]

/-- **A scan looks at what it has to look at.** -/
theorem inspected_eq_lookahead (recognizers : List Recognizer) (text : List Char) :
    (of recognizers text).inspected = lookahead recognizers text := by
  have hle : (of recognizers text).inspected ≤ text.length := inspected_ofRuns_le _ _
  have hpos : 0 < text.length → 0 < (of recognizers text).inspected := fun h =>
    inspected_pos (List.length_pos_iff.mp h)
  have hlive : ∀ n, 0 < n → n < (of recognizers text).inspected →
      (recognizers.all fun r => r.isDead (r.run (text.take n))) = false := by
    intro n hn hlt
    rw [← deadAfter_start]
    exact not_deadAfter_of_lt_inspected hn hlt
  have hdead : (of recognizers text).inspected < text.length → (recognizers.all fun r =>
      r.isDead (r.run (text.take (of recognizers text).inspected))) = true := by
    intro hlt
    rw [← deadAfter_start]
    exact deadAfter_of_inspected_lt hlt
  -- so the scan ends at the first place where all are dead, or with the text
  rw [lookahead]
  cases hfind : (List.range' 1 text.length).find? fun d =>
      recognizers.all fun r => r.isDead (r.run (text.take d)) with
  | none =>
      rw [List.find?_range'_eq_none] at hfind
      refine hle.eq_of_not_lt ?_
      intro hlt
      have hnot := hfind _ (hpos (by omega)) (by omega)
      rw [hdead hlt] at hnot
      contradiction
  | some d =>
      obtain ⟨hd, hrange, hfirst⟩ := List.find?_range'_eq_some.mp hfind
      rw [List.mem_range'_1] at hrange
      rw [Option.getD_some]
      refine le_antisymm ?_ ?_
      · by_contra hlt
        rw [hlive d (by omega) (by omega)] at hd
        contradiction
      · by_contra hlt
        have hnot := hfirst _ (hpos (by omega)) (by omega)
        rw [hdead (by omega)] at hnot
        contradiction

/-- A scan that ends before the text does knows nothing of the rest of the text. -/
theorem ofRuns_eq_of_take (h : (ofRuns runs text).inspected < text.length)
    (htake : text'.take (ofRuns runs text).inspected = text.take (ofRuns runs text).inspected) :
    ofRuns runs text' = ofRuns runs text := by
  induction text generalizing runs text' with
  | nil => simp at h
  | cons c cs ih =>
      by_cases hdead : (runs.map (·.step c)).all Run.isDead = true
      · -- all are dead after this character, so nothing behind it is looked at
        have hstop : ∀ ds, ofRuns runs (c :: ds) = ⟨none, 1⟩ := by
          intro ds
          rw [ofRuns]
          exact if_pos hdead
        rw [hstop, List.take_one, List.take_one] at htake
        cases text' with
        | nil => contradiction
        | cons d ds =>
            obtain rfl : d = c := by simpa using htake
            rw [hstop, hstop]
      · have hgo : ∀ ds, (ofRuns runs (c :: ds)).inspected =
            (ofRuns (runs.map (·.step c)) ds).inspected + 1 := by
          intro ds
          rw [ofRuns]
          dsimp only
          rw [if_neg hdead]
        rw [hgo] at h htake
        cases text' with
        | nil => simp at htake
        | cons d ds =>
            rw [List.take_succ_cons, List.take_succ_cons, List.cons.injEq] at htake
            obtain ⟨rfl, htake⟩ := htake
            rw [ofRuns, ofRuns]
            dsimp only
            rw [ih (Nat.lt_of_succ_lt_succ h) htake]

end Scan

theorem take_eq_of_le {α : Type} {l l' : List α} {m n : ℕ} (hm : m ≤ n)
    (h : l.take n = l'.take n) : l.take m = l'.take m := by
  rw [← Nat.min_eq_left hm, ← List.take_take, h, List.take_take]

/-! ## Attempts -/

namespace Cursor

variable {recognizers : List Recognizer} {source text : List Char} {c c' : Cursor} {item : Item}

/-- The number of characters of the source that have to be read for an attempt. -/
def reach (recognizers : List Recognizer) (source : List Char) (c : Cursor) : ℕ :=
  c.consumed + lookahead recognizers (source.drop c.consumed)

/-- The same cursor in another text. -/
def on (text : List Char) (c : Cursor) : Cursor := { c with pending := text.drop c.consumed }

theorem reach_eq_inspected (h : c.Tracks source) : c.reach recognizers source =
    c.consumed + (Scan.of recognizers c.pending).inspected := by
  rw [reach, ← h.pending, Scan.inspected_eq_lookahead]

/-- An attempt reads what it has to, unless this was read before. -/
theorem Tracks.read_attempt (h : c.Tracks source)
    (hattempt : c.attempt recognizers = some (item, c')) :
    c'.read = max c.read (c.reach recognizers source) := by
  rw [reach_eq_inspected h]
  obtain ⟨m, -, -, rfl⟩ | ⟨first, rest, -, -, -, rfl⟩ := attempt_cases hattempt <;> rfl

theorem pending_of_attempt_eq_none (h : c.attempt recognizers = none) : c.pending = [] := by
  unfold attempt at h
  split at h
  · assumption
  · dsimp only at h
    split at h <;> contradiction

/-- At the end of the source there is nothing to be read. -/
theorem Tracks.reach_le (h : c.Tracks source) (hattempt : c.attempt recognizers = none) :
    c.reach recognizers source ≤ c.read := by
  rw [reach, ← h.pending, pending_of_attempt_eq_none hattempt]
  exact h.consumed_le

theorem look_on (hscan : Scan.of recognizers (c.on text).pending = Scan.of recognizers c.pending) :
    (c.on text).look recognizers = (c.look recognizers).on text := by
  simp only [look, hscan]
  rfl

theorem skip_on {n : ℕ} (h : (c.on text).pending.take n = c.pending.take n) :
    (c.on text).skip n = (c.skip n).on text := by
  simp only [skip, h]
  simp only [on, List.drop_drop]

/-- **What an attempt does not read has no influence on it.** -/
theorem Tracks.attempt_on (h : c.Tracks source)
    (hattempt : c.attempt recognizers = some (item, c')) (hread : c'.read < source.length)
    (htake : text.take c'.read = source.take c'.read) :
    (c.on text).attempt recognizers = some (item, c'.on text) := by
  have hlength := h.length_pending
  have hreach : c.consumed + (Scan.of recognizers c.pending).inspected ≤ c'.read := by
    rw [h.read_attempt hattempt, reach_eq_inspected h]
    exact Nat.le_max_right _ _
  -- what the scan looked at was read, so the other text has it too
  have hlooked : ∀ n ≤ (Scan.of recognizers c.pending).inspected,
      (c.on text).pending.take n = c.pending.take n := by
    intro n hn
    have hn' : n ≤ c'.read - c.consumed := by omega
    have hdrop := congrArg (fun known => (known.drop c.consumed).take n) htake
    simp only [List.drop_take, List.take_take, Nat.min_eq_left hn', ← h.pending] at hdrop
    exact hdrop
  have hscan : Scan.of recognizers (c.on text).pending = Scan.of recognizers c.pending :=
    Scan.ofRuns_eq_of_take (by rw [← Scan.of]; omega) (hlooked _ (Nat.le_refl _))
  obtain ⟨m, hlongest, rfl, rfl⟩ | ⟨first, rest, hpending, hlongest, rfl, rfl⟩ :=
    attempt_cases hattempt
  · have htext := hlooked m.length (Scan.length_le_inspected hlongest)
    rw [attempt_eq_lexeme (hscan ▸ hlongest), look_on hscan, lexeme, htext,
      skip_on (c := c.look recognizers) htext]
    rfl
  · have hfirst := hlooked 1 (Scan.inspected_pos (hpending ▸ List.cons_ne_nil first rest))
    rw [List.take_one, List.take_one, hpending] at hfirst
    obtain ⟨rest', hpending'⟩ : ∃ rest', (c.on text).pending = first :: rest' :=
      List.head?_eq_some_iff.mp (by simpa using hfirst)
    rw [attempt_eq_error hpending' (hscan ▸ hlongest), look_on hscan]
    rfl

end Cursor

namespace Lexer

/-- The cursors at which a call of a lexer makes its attempts. -/
def attempts (l : Lexer) : List Cursor :=
  if l.finished then []
  else
    match _h : l.cursor.attempt l.recognizers with
    | some (.ok token, c) =>
      if token.value.isDiscarded && !l.yieldsDiscarded then
        l.cursor :: attempts { l with cursor := c }
      else [l.cursor]
    | _ => [l.cursor]
termination_by l.cursor.pending.length
decreasing_by exact Cursor.length_pending_lt _h

variable {source text : List Char} {l : Lexer} {token : Token} {c : Cursor}

theorem attempts_of_finished (hf : l.finished = true) : l.attempts = [] := by
  rw [attempts, if_pos hf]

theorem attempts_of_attempt_discarded (hf : l.finished = false)
    (hskip : (token.value.isDiscarded && !l.yieldsDiscarded) = true)
    (h : l.cursor.attempt l.recognizers = some (.ok token, c)) :
    l.attempts = l.cursor :: attempts { l with cursor := c } := by
  rw [attempts, if_neg (by simp [hf])]
  split <;> simp_all

/-- All attempts but the last one yield a lexeme that is left out. -/
theorem attempts_of_last (hf : l.finished = false)
    (h : ∀ token c, l.cursor.attempt l.recognizers = some (.ok token, c) →
      (token.value.isDiscarded && !l.yieldsDiscarded) = false) : l.attempts = [l.cursor] := by
  rw [attempts, if_neg (by simp [hf])]
  split
  · next token c hc => rw [if_neg (by simp [h token c hc])]
  · rfl

theorem tracks_of_mem_attempts (h : l.cursor.Tracks source) :
    ∀ c ∈ l.attempts, c.Tracks source := by
  fun_induction attempts l with
  | case1 => nofun
  | case2 l hf token c hc hskip ih => exact List.forall_mem_cons.mpr ⟨h, ih (h.attempt hc)⟩
  | case3 | case4 => exact List.forall_mem_singleton.mpr h

/-- **A call reads as far as its attempts reach.** -/
theorem read_next (h : l.cursor.Tracks source) : l.next.value.2.read =
    (l.attempts.map (Cursor.reach l.recognizers source)).foldl max l.read := by
  fun_induction next l with
  | case1 l hf =>
      rw [attempts_of_finished hf]
      rfl
  | case2 l hf hc =>
      rw [attempts_of_last (Bool.eq_false_iff.mpr hf) (by simp [hc])]
      exact (Nat.max_eq_left (h.reach_le hc)).symm
  | case3 l hf e c hc =>
      rw [attempts_of_last (Bool.eq_false_iff.mpr hf) (by simp [hc])]
      exact h.read_attempt hc
  | case4 l hf token c hc hskip ih =>
      rw [attempts_of_attempt_discarded (Bool.eq_false_iff.mpr hf) hskip hc, List.map_cons,
        List.foldl_cons]
      exact (ih (h.attempt hc)).trans (by rw [read, h.read_attempt hc]; rfl)
  | case5 l hf token c hc hkeep =>
      rw [attempts_of_last (Bool.eq_false_iff.mpr hf) (by simp_all)]
      exact h.read_attempt hc

theorem read_le_next (h : l.cursor.Tracks source) : l.read ≤ l.next.value.2.read := by
  rw [read_next h, List.foldl_max]
  exact Nat.le_max_left _ _

/-- The same lexer in another text. -/
def on (text : List Char) (l : Lexer) : Lexer := { l with cursor := l.cursor.on text }

/-- **What a call does not read has no influence on it.** -/
theorem next_on (h : l.cursor.Tracks source) (hread : l.next.value.2.read < source.length)
    (htake : text.take l.next.value.2.read = source.take l.next.value.2.read) :
    (l.on text).next = (fun (item, l') => (item, l'.on text)) <$> l.next := by
  fun_induction next l with
  | case1 l hf => exact next_of_finished hf
  | case2 l hf hc =>
      -- if nothing was pending, all of the source was read
      have hlength := h.length_pending
      have hconsumed : l.cursor.consumed ≤ l.read := h.consumed_le
      rw [Cursor.pending_of_attempt_eq_none hc] at hlength
      exact absurd hread (Nat.not_lt.mpr (hlength ▸ hconsumed))
  | case3 l hf e c hc =>
      exact next_of_attempt_error (Bool.eq_false_iff.mpr hf) (h.attempt_on hc hread htake)
  | case4 l hf token c hc hskip ih =>
      rw [Bool.and_eq_true, Bool.not_eq_true'] at hskip
      -- the lexeme is left out, and the call goes on behind it
      have hrest := h.attempt hc
      have hle : c.read ≤ (next { l with cursor := c }).value.2.read :=
        read_le_next (l := { l with cursor := c }) hrest
      have hc' := h.attempt_on hc (hle.trans_lt hread) (take_eq_of_le hle htake)
      have hf' : (l.on text).finished = false := Bool.eq_false_iff.mpr hf
      calc (l.on text).next = .note (.recognized token) (on text { l with cursor := c }).next :=
            next_of_attempt_discarded hf' hskip.2 hskip.1 hc'
        _ = _ := congrArg (Traced.note _) (ih hrest hread htake)
  | case5 l hf token c hc hkeep =>
      have hf' : (l.on text).finished = false := Bool.eq_false_iff.mpr hf
      have hc' := h.attempt_on hc hread htake
      cases hdiscarded : token.value.isDiscarded with
      | false => exact next_of_attempt_visible hf' hdiscarded hc'
      | true =>
          have hkeeps : l.yieldsDiscarded = true := by simpa [hdiscarded] using hkeep
          exact next_of_attempt_ok hf' hkeeps hc'

/-! ## Any number of calls -/

/-- The cursors at which the first `n` calls make their attempts. -/
def attemptsUpTo (l : Lexer) (n : ℕ) : List Cursor :=
  (List.range n).flatMap fun k => (after l k).attempts

theorem attemptsUpTo_succ (l : Lexer) (n : ℕ) :
    l.attemptsUpTo (n + 1) = l.attemptsUpTo n ++ (after l n).attempts := by
  simp [attemptsUpTo, List.range_succ]

theorem tracks_of_mem_attemptsUpTo (h : l.cursor.Tracks source) {n : ℕ}
    (hc : c ∈ l.attemptsUpTo n) : c.Tracks source := by
  obtain ⟨k, -, hk⟩ := List.mem_flatMap.mp hc
  exact tracks_of_mem_attempts (tracks_after h k) c hk

theorem read_after (h : l.cursor.Tracks source) (n : ℕ) : (after l n).read =
    ((l.attemptsUpTo n).map (Cursor.reach l.recognizers source)).foldl max l.read := by
  induction n with
  | zero => rfl
  | succ n ih =>
      rw [attemptsUpTo_succ, List.map_append, List.foldl_append, ← ih]
      rw [← recognizers_after l n]
      exact read_next (tracks_after h n)

theorem after_on (h : l.cursor.Tracks source) {n : ℕ} (hread : (after l n).read < source.length)
    (htake : text.take (after l n).read = source.take (after l n).read) :
    after (l.on text) n = (after l n).on text ∧ answers (l.on text) n = answers l n := by
  induction n with
  | zero => exact ⟨rfl, rfl⟩
  | succ n ih =>
      have htracks := tracks_after h n
      have hle : (after l n).read ≤ (after l (n + 1)).read := read_le_next htracks
      obtain ⟨hafter, hanswers⟩ := ih (hle.trans_lt hread) (take_eq_of_le hle htake)
      have hnext := next_on htracks hread htake
      rw [TokenStream.after_succ, TokenStream.answers_succ, TokenStream.answers_succ,
        TokenStream.answer, hafter, hanswers]
      exact ⟨congrArg (·.value.2) hnext, congrArg (_ ++ [·.value.1]) hnext⟩

end Lexer

/-- **A lexer reads exactly as far as it has to.**  After any number of calls it has read to the
furthest place that one of its attempts had to come to.  If it takes its characters from the source
one at a time, it gives the same answers, and what is left of the source is what was not read.  On
every other source that starts with what was read it would have given the same answers, and would
have read as much. -/
theorem reads_to_furthest_reach (recognizers : List Recognizer) (yieldsDiscarded : Bool)
    (source : List Char) (n : ℕ) :
    let l := Lexer.start recognizers yieldsDiscarded source
    let r := Reader.start recognizers yieldsDiscarded source
    (∀ c ∈ l.attemptsUpTo n, c.consumed ≤ source.length ∧ c.pending = source.drop c.consumed) ∧
    (after l n).read =
      ((l.attemptsUpTo n).map (Cursor.reach recognizers source)).foldl max 0 ∧
    (after l n).read ≤ source.length ∧
    answers r n = answers l n ∧
    (after r n).buffer.unread = source.drop (after l n).read ∧
    ∀ text, (after l n).read < source.length →
      text.take (after l n).read = source.take (after l n).read →
      answers (Lexer.start recognizers yieldsDiscarded text) n = answers l n ∧
      (after (Lexer.start recognizers yieldsDiscarded text) n).read = (after l n).read := by
  intro l r
  have hstart : l.cursor.Tracks source := .start source
  have hreader : r = l.reader := rfl
  refine ⟨?_, Lexer.read_after hstart n, (Lexer.tracks_after hstart n).read_le, ?_, ?_, ?_⟩
  · intro c hc
    have htracks := Lexer.tracks_of_mem_attemptsUpTo hstart hc
    exact ⟨htracks.consumed_le.trans htracks.read_le, htracks.pending⟩
  · rw [hreader, Lexer.answers_reader hstart]
  · rw [hreader, Lexer.after_reader hstart]
    exact (Lexer.tracks_after hstart n).unread_buffer
  · intro text hread htake
    obtain ⟨hafter, hanswers⟩ := Lexer.after_on hstart hread htake
    have hon : Lexer.start recognizers yieldsDiscarded text = l.on text := rfl
    rw [hon, hanswers, hafter]
    exact ⟨rfl, rfl⟩

/-- The first call skips the blank and reads up to the one after the `y`. -/
theorem reads_to_furthest_reach_blank :
    let source := [' ', 'y', ' ', 'z']
    let text := [' ', 'y', ' ', '-', '-']
    (after (Lexer.start mhRecognizers false source) 1).read = 3 ∧
    answers (Lexer.start mhRecognizers false text) 1 =
      answers (Lexer.start mhRecognizers false source) 1 ∧
    (after (Lexer.start mhRecognizers false text) 1).read = 3 := by
  intro source text
  let l := Lexer.start mhRecognizers false source
  let p : Position := Position.start.advanceOver [' ']
  have hblank : l.cursor.attempt mhRecognizers =
      some (.ok ⟨.single .start, ⟨" ", .discarded⟩⟩, ⟨p, ['y', ' ', 'z'], 1, 2⟩) := rfl
  have hname : Cursor.attempt mhRecognizers ⟨p, ['y', ' ', 'z'], 1, 2⟩ =
      some (.ok ⟨.single p, ⟨"y", .identifier⟩⟩, ⟨p.advanceOver ['y'], [' ', 'z'], 2, 3⟩) := rfl
  have hread : (after l 1).read = 3 := by
    have hskip : l.next = .note _ (Lexer.next { l with cursor := _ }) :=
      Lexer.next_of_attempt_discarded rfl rfl rfl hblank
    rw [TokenStream.after_succ]
    show l.next.value.2.read = 3
    rw [hskip, Lexer.next_of_attempt_visible rfl rfl hname]
    rfl
  have hstart := reads_to_furthest_reach mhRecognizers false source 1
  obtain ⟨-, -, -, -, -, hsame⟩ := hstart
  obtain ⟨hanswers, hread'⟩ := hsame text (by rw [hread]; decide) (by rw [hread]; rfl)
  exact ⟨hread, hanswers, hread'.trans hread⟩

end Frontend
