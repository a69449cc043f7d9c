import Frontend.Proofs.Lexing.Discarding
import Frontend.Proofs.Lexing.Languages
import Mathlib.Data.List.Basic

/-!
# The order of the recognizers

When two recognizers accept the same text the earlier one decides on its class.  Of the recognizers
of MH there are only four pairs that have a text in common, the `priorities`: three keywords are
identifiers, and a run of dashes is a comment and an operator.  So there are only two decisions in
the order of the recognizers, keywords before identifiers and comments before operators.  Lexers
with the recognizers in another order work alike, down to how far they read, if and only if the
other order makes the same two decisions.

That the languages have nothing else in common is seen in two ways.  Some recognizers accept a few
words only, and these can be tried out on all others.  The rest accept only what starts with a
character of a certain class, and the classes share no character.
-/

namespace Frontend

open CharClass
open TokenStream (after answer items)

namespace Recognizer

/-- The pairs of recognizers that have a text in common, the one first that gets it. -/
def priorities : List (Recognizer × Recognizer) :=
  [ (.literal ['i', 'f'] nofun, .identifier),
    (.literal ['t', 'h', 'e', 'n'] nofun, .identifier),
    (.literal ['e', 'l', 's', 'e'] nofun, .identifier),
    (.comment, .operator) ]

/-- Whether the recognizers that have to win a tie come first. -/
def KeepsPriorities (order : List Recognizer) : Prop :=
  ∀ pair ∈ priorities, order.idxOf pair.1 < order.idxOf pair.2

instance (order : List Recognizer) : Decidable (KeepsPriorities order) :=
  inferInstanceAs (Decidable (∀ pair ∈ priorities, order.idxOf pair.1 < order.idxOf pair.2))

/-! ## Texts that two recognizers accept -/

/-- The words that a recognizer accepts, if they are but a few. -/
def words : Recognizer → List (List Char)
  | boolean => [['T', 'r', 'u', 'e'], ['F', 'a', 'l', 's', 'e']]
  | literal text _ => [text]
  | _ => []

/-- The class of the first character of what the other recognizers accept. -/
def leadingClass : Recognizer → Option CharClass
  | identifier => some small
  | numeral => some digit
  | operator | comment => some symbolic
  | blank => some whitespace
  | boolean | literal _ _ => none

section

variable {r r' : Recognizer} {k : CharClass} {c : Char} {w : List Char}

theorem mem_words_of_accepts (hr : r.leadingClass = none) (h : r.accepts w = true) :
    w ∈ r.words := by
  have hw : w ∈ r.language := mem_language_of_accepts h
  cases r with
  | boolean =>
      rcases hw with rfl | rfl
      · exact List.mem_cons_self
      · exact List.mem_cons_of_mem _ List.mem_cons_self
  | literal text nonempty =>
      obtain rfl := mem_singleton.mp hw
      exact List.mem_cons_self
  | _ => simp [leadingClass] at hr

theorem contains_of_accepts (hr : r.leadingClass = some k) (h : r.accepts (c :: w) = true) :
    k.contains c = true := by
  have hw : c :: w ∈ r.language := mem_language_of_accepts h
  cases r with
  | identifier =>
      obtain rfl := Option.some.inj hr
      exact small_iff.mpr (cons_mem_oneOf_mul.mp hw).1
  | numeral =>
      obtain rfl := Option.some.inj hr
      rcases hw with ⟨d, rfl, heq⟩ | hw
      · obtain ⟨rfl, -⟩ := List.cons.inj heq
        rfl
      · exact digit_iff.mpr (mem_Icc_one_nine_iff.mp (cons_mem_oneOf_mul.mp hw).1).2
  | operator | blank =>
      obtain rfl := Option.some.inj hr
      exact (cons_mem_oneOf_mul.mp hw).1
  | comment =>
      obtain rfl := Option.some.inj hr
      simp only [language, mul_assoc, cons_mem_oneOf_mul] at hw
      obtain rfl : c = '-' := hw.1
      rfl
  | boolean | literal => simp [leadingClass] at hr

theorem ne_newline_of_leadingClass (hr : r.leadingClass = some k) : k ≠ newline := by
  rintro rfl
  cases r <;> contradiction

/-- Two recognizers of MH that accept the same text are one of the pairs. -/
theorem mem_priorities_of_accepts (hr : r ∈ mhRecognizers) (hr' : r' ∈ mhRecognizers)
    (hne : r ≠ r') (h : r.accepts w = true) (h' : r'.accepts w = true) :
    (r, r') ∈ priorities ∨ (r', r) ∈ priorities := by
  -- a word can be tried out on all recognizers
  have hwords : ∀ r ∈ mhRecognizers, ∀ w ∈ r.words, ∀ r' ∈ mhRecognizers, r'.accepts w = true →
      r = r' ∨ (r, r') ∈ priorities ∨ (r', r) ∈ priorities := by decide
  have hclasses : ∀ r ∈ mhRecognizers, ∀ r' ∈ mhRecognizers, r.leadingClass ≠ none →
      r.leadingClass = r'.leadingClass →
      r = r' ∨ (r, r') ∈ priorities ∨ (r', r) ∈ priorities := by decide
  cases hlead : r.leadingClass with
  | none => exact (hwords r hr w (mem_words_of_accepts hlead h) r' hr' h').resolve_left hne
  | some k =>
      cases hlead' : r'.leadingClass with
      | none =>
          have hword := mem_words_of_accepts hlead' h'
          exact ((hwords r' hr' w hword r hr h).resolve_left hne.symm).symm
      | some k' =>
          obtain ⟨c, v, rfl⟩ := List.exists_cons_of_ne_nil (ne_nil_of_accepts h)
          have hk : k = k' := eq_of_contains (ne_newline_of_leadingClass hlead)
            (ne_newline_of_leadingClass hlead') (contains_of_accepts hlead h)
            (contains_of_accepts hlead' h')
          have hsome : r.leadingClass ≠ none := by simp [hlead]
          have heq : r.leadingClass = r'.leadingClass := by rw [hlead, hlead', hk]
          exact (hclasses r hr r' hr' hsome heq).resolve_left hne

/-- A run of dashes is all that can be a comment as well as an operator. -/
theorem comment_and_operator_accept_iff : comment.accepts w = true ∧ operator.accepts w = true ↔
    ∃ n, 2 ≤ n ∧ w = List.replicate n '-' := by
  constructor
  · rintro ⟨hcomment, hoperator⟩
    obtain ⟨n, tail, hn, htail, rfl⟩ :=
      mem_language_comment_iff.mp (mem_language_of_accepts hcomment)
    have hsymbolic := (mem_oneOf_mul_kstar.mp (mem_language_of_accepts hoperator)).2
    -- the text of a comment would start with a character that is no symbol
    cases tail with
    | nil => exact ⟨n, hn, List.append_nil _⟩
    | cons c v =>
        rw [commentText, Language.mem_add, mul_assoc, cons_mem_oneOf_mul] at htail
        have hc : c ∈ (symbolic.chars ∪ {'\n', '\r'})ᶜ := (htail.resolve_left (by simp)).1
        exact absurd (.inl (hsymbolic c (by simp))) hc
  · rintro ⟨n, hn, rfl⟩
    have hdashes : ∀ c ∈ List.replicate n '-', c ∈ symbolic.chars := by
      intro c hc
      obtain rfl := List.eq_of_mem_replicate hc
      rfl
    have hne : List.replicate n '-' ≠ [] := by
      rw [ne_eq, List.replicate_eq_nil_iff]
      omega
    exact ⟨accepts_of_mem_language (mem_language_comment_iff.mpr
        ⟨n, [], hn, .inl rfl, (List.append_nil _).symm⟩),
      accepts_of_mem_language (mem_oneOf_mul_kstar.mpr ⟨hne, hdashes⟩)⟩

/-- The keywords that would be identifiers if they were not reserved. -/
def reservedWords : List (List Char) :=
  [['i', 'f'], ['t', 'h', 'e', 'n'], ['e', 'l', 's', 'e']]

/-- Whether two recognizers of MH accept a text. -/
def AcceptedTwice (w : List Char) : Prop :=
  ∃ r ∈ mhRecognizers, ∃ r' ∈ mhRecognizers, r ≠ r' ∧ r.accepts w = true ∧ r'.accepts w = true

theorem acceptedTwice_of_mem_priorities (hpair : (r, r') ∈ priorities) (h : r.accepts w = true)
    (h' : r'.accepts w = true) : AcceptedTwice w := by
  have hmem : ∀ pair ∈ priorities, pair.1 ∈ mhRecognizers ∧ pair.2 ∈ mhRecognizers ∧
      pair.1 ≠ pair.2 := by decide
  obtain ⟨hr, hr', hne⟩ := hmem _ hpair
  exact ⟨r, hr, r', hr', hne, h, h'⟩

theorem tie_of_mem_priorities (hpair : (r, r') ∈ priorities) (h : r.accepts w = true)
    (h' : r'.accepts w = true) :
    w ∈ reservedWords ∨ ∃ n, 2 ≤ n ∧ w = List.replicate n '-' := by
  have hcases : ∀ pair ∈ priorities, pair = (comment, operator) ∨
      pair.1.leadingClass = none ∧ ∀ w ∈ pair.1.words, w ∈ reservedWords := by decide
  rcases hcases _ hpair with heq | ⟨hlead, hwords⟩
  · obtain ⟨rfl, rfl⟩ := Prod.mk.inj heq
    exact .inr (comment_and_operator_accept_iff.mp ⟨h, h'⟩)
  · exact .inl (hwords w (mem_words_of_accepts hlead h))

theorem acceptedTwice_iff :
    AcceptedTwice w ↔ w ∈ reservedWords ∨ ∃ n, 2 ≤ n ∧ w = List.replicate n '-' := by
  constructor
  · rintro ⟨r, hr, r', hr', hne, h, h'⟩
    rcases mem_priorities_of_accepts hr hr' hne h h' with hpair | hpair
    · exact tie_of_mem_priorities hpair h h'
    · exact tie_of_mem_priorities hpair h' h
  · rintro (hword | hdashes)
    · have hwords : ∀ w ∈ reservedWords,
          ∃ pair ∈ priorities, pair.1.accepts w = true ∧ pair.2.accepts w = true := by decide
      obtain ⟨pair, hpair, h, h'⟩ := hwords w hword
      exact acceptedTwice_of_mem_priorities hpair h h'
    · obtain ⟨h, h'⟩ := comment_and_operator_accept_iff.mpr hdashes
      exact acceptedTwice_of_mem_priorities (by decide) h h'

end

/-! ## Which recognizer wins -/

theorem idxOf_le_of_find?_eq_some {α : Type} [DecidableEq α] {l : List α} {p : α → Bool} {a b : α}
    (h : l.find? p = some a) (hb : p b = true) : l.idxOf a ≤ l.idxOf b := by
  obtain ⟨ha, before, rest, rfl, hbefore⟩ := List.find?_eq_some_iff_append.mp h
  have hnotMem : ∀ x, p x = true → x ∉ before := by
    intro x hx hmem
    simpa [hx] using hbefore x hmem
  rw [List.idxOf_append_of_notMem (hnotMem a ha), List.idxOf_append_of_notMem (hnotMem b hb),
    List.idxOf_cons_self]
  exact Nat.add_le_add_left (Nat.zero_le _) _

theorem exists_find?_eq_some {recognizers : List Recognizer} {r : Recognizer} {w : List Char}
    (hr : r ∈ recognizers) (h : r.accepts w = true) :
    ∃ first, recognizers.find? (·.accepts w) = some first :=
  Option.isSome_iff_exists.mp (List.find?_isSome.mpr ⟨r, hr, h⟩)

section

variable {order : List Recognizer}

/-- The recognizer that decides on a text is the one that accepts it, unless one that has to win
against it does so too. -/
theorem find?_eq_some_iff_of_keepsPriorities (h : order.Perm mhRecognizers)
    (hkeeps : KeepsPriorities order) {w : List Char} {r : Recognizer} :
    order.find? (·.accepts w) = some r ↔ r ∈ mhRecognizers ∧ r.accepts w = true ∧
      ∀ pair ∈ priorities, pair.2 = r → pair.1.accepts w = false := by
  constructor
  · intro hfind
    refine ⟨h.mem_iff.mp (List.mem_of_find?_eq_some hfind), by simpa using List.find?_some hfind,
      ?_⟩
    rintro pair hpair rfl
    by_contra haccepts
    rw [Bool.not_eq_false] at haccepts
    have hlt : order.idxOf pair.1 < order.idxOf pair.2 := hkeeps pair hpair
    have hle : order.idxOf pair.2 ≤ order.idxOf pair.1 :=
      idxOf_le_of_find?_eq_some hfind haccepts
    omega
  · rintro ⟨hr, haccepts, hrivals⟩
    obtain ⟨r', hfind⟩ := exists_find?_eq_some (h.mem_iff.mpr hr) haccepts
    have hr' : r' ∈ mhRecognizers := h.mem_iff.mp (List.mem_of_find?_eq_some hfind)
    have haccepts' : r'.accepts w = true := by simpa using List.find?_some hfind
    rw [hfind, Option.some.injEq]
    by_contra hne
    -- one of the two has to come first
    rcases mem_priorities_of_accepts hr' hr hne haccepts' haccepts with hpair | hpair
    · rw [hrivals _ hpair rfl] at haccepts'
      contradiction
    · have hlt : order.idxOf r < order.idxOf r' := hkeeps _ hpair
      have hle := idxOf_le_of_find?_eq_some hfind haccepts
      omega

theorem classOf_eq_of_keepsPriorities (h : order.Perm mhRecognizers)
    (hkeeps : KeepsPriorities order) (w : List Char) :
    Scan.classOf order w = Scan.classOf mhRecognizers w := by
  have hmh : KeepsPriorities mhRecognizers := by decide
  have hfind : order.find? (·.accepts w) = mhRecognizers.find? (·.accepts w) := by
    refine Option.ext fun r => ?_
    rw [find?_eq_some_iff_of_keepsPriorities h hkeeps,
      find?_eq_some_iff_of_keepsPriorities (.refl _) hmh]
  rw [Scan.classOf, Scan.classOf, hfind]

/-- For each pair there is a text that tells which of the two comes first. -/
theorem keepsPriorities_of_classOf_eq (h : order.Perm mhRecognizers)
    (hclass : ∀ w ∈ ['-', '-'] :: reservedWords,
      Scan.classOf order w = Scan.classOf mhRecognizers w) : KeepsPriorities order := by
  have htie : ∀ pair ∈ priorities, ∃ w ∈ ['-', '-'] :: reservedWords,
      pair.2.accepts w = true ∧ Scan.classOf mhRecognizers w = some pair.1.tokenClass ∧
      ∀ r ∈ mhRecognizers, r.accepts w = true → r.tokenClass = pair.1.tokenClass → r = pair.1 := by
    decide
  have hne : ∀ pair ∈ priorities, pair.1 ≠ pair.2 := by decide
  intro pair hpair
  obtain ⟨w, hw, haccepts, hwinner, honly⟩ := htie pair hpair
  obtain ⟨r, hfind, hr⟩ := Scan.classOf_eq_some_iff.mp ((hclass w hw).trans hwinner)
  have hmem : r ∈ order := List.mem_of_find?_eq_some hfind
  obtain rfl : r = pair.1 :=
    honly r (h.mem_iff.mp hmem) (by simpa using List.find?_some hfind) hr
  refine Nat.lt_of_le_of_ne (idxOf_le_of_find?_eq_some hfind haccepts) ?_
  rw [List.idxOf_inj hmem]
  exact hne pair hpair

end

end Recognizer

/-! ## Scans and lexers in another order -/

namespace Scan

/-- A scan depends on when all recognizers are dead and which of them wins, and on nothing else. -/
theorem ofRuns_congr {runs runs' : List Run}
    (hdead : ∀ w, deadAfter runs w = deadAfter runs' w)
    (hclass : ∀ w, classAfter runs w = classAfter runs' w) (text : List Char) :
    ofRuns runs text = ofRuns runs' text := by
  induction text generalizing runs runs' with
  | nil => rfl
  | cons c cs ih =>
      have halive := hdead [c]
      have hwinner := hclass [c]
      rw [deadAfter_cons, deadAfter_cons, deadAfter_nil, deadAfter_nil] at halive
      rw [classAfter_cons, classAfter_cons, classAfter_nil, classAfter_nil] at hwinner
      have hrest : ofRuns (runs.map (·.step c)) cs = ofRuns (runs'.map (·.step c)) cs := by
        refine ih ?_ ?_
        · intro w
          rw [← deadAfter_cons, ← deadAfter_cons, hdead]
        · intro w
          rw [← classAfter_cons, ← classAfter_cons, hclass]
      simp only [ofRuns, halive, hwinner, hrest]

theorem of_eq_of_perm {recognizers recognizers' : List Recognizer}
    (h : recognizers.Perm recognizers')
    (hclass : ∀ w, classOf recognizers w = classOf recognizers' w) (text : List Char) :
    of recognizers text = of recognizers' text := by
  refine ofRuns_congr ?_ ?_ text
  · intro w
    exact ((h.map _).map _).all_eq
  · intro w
    rw [classAfter_start, classAfter_start, hclass]

end Scan

namespace Lexer

variable {l : Lexer} {recognizers : List Recognizer}

/-- The same lexer with other recognizers. -/
def withRecognizers (l : Lexer) (recognizers : List Recognizer) : Lexer :=
  { l with recognizers := recognizers }

/-- Recognizers that find the same in every text make the same lexer. -/
theorem next_withRecognizers (h : ∀ text, Scan.of recognizers text = Scan.of l.recognizers text) :
    (l.withRecognizers recognizers).next =
      ⟨(l.next.value.1, l.next.value.2.withRecognizers recognizers), l.next.events⟩ := by
  have hattempt : ∀ c : Cursor, c.attempt recognizers = c.attempt l.recognizers := by
    intro c
    simp only [Cursor.attempt, h]
  fun_induction next l with
  | case1 l hl => exact next_of_finished hl
  | case2 l hl hc =>
      exact next_of_attempt_none (Bool.eq_false_iff.mpr hl) ((hattempt _).trans hc)
  | case3 l hl e c hc =>
      exact next_of_attempt_error (Bool.eq_false_iff.mpr hl) ((hattempt _).trans hc)
  | case4 l hl token c hc hskip ih =>
      rw [Bool.and_eq_true, Bool.not_eq_true'] at hskip
      obtain ⟨hdiscarded, hdrop⟩ := hskip
      have hnext := next_of_attempt_discarded (l := l.withRecognizers recognizers)
        (Bool.eq_false_iff.mpr hl) hdrop hdiscarded ((hattempt _).trans hc)
      have hrest := ih h hattempt
      exact hnext.trans (congrArg (Traced.note _) hrest)
  | case5 l hl token c hc hkeep =>
      rw [Bool.not_eq_true, Bool.and_eq_false_iff, Bool.not_eq_false'] at hkeep
      rcases hkeep with hvisible | hyields
      · exact next_of_attempt_visible (Bool.eq_false_iff.mpr hl) hvisible ((hattempt _).trans hc)
      · exact next_of_attempt_ok (Bool.eq_false_iff.mpr hl) hyields ((hattempt _).trans hc)

theorem after_withRecognizers (h : ∀ text, Scan.of recognizers text = Scan.of l.recognizers text)
    (n : ℕ) : after (l.withRecognizers recognizers) n = (after l n).withRecognizers recognizers := by
  induction n with
  | zero => rfl
  | succ n ih =>
      have hstep : ∀ text, Scan.of recognizers text = Scan.of (after l n).recognizers text := by
        rwa [recognizers_after]
      rw [TokenStream.after_succ, ih]
      exact congrArg (·.value.2) (next_withRecognizers hstep)

theorem answer_withRecognizers (h : ∀ text, Scan.of recognizers text = Scan.of l.recognizers text)
    (n : ℕ) : answer (l.withRecognizers recognizers) n = answer l n := by
  have hstep : ∀ text, Scan.of recognizers text = Scan.of (after l n).recognizers text := by
    rwa [recognizers_after]
  rw [answer, after_withRecognizers h]
  exact congrArg (·.value.1) (next_withRecognizers hstep)

/-- A text that is recognized as a whole is a lexeme. -/
theorem answer_start_of_find? {w : List Char} {r : Recognizer}
    (h : recognizers.find? (·.accepts w) = some r) :
    answer (start recognizers true w) 0 =
      some (.ok ⟨.covering .start w, ⟨String.ofList w, r.tokenClass⟩⟩) :=
  (answer_start_of_munch (Munch.of_find? h) 0).trans rfl

end Lexer

/-! ## The result -/

/-- **Only two decisions matter.**  A text that two recognizers of MH accept is one of three
keywords or a run of dashes.  With the recognizers in another order a lexer gives the same answers
and reads as far with each call, for all sources, if and only if the order has the keywords before
the identifiers and the comments before the operators. -/
theorem lexes_alike_iff_keepsPriorities {order : List Recognizer}
    (h : order.Perm mhRecognizers) :
    (Recognizer.KeepsPriorities order ↔ ∀ keeps source n,
      answer (Lexer.start order keeps source) n =
        answer (Lexer.start mhRecognizers keeps source) n ∧
      (after (Lexer.start order keeps source) n).read =
        (after (Lexer.start mhRecognizers keeps source) n).read) ∧
    ∀ w, (∃ r ∈ mhRecognizers, ∃ r' ∈ mhRecognizers,
        r ≠ r' ∧ r.accepts w = true ∧ r'.accepts w = true) ↔
      w ∈ [['i', 'f'], ['t', 'h', 'e', 'n'], ['e', 'l', 's', 'e']] ∨
        ∃ n, 2 ≤ n ∧ w = List.replicate n '-' := by
  refine ⟨⟨?_, ?_⟩, fun w => Recognizer.acceptedTwice_iff⟩
  · intro hkeeps keeps source n
    have hscan : ∀ text, Scan.of order text = Scan.of mhRecognizers text :=
      Scan.of_eq_of_perm h (Recognizer.classOf_eq_of_keepsPriorities h hkeeps)
    have hanswer := Lexer.answer_withRecognizers (l := .start mhRecognizers keeps source) hscan n
    have hafter := Lexer.after_withRecognizers (l := .start mhRecognizers keeps source) hscan n
    have hread : (after (Lexer.start order keeps source) n).read =
        ((after (Lexer.start mhRecognizers keeps source) n).withRecognizers order).read :=
      congrArg Lexer.read hafter
    exact ⟨hanswer, hread⟩
  · intro halike
    refine Recognizer.keepsPriorities_of_classOf_eq h ?_
    intro w hw
    -- the first lexeme of such a text is the text itself, so its class can be read off the answer
    have haccepted : ∀ w ∈ ['-', '-'] :: Recognizer.reservedWords,
        ∃ r ∈ mhRecognizers, r.accepts w = true := by decide
    obtain ⟨r, hr, haccepts⟩ := haccepted w hw
    obtain ⟨first, hfirst⟩ := Recognizer.exists_find?_eq_some hr haccepts
    obtain ⟨first', hfirst'⟩ := Recognizer.exists_find?_eq_some (h.mem_iff.mpr hr) haccepts
    have hanswer := (halike true w 0).1
    rw [Lexer.answer_start_of_find? hfirst, Lexer.answer_start_of_find? hfirst'] at hanswer
    have hclass : first'.tokenClass = first.tokenClass := by simpa using hanswer
    rw [Scan.classOf, Scan.classOf, hfirst, hfirst', Option.map_some, Option.map_some, hclass]

/-- The recognizers in reverse order, but for the keywords and the comments. -/
theorem lexes_alike_iff_keepsPriorities_reverse :
    let order : List Recognizer :=
      [ .boolean, .numeral, .comment, .operator, .blank,
        .literal ['e', 'l', 's', 'e'] (by simp), .literal ['t', 'h', 'e', 'n'] (by simp),
        .literal ['i', 'f'] (by simp), .identifier, .literal [';'] (by simp),
        .literal [')'] (by simp), .literal ['('] (by simp),
        .literal ['B', 'o', 'o', 'l'] (by simp),
        .literal ['I', 'n', 't', 'e', 'g', 'e', 'r'] (by simp) ]
    order.Perm mhRecognizers ∧ Recognizer.KeepsPriorities order ∧ ∀ keeps source n,
      answer (Lexer.start order keeps source) n =
        answer (Lexer.start mhRecognizers keeps source) n ∧
      (after (Lexer.start order keeps source) n).read =
        (after (Lexer.start mhRecognizers keeps source) n).read := by
  intro order
  have hperm : order.Perm mhRecognizers := by decide
  have hkeeps : Recognizer.KeepsPriorities order := by decide
  exact ⟨hperm, hkeeps, (lexes_alike_iff_keepsPriorities hperm).1.mp hkeeps⟩

end Frontend
