import Frontend.Proofs.Lexing.Priority
import Frontend.Typing.Infer

/-!
# What the classes contain

A lexeme of MH has the class of the recognizer that wins its text, so the classes do not contain all
that their recognizers accept.  An identifier is none of the three keywords, and an operator is no
run of two or more dashes, as that is a comment.  Apart from this the classes are the languages of
the recognizers.

`TokenClass.Admits` says what each class contains.  A text that a class admits is lexed into a single
lexeme of this class, and every lexeme of any source is admitted by its class, whatever comes before
and behind it (`lexeme_iff_admits`).  The type checker relies on this for literals: it asks of a
numeral that it has digits only, and of a boolean that it is one of two words.
-/

namespace Frontend

open CharClass
open TokenStream (items)

/-! ## The classes -/

/-- The keywords and the punctuation marks of MH. -/
def literalTexts : List (List Char) :=
  [ ['I', 'n', 't', 'e', 'g', 'e', 'r'], ['B', 'o', 'o', 'l'], ['i', 'f'], ['t', 'h', 'e', 'n'],
    ['e', 'l', 's', 'e'], ['('], [')'], [';'] ]

/-- The texts that a lexeme of a class can have. -/
inductive TokenClass.Admits : TokenClass → List Char → Prop where
  | literal {w} : w ∈ literalTexts → Admits (.literal w) w
  | identifier {w} : w ∈ Recognizer.identifier.language →
      w ∉ [['i', 'f'], ['t', 'h', 'e', 'n'], ['e', 'l', 's', 'e']] → Admits .identifier w
  | zero : Admits .numeral ['0']
  | digits {c w} : c ≠ '0' → (∀ d ∈ c :: w, digit.contains d = true) → Admits .numeral (c :: w)
  | boolean {w} : w = ['T', 'r', 'u', 'e'] ∨ w = ['F', 'a', 'l', 's', 'e'] → Admits .boolean w
  | operator {w} : w ≠ [] → (∀ c ∈ w, symbolic.contains c = true) →
      (¬ ∃ n, 2 ≤ n ∧ w = List.replicate n '-') → Admits .operator w
  | blanks {w} : w ≠ [] → (∀ c ∈ w, whitespace.contains c = true) → Admits .discarded w
  | comment {w} : w ∈ Recognizer.comment.language → Admits .discarded w

namespace Recognizer

variable {r : Recognizer} {w : List Char}

theorem mem_language_numeral_iff : w ∈ numeral.language ↔
    w = ['0'] ∨ ∃ c v, w = c :: v ∧ c ≠ '0' ∧ ∀ d ∈ c :: v, digit.contains d = true := by
  rw [language, Language.mem_add]
  refine or_congr ?_ ?_
  · constructor
    · rintro ⟨c, rfl, rfl⟩
      rfl
    · rintro rfl
      exact ⟨'0', rfl, rfl⟩
  · cases w with
    | nil => simp
    | cons c v =>
        rw [cons_mem_oneOf_mul, mem_kstar_oneOf, mem_Icc_one_nine_iff]
        simp only [← digit_iff]
        simp [and_assoc]

/-! ## Which recognizer wins a text -/

theorem find?_eq_some_iff : mhRecognizers.find? (·.accepts w) = some r ↔
    r ∈ mhRecognizers ∧ r.accepts w = true ∧
      ∀ pair ∈ priorities, pair.2 = r → pair.1.accepts w = false :=
  find?_eq_some_iff_of_keepsPriorities (.refl _) (by decide)

/-- Most recognizers win whatever they accept. -/
theorem find?_eq_some_of_mem_language (hr : r ∈ mhRecognizers) (h : w ∈ r.language)
    (hrivals : ∀ pair ∈ priorities, pair.2 ≠ r) :
    mhRecognizers.find? (·.accepts w) = some r :=
  find?_eq_some_iff.mpr
    ⟨hr, accepts_of_mem_language h, fun pair hpair heq => absurd heq (hrivals pair hpair)⟩

theorem find?_eq_some_identifier_iff : mhRecognizers.find? (·.accepts w) = some identifier ↔
    w ∈ identifier.language ∧ w ∉ reservedWords := by
  rw [find?_eq_some_iff, accepts_iff_mem_language]
  have hkeywords : ∀ pair ∈ priorities, pair.2 = identifier →
      pair.1.leadingClass = none ∧ ∀ w ∈ pair.1.words, w ∈ reservedWords := by decide
  have hreserved : ∀ w ∈ reservedWords,
      ∃ pair ∈ priorities, pair.2 = identifier ∧ pair.1.accepts w = true := by decide
  constructor
  · rintro ⟨-, hw, hrivals⟩
    refine ⟨hw, fun hword => ?_⟩
    obtain ⟨pair, hpair, hsecond, haccepts⟩ := hreserved w hword
    rw [hrivals pair hpair hsecond] at haccepts
    contradiction
  · rintro ⟨hw, hword⟩
    refine ⟨by decide, hw, fun pair hpair hsecond => ?_⟩
    by_contra haccepts
    rw [Bool.not_eq_false] at haccepts
    obtain ⟨hlead, hwords⟩ := hkeywords pair hpair hsecond
    exact hword (hwords w (mem_words_of_accepts hlead haccepts))

theorem find?_eq_some_operator_iff : mhRecognizers.find? (·.accepts w) = some operator ↔
    w ∈ operator.language ∧ ¬ ∃ n, 2 ≤ n ∧ w = List.replicate n '-' := by
  rw [find?_eq_some_iff, ← comment_and_operator_accept_iff, ← accepts_iff_mem_language, not_and]
  have hcomment : ∀ pair ∈ priorities, pair.2 = operator → pair.1 = comment := by decide
  constructor
  · rintro ⟨-, hw, hrivals⟩
    refine ⟨hw, fun haccepts => ?_⟩
    rw [hrivals (comment, operator) (by decide) rfl] at haccepts
    contradiction
  · rintro ⟨hw, hdashes⟩
    refine ⟨by decide, hw, fun pair hpair hsecond => ?_⟩
    rw [hcomment pair hpair hsecond]
    by_contra haccepts
    rw [Bool.not_eq_false] at haccepts
    exact hdashes haccepts hw

theorem mem_language_of_find? (h : mhRecognizers.find? (·.accepts w) = some r) :
    w ∈ r.language :=
  mem_language_of_accepts (by simpa using List.find?_some h)

/-- A text that a keyword or a punctuation mark has is no identifier. -/
theorem notMem_literalTexts (h : mhRecognizers.find? (·.accepts w) = some identifier) :
    w ∉ literalTexts := by
  have hliterals : ∀ w ∈ literalTexts,
      mhRecognizers.find? (·.accepts w) ≠ some identifier := by decide
  intro hmem
  exact hliterals w hmem h

/-- The winner of a text is of a class that admits it. -/
theorem admits_of_find? (h : mhRecognizers.find? (·.accepts w) = some r) :
    r.tokenClass.Admits w := by
  have hr : r ∈ mhRecognizers := List.mem_of_find?_eq_some h
  have hw : w ∈ r.language := mem_language_of_find? h
  cases r with
  | identifier =>
      obtain ⟨hlanguage, hword⟩ := find?_eq_some_identifier_iff.mp h
      exact .identifier hlanguage hword
  | numeral =>
      rcases mem_language_numeral_iff.mp hw with rfl | ⟨c, v, rfl, hc, hdigits⟩
      · exact .zero
      · exact .digits hc hdigits
  | boolean => exact .boolean hw
  | operator =>
      obtain ⟨hlanguage, hdashes⟩ := find?_eq_some_operator_iff.mp h
      obtain ⟨hne, hsymbolic⟩ := mem_oneOf_mul_kstar.mp hlanguage
      exact .operator hne hsymbolic hdashes
  | blank =>
      obtain ⟨hne, hblank⟩ := mem_oneOf_mul_kstar.mp hw
      exact .blanks hne hblank
  | comment => exact .comment hw
  | literal text nonempty =>
      have htext : ∀ r ∈ mhRecognizers, r.leadingClass = none → r ≠ boolean →
          ∀ w ∈ r.words, w ∈ literalTexts := by decide
      obtain rfl := mem_singleton.mp hw
      exact .literal (htext _ hr rfl nofun w List.mem_cons_self)

/-- What a class admits is won by a recognizer of that class. -/
theorem find?_of_admits {k : TokenClass} (h : k.Admits w) :
    ∃ r, mhRecognizers.find? (·.accepts w) = some r ∧ r.tokenClass = k := by
  cases h with
  | literal hw =>
      have hall : ∀ w ∈ literalTexts, ∃ r ∈ mhRecognizers, r.accepts w = true ∧
          (∀ pair ∈ priorities, pair.2 ≠ r) ∧ r.tokenClass = .literal w := by decide
      obtain ⟨r, hr, haccepts, hrivals, hclass⟩ := hall w hw
      exact ⟨r, find?_eq_some_of_mem_language hr (mem_language_of_accepts haccepts) hrivals, hclass⟩
  | identifier hw hword => exact ⟨_, find?_eq_some_identifier_iff.mpr ⟨hw, hword⟩, rfl⟩
  | zero =>
      exact ⟨_, find?_eq_some_of_mem_language (by decide)
        (mem_language_numeral_iff.mpr (.inl rfl)) (by decide), rfl⟩
  | digits hc hdigits =>
      exact ⟨_, find?_eq_some_of_mem_language (by decide)
        (mem_language_numeral_iff.mpr (.inr ⟨_, _, rfl, hc, hdigits⟩)) (by decide), rfl⟩
  | boolean hw =>
      exact ⟨.boolean, find?_eq_some_of_mem_language (by decide) hw (by decide), rfl⟩
  | operator hne hsymbolic hdashes =>
      have hw := mem_oneOf_mul_kstar.mpr ⟨hne, hsymbolic⟩
      exact ⟨_, find?_eq_some_operator_iff.mpr ⟨hw, hdashes⟩, rfl⟩
  | blanks hne hblank =>
      exact ⟨.blank, find?_eq_some_of_mem_language (by decide)
        (mem_oneOf_mul_kstar.mpr ⟨hne, hblank⟩) (by decide), rfl⟩
  | comment hw => exact ⟨_, find?_eq_some_of_mem_language (by decide) hw (by decide), rfl⟩

end Recognizer

/-! ## Literals in expressions -/

theorem infer_num_of_mem_language {digits : String}
    (h : digits.toList ∈ Recognizer.numeral.language) (env : TypeEnv) :
    (Exp.num digits).infer env = .ok .integer := by
  have hdigits : ∀ c ∈ digits.toList, c.isDigit = true := by
    rcases Recognizer.mem_language_numeral_iff.mp h with hzero | ⟨c, v, hcons, -, hdigits⟩
    · rw [hzero]
      exact List.forall_mem_singleton.mpr rfl
    · rwa [hcons]
  exact ok_mapError_iff.mpr (TypeRule.numeral_eq_ok_iff.mpr ⟨hdigits, rfl⟩)

theorem infer_bool_of_mem_language {text : String}
    (h : text.toList ∈ Recognizer.boolean.language) (env : TypeEnv) :
    (Exp.bool text).infer env = .ok .bool := by
  have htext : text = "True" ∨ text = "False" := by
    rcases h with h | h
    · exact .inl (String.toList_inj.mp h)
    · exact .inr (String.toList_inj.mp h)
  exact ok_mapError_iff.mpr (TypeRule.boolean_eq_ok_iff.mpr ⟨htext, rfl⟩)

/-! ## Lexemes of MH -/

/-- Apart from the discarded ones, a lexeme was won by the only recognizer of its class. -/
theorem Lexeme.find?_of_tokenClass {l : Lexeme} {r : Recognizer} (hr : r ∈ mhRecognizers)
    (hkept : r.tokenClass ≠ .discarded)
    (hfind : ∃ r, mhRecognizers.find? (·.accepts l.text.toList) = some r ∧
      r.tokenClass = l.tokenClass) (hclass : l.tokenClass = r.tokenClass) :
    mhRecognizers.find? (·.accepts l.text.toList) = some r := by
  obtain ⟨r', hr', hclass'⟩ := hfind
  obtain rfl := eq_of_tokenClass_eq r hr r' (List.mem_of_find?_eq_some hr')
    (hclass.symm.trans hclass'.symm) hkept
  exact hr'

/-- **The lexemes of a class are the texts that it admits.**  A text is a single lexeme of a class if
and only if the class admits it, and so is the text of every token of any source.  In particular no
identifier is a keyword, no operator consists of dashes only, unless it is a single one, and the type
checker accepts every numeral and every boolean. -/
theorem lexeme_iff_admits (w : List Char) (k : TokenClass) :
    ((∃ token : Token, items (Lexer.start mhRecognizers true w) = [.ok token] ∧
      token.value = ⟨String.ofList w, k⟩) ↔ k.Admits w) ∧
    ∀ yieldsDiscarded source (token : Token),
      .ok token ∈ items (Lexer.start mhRecognizers yieldsDiscarded source) →
      token.value.tokenClass.Admits token.value.text.toList ∧
      (token.value.tokenClass = .identifier → token.value.text.toList ∉ literalTexts) ∧
      (token.value.tokenClass = .operator →
        ¬ ∃ n, 2 ≤ n ∧ token.value.text.toList = List.replicate n '-') ∧
      (token.value.tokenClass = .numeral →
        ∀ env, (Exp.num token.value.text).infer env = .ok .integer) ∧
      (token.value.tokenClass = .boolean →
        ∀ env, (Exp.bool token.value.text).infer env = .ok .bool) := by
  refine ⟨⟨?_, ?_⟩, ?_⟩
  · rintro ⟨token, hitems, hvalue⟩
    have hmem : .ok token ∈ items (Lexer.start mhRecognizers true w) := by
      rw [hitems]
      exact List.mem_cons_self
    obtain ⟨r, hfind, hclass⟩ := Lexer.find?_of_mem_items hmem
    rw [hvalue, String.toList_ofList] at hfind
    rw [hvalue] at hclass
    obtain rfl : r.tokenClass = k := hclass
    exact Recognizer.admits_of_find? hfind
  · intro hadmits
    obtain ⟨r, hfind, rfl⟩ := Recognizer.find?_of_admits hadmits
    exact ⟨_, (Lexer.munch_items_start mhRecognizers w).unique (Munch.of_find? hfind), rfl⟩
  · intro yieldsDiscarded source token hmem
    -- the text of a token is accepted, first of all, by the recognizer of its class
    have hfind := Lexer.find?_of_mem_items hmem
    refine ⟨?_, ?_, ?_, ?_, ?_⟩
    · obtain ⟨r, hr, hclass⟩ := hfind
      rw [← hclass]
      exact Recognizer.admits_of_find? hr
    · intro hclass
      exact Recognizer.notMem_literalTexts
        (Lexeme.find?_of_tokenClass (by decide) (by decide) hfind hclass)
    · intro hclass
      have hoperator := Lexeme.find?_of_tokenClass (r := .operator) (by decide) (by decide) hfind
        hclass
      exact (Recognizer.find?_eq_some_operator_iff.mp hoperator).2
    · intro hclass
      have hnumeral := Lexeme.find?_of_tokenClass (r := .numeral) (by decide) (by decide) hfind
        hclass
      exact infer_num_of_mem_language (Recognizer.mem_language_of_find? hnumeral)
    · intro hclass
      have hboolean := Lexeme.find?_of_tokenClass (r := .boolean) (by decide) (by decide) hfind
        hclass
      exact infer_bool_of_mem_language (Recognizer.mem_language_of_find? hboolean)

end Frontend
