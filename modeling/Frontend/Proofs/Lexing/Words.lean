import Frontend.Proofs.Lexing.Languages
import Frontend.Proofs.Lexing.MaximalMunch

/-!
# Words between blanks

No lexeme of MH reaches over a blank but those that are left out.  Most recognizers are *solid*: a
blank takes them to their dead state from wherever they are.  The two others are that for blanks,
which dies at everything else, and that for comments.  A comment may well contain blanks, but it has
to be one before the first of them: where the dashes are not accepted as a comment, nothing that
goes on with a blank is.

A lexeme is a word if its text is recognized, and not in order to be left out.  The text is not a
comment then, so nothing longer is recognized if a blank follows
(`Lexeme.IsWord.isGreatest_length`).  Likewise a run of blanks is not recognized together with
anything that follows it (`isGreatest_length_gap`).
-/

namespace Frontend

open CharClass

variable {c : Char}

/-- A letter, a digit or a symbolic character is no blank. -/
theorem CharClass.contains_eq_false_of_whitespace {k : CharClass} (hk : k ≠ whitespace)
    (hk' : k ≠ newline) (hc : whitespace.contains c = true) : k.contains c = false := by
  by_contra h
  rw [Bool.not_eq_false] at h
  exact hk (eq_whitespace_of_contains hk' hc h)

/-! ## Solid recognizers -/

namespace Recognizer

/-- Whether every blank is the end of what is recognized. -/
def isSolid : Recognizer → Bool
  | blank | comment => false
  | literal text _ => text.all fun c => !whitespace.contains c
  | _ => true

theorem ne_of_whitespace (hc : whitespace.contains c = true) {d : Char}
    (hd : whitespace.contains d = false) : c ≠ d := by
  rintro rfl
  rw [hc] at hd
  contradiction

theorem next_eq_dead_of_isSolid {r : Recognizer} (hr : r.isSolid = true)
    (hc : whitespace.contains c = true) (state : ℕ) : r.next state c = r.dead := by
  have hclasses : small.contains c = false ∧ large.contains c = false ∧ digit.contains c = false ∧
      symbolic.contains c = false := by
    refine ⟨?_, ?_, ?_, ?_⟩ <;> exact contains_eq_false_of_whitespace (by decide) (by decide) hc
  cases r with
  | identifier =>
      have hquote : (c == '\'') = false := beq_false_of_ne (ne_of_whitespace hc (by decide))
      simp only [next, continuesIdentifier, hclasses, hquote]
      split <;> rfl
  | numeral =>
      have hzero : c ≠ '0' := ne_of_whitespace hc (by decide)
      simp only [next, hclasses, hzero]
      split <;> rfl
  | boolean =>
      have hletters : c ≠ 'T' ∧ c ≠ 'r' ∧ c ≠ 'u' ∧ c ≠ 'e' ∧ c ≠ 'F' ∧ c ≠ 'a' ∧ c ≠ 'l' ∧
          c ≠ 's' := by
        refine ⟨?_, ?_, ?_, ?_, ?_, ?_, ?_, ?_⟩ <;> exact ne_of_whitespace hc (by decide)
      simp only [next, hletters]
      split <;> rfl
  | operator =>
      simp only [next, hclasses]
      split <;> rfl
  | blank | comment => simp [isSolid] at hr
  | literal text =>
      refine if_neg ?_
      -- else a character of the literal would be white space
      intro hstate
      have hmem : c ∈ text := List.mem_of_getElem? hstate
      have hsolid : ∀ d ∈ text, whitespace.contains d = false := by simpa [isSolid] using hr
      rw [hsolid c hmem] at hc
      contradiction

theorem accepts_append_eq_false {r : Recognizer} {w v : List Char}
    (h : r.next (r.run w) c = r.dead) : r.accepts (w ++ c :: v) = false := by
  rw [accepts, run, runFrom_append, runFrom_cons, ← run, h, runFrom_dead, isAccepting_dead]

theorem accepts_cons_eq_false {r : Recognizer} {v : List Char} (h : r.next 0 c = r.dead) :
    r.accepts (c :: v) = false :=
  accepts_append_eq_false (w := []) h

/-- Nothing that is accepted contains a character that is the end wherever it comes. -/
theorem notMem_of_accepts {r : Recognizer} {w : List Char} (h : r.accepts w = true)
    (hdead : ∀ before, r.next (r.run before) c = r.dead) : c ∉ w := by
  intro hmem
  obtain ⟨before, after, rfl⟩ := List.append_of_mem hmem
  rw [accepts_append_eq_false (hdead before)] at h
  contradiction

/-- What a solid recognizer accepts contains no blank. -/
theorem not_whitespace_of_accepts {r : Recognizer} (hr : r.isSolid = true) {w : List Char}
    (h : r.accepts w = true) : ∀ c ∈ w, whitespace.contains c = false := by
  intro c hmem
  by_contra hc
  rw [Bool.not_eq_false] at hc
  exact notMem_of_accepts h (fun _ => next_eq_dead_of_isSolid hr hc _) hmem

theorem isSolid_of_mem : ∀ r ∈ mhRecognizers, r.isSolid = true ∨ r = blank ∨ r = comment := by
  decide

/-! ## Blanks -/

theorem blank_next_eq_dead (hc : whitespace.contains c = false) (state : ℕ) :
    blank.next state c = blank.dead := by
  simp only [next, hc]
  split <;> rfl

theorem blank_accepts {gap : List Char} (hgap : gap ≠ [])
    (hblank : ∀ c ∈ gap, whitespace.contains c = true) : blank.accepts gap = true :=
  accepts_of_mem_language (mem_oneOf_mul_kstar.mpr ⟨hgap, hblank⟩)

/-- Of the recognizers of MH only that for blanks accepts anything that starts with one. -/
theorem eq_blank_of_accepts {r : Recognizer} (hr : r ∈ mhRecognizers)
    (hc : whitespace.contains c = true) {v : List Char} (h : r.accepts (c :: v) = true) :
    r = blank := by
  have hdead : r.next 0 c = r.dead → r = blank := by
    intro hdead
    rw [accepts_cons_eq_false hdead] at h
    contradiction
  rcases isSolid_of_mem r hr with hsolid | rfl | rfl
  · exact hdead (next_eq_dead_of_isSolid hsolid hc 0)
  · rfl
  · exact hdead (if_neg (ne_of_whitespace hc (by decide)))

/-! ## Comments -/

/-- A blank does not make a comment of what is none. -/
theorem comment_next_eq_dead {state : ℕ} (hstate : comment.isAccepting state = false)
    (hc : whitespace.contains c = true) : comment.next state c = comment.dead := by
  have hdash : c ≠ '-' := ne_of_whitespace hc (by decide)
  match state with
  | 0 | 1 => exact if_neg hdash
  | 2 | 3 | 4 => simp [isAccepting] at hstate
  | _ + 5 => rfl

/-- A comment is recognized as one, although its dashes are an operator as well. -/
theorem find?_accepts_of_comment {w : List Char} (h : comment.accepts w = true) :
    mhRecognizers.find? (·.accepts w) = some comment := by
  have hdash : ∃ v, w = '-' :: v := by
    cases w with
    | nil => exact absurd h (by decide)
    | cons c v =>
        by_contra hne
        have hc : c ≠ '-' := by
          rintro rfl
          exact hne ⟨v, rfl⟩
        rw [accepts_cons_eq_false (r := comment) (if_neg hc)] at h
        contradiction
  obtain ⟨v, rfl⟩ := hdash
  have hearlier : ∀ r ∈ mhRecognizers.takeWhile (· ≠ comment), r.next 0 '-' = r.dead := by decide
  refine List.find?_eq_some_iff_append.mpr
    ⟨h, mhRecognizers.takeWhile (· ≠ comment), [operator, numeral, boolean], rfl, ?_⟩
  intro r hr
  rw [accepts_cons_eq_false (hearlier r hr)]
  rfl

end Recognizer

/-! ## The longest match -/

/-- What is recognized of a text, and is longer than a certain beginning of it, goes on with the next
character of the text. -/
theorem exists_accepts_of_mem_acceptedLengths {recognizers : List Recognizer} {w rest : List Char}
    {n : ℕ} (hn : n ∈ acceptedLengths recognizers (w ++ rest)) (hlonger : w.length < n) :
    ∃ c v v', rest = c :: v' ∧ ∃ r ∈ recognizers, r.accepts (w ++ c :: v) = true := by
  obtain ⟨-, hle, r, hr, haccepts⟩ := hn
  obtain ⟨k, rfl⟩ : ∃ k, n = w.length + (k + 1) := ⟨n - w.length - 1, by omega⟩
  cases rest with
  | nil =>
      rw [List.append_nil] at hle
      omega
  | cons c v =>
      rw [List.take_length_add_append, List.take_succ_cons] at haccepts
      exact ⟨c, v.take k, v, rfl, r, hr, haccepts⟩

/-- A beginning that is recognized is the longest match if nothing that goes on with the next
character of the text is recognized. -/
theorem isGreatest_length_append {recognizers : List Recognizer} {w rest : List Char} (hw : w ≠ [])
    (haccepts : ∃ r ∈ recognizers, r.accepts w = true)
    (hlonger : ∀ c v v', rest = c :: v' → ∀ r ∈ recognizers, r.accepts (w ++ c :: v) = false) :
    IsGreatest (acceptedLengths recognizers (w ++ rest)) w.length := by
  obtain ⟨r, hr, hrw⟩ := haccepts
  refine ⟨⟨List.length_pos_iff.mpr hw, by simp, r, hr, by rwa [List.take_left]⟩, ?_⟩
  intro n hn
  by_contra hlt
  obtain ⟨c, v, v', hrest, r', hr', haccepts'⟩ :=
    exists_accepts_of_mem_acceptedLengths hn (Nat.lt_of_not_ge hlt)
  rw [hlonger c v v' hrest r' hr'] at haccepts'
  contradiction

/-- A lexeme that is recognized and not left out. -/
structure Lexeme.IsWord (l : Lexeme) : Prop where
  recognized : ∃ r, mhRecognizers.find? (·.accepts l.text.toList) = some r ∧
    r.tokenClass = l.tokenClass
  visible : l.isDiscarded = false

theorem Lexeme.isWord_iff {l : Lexeme} : l.IsWord ↔
    (mhRecognizers.find? (·.accepts l.text.toList)).map Recognizer.tokenClass =
      some l.tokenClass ∧ l.isDiscarded = false := by
  rw [Option.map_eq_some_iff]
  exact ⟨fun h => ⟨h.recognized, h.visible⟩, fun h => ⟨h.1, h.2⟩⟩

instance : DecidablePred Lexeme.IsWord := fun _ => decidable_of_iff' _ Lexeme.isWord_iff

namespace Lexeme.IsWord

variable {l : Lexeme}

theorem tokenClass_ne (h : l.IsWord) : l.tokenClass ≠ .discarded := of_decide_eq_false h.visible

theorem exists_isSolid (h : l.IsWord) :
    ∃ r ∈ mhRecognizers, r.isSolid = true ∧ r.accepts l.text.toList = true := by
  obtain ⟨r, hfind, hclass⟩ := h.recognized
  have hmem : r ∈ mhRecognizers := List.mem_of_find?_eq_some hfind
  have hkept : r.tokenClass ≠ .discarded := by
    intro hdiscarded
    exact h.tokenClass_ne (hclass.symm.trans hdiscarded)
  refine ⟨r, hmem, ?_, by simpa using List.find?_some hfind⟩
  rcases Recognizer.isSolid_of_mem r hmem with hsolid | rfl | rfl
  · exact hsolid
  · exact absurd rfl hkept
  · exact absurd rfl hkept

theorem not_comment (h : l.IsWord) : Recognizer.comment.accepts l.text.toList = false := by
  by_contra haccepts
  rw [Bool.not_eq_false] at haccepts
  obtain ⟨r, hfind, hclass⟩ := h.recognized
  rw [Recognizer.find?_accepts_of_comment haccepts] at hfind
  obtain rfl := Option.some.inj hfind
  exact h.tokenClass_ne hclass.symm

theorem ne_nil (h : l.IsWord) : l.text.toList ≠ [] := by
  obtain ⟨r, -, -, haccepts⟩ := h.exists_isSolid
  exact Recognizer.ne_nil_of_accepts haccepts

theorem not_whitespace (h : l.IsWord) : ∀ c ∈ l.text.toList, whitespace.contains c = false := by
  obtain ⟨r, -, hsolid, haccepts⟩ := h.exists_isSolid
  exact Recognizer.not_whitespace_of_accepts hsolid haccepts

/-- Nothing is recognized that starts with a word and goes on with a blank. -/
theorem not_accepts_append (h : l.IsWord) (hc : whitespace.contains c = true) {r : Recognizer}
    (hr : r ∈ mhRecognizers) (v : List Char) : r.accepts (l.text.toList ++ c :: v) = false := by
  rcases Recognizer.isSolid_of_mem r hr with hsolid | rfl | rfl
  · exact Recognizer.accepts_append_eq_false (Recognizer.next_eq_dead_of_isSolid hsolid hc _)
  · obtain ⟨d, w, hw⟩ := List.exists_cons_of_ne_nil h.ne_nil
    have hd : whitespace.contains d = false := h.not_whitespace d (by simp [hw])
    rw [hw, List.cons_append]
    exact Recognizer.accepts_cons_eq_false (Recognizer.blank_next_eq_dead hd 0)
  · exact Recognizer.accepts_append_eq_false (Recognizer.comment_next_eq_dead h.not_comment hc)

/-- **A word that is followed by a blank is the longest match.** -/
theorem isGreatest_length (h : l.IsWord) {rest : List Char}
    (hrest : ∀ c v, rest = c :: v → whitespace.contains c = true) :
    IsGreatest (acceptedLengths mhRecognizers (l.text.toList ++ rest)) l.text.toList.length := by
  obtain ⟨r, hr, -, haccepts⟩ := h.exists_isSolid
  refine isGreatest_length_append h.ne_nil ⟨r, hr, haccepts⟩ ?_
  intro c v v' hcons r' hr'
  exact h.not_accepts_append (hrest c v' hcons) hr' v

end Lexeme.IsWord

/-- **A run of blanks is the longest match if no further blank follows.** -/
theorem isGreatest_length_gap {gap rest : List Char} (hgap : gap ≠ [])
    (hblank : ∀ c ∈ gap, whitespace.contains c = true)
    (hrest : ∀ c v, rest = c :: v → whitespace.contains c = false) :
    IsGreatest (acceptedLengths mhRecognizers (gap ++ rest)) gap.length := by
  refine isGreatest_length_append hgap
    ⟨.blank, by decide, Recognizer.blank_accepts hgap hblank⟩ ?_
  intro c v v' hcons r hr
  by_contra haccepts
  rw [Bool.not_eq_false] at haccepts
  obtain ⟨d, w, rfl⟩ := List.exists_cons_of_ne_nil hgap
  obtain rfl := Recognizer.eq_blank_of_accepts hr (hblank d List.mem_cons_self) haccepts
  rw [Recognizer.accepts_append_eq_false
    (Recognizer.blank_next_eq_dead (hrest c v' hcons) _)] at haccepts
  contradiction

theorem find?_accepts_gap {gap : List Char} (hgap : gap ≠ [])
    (hblank : ∀ c ∈ gap, whitespace.contains c = true) :
    mhRecognizers.find? (·.accepts gap) = some .blank := by
  have hearlier : ∀ r ∈ mhRecognizers.takeWhile (· ≠ .blank), r ∈ mhRecognizers ∧ r ≠ .blank := by
    decide
  refine List.find?_eq_some_iff_append.mpr ⟨Recognizer.blank_accepts hgap hblank,
    mhRecognizers.takeWhile (· ≠ .blank), [.comment, .operator, .numeral, .boolean], rfl, ?_⟩
  intro r hr
  obtain ⟨hmem, hne⟩ := hearlier r hr
  obtain ⟨c, v, rfl⟩ := List.exists_cons_of_ne_nil hgap
  by_contra haccepts
  rw [Bool.not_eq_true, Bool.not_eq_false'] at haccepts
  exact hne (Recognizer.eq_blank_of_accepts hmem (hblank c List.mem_cons_self) haccepts)

end Frontend
