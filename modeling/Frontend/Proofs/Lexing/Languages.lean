import Frontend.Lexing.Recognizer
import Mathlib.Computability.Language
import Mathlib.Data.Char
import Mathlib.Order.Interval.Set.Defs

/-!
# The languages of the recognizers

`Recognizer.language` says what a recognizer accepts in the usual operations on languages: union,
concatenation and star, over sets of single characters (`oneOf`).  It knows of no states.  The
recognizers accept exactly these languages (`accepts_iff_mem_language`), whatever characters a text
is made of.

The proof looks at the language of each state, `languageFrom`: the texts that lead from there to an
accepting state.  Reading one character is an equation between the languages of the states.  A state
with a loop has an equation of the form `l = oneOf s * l + n`, and Arden's lemma says that
`(oneOf s)∗ * n` is its only solution.  So no invariant of the words behind a state is needed; the
equations are solved from the last state back to state zero.
-/

namespace Frontend

open CharClass
open Set (Icc)
open scoped Computability

/-! ## Texts of one character -/

/-- The texts that consist of one character of a set. -/
def oneOf (s : Set Char) : Language Char := {w | ∃ c ∈ s, w = [c]}

section

variable {s : Set Char} {l : Language Char} {c : Char} {w : List Char}

theorem nil_notMem_oneOf : [] ∉ oneOf s := by
  rintro ⟨c, -, h⟩
  contradiction

@[simp] theorem nil_notMem_oneOf_mul : [] ∉ oneOf s * l := by
  rw [Language.mem_mul]
  rintro ⟨v, ⟨c, -, rfl⟩, w, -, h⟩
  contradiction

@[simp] theorem cons_mem_oneOf_mul : c :: w ∈ oneOf s * l ↔ c ∈ s ∧ w ∈ l := by
  rw [Language.mem_mul]
  constructor
  · rintro ⟨v, ⟨d, hd, rfl⟩, w', hw', h⟩
    obtain ⟨rfl, rfl⟩ := List.cons.inj h
    exact ⟨hd, hw'⟩
  · rintro ⟨hc, hw⟩
    exact ⟨[c], ⟨c, hc, rfl⟩, w, hw, rfl⟩

theorem mem_singleton {v : List Char} : v ∈ ({w} : Language Char) ↔ v = w := Iff.rfl

theorem oneOf_mul_singleton : oneOf {c} * {w} = {c :: w} := by
  ext v
  rw [mem_singleton]
  cases v with
  | nil => simp
  | cons d v => simp [mem_singleton]

theorem mem_kstar_oneOf : w ∈ (oneOf s)∗ ↔ ∀ c ∈ w, c ∈ s := by
  induction w with
  | nil => simp [Language.nil_mem_kstar]
  | cons c w ih =>
      rw [← Language.one_add_self_mul_kstar_eq_kstar, Language.mem_add, cons_mem_oneOf_mul, ih]
      simp

theorem mem_oneOf_mul_kstar : w ∈ oneOf s * (oneOf s)∗ ↔ w ≠ [] ∧ ∀ c ∈ w, c ∈ s := by
  cases w with
  | nil => simp
  | cons c w => simp [mem_kstar_oneOf]

/-- A language that is left by a loop is the star of the loop, and then what comes behind it. -/
theorem eq_kstar_oneOf_mul {n : Language Char} (h : l = oneOf s * l + n) : l = (oneOf s)∗ * n :=
  (Language.self_eq_mul_add_iff nil_notMem_oneOf).mp h

end

/-! ## Classes of characters as sets -/

def CharClass.chars (k : CharClass) : Set Char := {c | k.contains c = true}

theorem small_iff {c : Char} : small.contains c = true ↔ c ∈ Icc 'a' 'z' := by
  rw [small_eq, Bool.and_eq_true, decide_eq_true_eq, decide_eq_true_eq]
  rfl

theorem large_iff {c : Char} : large.contains c = true ↔ c ∈ Icc 'A' 'Z' := by
  rw [large_eq, decide_eq_true_eq]
  rfl

theorem digit_iff {c : Char} : digit.contains c = true ↔ c ∈ Icc '0' '9' := by
  rw [digit_eq, Bool.and_eq_true, decide_eq_true_eq, decide_eq_true_eq]
  rfl

theorem newline_iff {c : Char} : newline.contains c = true ↔ c ∈ ({'\n', '\r'} : Set Char) := by
  simp [contains, lineEnds, or_comm]

theorem continuesIdentifier_iff {c : Char} : Recognizer.continuesIdentifier c = true ↔
    c ∈ Icc 'a' 'z' ∪ Icc 'A' 'Z' ∪ Icc '0' '9' ∪ {'\''} := by
  simp only [Recognizer.continuesIdentifier, Bool.or_eq_true, beq_iff_eq, small_iff, large_iff,
    digit_iff]
  rfl

theorem opensCommentText_iff {c : Char} : Recognizer.opensCommentText c = true ↔
    c ∈ (symbolic.chars ∪ {'\n', '\r'})ᶜ := by
  rw [Set.mem_compl_iff, Set.mem_union, ← newline_iff, not_or, CharClass.chars, Set.mem_ofPred_eq]
  simp only [Recognizer.opensCommentText, Bool.and_eq_true, Bool.not_eq_true', Bool.not_eq_true]

theorem mem_Icc_one_nine_iff {c : Char} : c ∈ Icc '1' '9' ↔ c ≠ '0' ∧ c ∈ Icc '0' '9' := by
  rw [Set.mem_Icc, Set.mem_Icc, ne_eq, ← Char.toNat_inj]
  simp only [Char.le_def, UInt32.le_iff_toNat_le]
  show 49 ≤ c.toNat ∧ c.toNat ≤ 57 ↔ c.toNat ≠ 48 ∧ 48 ≤ c.toNat ∧ c.toNat ≤ 57
  omega

namespace Recognizer

/-! ## What is accepted -/

/-- What may follow the dashes of a comment: nothing, or a text that starts with a character that is
no symbol and goes on to the end of the line at most. -/
def commentText : Language Char :=
  1 + oneOf (symbolic.chars ∪ {'\n', '\r'})ᶜ * (oneOf {'\n', '\r'}ᶜ)∗ * (1 + oneOf {'\n', '\r'})

/-- The texts that a recognizer is for. -/
def language : Recognizer → Language Char
  | identifier => oneOf (Icc 'a' 'z') *
      (oneOf (Icc 'a' 'z' ∪ Icc 'A' 'Z' ∪ Icc '0' '9' ∪ {'\''}))∗
  | numeral => oneOf {'0'} + oneOf (Icc '1' '9') * (oneOf (Icc '0' '9'))∗
  | boolean => {['T', 'r', 'u', 'e']} + {['F', 'a', 'l', 's', 'e']}
  | operator => oneOf symbolic.chars * (oneOf symbolic.chars)∗
  | blank => oneOf whitespace.chars * (oneOf whitespace.chars)∗
  | comment => oneOf {'-'} * oneOf {'-'} * (oneOf {'-'})∗ * commentText
  | literal text _ => {text}

/-- The texts that lead from a state to an accepting one. -/
def languageFrom (r : Recognizer) (state : ℕ) : Language Char :=
  {w | r.isAccepting (r.runFrom state w) = true}

/-- A comment has two dashes or more, and then its text. -/
theorem mem_language_comment_iff {w : List Char} : w ∈ comment.language ↔
    ∃ n tail, 2 ≤ n ∧ tail ∈ commentText ∧ w = List.replicate n '-' ++ tail := by
  simp only [language, mul_assoc]
  constructor
  · rintro ⟨_, ⟨_, rfl, rfl⟩, _, ⟨_, ⟨_, rfl, rfl⟩, _, ⟨dashes, hdashes, tail, htail, rfl⟩, rfl⟩, rfl⟩
    have hall : ∀ c ∈ dashes, c = '-' := mem_kstar_oneOf.mp hdashes
    obtain ⟨n, rfl⟩ : ∃ n, dashes = List.replicate n '-' := ⟨_, List.eq_replicate_of_mem hall⟩
    exact ⟨n + 2, tail, Nat.le_add_left 2 n, htail, rfl⟩
  · rintro ⟨n, tail, hn, htail, rfl⟩
    obtain ⟨n, rfl⟩ := Nat.exists_eq_add_of_le' hn
    have hdashes : List.replicate n '-' ∈ (oneOf {'-'})∗ :=
      mem_kstar_oneOf.mpr fun c hc => List.eq_of_mem_replicate hc
    exact ⟨_, ⟨_, rfl, rfl⟩, _, ⟨_, ⟨_, rfl, rfl⟩, _, ⟨_, hdashes, tail, htail, rfl⟩, rfl⟩, rfl⟩

/-! ## Equations between the states -/

section

variable {r : Recognizer} {state p q : ℕ} {s t : Set Char} {c : Char} {w : List Char}

@[simp] theorem nil_mem_languageFrom :
    [] ∈ r.languageFrom state ↔ r.isAccepting state = true := Iff.rfl

@[simp] theorem cons_mem_languageFrom :
    c :: w ∈ r.languageFrom state ↔ w ∈ r.languageFrom (r.next state c) := Iff.rfl

theorem notMem_languageFrom_dead : w ∉ r.languageFrom r.dead := by
  intro h
  have haccepts : r.isAccepting (r.runFrom r.dead w) = true := h
  rw [runFrom_dead, isAccepting_dead] at haccepts
  contradiction

/-- The empty text, if the state is accepting. -/
def endHere (r : Recognizer) (state : ℕ) : Language Char := if r.isAccepting state then 1 else 0

theorem languageFrom_eq (hp : ∀ c ∈ s, r.next state c = p) (hq : ∀ c ∈ t, r.next state c = q)
    (hdead : ∀ c, c ∉ s → c ∉ t → r.next state c = r.dead) :
    r.languageFrom state =
      oneOf s * r.languageFrom p + (oneOf t * r.languageFrom q + r.endHere state) := by
  ext w
  simp only [Language.mem_add, endHere]
  cases w with
  | nil => cases h : r.isAccepting state <;> simp [h]
  | cons c w =>
      have hend : c :: w ∉ if r.isAccepting state then (1 : Language Char) else 0 := by
        split <;> simp
      simp only [cons_mem_languageFrom, cons_mem_oneOf_mul, hend, or_false]
      by_cases hs : c ∈ s
      · by_cases ht : c ∈ t
        · simp [hs, ht, ← hp c hs, ← hq c ht]
        · simp [hs, ht, hp c hs]
      · by_cases ht : c ∈ t
        · simp [hs, ht, hq c ht]
        · simp [hs, ht, hdead c hs ht, notMem_languageFrom_dead]

/-- A state with only one way to go on. -/
theorem languageFrom_eq_of_step (hp : ∀ c ∈ s, r.next state c = p)
    (hdead : ∀ c ∉ s, r.next state c = r.dead) :
    r.languageFrom state = oneOf s * r.languageFrom p + r.endHere state := by
  have hempty : oneOf (∅ : Set Char) * r.languageFrom p = 0 := by
    ext w
    cases w <;> simp
  have h := languageFrom_eq (t := ∅) (q := p) hp (by simp) fun c hc _ => hdead c hc
  rwa [hempty, zero_add] at h

/-- An accepting state that is only left by dying. -/
theorem languageFrom_of_loop (haccepting : r.isAccepting state = true)
    (hloop : ∀ c ∈ s, r.next state c = state) (hdead : ∀ c ∉ s, r.next state c = r.dead) :
    r.languageFrom state = (oneOf s)∗ := by
  have h := languageFrom_eq_of_step hloop hdead
  rw [endHere, if_pos haccepting] at h
  rw [eq_kstar_oneOf_mul h, mul_one]

/-- A state that nothing is accepted in front of. -/
theorem languageFrom_of_step (haccepting : r.isAccepting state = false)
    (hp : ∀ c ∈ s, r.next state c = p) (hdead : ∀ c ∉ s, r.next state c = r.dead) :
    r.languageFrom state = oneOf s * r.languageFrom p := by
  rw [languageFrom_eq_of_step hp hdead, endHere, haccepting, if_neg Bool.false_ne_true, add_zero]

/-- An accepting state that cannot be gone on from. -/
theorem languageFrom_of_end (haccepting : r.isAccepting state = true)
    (hdead : ∀ c, r.next state c = r.dead) : r.languageFrom state = 1 := by
  ext w
  cases w with
  | nil => simpa using haccepting
  | cons c w => simp [hdead, notMem_languageFrom_dead]

end

/-! ## The equations solved -/

theorem languageFrom_identifier : identifier.languageFrom 0 = identifier.language := by
  have hword : identifier.languageFrom 1 =
      (oneOf (Icc 'a' 'z' ∪ Icc 'A' 'Z' ∪ Icc '0' '9' ∪ {'\''}))∗ :=
    languageFrom_of_loop rfl (fun c hc => if_pos (continuesIdentifier_iff.mpr hc))
      fun c hc => if_neg (mt continuesIdentifier_iff.mp hc)
  rw [language, ← hword]
  exact languageFrom_of_step rfl (fun c hc => if_pos (small_iff.mpr hc))
    fun c hc => if_neg (mt small_iff.mp hc)

theorem languageFrom_numeral : numeral.languageFrom 0 = numeral.language := by
  have hzero : numeral.languageFrom 1 = 1 := languageFrom_of_end rfl fun _ => rfl
  have hdigits : numeral.languageFrom 2 = (oneOf (Icc '0' '9'))∗ :=
    languageFrom_of_loop rfl (fun c hc => if_pos (digit_iff.mpr hc))
      fun c hc => if_neg (mt digit_iff.mp hc)
  have hstart : numeral.languageFrom 0 = oneOf {'0'} * numeral.languageFrom 1 +
      (oneOf (Icc '1' '9') * numeral.languageFrom 2 + numeral.endHere 0) := by
    refine languageFrom_eq ?_ ?_ ?_
    · rintro c rfl
      rfl
    · intro c hc
      obtain ⟨hne, hdigit⟩ := mem_Icc_one_nine_iff.mp hc
      rw [next, if_neg hne, if_pos (digit_iff.mpr hdigit)]
    · intro c hzero hc
      have hne : c ≠ '0' := hzero
      have hdigit : c ∉ Icc '0' '9' := fun h => hc (mem_Icc_one_nine_iff.mpr ⟨hne, h⟩)
      rw [next, if_neg hne, if_neg (mt digit_iff.mp hdigit), dead]
  have hend : numeral.endHere 0 = 0 := rfl
  rw [hstart, hzero, hdigits, hend, mul_one, add_zero, language]

theorem languageFrom_operator : operator.languageFrom 0 = operator.language := by
  have hmore : operator.languageFrom 1 = (oneOf symbolic.chars)∗ :=
    languageFrom_of_loop rfl (fun c hc => if_pos hc) fun c hc => if_neg hc
  rw [language, ← hmore]
  exact languageFrom_of_step rfl (fun c hc => if_pos hc) fun c hc => if_neg hc

theorem languageFrom_blank : blank.languageFrom 0 = blank.language := by
  have hmore : blank.languageFrom 1 = (oneOf whitespace.chars)∗ :=
    languageFrom_of_loop rfl (fun c hc => if_pos hc) fun c hc => if_neg hc
  rw [language, ← hmore]
  exact languageFrom_of_step rfl (fun c hc => if_pos hc) fun c hc => if_neg hc

/-- A state that waits for one character. -/
theorem languageFrom_of_char {r : Recognizer} {state p : ℕ} {d : Char} {words : Language Char}
    (haccepting : r.isAccepting state = false)
    (hnext : ∀ c, r.next state c = if c = d then p else r.dead)
    (hwords : r.languageFrom p = words) : r.languageFrom state = oneOf {d} * words := by
  rw [← hwords]
  refine languageFrom_of_step haccepting ?_ ?_
  · rintro c rfl
    rw [hnext, if_pos rfl]
  · intro c hc
    have hne : c ≠ d := hc
    rw [hnext, if_neg hne]

theorem languageFrom_boolean : boolean.languageFrom 0 = boolean.language := by
  -- from `Tru` and `Fals` on there is only one letter left, and one state waits for it
  have hend : boolean.languageFrom 4 = {[]} := languageFrom_of_end rfl fun _ => rfl
  have he : boolean.languageFrom 3 = oneOf {'e'} * {[]} :=
    languageFrom_of_char rfl (fun _ => rfl) hend
  have hrue : boolean.languageFrom 1 = oneOf {'r'} * (oneOf {'u'} * (oneOf {'e'} * {[]})) :=
    languageFrom_of_char rfl (fun _ => rfl) (languageFrom_of_char rfl (fun _ => rfl) he)
  have hls : boolean.languageFrom 6 = oneOf {'l'} * (oneOf {'s'} * (oneOf {'e'} * {[]})) :=
    languageFrom_of_char rfl (fun _ => rfl) (languageFrom_of_char rfl (fun _ => rfl) he)
  have halse : boolean.languageFrom 5 =
      oneOf {'a'} * (oneOf {'l'} * (oneOf {'s'} * (oneOf {'e'} * {[]}))) :=
    languageFrom_of_char rfl (fun _ => rfl) hls
  have hstart : boolean.languageFrom 0 = oneOf {'T'} * boolean.languageFrom 1 +
      (oneOf {'F'} * boolean.languageFrom 5 + boolean.endHere 0) := by
    refine languageFrom_eq ?_ ?_ ?_
    · rintro c rfl
      rfl
    · rintro c rfl
      rfl
    · intro c hT hF
      exact (if_neg hT).trans (if_neg hF)
  have hnone : boolean.endHere 0 = 0 := rfl
  rw [hstart, hrue, halse, hnone, add_zero, language]
  simp only [oneOf_mul_singleton]

theorem languageFrom_comment : comment.languageFrom 0 = comment.language := by
  -- from the last state back to the first, each with the languages of the later ones
  have hend : comment.languageFrom 4 = 1 := languageFrom_of_end rfl fun _ => rfl
  have htext : comment.languageFrom 3 = (oneOf {'\n', '\r'}ᶜ)∗ * (1 + oneOf {'\n', '\r'}) := by
    refine eq_kstar_oneOf_mul ?_
    have h : comment.languageFrom 3 = oneOf {'\n', '\r'}ᶜ * comment.languageFrom 3 +
        (oneOf {'\n', '\r'} * comment.languageFrom 4 + comment.endHere 3) := by
      refine languageFrom_eq ?_ ?_ ?_
      · intro c hc
        exact if_neg (mt newline_iff.mp hc)
      · intro c hc
        exact if_pos (newline_iff.mpr hc)
      · intro c hc hc'
        exact absurd hc' hc
    have haccepting : comment.endHere 3 = 1 := rfl
    rwa [hend, haccepting, mul_one, add_comm (oneOf _) 1] at h
  have hdashes : comment.languageFrom 2 = (oneOf {'-'})∗ * commentText := by
    refine eq_kstar_oneOf_mul ?_
    rw [commentText, mul_assoc, ← htext]
    have h : comment.languageFrom 2 = oneOf {'-'} * comment.languageFrom 2 +
        (oneOf (symbolic.chars ∪ {'\n', '\r'})ᶜ * comment.languageFrom 3 + comment.endHere 2) := by
      refine languageFrom_eq ?_ ?_ ?_
      · rintro c rfl
        rfl
      · intro c hc
        have hopens := opensCommentText_iff.mpr hc
        have hdash : c ≠ '-' := by
          rintro rfl
          contradiction
        rw [next, if_neg hdash, if_pos hopens]
      · intro c hdash hc
        have hne : c ≠ '-' := hdash
        rw [next, if_neg hne, if_neg (mt opensCommentText_iff.mp hc), dead]
    have haccepting : comment.endHere 2 = 1 := rfl
    rwa [haccepting, add_comm (oneOf _ * _) 1] at h
  have hsecond : comment.languageFrom 1 = oneOf {'-'} * ((oneOf {'-'})∗ * commentText) :=
    languageFrom_of_char rfl (fun _ => rfl) hdashes
  rw [languageFrom_of_char rfl (fun _ => rfl) hsecond, language]
  simp only [mul_assoc]

/-- Behind its first characters a literal waits for the others. -/
theorem languageFrom_literal {text : List Char} (nonempty : text ≠ []) {before after : List Char}
    (h : before ++ after = text) :
    (literal text nonempty).languageFrom before.length = {after} := by
  induction after generalizing before with
  | nil =>
      have hlength : before.length = text.length := by rw [← h, List.append_nil]
      have hbeyond : text[before.length]? = none := by rw [hlength, List.getElem?_length]
      refine languageFrom_of_end (beq_iff_eq.mpr hlength) ?_
      intro c
      rw [next, hbeyond, if_neg (Option.some_ne_none c).symm, dead]
  | cons d after ih =>
      have hlength : before.length ≠ text.length := by
        rw [← h, List.length_append, List.length_cons]
        omega
      have hnext : text[before.length]? = some d := by
        rw [← h, List.getElem?_append_right le_rfl, Nat.sub_self, List.getElem?_cons_zero]
      have hafter := @ih (before ++ [d]) (by rw [List.append_assoc, List.singleton_append, h])
      rw [List.length_append, List.length_singleton] at hafter
      rw [← oneOf_mul_singleton]
      refine languageFrom_of_char (beq_false_of_ne hlength) ?_ hafter
      intro c
      simp only [next, hnext, Option.some.injEq, eq_comm, dead]

/-! ## The result -/

theorem languageFrom_zero (r : Recognizer) : r.languageFrom 0 = r.language := by
  cases r with
  | identifier => exact languageFrom_identifier
  | numeral => exact languageFrom_numeral
  | boolean => exact languageFrom_boolean
  | operator => exact languageFrom_operator
  | blank => exact languageFrom_blank
  | comment => exact languageFrom_comment
  | literal text nonempty => exact languageFrom_literal nonempty (List.nil_append text)

theorem mem_language_of_accepts {r : Recognizer} {w : List Char} (h : r.accepts w = true) :
    w ∈ r.language := by
  rw [← languageFrom_zero]
  exact h

theorem accepts_of_mem_language {r : Recognizer} {w : List Char} (h : w ∈ r.language) :
    r.accepts w = true := by
  rw [← languageFrom_zero] at h
  exact h

/-- **A recognizer accepts the texts of its language and no others.** -/
theorem accepts_iff_mem_language (r : Recognizer) (w : List Char) :
    r.accepts w = true ↔ w ∈ r.language :=
  ⟨mem_language_of_accepts, accepts_of_mem_language⟩

end Recognizer
end Frontend
