import Frontend.Proofs.Lexing.Checking
import Frontend.Proofs.Lexing.Discarding
import Frontend.Proofs.Lexing.Words

/-!
# Spacing

Blanks separate lexemes and have no other meaning.  Take the lexemes that a source text yields, up
to its end or its first error, and write them down again with any blanks before, between and after
them; only between two of them there has to be one.  Then the new text yields the same lexemes, and
without an error (`tokenize_spaced`).  So whatever the old text had between them is not needed,
comments included.

`Yields` says what a text is cut into, wherever it starts.  A text is put together from its end on,
by a word in front of a blank (`Yields.word_append`) or by blanks in front of a word
(`Yields.gap_append`).
-/

namespace Frontend

open CharClass
open TokenStream (items)

/-- The words of a text with gaps around them: `gap k` comes before the word with `k` others in
front of it, and the last gap after all words. -/
def spaced (gap : ℕ → List Char) : List (List Char) → List Char
  | [] => gap 0
  | w :: words => gap 0 ++ (w ++ spaced (fun k => gap (k + 1)) words)

/-- The lexemes that a source text yields, up to its end or its first error. -/
def lexemesOf (source : List Char) : List Lexeme :=
  ((items (Lexer.start mhRecognizers false source)).filterMap Except.toOption).map Located.value

/-! ## Cutting up a text -/

/-- Cutting up `text` goes through to its end, and leaves `lexemes` if those of discarded classes
are left out. -/
def Yields (text : List Char) (lexemes : List Lexeme) : Prop :=
  ∀ p, ∃ (items : List Item) (tokens : List Token), Munch mhRecognizers p text items ∧
    items.filter Item.isVisible = tokens.map .ok ∧ tokens.map Located.value = lexemes

namespace Yields

variable {text rest gap : List Char} {lexemes : List Lexeme} {l : Lexeme}

theorem nil : Yields [] [] := fun _ => ⟨[], [], .done, rfl, rfl⟩

/-- A word that is the longest match comes before whatever the rest of the text yields. -/
theorem append_of_isGreatest (h : Yields rest lexemes) (hl : l.IsWord)
    (hgreatest : IsGreatest (acceptedLengths mhRecognizers (l.text.toList ++ rest))
      l.text.toList.length) : Yields (l.text.toList ++ rest) (l :: lexemes) := by
  intro p
  obtain ⟨r, hfind, hclass⟩ := hl.recognized
  obtain ⟨items, tokens, hmunch, hvisible, hvalues⟩ := h (p.advanceOver l.text.toList)
  have hstep := Munch.lexeme_append hgreatest hfind hmunch
  rw [String.ofList_toList, hclass] at hstep
  refine ⟨_, ⟨.covering p l.text.toList, l⟩ :: tokens, hstep, ?_, ?_⟩
  · rw [List.filter_cons_of_pos (by simp [Item.isVisible, hl.visible]), hvisible, List.map_cons]
  · rw [List.map_cons, hvalues]

theorem word_append (h : Yields rest lexemes) (hl : l.IsWord)
    (hrest : ∀ c v, rest = c :: v → whitespace.contains c = true) :
    Yields (l.text.toList ++ rest) (l :: lexemes) :=
  h.append_of_isGreatest hl (hl.isGreatest_length hrest)

theorem gap_append (h : Yields text lexemes) (hblank : ∀ c ∈ gap, whitespace.contains c = true)
    (htext : ∀ c v, text = c :: v → whitespace.contains c = false) :
    Yields (gap ++ text) lexemes := by
  by_cases hgap : gap = []
  · rwa [hgap, List.nil_append]
  intro p
  obtain ⟨items, tokens, hmunch, hvisible, hvalues⟩ := h (p.advanceOver gap)
  have hstep := Munch.lexeme_append (isGreatest_length_gap hgap hblank htext)
    (find?_accepts_gap hgap hblank) hmunch
  refine ⟨_, tokens, hstep, ?_, hvalues⟩
  rw [List.filter_cons_of_neg (by simp [Item.isVisible, Lexeme.isDiscarded, Recognizer.tokenClass]),
    hvisible]

end Yields

/-! ## Spaced words -/

section

variable {gap : ℕ → List Char}

/-- A text that is not empty has its first character whatever comes behind it. -/
theorem exists_eq_cons_of_append_eq_cons {w rest : List Char} {c : Char} {v : List Char}
    (hw : w ≠ []) (h : w ++ rest = c :: v) : ∃ w', w = c :: w' := by
  obtain ⟨hnil, -⟩ | ⟨w', hcons, -⟩ := List.append_eq_cons_iff.mp h
  · exact absurd hnil hw
  · exact ⟨w', hcons⟩

/-- Behind a word there is a blank or nothing at all. -/
theorem whitespace_head_spaced {words : List (List Char)}
    (hblank : ∀ c ∈ gap 0, whitespace.contains c = true) (hgap : words ≠ [] → gap 0 ≠ [])
    {c : Char} {v : List Char} (h : spaced gap words = c :: v) : whitespace.contains c = true := by
  refine hblank c ?_
  cases words with
  | nil =>
      have hall : gap 0 = c :: v := h
      rw [hall]
      exact List.mem_cons_self
  | cons w words =>
      obtain ⟨before, hbefore⟩ :=
        exists_eq_cons_of_append_eq_cons (hgap (List.cons_ne_nil _ _)) h
      rw [hbefore]
      exact List.mem_cons_self

theorem not_whitespace_head_word {l : Lexeme} (hl : l.IsWord) {rest : List Char} {c : Char}
    {v : List Char} (h : l.text.toList ++ rest = c :: v) : whitespace.contains c = false := by
  obtain ⟨w, hw⟩ := exists_eq_cons_of_append_eq_cons hl.ne_nil h
  exact hl.not_whitespace c (by simp [hw])

/-- **Words with blanks around them yield these words.** -/
theorem yields_spaced {lexemes : List Lexeme} (hwords : ∀ l ∈ lexemes, l.IsWord)
    (hblank : ∀ k, ∀ c ∈ gap k, whitespace.contains c = true)
    (hgap : ∀ k, 0 < k → k < lexemes.length → gap k ≠ []) :
    Yields (spaced gap (lexemes.map (·.text.toList))) lexemes := by
  induction lexemes generalizing gap with
  | nil =>
      have h : Yields (gap 0 ++ []) [] := Yields.nil.gap_append (hblank 0) nofun
      rwa [List.append_nil] at h
  | cons l lexemes ih =>
      obtain ⟨hl, hwords⟩ := List.forall_mem_cons.mp hwords
      have hrest := @ih (fun k => gap (k + 1)) hwords (fun k => hblank (k + 1))
        fun k _ hk => hgap (k + 1) k.succ_pos (Nat.succ_lt_succ hk)
      have hnext : lexemes.map (·.text.toList) ≠ [] → gap 1 ≠ [] := by
        intro hne
        have hpos : 0 < lexemes.length := List.length_pos_iff.mpr fun h => hne (by rw [h]; rfl)
        exact hgap 1 Nat.one_pos (Nat.succ_lt_succ hpos)
      have hword := hrest.word_append hl fun c v => whitespace_head_spaced (hblank 1) hnext
      exact hword.gap_append (hblank 0) fun c v => not_whitespace_head_word hl

end

/-! ## The lexemes of a source text -/

/-- The lexer yields what is visible of the one way to cut up its source. -/
theorem items_start_of_munch {source : List Char} {items' : List Item}
    (h : Munch mhRecognizers .start source items') :
    items (Lexer.start mhRecognizers false source) = items'.filter Item.isVisible := by
  rw [Lexer.items_start_eq_filter, (Lexer.munch_items_start mhRecognizers source).unique h]

/-- What is yielded at all is a word. -/
theorem isWord_of_mem_lexemesOf {source : List Char} {l : Lexeme} (h : l ∈ lexemesOf source) :
    l.IsWord := by
  obtain ⟨token, htoken, rfl⟩ := List.mem_map.mp h
  obtain ⟨item, hitem, hok⟩ := List.mem_filterMap.mp htoken
  cases item with
  | error e => simp [Except.toOption] at hok
  | ok token' =>
      obtain rfl := Option.some.inj hok
      have hwon := Lexer.find?_of_mem_items hitem
      rw [Lexer.items_start_eq_filter] at hitem
      exact ⟨hwon, by simpa [Item.isVisible] using (List.mem_filter.mp hitem).2⟩

/-- The lexer yields the tokens of a text that can be cut up to its end, and no error. -/
theorem Yields.items {source : List Char} {lexemes : List Lexeme} (h : Yields source lexemes) :
    ∃ tokens : List Token,
      TokenStream.items (Lexer.start mhRecognizers false source) = tokens.map .ok ∧
        tokens.map Located.value = lexemes := by
  obtain ⟨items', tokens, hmunch, hvisible, hvalues⟩ := h .start
  exact ⟨tokens, by rw [items_start_of_munch hmunch, hvisible], hvalues⟩

/-- A text that can be cut up to its end is tokenized into what it yields. -/
theorem Yields.tokenize {source : List Char} {lexemes : List Lexeme} (h : Yields source lexemes) :
    ∃ tokens, (Frontend.tokenize mhRecognizers source).value = .ok tokens ∧
      tokens.map Located.value = lexemes := by
  obtain ⟨tokens, hitems, hvalues⟩ := h.items
  exact ⟨tokens, TokenStream.value_collect_eq_ok_iff.mpr hitems, hvalues⟩

/-- A lexeme is a word if its text is tokenized into it and nothing else. -/
theorem Lexeme.isWord_iff_tokenize {l : Lexeme} : l.IsWord ↔
    ∃ token, (tokenize mhRecognizers l.text.toList).value = .ok [token] ∧ token.value = l := by
  constructor
  · intro h
    have hyields : Yields (l.text.toList ++ []) [l] := Yields.nil.word_append h nofun
    rw [List.append_nil] at hyields
    obtain ⟨tokens, htokens, hvalues⟩ := hyields.tokenize
    obtain ⟨token, rfl, hvalue⟩ := List.map_eq_singleton_iff.mp hvalues
    exact ⟨token, htokens, hvalue⟩
  · rintro ⟨token, htokenize, rfl⟩
    have hitems := TokenStream.value_collect_eq_ok_iff.mp htokenize
    have hmem : token.value ∈ lexemesOf token.value.text.toList := by
      rw [lexemesOf, hitems]
      exact List.mem_singleton_self _
    exact isWord_of_mem_lexemesOf hmem

/-- **Spacing has no meaning.**  The lexemes of a source text, with any gaps between them, are
tokenized into the same lexemes. -/
theorem tokenize_spaced (source : List Char) (gap : ℕ → List Char)
    (hblank : ∀ k, ∀ c ∈ gap k, whitespace.contains c = true)
    (hgap : ∀ k, 0 < k → k < (lexemesOf source).length → gap k ≠ []) :
    ∃ tokens,
      (tokenize mhRecognizers (spaced gap ((lexemesOf source).map (·.text.toList)))).value =
        .ok tokens ∧ tokens.map Located.value = lexemesOf source := by
  have hwords : ∀ l ∈ lexemesOf source, l.IsWord := fun l => isWord_of_mem_lexemesOf
  exact (yields_spaced hwords hblank hgap).tokenize

/-- The dashes of `-->` would start a comment if the arrow head were left off.  The comment between
the two lexemes is gone from the new text. -/
theorem tokenize_spaced_arrow :
    let lexemes : List Lexeme := [⟨"x", .identifier⟩, ⟨"-->", .operator⟩]
    let gap : ℕ → List Char := fun k => List.replicate k '\n'
    lexemesOf "x--c\n-->".toList = lexemes ∧
      (∀ k, ∀ c ∈ gap k, whitespace.contains c = true) ∧
      (∀ k, 0 < k → k < lexemes.length → gap k ≠ []) ∧
      ∃ tokens, (tokenize mhRecognizers "x\n-->\n\n".toList).value = .ok tokens ∧
        tokens.map Located.value = lexemes := by
  intro lexemes gap
  have harrow : ∀ p, Munch mhRecognizers p (['-', '-', '>'] ++ []) _ := fun p =>
    .lexeme_append (Scan.isGreatest_length (m := ⟨3, .operator, by decide⟩) (by decide))
      (r := .operator) (by decide) .done
  have hcomment : ∀ p, Munch mhRecognizers p (['-', '-', 'c', '\n'] ++ ['-', '-', '>']) _ :=
    fun p => .lexeme_append (Scan.isGreatest_length (m := ⟨4, .discarded, by decide⟩) (by decide))
      (r := .comment) (by decide) (harrow _)
  have hmunch : Munch mhRecognizers .start (['x'] ++ ['-', '-', 'c', '\n', '-', '-', '>']) _ :=
    .lexeme_append (Scan.isGreatest_length (m := ⟨1, .identifier, by decide⟩) (by decide))
      (r := .identifier) (by decide) (hcomment _)
  have hsource : "x--c\n-->".toList = ['x'] ++ ['-', '-', 'c', '\n', '-', '-', '>'] := by decide
  have hlexemes : lexemesOf "x--c\n-->".toList = lexemes := by
    rw [lexemesOf, hsource, items_start_of_munch hmunch]
    decide
  have hblank : ∀ k, ∀ c ∈ gap k, whitespace.contains c = true := by
    intro k c hc
    rw [List.eq_of_mem_replicate hc]
    decide
  have hgap : ∀ k, 0 < k → k < lexemes.length → gap k ≠ [] := by
    intro k hk _
    simpa [gap] using Nat.ne_of_gt hk
  have htext : spaced gap (lexemes.map (·.text.toList)) = "x\n-->\n\n".toList := by decide
  have h := tokenize_spaced "x--c\n-->".toList gap hblank (by rwa [hlexemes])
  rw [hlexemes, htext] at h
  exact ⟨hlexemes, hblank, hgap, h⟩

end Frontend
