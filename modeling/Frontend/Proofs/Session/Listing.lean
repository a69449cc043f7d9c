import Frontend.Proofs.Lexing.Filters
import Frontend.Proofs.Session.Accounting
import Frontend.Proofs.Source.Lines
import Frontend.Proofs.Syntax.Unambiguous

/-!
# Listings

A listing has a line for each token, with its text and its class between quotation marks.  It is
made of all tokens of a file at once, so there is nothing in it if there is an error anywhere.

Nothing is escaped in a listing.  That it can be read back all the same is due to what the tokens of
MH are made of: none of them has a quotation mark or a newline in it, since every recognizer of a
token that is handed out dies at both of them (`Recognizer.mark_notMem_of_accepts`), nor has the
name of its class.  Such lexemes are `Plain`.  Newlines divide a listing of plain lexemes into its
lines and quotation marks divide a line into the parts of the lexeme, which is all that
`Listing.read?` goes by.
-/

namespace Frontend

open TokenStream (items)

/-- The characters that divide a listing. -/
def listingMarks : List Char := ['"', '\n']

/-- Neither the text nor the name of the class has a character in it that divides a listing. -/
structure Lexeme.Plain (l : Lexeme) : Prop where
  text : ∀ c ∈ listingMarks, c ∉ l.text.toList
  name : ∀ c ∈ listingMarks, c ∉ l.tokenClass.name.toList

/-! ## The tokens of MH -/

namespace Recognizer

variable {r : Recognizer}

/-- The recognizers of the lexemes that are handed out. -/
def visible : List Recognizer := mhRecognizers.filter fun r => !r.isDiscarded

theorem mark_notMem_of_accepts (hr : r ∈ visible) {w : List Char} (h : r.accepts w = true) :
    ∀ c ∈ listingMarks, c ∉ w := by
  have hdead : ∀ r ∈ visible, ∀ state < r.stateCount,
      (listingMarks.all fun c => r.next state c == r.dead) = true := by decide
  exact notMem_of_accepts_of_all_dead hdead hr h

theorem mark_notMem_name (hr : r ∈ visible) : ∀ c ∈ listingMarks, c ∉ r.tokenClass.name.toList := by
  have hall : ∀ r ∈ visible,
      (listingMarks.all fun c => decide (c ∉ r.tokenClass.name.toList)) = true := by decide
  intro c hc
  exact of_decide_eq_true (List.all_eq_true.mp (hall r hr) c hc)

end Recognizer

namespace Lexeme

variable {l : Lexeme}

theorem IsWord.plain (h : l.IsWord) : l.Plain := by
  obtain ⟨r, hfind, hclass⟩ := h.recognized
  have hkept : r.tokenClass ≠ .discarded := by
    rw [hclass]
    exact h.tokenClass_ne
  have hr : r ∈ Recognizer.visible :=
    List.mem_filter.mpr ⟨List.mem_of_find?_eq_some hfind, by simpa [Recognizer.isDiscarded]⟩
  refine ⟨Recognizer.mark_notMem_of_accepts hr (by simpa using List.find?_some hfind), ?_⟩
  rw [← hclass]
  exact Recognizer.mark_notMem_name hr

/-- A lexeme that was classified by its text is plain if the text is. -/
theorem Plain.of_checks {token : Token} {item : Item} (h : item.Checks (.ok token))
    (hitem : ∀ token', item = .ok token' → token'.value.Plain) : token.value.Plain := by
  cases h with
  | other => exact hitem token rfl
  | known => exact ⟨(hitem _ rfl).text, (hitem _ rfl).text⟩

end Lexeme

theorem Lexer.plain_of_mem_items {source : List Char} {token : Token}
    (h : .ok token ∈ items (start mhRecognizers false source)) : token.value.Plain := by
  have hmem : token.value ∈ lexemesOf source :=
    List.mem_map_of_mem (List.mem_filterMap.mpr ⟨.ok token, h, rfl⟩)
  exact (isWord_of_mem_lexemesOf hmem).plain

namespace Session

variable {s : Session} {tokens : List Token}

/-- **All tokens of MH are plain, whether their operators were checked or not.** -/
theorem plain_of_mem_tokens (hmh : s.config.recognizers = mhRecognizers)
    (htokens : s.tokens.value = .ok tokens) : ∀ token ∈ tokens, token.value.Plain := by
  intro token hmem
  unfold Session.tokens at htokens
  rw [hmh] at htokens
  have hok : (.ok token : Item) ∈ tokens.map .ok := List.mem_map_of_mem hmem
  split at htokens
  · rw [TokenStream.value_collect_eq_ok_iff, OperatorCheck.items_of] at htokens
    rw [← htokens] at hok
    obtain ⟨item, hitem, hchecked⟩ := List.mem_map.mp ((untilError_isPrefix _).subset hok)
    have hchecks : item.Checks (.ok token) := hchecked ▸ item.checks_checkOperator
    refine .of_checks hchecks ?_
    rintro token' rfl
    exact Lexer.plain_of_mem_items hitem
  · rw [TokenStream.value_collect_eq_ok_iff] at htokens
    rw [← htokens] at hok
    exact Lexer.plain_of_mem_items hok

end Session

/-! ## Reading a listing -/

namespace Listing

/-- The lexeme of a line. -/
def readLine? (line : List Char) : Option Lexeme :=
  match line.splitOn '"' with
  | [_, text, _, name, _] => some ⟨String.ofList text, ⟨String.ofList name⟩⟩
  | _ => none

/-- The lexemes of a text, each on a line that is ended by a newline. -/
def read? (text : String) : Option (List Lexeme) :=
  (text.toList.splitOn '\n').dropLast.mapM readLine?

theorem toList_render (l : Lexeme) : l.render.toList =
    '"' :: (l.text.toList ++ '"' :: (" of class ".toList ++ '"' ::
      (l.tokenClass.name.toList ++ ['"']))) := by
  simp [Lexeme.render, String.toList_append]

theorem newline_notMem_render {l : Lexeme} (h : l.Plain) : '\n' ∉ l.render.toList := by
  have htext : '\n' ∉ l.text.toList := h.text _ (by decide)
  have hname : '\n' ∉ l.tokenClass.name.toList := h.name _ (by decide)
  simp [toList_render, htext, hname]

theorem readLine?_render {l : Lexeme} (h : l.Plain) : readLine? l.render.toList = some l := by
  have hbetween : '"' ∉ " of class ".toList := by decide
  have hparts : l.render.toList.splitOn '"' =
      [[], l.text.toList, " of class ".toList, l.tokenClass.name.toList, []] := by
    rw [toList_render, ← List.nil_append ('"' :: _),
      List.splitOn_append_cons_self_of_not_mem List.not_mem_nil,
      List.splitOn_append_cons_self_of_not_mem (h.text _ (by decide)),
      List.splitOn_append_cons_self_of_not_mem hbetween,
      List.splitOn_append_cons_self_of_not_mem (h.name _ (by decide)), List.splitOn_nil]
  rw [readLine?, hparts]
  simp

variable {tokens : List Token}

/-- **The newlines of a listing divide it into its lines.** -/
theorem splitOn_listing (h : ∀ token ∈ tokens, token.value.Plain) :
    (Session.listing tokens).toList.splitOn '\n' =
      tokens.map (·.value.render.toList) ++ [[]] := by
  induction tokens with
  | nil => rfl
  | cons token tokens ih =>
      obtain ⟨htoken, htokens⟩ := List.forall_mem_cons.mp h
      have hcons : (Session.listing (token :: tokens)).toList =
          token.value.render.toList ++ '\n' :: (Session.listing tokens).toList := by
        simp [Session.listing, String.toList_append]
      rw [hcons, List.splitOn_append_cons_self_of_not_mem (newline_notMem_render htoken),
        ih htokens, List.map_cons, List.cons_append]

theorem read?_listing (h : ∀ token ∈ tokens, token.value.Plain) :
    read? (Session.listing tokens) = some (tokens.map (·.value)) := by
  rw [read?, splitOn_listing h, List.dropLast_concat]
  induction tokens with
  | nil => rfl
  | cons token tokens ih =>
      obtain ⟨htoken, htokens⟩ := List.forall_mem_cons.mp h
      rw [List.map_cons, List.mapM_cons, readLine?_render htoken, ih htokens]
      rfl

theorem count_newline_listing (h : ∀ token ∈ tokens, token.value.Plain) :
    (Session.listing tokens).toList.count '\n' = tokens.length := by
  have hlength := length_splitOn (Session.listing tokens).toList
  rw [splitOn_listing h, List.length_append, List.length_map, List.length_singleton] at hlength
  exact (Nat.add_right_cancel hlength).symm

end Listing

/-! ## Listing a file -/

namespace Session

theorem result_listTokens (s : Session) : s.listTokens.value.result =
    match s.tokens.value with
    | .ok tokens => listing tokens
    | .error _ => "" := by
  obtain ⟨out, hlex⟩ := s.tallies_lex
  show (s.lex.value.result.map listing).getD "" = _
  rw [hlex]
  cases s.tokens.value <;> rfl

theorem events_listTokens (s : Session) : s.listTokens.events = s.lex.events := List.append_nil _

end Session

/-- **A listing is all or nothing, and can be read back.**  A file is listed with a line for each of
its tokens, in order, or if there is an error anywhere with no line at all; all else is as it is
when the file is lexed.  With the recognizers of MH, whether operators are checked or not, a listing
has as many lines as there are tokens, and the lexemes can be read from it.  So files with the same
listing have the same lexemes. -/
theorem listing_complete_and_readable :
    (∀ s : Session,
      s.listTokens.value.result = (match s.tokens.value with
        | .ok tokens => String.join (tokens.map fun token =>
            "\"" ++ token.value.text ++ "\" of class \"" ++ token.value.tokenClass.name ++ "\"" ++
              "\n")
        | .error _ => "") ∧
      s.listTokens.value.written = s.lex.value.written ∧
      s.listTokens.value.session = s.lex.value.session ∧
      s.listTokens.events = s.lex.events) ∧
    ∀ (s : Session) (tokens : List Token), s.config.recognizers = mhRecognizers →
      s.tokens.value = .ok tokens →
      s.listTokens.value.result.toList.count '\n' = tokens.length ∧
      Listing.read? s.listTokens.value.result = some (tokens.map (·.value)) ∧
      ∀ (s' : Session) (tokens' : List Token), s'.config.recognizers = mhRecognizers →
        s'.tokens.value = .ok tokens' →
        s'.listTokens.value.result = s.listTokens.value.result →
        tokens'.map (·.value) = tokens.map (·.value) := by
  have hread : ∀ (s : Session) (tokens : List Token), s.config.recognizers = mhRecognizers →
      s.tokens.value = .ok tokens →
      Listing.read? s.listTokens.value.result = some (tokens.map (·.value)) := by
    intro s tokens hmh htokens
    rw [s.result_listTokens, htokens]
    exact Listing.read?_listing (Session.plain_of_mem_tokens hmh htokens)
  refine ⟨?_, ?_⟩
  · intro s
    exact ⟨s.result_listTokens, rfl, rfl, s.events_listTokens⟩
  · intro s tokens hmh htokens
    refine ⟨?_, hread s tokens hmh htokens, ?_⟩
    · rw [s.result_listTokens, htokens]
      exact Listing.count_newline_listing (Session.plain_of_mem_tokens hmh htokens)
    · intro s' tokens' hmh' htokens' hsame
      -- both lists of lexemes are what is read from the one listing
      have hboth : some (tokens'.map (·.value)) = some (tokens.map (·.value)) := by
        calc some (tokens'.map (·.value))
            = Listing.read? s'.listTokens.value.result := (hread s' tokens' hmh' htokens').symm
          _ = Listing.read? s.listTokens.value.result := by rw [hsame]
          _ = some (tokens.map (·.value)) := hread s tokens hmh htokens
      exact Option.some.inj hboth

/-- Two files that differ in a blank have the same listing. -/
theorem listing_complete_and_readable_blank :
    let lexemes : List Lexeme := [.literal "if", ⟨"x", .identifier⟩]
    let config : Config := ⟨mhRecognizers, false, .plain⟩
    let s := Session.start config ⟨"if x".toList, by simp⟩
    let s' := Session.start config ⟨"if\nx".toList, by simp⟩
    ∃ tokens tokens', s.tokens.value = .ok tokens ∧ s'.tokens.value = .ok tokens' ∧
      s.listTokens.value.result = "\"if\" of class \"if\"\n\"x\" of class \"VAR\"\n" ∧
      s'.listTokens.value.result = s.listTokens.value.result ∧
      Listing.read? s.listTokens.value.result = some lexemes ∧
      tokens'.map (·.value) = tokens.map (·.value) := by
  intro lexemes config s s'
  have hkeyword : Reads "if" [.literal "if"] := Lexeme.IsWord.reads (l := .literal "if") (by decide)
  have hname : Reads "x" [⟨"x", .identifier⟩] :=
    Lexeme.IsWord.reads (l := ⟨"x", .identifier⟩) (by decide)
  obtain ⟨tokens, htokens, hvalues⟩ := (hkeyword.spaced hname).yields.tokenize
  obtain ⟨tokens', htokens', hvalues'⟩ :=
    (hkeyword.join "\n" (by decide) (by decide) hname).yields.tokenize
  have hresult : ∀ tokens : List Token, tokens.map (·.value) = lexemes →
      Session.listing tokens = "\"if\" of class \"if\"\n\"x\" of class \"VAR\"\n" := by
    intro tokens hvalues
    have hlines : tokens.map (fun token => token.value.render ++ "\n") =
        lexemes.map (fun l => l.render ++ "\n") := by
      rw [← hvalues, List.map_map]
      rfl
    rw [Session.listing, hlines]
    decide
  have hlisting : s.listTokens.value.result = Session.listing tokens := by
    rw [s.result_listTokens, show s.tokens.value = .ok tokens from htokens]
  have hlisting' : s'.listTokens.value.result = Session.listing tokens' := by
    rw [s'.result_listTokens, show s'.tokens.value = .ok tokens' from htokens']
  have hsame : s'.listTokens.value.result = s.listTokens.value.result := by
    rw [hlisting, hlisting', hresult tokens hvalues, hresult tokens' hvalues']
  obtain ⟨-, hread, hlexemes⟩ := listing_complete_and_readable.2 s tokens rfl htokens
  exact ⟨tokens, tokens', htokens, htokens', hlisting.trans (hresult tokens hvalues), hsame,
    hread.trans (congrArg some hvalues), hlexemes s' tokens' rfl htokens' hsame⟩

end Frontend
