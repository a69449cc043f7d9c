import Frontend.Proofs.Lexing.Attempt

/-!
# Maximal munch

What a lexer is expected to do can be said without a lexer.  At the start of each lexeme take the
greatest length at which some recognizer accepts a beginning of the text that is left; the lexeme is
that beginning, its class is the one of the first recognizer to accept it, and the next lexeme
starts right after it.  If no beginning is accepted the first character is unexpected, and that is
the end.  `Munch` is this rule as a derivation: each recognizer is run alone and from its start, on
texts of any length, and nothing is said of scanning, looking ahead or stopping early.

The rule determines the items (`Munch.unique`), and a lexer that keeps the discarded lexemes follows
it (`munch_items`).  As the end of a lexer is final, this settles the answer to every call.
-/

namespace Frontend

open TokenStream (answer items)

/-- `Munch recognizers p text items`: cutting up `text`, which starts at `p`, yields `items`. -/
inductive Munch (recognizers : List Recognizer) : Position → List Char → List Item → Prop where
  | done {p} : Munch recognizers p [] []
  | lexeme {p text n r items} :
      IsGreatest (acceptedLengths recognizers text) n →
      recognizers.find? (·.accepts (text.take n)) = some r →
      Munch recognizers (p.advanceOver (text.take n)) (text.drop n) items →
      Munch recognizers p text
        (.ok ⟨.covering p (text.take n), ⟨String.ofList (text.take n), r.tokenClass⟩⟩ :: items)
  | unexpected {p c rest} : acceptedLengths recognizers (c :: rest) = ∅ →
      Munch recognizers p (c :: rest) [.error ⟨.single p, .unexpectedCharacter c⟩]

variable {recognizers : List Recognizer}

theorem acceptedLengths_nil : acceptedLengths recognizers [] = ∅ := by
  refine Set.eq_empty_iff_forall_notMem.mpr ?_
  intro n hn
  have hpos : 1 ≤ n := hn.1
  have hle : n ≤ 0 := hn.2.1
  omega

namespace Munch

variable {p : Position} {text : List Char} {items items' : List Item}

/-- The rule leaves no choice. -/
theorem unique (h : Munch recognizers p text items) (h' : Munch recognizers p text items') :
    items = items' := by
  induction h generalizing items' with
  | done =>
      cases h' with
      | done => rfl
      | lexeme hn _ _ => exact absurd acceptedLengths_nil hn.nonempty.ne_empty
  | lexeme hn hr _ ih =>
      cases h' with
      | done => exact absurd acceptedLengths_nil hn.nonempty.ne_empty
      | lexeme hn' hr' hrest' =>
          -- the same length, so the same recognizer and the same rest
          obtain rfl := hn.unique hn'
          obtain rfl := Option.some.inj (hr.symm.trans hr')
          rw [ih hrest']
      | unexpected hempty => exact absurd hempty hn.nonempty.ne_empty
  | unexpected hempty =>
      cases h' with
      | lexeme hn _ _ => exact absurd hempty hn.nonempty.ne_empty
      | unexpected => rfl

/-- A beginning of a text that is the longest match is its first lexeme. -/
theorem lexeme_append {w rest : List Char} {r : Recognizer}
    (hgreatest : IsGreatest (acceptedLengths recognizers (w ++ rest)) w.length)
    (hfind : recognizers.find? (·.accepts w) = some r)
    (hrest : Munch recognizers (p.advanceOver w) rest items) :
    Munch recognizers p (w ++ rest)
      (.ok ⟨.covering p w, ⟨String.ofList w, r.tokenClass⟩⟩ :: items) := by
  have htake : (w ++ rest).take w.length = w := List.take_left
  have hfind' : recognizers.find? (·.accepts ((w ++ rest).take w.length)) = some r := by
    rwa [htake]
  have hrest' : Munch recognizers (p.advanceOver ((w ++ rest).take w.length))
      ((w ++ rest).drop w.length) items := by
    rwa [htake, List.drop_left]
  have h := Munch.lexeme hgreatest hfind' hrest'
  rwa [htake] at h

/-- A text that is recognized as a whole is its only lexeme. -/
theorem of_find? {r : Recognizer} (h : recognizers.find? (·.accepts text) = some r) :
    Munch recognizers p text [.ok ⟨.covering p text, ⟨String.ofList text, r.tokenClass⟩⟩] := by
  have haccepts : r.accepts text = true := by simpa using List.find?_some h
  have hgreatest : IsGreatest (acceptedLengths recognizers (text ++ [])) text.length := by
    rw [List.append_nil]
    refine ⟨⟨?_, le_rfl, r, List.mem_of_find?_eq_some h, ?_⟩, fun n hn => hn.2.1⟩
    · exact List.length_pos_iff.mpr (Recognizer.ne_nil_of_accepts haccepts)
    · rwa [List.take_length]
  have hmunch := lexeme_append (p := p) hgreatest h .done
  rwa [List.append_nil] at hmunch

/-- The text of a token is recognized, and the first recognizer to do so is of its class. -/
theorem find?_of_mem (h : Munch recognizers p text items) {token : Token}
    (hmem : .ok token ∈ items) :
    ∃ r, recognizers.find? (·.accepts token.value.text.toList) = some r ∧
      r.tokenClass = token.value.tokenClass := by
  induction h with
  | done => simp at hmem
  | @lexeme p text n r items hgreatest hfind hrest ih =>
      rcases List.mem_cons.mp hmem with heq | hmem
      · obtain rfl := Except.ok.inj heq
        refine ⟨r, ?_, rfl⟩
        rwa [String.toList_ofList]
      · exact ih hmem
  | unexpected => simp at hmem

/-- Nothing comes after a place that no token stands at. -/
theorem length_le_of_not_token (h : Munch recognizers p text items) {k : ℕ}
    (hk : ∀ token, items[k]? ≠ some (.ok token)) : items.length ≤ k + 1 := by
  induction h generalizing k with
  | done => exact Nat.zero_le _
  | lexeme _ _ _ ih =>
      cases k with
      | zero => exact absurd rfl (hk _)
      | succ k => exact Nat.succ_le_succ (ih fun token => by simpa using hk token)
  | unexpected => exact Nat.le_add_left 1 k

end Munch

/-! ## The lexer follows the rule -/

theorem items_of_finished {l : Lexer} (h : l.finished = true) : items l = [] :=
  TokenStream.items_of_none (Lexer.next_of_finished h)

/-- What a lexer still yields is what the rule cuts from the text ahead of it. -/
theorem munch_items (l : Lexer) (hkeep : l.yieldsDiscarded = true) (hf : l.finished = false) :
    Munch l.recognizers l.position l.cursor.pending (items l) := by
  -- by the length of the text ahead, from which every lexeme takes something
  induction hlen : l.cursor.pending.length using Nat.strongRecOn generalizing l with
  | _ length ih =>
  have hcall := Lexer.call_next hkeep
  rcases hnext : TokenStream.next l with ⟨⟨item, l'⟩, events⟩
  simp only [hnext] at hcall
  cases hcall with
  | finished h =>
      rw [hf] at h
      contradiction
  | atEnd _ hpending =>
      rw [TokenStream.items_of_none hnext, hpending]
      exact .done
  | @lexeme m _ hscan =>
      have hpos : 1 ≤ m.length := m.length_pos
      have hle : m.length ≤ l.cursor.pending.length := Scan.length_le hscan
      have hless : (l.cursor.pending.drop m.length).length < length := by
        rw [List.length_drop]
        omega
      have hrest := ih _ hless { l with cursor := (l.cursor.look l.recognizers).skip m.length }
        hkeep hf rfl
      obtain ⟨r, hfind, hclass⟩ := Scan.exists_find?_accepts hscan
      rw [TokenStream.items_of_some hnext, Cursor.lexeme, ← hclass]
      exact .lexeme (Scan.isGreatest_length hscan) hfind hrest
  | unexpected _ hpending hscan =>
      have hempty := Scan.acceptedLengths_eq_empty hscan
      rw [TokenStream.items_of_some hnext, items_of_finished rfl]
      rw [hpending] at hempty ⊢
      exact .unexpected hempty

/-- **A lexer that keeps everything cuts its source up by maximal munch.**  There is exactly one way
to follow the rule, the calls answer with its items in order, and once a call has not answered with
a token all later ones answer with nothing. -/
theorem answer_maximalMunch (recognizers : List Recognizer) (source : List Char) :
    ∃ items, (∀ items', Munch recognizers .start source items' ↔ items' = items) ∧
      (∀ k, answer (Lexer.start recognizers true source) k = items[k]?) ∧
      ∀ k, (∀ token, answer (Lexer.start recognizers true source) k ≠ some (.ok token)) →
        ∀ j, k < j → answer (Lexer.start recognizers true source) j = none := by
  have hmunch := munch_items (Lexer.start recognizers true source) rfl rfl
  have hanswer := TokenStream.answer_eq_getElem? (Lexer.start recognizers true source)
  refine ⟨items (Lexer.start recognizers true source), ?_, hanswer, ?_⟩
  · intro items'
    refine ⟨fun h => h.unique hmunch, ?_⟩
    intro heq
    rw [heq]
    exact hmunch
  · intro k hk j hj
    have hitem : ∀ token, (items (Lexer.start recognizers true source))[k]? ≠ some (.ok token) := by
      intro token
      rw [← hanswer]
      exact hk token
    have hlength := hmunch.length_le_of_not_token hitem
    rw [hanswer]
    apply List.getElem?_eq_none
    omega

end Frontend
